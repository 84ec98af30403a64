import InlineScript.Role
import InlineScript.Text

/-! How brackets nest in a text: one counter goes up at an opening bracket, down
at a closing one, and must not fall below zero. Where it would fall first is the
place at which a group that was opened before the text closes. -/

namespace InlineScript.Text

/-- The groups open behind a text when `d` of them are open before it; nothing if
a bracket closes none. -/
def depth? (d : Nat) : Text → Option Nat
  | [] => some d
  | c :: cs =>
    match Role.of c, d with
    | .opener, d => depth? (d + 1) cs
    | .closer, 0 => none
    | .closer, d + 1 => depth? d cs
    | _, d => depth? d cs

def Nests (t : Text) : Prop := ∃ d, depth? 0 t = some d

def Balanced (t : Text) : Prop := depth? 0 t = some 0

/-- No bracket closes a group opened before the text, and all groups that it opens are
closed again if they have to be. -/
def Settles (closes : Bool) (t : Text) : Prop :=
  ∃ d, t.depth? 0 = some d ∧ (closes = true → d = 0)

def Bracketless (t : Text) : Prop := ∀ c ∈ t, c ≠ '[' ∧ c ≠ ']'

@[simp] theorem depth?_nil (d : Nat) : depth? d [] = some d := rfl

@[simp] theorem depth?_opener (d : Nat) (t : Text) : depth? d ('[' :: t) = depth? (d + 1) t := rfl

@[simp] theorem depth?_closer_zero (t : Text) : depth? 0 (']' :: t) = none := rfl

@[simp] theorem depth?_closer_succ (d : Nat) (t : Text) :
    depth? (d + 1) (']' :: t) = depth? d t := rfl

theorem depth?_other {c : Char} (opener : c ≠ '[') (closer : c ≠ ']') (d : Nat) (t : Text) :
    depth? d (c :: t) = depth? d t := by
  cases role : Role.of c with
  | opener => exact absurd (Role.of_eq_opener_iff.mp role) opener
  | closer => exact absurd (Role.of_eq_closer_iff.mp role) closer
  | marker => simp [depth?, role]
  | separator => simp [depth?, role]
  | literal => simp [depth?, role]

theorem depth?_append (d : Nat) (s t : Text) :
    depth? d (s ++ t) = (depth? d s).bind fun e => depth? e t := by
  induction s generalizing d with
  | nil => rfl
  | cons c s ih =>
    rw [List.cons_append]
    by_cases opener : c = '['
    · subst opener
      simp [ih]
    · by_cases closer : c = ']'
      · subst closer
        cases d <;> simp [ih]
      · rw [depth?_other opener closer, depth?_other opener closer, ih]

theorem depth?_bracketless {t : Text} (h : t.Bracketless) (d : Nat) : depth? d t = some d := by
  induction t with
  | nil => rfl
  | cons c t ih =>
    have first := h c List.mem_cons_self
    have others := ih fun x hx => h x (List.mem_cons_of_mem c hx)
    rw [depth?_other first.1 first.2, others]

theorem depth?_add {d e : Nat} {t : Text} (h : depth? d t = some e) (n : Nat) :
    depth? (d + n) t = some (e + n) := by
  induction t generalizing d with
  | nil =>
    have same : d = e := by simpa using h
    rw [same, depth?_nil]
  | cons c t ih =>
    by_cases opener : c = '['
    · subst opener
      have inner := ih (d := d + 1) (by simpa using h)
      rw [depth?_opener, ← inner, show d + n + 1 = d + 1 + n by omega]
    · by_cases closer : c = ']'
      · subst closer
        cases d with
        | zero => simp at h
        | succ d =>
          have inner := ih (d := d) (by simpa using h)
          rw [show d + 1 + n = d + n + 1 by omega, depth?_closer_succ, inner]
      · rw [depth?_other opener closer] at h ⊢
        exact ih h

section
variable {closes : Bool} {s t : Text}

theorem settles_nil (closes : Bool) : Settles closes [] := ⟨0, rfl, fun _ => rfl⟩

theorem settles_append_iff (plain : s.Bracketless) :
    (s ++ t).Settles closes ↔ t.Settles closes := by
  rw [Settles, Settles, depth?_append, depth?_bracketless plain]
  rfl

theorem not_settles_closer : ¬ Settles closes (']' :: t) := by
  intro h
  obtain ⟨d, depth, -⟩ := h
  simp at depth

end

/-- Either all groups open before a text close in it, the last of them at the bracket
shown, or every closing bracket of the text has its opening one. -/
theorem closes_or_depth? (d : Nat) (t : Text) :
    (∃ inner rest, t = inner ++ ']' :: rest ∧ depth? d inner = some 0) ∨
      ∃ e, depth? d t = some e := by
  induction t generalizing d with
  | nil => exact .inr ⟨d, rfl⟩
  | cons c t ih =>
    by_cases opener : c = '['
    · subst opener
      obtain ⟨inner, rest, whole, depth⟩ | open_ := ih (d + 1)
      · exact .inl ⟨'[' :: inner, rest, by rw [whole, List.cons_append], depth⟩
      · exact .inr open_
    · by_cases closer : c = ']'
      · subst closer
        cases d with
        | zero => exact .inl ⟨[], t, rfl, rfl⟩
        | succ d =>
          obtain ⟨inner, rest, whole, depth⟩ | open_ := ih d
          · exact .inl ⟨']' :: inner, rest, by rw [whole, List.cons_append], depth⟩
          · exact .inr open_
      · obtain ⟨inner, rest, whole, depth⟩ | ⟨e, open_⟩ := ih d
        · refine .inl ⟨c :: inner, rest, by rw [whole, List.cons_append], ?_⟩
          rw [depth?_other opener closer, depth]
        · exact .inr ⟨e, by rw [depth?_other opener closer, open_]⟩

end InlineScript.Text
