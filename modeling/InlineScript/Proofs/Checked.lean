import InlineScript.Proofs.Wrapping

/-! Reading a text by byte offsets, with every slice checked. Nothing is cut off and handed on
here: what is read is a slice of the whole text between two offsets, and a bracket is remembered by
its offset alone. A slice that leaves the text, runs backwards or splits a character has no value,
and one missing value is enough for the whole to have none. Loops run on fuel, so one that does
not end has no value either, whatever the fuel. No slice is ever missing, as the places of a scan
are places of its text. A number can be: the counters are signed numbers of 32 bits, and what a
scan would have to count beyond them has no value. -/

namespace InlineScript

namespace Text

variable {t s u : Text} {start stop : Nat}

theorem size_of_slice? (h : t.slice? start stop = some s) : start + s.size = stop := by
  obtain ⟨-, -, -, -, ends⟩ := slice?_eq_some_iff.mp h
  exact ends

theorem count_slice?_le (c : Char) (h : t.slice? start stop = some s) :
    List.count c s ≤ List.count c t := by
  obtain ⟨before, after, rfl, -, -⟩ := slice?_eq_some_iff.mp h
  rw [List.count_append, List.count_append]
  omega

theorem slice?_split (h : t.slice? start stop = some (s ++ u)) :
    t.slice? start (start + s.size) = some s ∧ t.slice? (start + s.size) stop = some u := by
  obtain ⟨before, after, rfl, rfl, rfl⟩ := slice?_eq_some_iff.mp h
  rw [size_append, List.append_assoc]
  constructor
  · exact slice?_append before s (u ++ after)
  · rw [← List.append_assoc, ← size_append, ← Nat.add_assoc, ← size_append]
    exact slice?_append (before ++ s) u after

theorem slice?_behind (before rest : Text) :
    slice? before.size (size (before ++ rest)) (before ++ rest) = some rest := by
  have whole := slice?_append before rest []
  rwa [List.append_nil, ← size_append] at whole

end Text

namespace Place

variable {text : Text} {p : Place}

theorem On.size (h : p.On text) : p.offset + p.rest.size = text.size := by
  obtain ⟨before, rfl, offset⟩ := h
  rw [offset, Text.size_append]

theorem On.slice? (h : p.On text) : text.slice? p.offset text.size = some p.rest := by
  obtain ⟨before, rfl, offset⟩ := h
  rw [offset]
  exact Text.slice?_behind before p.rest

end Place

namespace Checked

/-- All fuel from some amount on yields the value. -/
def Returns {α : Type} (f : Nat → Option α) (value : α) : Prop :=
  ∃ least, ∀ fuel, least ≤ fuel → f fuel = some value

theorem Returns.of_succ {α : Type} {f : Nat → Option α} {value : α} (least : Nat)
    (h : ∀ fuel, least ≤ fuel → f (fuel + 1) = some value) : Returns f value := by
  refine ⟨least + 1, fun fuel enough => ?_⟩
  obtain ⟨fuel, rfl⟩ := Nat.exists_eq_add_of_le' enough
  exact h _ (Nat.le_add_left least fuel)

theorem Returns.unique {α : Type} {f : Nat → Option α} {a b : α} (first : Returns f a)
    (second : Returns f b) : a = b := by
  obtain ⟨m, first⟩ := first
  obtain ⟨n, second⟩ := second
  have same := (first (max m n) (Nat.le_max_left m n)).symm.trans
    (second (max m n) (Nat.le_max_right m n))
  exact Option.some.inj same

def find (p : Char → Bool) : Text → Option Nat
  | [] => none
  | c :: cs => if p c then some 0 else (find p cs).map (c.utf8Size + ·)

def upTo? (p : Char → Bool) (t : Text) : Option Text :=
  match find p t with
  | some stop => t.slice? 0 stop
  | none => some t

theorem find_append {p : Char → Bool} {run : Text} (skipped : ∀ c ∈ run, p c = false)
    (rest : Text) : find p (run ++ rest) = (find p rest).map (run.size + ·) := by
  induction run with
  | nil => simp
  | cons c run ih =>
    obtain ⟨first, others⟩ := List.forall_mem_cons.mp skipped
    rw [List.cons_append, find, first, ih others]
    simp [Function.comp_def, Nat.add_assoc]

theorem upTo?_eq (p : Char → Bool) (t : Text) :
    upTo? p t = some (t.takeWhile fun c => !p c) := by
  have whole := List.takeWhile_append_dropWhile (p := fun c => !p c) (l := t)
  have skipped : ∀ c ∈ t.takeWhile fun c => !p c, p c = false := by
    intro c mem
    simpa using List.mem_takeWhile_imp mem
  have stop := not_head?_dropWhile (p := fun c => !p c) (t := t)
  generalize t.takeWhile (fun c => !p c) = run at whole skipped ⊢
  generalize t.dropWhile (fun c => !p c) = rest at whole stop
  subst whole
  rw [upTo?, find_append skipped]
  cases rest with
  | nil => simp [find]
  | cons c rest =>
    have found : p c = true := by simpa using stop c rfl
    have front := Text.slice?_append [] run (c :: rest)
    simp only [find, found]
    simpa using front

def seek? (text : Text) (start : Nat) (c : Char) : Option (Option Nat) := do
  let rest ← text.slice? start text.size
  return (find (· = c) rest).map (start + ·)

theorem find_eq_seekFrom (c : Char) (offset : Nat) (t : Text) :
    (find (· = c) t).map (offset + ·) = (Place.seekFrom c offset t).map Place.offset := by
  induction t generalizing offset with
  | nil => rfl
  | cons d t ih =>
    by_cases same : d = c
    · simp [find, same, Place.seekFrom_self]
    · rw [Place.seekFrom_other same, ← ih]
      simp [find, same, Function.comp_def, Nat.add_assoc]

theorem seek?_eq {text : Text} {p : Place} (on : p.On text) (c : Char) :
    seek? text p.offset c = some ((p.seek? c).map Place.offset) := by
  rw [seek?, on.slice?, Place.seek?, ← find_eq_seekFrom]
  rfl

theorem seek?_openers {n k : Nat} (less : k < n) :
    seek? (Text.openers n) k '[' = some (some k) := by
  have on : Place.On (Text.openers n) ⟨k, Text.openers (n - k)⟩ :=
    ⟨_, Text.replicate_append_openers less.le, (Text.size_replicate_opener k).symm⟩
  have found := seek?_eq on '['
  rwa [Text.openers_sub less, ← Text.openers_succ, Place.seek?_opener] at found

/-- One more, as long as that is a signed number of 32 bits. -/
def increment? (n : Nat) : Option Nat := if n + 1 < 2 ^ 31 then some (n + 1) else none

structure Scan where
  opens : Nat
  closes : Nat
  position : Nat
  nextOpen : Option Nat
  nextClose : Option Nat

namespace Scan

def start? (text : Text) : Option Scan := do
  let nextOpen ← seek? text 1 '['
  let nextClose ← seek? text 1 ']'
  return ⟨1, 0, 1, nextOpen, nextClose⟩

def enter? (text : Text) (s : Scan) (opening : Nat) : Option Scan := do
  let opens ← increment? s.opens
  let nextOpen ← seek? text (opening + 1) '['
  return { s with opens, position := opening + 1, nextOpen }

def leave? (text : Text) (s : Scan) (closing : Nat) : Option Scan := do
  let closes ← increment? s.closes
  let nextClose ← seek? text (closing + 1) ']'
  return { s with closes, position := closing + 1, nextClose }

def pass? (text : Text) (s : Scan) (closing : Nat) : Option Scan :=
  match s.nextOpen with
  | some opening => if opening < closing then s.enter? text opening else s.leave? text closing
  | none => s.leave? text closing

def run? (text : Text) : Scan → Nat → Option Extent
  | _, 0 => none
  | s, fuel + 1 =>
    if s.closes < s.opens then
      match s.nextClose with
      | none => some ⟨text.size, false⟩
      | some closing => do
        let t ← s.pass? text closing
        run? text t fuel
    else some ⟨s.position, true⟩

def of (s : Extent.Scan Nat) : Scan :=
  ⟨s.opens, s.closes, s.place.offset, s.nextOpen.map Place.offset, s.nextClose.map Place.offset⟩

variable {text body : Text} {s t : Extent.Scan Nat} {p : Place}

theorem enter?_of (on : s.On text) (next : s.nextOpen = some p) (room : s.opens + 1 < 2 ^ 31) :
    (of s).enter? text p.offset = some (of (s.enter p)) := by
  obtain ⟨here, shows⟩ := on.opening p next
  obtain ⟨behind, offset⟩ := here.next shows rfl
  have counted : increment? (of s).opens = some (s.opens + 1) := if_pos room
  rw [enter?, counted, ← offset, Option.bind_eq_bind, Option.bind_some, seek?_eq behind]
  rfl

theorem leave?_of (on : s.On text) (next : s.nextClose = some p) (room : s.closes + 1 < 2 ^ 31) :
    (of s).leave? text p.offset = some (of (s.leave p)) := by
  obtain ⟨here, shows⟩ := on.closing p next
  obtain ⟨behind, offset⟩ := here.next shows rfl
  have counted : increment? (of s).closes = some (s.closes + 1) := if_pos room
  rw [leave?, counted, ← offset, Option.bind_eq_bind, Option.bind_some, seek?_eq behind]
  rfl

theorem pass?_of (on : s.On text) (step : s.step? = some t) (opens : t.opens < 2 ^ 31)
    (closes : t.closes < 2 ^ 31) :
    ∃ closing, s.nextClose = some closing ∧ (of s).pass? text closing.offset = some (of t) := by
  unfold Extent.Scan.step? at step
  split at step
  · obtain ⟨closing, found, passed⟩ := Option.map_eq_some_iff.mp step
    refine ⟨closing, found, ?_⟩
    cases next : s.nextOpen with
    | none =>
      simp only [next] at passed
      subst passed
      simpa [pass?, of, next] using leave?_of on found closes
    | some opening =>
      simp only [next] at passed
      by_cases nearer : opening.offset < closing.offset
      · rw [if_pos nearer] at passed
        subst passed
        simpa [pass?, of, next, nearer] using enter?_of on next opens
      · rw [if_neg nearer] at passed
        subst passed
        simpa [pass?, of, next, nearer] using leave?_of on found closes
  · cases step

theorem run?_of (below : Extent.Scan.Below (2 ^ 31) body) (here : s.Reached body) :
    Returns (run? ('[' :: body) (of s)) s.run.extent := by
  fun_induction Extent.Scan.run s with
  | case1 s step =>
    refine .of_succ 0 fun fuel _ => ?_
    rw [run?]
    by_cases going : s.closes < s.opens
    · have last : s.nextClose = none := by simpa [Extent.Scan.step?, going] using step
      simp [of, going, last, Extent.Scan.extent, here.on.place.size]
    · simp [of, going, Extent.Scan.extent]
  | case2 s t step ih =>
    have reached := here.step step
    obtain ⟨closing, next, passed⟩ :=
      pass?_of here.on step (below t reached).1 (below t reached).2
    have going : (of s).closes < (of s).opens := (Extent.Scan.step?_cases step).1
    have found : (of s).nextClose = some closing.offset := by simp [of, next]
    obtain ⟨least, others⟩ := ih reached
    refine .of_succ least fun fuel enough => ?_
    rw [run?, if_pos going, found]
    simp only [passed]
    exact others fuel enough

end Scan

def scan? (text : Text) (fuel : Nat) : Option (Option Extent) :=
  if text.head? = some '[' then do
    let s ← Scan.start? text
    let extent ← Scan.run? text s fuel
    return some extent
  else some none

theorem start?_eq (body : Text) :
    Scan.start? ('[' :: body) = some (.of (.start ⟨1, body⟩)) := by
  have behind : Place.On ('[' :: body) ⟨1, body⟩ := ⟨['['], rfl, rfl⟩
  rw [Scan.start?, seek?_eq behind, seek?_eq behind]
  rfl

/-- A checked scan comes to an end and finds what a scan finds, unless it has more to count than
its numbers go. -/
theorem scan?_returns {t : Text} (few : List.count '[' t < 2 ^ 31) :
    Returns (scan? t) (Extent.scan? t) := by
  by_cases bracket : t.head? = some '['
  · obtain ⟨body, rfl⟩ := List.head?_eq_some_iff.mp bracket
    obtain ⟨least, run⟩ := Scan.run?_of (Extent.Scan.below_of_few few) .start
    refine ⟨least, fun fuel enough => ?_⟩
    rw [scan?, if_pos bracket, start?_eq, Extent.scan?_opener]
    simp only [Option.bind_eq_bind, Option.bind_some, run fuel enough]
    rfl
  · refine ⟨0, fun fuel _ => ?_⟩
    rw [scan?, if_neg bracket, Extent.scan?_eq_none_iff.mpr]
    rintro cs rfl
    exact bracket rfl

end Checked

end InlineScript
