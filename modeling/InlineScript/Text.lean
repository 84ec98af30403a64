/-! Text as a list of characters, measured in bytes of its UTF-8 form.
Offsets and lengths everywhere in this library are byte counts, so `cut`
takes a number of bytes; it never splits a character. -/

namespace InlineScript

abbrev Text := List Char

namespace Text

def size : Text → Nat
  | [] => 0
  | c :: cs => c.utf8Size + size cs

/-- Lines end at a line feed and at nothing else. -/
def newlines (t : Text) : Nat := t.count '\n'

/-- Splits after the shortest prefix of at least `n` bytes, or at the end. -/
def cut (n : Nat) (t : Text) : Text × Text :=
  match n, t with
  | 0, t => ([], t)
  | _ + 1, [] => ([], [])
  | n + 1, c :: cs =>
    let (front, back) := cut (n + 1 - c.utf8Size) cs
    (c :: front, back)

/-- The first byte as a text, if it is a whole character. -/
def firstByte? : Text → Option Text
  | [] => none
  | c :: _ => if c.utf8Size = 1 then some [c] else none

def lastByte? (t : Text) : Option Text :=
  t.getLast?.bind fun c => if c.utf8Size = 1 then some [c] else none

/-- What follows the first byte, if that byte is a whole character. -/
def afterByte? : Text → Option Text
  | [] => none
  | c :: cs => if c.utf8Size = 1 then some cs else none

@[simp] theorem size_nil : size [] = 0 := rfl

@[simp] theorem size_cons (c : Char) (t : Text) : size (c :: t) = c.utf8Size + size t := rfl

@[simp] theorem size_append (s t : Text) : size (s ++ t) = size s + size t := by
  induction s with
  | nil => simp
  | cons c s ih => simp [ih, Nat.add_assoc]

theorem size_pos {t : Text} (filled : t ≠ []) : 0 < t.size := by
  obtain ⟨c, cs, rfl⟩ := List.exists_cons_of_ne_nil filled
  have first := c.utf8Size_pos
  rw [size_cons]
  omega

@[simp] theorem newlines_append (s t : Text) : newlines (s ++ t) = newlines s + newlines t := by
  simp [newlines]

theorem cut_append (n : Nat) (t : Text) : (cut n t).1 ++ (cut n t).2 = t := by
  fun_induction cut n t with
  | case1 => rfl
  | case2 => rfl
  | case3 n c cs front back h ih => simpa [h] using ih

theorem cut_size_append (s t : Text) : cut (size s) (s ++ t) = (s, t) := by
  induction s with
  | nil => simp [cut]
  | cons c s ih =>
    obtain ⟨n, hn⟩ := Nat.exists_eq_succ_of_ne_zero (Nat.pos_iff_ne_zero.mp c.utf8Size_pos)
    rw [size_cons, hn, List.cons_append, Nat.succ_add, cut,
      show n + size s + 1 - c.utf8Size = size s by omega, ih]

end Text

end InlineScript
