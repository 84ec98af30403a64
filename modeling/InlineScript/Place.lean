import InlineScript.Text

/-! A place in a text: how many bytes lie before it and what comes from there on. -/

namespace InlineScript

structure Place where
  offset : Nat
  rest : Text
deriving DecidableEq

namespace Place

def start (text : Text) : Place := ⟨0, text⟩

/-- The place `run` further on, for a `run` that the text goes on with. -/
def skip (p : Place) (run : Text) : Place :=
  ⟨p.offset + run.size, p.rest.drop run.length⟩

/-- The place one character further on; the end of the text stays where it is. -/
def next (p : Place) : Place := p.skip (p.rest.take 1)

def seekFrom (c : Char) (offset : Nat) : Text → Option Place
  | [] => none
  | d :: ds => if d = c then some ⟨offset, d :: ds⟩ else seekFrom c (offset + d.utf8Size) ds

/-- The first place from here on at which `c` stands. -/
def seek? (p : Place) (c : Char) : Option Place := seekFrom c p.offset p.rest

theorem skip_append (offset : Nat) (run t : Text) :
    skip ⟨offset, run ++ t⟩ run = ⟨offset + run.size, t⟩ := by
  simp [skip]

theorem next_nil (offset : Nat) : next ⟨offset, []⟩ = ⟨offset, []⟩ := rfl

theorem next_cons (offset : Nat) (c : Char) (cs : Text) :
    next ⟨offset, c :: cs⟩ = ⟨offset + c.utf8Size, cs⟩ := by
  simp [next, skip]

theorem length_seekFrom_le {c : Char} {offset : Nat} {t : Text} {q : Place}
    (h : seekFrom c offset t = some q) : q.rest.length ≤ t.length := by
  fun_induction seekFrom c offset t with
  | case1 => simp at h
  | case2 => cases h; simp
  | case3 _ _ _ _ ih => exact Nat.le_succ_of_le (ih h)

theorem length_seek?_le {c : Char} {p q : Place} (h : p.seek? c = some q) :
    q.rest.length ≤ p.rest.length :=
  length_seekFrom_le h

theorem head_seekFrom {c : Char} {offset : Nat} {t : Text} {q : Place}
    (h : seekFrom c offset t = some q) : ∃ cs, q.rest = c :: cs := by
  fun_induction seekFrom c offset t with
  | case1 => simp at h
  | case2 => cases h; exact ⟨_, rfl⟩
  | case3 _ _ _ _ ih => exact ih h

theorem head_seek? {c : Char} {p q : Place} (h : p.seek? c = some q) :
    ∃ cs, q.rest = c :: cs :=
  head_seekFrom h

end Place

end InlineScript
