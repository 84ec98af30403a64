import InlineScript.Proofs.Assembly
import Mathlib.Logic.Relation

/-! The calls from which a tree is built. A call is given an end, and all calls move one cursor;
nothing but the extents of groups and the lengths of names keeps an inner call from going past
the end of an outer one, or a loop from staying where it is. What a call is to read stands in the
text between the cursor and the end, and it makes only calls of which the same is true. -/

namespace InlineScript

namespace Checked

/-- A call of the builder, with the end that it is given and the cursor at which it is made. -/
inductive Call where
  | siblings (stop : Nat) (ctx : Context) (k : Cursor)
  | directive (stop : Nat) (k : Cursor)
  | argument (extent : Extent) (k : Cursor)

namespace Call

def cursor : Call → Cursor
  | siblings _ _ k => k
  | directive _ k => k
  | argument _ k => k

/-- What the cursor must not pass during a call. -/
def stop : Call → Nat
  | siblings stop _ _ => stop
  | directive stop _ => stop
  | argument extent k => k.offset + extent.length

def main (text : Text) : Call := siblings text.size .outside {}

/-- One call makes another. A loop that goes on after a round counts as a call of its own. -/
inductive Makes (text : Text) : Call → Call → Prop
  | again {stop : Nat} {ctx : Context} {k : Cursor} {c : Char} {cs : Text} {step : Step}
      (going : k.offset < stop) (rest : text.slice? k.offset stop = some (c :: cs))
      (round : Returns (round? text stop ctx k c cs) step) :
      Makes text (siblings stop ctx k) (siblings stop ctx step.cursor)
  | directive {stop : Nat} {ctx : Context} {k : Cursor} {c : Char} {cs : Text}
      (going : k.offset < stop) (rest : text.slice? k.offset stop = some (c :: cs))
      (marker : Role.of c = .marker) : Makes text (siblings stop ctx k) (directive stop k)
  | bare {stop : Nat} {ctx : Context} {k : Cursor} {c : Char} {cs : Text} {extent : Extent}
      (going : k.offset < stop) (rest : text.slice? k.offset stop = some (c :: cs))
      (other : Role.of c ≠ .marker) (group : Returns (bare? ctx (c :: cs)) (some extent)) :
      Makes text (siblings stop ctx k) (argument extent k)
  | called {stop : Nat} {k : Cursor} {ident : Step} {rest : Text} {extent : Extent}
      (named : ident? text stop k = some ident)
      (behind : text.slice? ident.cursor.offset stop = some rest)
      (group : Returns (scan? rest) (some extent)) :
      Makes text (directive stop k) (argument extent ident.cursor)
  | inner {extent : Extent} {k inside : Cursor} {content : Text} {stop : Nat}
      (covers : text.slice? k.offset (k.offset + extent.length) = some content)
      (enters : skip? text 1 k = some inside)
      (ends : innerStop? extent (k.span content).stop = some stop) :
      Makes text (argument extent k) (siblings stop .inside inside)

def Reaches (text : Text) : Call → Call → Prop := Relation.ReflTransGen (Makes text)

/-- What a call is to read stands in the text where it is made. -/
def Stands (text : Text) : Call → Prop
  | siblings stop _ k => ∃ slice, text.slice? k.offset stop = some slice
  | directive stop k => ∃ cs, text.slice? k.offset stop = some ('$' :: cs)
  | argument extent k => ∃ (g : Group) (rest : Text), g.Fits rest ∧ extent = g.extent ∧
      text.slice? k.offset (k.advance g.content).offset = some g.content

section
variable {text : Text} {a b : Call} {k : Cursor} {stop : Nat}

theorem step_of {p : Piece} {rest : Text} (filled : p.text ≠ [])
    (parts : text.slice? k.offset stop = some (p.text ++ rest)) :
    k.offset < (Step.of p k).cursor.offset ∧ (Step.of p k).cursor.offset ≤ stop ∧
      text.slice? (Step.of p k).cursor.offset stop = some rest := by
  have behind := (Text.slice?_split parts).2
  have ends := Text.size_of_slice? behind
  rw [Step.cursor_of]
  exact ⟨Nat.lt_add_of_pos_right (Text.size_pos filled), (Nat.le_add_right _ _).trans ends.le,
    behind⟩

section
variable (few : List.count '[' text < 2 ^ 31)
include few

theorem exists_round {c : Char} {cs : Text} (here : text.slice? k.offset stop = some (c :: cs))
    (ctx : Context) :
    ∃ step, Returns (round? text stop ctx k c cs) step ∧ k.offset < step.cursor.offset ∧
      step.cursor.offset ≤ stop ∧ ∃ rest, text.slice? step.cursor.offset stop = some rest := by
  have whole := Piece.text_read_append ctx c cs
  have filled := Piece.text_read_ne_nil ctx c cs
  have inner : ∀ g ∈ (Piece.read ctx c cs).1.group?, Built text g.inner := by
    intro g _
    exact built few g.inner
  have round := round?_returns few here inner
  rw [← whole] at here
  obtain ⟨further, within, rest⟩ := step_of filled here
  exact ⟨_, round, further, within, _, rest⟩

theorem stands_group {rest : Text} {extent : Extent}
    (here : text.slice? k.offset stop = some rest) (found : Returns (scan? rest) (some extent)) :
    (argument extent k).Stands text ∧ (argument extent k).stop ≤ stop := by
  have scanned := (scan?_returns ((Text.count_slice?_le '[' here).trans_lt few)).unique found
  rw [Group.scan?_eq_cut?] at scanned
  obtain ⟨⟨g, after⟩, cut, rfl⟩ := Option.map_eq_some_iff.mp scanned
  obtain ⟨rfl, fits⟩ := Group.eq_cut_of_cut? cut
  obtain ⟨content, behind⟩ := Text.slice?_split here
  exact ⟨⟨g, after, fits, rfl, content⟩,
    (Nat.le_add_right _ _).trans (Text.size_of_slice? behind).le⟩

/-- A call that stands in its text makes only such calls, further on and with no later end. -/
theorem Stands.makes (stands : a.Stands text) (makes : Makes text a b) :
    b.Stands text ∧ a.cursor.offset ≤ b.cursor.offset ∧ b.stop ≤ a.stop := by
  cases makes with
  | again going rest round =>
    obtain ⟨step, built, further, -, behind⟩ := exists_round few rest _
    obtain rfl := built.unique round
    exact ⟨behind, further.le, le_rfl⟩
  | directive going rest marker =>
    obtain rfl := Role.of_eq_marker_iff.mp marker
    exact ⟨⟨_, rest⟩, le_rfl, le_rfl⟩
  | @bare stop ctx k c cs extent going rest other group =>
    cases ctx with
    | outside =>
      -- Outside every group a bare bracket opens none.
      have low := (Text.count_slice?_le '[' rest).trans_lt few
      cases (bare?_returns .outside low).unique group
    | inside =>
      obtain ⟨stands, within⟩ := stands_group few rest group
      exact ⟨stands, le_rfl, within⟩
  | called named behind group =>
    obtain ⟨cs, here⟩ := stands
    obtain rfl := Option.some.inj ((ident?_eq here).symm.trans named)
    obtain ⟨stands, within⟩ := stands_group few behind group
    exact ⟨stands, Nat.le_add_right _ _, within⟩
  | inner covers enters ends =>
    obtain ⟨g, rest, fits, rfl, here⟩ := stands
    obtain ⟨opening, inside, closing⟩ := slice?_group here
    obtain rfl := Option.some.inj (here.symm.trans covers)
    obtain rfl := Option.some.inj ((skip?_eq opening).symm.trans enters)
    obtain rfl := Option.some.inj ((innerStop?_eq fits _).symm.trans ends)
    exact ⟨⟨_, inside⟩, Nat.le_add_right _ _,
      (Nat.le_add_right _ _).trans (Text.size_of_slice? closing).le⟩

theorem Stands.reaches (stands : a.Stands text) (reaches : a.Reaches text b) :
    b.Stands text ∧ a.cursor.offset ≤ b.cursor.offset ∧ b.stop ≤ a.stop := by
  induction reaches with
  | refl => exact ⟨stands, le_rfl, le_rfl⟩
  | tail _ makes ih =>
    obtain ⟨stands, further, within⟩ := ih
    obtain ⟨below, next, nested⟩ := stands.makes few makes
    exact ⟨below, further.trans next, nested.trans within⟩

end

end

end Call

end Checked

open Checked (Call)

end InlineScript
