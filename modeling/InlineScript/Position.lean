import InlineScript.Text

/-! Where a node sits in a text, and a cursor that only moves forward and counts
lines as it goes. -/

namespace InlineScript

structure Position where
  offset : Nat := 0
  line : Nat := 0
  length : Nat := 0
  newlines : Nat := 0
deriving DecidableEq

/-- The position of `content` when it begins at the given offset and line. -/
def Position.of (offset line : Nat) (content : Text) : Position :=
  ⟨offset, line, content.size, content.newlines⟩

def Position.stop (p : Position) : Nat := p.offset + p.length

/-- Lines are counted from one. -/
structure Cursor where
  offset : Nat := 0
  line : Nat := 1
deriving DecidableEq

namespace Cursor

def advance (k : Cursor) (run : Text) : Cursor :=
  ⟨k.offset + run.size, k.line + run.newlines⟩

def span (k : Cursor) (content : Text) : Position := .of k.offset k.line content

@[simp] theorem advance_nil (k : Cursor) : k.advance [] = k := rfl

@[simp] theorem advance_advance (k : Cursor) (s t : Text) :
    (k.advance s).advance t = k.advance (s ++ t) := by
  simp [advance, Nat.add_assoc]

theorem span_stop (k : Cursor) (content : Text) :
    (k.span content).stop = (k.advance content).offset := rfl

end Cursor

end InlineScript
