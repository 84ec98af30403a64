import InlineScript.Draft
import InlineScript.Event

/-! The tree of a whole script, and the events of building it. Every text has a
tree: what is malformed stays in it and shows up among its issues. -/

namespace InlineScript

/-- The content of a root, which is no part of the text. -/
def programMark : Text := "#program".toList

/-- The root over the nodes of a whole text. -/
def program (text : Text) (nodes : List Node) : Node :=
  ⟨.program, programMark, Cursor.span {} text, nodes⟩

/-- The tree of a text and the events of building it. -/
def assemble (text : Text) : Node × List Event :=
  let draft := sequence .outside text {}
  let root := program text draft.nodes
  (root, .started text.size :: draft.unclosed.map (fun k => .unclosed k.offset k.line) ++
    [.finished root.walk.length])

def build (text : Text) : Node := (assemble text).1

theorem build_eq (text : Text) : build text = program text (sequence .outside text {}).nodes := rfl

end InlineScript
