import InlineScript.Build
import InlineScript.Grammar.Check

/-! Reading a script. A strict reading first asks the grammar and stops there if
the text is refused; otherwise the reading is the tree, whatever its issues. -/

namespace InlineScript

open Grammar (SyntaxError)

structure Settings where
  /-- Kept for hosts that set it; no rule reads an escape. -/
  allowCodeEscaping : Bool := true
  strict : Bool := false
deriving DecidableEq

structure Reading where
  outcome : Except SyntaxError Node
  events : List Event

def read (settings : Settings) (text : Text) : Reading :=
  match if settings.strict then Grammar.check text else .ok () with
  | .error e => ⟨.error e, [.rejected e.message]⟩
  | .ok () =>
    let (root, events) := assemble text
    ⟨.ok root, events⟩

/-- The tree of a text, or the reason why strict settings refuse it. -/
def parse (settings : Settings) (text : Text) : Except SyntaxError Node :=
  (read settings text).outcome

theorem parse_of_not_strict {settings : Settings} (h : settings.strict = false) (text : Text) :
    parse settings text = .ok (build text) := by
  simp [parse, read, h, build]

theorem parse_of_strict {settings : Settings} (h : settings.strict = true) (text : Text) :
    parse settings text = (Grammar.check text).map fun _ => build text := by
  simp only [parse, read, h, if_true]
  cases Grammar.check text <;> rfl

end InlineScript
