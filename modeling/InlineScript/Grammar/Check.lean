import InlineScript.Grammar.Match
import InlineScript.Grammar.SyntaxError

/-! Running the grammar on a text. -/

namespace InlineScript.Grammar

/-- Match `rule` from the start of a text; it need not reach the end. -/
def parse (rule : Rule) (text : Text) : Except SyntaxError Pair :=
  match attempt rule (.start text) {} with
  | (some pair, _) => .ok pair
  | (none, f) => .error (.of text f)

/-- Whether a text is a well-formed script. -/
def check (text : Text) : Except SyntaxError Unit := (parse .script text).map fun _ => ()

end InlineScript.Grammar
