/-! What a reading of a script reports while it goes on. -/

namespace InlineScript

inductive Level where
  | trace
  | debug
deriving DecidableEq

inductive Event where
  /-- The grammar refused the text, with the message given. -/
  | rejected (reason : String)
  /-- The tree of a text of this many bytes is begun. -/
  | started (size : Nat)
  | unclosed (offset line : Nat)
  /-- The tree is built and has this many nodes. -/
  | finished (nodes : Nat)
deriving DecidableEq

namespace Event

def level : Event → Level
  | rejected _ => .debug
  | started _ => .trace
  | unclosed _ _ => .debug
  | finished _ => .trace

def message : Event → String
  | rejected _ => "strict validation failed"
  | started _ => "building script tree"
  | unclosed _ _ => "argument group is not closed"
  | finished _ => "built script tree"

end Event

end InlineScript
