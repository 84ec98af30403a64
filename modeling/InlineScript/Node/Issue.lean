import InlineScript.Node

/-! What is malformed but tolerated in a tree: groups that never close and
directives without a name, in the order of the walk. -/

namespace InlineScript

inductive Issue where
  | unterminatedGroup (offset line : Nat)
  | unnamedDirective (offset line : Nat)
deriving DecidableEq

def Issue.message : Issue → String
  | .unterminatedGroup offset line =>
    s!"argument group opened at line {line} (offset {offset}) is never closed"
  | .unnamedDirective offset line =>
    s!"directive at line {line} (offset {offset}) has no name"

namespace Node

/-- The issue of the node itself. A directive without a one-byte first character
has no name at all, which is as bad as an empty one. -/
def issue? (n : Node) : Option Issue :=
  match n.kind with
  | .group false => some (.unterminatedGroup n.position.offset n.position.line)
  | .directive =>
    if n.name?.all List.isEmpty then
      some (.unnamedDirective n.position.offset n.position.line)
    else none
  | _ => none

def issues (n : Node) : List Issue := n.walk.filterMap issue?

end Node

end InlineScript
