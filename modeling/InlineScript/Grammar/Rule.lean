/-! The rules of the strict grammar, in the order in which a message lists them,
and the pairs they leave when they match. -/

namespace InlineScript.Grammar

inductive Rule where
  | endOfInput
  | script
  | text
  | directive
  | name
  | group
  | slot
  | slotText
deriving DecidableEq

namespace Rule

def all : List Rule :=
  [endOfInput, script, text, directive, name, group, slot, slotText]

def label : Rule → String
  | endOfInput => "EOI"
  | script => "script"
  | text => "text"
  | directive => "directive"
  | name => "name"
  | group => "group"
  | slot => "slot"
  | slotText => "arg_text"

def ofLabel? (label : String) : Option Rule := all.find? (·.label == label)

theorem mem_all (rule : Rule) : rule ∈ all := by
  cases rule <;> decide

theorem ofLabel?_label (rule : Rule) : ofLabel? rule.label = some rule := by
  cases rule <;> decide

end Rule

/-- A rule that has matched the bytes from `start` up to `stop`. -/
structure Pair where
  rule : Rule
  start : Nat
  stop : Nat
  children : List Pair

end InlineScript.Grammar
