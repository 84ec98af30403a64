import InlineScript.Grammar.Rule

/-! The furthest place at which rules have missed, and which rules they were.
A rule that misses makes way for a single miss noted there since it was entered,
and replaces several; misses behind the frontier are forgotten. -/

namespace InlineScript.Grammar

structure Frontier where
  offset : Nat := 0
  rules : List Rule := []
deriving DecidableEq

namespace Frontier

def count (f : Frontier) (offset : Nat) : Nat :=
  if f.offset = offset then f.rules.length else 0

/-- Note that `rule` has missed at `offset`, where `entry` misses were noted when
it was entered. -/
def miss (f : Frontier) (rule : Rule) (offset entry : Nat) : Frontier :=
  if f.count offset = entry + 1 then f
  else if offset < f.offset then f
  else if offset = f.offset then ⟨offset, f.rules.take entry ++ [rule]⟩
  else ⟨offset, [rule]⟩

/-- The missed rules without repetition, in the order of the grammar. -/
def expected (f : Frontier) : List Rule := Rule.all.filter f.rules.contains

theorem mem_expected {f : Frontier} {rule : Rule} : rule ∈ f.expected ↔ rule ∈ f.rules := by
  simp [expected, Rule.mem_all]

end Frontier

end InlineScript.Grammar
