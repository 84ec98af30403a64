import InlineScript.Node.Issue
import InlineScript.Proofs.Printing
import InlineScript.Proofs.Rules

/-! The pairs that a tree stands for, and the trees without faults. A directive owns
its group in both; a group's pair lists its slots, which are pairs of their own,
while a tree only has separators between them. -/

namespace InlineScript

open Grammar (Pair Rule ahead)

def Context.rule : Context → Rule
  | .outside => .text
  | .inside => .slotText

namespace Node

/-- Where the slots of a group begin and end, when its first begins at `start` and
its last ends at `stop`. -/
def slotSpans (start stop : Nat) : List Node → List (Nat × Nat)
  | [] => [(start, stop)]
  | n :: ns =>
    if n.kind = .separator then (start, n.position.offset) :: slotSpans n.position.stop stop ns
    else slotSpans start stop ns

def slotPair (span : Nat × Nat) (inner : List Pair) : Pair := ⟨.slot, span.1, span.2, inner⟩

theorem mem_of_mem_splitOnP {p : Node → Bool} {ns slot : List Node} {m : Node}
    (hs : slot ∈ ns.splitOnP p) (hm : m ∈ slot) : m ∈ ns := by
  induction ns generalizing slot with
  | nil =>
    rw [List.splitOnP_nil, List.mem_singleton] at hs
    simp [hs] at hm
  | cons n ns ih =>
    rw [List.splitOnP_cons_eq_if_modifyHead] at hs
    split at hs
    · obtain rfl | others := List.mem_cons.mp hs
      · simp at hm
      · exact List.mem_cons_of_mem n (ih others hm)
    · cases slots : ns.splitOnP p with
      | nil => simp [slots] at hs
      | cons first others =>
        rw [slots, List.modifyHead_cons] at hs
        obtain rfl | later := List.mem_cons.mp hs
        · obtain rfl | inFirst := List.mem_cons.mp hm
          · exact List.mem_cons_self
          · exact List.mem_cons_of_mem n (ih (slots ▸ List.mem_cons_self) inFirst)
        · exact List.mem_cons_of_mem n (ih (slots ▸ List.mem_cons_of_mem first later) hm)

theorem mem_children_of_mem_slots {n m : Node} {slot : List Node} (hs : slot ∈ n.slots)
    (hm : m ∈ slot) : m ∈ n.children := by
  unfold slots at hs
  split at hs
  · exact mem_of_mem_splitOnP hs hm
  · simp at hs

theorem sizeOf_lt_of_mem_children {n m : Node} (h : m ∈ n.children) : sizeOf m < sizeOf n := by
  have below := List.sizeOf_lt_of_mem h
  cases n
  simp only [mk.sizeOf_spec] at *
  omega

/-- The pairs of a node that stands in the given context. A separator has none, it
only divides slots; every other node has one. -/
def pairs (ctx : Context) (n : Node) : List Pair :=
  match n.kind with
  | .literal => [⟨ctx.rule, n.position.offset, n.position.stop, []⟩]
  | .directive =>
    let name : Pair := ⟨.name, n.position.offset + 1, n.position.stop, []⟩
    [⟨.directive, n.position.offset, n.stop,
      name :: n.children.flatMap fun m => pairs .inside m⟩]
  | .group _ =>
    let spans := slotSpans (n.position.offset + 1) (n.position.stop - 1) n.children
    [⟨.group, n.position.offset, n.position.stop,
      List.zipWith slotPair spans
        (n.slots.attach.map fun slot => slot.val.attach.flatMap fun m => pairs .inside m.val)⟩]
  | .separator => []
  | .program =>
    let last : Pair := ⟨.endOfInput, n.position.stop, n.position.stop, []⟩
    [⟨.script, n.position.offset, n.position.stop,
      (n.children.flatMap fun m => pairs .outside m) ++ [last]⟩]
  | .endOfInput => [⟨.endOfInput, n.position.offset, n.position.stop, []⟩]
termination_by n
decreasing_by
  · exact sizeOf_lt_of_mem_children ‹_›
  · exact sizeOf_lt_of_mem_children (mem_children_of_mem_slots slot.property m.property)
  · exact sizeOf_lt_of_mem_children ‹_›

def slotPairs (start stop : Nat) (ns : List Node) : List Pair :=
  List.zipWith slotPair (slotSpans start stop ns)
    ((ns.splitOnP (·.kind = .separator)).map fun slot => slot.flatMap (pairs .inside))

theorem pairs_group {ctx : Context} {n : Node} {closed : Bool} (h : n.kind = .group closed) :
    n.pairs ctx = [⟨.group, n.position.offset, n.position.stop,
      slotPairs (n.position.offset + 1) (n.position.stop - 1) n.children⟩] := by
  have slots : n.slots = n.children.splitOnP (·.kind = .separator) := by
    simp [Node.slots, h, Kind.isGroup]
  rw [pairs, h]
  simp only [slotPairs, ← slots]
  simp

@[simp] theorem slotPairs_nil (start stop : Nat) :
    slotPairs start stop [] = [⟨.slot, start, stop, []⟩] := rfl

section
variable (start stop : Nat) {n : Node} (ns : List Node)

theorem slotPairs_separator (h : n.kind = .separator) :
    slotPairs start stop (n :: ns) =
      ⟨.slot, start, n.position.offset, []⟩ :: slotPairs n.position.stop stop ns := by
  simp [slotPairs, slotSpans, List.splitOnP_cons_eq_if_modifyHead, h, slotPair]

theorem slotSpans_start (mid : Nat) :
    slotSpans start stop ns = (slotSpans mid stop ns).modifyHead fun s => (start, s.2) := by
  induction ns with
  | nil => rfl
  | cons n ns ih =>
    by_cases separator : n.kind = .separator
    · simp [slotSpans, separator]
    · simpa [slotSpans, separator] using ih

theorem slotPairs_cons (mid : Nat) {pair : Pair} (h : n.kind ≠ .separator)
    (one : n.pairs .inside = [pair]) :
    slotPairs start stop (n :: ns) = ahead start pair (slotPairs mid stop ns) := by
  have spans : slotSpans start stop (n :: ns) =
      (slotSpans mid stop ns).modifyHead fun s => (start, s.2) := by
    rw [← slotSpans_start]
    simp [slotSpans, h]
  rw [slotPairs, slotPairs, spans, List.splitOnP_cons_eq_if_modifyHead]
  generalize slotSpans mid stop ns = spans
  generalize ns.splitOnP (·.kind = .separator) = slots
  cases spans <;> cases slots <;> simp [h, ahead, slotPair, one]

end

/-- No issue in a node or below it. -/
def Faultless (n : Node) : Prop := ∀ m ∈ n.walk, m.issue? = none

theorem issues_eq_nil_iff {n : Node} : n.issues = [] ↔ n.Faultless := by
  rw [issues, List.filterMap_eq_nil_iff, Faultless]

theorem faultless_iff {n : Node} :
    n.Faultless ↔ n.issue? = none ∧ ∀ m ∈ n.children, m.Faultless := by
  rw [Faultless, walk_eq, List.forall_mem_cons, walkAll_eq_flatMap]
  simp only [List.mem_flatMap, Faultless]
  constructor
  · intro h
    exact ⟨h.1, fun m hm x hx => h.2 x ⟨m, hm, hx⟩⟩
  · intro h
    refine ⟨h.1, ?_⟩
    intro x hx
    obtain ⟨m, hm, below⟩ := hx
    exact h.2 m hm x below

theorem faultless_leaf {kind : Kind} {content : Text} {position : Position} :
    (leaf kind content position).Faultless ↔ (leaf kind content position).issue? = none := by
  rw [faultless_iff]
  simp [leaf]

theorem issue?_directive {name : Text} {position : Position} {children : List Node} :
    (mk .directive ('$' :: name) position children).issue? = none ↔ name ≠ [] := by
  have named : (mk .directive ('$' :: name) position children).name? = some name := rfl
  simp [issue?, named]

end Node

theorem Group.issue?_node {g : Group} {k : Cursor} {children : List Node} :
    (g.node k children).issue? = none ↔ g.closed = true := by
  obtain ⟨body, _ | _⟩ := g <;> simp [node, Node.issue?]

end InlineScript
