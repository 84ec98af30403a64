import InlineScript.Proofs.Append
import InlineScript.Proofs.Depth

/-! Parts of a text on their own. A directive is built from its own text and from nothing around
it: what it prints builds it again, alone, wherever its slice ended. The same holds of a group,
which needs a name before it for that: behind any name the same group is built, also if there was
none before it in the text. All that changes is where the part lies. -/

namespace InlineScript

namespace Node

theorem sourceAll?_singleton (n : Node) : sourceAll? [n] = n.source? := by
  rw [sourceAll?_cons]
  cases n.source? <;> simp

end Node

namespace Group

variable {g g' : Group} {k k' : Cursor} {children children' : List Node}

theorem node_inj (h : g.node k children = g'.node k' children') :
    g = g' ∧ k = k' ∧ children = children' := by
  obtain ⟨body, closed⟩ := g
  obtain ⟨body', closed'⟩ := g'
  obtain ⟨offset, line⟩ := k
  obtain ⟨offset', line'⟩ := k'
  simp only [node, content, Cursor.span, Position.of, Node.mk.injEq, Kind.group.injEq,
    List.cons.injEq, Position.mk.injEq, true_and] at h
  obtain ⟨rfl, rfl, ⟨rfl, rfl, -⟩, rfl⟩ := h
  exact ⟨rfl, rfl, rfl⟩

theorem shift_node (bytes lines : Nat) (g : Group) (k : Cursor) :
    (g.node k (sequence .inside g.inner (enter k)).nodes).shift bytes lines =
      g.node (k.shift bytes lines)
        (sequence .inside g.inner (enter (k.shift bytes lines))).nodes := by
  refine (Draft.node_shift bytes lines k g ?_).symm
  rw [enter, Cursor.advance_shift, sequence_shift]
  rfl

theorem shift_node_comm (g : Group) (lines : 1 ≤ k.line) (lines' : 1 ≤ k'.line) :
    (g.node k (sequence .inside g.inner (enter k)).nodes).shift k'.offset (k'.line - 1) =
      (g.node k' (sequence .inside g.inner (enter k')).nodes).shift k.offset (k.line - 1) := by
  have meet : k.shift k'.offset (k'.line - 1) = k'.shift k.offset (k.line - 1) := by
    simp only [Cursor.shift, Cursor.mk.injEq]
    omega
  rw [shift_node, shift_node, meet]

end Group

section
variable {name rest : Text} {g : Group} (named : ∀ c ∈ name, isNameChar c = true) (k : Cursor)
include named

theorem advance_named : Cursor.advance {} ('$' :: name) = ⟨1 + name.size, 1⟩ := by
  have lineFeed : '\n' ∉ name := fun mem => absurd (named '\n' mem) (by decide)
  have lines : Text.newlines ('$' :: name) = 0 := by
    rw [Text.newlines, List.count_eq_zero]
    simpa using lineFeed
  rw [Cursor.advance, lines, Text.size_cons]
  exact congrArg (Cursor.mk · 1) (Nat.zero_add _)

theorem nodes_name : (sequence .outside ('$' :: name) k).nodes =
    [.leaf .directive ('$' :: name) (k.span ('$' :: name))] := by
  have alone := @sequence_name .outside name [] k named (by simp) (by simp)
  rw [List.append_nil, sequence_nil] at alone
  rw [alone, Draft.leaf]

theorem nodes_call (fits : g.Fits rest) :
    (sequence .outside ('$' :: (name ++ g.content)) k).nodes =
      [⟨.directive, '$' :: name, k.span ('$' :: name),
        [g.node (k.advance ('$' :: name))
          (sequence .inside g.inner (Group.enter (k.advance ('$' :: name)))).nodes]⟩] := by
  have alone := @sequence_call .outside name [] g k named fits.alone
  rw [List.append_nil, sequence_nil] at alone
  rw [alone, Draft.directive]

end

namespace Node

variable {text : Text} {d : Node}

theorem Occurs.children_node {g : Group} {k : Cursor} {children : List Node}
    (h : (g.node k children).Occurs text) :
    children = (sequence .inside g.inner (Group.enter k)).nodes := by
  obtain ⟨before, after, g', -, -, -, same⟩ := h.exists_group rfl
  obtain ⟨rfl, rfl, rfl⟩ := Group.node_inj same
  rfl

theorem exists_sequence_directive (mem : d ∈ (build text).walk) (kind : d.kind = .directive) :
    ∃ before s, d.position = (Cursor.advance {} before).span d.content ∧
      (sequence .outside s (Cursor.advance {} before)).nodes = [d] := by
  obtain ⟨before, name, rest, -, -, named, ⟨rfl, -, -⟩ | ⟨g, after, children, -, fits, rfl⟩⟩ :=
    (occurs_of_mem_walk mem (by simp [kind])).exists_directive kind
  · exact ⟨before, _, rfl, nodes_name named _⟩
  · -- The directive tells nothing of what is in its group, but that is a node of the tree as well.
    have child : g.node (Cursor.advance {} (before ++ '$' :: name)) children ∈ (build text).walk :=
      mem_walk_trans (build text) mem (by simp [walk_eq])
    have below := (occurs_of_mem_walk child (by simp [Group.node])).children_node
    refine ⟨before, _, rfl, (nodes_call named _ fits).trans ?_⟩
    rw [Cursor.advance_advance, ← below]

end Node

/-- The parts of a text do not depend on what is around them. What a directive prints builds that
directive and nothing else, moved to the start; and behind any name the content of a group builds
that group and nothing else, moved behind the name. As the group may lie before or behind that
place in the text, this is said of both moved on to where they meet. -/
theorem subtree_build (text : Text) :
    (∀ d ∈ (build text).walk, d.kind = .directive → ∃ s d', d.source? = some s ∧
      (build s).children = [d'] ∧ d'.shift d.position.offset (d.position.line - 1) = d) ∧
    ∀ g ∈ (build text).walk, g.kind.isGroup = true →
      ∀ name : Text, (∀ c ∈ name, isNameChar c = true) →
        ∃ d g', (build ('$' :: (name ++ g.content))).children = [d] ∧ d.kind = .directive ∧
          d.argument? = some g' ∧ g'.position.offset = 1 + name.size ∧ g'.position.line = 1 ∧
          g'.shift g.position.offset (g.position.line - 1) = g.shift (1 + name.size) 0 := by
  constructor
  · intro d mem kind
    obtain ⟨before, s, position, alone⟩ := Node.exists_sequence_directive mem kind
    have source : d.source? = some s := by
      rw [← Node.sourceAll?_singleton, ← alone, sourceAll?_sequence]
    rw [sequence_behind] at alone
    obtain ⟨d', child, moved⟩ := List.map_eq_singleton_iff.mp alone
    refine ⟨s, d', source, child, ?_⟩
    have offset : d.position.offset = before.size := by
      rw [position]
      exact Cursor.offset_advance before
    have line : d.position.line - 1 = before.newlines := by
      rw [position]
      exact Nat.add_sub_cancel_left 1 _
    rw [offset, line, moved]
  · intro g mem group name named
    have below : g.kind ≠ .program := by
      intro root
      simp [root, Kind.isGroup] at group
    obtain ⟨before, after, g, -, -, fits, rfl⟩ := (occurs_of_mem_walk mem below).exists_group group
    have alone := nodes_call named {} fits
    rw [advance_named named] at alone
    have counted : 1 ≤ (Cursor.advance {} before).line := Nat.le_add_right 1 _
    exact ⟨_, _, alone, rfl, rfl, rfl, rfl, g.shift_node_comm (Nat.le_refl 1) counted⟩

theorem subtree_build_nested :
    (∃ d ∈ (build "é\n$f[;\n[$g[é]$h[[".toList).walk, d.source? = some "$h[[".toList ∧
      ∃ d', (build "$h[[".toList).children = [d'] ∧ d'.shift 15 2 = d) ∧
    ∃ g ∈ (build "é\n$f[;\n[$g[é]$h[[".toList).walk, g.content = "[$g[é]$h[[".toList ∧
      ∃ d g', (build "$é[$g[é]$h[[".toList).children = [d] ∧ d.argument? = some g' ∧
        g'.position.offset = 3 ∧ g'.shift 8 2 = g.shift 3 0 := by
  let text := "é\n$f[;\n[$g[é]$h[[".toList
  let d := (build text).walk.get ⟨10, by decide +kernel⟩
  let g := (build text).walk.get ⟨6, by decide +kernel⟩
  have directive : d ∈ (build text).walk := List.get_mem _ _
  have group : g ∈ (build text).walk := List.get_mem _ _
  constructor
  · obtain ⟨s, d', source, child, moved⟩ :=
      (subtree_build text).1 d directive (by decide +kernel)
    have printed : d.source? = some "$h[[".toList := by decide +kernel
    obtain rfl := Option.some.inj (printed.symm.trans source)
    have place : d.position.offset = 15 ∧ d.position.line - 1 = 2 := by decide +kernel
    rw [place.1, place.2] at moved
    exact ⟨d, directive, source, d', child, moved⟩
  · have content : g.content = "[$g[é]$h[[".toList := by decide +kernel
    obtain ⟨d, g', child, -, argument, offset, -, moved⟩ :=
      (subtree_build text).2 g group (by decide +kernel) ['é'] (List.forall_mem_singleton.mpr rfl)
    have place : g.position.offset = 8 ∧ g.position.line - 1 = 2 := by decide +kernel
    rw [place.1, place.2] at moved
    rw [content] at child
    exact ⟨g, group, content, d, g', child, argument, offset, moved⟩

end InlineScript
