import InlineScript.Build
import InlineScript.Node.Issue
import InlineScript.Proofs.Stretch

/-! What a slice holds does not depend on where it lies. The cursor is only carried along, so
siblings that are read further on in a text are the same nodes, every offset and every line of
them moved by the same amount; and so are their issues. -/

namespace InlineScript

def Cursor.shift (bytes lines : Nat) (k : Cursor) : Cursor := ⟨k.offset + bytes, k.line + lines⟩

def Position.shift (bytes lines : Nat) (p : Position) : Position :=
  { p with offset := p.offset + bytes, line := p.line + lines }

def Issue.shift (bytes lines : Nat) : Issue → Issue
  | .unterminatedGroup offset line => .unterminatedGroup (offset + bytes) (line + lines)
  | .unnamedDirective offset line => .unnamedDirective (offset + bytes) (line + lines)

namespace Node

mutual

/-- The same tree so many bytes and lines further on. -/
def shift (bytes lines : Nat) : Node → Node
  | ⟨kind, content, position, children⟩ =>
    ⟨kind, content, position.shift bytes lines, shiftAll bytes lines children⟩

def shiftAll (bytes lines : Nat) : List Node → List Node
  | [] => []
  | n :: ns => shift bytes lines n :: shiftAll bytes lines ns

end

theorem shiftAll_eq_map (bytes lines : Nat) (ns : List Node) :
    shiftAll bytes lines ns = ns.map (shift bytes lines) := by
  induction ns with
  | nil => rfl
  | cons n ns ih => rw [shiftAll, ih, List.map_cons]

theorem shift_mk (bytes lines : Nat) (kind : Kind) (content : Text) (position : Position)
    (children : List Node) :
    (mk kind content position children).shift bytes lines =
      ⟨kind, content, position.shift bytes lines, children.map (shift bytes lines)⟩ := by
  rw [shift, shiftAll_eq_map]

mutual

theorem walk_shift (bytes lines : Nat) : (n : Node) →
    (n.shift bytes lines).walk = n.walk.map (shift bytes lines)
  | ⟨kind, content, position, children⟩ => by
    rw [shift, walk, walk, List.map_cons, shift, walkAll_shift bytes lines children]

theorem walkAll_shift (bytes lines : Nat) : (ns : List Node) →
    walkAll (shiftAll bytes lines ns) = (walkAll ns).map (shift bytes lines)
  | [] => rfl
  | n :: ns => by
    rw [shiftAll, walkAll_cons, walkAll_cons, List.map_append, walk_shift bytes lines n,
      walkAll_shift bytes lines ns]

end

theorem issue?_shift (bytes lines : Nat) (n : Node) :
    (n.shift bytes lines).issue? = n.issue?.map (Issue.shift bytes lines) := by
  obtain ⟨kind, content, position, children⟩ := n
  rw [shift_mk]
  cases kind with
  | directive =>
    by_cases unnamed : content.afterByte?.all List.isEmpty = true
    · simp [issue?, name?, unnamed, Position.shift, Issue.shift]
    · simp [issue?, name?, unnamed]
  | group closed => cases closed <;> rfl
  | literal => rfl
  | separator => rfl
  | program => rfl
  | endOfInput => rfl

def issuesAll (ns : List Node) : List Issue := (walkAll ns).filterMap issue?

theorem issuesAll_cons (n : Node) (ns : List Node) :
    issuesAll (n :: ns) = n.issue?.toList ++ (issuesAll n.children ++ issuesAll ns) := by
  rw [issuesAll, walkAll_cons, walk_eq, List.cons_append, List.filterMap_cons,
    List.filterMap_append]
  cases n.issue? <;> rfl

@[simp] theorem issuesAll_append (ms ns : List Node) :
    issuesAll (ms ++ ns) = issuesAll ms ++ issuesAll ns := by
  rw [issuesAll, walkAll_append, List.filterMap_append]
  rfl

theorem issuesAll_shift (bytes lines : Nat) (ns : List Node) :
    issuesAll (ns.map (shift bytes lines)) = (issuesAll ns).map (Issue.shift bytes lines) := by
  rw [issuesAll, issuesAll, ← shiftAll_eq_map, walkAll_shift, List.filterMap_map,
    List.map_filterMap]
  congr 1
  funext n
  exact issue?_shift bytes lines n

end Node

theorem issues_build (text : Text) :
    (build text).issues = Node.issuesAll (build text).children := by
  have root : (build text).issue? = none := rfl
  rw [Node.issues, Node.walk_eq, List.filterMap_cons_none root]
  rfl

namespace Cursor

variable (bytes lines : Nat) (k : Cursor) (run : Text)

theorem advance_shift : (k.shift bytes lines).advance run = (k.advance run).shift bytes lines := by
  simp only [advance, shift]
  congr 1 <;> omega

theorem span_shift : (k.shift bytes lines).span run = (k.span run).shift bytes lines := rfl

end Cursor

namespace Draft

variable (bytes lines : Nat) (k : Cursor) (kind : Kind) (content : Text) (g : Group)
  {inner inner' rest rest' : Draft}

theorem nodes_leaf_shift (behind : rest'.nodes = rest.nodes.map (Node.shift bytes lines)) :
    (leaf (k.shift bytes lines) kind content rest').nodes =
      (leaf k kind content rest).nodes.map (Node.shift bytes lines) := by
  rw [leaf, leaf, List.map_cons, behind, Node.leaf, Node.leaf, Node.shift_mk, Cursor.span_shift]
  rfl

theorem node_shift (inside : inner'.nodes = inner.nodes.map (Node.shift bytes lines)) :
    g.node (k.shift bytes lines) inner'.nodes =
      (g.node k inner.nodes).shift bytes lines := by
  rw [Group.node, Group.node, Node.shift_mk, inside, Cursor.span_shift]

theorem nodes_group_shift (inside : inner'.nodes = inner.nodes.map (Node.shift bytes lines))
    (behind : rest'.nodes = rest.nodes.map (Node.shift bytes lines)) :
    (group (k.shift bytes lines) g inner' rest').nodes =
      (group k g inner rest).nodes.map (Node.shift bytes lines) := by
  rw [group, group, List.map_cons, behind, node_shift bytes lines k g inside]

theorem nodes_directive_shift (inside : inner'.nodes = inner.nodes.map (Node.shift bytes lines))
    (behind : rest'.nodes = rest.nodes.map (Node.shift bytes lines)) :
    (directive (k.shift bytes lines) content g inner' rest').nodes =
      (directive k content g inner rest).nodes.map (Node.shift bytes lines) := by
  rw [directive, directive, List.map_cons, behind, Cursor.advance_shift,
    node_shift bytes lines _ g inside, Node.shift_mk, Cursor.span_shift]
  rfl

end Draft

theorem sequence_shift (bytes lines : Nat) (ctx : Context) (slice : Text) (k : Cursor) :
    (sequence ctx slice (k.shift bytes lines)).nodes =
      (sequence ctx slice k).nodes.map (Node.shift bytes lines) := by
  induction ctx, slice, k using sequence_induct with
  | nil ctx k => simp
  | leaf ctx kind content rest k filled read ih =>
    rw [read, read, Cursor.advance_shift]
    exact Draft.nodes_leaf_shift bytes lines k kind content ih
  | group g rest k fits read inside ih =>
    rw [read, read, Group.enter, Cursor.advance_shift, Cursor.advance_shift]
    exact Draft.nodes_group_shift bytes lines k g inside ih
  | call ctx content g rest k filled fits read inside ih =>
    rw [read, read, Group.enter]
    simp only [Cursor.advance_shift]
    exact Draft.nodes_directive_shift bytes lines k content g inside ih

/-- What follows `before` in a text is built as a text of its own. -/
theorem sequence_behind (before slice : Text) :
    (sequence .outside slice (Cursor.advance {} before)).nodes =
      (sequence .outside slice {}).nodes.map (Node.shift before.size before.newlines) := by
  have behind : Cursor.advance {} before = Cursor.shift before.size before.newlines {} := by
    rw [Cursor.advance, Cursor.shift]
  rw [behind, sequence_shift]

end InlineScript
