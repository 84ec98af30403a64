import InlineScript.Proofs.Refusal
import InlineScript.Proofs.Runs
import InlineScript.Proofs.Shift

/-! What a reading reports and what its tree holds. An unclosed group is noted on the way into it,
before anything that it holds is built, and the walk through the finished tree comes to a group
before it comes to what is below it. So the notes made on the way are the unclosed groups among
the issues of the tree, in one order. -/

namespace InlineScript

/-- The event by which an issue is reported. A missing name is not reported at all. -/
def Issue.event? : Issue → Option Event
  | .unterminatedGroup offset line => some (.unclosed offset line)
  | .unnamedDirective _ _ => none

def Cursor.unclosed (k : Cursor) : Event := .unclosed k.offset k.line

/-- An event under its level and with its message, as a reader of the report gets it. -/
def Event.entry (event : Event) : Level × String × Event := (event.level, event.message, event)

namespace Node

def eventsAll (ns : List Node) : List Event := (issuesAll ns).filterMap Issue.event?

theorem eventsAll_cons (n : Node) (ns : List Node) :
    eventsAll (n :: ns) =
      n.issue?.toList.filterMap Issue.event? ++ (eventsAll n.children ++ eventsAll ns) := by
  rw [eventsAll, issuesAll_cons, List.filterMap_append, List.filterMap_append]
  rfl

theorem eventsAll_cons_other {n : Node} (other : n.kind.isGroup = false) (ns : List Node) :
    eventsAll (n :: ns) = eventsAll n.children ++ eventsAll ns := by
  have silent : n.issue?.toList.filterMap Issue.event? = [] := by
    obtain ⟨kind, content, position, children⟩ := n
    cases kind with
    | group closed => simp [Kind.isGroup] at other
    | directive =>
      simp only [issue?]
      split <;> simp [Issue.event?]
    | literal => rfl
    | separator => rfl
    | program => rfl
    | endOfInput => rfl
  rw [eventsAll_cons, silent, List.nil_append]

theorem eventsAll_cons_group (g : Group) (k : Cursor) (children ns : List Node) :
    eventsAll (g.node k children :: ns) =
      (g.unclosed k).map Cursor.unclosed ++ (eventsAll children ++ eventsAll ns) := by
  rw [eventsAll_cons]
  obtain ⟨body, _ | _⟩ := g <;> rfl

end Node

/-- What was noted while nodes were built are the events that report their issues. -/
def Draft.Reports (d : Draft) : Prop := d.unclosed.map Cursor.unclosed = Node.eventsAll d.nodes

namespace Draft.Reports

variable {kind : Kind} {content : Text} {k : Cursor} {g : Group} {inner rest : Draft}

theorem leaf (other : kind.isGroup = false) (h : rest.Reports) :
    (Draft.leaf k kind content rest).Reports := by
  rw [Reports, Draft.leaf, Node.eventsAll_cons_other other]
  exact h

theorem group (inside : inner.Reports) (h : rest.Reports) :
    (Draft.group k g inner rest).Reports := by
  rw [Reports, Draft.group, Node.eventsAll_cons_group, ← inside, ← h, List.map_append,
    List.map_append, List.append_assoc]

theorem directive (inside : inner.Reports) (h : rest.Reports) :
    (Draft.directive k content g inner rest).Reports := by
  have called := group (k := k.advance content) (g := g) inside h
  rw [Reports, Draft.group, Node.eventsAll_cons_group] at called
  rw [Reports, Draft.directive, Node.eventsAll_cons_other rfl, Node.eventsAll_cons_group, called]
  simp [Node.eventsAll, Node.issuesAll]

end Draft.Reports

section
variable {settings : Settings} {text : Text}

end

end InlineScript
