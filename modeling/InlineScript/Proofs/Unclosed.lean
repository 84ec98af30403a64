import InlineScript.Proofs.Marks
import InlineScript.Proofs.Runs

/-! The groups of a tree that never close. Such a group takes in all that is left of the text,
so nothing stands behind it or behind a group around it: the unclosed groups of a tree lie one
inside the other, and none of them in a group that closes. Each scan stops in a slice of its
own, yet together they leave as many groups open as the text lacks closing brackets. -/

namespace InlineScript

namespace Node

/-- Those of the nodes that are groups and do not close. -/
def openGroups (nodes : List Node) : List Node := nodes.filter (·.kind = .group false)

/-- A group that does not close, or the directive that it belongs to. -/
def HoldsOpen (n : Node) : Prop :=
  n.kind = .group false ∨ n.kind = .directive ∧ ∃ g ∈ n.children, g.kind = .group false

section
variable {n g : Node} {ns children : List Node} {kind : Kind} {content : Text} {position : Position}

theorem openGroups_cons (h : n.kind ≠ .group false) (ns : List Node) :
    openGroups (n :: ns) = openGroups ns := by
  simp [openGroups, h]

theorem openGroups_cons_self (h : n.kind = .group false) (ns : List Node) :
    openGroups (n :: ns) = n :: openGroups ns := by
  simp [openGroups, h]

theorem openGroups_leaf (h : kind ≠ .group false) :
    openGroups (walkAll (leaf kind content position :: ns)) = openGroups (walkAll ns) := by
  rw [walkAll_cons, walk_leaf, List.singleton_append, openGroups_cons h]

theorem openGroups_call :
    openGroups (walkAll (⟨.directive, content, position, [g]⟩ :: ns)) =
      openGroups (walkAll (g :: ns)) := by
  rw [walkAll_cons, walk_eq, List.cons_append, openGroups_cons (by simp)]
  simp

theorem openGroups_closed (inside : openGroups (walkAll children) = []) :
    openGroups (walkAll (⟨.group true, content, position, children⟩ :: ns)) =
      openGroups (walkAll ns) := by
  rw [walkAll_cons, walk_eq, List.cons_append, openGroups_cons (by simp), openGroups,
    List.filter_append]
  exact congrArg (· ++ openGroups (walkAll ns)) inside

theorem openGroups_unclosed :
    openGroups (walkAll [⟨.group false, content, position, children⟩]) =
      ⟨.group false, content, position, children⟩ :: openGroups (walkAll children) := by
  simp [openGroups, walk_eq]

/-- The open groups among the nodes lie one inside the other, and all but the first are below it. -/
structure Chained (nodes : List Node) : Prop where
  pairwise : (openGroups nodes).Pairwise fun g h => h ∈ walkAll g.children
  below : ∀ g, (openGroups nodes).head? = some g →
    openGroups nodes = g :: openGroups (walkAll g.children)

theorem Chained.congr {nodes others : List Node} (h : Chained nodes)
    (same : openGroups others = openGroups nodes) : Chained others := by
  refine ⟨?_, ?_⟩
  · rw [same]
    exact h.pairwise
  · rw [same]
    exact h.below

theorem Chained.eq_cons {nodes : List Node} (h : Chained nodes) (mem : g ∈ openGroups nodes)
    (outermost : ∀ m ∈ openGroups nodes, g ∉ walkAll m.children) :
    openGroups nodes = g :: openGroups (walkAll g.children) := by
  refine h.below g ?_
  have chain := h.pairwise
  cases found : openGroups nodes with
  | nil => simp [found] at mem
  | cons m others =>
    rw [found] at mem outermost chain
    obtain rfl | later := List.mem_cons.mp mem
    · rfl
    · exact absurd ((List.pairwise_cons.mp chain).1 g later) (outermost m List.mem_cons_self)

theorem not_holdsOpen_cons (first : ns ≠ [] → ¬ n.HoldsOpen)
    (others : ∀ m ∈ ns.dropLast, ¬ m.HoldsOpen) : ∀ m ∈ (n :: ns).dropLast, ¬ m.HoldsOpen := by
  by_cases last : ns = []
  · simp [last]
  · rw [List.dropLast_cons_of_ne_nil last, List.forall_mem_cons]
    exact ⟨first last, others⟩

end

namespace CanonicalAll

variable {ctx : Context} {closes closed : Bool} {children ns : List Node} {content : Text}
  {position : Position}

theorem openGroups_eq_nil (h : CanonicalAll ctx closes ns) (settled : closes = true) :
    openGroups (walkAll ns) = [] := by
  induction h with
  | nil => rfl
  | literal filled plain apart more ih => rw [openGroups_leaf (by simp), ih settled]
  | separator more ih => rw [openGroups_leaf (by simp), ih settled]
  | directive named apart more ih => rw [openGroups_leaf (by simp), ih settled]
  | @call ctx closes closed name inner position place children ns named printed below last more
      ihBelow ih =>
    cases closed with
    | true => rw [openGroups_call, openGroups_closed (ihBelow rfl), ih settled]
    | false => simp [settled] at last
  | @group closes closed inner position children ns printed below last more ihBelow ih =>
    cases closed with
    | true => rw [openGroups_closed (ihBelow rfl), ih settled]
    | false => simp [settled] at last

theorem chained_group (below : CanonicalAll .inside closed children)
    (last : closed = false → closes = false ∧ ns = []) (inside : Chained (walkAll children))
    (more : Chained (walkAll ns)) :
    Chained (walkAll (⟨.group closed, content, position, children⟩ :: ns)) := by
  cases closed with
  | true => exact more.congr (openGroups_closed (below.openGroups_eq_nil rfl))
  | false =>
    obtain ⟨-, rfl⟩ := last rfl
    refine ⟨?_, ?_⟩
    · rw [openGroups_unclosed, List.pairwise_cons]
      exact ⟨fun h mem => List.mem_of_mem_filter mem, inside.pairwise⟩
    · rw [openGroups_unclosed]
      rintro g ⟨⟩
      rfl

theorem chained (h : CanonicalAll ctx closes ns) : Chained (walkAll ns) := by
  induction h with
  | nil => exact ⟨.nil, by simp [openGroups]⟩
  | literal filled plain apart more ih => exact ih.congr (openGroups_leaf (by simp))
  | separator more ih => exact ih.congr (openGroups_leaf (by simp))
  | directive named apart more ih => exact ih.congr (openGroups_leaf (by simp))
  | call named printed below last more ihBelow ih =>
    exact (below.chained_group last ihBelow ih).congr openGroups_call
  | group printed below last more ihBelow ih => exact below.chained_group last ihBelow ih

theorem not_holdsOpen_dropLast (h : CanonicalAll ctx closes ns) :
    ∀ m ∈ ns.dropLast, ¬ m.HoldsOpen := by
  induction h with
  | nil => simp
  | literal filled plain apart more ih => exact not_holdsOpen_cons (by simp [HoldsOpen, leaf]) ih
  | separator more ih => exact not_holdsOpen_cons (by simp [HoldsOpen, leaf]) ih
  | directive named apart more ih => exact not_holdsOpen_cons (by simp [HoldsOpen, leaf]) ih
  | call named printed below last more ihBelow ih =>
    refine not_holdsOpen_cons ?_ ih
    intro behind opened
    exact behind (last (by simpa [HoldsOpen] using opened)).2
  | group printed below last more ihBelow ih =>
    refine not_holdsOpen_cons ?_ ih
    intro behind opened
    exact behind (last (by simpa [HoldsOpen] using opened)).2

end CanonicalAll

theorem Occurs.canonicalAll {text : Text} {n : Node} (h : n.Occurs text) {closed : Bool}
    (kind : n.kind = .group closed) : CanonicalAll .inside closed n.children := by
  obtain ⟨before, after, g, -, -, fits, rfl⟩ := h.exists_group (by simp [kind, Kind.isGroup])
  obtain rfl : g.closed = closed := by simpa [Group.node] using kind
  exact canonicalAll_sequence (stretch .inside g.inner) (fun _ => Group.settles_inner fits)
    (by simp) _

theorem Occurs.exists_unclosed {text : Text} {n : Node} (h : n.Occurs text)
    (kind : n.kind = .group false) :
    ∃ (before : Text) (g : Group), before ++ g.content = text ∧
      n.position.offset = before.size ∧ g.Fits [] ∧
      n = g.node (Cursor.advance {} before)
        (sequence .inside g.inner (Group.enter (Cursor.advance {} before))).nodes := by
  obtain ⟨before, after, g, whole, offset, fits, same⟩ :=
    h.exists_group (by simp [kind, Kind.isGroup])
  have unclosed : g.closed = false := by simpa [same, Group.node] using kind
  obtain rfl : after = [] := fits.closed_or.resolve_left (by simp [unclosed])
  exact ⟨before, g, by simpa using whole, offset, fits, same⟩

theorem Occurs.stop_of_unclosed {text : Text} {n : Node} (h : n.Occurs text)
    (kind : n.kind = .group false) : n.position.stop = text.size := by
  obtain ⟨before, g, rfl, -, -, same⟩ := h.exists_unclosed kind
  rw [same, Text.size_append]
  simp [Group.node, Cursor.span_stop, Cursor.advance]

theorem countP_marks_opener (n : Node) :
    n.marks.countP (fun m => m.1 = '[') = if n.kind.isGroup then 1 else 0 := by
  unfold marks
  split <;> simp [*, Kind.isGroup]

theorem countP_marks_closer (n : Node) :
    n.marks.countP (fun m => m.1 = ']') = if decide (n.kind = .group true) then 1 else 0 := by
  unfold marks
  split <;> simp [*]

theorem countP_isGroup (nodes : List Node) :
    nodes.countP (·.kind.isGroup) =
      nodes.countP (·.kind = .group true) + (openGroups nodes).length := by
  induction nodes with
  | nil => rfl
  | cons n nodes ih =>
    rw [List.countP_cons, List.countP_cons, ih]
    cases kind : n.kind with
    | group closed =>
      cases closed <;> simp [openGroups, kind, Kind.isGroup] <;> omega
    | literal => simp [openGroups, kind, Kind.isGroup]
    | directive => simp [openGroups, kind, Kind.isGroup]
    | separator => simp [openGroups, kind, Kind.isGroup]
    | program => simp [openGroups, kind, Kind.isGroup]
    | endOfInput => simp [openGroups, kind, Kind.isGroup]

end Node

theorem Text.countP_marks {c : Char} (stops : Context.inside.stops c = true) (offset : Nat)
    (t : Text) : (t.marks offset).countP (fun m => m.1 = c) = t.count c := by
  induction t generalizing offset with
  | nil => rfl
  | cons d t ih =>
    cases marked : Context.inside.stops d with
    | true => simp [Text.marks_cons marked, List.countP_cons, List.count_cons, ih]
    | false =>
      have other : d ≠ c := by
        rintro rfl
        simp [stops] at marked
      rw [Text.marks_cons_plain marked, ih, List.count_cons_of_ne other]

theorem Text.count_of_perm_marks {t : Text} {offset : Nat} {nodes : List Node}
    (perm : (nodes.flatMap Node.marks).Perm (t.marks offset)) :
    t.count '[' = t.count ']' + (Node.openGroups nodes).length := by
  rw [← Text.countP_marks (by decide) offset, ← Text.countP_marks (by decide) offset,
    ← perm.countP_eq, ← perm.countP_eq,
    Node.countP_flatMap_marks fun n _ => Node.countP_marks_opener n,
    Node.countP_flatMap_marks fun n _ => Node.countP_marks_closer n, Node.countP_isGroup]

theorem Group.count_content {g : Group} {rest : Text} (fits : g.Fits rest) (k : Cursor) :
    g.content.count '[' = g.content.count ']' +
      (Node.openGroups (g.node k (sequence .inside g.inner (enter k)).nodes).walk).length := by
  have inside := perm_marks_inside (stretch .inside g.inner) rfl
    (Enclosed.enter fits fits.closed_or) (enter k)
  have perm := perm_marks_group fits k inside
  have walk (children : List Node) :
      (g.node k children).marks ++ Node.marksAll children =
        (g.node k children).walk.flatMap Node.marks := by
    rw [Node.walk_eq, List.flatMap_cons]
    rfl
  rw [walk] at perm
  exact Text.count_of_perm_marks perm

theorem Node.Occurs.count_rest_of_unclosed {text : Text} {n : Node} (h : n.Occurs text)
    (kind : n.kind = .group false) :
    (text.cut n.position.offset).2.count '[' =
      (text.cut n.position.offset).2.count ']' + (openGroups n.walk).length := by
  obtain ⟨before, g, rfl, offset, fits, same⟩ := h.exists_unclosed kind
  rw [offset, Text.cut_size_append, same]
  exact Group.count_content fits _

theorem openGroups_walk_build (text : Text) :
    Node.openGroups (build text).walk = Node.openGroups (Node.walkAll (build text).children) := by
  rw [Node.walk_eq, Node.openGroups_cons (by simp [build_eq, program])]

theorem chained_build (text : Text) : Node.Chained (build text).walk :=
  (canonical_build text).2.chained.congr (openGroups_walk_build text)

/-- The unclosed groups of a text form a chain that ends with the text: each lies in the one
before it, none in a closed group, and nothing stands behind one. From where the outermost of
them opens, the text has as many opening brackets too many as there are unclosed groups. -/
theorem openGroups_build (text : Text) :
    (∀ g ∈ Node.openGroups (build text).walk, g.position.stop = text.size) ∧
    ((Node.openGroups (build text).walk).Pairwise fun g h => h ∈ Node.walkAll g.children) ∧
    (∀ g ∈ (build text).walk, g.kind = .group true →
      ∀ h ∈ Node.walkAll g.children, h.kind ≠ .group false) ∧
    (∀ n ∈ (build text).walk, ∀ m ∈ n.children.dropLast, ¬ m.HoldsOpen) ∧
    ∀ g ∈ Node.openGroups (build text).walk,
      (∀ h ∈ Node.openGroups (build text).walk, g ∉ Node.walkAll h.children) →
      ((Node.openGroups (build text).walk).length : Int) =
        (text.cut g.position.offset).2.count '[' - (text.cut g.position.offset).2.count ']' := by
  have mem_openGroups {g : Node} (mem : g ∈ Node.openGroups (build text).walk) :
      g.Occurs text ∧ g.kind = .group false := by
    obtain ⟨below, kind⟩ := List.mem_filter.mp mem
    have kind : g.kind = .group false := by simpa using kind
    exact ⟨occurs_of_mem_walk below (by simp [kind]), kind⟩
  refine ⟨?_, (chained_build text).pairwise, ?_, ?_, ?_⟩
  · intro g mem
    obtain ⟨occurs, kind⟩ := mem_openGroups mem
    exact occurs.stop_of_unclosed kind
  · intro g mem kind h below unclosed
    have canonical := (occurs_of_mem_walk mem (by simp [kind])).canonicalAll kind
    have nothing := List.filter_eq_nil_iff.mp (canonical.openGroups_eq_nil rfl) h below
    simp [unclosed] at nothing
  · intro n mem
    obtain ⟨ctx, slice, k, visit, children⟩ | few := children_build n mem
    · obtain ⟨closes, canonical⟩ := visit.canonicalAll
      rw [children]
      exact canonical.not_holdsOpen_dropLast
    · have nothing : n.children.dropLast = [] := by
        rw [← List.length_eq_zero_iff, List.length_dropLast]
        omega
      simp [nothing]
  · intro g mem outermost
    obtain ⟨occurs, kind⟩ := mem_openGroups mem
    rw [(chained_build text).eq_cons mem outermost, ← Node.openGroups_cons_self kind,
      ← Node.walk_eq, occurs.count_rest_of_unclosed kind]
    omega

theorem openGroups_build_nested :
    ∃ g ∈ Node.openGroups (build "[é$f[x]$g[a;[b]$h[c[$k".toList).walk,
      g.position.offset = 10 ∧ g.position.stop = Text.size "[é$f[x]$g[a;[b]$h[c[$k".toList ∧
        (Node.openGroups (build "[é$f[x]$g[a;[b]$h[c[$k".toList).walk).length = 3 ∧
        (3 : Int) = (Text.cut g.position.offset "[é$f[x]$g[a;[b]$h[c[$k".toList).2.count '[' -
          (Text.cut g.position.offset "[é$f[x]$g[a;[b]$h[c[$k".toList).2.count ']' := by
  let text : Text := "[é$f[x]$g[a;[b]$h[c[$k".toList
  let g := (Node.openGroups (build text).walk).get ⟨0, by decide +kernel⟩
  have mem : g ∈ Node.openGroups (build text).walk := List.get_mem _ _
  have three : (Node.openGroups (build text).walk).length = 3 := by decide +kernel
  obtain ⟨ends, -, -, -, count⟩ := openGroups_build text
  have surplus := count g mem (by decide +kernel)
  rw [three] at surplus
  exact ⟨g, mem, by decide +kernel, ends g mem, three, surplus⟩

end InlineScript
