import InlineScript.Proofs.Marks

/-! How deep the nodes of a tree lie. The groups around a node are those that a count of the
brackets before it finds open, though the tree was not made by counting: the ends of its groups
were looked up one by one. A group keeps the count above zero from its opening bracket to its
end, where it falls to zero if the group closes. -/

namespace InlineScript

namespace Text

theorem count_of_depth? {d e : Nat} {t : Text} (h : t.depth? d = some e) :
    d + t.count '[' = e + t.count ']' := by
  induction t generalizing d with
  | nil =>
    obtain rfl : d = e := by simpa using h
    rfl
  | cons c t ih =>
    by_cases opener : c = '['
    · subst opener
      have others := ih (by simpa using h)
      rw [List.count_cons_self, List.count_cons_of_ne (by decide)]
      omega
    · by_cases closer : c = ']'
      · subst closer
        cases d with
        | zero => simp at h
        | succ d =>
          have others := ih (by simpa using h)
          rw [List.count_cons_self, List.count_cons_of_ne (by decide)]
          omega
      · rw [depth?_other opener closer] at h
        rw [List.count_cons_of_ne opener, List.count_cons_of_ne closer, ih h]

theorem exists_depth?_of_prefix {d e : Nat} {s t : Text} (front : s <+: t)
    (h : t.depth? d = some e) : ∃ m, s.depth? d = some m := by
  obtain ⟨back, rfl⟩ := front
  rw [depth?_append] at h
  obtain ⟨m, depth, -⟩ := Option.bind_eq_some_iff.mp h
  exact ⟨m, depth⟩

/-- At byte `i` of a text that begins at byte `start`, `d` of the groups that the text opens
are open. -/
def OpenAt (start : Nat) (t : Text) (i d : Nat) : Prop :=
  ∃ front back, t = front ++ back ∧ i = start + front.size ∧ front.depth? 0 = some d

namespace OpenAt

variable {start i d : Nat} {run t : Text}

theorem here (start : Nat) (t : Text) : OpenAt start t start 0 := ⟨[], t, rfl, rfl, rfl⟩

theorem behind (h : OpenAt (start + run.size) t i d) (settled : run.depth? 0 = some 0) :
    OpenAt start (run ++ t) i d := by
  obtain ⟨front, back, rfl, rfl, depth⟩ := h
  refine ⟨run ++ front, back, by simp, by rw [size_append, Nat.add_assoc], ?_⟩
  rw [depth?_append, settled]
  exact depth

theorem within (h : OpenAt (start + 1) t i d) (more : Text) :
    OpenAt start ('[' :: (t ++ more)) i (d + 1) := by
  obtain ⟨front, back, rfl, rfl, depth⟩ := h
  refine ⟨'[' :: front, back ++ more, by simp, Nat.add_assoc _ _ _, ?_⟩
  exact depth?_add depth 1

end OpenAt

end Text

namespace Group

variable {g : Group} {rest : Text}

theorem Fits.alone (h : g.Fits rest) : g.Fits [] := by
  cases h with
  | closed balanced => exact .closed balanced []
  | unclosed nests => exact .unclosed nests

theorem depth?_content (fits : g.Fits rest) (closed : g.closed = true) :
    g.content.depth? 0 = some 0 := by
  cases fits with
  | @closed inner balanced =>
    have up := Text.depth?_add balanced 1
    rw [Nat.zero_add] at up
    simp [content, Text.depth?_append, up]
  | unclosed => simp at closed

theorem count_front_lt (fits : g.Fits rest) {front : Text} (within : front <+: g.content)
    (filled : front ≠ []) (proper : g.closed = true → front ≠ g.content) :
    front.count ']' < front.count '[' := by
  obtain ⟨d, depth, -⟩ := settles_inner fits
  obtain ⟨s, rfl, inside⟩ : ∃ s, front = '[' :: s ∧ s <+: g.inner := by
    obtain nothing | ⟨s, rfl, inBody⟩ := List.prefix_cons_iff.mp within
    · exact absurd nothing filled
    · refine ⟨s, rfl, ?_⟩
      rw [← inner_append_closing] at inBody
      by_cases closed : g.closed = true
      · rw [closing_of_fits fits closed] at inBody
        obtain whole | inner := List.prefix_concat_iff.mp inBody
        · exact absurd (by rw [content_eq, closing_of_fits fits closed, whole]) (proper closed)
        · exact inner
      · rwa [closing_of_unclosed (by simpa using closed), List.append_nil] at inBody
  obtain ⟨m, depth⟩ := Text.exists_depth?_of_prefix inside depth
  have count := Text.count_of_depth? depth
  rw [List.count_cons_self, List.count_cons_of_ne (by decide)]
  omega

end Group

namespace Node

mutual

theorem mem_walk_trans {a n : Node} : (root : Node) → a ∈ root.walk → n ∈ a.walk → n ∈ root.walk
  | ⟨kind, content, position, children⟩, mem, below => by
    rw [walk_eq, List.mem_cons] at mem
    obtain rfl | mem := mem
    · exact below
    · rw [walk_eq]
      exact List.mem_cons_of_mem _ (mem_walkAll_trans children mem below)

theorem mem_walkAll_trans {a n : Node} : (ns : List Node) → a ∈ walkAll ns → n ∈ a.walk →
    n ∈ walkAll ns
  | [], mem, _ => by simp at mem
  | m :: ns, mem, below => by
    rw [walkAll_cons, List.mem_append] at mem ⊢
    exact mem.imp (fun mem => mem_walk_trans m mem below) fun mem => mem_walkAll_trans ns mem below

end

/-- In how many groups of the given nodes a node lies. The nodes of a tree that was built differ
by where they begin, so a node is known by what it is. -/
def around (n : Node) (nodes : List Node) : Nat :=
  nodes.countP fun a => a.kind.isGroup && decide (n ∈ walkAll a.children)

section
variable {n m : Node} {ns : List Node}

theorem around_append (n : Node) (front back : List Node) :
    n.around (front ++ back) = n.around front + n.around back := List.countP_append

theorem around_cons_other (other : m.kind.isGroup = false) (n : Node) (nodes : List Node) :
    n.around (m :: nodes) = n.around nodes := by
  simp [around, other]

theorem around_cons_group (group : m.kind.isGroup = true) (n : Node) (nodes : List Node) :
    n.around (m :: nodes) = (if n ∈ walkAll m.children then 1 else 0) + n.around nodes := by
  simp [around, List.countP_cons, group, Nat.add_comm]

theorem around_eq_zero (h : n ∉ walkAll ns) : n.around (walkAll ns) = 0 := by
  rw [around, List.countP_eq_zero]
  intro a mem
  have apart : n ∉ walkAll a.children := by
    intro below
    refine h (mem_walkAll_trans ns mem ?_)
    rw [walk_eq]
    exact List.mem_cons_of_mem a below
  simp [apart]

theorem around_of_mem (nodup : (walkAll ns).Nodup) (mem : m ∈ ns) (below : n ∈ m.walk) :
    n.around (walkAll ns) = n.around m.walk := by
  obtain ⟨front, back, rfl⟩ := List.append_of_mem mem
  rw [walkAll_append, walkAll_cons, List.nodup_append'] at nodup
  obtain ⟨-, others, apart⟩ := nodup
  have later := (List.nodup_append'.mp others).2.2
  rw [walkAll_append, walkAll_cons, around_append, around_append,
    around_eq_zero fun early => apart early (List.mem_append_left _ below),
    around_eq_zero fun late => later below late, Nat.zero_add, Nat.add_zero]

end

/-- Each of the nodes lies in as many groups among them as are open where it begins. -/
def Deep (start : Nat) (slice : Text) (nodes : List Node) : Prop :=
  ∀ n ∈ nodes, slice.OpenAt start n.position.offset (n.around nodes)

theorem Deep.cons {start : Nat} {run t : Text} {m : Node} {ns : List Node}
    (more : Deep (start + run.size) t (walkAll ns)) (fresh : m ∉ walkAll ns)
    (other : m.kind.isGroup = false) (here : m.position.offset = start)
    (plain : run.Bracketless) : Deep start (run ++ t) (m :: walkAll ns) := by
  intro n mem
  rw [around_cons_other other]
  obtain rfl | later := List.mem_cons.mp mem
  · rw [here, around_eq_zero fresh]
    exact .here start _
  · exact (more n later).behind (Text.depth?_bracketless plain 0)

end Node

namespace Draft

open Node (Deep around_cons_group around_append around_eq_zero)

variable {k : Cursor} {kind : Kind} {content t : Text} {g : Group} {inner rest : Draft}

theorem deep_leaf (nodup : (Node.walkAll (leaf k kind content rest).nodes).Nodup)
    (other : kind.isGroup = false) (plain : content.Bracketless)
    (more : Deep (k.advance content).offset t (Node.walkAll rest.nodes)) :
    Deep k.offset (content ++ t) (Node.walkAll (leaf k kind content rest).nodes) := by
  rw [walkAll_leaf] at nodup ⊢
  exact more.cons (List.nodup_cons.mp nodup).1 other rfl plain

theorem deep_group (nodup : (Node.walkAll (group k g inner rest).nodes).Nodup) (fits : g.Fits t)
    (inside : Deep (Group.enter k).offset g.inner (Node.walkAll inner.nodes))
    (more : Deep (k.advance g.content).offset t (Node.walkAll rest.nodes))
    (last : t = [] → rest.nodes = []) :
    Deep k.offset (g.content ++ t) (Node.walkAll (group k g inner rest).nodes) := by
  rw [walkAll_group] at nodup ⊢
  obtain ⟨fresh, apart⟩ := List.nodup_cons.mp nodup
  rw [List.mem_append, not_or] at fresh
  have apart := (List.nodup_append'.mp apart).2.2
  have children : (g.node k inner.nodes).children = inner.nodes := rfl
  intro n mem
  rw [around_cons_group rfl, children, around_append]
  rw [List.mem_cons, List.mem_append] at mem
  -- The node is the group itself, below it, or behind it.
  obtain rfl | below | behind := mem
  · rw [if_neg fresh.1, around_eq_zero fresh.1, around_eq_zero fresh.2]
    exact .here k.offset _
  · rw [if_pos below, around_eq_zero (apart below), Nat.add_zero, Nat.add_comm, Group.content_eq,
      List.cons_append, List.append_assoc]
    exact (inside n below).within _
  · have closed : g.closed = true := by
      refine fits.closed_or.resolve_right fun nothing => ?_
      simp [last nothing] at behind
    have elsewhere : n ∉ Node.walkAll inner.nodes := fun below => apart below behind
    rw [if_neg elsewhere, around_eq_zero elsewhere, Nat.zero_add, Nat.zero_add]
    exact (more n behind).behind (Group.depth?_content fits closed)

theorem deep_directive (nodup : (Node.walkAll (directive k content g inner rest).nodes).Nodup)
    (plain : content.Bracketless) (fits : g.Fits t)
    (inside : Deep (Group.enter (k.advance content)).offset g.inner (Node.walkAll inner.nodes))
    (more : Deep ((k.advance content).advance g.content).offset t (Node.walkAll rest.nodes))
    (last : t = [] → rest.nodes = []) :
    Deep k.offset (content ++ (g.content ++ t))
      (Node.walkAll (directive k content g inner rest).nodes) := by
  rw [walkAll_directive, ← walkAll_group] at nodup ⊢
  obtain ⟨fresh, nodup⟩ := List.nodup_cons.mp nodup
  exact (deep_group nodup fits inside more last).cons fresh rfl rfl plain

end Draft

theorem nodup_sequence (ctx : Context) (slice : Text) (k : Cursor) :
    (Node.walkAll (sequence ctx slice k).nodes).Nodup := by
  refine List.Nodup.of_map (fun n : Node => n.position.offset) ?_
  exact (increasing_sequence ctx slice k).pairwise.imp Nat.ne_of_lt

theorem nodup_build (text : Text) : (Node.walkAll (build text).children).Nodup :=
  nodup_sequence .outside text {}

theorem deep_sequence {ctx : Context} {slice : Text} (pieces : Stretch ctx slice)
    (inside : ctx = .inside) {after : Text} (enclosed : Enclosed slice after) (k : Cursor) :
    Node.Deep k.offset slice (Node.walkAll (sequence ctx slice k).nodes) := by
  induction pieces generalizing after k with
  | nil => simp [Node.Deep]
  | @literal ctx run rest filled plain stopped _ ih =>
    subst inside
    have nodup := nodup_sequence .inside (run ++ rest) k
    have bracketless := bracketless_of_plain plain
    rw [sequence_literal k filled plain stopped] at nodup ⊢
    exact Draft.deep_leaf nodup rfl bracketless (ih rfl (enclosed.skip bracketless) _)
  | @separator rest _ ih =>
    have nodup := nodup_sequence .inside (';' :: rest) k
    have more := Enclosed.skip bracketless_separator enclosed
    rw [sequence_separator] at nodup ⊢
    exact Draft.deep_leaf nodup rfl bracketless_separator (ih rfl more _)
  | closer => exact absurd enclosed Enclosed.not_closer
  | @directive ctx name rest named stopped bare _ ih =>
    have nodup := nodup_sequence ctx ('$' :: (name ++ rest)) k
    have bracketless := bracketless_of_named named
    rw [sequence_name k named stopped bare] at nodup ⊢
    exact Draft.deep_leaf nodup rfl bracketless (ih inside (enclosed.skip bracketless) _)
  | @call ctx name rest g named fits _ _ ihInner ih =>
    have nodup := nodup_sequence ctx ('$' :: (name ++ (g.content ++ rest))) k
    have bracketless := bracketless_of_named named
    have called := enclosed.skip bracketless
    rw [sequence_call k named fits] at nodup ⊢
    exact Draft.deep_directive nodup bracketless fits
      (ihInner rfl (Enclosed.enter fits (called.closed_or fits)) _)
      (ih inside (called.leave fits) _) (by rintro rfl; rw [sequence_nil])
  | @group rest g fits _ _ ihInner ih =>
    have nodup := nodup_sequence .inside (g.content ++ rest) k
    rw [sequence_bracket k fits] at nodup ⊢
    exact Draft.deep_group nodup fits (ihInner rfl (Enclosed.enter fits (enclosed.closed_or fits)) _)
      (ih rfl (enclosed.leave fits) _) (by rintro rfl; rw [sequence_nil])

namespace Node

theorem Occurs.deep {text : Text} {n : Node} (h : n.Occurs text) (group : n.kind.isGroup = true) :
    Deep n.position.offset n.content n.walk := by
  obtain ⟨before, after, g, -, -, fits, rfl⟩ := h.exists_group group
  -- What follows the group does not matter, so the group is read as a slice of its own.
  have alone := fits.alone
  have enclosed : Enclosed (g.content ++ []) [] :=
    ⟨false, (Group.settles_content_append_iff alone).mpr ⟨fun _ => rfl, Text.settles_nil false⟩, rfl⟩
  have deep := deep_sequence (stretch .inside _) rfl enclosed (Cursor.advance {} before)
  rw [sequence_bracket _ alone, sequence_nil, List.append_nil, Draft.group, walkAll_cons,
    walkAll_nil, List.append_nil] at deep
  exact deep

theorem isGroup_of_argument? {n g : Node} (h : n.argument? = some g) : g.kind.isGroup = true := by
  unfold argument? at h
  split at h
  · simpa using List.find?_some h
  · simp at h

theorem Occurs.children_of_argument? {text : Text} {d g : Node} (h : d.Occurs text)
    (argument : d.argument? = some g) : d.kind.isGroup = false ∧ d.children = [g] := by
  cases h with
  | literal => simp [argument?, leaf] at argument
  | separator => simp [argument?, leaf] at argument
  | directive => simp [argument?, leaf] at argument
  | call => exact ⟨rfl, by simpa [argument?, Group.node, Kind.isGroup] using argument⟩
  | group => simp [argument?, Group.node] at argument

theorem around_outermost {text : Text} {g n : Node} (outermost : (build text).Outermost g)
    (mem : n ∈ g.walk) : n.around (build text).walk = n.around g.walk := by
  obtain ⟨d, sibling, argument⟩ := outermost
  have occurs := occurs_build d (mem_walkAll_of_mem sibling)
  obtain ⟨other, children⟩ := occurs.children_of_argument? argument
  have walk : d.walk = d :: g.walk := by
    rw [walk_eq, children, walkAll_cons, walkAll_nil, List.append_nil]
  have below : n ∈ d.walk := by
    rw [walk]
    exact List.mem_cons_of_mem d mem
  rw [walk_eq (build text), around_cons_other rfl,
    around_of_mem (nodup_build text) sibling below, walk, around_cons_other other]

end Node

/-- In the group of a directive at the top a node lies in as many groups as the brackets from
the group's own to the node leave open. They leave some open everywhere in the group, and none
at its end if it closes. -/
theorem depth_build {text : Text} {g : Node} (outermost : (build text).Outermost g) :
    (∀ n ∈ g.walk, ∃ s, text.slice? g.position.offset n.position.offset = some s ∧
      (n.around (build text).walk : Int) = s.count '[' - s.count ']') ∧
    (∀ front, front <+: g.content → front ≠ [] → front ≠ g.content →
      front.count ']' < front.count '[') ∧
    (g.kind = .group true → g.content.count '[' = g.content.count ']') ∧
    (g.kind = .group false → g.content.count ']' < g.content.count '[') := by
  have around {n : Node} (mem : n ∈ g.walk) := Node.around_outermost outermost mem
  obtain ⟨d, sibling, argument⟩ := outermost
  have occurs := occurs_build g (Node.mem_walkAll_of_argument? sibling argument)
  have group := Node.isGroup_of_argument? argument
  obtain ⟨before, after, g', whole, offset, fits, same⟩ := occurs.exists_group group
  have content : g.content = g'.content := by rw [same]; rfl
  have kind : g.kind = .group g'.closed := by rw [same]; rfl
  have deep := occurs.deep group
  rw [content] at deep ⊢
  refine ⟨?_, ?_, ?_, ?_⟩
  · intro n mem
    obtain ⟨front, back, split, place, depth⟩ := deep n mem
    refine ⟨front, ?_, ?_⟩
    · rw [place, offset, ← whole, split, List.append_assoc]
      exact Text.slice?_append before front (back ++ after)
    · have count := Text.count_of_depth? depth
      rw [around mem]
      omega
  · intro front within filled proper
    exact Group.count_front_lt fits within filled fun _ => proper
  · intro closed
    have balanced := Group.depth?_content fits (by simpa [kind] using closed)
    simpa using Text.count_of_depth? balanced
  · intro unclosed
    exact Group.count_front_lt fits List.prefix_rfl (by simp [Group.content])
      fun closed => by simp [kind, closed] at unclosed

theorem depth_build_nested :
    ∃ g, (build "é$f[a[é]$h[$k[;x]y".toList).Outermost g ∧ g.kind = .group false ∧
      g.content.count ']' < g.content.count '[' ∧
      ∃ n ∈ g.walk, n.kind = .separator ∧ n.around (build "é$f[a[é]$h[$k[;x]y".toList).walk = 3 ∧
        ∃ s, Text.slice? g.position.offset n.position.offset "é$f[a[é]$h[$k[;x]y".toList = some s ∧
          (3 : Int) = s.count '[' - s.count ']' := by
  let text : Text := "é$f[a[é]$h[$k[;x]y".toList
  let d := (build text).children.get ⟨1, by decide +kernel⟩
  have sibling : d ∈ (build text).children := List.get_mem _ _
  let g := (build text).walk.get ⟨3, by decide +kernel⟩
  have outermost : (build text).Outermost g := ⟨d, sibling, by decide +kernel⟩
  obtain ⟨deep, -, -, unclosed⟩ := depth_build outermost
  have open_ : g.kind = .group false := by decide +kernel
  let n := g.walk.get ⟨8, by decide +kernel⟩
  have mem : n ∈ g.walk := List.get_mem _ _
  have three : n.around (build text).walk = 3 := by decide +kernel
  obtain ⟨s, slice, count⟩ := deep n mem
  rw [three] at count
  exact ⟨g, outermost, open_, unclosed open_, n, mem, by decide +kernel, three, s, slice, count⟩

end InlineScript
