import InlineScript.Proofs.Layout
import Mathlib.Data.List.Nodup

/-! The significant characters of a text and the nodes that own them. A directive owns its
marker, a separator itself and a group its brackets. Inside a group every significant
character has its owner; at the top only markers have one, and what else is significant in
a group is plain text there. The closing bracket of a group comes after all that the group
holds while the walk meets the group first, so the two lists agree up to their order. -/

namespace InlineScript

namespace Text

/-- The characters of a text that are significant in a group, each with its offset. -/
def marks (offset : Nat) : Text → List (Char × Nat)
  | [] => []
  | c :: cs =>
    if Context.inside.stops c then (c, offset) :: marks (offset + c.utf8Size) cs
    else marks (offset + c.utf8Size) cs

section
variable {c : Char} {s t : Text} {offset i : Nat}

@[simp] theorem marks_nil (offset : Nat) : marks offset [] = [] := rfl

theorem marks_cons (h : Context.inside.stops c = true) (offset : Nat) (t : Text) :
    marks offset (c :: t) = (c, offset) :: marks (offset + c.utf8Size) t := by
  simp [marks, h]

theorem marks_cons_plain (h : Context.inside.stops c = false) (offset : Nat) (t : Text) :
    marks offset (c :: t) = marks (offset + c.utf8Size) t := by
  simp [marks, h]

theorem marks_append (offset : Nat) (s t : Text) :
    marks offset (s ++ t) = marks offset s ++ marks (offset + s.size) t := by
  induction s generalizing offset with
  | nil => rfl
  | cons c s ih =>
    rw [List.cons_append, size_cons, ← Nat.add_assoc]
    cases stops : Context.inside.stops c with
    | true => rw [marks_cons stops, marks_cons stops, ih, List.cons_append]
    | false => rw [marks_cons_plain stops, marks_cons_plain stops, ih]

theorem marks_plain (plain : ∀ c ∈ s, Context.inside.stops c = false) (offset : Nat) :
    marks offset s = [] := by
  induction s generalizing offset with
  | nil => rfl
  | cons c s ih =>
    obtain ⟨first, others⟩ := List.forall_mem_cons.mp plain
    rw [marks_cons_plain first, ih others]

theorem mem_marks_iff :
    (c, i) ∈ marks offset t ↔ Context.inside.stops c = true ∧
      ∃ before after : Text, t = before ++ c :: after ∧ i = offset + before.size := by
  constructor
  · intro mem
    induction t generalizing offset with
    | nil => simp at mem
    | cons d t ih =>
      have later (tail : (c, i) ∈ marks (offset + d.utf8Size) t) :
          Context.inside.stops c = true ∧
            ∃ before after : Text, d :: t = before ++ c :: after ∧ i = offset + before.size := by
        obtain ⟨stops, before, after, rfl, rfl⟩ := ih tail
        exact ⟨stops, d :: before, after, rfl, Nat.add_assoc _ _ _⟩
      cases stops : Context.inside.stops d with
      | true =>
        rw [marks_cons stops, List.mem_cons] at mem
        obtain here | tail := mem
        · obtain ⟨rfl, rfl⟩ := Prod.mk.inj here
          exact ⟨stops, [], t, rfl, rfl⟩
        · exact later tail
      | false =>
        rw [marks_cons_plain stops] at mem
        exact later mem
  · rintro ⟨stops, before, after, rfl, rfl⟩
    rw [marks_append, marks_cons stops]
    exact List.mem_append_right _ List.mem_cons_self

theorem increasing_marks (offset : Nat) (t : Text) :
    Increasing (offset + t.size) offset ((marks offset t).map Prod.snd) := by
  induction t generalizing offset with
  | nil => exact Nat.le_refl _
  | cons c t ih =>
    have first := c.utf8Size_pos
    have others := ih (offset + c.utf8Size)
    rw [size_cons, ← Nat.add_assoc]
    cases stops : Context.inside.stops c with
    | true =>
      rw [marks_cons stops]
      exact ⟨Nat.le_refl _, others.from_le (by omega)⟩
    | false =>
      rw [marks_cons_plain stops]
      exact others.from_le (by omega)

theorem bounds_of_mem_marks {m : Char × Nat} (h : m ∈ marks offset t) :
    offset ≤ m.2 ∧ m.2 < offset + t.size :=
  (increasing_marks offset t).bounds m.2 (List.mem_map_of_mem h)

theorem nodup_marks (offset : Nat) (t : Text) : (marks offset t).Nodup := by
  refine List.Nodup.of_map Prod.snd ?_
  exact (increasing_marks offset t).pairwise.imp Nat.ne_of_lt

theorem slice?_eq_mark_iff (stops : Context.inside.stops c = true) :
    t.slice? i (i + 1) = some [c] ↔ (c, i) ∈ marks 0 t := by
  have size : c.utf8Size = 1 := by
    obtain rfl | rfl | rfl | rfl := Context.stops_inside_iff.mp stops <;> rfl
  rw [slice?_eq_some_iff, mem_marks_iff]
  simp [stops, size, eq_comm]

end

end Text

def Node.marks (n : Node) : List (Char × Nat) :=
  match n.kind with
  | .directive => [('$', n.position.offset)]
  | .separator => [(';', n.position.offset)]
  | .group false => [('[', n.position.offset)]
  | .group true => [('[', n.position.offset), (']', n.position.stop - 1)]
  | .literal | .program | .endOfInput => []

def Node.marksAll (ns : List Node) : List (Char × Nat) := (walkAll ns).flatMap marks

namespace Group

variable {g : Group} {rest : Text}

theorem marks_content (g : Group) (offset : Nat) :
    g.content.marks offset =
      ('[', offset) ::
        (g.inner.marks (offset + 1) ++ g.closing.marks (offset + 1 + g.inner.size)) := by
  rw [content_eq, Text.marks_cons (by decide), Text.marks_append]
  rfl

theorem marks_node (fits : g.Fits rest) (k : Cursor) (children : List Node) :
    (g.node k children).marks =
      ('[', k.offset) :: g.closing.marks (k.offset + 1 + g.inner.size) := by
  cases fits with
  | @closed inner balanced =>
    have stop : k.offset + (Text.size ('[' :: (inner ++ [']']))) - 1 =
        k.offset + 1 + inner.size := by
      rw [Text.size_cons, Text.size_append]
      change k.offset + (1 + (inner.size + 1)) - 1 = _
      omega
    simp only [node, Node.marks, content, Cursor.span, Position.of, Position.stop, stop]
    simp [closing, Group.inner, Text.marks_cons (show Context.inside.stops ']' = true by decide)]
  | unclosed nests => rfl

theorem perm_marks_group (fits : g.Fits rest) (k : Cursor) {children : List Node}
    (inside : (Node.marksAll children).Perm (g.inner.marks (k.offset + 1))) :
    ((g.node k children).marks ++ Node.marksAll children).Perm (g.content.marks k.offset) := by
  rw [marks_node fits, marks_content, List.cons_append]
  refine .cons _ (List.perm_append_comm.trans ?_)
  exact inside.append_right _

end Group

namespace Draft

variable (k : Cursor) (kind : Kind) (content : Text) (g : Group) (inner rest : Draft)

theorem marksAll_leaf :
    Node.marksAll (leaf k kind content rest).nodes =
      (Node.leaf kind content (k.span content)).marks ++ Node.marksAll rest.nodes := by
  rw [Node.marksAll, walkAll_leaf, List.flatMap_cons]
  rfl

theorem marksAll_group :
    Node.marksAll (group k g inner rest).nodes =
      ((g.node k inner.nodes).marks ++ Node.marksAll inner.nodes) ++ Node.marksAll rest.nodes := by
  rw [Node.marksAll, walkAll_group, List.flatMap_cons, List.flatMap_append, List.append_assoc]
  rfl

theorem marksAll_directive :
    Node.marksAll (directive k content g inner rest).nodes =
      ('$', k.offset) ::
        (((g.node (k.advance content) inner.nodes).marks ++ Node.marksAll inner.nodes) ++
          Node.marksAll rest.nodes) := by
  rw [Node.marksAll, walkAll_directive, List.flatMap_cons, List.flatMap_cons,
    List.flatMap_append, List.append_assoc]
  rfl

end Draft

theorem marks_marker {name : Text} (named : ∀ c ∈ name, isNameChar c = true) (k : Cursor)
    (rest : Text) :
    Text.marks k.offset ('$' :: (name ++ rest)) =
      ('$', k.offset) :: rest.marks (k.advance ('$' :: name)).offset := by
  have plain : ∀ c ∈ name, Context.inside.stops c = false := by
    intro c mem
    have named := named c mem
    rw [isNameChar, Bool.and_eq_true] at named
    simpa using named.2
  rw [Text.marks_cons (by decide), Text.marks_append, Text.marks_plain plain, List.nil_append]
  simp [Cursor.advance, Nat.add_assoc]

theorem perm_marks_inside {ctx : Context} {slice : Text} (pieces : Stretch ctx slice)
    (inside : ctx = .inside) {after : Text} (enclosed : Enclosed slice after) (k : Cursor) :
    (Node.marksAll (sequence ctx slice k).nodes).Perm (slice.marks k.offset) := by
  induction pieces generalizing after k with
  | nil => simp [Node.marksAll]
  | @literal ctx run rest filled plain stopped _ ih =>
    subst inside
    have more := enclosed.skip (bracketless_of_plain plain)
    rw [sequence_literal k filled plain stopped, Draft.marksAll_leaf, Text.marks_append,
      Text.marks_plain plain]
    exact ih rfl more (k.advance run)
  | @separator rest _ ih =>
    have more : Enclosed rest after := Enclosed.skip bracketless_separator enclosed
    rw [sequence_separator, Draft.marksAll_leaf, Text.marks_cons (by decide)]
    exact .cons _ (ih rfl more (k.advance [';']))
  | closer => exact absurd enclosed Enclosed.not_closer
  | @directive ctx name rest named stopped bare _ ih =>
    rw [← List.cons_append] at enclosed
    have more := enclosed.skip (bracketless_of_named named)
    rw [sequence_name k named stopped bare, Draft.marksAll_leaf, marks_marker named]
    exact .cons _ (ih inside more (k.advance ('$' :: name)))
  | @call ctx name rest g named fits _ _ ihInner ih =>
    rw [← List.cons_append] at enclosed
    have called := enclosed.skip (bracketless_of_named named)
    have inner := ihInner rfl (Enclosed.enter fits (called.closed_or fits))
      (Group.enter (k.advance ('$' :: name)))
    have more := ih inside (called.leave fits) ((k.advance ('$' :: name)).advance g.content)
    rw [sequence_call k named fits, Draft.marksAll_directive, marks_marker named,
      Text.marks_append]
    exact .cons _ ((Group.perm_marks_group fits _ inner).append more)
  | @group rest g fits _ _ ihInner ih =>
    have inner := ihInner rfl (Enclosed.enter fits (enclosed.closed_or fits)) (Group.enter k)
    have more := ih rfl (enclosed.leave fits) (k.advance g.content)
    rw [sequence_bracket k fits, Draft.marksAll_group, Text.marks_append]
    exact (Group.perm_marks_group fits k inner).append more

namespace Node

/-- The group of a directive at the top of a tree. -/
def Outermost (root g : Node) : Prop := ∃ d ∈ root.children, d.argument? = some g

/-- Whether a byte belongs to the group of a directive among the siblings. -/
def covers (ns : List Node) (i : Nat) : Bool :=
  ns.any fun n => n.argument?.any fun g => g.position.offset ≤ i && i < g.position.stop

/-- The marks that have an owner at the top: markers, and all that lies in a group. -/
def owned (ns : List Node) (m : Char × Nat) : Bool := m.1 = '$' || covers ns m.2

section
variable {ns : List Node} {i : Nat}

theorem covers_iff :
    covers ns i = true ↔
      ∃ g, (∃ d ∈ ns, d.argument? = some g) ∧ g.position.offset ≤ i ∧ i < g.position.stop := by
  simp only [covers, List.any_eq_true, Option.any_eq_true, Bool.and_eq_true, decide_eq_true_eq]
  constructor
  · rintro ⟨d, mem, g, argument, inside⟩
    exact ⟨g, ⟨d, mem, argument⟩, inside⟩
  · rintro ⟨g, ⟨d, mem, argument⟩, inside⟩
    exact ⟨d, mem, g, argument, inside⟩

theorem owned_iff {m : Char × Nat} :
    owned ns m = true ↔ m.1 = '$' ∨ covers ns m.2 = true := by
  simp [owned]

theorem covers_leaf (kind : Kind) (content : Text) (position : Position) :
    covers (leaf kind content position :: ns) = covers ns := by
  funext i
  by_cases directive : kind = .directive <;> simp [covers, leaf, argument?, directive]

theorem owned_leaf (kind : Kind) (content : Text) (position : Position) :
    owned (leaf kind content position :: ns) = owned ns := by
  funext m
  rw [owned, owned, covers_leaf]

theorem covers_call {content : Text} {position : Position} {g : Group} {k : Cursor}
    {children : List Node} :
    covers (⟨.directive, content, position, [g.node k children]⟩ :: ns) i = true ↔
      (k.offset ≤ i ∧ i < (k.advance g.content).offset) ∨ covers ns i = true := by
  have argument : (Node.mk .directive content position [g.node k children]).argument? =
      some (g.node k children) := by
    simp [argument?, Group.node, Kind.isGroup]
  simp only [covers, List.any_cons, argument, Option.any_some, Bool.or_eq_true,
    Bool.and_eq_true, decide_eq_true_eq]
  rfl

theorem mem_walkAll_of_mem {n : Node} (mem : n ∈ ns) : n ∈ walkAll ns := by
  rw [walkAll_eq_flatMap]
  exact List.mem_flatMap_of_mem mem n.mem_walk_self

theorem mem_walkAll_of_argument? {n g : Node} (mem : n ∈ ns) (h : n.argument? = some g) :
    g ∈ walkAll ns := by
  have child : g ∈ n.children := by
    unfold argument? at h
    split at h
    · exact List.mem_of_find?_eq_some h
    · simp at h
  rw [walkAll_eq_flatMap]
  refine List.mem_flatMap_of_mem mem ?_
  rw [walk_eq]
  exact List.mem_cons_of_mem n (mem_walkAll_of_mem child)

end

end Node

theorem offset_le_of_covers {ctx : Context} {slice : Text} {k : Cursor} {i : Nat}
    (h : Node.covers (sequence ctx slice k).nodes i = true) : k.offset ≤ i := by
  obtain ⟨g, ⟨d, mem, argument⟩, start, -⟩ := Node.covers_iff.mp h
  have below := Node.mem_walkAll_of_argument? mem argument
  have bounds := (increasing_sequence ctx slice k).bounds _ (List.mem_map_of_mem below)
  exact Nat.le_trans bounds.1 start

section
variable {run slice : Text} {k : Cursor} {g : Group}

theorem filter_owned_run (plain : ∀ c ∈ run, Context.outside.stops c = false) :
    (run.marks k.offset).filter
      (Node.owned (sequence .outside slice (k.advance run)).nodes) = [] := by
  refine List.filter_eq_nil_iff.mpr ?_
  rintro ⟨c, i⟩ mem owned
  have bounds := Text.bounds_of_mem_marks mem
  obtain marker | covered := Node.owned_iff.mp owned
  · obtain ⟨-, before, after, rfl, -⟩ := Text.mem_marks_iff.mp mem
    have literal := plain c (by simp)
    rw [Context.stops_outside_iff.mpr marker] at literal
    simp at literal
  · have further : k.offset + run.size ≤ i := offset_le_of_covers covered
    have inside : i < k.offset + run.size := bounds.2
    omega

theorem filter_owned_content {ns : List Node} {content : Text} {position : Position}
    {children : List Node} :
    (g.content.marks k.offset).filter
        (Node.owned (⟨.directive, content, position, [g.node k children]⟩ :: ns)) =
      g.content.marks k.offset := by
  refine List.filter_eq_self.mpr ?_
  intro m mem
  exact Node.owned_iff.mpr (.inr (Node.covers_call.mpr (.inl (Text.bounds_of_mem_marks mem))))

theorem filter_owned_behind {rest content : Text} {position : Position} {ns children : List Node} :
    (rest.marks (k.advance g.content).offset).filter
        (Node.owned (⟨.directive, content, position, [g.node k children]⟩ :: ns)) =
      (rest.marks (k.advance g.content).offset).filter (Node.owned ns) := by
  refine List.filter_congr ?_
  intro m mem
  have bounds := Text.bounds_of_mem_marks mem
  rw [Bool.eq_iff_iff, Node.owned_iff, Node.owned_iff, Node.covers_call]
  constructor
  · rintro (marker | ⟨-, inside⟩ | covered)
    · exact .inl marker
    · omega
    · exact .inr covered
  · exact Or.imp_right .inr

end

theorem perm_marks_outside {ctx : Context} {slice : Text} (pieces : Stretch ctx slice)
    (outside : ctx = .outside) (k : Cursor) :
    (Node.marksAll (sequence ctx slice k).nodes).Perm
      ((slice.marks k.offset).filter (Node.owned (sequence ctx slice k).nodes)) := by
  induction pieces generalizing k with
  | nil => simp [Node.marksAll]
  | @literal ctx run rest filled plain stopped _ ih =>
    subst outside
    rw [sequence_literal k filled plain stopped, Draft.marksAll_leaf, Text.marks_append,
      List.filter_append, Draft.leaf, Node.owned_leaf, filter_owned_run plain]
    exact ih rfl (k.advance run)
  | separator => cases outside
  | closer => cases outside
  | @directive ctx name rest named stopped bare _ ih =>
    rw [sequence_name k named stopped bare, Draft.marksAll_leaf, marks_marker named, Draft.leaf,
      Node.owned_leaf, List.filter_cons_of_pos (by simp [Node.owned])]
    exact .cons _ (ih outside (k.advance ('$' :: name)))
  | @call ctx name rest g named fits inner _ _ ih =>
    have more := ih outside ((k.advance ('$' :: name)).advance g.content)
    have below := perm_marks_inside inner rfl (Enclosed.enter fits fits.closed_or)
      (Group.enter (k.advance ('$' :: name)))
    rw [sequence_call k named fits, Draft.marksAll_directive, marks_marker named,
      Text.marks_append, List.filter_cons_of_pos (by simp [Node.owned]), List.filter_append]
    simp only [Draft.directive]
    rw [← filter_owned_behind] at more
    rw [filter_owned_content]
    exact .cons _ ((Group.perm_marks_group fits _ below).append more)
  | group => cases outside

theorem owned_or_literal {ctx : Context} {slice : Text} (pieces : Stretch ctx slice)
    (outside : ctx = .outside) (k : Cursor) :
    ∀ m ∈ slice.marks k.offset, Node.owned (sequence ctx slice k).nodes m = true ∨
      ∃ n ∈ (sequence ctx slice k).nodes,
        n.kind = .literal ∧ n.position.offset ≤ m.2 ∧ m.2 < n.position.stop := by
  induction pieces generalizing k with
  | nil => simp
  | @literal ctx run rest filled plain stopped _ ih =>
    rw [sequence_literal k filled plain stopped, Text.marks_append, List.forall_mem_append]
    constructor
    · intro m mem
      exact .inr ⟨_, List.mem_cons_self, rfl, Text.bounds_of_mem_marks mem⟩
    · intro m mem
      obtain owned | ⟨n, more, found⟩ := ih outside (k.advance run) m mem
      · exact .inl (by rwa [Draft.leaf, Node.owned_leaf])
      · exact .inr ⟨n, List.mem_cons_of_mem _ more, found⟩
  | separator => cases outside
  | closer => cases outside
  | @directive ctx name rest named stopped bare _ ih =>
    rw [sequence_name k named stopped bare, marks_marker named, List.forall_mem_cons]
    constructor
    · exact .inl (by simp [Node.owned])
    · intro m mem
      obtain owned | ⟨n, more, found⟩ := ih outside (k.advance ('$' :: name)) m mem
      · exact .inl (by rwa [Draft.leaf, Node.owned_leaf])
      · exact .inr ⟨n, List.mem_cons_of_mem _ more, found⟩
  | @call ctx name rest g named fits _ _ _ ih =>
    rw [sequence_call k named fits, marks_marker named, List.forall_mem_cons, Text.marks_append,
      List.forall_mem_append]
    refine ⟨.inl (by simp [Node.owned]), ?_, ?_⟩
    · intro m mem
      exact .inl (Node.owned_iff.mpr (.inr (Node.covers_call.mpr
        (.inl (Text.bounds_of_mem_marks mem)))))
    · intro m mem
      obtain owned | ⟨n, more, found⟩ :=
        ih outside ((k.advance ('$' :: name)).advance g.content) m mem
      · refine .inl (Node.owned_iff.mpr ((Node.owned_iff.mp owned).imp_right ?_))
        exact fun covered => Node.covers_call.mpr (.inr covered)
      · exact .inr ⟨n, List.mem_cons_of_mem _ more, found⟩
  | group => cases outside

/-- Where a mark has an owner in the tree of a text, the character stands there exactly if
one node owns it. -/
theorem slice?_eq_iff_count {text : Text} {c : Char} {i : Nat}
    (stops : Context.inside.stops c = true)
    (owned : Node.owned (build text).children (c, i) = true) :
    text.slice? i (i + 1) = some [c] ↔ (Node.marksAll (build text).children).count (c, i) = 1 := by
  have children : (build text).children = (sequence .outside text {}).nodes := rfl
  have perm := perm_marks_outside (stretch .outside text) rfl {}
  rw [children] at owned ⊢
  rw [Text.slice?_eq_mark_iff stops, perm.count_eq, List.count_filter owned,
    (Text.nodup_marks _ text).count]
  simp

namespace Node

theorem countP_flatMap_marks {nodes : List Node} {p : Node → Bool} {q : Char × Nat → Bool}
    (h : ∀ n ∈ nodes, n.marks.countP q = if p n then 1 else 0) :
    (nodes.flatMap marks).countP q = nodes.countP p := by
  induction nodes with
  | nil => rfl
  | cons n nodes ih =>
    obtain ⟨first, others⟩ := List.forall_mem_cons.mp h
    rw [List.flatMap_cons, List.countP_append, first, ih others, List.countP_cons, Nat.add_comm]

theorem count_marksAll {ns : List Node} {m : Char × Nat} {p : Node → Bool}
    (h : ∀ n ∈ walkAll ns, n.marks.count m = if p n then 1 else 0) :
    (marksAll ns).count m = (walkAll ns).countP p :=
  countP_flatMap_marks h

section
variable (n : Node) (i : Nat)

theorem count_marks_marker :
    n.marks.count ('$', i) = if n.kind = .directive ∧ n.position.offset = i then 1 else 0 := by
  unfold marks
  split <;> simp [*, List.count_cons]

theorem count_marks_opener :
    n.marks.count ('[', i) = if n.kind.isGroup ∧ n.position.offset = i then 1 else 0 := by
  unfold marks
  split <;> simp [*, List.count_cons, Kind.isGroup]

theorem count_marks_separator :
    n.marks.count (';', i) = if n.kind = .separator ∧ n.position.offset = i then 1 else 0 := by
  unfold marks
  split <;> simp [*, List.count_cons]

theorem count_marks_closer (room : 0 < n.position.stop) :
    n.marks.count (']', i) =
      if n.kind = .group true ∧ n.position.stop = i + 1 then 1 else 0 := by
  have last : n.position.stop - 1 = i ↔ n.position.stop = i + 1 := by omega
  unfold marks
  split <;> simp [*, List.count_cons]
end

end Node

/-- No significant character is lost or misread: each marker belongs to one directive, and in
the groups of the directives at the top each bracket belongs to one group and each separator
to one node of its own. Everywhere else these characters are part of a literal. -/
theorem owners_build (text : Text) (i : Nat) :
    (text.slice? i (i + 1) = some ['$'] ↔
      (build text).walk.countP (fun n => n.kind = .directive ∧ n.position.offset = i) = 1) ∧
    (∀ g, (build text).Outermost g → g.position.offset ≤ i → i < g.position.stop →
      (text.slice? i (i + 1) = some ['['] ↔
        (build text).walk.countP (fun n => n.kind.isGroup ∧ n.position.offset = i) = 1) ∧
      (text.slice? i (i + 1) = some [']'] ↔
        (build text).walk.countP (fun n => n.kind = .group true ∧ n.position.stop = i + 1) = 1) ∧
      (text.slice? i (i + 1) = some [';'] ↔
        (build text).walk.countP (fun n => n.kind = .separator ∧ n.position.offset = i) = 1)) ∧
    ((∀ g, (build text).Outermost g → ¬ (g.position.offset ≤ i ∧ i < g.position.stop)) →
      ∀ c, c = '[' ∨ c = ']' ∨ c = ';' → text.slice? i (i + 1) = some [c] →
        ∃ n ∈ (build text).children,
          n.kind = .literal ∧ n.position.offset ≤ i ∧ i < n.position.stop) := by
  have root (p : Node → Bool) (h : p (build text) = false) :
      (build text).walk.countP p = (Node.walkAll (build text).children).countP p := by
    rw [Node.walk_eq, List.countP_cons_of_neg (by simp [h])]
  have kind : (build text).kind = .program := rfl
  refine ⟨?_, ?_, ?_⟩
  · rw [root _ (by simp [kind]), slice?_eq_iff_count (by decide) (by simp [Node.owned]),
      Node.count_marksAll]
    intro n _
    simp [Node.count_marks_marker]
  · intro g outermost start stop
    have covered : Node.covers (build text).children i = true :=
      Node.covers_iff.mpr ⟨g, outermost, start, stop⟩
    have owned (c : Char) : Node.owned (build text).children (c, i) = true :=
      Node.owned_iff.mpr (.inr covered)
    refine ⟨?_, ?_, ?_⟩
    · rw [root _ (by simp [kind, Kind.isGroup]), slice?_eq_iff_count (by decide) (owned _),
        Node.count_marksAll]
      intro n _
      simp [Node.count_marks_opener]
    · rw [root _ (by simp [kind]), slice?_eq_iff_count (by decide) (owned _),
        Node.count_marksAll]
      intro n mem
      have filled := (occurs_build n mem).laid.filled
      have room : 0 < n.position.stop := Nat.add_pos_right _ filled
      simp [Node.count_marks_closer n i room]
    · rw [root _ (by simp [kind]), slice?_eq_iff_count (by decide) (owned _),
        Node.count_marksAll]
      intro n _
      simp [Node.count_marks_separator]
  · intro free c bracket here
    have stops : Context.inside.stops c = true := Context.stops_inside_iff.mpr (.inr bracket)
    have mark := (Text.slice?_eq_mark_iff stops).mp here
    refine (owned_or_literal (stretch .outside text) rfl {} _ mark).resolve_left ?_
    intro owned
    obtain marker | covered := Node.owned_iff.mp owned
    · obtain rfl : c = '$' := marker
      revert bracket
      decide
    · obtain ⟨g, outermost, inside⟩ := Node.covers_iff.mp covered
      exact free g outermost inside

theorem owners_build_nested :
    (∃ g, (build "é;$f[a;[]]]".toList).Outermost g ∧ g.position.offset ≤ 9 ∧
      9 < g.position.stop ∧ (build "é;$f[a;[]]]".toList).walk.countP
        (fun n => n.kind = .group true ∧ n.position.stop = 10) = 1) ∧
    ∃ n ∈ (build "é;$f[a;[]]]".toList).children,
      n.kind = .literal ∧ n.position.offset ≤ 11 ∧ 11 < n.position.stop := by
  let text := "é;$f[a;[]]]".toList
  let d := (build text).children.get ⟨1, by decide +kernel⟩
  have mem : d ∈ (build text).children := List.get_mem _ _
  let g := (build text).walk.get ⟨3, by decide +kernel⟩
  have outermost : (build text).Outermost g := ⟨d, mem, by decide +kernel⟩
  have start : g.position.offset ≤ 9 := by decide +kernel
  have stop : 9 < g.position.stop := by decide +kernel
  constructor
  · have inside := (owners_build text 9).2.1 g outermost start stop
    exact ⟨g, outermost, start, stop, inside.2.1.mp (by decide +kernel)⟩
  · refine (owners_build text 11).2.2 ?_ ']' (by simp) (by decide +kernel)
    intro g outermost inside
    have covered := Node.covers_iff.mpr ⟨g, outermost, inside⟩
    revert covered
    decide +kernel

end InlineScript
