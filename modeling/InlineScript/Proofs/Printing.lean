import InlineScript.Build
import InlineScript.Node.Source
import InlineScript.Proofs.Stretch
import Mathlib.Algebra.Group.Nat.Defs

/-! A tree that was built from a text prints that text, and each of its nodes prints
the part of the text that it covers. A group prints its brackets from its content
and what lies between them from its children, so the siblings of a slice come first:
together they print the slice. -/

namespace InlineScript

namespace Text

/-- The part of a text between two byte offsets, if both lie between characters. -/
def slice? (start stop : Nat) (t : Text) : Option Text :=
  let (before, rest) := t.cut start
  let (inside, _) := rest.cut (stop - start)
  if before.size = start ∧ start + inside.size = stop then some inside else none

theorem slice?_append (before s after : Text) :
    slice? before.size (before.size + s.size) (before ++ (s ++ after)) = some s := by
  simp [slice?, cut_size_append]

theorem slice?_eq_some_iff {start stop : Nat} {t s : Text} :
    slice? start stop t = some s ↔
      ∃ before after, t = before ++ (s ++ after) ∧ before.size = start ∧
        start + s.size = stop := by
  constructor
  · intro h
    have first := cut_append start t
    have second := cut_append (stop - start) (t.cut start).2
    simp only [slice?] at h
    split at h
    · next bounds =>
      rw [Option.some.inj h] at second bounds
      refine ⟨(t.cut start).1, ((t.cut start).2.cut (stop - start)).2, ?_, bounds⟩
      rw [second, first]
    · simp at h
  · intro h
    obtain ⟨before, after, rfl, rfl, rfl⟩ := h
    exact slice?_append before s after

end Text

namespace Node

/-- Where the extent of a node ends: that of a directive takes in its group. -/
def stop (n : Node) : Nat :=
  match n.argument? with
  | some g => g.position.stop
  | none => n.position.stop

theorem sourceAll?_of_source? {n : Node} {ns : List Node} {s t : Text}
    (first : n.source? = some s) (others : sourceAll? ns = some t) :
    sourceAll? (n :: ns) = some (s ++ t) := by
  rw [sourceAll?_cons, first, others]
  rfl

theorem source?_leaf {kind : Kind} {content : Text}
    (own : margins? kind content = some (content, [])) (position : Position) :
    (leaf kind content position).source? = some content := by
  rw [source?_eq]
  simp [leaf, own]

theorem source?_called {content s : Text} {group : Node} (h : group.source? = some s)
    (position : Position) :
    (Node.mk .directive content position [group]).source? = some (content ++ s) := by
  rw [source?_eq]
  simp [margins?, sourceAll?_cons, h]

@[simp] theorem stop_leaf (kind : Kind) (content : Text) (position : Position) :
    (leaf kind content position).stop = position.stop := by
  by_cases directive : kind = .directive <;> simp [stop, argument?, leaf, directive]

end Node

namespace Group

variable {g : Group} {rest : Text} {children : List Node}

theorem margins?_content (fits : g.Fits rest) :
    Node.margins? (.group g.closed) g.content = some (['['], g.closing) := by
  cases fits with
  | @closed inside balanced =>
    have closing : Text.lastByte? ('[' :: (inside ++ [']'])) = some [']'] := by
      rw [← List.cons_append, Text.lastByte?, List.getLast?_concat]
      rfl
    simp only [Node.margins?, content, closing]
    simp [Text.firstByte?, Group.closing]
    rfl
  | @unclosed inside nests =>
    simp only [Node.margins?, content]
    simp [Text.firstByte?, closing]
    rfl

theorem source?_group (fits : g.Fits rest) (inner : Node.sourceAll? children = some g.inner)
    (position : Position) :
    (Node.mk (.group g.closed) g.content position children).source? = some g.content := by
  rw [Node.source?_eq]
  simp only
  rw [margins?_content fits, inner, content_eq]
  rfl

theorem source?_node (fits : g.Fits rest) (inner : Node.sourceAll? children = some g.inner)
    (k : Cursor) : (g.node k children).source? = some g.content :=
  source?_group fits inner _

@[simp] theorem stop_node (g : Group) (k : Cursor) (children : List Node) :
    (g.node k children).stop = k.offset + g.content.size := rfl

end Group

namespace Draft

variable {content t : Text} {rest : Draft}

theorem sourceAll?_leaf {kind : Kind} (own : Node.margins? kind content = some (content, []))
    (h : Node.sourceAll? rest.nodes = some t) (k : Cursor) :
    Node.sourceAll? (leaf k kind content rest).nodes = some (content ++ t) :=
  Node.sourceAll?_of_source? (Node.source?_leaf own _) h

variable {g : Group} {after : Text} {inner : Draft}

theorem sourceAll?_group (fits : g.Fits after) (inside : Node.sourceAll? inner.nodes = some g.inner)
    (h : Node.sourceAll? rest.nodes = some t) (k : Cursor) :
    Node.sourceAll? (group k g inner rest).nodes = some (g.content ++ t) :=
  Node.sourceAll?_of_source? (Group.source?_node fits inside _) h

theorem sourceAll?_directive (fits : g.Fits after)
    (inside : Node.sourceAll? inner.nodes = some g.inner)
    (h : Node.sourceAll? rest.nodes = some t) (k : Cursor) (content : Text) :
    Node.sourceAll? (directive k content g inner rest).nodes =
      some (content ++ (g.content ++ t)) := by
  have called := Group.source?_node fits inside (k.advance content)
  rw [← List.append_assoc]
  exact Node.sourceAll?_of_source? (Node.source?_called called _) h

end Draft

theorem sourceAll?_sequence (ctx : Context) (slice : Text) (k : Cursor) :
    Node.sourceAll? (sequence ctx slice k).nodes = some slice := by
  induction stretch ctx slice generalizing k with
  | nil => simp
  | literal filled plain stopped _ ih =>
    rw [sequence_literal k filled plain stopped]
    exact Draft.sourceAll?_leaf rfl (ih _) k
  | separator _ ih =>
    rw [sequence_separator]
    exact Draft.sourceAll?_leaf rfl (ih _) k
  | closer _ ih =>
    rw [sequence_closer]
    exact Draft.sourceAll?_leaf rfl (ih _) k
  | directive named stopped bare _ ih =>
    rw [sequence_name k named stopped bare]
    exact Draft.sourceAll?_leaf rfl (ih _) k
  | call named fits _ _ ihInner ih =>
    rw [sequence_call k named fits]
    exact Draft.sourceAll?_directive fits (ihInner _) (ih _) k _
  | group fits _ _ ihInner ih =>
    rw [sequence_bracket k fits]
    exact Draft.sourceAll?_group fits (ihInner _) (ih _) k

/-- A node that prints the part of a text which its extent covers, at the place
where its position says. -/
def Node.Stands (text : Text) (n : Node) : Prop :=
  ∃ before s after, before ++ (s ++ after) = text ∧ n.source? = some s ∧ n.content <+: s ∧
    n.position = (Cursor.advance {} before).span n.content ∧ n.stop = before.size + s.size

section
variable {text before after content : Text}

theorem Node.stands_leaf {kind : Kind} (own : margins? kind content = some (content, []))
    (whole : before ++ (content ++ after) = text) :
    (leaf kind content ((Cursor.advance {} before).span content)).Stands text := by
  refine ⟨before, content, after, whole, source?_leaf own _, List.prefix_rfl, rfl, ?_⟩
  simp [Cursor.span, Position.of, Position.stop, Cursor.advance]

variable {g : Group} {rest : Text} {children : List Node}

theorem Group.stands_node (fits : g.Fits rest) (inner : Node.sourceAll? children = some g.inner)
    (whole : before ++ (g.content ++ after) = text) :
    (g.node (Cursor.advance {} before) children).Stands text := by
  refine ⟨before, g.content, after, whole, source?_node fits inner _, List.prefix_rfl, rfl, ?_⟩
  simp [Cursor.advance]

theorem Group.stands_called (fits : g.Fits rest) (inner : Node.sourceAll? children = some g.inner)
    (whole : before ++ (content ++ (g.content ++ after)) = text) :
    (Node.mk .directive content ((Cursor.advance {} before).span content)
      [g.node ((Cursor.advance {} before).advance content) children]).Stands text := by
  refine ⟨before, content ++ g.content, after, by simpa using whole,
    Node.source?_called (source?_node fits inner _) _, List.prefix_append _ _, rfl, ?_⟩
  simp [Node.stop, Node.argument?, node, Kind.isGroup, Cursor.span, Position.of, Position.stop,
    Cursor.advance, Nat.add_assoc]

theorem stands_sequence (ctx : Context) (slice before after : Text)
    (whole : before ++ (slice ++ after) = text) :
    ∀ n ∈ Node.walkAll (sequence ctx slice (Cursor.advance {} before)).nodes,
      n.Stands text := by
  induction stretch ctx slice generalizing before after with
  | nil => simp
  | literal filled plain stopped _ ih =>
    rw [sequence_literal _ filled plain stopped, Draft.walkAll_leaf, List.forall_mem_cons,
      Cursor.advance_advance]
    rw [List.append_assoc] at whole
    exact ⟨Node.stands_leaf rfl whole, ih _ _ (by simpa using whole)⟩
  | separator _ ih =>
    rw [sequence_separator, Draft.walkAll_leaf, List.forall_mem_cons, Cursor.advance_advance]
    exact ⟨Node.stands_leaf rfl whole, ih _ _ (by simpa using whole)⟩
  | closer _ ih =>
    rw [sequence_closer, Draft.walkAll_leaf, List.forall_mem_cons, Cursor.advance_advance]
    exact ⟨Node.stands_leaf rfl whole, ih _ _ (by simpa using whole)⟩
  | directive named stopped bare _ ih =>
    rw [sequence_name _ named stopped bare, Draft.walkAll_leaf, List.forall_mem_cons,
      Cursor.advance_advance]
    rw [← List.cons_append, List.append_assoc] at whole
    exact ⟨Node.stands_leaf rfl whole, ih _ _ (by simpa using whole)⟩
  | @call ctx name rest g named fits _ _ ihInner ih =>
    have inner := sourceAll?_sequence .inside g.inner
    rw [sequence_call _ named fits, Draft.walkAll_directive, List.forall_mem_cons,
      List.forall_mem_cons, List.forall_mem_append, Group.enter]
    rw [← List.cons_append, List.append_assoc, List.append_assoc] at whole
    refine ⟨Group.stands_called fits (inner _) whole, ?_, ?_, ?_⟩
    · rw [Cursor.advance_advance]
      exact Group.stands_node fits (inner _) (by simpa using whole)
    · rw [Cursor.advance_advance, Cursor.advance_advance]
      exact ihInner _ (g.closing ++ (rest ++ after))
        (by simpa [Group.content_eq] using whole)
    · rw [Cursor.advance_advance, Cursor.advance_advance]
      exact ih _ _ (by simpa using whole)
  | @group rest g fits _ _ ihInner ih =>
    have inner := sourceAll?_sequence .inside g.inner
    rw [sequence_bracket _ fits, Draft.walkAll_group, List.forall_mem_cons,
      List.forall_mem_append, Group.enter, Cursor.advance_advance, Cursor.advance_advance]
    rw [List.append_assoc] at whole
    refine ⟨Group.stands_node fits (inner _) whole, ?_, ?_⟩
    · exact ihInner _ (g.closing ++ (rest ++ after))
        (by simpa [Group.content_eq] using whole)
    · exact ih _ _ (by simpa using whole)

end

theorem stands_build {text : Text} : ∀ n ∈ Node.walkAll (build text).children, n.Stands text :=
  stands_sequence .outside text [] [] (by simp)

section
variable {n : Node}

theorem Node.print?_eq_source? (room : n.position.length < 2 ^ 63) : n.print? = n.source? :=
  if_pos (Nat.le_of_lt_succ room)

theorem Node.print?_of_le (many : 2 ^ 63 ≤ n.position.length) : n.print? = none :=
  if_neg (Nat.not_le_of_lt many)

end

/-- A tree that was built asks for the room of its text at most, as does each of its nodes. -/
theorem print?_of_mem_build {text : Text} (fits : text.size < 2 ^ 63) :
    ∀ n ∈ (build text).walk, n.print? = n.source? := by
  rw [Node.walk_eq, List.forall_mem_cons]
  constructor
  · exact Node.print?_eq_source? fits
  · intro n mem
    obtain ⟨before, s, after, rfl, -, ⟨more, rfl⟩, position, -⟩ := stands_build n mem
    refine Node.print?_eq_source? (lt_of_le_of_lt ?_ fits)
    rw [position, Cursor.span, Position.of, Text.size_append, Text.size_append, Text.size_append]
    simp only
    omega

/-- Building and printing give the text back, for the tree and for each of its nodes. -/
theorem source?_build (text : Text) :
    (build text).source? = some text ∧
      ∀ n ∈ (build text).walk, ∃ s, n.source? = some s ∧
        text.slice? n.position.offset n.stop = some s := by
  have root : (build text).source? = some text := by
    rw [build_eq, Node.source?_eq]
    simp [program, Node.margins?, sourceAll?_sequence]
  refine ⟨root, ?_⟩
  rw [Node.walk_eq, List.forall_mem_cons]
  constructor
  · refine ⟨text, root, ?_⟩
    have whole := Text.slice?_append [] text []
    simpa [build_eq, program, Node.stop, Node.argument?, Cursor.span, Position.of, Position.stop]
      using whole
  · intro n mem
    obtain ⟨before, s, after, rfl, source, -, position, stop⟩ := stands_build n mem
    refine ⟨s, source, ?_⟩
    rw [position, stop]
    simpa [Cursor.span, Position.of, Cursor.advance] using Text.slice?_append before s after

theorem source?_build_unclosed :
    ∃ n ∈ (build "é$f[é;[x]".toList).walk, n.kind = .directive ∧ n.stop = 11 ∧
      ∃ s, n.source? = some s ∧
        Text.slice? n.position.offset n.stop "é$f[é;[x]".toList = some s := by
  let n := (build "é$f[é;[x]".toList).walk.get ⟨2, by decide +kernel⟩
  have mem : n ∈ (build "é$f[é;[x]".toList).walk := List.get_mem _ _
  exact ⟨n, mem, by decide +kernel, by decide +kernel, (source?_build _).2 n mem⟩

end InlineScript
