import InlineScript.Proofs.Printing

/-! Where the nodes of a tree lie in its text. Every node is one of five kinds of thing that
occur in the text as they would in no slice of it: what bounds a slice ends with it whatever
the whole text has there. Siblings follow each other without a gap, a directive taking its
group along, and the children of a group fill it between its brackets. A node begins before
its children and ends no earlier, so offsets increase along the walk. -/

namespace InlineScript

/-- What may follow a slice in which siblings are read: nothing at the top, and in a group
what its brackets allow. -/
def Context.Bounds : Context → Text → Text → Prop
  | .outside, _, after => after = []
  | .inside, slice, after => Enclosed slice after

namespace Context.Bounds

variable {ctx : Context} {run name rest after : Text} {g : Group}

theorem skip (plain : ∀ c ∈ run, ctx.stops c = false) (h : ctx.Bounds (run ++ rest) after) :
    ctx.Bounds rest after := by
  cases ctx with
  | outside => exact h
  | inside => exact Enclosed.skip (bracketless_of_plain plain) h

theorem skip_named (named : ∀ c ∈ name, isNameChar c = true)
    (h : ctx.Bounds ('$' :: (name ++ rest)) after) : ctx.Bounds rest after := by
  cases ctx with
  | outside => exact h
  | inside => exact Enclosed.skip (bracketless_of_named named) h

theorem leave (fits : g.Fits rest) (h : ctx.Bounds (g.content ++ rest) after) :
    ctx.Bounds rest after := by
  cases ctx with
  | outside => exact h
  | inside => exact Enclosed.leave fits h

theorem closed_or (fits : g.Fits rest) (h : ctx.Bounds (g.content ++ rest) after) :
    g.closed = true ∨ rest ++ after = [] := by
  cases ctx with
  | outside =>
    have nothing : after = [] := h
    simpa [nothing] using fits.closed_or
  | inside => exact Enclosed.closed_or fits h

theorem forall_head? {P : Char → Prop} (h : ctx.Bounds rest after)
    (first : ∀ c ∈ rest.head?, P c) (closer : ctx = .inside → P ']') :
    ∀ c ∈ (rest ++ after).head?, P c := by
  cases ctx with
  | outside =>
    have nothing : after = [] := h
    simpa [nothing] using first
  | inside => exact Enclosed.forall_head? h first (closer rfl)

end Context.Bounds

theorem Group.Fits.append {g : Group} {rest after : Text} (fits : g.Fits rest)
    (limit : g.closed = true ∨ rest ++ after = []) : g.Fits (rest ++ after) := by
  cases fits with
  | closed balanced => exact .closed balanced _
  | unclosed nests =>
    rw [limit.resolve_left (by simp)]
    exact .unclosed nests

namespace Node

/-- The nodes that a text can have, each with what stands around it in the text. -/
inductive Occurs (text : Text) : Node → Prop
  | literal {ctx : Context} {before run after : Text} (whole : before ++ (run ++ after) = text)
      (filled : run ≠ []) (plain : ∀ c ∈ run, ctx.stops c = false)
      (stopped : ∀ c ∈ after.head?, ctx.stops c = true) :
      Occurs text (leaf .literal run ((Cursor.advance {} before).span run))
  | separator {before after : Text} (whole : before ++ (';' :: after) = text) :
      Occurs text (leaf .separator [';'] ((Cursor.advance {} before).span [';']))
  | directive {before name after : Text} (whole : before ++ ('$' :: (name ++ after)) = text)
      (named : ∀ c ∈ name, isNameChar c = true)
      (stopped : ∀ c ∈ after.head?, isNameChar c = false) (bare : ∀ c ∈ after.head?, c ≠ '[') :
      Occurs text (leaf .directive ('$' :: name) ((Cursor.advance {} before).span ('$' :: name)))
  | call {before name after : Text} {g : Group}
      (whole : before ++ ('$' :: (name ++ (g.content ++ after))) = text)
      (named : ∀ c ∈ name, isNameChar c = true) (fits : g.Fits after) {children : List Node} :
      Occurs text ⟨.directive, '$' :: name, (Cursor.advance {} before).span ('$' :: name),
        [g.node (Cursor.advance {} (before ++ '$' :: name)) children]⟩
  | group {before after : Text} {g : Group} (whole : before ++ (g.content ++ after) = text)
      (fits : g.Fits after) :
      Occurs text (g.node (Cursor.advance {} before)
        (sequence .inside g.inner (Group.enter (Cursor.advance {} before))).nodes)

end Node

theorem occurs_sequence {ctx : Context} {slice : Text} (pieces : Stretch ctx slice)
    {text before after : Text} (bounds : ctx.Bounds slice after)
    (whole : before ++ (slice ++ after) = text) :
    ∀ n ∈ Node.walkAll (sequence ctx slice (Cursor.advance {} before)).nodes, n.Occurs text := by
  induction pieces generalizing before after with
  | nil => simp
  | @literal ctx run rest filled plain stopped _ ih =>
    have more := bounds.skip plain
    rw [sequence_literal _ filled plain stopped, Draft.walkAll_leaf, List.forall_mem_cons,
      Cursor.advance_advance]
    rw [List.append_assoc] at whole
    refine ⟨.literal whole filled plain (more.forall_head? stopped ?_), ?_⟩
    · rintro rfl
      rfl
    · exact ih more (by simpa using whole)
  | @separator rest _ ih =>
    have more : Context.inside.Bounds rest after := Enclosed.skip bracketless_separator bounds
    rw [sequence_separator, Draft.walkAll_leaf, List.forall_mem_cons, Cursor.advance_advance]
    exact ⟨.separator whole, ih more (by simpa using whole)⟩
  | closer => exact absurd bounds Enclosed.not_closer
  | @directive ctx name rest named stopped bare _ ih =>
    have more := bounds.skip_named named
    rw [sequence_name _ named stopped bare, Draft.walkAll_leaf, List.forall_mem_cons,
      Cursor.advance_advance]
    simp only [List.cons_append, List.append_assoc] at whole
    refine ⟨.directive whole named (more.forall_head? stopped fun _ => by decide)
      (more.forall_head? bare fun _ => by decide), ?_⟩
    exact ih more (by simpa using whole)
  | @call ctx name rest g named fits _ _ ihInner ih =>
    have called := bounds.skip_named named
    have limit := called.closed_or fits
    have fits' := fits.append limit
    rw [sequence_call _ named fits, Draft.walkAll_directive, List.forall_mem_cons,
      List.forall_mem_cons, List.forall_mem_append, Group.enter]
    simp only [List.cons_append, List.append_assoc] at whole
    simp only [Cursor.advance_advance]
    refine ⟨.call whole named fits', ?_, ?_, ?_⟩
    · have behind : (before ++ '$' :: name) ++ (g.content ++ (rest ++ after)) = text := by
        simpa using whole
      have group := Node.Occurs.group behind fits'
      rwa [Group.enter, Cursor.advance_advance] at group
    · exact ihInner (Enclosed.enter fits limit) (by simpa [Group.content_eq] using whole)
    · exact ih (called.leave fits) (by simpa using whole)
  | @group rest g fits _ _ ihInner ih =>
    have limit := bounds.closed_or fits
    rw [sequence_bracket _ fits, Draft.walkAll_group, List.forall_mem_cons,
      List.forall_mem_append]
    rw [List.append_assoc] at whole
    refine ⟨.group whole (fits.append limit), ?_, ?_⟩
    · rw [Group.enter, Cursor.advance_advance]
      exact ihInner (Enclosed.enter fits limit) (by simpa [Group.content_eq] using whole)
    · rw [Cursor.advance_advance]
      exact ih (bounds.leave fits) (by simpa using whole)

theorem occurs_build {text : Text} : ∀ n ∈ Node.walkAll (build text).children, n.Occurs text :=
  @occurs_sequence _ _ (stretch .outside text) text [] [] rfl (by simp)

theorem occurs_of_mem_walk {text : Text} {n : Node} (mem : n ∈ (build text).walk)
    (below : n.kind ≠ .program) : n.Occurs text := by
  rw [Node.walk_eq, List.mem_cons] at mem
  obtain rfl | mem := mem
  · exact absurd rfl below
  · exact occurs_build n mem

theorem Cursor.offset_advance (before : Text) : (Cursor.advance {} before).offset = before.size :=
  Nat.zero_add _

theorem Node.Occurs.exists_group {text : Text} {n : Node} (h : n.Occurs text)
    (group : n.kind.isGroup = true) :
    ∃ (before after : Text) (g : Group), before ++ (g.content ++ after) = text ∧
      n.position.offset = before.size ∧ g.Fits after ∧
      n = g.node (Cursor.advance {} before)
        (sequence .inside g.inner (Group.enter (Cursor.advance {} before))).nodes := by
  cases h with
  | literal => simp [leaf, Kind.isGroup] at group
  | separator => simp [leaf, Kind.isGroup] at group
  | directive => simp [leaf, Kind.isGroup] at group
  | call => simp [Kind.isGroup] at group
  | group whole fits => exact ⟨_, _, _, whole, Cursor.offset_advance _, fits, rfl⟩

theorem Node.Occurs.exists_directive {text : Text} {n : Node} (h : n.Occurs text)
    (kind : n.kind = .directive) :
    ∃ before name rest : Text, before ++ ('$' :: (name ++ rest)) = text ∧
      n.position.offset = before.size ∧ (∀ c ∈ name, isNameChar c = true) ∧
      ((n = leaf .directive ('$' :: name) ((Cursor.advance {} before).span ('$' :: name)) ∧
          (∀ c ∈ rest.head?, isNameChar c = false) ∧ ∀ c ∈ rest.head?, c ≠ '[') ∨
        ∃ (g : Group) (after : Text) (children : List Node), rest = g.content ++ after ∧
          g.Fits after ∧
          n = ⟨.directive, '$' :: name, (Cursor.advance {} before).span ('$' :: name),
            [g.node (Cursor.advance {} (before ++ '$' :: name)) children]⟩) := by
  cases h with
  | literal => simp [leaf] at kind
  | separator => simp [leaf] at kind
  | group => simp [Group.node] at kind
  | directive whole named stopped bare =>
    exact ⟨_, _, _, whole, Cursor.offset_advance _, named, .inl ⟨rfl, stopped, bare⟩⟩
  | call whole named fits =>
    exact ⟨_, _, _, whole, Cursor.offset_advance _, named, .inr ⟨_, _, _, rfl, fits, rfl⟩⟩

def Increasing (stop : Nat) : Nat → List Nat → Prop
  | start, [] => start ≤ stop
  | start, i :: is => start ≤ i ∧ Increasing stop (i + 1) is

namespace Increasing

variable {start mid stop i : Nat} {is js : List Nat}

theorem from_le (h : Increasing stop mid is) (le : start ≤ mid) : Increasing stop start is := by
  cases is with
  | nil => exact Nat.le_trans le h
  | cons i is => exact ⟨Nat.le_trans le h.1, h.2⟩

theorem append (h : Increasing mid start is) (more : Increasing stop mid js) :
    Increasing stop start (is ++ js) := by
  induction is generalizing start with
  | nil => exact more.from_le h
  | cons i is ih => exact ⟨h.1, ih h.2⟩

theorem bounds (h : Increasing stop start is) : ∀ i ∈ is, start ≤ i ∧ i < stop := by
  induction is generalizing start with
  | nil => simp
  | cons i is ih =>
    have others := ih h.2
    have here : i + 1 ≤ stop := by
      cases is with
      | nil => exact h.2
      | cons j js =>
        have next := others j List.mem_cons_self
        omega
    rw [List.forall_mem_cons]
    refine ⟨⟨h.1, here⟩, ?_⟩
    intro j mem
    have first := h.1
    have later := others j mem
    omega

theorem pairwise (h : Increasing stop start is) : is.Pairwise (· < ·) := by
  induction is generalizing start with
  | nil => exact .nil
  | cons i is ih => exact .cons (fun j mem => (bounds h.2 j mem).1) (ih h.2)

theorem length_le (h : Increasing stop start is) : start + is.length ≤ stop := by
  induction is generalizing start with
  | nil => exact h
  | cons i is ih =>
    have first := h.1
    have others := ih h.2
    rw [List.length_cons]
    omega

end Increasing

namespace Node

/-- Siblings whose extents follow each other without a gap, from `start` up to `stop`. -/
def Tile (stop : Nat) : Nat → List Node → Prop
  | start, [] => start = stop
  | start, n :: ns => n.position.offset = start ∧ Tile stop n.stop ns

def offsets (ns : List Node) : List Nat := ns.map fun n => n.position.offset

/-- A node that takes up room, with a directive's group right behind its name and the
children of a group between its brackets. -/
structure Laid (n : Node) : Prop where
  filled : 0 < n.position.length
  behind : ∀ g, n.argument? = some g → g.position.offset = n.position.stop
  within : ∀ closed, n.kind = .group closed → ∃ stop, Tile stop (n.position.offset + 1) n.children ∧
    n.position.stop = stop + if closed then 1 else 0

end Node

namespace Draft

variable {k : Cursor} {kind : Kind} {content : Text} {g : Group} {inner rest : Draft} {stop : Nat}

theorem tile_leaf (h : Node.Tile stop (k.advance content).offset rest.nodes) :
    Node.Tile stop k.offset (leaf k kind content rest).nodes := by
  refine ⟨rfl, ?_⟩
  rwa [Node.stop_leaf, Cursor.span_stop]

theorem tile_group (h : Node.Tile stop (k.advance g.content).offset rest.nodes) :
    Node.Tile stop k.offset (group k g inner rest).nodes :=
  ⟨rfl, h⟩

theorem tile_directive
    (h : Node.Tile stop ((k.advance content).advance g.content).offset rest.nodes) :
    Node.Tile stop k.offset (directive k content g inner rest).nodes :=
  ⟨rfl, h⟩

theorem increasing_leaf (filled : content ≠ [])
    (h : Increasing stop (k.advance content).offset (Node.offsets (Node.walkAll rest.nodes))) :
    Increasing stop k.offset (Node.offsets (Node.walkAll (leaf k kind content rest).nodes)) := by
  have room := Text.size_pos filled
  rw [walkAll_leaf]
  exact ⟨Nat.le_refl _, h.from_le (Nat.add_le_add_left room k.offset)⟩

theorem increasing_inner {is js : List Nat}
    (inside : Increasing ((Group.enter k).advance g.inner).offset (Group.enter k).offset is)
    (h : Increasing stop (k.advance g.content).offset js) :
    Increasing stop (k.offset + 1) (is ++ js) := by
  refine inside.append (h.from_le ?_)
  rw [Group.content_eq, Group.enter, Cursor.advance_advance]
  simp [Cursor.advance]

theorem increasing_group
    (inside : Increasing ((Group.enter k).advance g.inner).offset (Group.enter k).offset
      (Node.offsets (Node.walkAll inner.nodes)))
    (h : Increasing stop (k.advance g.content).offset (Node.offsets (Node.walkAll rest.nodes))) :
    Increasing stop k.offset (Node.offsets (Node.walkAll (group k g inner rest).nodes)) := by
  rw [walkAll_group, Node.offsets, List.map_cons, List.map_append]
  exact ⟨Nat.le_refl _, increasing_inner inside h⟩

theorem increasing_directive (filled : content ≠ [])
    (inside : Increasing ((Group.enter (k.advance content)).advance g.inner).offset
      (Group.enter (k.advance content)).offset (Node.offsets (Node.walkAll inner.nodes)))
    (h : Increasing stop ((k.advance content).advance g.content).offset
      (Node.offsets (Node.walkAll rest.nodes))) :
    Increasing stop k.offset
      (Node.offsets (Node.walkAll (directive k content g inner rest).nodes)) := by
  have room := Text.size_pos filled
  rw [walkAll_directive, Node.offsets, List.map_cons, List.map_cons, List.map_append]
  exact ⟨Nat.le_refl _, Nat.add_le_add_left room k.offset, increasing_inner inside h⟩

end Draft

theorem tile_sequence (ctx : Context) (slice : Text) (k : Cursor) :
    Node.Tile (k.advance slice).offset k.offset (sequence ctx slice k).nodes := by
  induction ctx, slice, k using sequence_induct with
  | nil ctx k => simp [Node.Tile]
  | leaf ctx kind content rest k filled read ih =>
    rw [read, ← Cursor.advance_advance]
    exact Draft.tile_leaf ih
  | group g rest k fits read inside ih =>
    rw [read, ← Cursor.advance_advance]
    exact Draft.tile_group ih
  | call ctx content g rest k filled fits read inside ih =>
    rw [read, ← Cursor.advance_advance, ← Cursor.advance_advance]
    exact Draft.tile_directive ih

theorem increasing_sequence (ctx : Context) (slice : Text) (k : Cursor) :
    Increasing (k.advance slice).offset k.offset
      (Node.offsets (Node.walkAll (sequence ctx slice k).nodes)) := by
  induction ctx, slice, k using sequence_induct with
  | nil ctx k => simp [Node.offsets, Increasing]
  | leaf ctx kind content rest k filled read ih =>
    rw [read, ← Cursor.advance_advance]
    exact Draft.increasing_leaf filled ih
  | group g rest k fits read inside ih =>
    rw [read, ← Cursor.advance_advance]
    exact Draft.increasing_group inside ih
  | call ctx content g rest k filled fits read inside ih =>
    rw [read, ← Cursor.advance_advance, ← Cursor.advance_advance]
    exact Draft.increasing_directive filled inside ih

theorem Group.tile_inner {g : Group} {rest : Text} (fits : g.Fits rest) (k : Cursor) :
    ∃ stop, Node.Tile stop (k.offset + 1) (sequence .inside g.inner (enter k)).nodes ∧
      k.offset + g.content.size = stop + if g.closed then 1 else 0 := by
  refine ⟨_, tile_sequence .inside g.inner (enter k), ?_⟩
  have closing : g.closing.size = if g.closed then 1 else 0 := by
    by_cases closed : g.closed = true
    · rw [closing_of_fits fits closed, if_pos closed]
      rfl
    · rw [closing_of_unclosed (by simpa using closed), if_neg closed]
      rfl
  rw [content_eq, Text.size_cons, Text.size_append, closing, enter, Cursor.advance_advance]
  simp [Cursor.advance, Nat.add_assoc]

theorem Node.Occurs.laid {text : Text} {n : Node} (h : n.Occurs text) : n.Laid := by
  cases h with
  | literal whole filled =>
    refine ⟨Text.size_pos filled, ?_, ?_⟩
    · simp [argument?, leaf]
    · simp [leaf]
  | separator =>
    refine ⟨Text.size_pos (by simp), ?_, ?_⟩
    · simp [argument?, leaf]
    · simp [leaf]
  | directive =>
    refine ⟨Text.size_pos (by simp), ?_, ?_⟩
    · simp [argument?, leaf]
    · simp [leaf]
  | @call before name after g =>
    refine ⟨Text.size_pos (by simp), ?_, by simp⟩
    intro n argument
    obtain rfl : g.node _ _ = n := by
      simpa [argument?, Group.node, Kind.isGroup] using argument
    rw [← Cursor.advance_advance]
    rfl
  | group whole fits =>
    refine ⟨Text.size_pos (by simp [Group.content]), ?_, ?_⟩
    · simp [argument?, Group.node]
    · intro closed kind
      obtain rfl : Group.closed _ = closed := by simpa [Group.node] using kind
      exact Group.tile_inner fits _

theorem increasing_build (text : Text) :
    Increasing text.size 0 (Node.offsets (Node.walkAll (build text).children)) := by
  have increasing := increasing_sequence .outside text {}
  rwa [show (Cursor.advance {} text).offset = text.size from Nat.zero_add _] at increasing

/-- The tree of a text tiles it, at the top and inside every group. Every node but the root
takes up room, so the walk passes offsets that increase and there are not many nodes. -/
theorem tile_build (text : Text) :
    Node.Tile text.size 0 (build text).children ∧
      (∀ n ∈ Node.walkAll (build text).children, n.Laid) ∧
      (Node.offsets (Node.walkAll (build text).children)).Pairwise (· < ·) ∧
      (build text).walk.length ≤ text.size + 1 := by
  have tile := tile_sequence .outside text {}
  rw [show (Cursor.advance {} text).offset = text.size from Nat.zero_add _] at tile
  have increasing := increasing_build text
  refine ⟨tile, fun n mem => (occurs_build n mem).laid, increasing.pairwise, ?_⟩
  have few := increasing.length_le
  rw [Node.offsets, List.length_map] at few
  rw [Node.walk_eq, List.length_cons]
  omega

theorem tile_build_unclosed :
    ∃ n ∈ Node.walkAll (build "é$f[é;[x]".toList).children,
      n.kind = .group false ∧ n.children.length = 3 ∧ n.Laid := by
  let n := (Node.walkAll (build "é$f[é;[x]".toList).children).get ⟨2, by decide +kernel⟩
  have mem : n ∈ Node.walkAll (build "é$f[é;[x]".toList).children := List.get_mem _ _
  exact ⟨n, mem, by decide +kernel, by decide +kernel, (tile_build _).2.1 n mem⟩

/-- A node's content is what the text has at its position, and the line of a position is that
of the place it begins at, however many groups have ended or been opened before. -/
theorem position_build (text : Text) :
    ∀ n ∈ Node.walkAll (build text).children,
      text.slice? n.position.offset n.position.stop = some n.content ∧
        n.position.length = n.content.size ∧ n.position.newlines = n.content.newlines ∧
        n.position.line = 1 + (text.cut n.position.offset).1.newlines := by
  intro n mem
  obtain ⟨before, s, after, rfl, -, ⟨more, rfl⟩, position, -⟩ := stands_build n mem
  have offset : n.position.offset = before.size := by
    rw [position]
    exact Nat.zero_add _
  have stop : n.position.stop = before.size + n.content.size := by
    rw [position, Cursor.span_stop, Cursor.advance_advance]
    simp [Cursor.advance]
  refine ⟨?_, ?_, ?_, ?_⟩
  · rw [offset, stop, List.append_assoc]
    exact Text.slice?_append before n.content (more ++ after)
  · rw [position]
    rfl
  · rw [position]
    rfl
  · rw [offset, Text.cut_size_append, position]
    rfl

theorem position_build_behind_groups :
    ∃ n ∈ Node.walkAll (build "$f[é\n;\n]\n$g[\n[\nx".toList).children,
      n.kind = .literal ∧ n.content = "\nx".toList ∧
        Text.slice? n.position.offset n.position.stop "$f[é\n;\n]\n$g[\n[\nx".toList =
          some n.content ∧
        n.position.line = 1 +
          (Text.cut n.position.offset "$f[é\n;\n]\n$g[\n[\nx".toList).1.newlines ∧
        n.position.line = 5 := by
  let text := "$f[é\n;\n]\n$g[\n[\nx".toList
  let n := (Node.walkAll (build text).children).get ⟨10, by decide +kernel⟩
  have mem : n ∈ Node.walkAll (build text).children := List.get_mem _ _
  obtain ⟨slice, -, -, line⟩ := position_build text n mem
  exact ⟨n, mem, by decide +kernel, by decide +kernel, slice, line, by decide +kernel⟩

end InlineScript
