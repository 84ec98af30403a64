import InlineScript.Proofs.Printing

/-! Trees that come back when what they print is built again. Siblings print next to
each other without a gap, so a sibling must not begin with what the one before it would
take in: a literal goes on until something stops it, a name until it ends, and a name
takes the group behind it. An unclosed group takes in all there is, so nothing may be
printed behind it, not even the closing bracket of a group around it. -/

namespace InlineScript

def Group.around (inner : Text) (closed : Bool) : Group :=
  ⟨inner ++ if closed then [']'] else [], closed⟩

namespace Node

mutual

/-- A node without the positions, its own and those below it. -/
def bare : Node → Node
  | ⟨kind, content, _, children⟩ => ⟨kind, content, {}, bareAll children⟩

def bareAll : List Node → List Node
  | [] => []
  | n :: ns => bare n :: bareAll ns

end

def EndsName (n : Node) : Prop :=
  n.kind.isGroup = false ∧
    (n.kind = .literal → ∀ c ∈ n.content.head?, isBlank c = true ∨ c = ']' ∨ c = ';')

/-- Siblings that come back, at the top of a script or in a group; `closes` says that
there is a group around them and that it closes. -/
inductive CanonicalAll : Context → Bool → List Node → Prop
  | nil (ctx : Context) (closes : Bool) : CanonicalAll ctx closes []
  | literal {ctx : Context} {closes : Bool} {run : Text} {position : Position} {ns : List Node}
      (filled : run ≠ []) (plain : ∀ c ∈ run, ctx.stops c = false)
      (apart : ∀ n ∈ ns.head?, n.kind ≠ .literal) (more : CanonicalAll ctx closes ns) :
      CanonicalAll ctx closes (leaf .literal run position :: ns)
  | separator {closes : Bool} {position : Position} {ns : List Node}
      (more : CanonicalAll .inside closes ns) :
      CanonicalAll .inside closes (leaf .separator [';'] position :: ns)
  | directive {ctx : Context} {closes : Bool} {name : Text} {position : Position}
      {ns : List Node} (named : ∀ c ∈ name, isNameChar c = true)
      (apart : ∀ n ∈ ns.head?, n.EndsName) (more : CanonicalAll ctx closes ns) :
      CanonicalAll ctx closes (leaf .directive ('$' :: name) position :: ns)
  | call {ctx : Context} {closes closed : Bool} {name inner : Text} {position place : Position}
      {children ns : List Node} (named : ∀ c ∈ name, isNameChar c = true)
      (printed : sourceAll? children = some inner) (below : CanonicalAll .inside closed children)
      (last : closed = false → closes = false ∧ ns = []) (more : CanonicalAll ctx closes ns) :
      CanonicalAll ctx closes
        (⟨.directive, '$' :: name, position,
          [⟨.group closed, (Group.around inner closed).content, place, children⟩]⟩ :: ns)
  | group {closes closed : Bool} {inner : Text} {position : Position} {children ns : List Node}
      (printed : sourceAll? children = some inner) (below : CanonicalAll .inside closed children)
      (last : closed = false → closes = false ∧ ns = []) (more : CanonicalAll .inside closes ns) :
      CanonicalAll .inside closes
        (⟨.group closed, (Group.around inner closed).content, position, children⟩ :: ns)

/-- The tree of a program that comes back. What its root holds as content is not printed. -/
def Canonical (t : Node) : Prop := t.kind = .program ∧ CanonicalAll .outside false t.children

@[simp] theorem bareAll_nil : bareAll [] = [] := rfl

@[simp] theorem bareAll_cons (n : Node) (ns : List Node) :
    bareAll (n :: ns) = n.bare :: bareAll ns := rfl

theorem bare_mk (kind : Kind) (content : Text) (position : Position) (children : List Node) :
    (mk kind content position children).bare = ⟨kind, content, {}, bareAll children⟩ := rfl

section
variable {ctx : Context} {closes : Bool} {ns : List Node}

def front? (ns : List Node) : Option Char := ns.head?.bind fun n => n.content.head?

theorem ends_name_iff {c : Char} (marker : c ≠ '$') :
    isNameChar c = false ∧ c ≠ '[' ↔ isBlank c = true ∨ c = ']' ∨ c = ';' := by
  have blank : isBlank '[' = false := by decide
  rw [← Bool.not_eq_true, isNameChar_iff]
  by_cases opener : c = '['
  · subst opener
    simp [blank]
  · by_cases white : isBlank c = true
    · simp [white, opener]
    · by_cases closer : c = ']'
      · simp [closer]
      · simp [white, marker, opener, closer]

theorem CanonicalAll.stops_front_iff (h : CanonicalAll ctx closes ns) :
    (∀ c ∈ front? ns, ctx.stops c = true) ↔ ∀ n ∈ ns.head?, n.kind ≠ .literal := by
  cases h with
  | nil => simp [front?]
  | literal filled plain =>
    obtain ⟨c, cs, rfl⟩ := List.exists_cons_of_ne_nil filled
    simp [front?, leaf, plain c List.mem_cons_self]
  | separator => simp [front?, leaf, Context.stops_inside_iff]
  | directive => cases ctx <;> simp [front?, leaf, Context.stops, Role.of]
  | call => cases ctx <;> simp [front?, Context.stops, Role.of]
  | group => simp [front?, Group.content, Context.stops_inside_iff]

theorem CanonicalAll.front_ends_name_iff (h : CanonicalAll ctx closes ns) :
    (∀ c ∈ front? ns, isNameChar c = false ∧ c ≠ '[') ↔ ∀ n ∈ ns.head?, n.EndsName := by
  cases h with
  | nil => simp [front?]
  | literal filled plain =>
    obtain ⟨c, cs, rfl⟩ := List.exists_cons_of_ne_nil filled
    have marker : c ≠ '$' := by
      rintro rfl
      cases ctx <;> exact absurd (plain '$' List.mem_cons_self) (by decide)
    simp only [front?, leaf, EndsName, Kind.isGroup]
    simpa using ends_name_iff marker
  | separator => simp [front?, leaf, EndsName, Kind.isGroup, isNameChar, Context.stops, Role.of]
  | directive => simp [front?, leaf, EndsName, Kind.isGroup, isNameChar, Context.stops, Role.of]
  | call => simp [front?, EndsName, Kind.isGroup, isNameChar, Context.stops, Role.of]
  | group => simp [front?, EndsName, Kind.isGroup, Group.content]

end

end Node

namespace Group

variable {inner rest : Text} {closed closes : Bool}

theorem inner_around (inner : Text) (closed : Bool) : (around inner closed).inner = inner := by
  cases closed <;> simp [around, Group.inner]

theorem fits_around (h : inner.Settles closed) (last : closed = false → rest = []) :
    (around inner closed).Fits rest := by
  obtain ⟨d, depth, none_open⟩ := h
  cases closed with
  | true =>
    rw [none_open rfl] at depth
    exact .closed depth rest
  | false =>
    rw [last rfl, around]
    simpa using Group.Fits.unclosed ⟨d, depth⟩

variable {g : Group}

theorem around_inner (fits : g.Fits rest) : around g.inner g.closed = g := by
  cases fits with
  | closed => simp [around, Group.inner]
  | unclosed => simp [around, Group.inner]

end Group

/-- Building `text` gives the siblings `ns`, which print it. -/
structure Spells (ctx : Context) (closes : Bool) (ns : List Node) (text : Text) : Prop where
  printed : Node.sourceAll? ns = some text
  front : text.head? = Node.front? ns
  settles : ctx = .inside → text.Settles closes
  rebuilt (k : Cursor) : Node.bareAll (sequence ctx text k).nodes = Node.bareAll ns

namespace Spells

variable {ctx : Context} {closes closed : Bool} {children ns : List Node} {inner text rest : Text}

theorem nil_of_nil (h : Spells ctx closes [] text) : text = [] := by
  have printed := h.printed
  rw [Node.sourceAll?_nil] at printed
  exact (Option.some.inj printed).symm

theorem around_fits (below : Spells .inside closed children inner)
    (more : Spells ctx closes ns text) (last : closed = false → closes = false ∧ ns = []) :
    (Group.around inner closed).Fits text := by
  refine Group.fits_around (below.settles rfl) ?_
  intro unclosed
  obtain ⟨-, rfl⟩ := last unclosed
  exact more.nil_of_nil

variable (below : Spells .inside closed children inner)
include below

theorem source?_group (fits : (Group.around inner closed).Fits rest) (position : Position) :
    (Node.mk (.group closed) (Group.around inner closed).content position children).source? =
      some (Group.around inner closed).content := by
  have printed := below.printed
  rw [← Group.inner_around inner closed] at printed
  exact Group.source?_group fits printed position

theorem bare_group (k : Cursor) (position : Position) :
    ((Group.around inner closed).node k
        (sequence .inside (Group.around inner closed).inner (Group.enter k)).nodes).bare =
      (Node.mk (.group closed) (Group.around inner closed).content position children).bare := by
  rw [Group.node, Node.bare_mk, Node.bare_mk, Group.inner_around, below.rebuilt]
  rfl

end Spells

theorem Node.CanonicalAll.spells {ctx : Context} {closes : Bool} {ns : List Node}
    (h : CanonicalAll ctx closes ns) : ∃ text, Spells ctx closes ns text := by
  -- What a group prints inside settles, so the bracket found for it is the one printed for
  -- it; and nothing is printed behind a group that has none.
  induction h with
  | nil ctx closes =>
    exact ⟨[], rfl, rfl, fun _ => Text.settles_nil closes, fun k => by rw [sequence_nil]⟩
  | @literal ctx closes run position ns filled plain apart more ih =>
    obtain ⟨text, spells⟩ := ih
    have stopped := more.stops_front_iff.mpr apart
    rw [← spells.front] at stopped
    refine ⟨run ++ text, sourceAll?_of_source? (source?_leaf rfl _) spells.printed, ?_, ?_, ?_⟩
    · obtain ⟨c, cs, rfl⟩ := List.exists_cons_of_ne_nil filled
      rfl
    · intro inside
      subst inside
      exact (Text.settles_append_iff (bracketless_of_plain plain)).mpr (spells.settles rfl)
    · intro k
      rw [sequence_literal k filled plain stopped]
      exact congrArg (_ :: ·) (spells.rebuilt _)
  | separator _ ih =>
    obtain ⟨text, spells⟩ := ih
    refine ⟨';' :: text, sourceAll?_of_source? (source?_leaf rfl _) spells.printed, rfl, ?_, ?_⟩
    · intro inside
      exact (Text.settles_append_iff bracketless_separator).mpr (spells.settles inside)
    · intro k
      rw [sequence_separator]
      exact congrArg (_ :: ·) (spells.rebuilt _)
  | @directive ctx closes name position ns named apart more ih =>
    obtain ⟨text, spells⟩ := ih
    have ended := more.front_ends_name_iff.mpr apart
    rw [← spells.front] at ended
    refine ⟨'$' :: (name ++ text), sourceAll?_of_source? (source?_leaf rfl _) spells.printed,
      rfl, ?_, ?_⟩
    · intro inside
      exact (Text.settles_append_iff (bracketless_of_named named)).mpr (spells.settles inside)
    · intro k
      rw [sequence_name k named (fun c hc => (ended c hc).1) (fun c hc => (ended c hc).2)]
      exact congrArg (_ :: ·) (spells.rebuilt _)
  | @call ctx closes closed name inner position place children ns named printed _ last _
      ihBelow ih =>
    obtain ⟨text, spells⟩ := ih
    obtain ⟨_, below⟩ := ihBelow
    obtain rfl := Option.some.inj (printed.symm.trans below.printed)
    have fits := below.around_fits spells last
    have call : (Node.mk .directive ('$' :: name) position [_]).source? = some _ :=
      source?_called (below.source?_group fits place) position
    refine ⟨'$' :: (name ++ ((Group.around inner closed).content ++ text)), ?_, rfl, ?_, ?_⟩
    · have whole := sourceAll?_of_source? call spells.printed
      simpa using whole
    · intro inside
      refine (Text.settles_append_iff (bracketless_of_named named)).mpr ?_
      exact (Group.settles_content_append_iff fits).mpr
        ⟨fun unclosed => (last unclosed).1, spells.settles inside⟩
    · intro k
      rw [sequence_call k named fits]
      simp only [Draft.directive, bareAll_cons, bare_mk, bareAll_nil]
      rw [below.bare_group _ place, spells.rebuilt]
      rfl
  | @group closes closed inner position children ns printed _ last _ ihBelow ih =>
    obtain ⟨text, spells⟩ := ih
    obtain ⟨_, below⟩ := ihBelow
    obtain rfl := Option.some.inj (printed.symm.trans below.printed)
    have fits := below.around_fits spells last
    refine ⟨(Group.around inner closed).content ++ text,
      sourceAll?_of_source? (below.source?_group fits position) spells.printed, rfl, ?_, ?_⟩
    · intro inside
      exact (Group.settles_content_append_iff fits).mpr
        ⟨fun unclosed => (last unclosed).1, spells.settles inside⟩
    · intro k
      rw [sequence_bracket k fits]
      simp only [Draft.group, bareAll_cons]
      rw [below.bare_group k position, spells.rebuilt]

/-- A canonical tree whose root asks for fewer than `2 ^ 63` bytes, which can be reserved, is
printed, and what it prints builds the same tree: the kinds, contents and children agree all the
way down. Every root that is built has the same content. -/
theorem build_print? {t : Node} (canonical : t.Canonical)
    (room : t.position.length < 2 ^ 63) :
    ∃ text, t.print? = some text ∧
      (build text).bare = { t.bare with content := programMark } := by
  rw [Node.print?_eq_source? room]
  obtain ⟨kind, content, position, children⟩ := t
  obtain ⟨rfl, siblings⟩ := canonical
  obtain ⟨text, spells⟩ := siblings.spells
  refine ⟨text, ?_, ?_⟩
  · rw [Node.source?_eq]
    simp [Node.margins?, spells.printed]
  · rw [build_eq, program, Node.bare_mk, Node.bare_mk, spells.rebuilt]

theorem build_print?_nested :
    ∃ t : Node, t.Canonical ∧ t.position.length < 2 ^ 63 ∧
      t.print? = some "$f[$;x]é]$g[[".toList ∧
      ∃ text, t.print? = some text ∧
        (build text).bare = { t.bare with content := programMark } := by
  have closed : Node.CanonicalAll .inside true
      [.leaf .directive ['$'] {}, .leaf .separator [';'] {}, .leaf .literal ['x'] {}] := by
    refine .directive (by simp) ?_ (.separator (.literal (by simp) ?_ (by simp) (.nil _ _)))
    · simp [Node.leaf, Node.EndsName, Kind.isGroup]
    · simp [Context.stops, Role.of]
  have open_ : Node.CanonicalAll .inside false [⟨.group false, ['['], {}, []⟩] :=
    .group rfl (.nil _ _) (by simp) (.nil _ _)
  have last : Node.CanonicalAll .outside false
      [⟨.directive, ['$', 'g'], {}, [⟨.group false, ['[', '['], {},
        [⟨.group false, ['['], {}, []⟩]⟩]⟩] :=
    .call (List.all_eq_true.mp rfl) rfl open_ (by simp) (.nil _ _)
  have text : Node.CanonicalAll .outside false (.leaf .literal ['é', ']'] {} :: _) :=
    .literal (by simp) (by simp [Context.stops, Role.of]) (by simp) last
  have siblings : Node.CanonicalAll .outside false
      (⟨.directive, ['$', 'f'], {},
        [⟨.group true, (Group.around ['$', ';', 'x'] true).content, {}, _⟩]⟩ :: _) :=
    .call (List.all_eq_true.mp rfl) rfl closed (by simp) text
  have canonical : Node.Canonical ⟨.program, [], {}, _⟩ := ⟨rfl, siblings⟩
  exact ⟨_, canonical, by decide, rfl, build_print? canonical (by decide)⟩

/-- A canonical tree whose root asks for more room than there is cannot be printed. -/
theorem not_print?_canonical :
    Node.Canonical ⟨.program, [], ⟨0, 1, 2 ^ 63, 0⟩, []⟩ ∧
      Node.print? ⟨.program, [], ⟨0, 1, 2 ^ 63, 0⟩, []⟩ = none :=
  ⟨⟨rfl, .nil _ _⟩, Node.print?_of_le le_rfl⟩

theorem Node.CanonicalAll.front?_sequence {ctx : Context} {slice : Text} {closes : Bool}
    {k : Cursor} (h : CanonicalAll ctx closes (sequence ctx slice k).nodes) :
    front? (sequence ctx slice k).nodes = slice.head? := by
  obtain ⟨text, spells⟩ := h.spells
  have printed := spells.printed
  rw [sourceAll?_sequence] at printed
  rw [← spells.front, ← Option.some.inj printed]

theorem Group.Fits.nodes_nil {g : Group} {rest : Text} (fits : g.Fits rest)
    (unclosed : g.closed = false) (ctx : Context) (k : Cursor) :
    (sequence ctx rest k).nodes = [] := by
  have nothing := fits.closed_or.resolve_left (by simp [unclosed])
  rw [nothing, sequence_nil]

theorem canonicalAll_sequence {ctx : Context} {slice : Text} (pieces : Stretch ctx slice)
    {closes : Bool} (inside : ctx = .inside → slice.Settles closes)
    (outside : ctx = .outside → closes = false) (k : Cursor) :
    Node.CanonicalAll ctx closes (sequence ctx slice k).nodes := by
  induction pieces generalizing closes k with
  | nil =>
    rw [sequence_nil]
    exact .nil _ _
  | @literal ctx run rest filled plain stopped _ ih =>
    have settled : ctx = .inside → rest.Settles closes := by
      rintro rfl
      exact (Text.settles_append_iff (bracketless_of_plain plain)).mp (inside rfl)
    have more := ih settled outside (k.advance run)
    rw [sequence_literal k filled plain stopped]
    refine .literal filled plain (more.stops_front_iff.mp ?_) more
    rwa [more.front?_sequence]
  | @separator rest _ ih =>
    have settled := (Text.settles_append_iff bracketless_separator).mp (inside rfl)
    have more := ih (fun _ => settled) (by simp) (k.advance [';'])
    rw [sequence_separator]
    exact .separator more
  | closer => exact absurd (inside rfl) Text.not_settles_closer
  | @directive ctx name rest named stopped bare _ ih =>
    have settled (same : ctx = .inside) :=
      (Text.settles_append_iff (bracketless_of_named named)).mp (inside same)
    have more := ih settled outside (k.advance ('$' :: name))
    rw [sequence_name k named stopped bare]
    refine .directive named (more.front_ends_name_iff.mp ?_) more
    rw [more.front?_sequence]
    exact fun c hc => ⟨stopped c hc, bare c hc⟩
  | @call ctx name rest g named fits _ _ ihInner ih =>
    have settled (same : ctx = .inside) := (Group.settles_content_append_iff fits).mp
      ((Text.settles_append_iff (bracketless_of_named named)).mp (inside same))
    have open_ (unclosed : g.closed = false) : closes = false := by
      cases ctx with
      | outside => exact outside rfl
      | inside => exact (settled rfl).1 unclosed
    have below := ihInner (fun _ => Group.settles_inner fits) (by simp)
      (Group.enter (k.advance ('$' :: name)))
    have more := ih (fun same => (settled same).2) outside
      ((k.advance ('$' :: name)).advance g.content)
    rw [sequence_call k named fits]
    have whole := @Node.CanonicalAll.call ctx closes g.closed name g.inner
      (k.span ('$' :: name)) ((k.advance ('$' :: name)).span g.content) _ _ named
      (sourceAll?_sequence _ _ _) below
      (fun unclosed => ⟨open_ unclosed, fits.nodes_nil unclosed ctx _⟩) more
    rwa [Group.around_inner fits] at whole
  | @group rest g fits _ _ ihInner ih =>
    have settled := (Group.settles_content_append_iff fits).mp (inside rfl)
    have below := ihInner (fun _ => Group.settles_inner fits) (by simp) (Group.enter k)
    have more := ih (fun _ => settled.2) (by simp) (k.advance g.content)
    rw [sequence_bracket k fits]
    have whole := @Node.CanonicalAll.group closes g.closed g.inner (k.span g.content) _ _
      (sourceAll?_sequence _ _ _) below
      (fun unclosed => ⟨settled.1 unclosed, fits.nodes_nil unclosed .inside _⟩) more
    rwa [Group.around_inner fits] at whole

/-- A tree that was built is canonical: canonical trees are those that texts have, up to
the positions. -/
theorem canonical_build (text : Text) : (build text).Canonical :=
  ⟨rfl, canonicalAll_sequence (stretch .outside text) (by simp) (fun _ => rfl) {}⟩

end InlineScript
