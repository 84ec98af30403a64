import InlineScript.Proofs.Canonical
import InlineScript.Proofs.Layout
import Mathlib.Data.List.Chain

/-! The literals of a tree are runs that go on as far as they can: each is the longest of its
kind in all that the text still holds, and no two of them stand side by side. Inside a group a
run ends at brackets, so a closing bracket with no group of its own would have to be a literal
there; but of the slices that a tree is read from, none inside a group begins with one. -/

namespace InlineScript

/-- The longest front part of a text in which every character satisfies `p`. -/
structure LongestFront (p : Char → Bool) (t run : Text) : Prop where
  front : run <+: t
  kept : ∀ c ∈ run, p c = true
  longest : ∀ s, s <+: t → (∀ c ∈ s, p c = true) → s <+: run

theorem longestFront_append {p : Char → Bool} {run rest : Text} (kept : ∀ c ∈ run, p c = true)
    (stop : ∀ c ∈ rest.head?, p c = false) : LongestFront p (run ++ rest) run := by
  refine ⟨List.prefix_append run rest, kept, ?_⟩
  intro s front kept
  obtain shorter | ⟨more, rfl⟩ :=
    List.prefix_or_prefix_of_prefix front (List.prefix_append run rest)
  · exact shorter
  · obtain ⟨back, rfl⟩ := (List.prefix_append_right_inj run).mp front
    cases more with
    | nil => simp
    | cons c more =>
      have goes := kept c (by simp)
      rw [stop c rfl] at goes
      simp at goes

/-- The calls from which the tree of a text is built, each with what is left of its slice and
the cursor there: the whole text, what follows a piece, and the inside of a group. -/
inductive Visits (text : Text) : Context → Text → Cursor → Prop
  | start : Visits text .outside text {}
  | next {ctx : Context} {c : Char} {cs rest : Text} {p : Piece} {k : Cursor}
      (here : Visits text ctx (c :: cs) k) (read : Piece.read ctx c cs = (p, rest)) :
      Visits text ctx rest (k.advance p.text)
  | group {ctx : Context} {c : Char} {cs rest : Text} {g : Group} {k : Cursor}
      (here : Visits text ctx (c :: cs) k) (read : Piece.read ctx c cs = (.group g, rest)) :
      Visits text .inside g.inner (Group.enter k)
  | call {ctx : Context} {c : Char} {cs content rest : Text} {g : Group} {k : Cursor}
      (here : Visits text ctx (c :: cs) k)
      (read : Piece.read ctx c cs = (.directive content g, rest)) :
      Visits text .inside g.inner (Group.enter (k.advance content))

theorem Piece.forall_group?_leaf {kind : Kind} {content : Text} {P : Group → Prop} :
    ∀ g, (leaf kind content).group? = some g → P g := by
  simp [group?]

namespace Context.Bounds

variable {ctx : Context} {c : Char} {cs rest after : Text} {p : Piece}

theorem cut (h : ctx.Bounds ('[' :: cs) after) :
    ctx.Bounds (Group.cut cs).2 after ∧
      Enclosed (Group.cut cs).1.inner ((Group.cut cs).1.closing ++ ((Group.cut cs).2 ++ after)) := by
  have fits := Group.fits_cut cs
  rw [← Group.content_cut_append] at h
  exact ⟨h.leave fits, Enclosed.enter fits (h.closed_or fits)⟩

theorem step (read : Piece.read ctx c cs = (p, rest)) (h : ctx.Bounds (c :: cs) after) :
    ctx.Bounds rest after ∧
      ∀ g, p.group? = some g → Enclosed g.inner (g.closing ++ (rest ++ after)) := by
  suffices step : ctx.Bounds (Piece.read ctx c cs).2 after ∧
      ∀ g, (Piece.read ctx c cs).1.group? = some g →
        Enclosed g.inner (g.closing ++ ((Piece.read ctx c cs).2 ++ after)) by rwa [read] at step
  refine Piece.read_elim (motive := fun r => ctx.Bounds r.2 after ∧
    ∀ g, r.1.group? = some g → Enclosed g.inner (g.closing ++ (r.2 ++ after)))
    ?marker ?opener ?separator ?closer ?literal
  case marker =>
    rintro rfl
    have name := nameRun_append_drop cs
    have named : ∀ c ∈ nameRun cs, isNameChar c = true := by
      rw [nameRun_eq_takeWhile]
      exact fun c mem => List.mem_takeWhile_imp mem
    rw [← name] at h
    have called := h.skip_named named
    simp only [Piece.readDirective]
    generalize cs.drop (nameRun cs).length = t at called
    rcases t with _ | ⟨d, ds⟩
    · exact ⟨called, Piece.forall_group?_leaf⟩
    · by_cases opener : d = '['
      · subst opener
        have cut := called.cut
        simp only [Group.cut?, if_true]
        refine ⟨cut.1, ?_⟩
        rintro g ⟨⟩
        exact cut.2
      · simp only [Group.cut?, opener, if_false]
        exact ⟨called, Piece.forall_group?_leaf⟩
  case opener =>
    rintro rfl rfl
    have cut := h.cut
    refine ⟨cut.1, ?_⟩
    rintro g ⟨⟩
    exact cut.2
  case separator =>
    rintro rfl rfl
    exact ⟨Enclosed.skip bracketless_separator h, Piece.forall_group?_leaf⟩
  case closer =>
    -- A slice in a group holds no more closing than opening brackets in any front part.
    rintro rfl rfl
    exact absurd h Enclosed.not_closer
  case literal =>
    intro stops
    have whole := literal_append_drop ctx (c :: cs)
    rw [← whole] at h
    exact ⟨h.skip fun d mem => not_stops_of_mem_literal mem, Piece.forall_group?_leaf⟩

theorem settles {slice : Text} (h : ctx.Bounds slice after) :
    ∃ closes, (ctx = .inside → slice.Settles closes) ∧ (ctx = .outside → closes = false) := by
  cases ctx with
  | outside => exact ⟨false, by simp, fun _ => rfl⟩
  | inside =>
    obtain ⟨closes, settled, -⟩ := h
    exact ⟨closes, fun _ => settled, by simp⟩

end Context.Bounds

theorem Piece.isGroup_of_read_leaf {ctx : Context} {c : Char} {cs content rest : Text}
    {kind : Kind} (read : Piece.read ctx c cs = (.leaf kind content, rest)) :
    kind.isGroup = false := by
  suffices leaf : ∀ kind content, (Piece.read ctx c cs).1 = .leaf kind content →
      kind.isGroup = false from leaf kind content (by rw [read])
  refine Piece.read_elim (motive := fun r =>
    ∀ kind content, r.1 = .leaf kind content → kind.isGroup = false)
    ?marker ?opener ?separator ?closer ?literal
  case marker =>
    rintro - kind content same
    simp only [Piece.readDirective] at same
    split at same
    · simp at same
    · cases same
      rfl
  case opener => simp
  case separator =>
    rintro - - kind content ⟨⟩
    rfl
  case closer =>
    rintro - - kind content ⟨⟩
    rfl
  case literal =>
    rintro - kind content ⟨⟩
    rfl

namespace Visits

variable {text slice : Text} {ctx : Context} {k : Cursor}

theorem place (h : Visits text ctx slice k) :
    ∃ before after, before ++ (slice ++ after) = text ∧ k = Cursor.advance {} before ∧
      ctx.Bounds slice after := by
  induction h with
  | start => exact ⟨[], [], by simp, rfl, rfl⟩
  | @next ctx c cs rest p k _ read ih =>
    obtain ⟨before, after, rfl, rfl, bounds⟩ := ih
    have whole := Piece.text_read_append ctx c cs
    rw [read] at whole
    refine ⟨before ++ p.text, after, ?_, Cursor.advance_advance _ _ _, (bounds.step read).1⟩
    rw [← whole]
    simp
  | @group ctx c cs rest g k _ read ih =>
    obtain ⟨before, after, rfl, rfl, bounds⟩ := ih
    have whole := Piece.text_read_append ctx c cs
    rw [read, Piece.text, Group.content_eq] at whole
    refine ⟨before ++ ['['], g.closing ++ (rest ++ after), ?_, Cursor.advance_advance _ _ _,
      (bounds.step read).2 g rfl⟩
    rw [← whole]
    simp
  | @call ctx c cs content rest g k _ read ih =>
    obtain ⟨before, after, rfl, rfl, bounds⟩ := ih
    have whole := Piece.text_read_append ctx c cs
    rw [read, Piece.text, Group.content_eq] at whole
    refine ⟨before ++ (content ++ ['[']), g.closing ++ (rest ++ after), ?_, ?_,
      (bounds.step read).2 g rfl⟩
    · rw [← whole]
      simp
    · simp [Group.enter]

theorem not_closer {cs : Text} : ¬ Visits text .inside (']' :: cs) k := by
  intro h
  obtain ⟨before, after, -, -, enclosed⟩ := h.place
  exact Enclosed.not_closer enclosed

theorem canonicalAll (h : Visits text ctx slice k) :
    ∃ closes, Node.CanonicalAll ctx closes (sequence ctx slice k).nodes := by
  obtain ⟨before, after, -, -, bounds⟩ := h.place
  obtain ⟨closes, inside, outside⟩ := bounds.settles
  exact ⟨closes, canonicalAll_sequence (stretch ctx slice) inside outside k⟩

theorem children_group (h : Visits text ctx slice k) :
    ∀ n ∈ Node.walkAll (sequence ctx slice k).nodes, n.kind.isGroup = true →
      ∃ inner k', Visits text .inside inner k' ∧
        n.children = (sequence .inside inner k').nodes := by
  fun_induction sequence ctx slice k with
  | case1 => simp
  | case2 ctx k c cs kind content rest read ih =>
    have leaf := Piece.isGroup_of_read_leaf read
    rw [Draft.walkAll_leaf, List.forall_mem_cons]
    refine ⟨?_, ih (h.next read)⟩
    simp [Node.leaf, leaf]
  | case3 ctx k c cs g rest read inner ihInner ih =>
    have below := h.group read
    rw [Draft.walkAll_group, List.forall_mem_cons, List.forall_mem_append]
    refine ⟨fun _ => ⟨_, _, below, rfl⟩, ihInner below, ?_⟩
    -- The builder goes on where the group's inside left its cursor.
    have behind : inner.cursor.advance g.closing = k.advance g.content := Group.leave_cursor g k
    rw [behind] at ih ⊢
    exact ih (h.next read)
  | case4 ctx k c cs content g rest read inner ihInner ih =>
    have below := h.call read
    rw [Draft.walkAll_directive, List.forall_mem_cons, List.forall_mem_cons,
      List.forall_mem_append]
    refine ⟨by simp [Kind.isGroup], fun _ => ⟨_, _, below, rfl⟩, ihInner below, ?_⟩
    have behind : inner.cursor.advance g.closing = (k.advance content).advance g.content :=
      Group.leave_cursor g _
    rw [behind, Cursor.advance_advance] at ih ⊢
    exact ih (h.next read)

end Visits

theorem Node.Occurs.length_children_le {text : Text} {n : Node} (h : n.Occurs text)
    (other : n.kind.isGroup = false) : n.children.length ≤ 1 := by
  cases h with
  | literal => simp [leaf]
  | separator => simp [leaf]
  | directive => simp [leaf]
  | call => simp
  | group => simp [Group.node, Kind.isGroup] at other

theorem children_build {text : Text} : ∀ n ∈ (build text).walk,
    (∃ ctx slice k, Visits text ctx slice k ∧ n.children = (sequence ctx slice k).nodes) ∨
      n.children.length ≤ 1 := by
  rw [Node.walk_eq, List.forall_mem_cons]
  refine ⟨.inl ⟨_, _, _, .start, rfl⟩, ?_⟩
  intro n mem
  cases group : n.kind.isGroup with
  | true =>
    obtain ⟨inner, k, below, children⟩ := Visits.start.children_group n mem group
    exact .inl ⟨_, inner, k, below, children⟩
  | false => exact .inr ((occurs_build n mem).length_children_le group)

theorem children_group_build {text : Text} {g : Node} (mem : g ∈ (build text).walk)
    (group : g.kind.isGroup = true) :
    ∃ inner k, Visits text .inside inner k ∧ g.children = (sequence .inside inner k).nodes := by
  rw [Node.walk_eq, List.mem_cons] at mem
  obtain rfl | below := mem
  · simp [build_eq, program, Kind.isGroup] at group
  · exact Visits.start.children_group g below group

namespace Node

/-- A node whose content is the longest run of its context that the text still holds. -/
def IsRun (ctx : Context) (text : Text) (n : Node) : Prop :=
  LongestFront (fun c => !ctx.stops c) (text.cut n.position.offset).2 n.content

theorem isRun_leaf {ctx : Context} {before run rest : Text} {kind : Kind}
    (plain : ∀ c ∈ run, ctx.stops c = false) (stopped : ∀ c ∈ rest.head?, ctx.stops c = true) :
    (leaf kind run ((Cursor.advance {} before).span run)).IsRun ctx (before ++ (run ++ rest)) := by
  have offset : (leaf kind run ((Cursor.advance {} before).span run)).position.offset =
      before.size := Nat.zero_add _
  rw [IsRun, offset, Text.cut_size_append]
  exact longestFront_append (by simpa using plain) (by simpa using stopped)

section
variable {ctx : Context} {closes : Bool} {ns : List Node}

theorem CanonicalAll.apart (h : CanonicalAll ctx closes ns) :
    ns.IsChain fun a b => ¬ (a.kind = .literal ∧ b.kind = .literal) := by
  induction h with
  | nil => exact .nil
  | literal filled plain apart more ih =>
    exact List.isChain_cons.mpr ⟨fun n mem both => apart n mem both.2, ih⟩
  | separator more ih => exact List.isChain_cons.mpr ⟨fun n mem both => by simp [leaf] at both, ih⟩
  | directive named apart more ih =>
    exact List.isChain_cons.mpr ⟨fun n mem both => by simp [leaf] at both, ih⟩
  | call named printed below last more ihBelow ih =>
    exact List.isChain_cons.mpr ⟨fun n mem both => by simp at both, ih⟩
  | group printed below last more ihBelow ih =>
    exact List.isChain_cons.mpr ⟨fun n mem both => by simp at both, ih⟩

theorem CanonicalAll.plain_inside (h : CanonicalAll ctx closes ns) (inside : ctx = .inside) :
    ∀ n ∈ walkAll ns, n.kind = .literal → ∀ c ∈ n.content, Context.inside.stops c = false := by
  induction h with
  | nil => simp
  | literal filled plain apart more ih =>
    subst inside
    rw [walkAll_cons, walk_leaf, List.forall_mem_append, List.forall_mem_singleton]
    exact ⟨fun _ => plain, ih rfl⟩
  | separator more ih =>
    rw [walkAll_cons, walk_leaf, List.forall_mem_append, List.forall_mem_singleton]
    exact ⟨by simp [leaf], ih rfl⟩
  | directive named apart more ih =>
    rw [walkAll_cons, walk_leaf, List.forall_mem_append, List.forall_mem_singleton]
    exact ⟨by simp [leaf], ih inside⟩
  | call named printed below last more ihBelow ih =>
    simp only [walkAll_cons, walk_eq, walkAll_nil, List.append_nil, List.forall_mem_append,
      List.forall_mem_cons]
    exact ⟨⟨by simp, by simp, ihBelow rfl⟩, ih inside⟩
  | group printed below last more ihBelow ih =>
    rw [walkAll_cons, walk_eq, List.forall_mem_append, List.forall_mem_cons]
    exact ⟨⟨by simp, ihBelow rfl⟩, ih rfl⟩

end

end Node

/-- The literals among the siblings in a slice are runs of the whole text: where the slice ends,
the text goes on with what stops them. -/
theorem isRun_sequence {ctx : Context} {slice : Text} (pieces : Stretch ctx slice)
    {text before after : Text} (bounds : ctx.Bounds slice after)
    (whole : before ++ (slice ++ after) = text) :
    ∀ n ∈ (sequence ctx slice (Cursor.advance {} before)).nodes, n.kind = .literal →
      n.IsRun ctx text := by
  induction pieces generalizing before with
  | nil => simp
  | @literal ctx run rest filled plain stopped _ ih =>
    have more := bounds.skip plain
    rw [sequence_literal _ filled plain stopped, Cursor.advance_advance]
    rw [List.append_assoc] at whole
    refine List.forall_mem_cons.mpr ⟨fun _ => ?_, ih more (by simpa using whole)⟩
    rw [← whole]
    -- A slice in a group ends in front of the group's bracket, which stops the run as well.
    refine Node.isRun_leaf plain (more.forall_head? stopped ?_)
    rintro rfl
    rfl
  | @separator rest _ ih =>
    have more := Enclosed.skip bracketless_separator bounds
    rw [sequence_separator, Cursor.advance_advance]
    exact List.forall_mem_cons.mpr ⟨by simp [Node.leaf], ih more (by simpa using whole)⟩
  | closer => exact absurd bounds Enclosed.not_closer
  | @directive ctx name rest named stopped bare _ ih =>
    rw [sequence_name _ named stopped bare, Cursor.advance_advance]
    exact List.forall_mem_cons.mpr
      ⟨by simp [Node.leaf], ih (bounds.skip_named named) (by simpa using whole)⟩
  | @call ctx name rest g named fits _ _ _ ih =>
    rw [sequence_call _ named fits, Cursor.advance_advance, Cursor.advance_advance]
    exact List.forall_mem_cons.mpr
      ⟨by simp, ih ((bounds.skip_named named).leave fits) (by simpa using whole)⟩
  | @group rest g fits _ _ _ ih =>
    rw [sequence_bracket _ fits, Cursor.advance_advance]
    exact List.forall_mem_cons.mpr
      ⟨by simp [Group.node], ih (bounds.leave fits) (by simpa using whole)⟩

theorem Visits.isRun {text slice : Text} {ctx : Context} {k : Cursor}
    (h : Visits text ctx slice k) :
    ∀ n ∈ (sequence ctx slice k).nodes, n.kind = .literal → n.IsRun ctx text := by
  obtain ⟨before, after, whole, rfl, bounds⟩ := h.place
  exact isRun_sequence (stretch ctx slice) bounds whole

theorem content_ne_nil_build {text : Text} :
    ∀ n ∈ (build text).walk, n.kind = .literal → n.content ≠ [] := by
  intro n mem literal
  cases occurs_of_mem_walk mem (by simp [literal]) with
  | literal whole filled => exact filled
  | separator => simp [Node.leaf] at literal
  | directive => simp [Node.leaf] at literal
  | call => simp at literal
  | group => simp [Group.node] at literal

/-- Every literal is a maximal run of its context. Inside a group none holds a significant
character, so what keeps a stray closing bracket as text has nothing to do. -/
theorem literals_build (text : Text) :
    (∀ g ∈ (build text).walk, g.kind.isGroup = true → ∀ n ∈ Node.walkAll g.children,
      n.kind = .literal → ∀ c ∈ n.content, c ≠ '$' ∧ c ≠ '[' ∧ c ≠ ']' ∧ c ≠ ';') ∧
    (∀ (cs : Text) (k : Cursor), ¬ Visits text .inside (']' :: cs) k) ∧
    (∀ n ∈ (build text).walk, n.kind = .literal → n.content ≠ []) ∧
    (∀ n ∈ (build text).walk,
      n.children.IsChain fun a b => ¬ (a.kind = .literal ∧ b.kind = .literal)) ∧
    (∀ n ∈ (build text).children, n.kind = .literal → n.IsRun .outside text) ∧
    (∀ g ∈ (build text).walk, g.kind.isGroup = true → ∀ n ∈ g.children, n.kind = .literal →
      n.IsRun .inside text) := by
  refine ⟨?_, fun cs k => Visits.not_closer, content_ne_nil_build, ?_, Visits.start.isRun, ?_⟩
  · intro g mem group n below literal c inRun
    obtain ⟨inner, k, visit, children⟩ := children_group_build mem group
    obtain ⟨closes, canonical⟩ := visit.canonicalAll
    rw [children] at below
    have plain := canonical.plain_inside rfl n below literal c inRun
    rw [← Bool.not_eq_true, Context.stops_inside_iff] at plain
    simpa only [not_or, ne_eq] using plain
  · intro n mem
    obtain ⟨ctx, slice, k, visit, children⟩ | few := children_build n mem
    · obtain ⟨closes, canonical⟩ := visit.canonicalAll
      rw [children]
      exact canonical.apart
    · generalize n.children = children at few
      match children, few with
      | [], _ => exact .nil
      | [child], _ => exact .singleton child
  · intro g mem group
    obtain ⟨inner, k, visit, children⟩ := children_group_build mem group
    rw [children]
    exact visit.isRun

theorem literals_build_unclosed :
    ∃ g ∈ (build "$f[é [a] b]c]$h[d ;[e".toList).walk, g.kind = .group false ∧
      ∃ n ∈ g.children, n.kind = .literal ∧ n.content = "d ".toList ∧
        n.IsRun .inside "$f[é [a] b]c]$h[d ;[e".toList := by
  let text := "$f[é [a] b]c]$h[d ;[e".toList
  let g := (build text).walk.get ⟨9, by decide +kernel⟩
  have mem : g ∈ (build text).walk := List.get_mem _ _
  let n := g.children.get ⟨0, by decide +kernel⟩
  have child : n ∈ g.children := List.get_mem _ _
  have literal : n.kind = .literal := by decide +kernel
  have group : g.kind.isGroup = true := by decide +kernel
  refine ⟨g, mem, by decide +kernel, n, child, literal, by decide +kernel, ?_⟩
  exact (literals_build text).2.2.2.2.2 g mem group n child literal

end InlineScript
