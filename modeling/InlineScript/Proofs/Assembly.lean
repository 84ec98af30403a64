import InlineScript.Proofs.Checked

/-! Building the tree by byte offsets, with every slice checked. One cursor runs through all calls,
and a call is told where it has to end. A slice outside the text, a bracket taken off before the
opening one, an empty literal, a scan with more brackets than its counters have numbers and a call
that never returns all leave the whole without a value. Calls may nest as deep as the text asks
for. Each stretch between a cursor and an end holds the pieces that are read there, so where the
counters suffice there is a value, and it is the tree. -/

namespace InlineScript

namespace Group

def extent (g : Group) : Extent := ⟨g.content.size, g.closed⟩

theorem scan?_eq_cut? (t : Text) : Extent.scan? t = (cut? t).map fun r => r.1.extent := by
  by_cases bracket : t.head? = some '['
  · obtain ⟨cs, rfl⟩ := List.head?_eq_some_iff.mp bracket
    rw [← content_cut_append, (fits_cut cs).scan?, content_cut_append]
    rfl
  · rw [Extent.scan?_eq_none_iff.mpr (by rintro cs rfl; exact bracket rfl)]
    cases t with
    | nil => rfl
    | cons c cs =>
      have other : c ≠ '[' := fun same => bracket (congrArg some same)
      simp [cut?, other]

theorem eq_cut_of_cut? {t rest : Text} {g : Group} (h : cut? t = some (g, rest)) :
    g.content ++ rest = t ∧ g.Fits rest := by
  refine ⟨content_append_of_cut? h, ?_⟩
  cases t with
  | nil => simp [cut?] at h
  | cons c cs =>
    have fits := fits_cut cs
    by_cases bracket : c = '['
    · simp only [cut?, bracket, if_true, Option.some.injEq] at h
      rwa [h] at fits
    · simp [cut?, bracket] at h

end Group

namespace Checked

def sub? (m n : Nat) : Option Nat := if n ≤ m then some (m - n) else none

structure Step where
  node : Node
  unclosed : List Cursor
  cursor : Cursor
deriving DecidableEq

namespace Step

def andThen (step : Step) (rest : Draft) : Draft :=
  ⟨step.node :: rest.nodes, step.unclosed ++ rest.unclosed, rest.cursor⟩

def leaf (kind : Kind) (content : Text) (k : Cursor) : Step :=
  ⟨.leaf kind content (k.span content), [], k.advance content⟩

def call (ident group : Step) : Step :=
  { group with node := { ident.node with children := ident.node.children ++ [group.node] } }

def group (g : Group) (k : Cursor) : Step :=
  let inner := sequence .inside g.inner (Group.enter k)
  ⟨g.node k inner.nodes, g.unclosed k ++ inner.unclosed, k.advance g.content⟩

def of : Piece → Cursor → Step
  | .leaf kind content, k => leaf kind content k
  | .group g, k => group g k
  | .directive content g, k =>
    let ident := leaf .directive content k
    call ident (group g ident.cursor)

theorem cursor_of (p : Piece) (k : Cursor) : (of p k).cursor = k.advance p.text := by
  cases p with
  | leaf kind content => rfl
  | group g => rfl
  | directive content g => exact k.advance_advance content g.content

end Step

theorem sequence_cons {ctx : Context} {c : Char} {cs rest : Text} {p : Piece}
    (read : Piece.read ctx c cs = (p, rest)) (k : Cursor) :
    sequence ctx (c :: cs) k =
      (Step.of p k).andThen (sequence ctx rest (Step.of p k).cursor) := by
  rw [Step.cursor_of]
  cases p with
  | leaf kind content => rw [sequence_leaf read]; rfl
  | group g => rw [sequence_group read]; rfl
  | directive content g =>
    rw [sequence_directive read, Cursor.advance_advance]
    rfl

section
variable (text : Text)

def leaf? (kind : Kind) (length : Nat) (k : Cursor) : Option Step := do
  let content ← text.slice? k.offset (k.offset + length)
  return .leaf kind content k

/-- A literal, which is asserted not to be empty. -/
def literal? (ctx : Context) (rest : Text) (k : Cursor) : Option Step := do
  let run ← upTo? ctx.stops rest
  guard (run ≠ [])
  leaf? text .literal run.size k

def skip? (length : Nat) (k : Cursor) : Option Cursor := do
  let run ← text.slice? k.offset (k.offset + length)
  return k.advance run

def leave? (extent : Extent) (k : Cursor) : Option Cursor :=
  if extent.closed then skip? text 1 k else some k

def ident? (stop : Nat) (k : Cursor) : Option Step := do
  let behind ← text.slice? (k.offset + 1) stop
  let run ← upTo? Context.inside.stops behind
  let name ← upTo? isBlank run
  leaf? text .directive (1 + name.size) k

def innerStop? (extent : Extent) (stop : Nat) : Option Nat :=
  if extent.closed then sub? stop 1 else some stop

/-- A bracket opens a group without a directive only inside another group. -/
def bare? (ctx : Context) (rest : Text) (fuel : Nat) : Option (Option Extent) :=
  match ctx with
  | .inside => scan? rest fuel
  | .outside => some none

mutual

def sequence? : Nat → Context → Cursor → Nat → Option Draft
  | _, _, _, 0 => none
  | stop, ctx, k, fuel + 1 =>
    if k.offset < stop then do
      let rest ← text.slice? k.offset stop
      match rest with
      | [] => some ⟨[], [], k⟩
      | c :: cs => do
        let step ← round? stop ctx k c cs fuel
        let others ← sequence? stop ctx step.cursor fuel
        return step.andThen others
    else some ⟨[], [], k⟩

def round? : Nat → Context → Cursor → Char → Text → Nat → Option Step
  | _, _, _, _, _, 0 => none
  | stop, ctx, k, c, cs, fuel + 1 => do
    let group ← bare? ctx (c :: cs) fuel
    match Role.of c, ctx, group with
    | .marker, _, _ => directive? stop k fuel
    | _, _, some extent => argument? extent k fuel
    | .separator, .inside, _ => leaf? text .separator c.utf8Size k
    | .closer, .inside, _ => leaf? text .literal c.utf8Size k
    | _, _, _ => literal? text ctx (c :: cs) k

def directive? : Nat → Cursor → Nat → Option Step
  | _, _, 0 => none
  | stop, k, fuel + 1 => do
    let ident ← ident? text stop k
    let behind ← text.slice? ident.cursor.offset stop
    match ← scan? behind fuel with
    | none => return ident
    | some extent => do
      let group ← argument? extent ident.cursor fuel
      return ident.call group

/-- A group, whose position is taken and which is noted before what it holds is built. -/
def argument? : Extent → Cursor → Nat → Option Step
  | _, _, 0 => none
  | extent, k, fuel + 1 => do
    let content ← text.slice? k.offset (k.offset + extent.length)
    let inside ← skip? text 1 k
    let stop ← innerStop? extent (k.span content).stop
    let inner ← sequence? stop .inside inside fuel
    let behind ← leave? text extent inner.cursor
    return ⟨⟨.group extent.closed, content, k.span content, inner.nodes⟩,
      (if extent.closed then [] else [k]) ++ inner.unclosed, behind⟩

end

end

section
variable {text : Text} {k : Cursor} {stop : Nat} {ctx : Context}

theorem leaf?_eq {content : Text}
    (here : text.slice? k.offset (k.offset + content.size) = some content) (kind : Kind) :
    leaf? text kind content.size k = some (.leaf kind content k) := by
  rw [leaf?, here]
  rfl

theorem skip?_eq {run : Text} (here : text.slice? k.offset (k.offset + run.size) = some run) :
    skip? text run.size k = some (k.advance run) := by
  rw [skip?, here]
  rfl

theorem ident?_eq {cs : Text} (here : text.slice? k.offset stop = some ('$' :: cs)) :
    ident? text stop k = some (.leaf .directive ('$' :: nameRun cs) k) := by
  have behind : text.slice? (k.offset + 1) stop = some cs :=
    (Text.slice?_split (s := ['$']) here).2
  rw [← nameRun_append_drop cs, ← List.cons_append] at here
  rw [ident?, behind]
  simp only [Option.bind_eq_bind, Option.bind_some, upTo?_eq]
  exact leaf?_eq (Text.slice?_split here).1 .directive

theorem bare?_returns (ctx : Context) {rest : Text} (few : List.count '[' rest < 2 ^ 31) :
    Returns (bare? ctx rest) (if ctx = .inside then Extent.scan? rest else none) := by
  cases ctx with
  | outside => exact ⟨0, fun _ _ => rfl⟩
  | inside => exact scan?_returns few

theorem innerStop?_eq {g : Group} {rest : Text} (fits : g.Fits rest) (k : Cursor) :
    innerStop? g.extent (k.span g.content).stop =
      some ((Group.enter k).advance g.inner).offset := by
  have size : g.content.size = 1 + (g.inner.size + g.closing.size) := by
    rw [Group.content_eq, Text.size_cons, Text.size_append]
    rfl
  have entered : (Group.enter k).offset = k.offset + 1 := rfl
  rw [Cursor.span_stop, Cursor.advance, Cursor.advance, entered, size]
  cases closed : g.closed with
  | true =>
    have last : g.closing.size = 1 := by rw [Group.closing_of_fits fits closed]; rfl
    rw [innerStop?, Group.extent, closed, if_pos rfl, sub?, if_pos (by simp only; omega)]
    simp only [Option.some.injEq]
    omega
  | false =>
    have none : g.closing.size = 0 := by rw [Group.closing_of_unclosed closed]; rfl
    rw [innerStop?, Group.extent, closed, if_neg Bool.false_ne_true, none]
    simp only [Option.some.injEq]
    omega

theorem slice?_group {g : Group}
    (here : text.slice? k.offset (k.advance g.content).offset = some g.content) :
    text.slice? k.offset (Group.enter k).offset = some ['['] ∧
      text.slice? (Group.enter k).offset ((Group.enter k).advance g.inner).offset =
        some g.inner ∧
      text.slice? ((Group.enter k).advance g.inner).offset (k.advance g.content).offset =
        some g.closing := by
  have parts : text.slice? k.offset (k.advance g.content).offset =
      some (['['] ++ (g.inner ++ g.closing)) := by rw [here, Group.content_eq]; rfl
  obtain ⟨opening, body⟩ := Text.slice?_split parts
  obtain ⟨inside, closing⟩ := Text.slice?_split body
  exact ⟨opening, inside, closing⟩

theorem leave?_eq {g : Group} {rest : Text} (fits : g.Fits rest)
    (here : text.slice? k.offset (k.advance g.closing).offset = some g.closing) :
    leave? text g.extent k = some (k.advance g.closing) := by
  cases closed : g.closed with
  | true =>
    rw [Group.closing_of_fits fits closed] at here ⊢
    rw [leave?, Group.extent, closed, if_pos rfl]
    exact skip?_eq here
  | false =>
    rw [Group.closing_of_unclosed closed, leave?, Group.extent, closed,
      if_neg Bool.false_ne_true]
    rfl

def Built (text slice : Text) : Prop :=
  ∀ ctx k stop, text.slice? k.offset stop = some slice →
    Returns (sequence? text stop ctx k) (sequence ctx slice k)

theorem argument?_returns {g : Group} {rest : Text} (fits : g.Fits rest)
    (inner : Built text g.inner)
    (here : text.slice? k.offset (k.advance g.content).offset = some g.content) :
    Returns (argument? text g.extent k) (.group g k) := by
  obtain ⟨opening, inside, closing⟩ := slice?_group here
  have content : text.slice? k.offset (k.offset + g.extent.length) = some g.content := here
  have entered : skip? text 1 k = some (Group.enter k) := skip?_eq opening
  have left : leave? text g.extent (sequence .inside g.inner (Group.enter k)).cursor =
      some (k.advance g.content) := by
    rw [← Group.leave_cursor]
    apply leave?_eq fits
    rwa [Group.leave_cursor, sequence_cursor]
  obtain ⟨least, draft⟩ := inner .inside _ _ inside
  refine .of_succ least fun fuel enough => ?_
  rw [argument?, content]
  simp only [Option.bind_eq_bind, Option.bind_some, entered, innerStop?_eq fits,
    draft fuel enough, left]
  rfl

theorem directive?_returns (few : List.count '[' text < 2 ^ 31) {cs : Text} {p : Piece}
    {rest : Text} (read : Piece.readDirective cs = (p, rest))
    (inner : ∀ g ∈ p.group?, Built text g.inner)
    (here : text.slice? k.offset stop = some ('$' :: cs)) :
    Returns (directive? text stop k) (.of p k) := by
  have whole := nameRun_append_drop cs
  rw [Piece.readDirective] at read
  generalize cs.drop (nameRun cs).length = behind at read whole
  have parts : text.slice? k.offset stop = some (('$' :: nameRun cs) ++ behind) := by
    rw [here, List.cons_append, whole]
  have remains : text.slice? (Step.leaf .directive ('$' :: nameRun cs) k).cursor.offset stop =
      some behind := (Text.slice?_split parts).2
  obtain ⟨m, scanned⟩ := scan?_returns ((Text.count_slice?_le '[' remains).trans_lt few)
  rw [Group.scan?_eq_cut?] at scanned
  cases found : Group.cut? behind with
  | none =>
    simp only [found, Prod.mk.injEq] at read
    refine .of_succ m fun fuel enough => ?_
    rw [directive?, ident?_eq here]
    simp only [Option.bind_eq_bind, Option.bind_some, remains, scanned fuel enough, found]
    rw [← read.1]
    rfl
  | some r =>
    obtain ⟨g, after⟩ := r
    obtain ⟨rfl, fits⟩ := Group.eq_cut_of_cut? found
    simp only [found, Prod.mk.injEq] at read
    obtain ⟨rfl, rfl⟩ := read
    obtain ⟨n, called⟩ := argument?_returns fits (inner g rfl) (Text.slice?_split remains).1
    refine .of_succ (max m n) fun fuel enough => ?_
    rw [directive?, ident?_eq here]
    simp only [Option.bind_eq_bind, Option.bind_some, remains, scanned fuel (by omega), found,
      Option.map_some, called fuel (by omega)]
    rfl

theorem literal?_eq {c : Char} {cs : Text} (goes : ctx.stops c = false)
    (here : text.slice? k.offset stop = some (c :: cs)) :
    literal? text ctx (c :: cs) k = some (.leaf .literal (literal ctx (c :: cs)) k) := by
  have filled : literal ctx (c :: cs) ≠ [] := by simp [literal_cons goes]
  have run : upTo? ctx.stops (c :: cs) = some (literal ctx (c :: cs)) := upTo?_eq _ _
  rw [← literal_append_drop ctx (c :: cs)] at here
  have read := leaf?_eq (Text.slice?_split here).1 .literal
  simp [literal?, run, guard, filled, read]

theorem round?_returns (few : List.count '[' text < 2 ^ 31) {c : Char} {cs : Text}
    (here : text.slice? k.offset stop = some (c :: cs))
    (inner : ∀ g ∈ (Piece.read ctx c cs).1.group?, Built text g.inner) :
    Returns (round? text stop ctx k c cs) (.of (Piece.read ctx c cs).1 k) := by
  obtain ⟨m, group⟩ := bare?_returns ctx ((Text.count_slice?_le '[' here).trans_lt few)
  revert inner
  refine Piece.read_elim (motive := fun r => (∀ g ∈ r.1.group?, Built text g.inner) →
    Returns (round? text stop ctx k c cs) (.of r.1 k))
    ?marker ?opener ?separator ?closer ?literal
  case marker =>
    rintro rfl inner
    obtain ⟨n, directive⟩ := directive?_returns few rfl inner here
    refine .of_succ (max m n) fun fuel enough => ?_
    rw [round?, group fuel (by omega)]
    exact directive fuel (by omega)
  case opener =>
    rintro rfl rfl inner
    have fits := Group.fits_cut cs
    rw [← Group.content_cut_append] at here
    obtain ⟨n, argument⟩ := argument?_returns fits (inner _ rfl) (Text.slice?_split here).1
    refine .of_succ (max m n) fun fuel enough => ?_
    rw [round?, group fuel (by omega), if_pos rfl, Group.scan?_eq_cut?]
    exact argument fuel (by omega)
  case separator =>
    rintro rfl rfl -
    refine .of_succ m fun fuel enough => ?_
    rw [round?, group fuel enough]
    exact leaf?_eq (Text.slice?_split (s := [';']) here).1 .separator
  case closer =>
    rintro rfl rfl -
    refine .of_succ m fun fuel enough => ?_
    rw [round?, group fuel enough]
    exact leaf?_eq (Text.slice?_split (s := [']']) here).1 .literal
  case literal =>
    intro goes _
    have read := literal?_eq goes here
    refine .of_succ m fun fuel enough => ?_
    rw [round?, group fuel enough, Option.bind_eq_bind, Option.bind_some]
    cases ctx with
    | outside =>
      rw [if_neg (by decide)]
      cases role : Role.of c with
      | marker => simp [Context.stops, role] at goes
      | opener => exact read
      | closer => exact read
      | separator => exact read
      | literal => exact read
    | inside =>
      have role : Role.of c = .literal := by simpa [Context.stops] using goes
      have other : c ≠ '[' := (Role.of_eq_literal_iff.mp role).2.1
      rw [if_pos rfl, Extent.scan?_eq_none_iff.mpr (by simp [other]), role]
      exact read

/-- There are siblings for every slice, with the cursor left where the slice ends. -/
theorem built (few : List.count '[' text < 2 ^ 31) (slice : Text) : Built text slice := by
  intro ctx k stop here
  match slice with
  | [] =>
    have done : ¬ k.offset < stop := by simp [← Text.size_of_slice? here]
    refine .of_succ 0 fun fuel _ => ?_
    rw [sequence?, if_neg done, sequence_nil]
  | c :: cs =>
    have going : k.offset < stop := by
      rw [← Text.size_of_slice? here]
      exact Nat.lt_add_of_pos_right (Text.size_pos (List.cons_ne_nil c cs))
    -- What the piece's group holds, and what follows the piece, are both shorter than the slice.
    have inner : ∀ g ∈ (Piece.read ctx c cs).1.group?, Built text g.inner := by
      intro g mem
      exact built few g.inner
    have parts : text.slice? k.offset stop =
        some ((Piece.read ctx c cs).1.text ++ (Piece.read ctx c cs).2) := by
      rw [here, Piece.text_read_append]
    obtain ⟨m, round⟩ := round?_returns few here inner
    obtain ⟨n, others⟩ := built few (Piece.read ctx c cs).2 ctx
      (k.advance (Piece.read ctx c cs).1.text) stop (Text.slice?_split parts).2
    refine .of_succ (max m n) fun fuel enough => ?_
    rw [sequence?, if_pos going, here]
    simp only [Option.bind_eq_bind, Option.bind_some, round fuel (by omega), Step.cursor_of,
      others fuel (by omega)]
    rw [sequence_cons rfl, Step.cursor_of]
    rfl
termination_by slice.length
decreasing_by
  · exact Piece.length_inner_lt mem
  · exact Piece.length_rest_lt ctx c cs

end

end Checked

end InlineScript
