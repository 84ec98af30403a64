import InlineScript.Proofs.Agreement
import InlineScript.Proofs.Misses

/-! What the grammar makes of siblings, and the frontier of misses it leaves. Siblings without
faults are matched, and no rule has missed behind them. Where there is a fault the grammar
reads on until it meets a directive without a name and never looks behind the marker of the
first one; where all directives have names only a group can be left open, and then every rule
of a slot has missed at the end of the text. -/

namespace InlineScript

namespace Node

def unnamed (n : Node) : Bool := n.kind = .directive && n.name?.all List.isEmpty

/-- The first directive without a name among siblings and below them. -/
def firstUnnamed? (ns : List Node) : Option Node := (walkAll ns).find? unnamed

section
variable {n : Node} {ns : List Node} {name : Text} {position : Position} {children : List Node}

theorem firstUnnamed?_cons (n : Node) (ns : List Node) :
    firstUnnamed? (n :: ns) = (firstUnnamed? [n]).or (firstUnnamed? ns) := by
  simp [firstUnnamed?, List.find?_append]

theorem kind_of_unnamed (h : n.unnamed = true) : n.kind = .directive := by
  simp only [unnamed, Bool.and_eq_true, decide_eq_true_eq] at h
  exact h.1

theorem not_unnamed_of_issue? (h : n.issue? = none) : n.unnamed = false := by
  rw [Bool.eq_false_iff]
  intro unnamed
  simp only [Node.unnamed, Bool.and_eq_true, decide_eq_true_eq] at unnamed
  simp [issue?, unnamed] at h

theorem firstUnnamed?_of_faultless (h : ∀ n ∈ ns, n.Faultless) : firstUnnamed? ns = none := by
  rw [firstUnnamed?, List.find?_eq_none]
  intro m mem
  rw [walkAll_eq_flatMap] at mem
  obtain ⟨n, sibling, below⟩ := List.mem_flatMap.mp mem
  simpa using not_unnamed_of_issue? (h n sibling m below)

theorem firstUnnamed?_below (h : n.unnamed = false) :
    firstUnnamed? [n] = firstUnnamed? n.children := by
  rw [firstUnnamed?, firstUnnamed?, walkAll_cons, walkAll_nil, List.append_nil, walk_eq,
    List.find?_cons_of_neg (by simp [h])]

theorem firstUnnamed?_self (h : n.unnamed = true) : firstUnnamed? [n] = some n := by
  rw [firstUnnamed?, walkAll_cons, walk_eq, List.cons_append, List.find?_cons_of_pos h]

theorem unnamed_directive :
    (mk .directive ('$' :: name) position children).unnamed = name.isEmpty := by
  have named : (mk .directive ('$' :: name) position children).name? = some name := rfl
  simp [unnamed, named]

end

end Node

namespace Grammar

/-- What refuses siblings with a fault in front of `q`: the first missing name among them, or
else the end of the text, at which `q` must be. -/
structure Blames (start : Nat) (ns : List Node) (q : Place) (f : Frontier) : Prop where
  ahead : start ≤ f.offset
  cause : (∃ n, Node.firstUnnamed? ns = some n ∧ f = ⟨n.position.offset + 1, [.name]⟩) ∨
    (Node.firstUnnamed? ns = none ∧ q.rest = [] ∧ f.AtSlot q.offset)

/-- A rule that agrees with a node, and the frontier that it leaves. -/
structure Tracks (rule : (p : Place) → Frontier → Option (Match p) × Frontier)
    (ctx : Context) (p : Place) (n : Node) (q : Place) : Prop extends Agrees rule ctx p n q where
  upto : n.Faultless → ∀ f : Frontier, f.Upto p.offset → (rule p f).2.Upto q.offset
  blames : ¬ n.Faultless → ∀ f : Frontier, f.Upto p.offset →
    Blames (p.offset + 1) [n] q (rule p f).2

structure SlotsTrack (p : Place) (ns : List Node) (q : Place) : Prop extends
    SlotsAgree p ns q where
  atSlot : (∀ n ∈ ns, n.Faultless) → ∀ f : Frontier, f.Upto p.offset →
    (slots p f).2.AtSlot q.offset
  blames : ¬ (∀ n ∈ ns, n.Faultless) → ∀ f : Frontier, f.Upto p.offset →
    Blames p.offset ns q (slots p f).2

structure PiecesTrack (p : Place) (ns : List Node) (stop : Nat) : Prop extends
    PiecesAgree p ns stop where
  blames : ¬ (∀ n ∈ ns, n.Faultless) → ∀ f : Frontier, f.Upto p.offset →
    (pieces p f).1.stop.offset < (pieces p f).2.offset ∧
      Blames p.offset ns ⟨stop, []⟩ (pieces p f).2

section
variable {p q : Place} {n : Node} {ctx : Context}

theorem Tracks.item_directive (h : Tracks directive ctx p n q) (head : p.rest.head? = some '$') :
    Tracks item ctx p n q where
  toAgrees := h.toAgrees.item_directive head
  upto sound f upto := by
    obtain ⟨pair, -, matched⟩ := h.found sound
    rw [snd_item_marker head (by simp [matched])]
    exact h.upto sound f upto
  blames fault f upto := by
    have blames := h.blames fault f upto
    rwa [snd_item_marker head fun _ => blames.ahead]

theorem Tracks.item_group (h : Tracks group ctx p n q) (head : p.rest.head? = some '[') :
    Tracks item ctx p n q where
  toAgrees := h.toAgrees.item_group head
  upto sound f upto := by
    obtain ⟨pair, -, matched⟩ := h.found sound
    rw [snd_item_opener head (by simp [matched])]
    exact h.upto sound _ (upto.note (by decide))
  blames fault f upto := by
    have tried : .directive ∈ Frontier.slotRules := by decide
    have blames := h.blames fault _ (upto.note tried)
    rwa [snd_item_opener head fun _ => blames.ahead]

theorem Tracks.piece_directive (h : Tracks directive ctx p n q)
    (head : p.rest.head? = some '$') : Tracks piece ctx p n q where
  toAgrees := h.toAgrees.piece_directive head
  upto sound f upto := by
    obtain ⟨pair, -, matched⟩ := h.found sound
    rw [snd_piece_marker head (by simp [matched])]
    exact h.upto sound f upto
  blames fault f upto := by
    have blames := h.blames fault f upto
    rwa [snd_piece_marker head fun _ => blames.ahead]

end

section
variable {k : Cursor} {run name t : Text} {ctx : Context}

theorem literal_item_tracks (filled : run ≠ [])
    (plain : ∀ c ∈ run, Context.inside.stops c = false)
    (stopped : ∀ c ∈ t.head?, Context.inside.stops c = true) :
    Tracks item .inside ⟨k.offset, run ++ t⟩ (.leaf .literal run (k.span run))
      ⟨k.offset + run.size, t⟩ where
  toAgrees := literal_item filled plain stopped
  upto _ f upto := by
    have room := Text.size_pos filled
    have first := Frontier.offset_note upto.le .directive
    have second := Frontier.offset_note (Nat.le_of_eq first) .group
    rw [item_eq_slotText (rest_ne_cons (front_ne filled plain rfl))
      (rest_ne_cons (front_ne filled plain rfl)), slotText_eq,
      snd_run (outcome_run _ _ _ _ filled (by simpa using plain) (by simpa using stopped))]
    refine .of_lt ?_
    rw [second]
    exact Nat.lt_add_of_pos_right room
  blames fault := absurd (Node.faultless_leaf.mpr rfl) fault

theorem literal_piece_tracks (filled : run ≠ [])
    (plain : ∀ c ∈ run, Context.outside.stops c = false)
    (stopped : ∀ c ∈ t.head?, Context.outside.stops c = true) :
    Tracks piece .outside ⟨k.offset, run ++ t⟩ (.leaf .literal run (k.span run))
      ⟨k.offset + run.size, t⟩ where
  toAgrees := literal_piece filled plain stopped
  upto _ f upto := by
    have room := Text.size_pos filled
    rw [piece_eq_text (rest_ne_cons (front_ne filled plain rfl)), text_eq,
      snd_run (outcome_run _ _ _ _ filled (by simpa using plain) (by simpa using stopped))]
    refine .of_lt ?_
    rw [Frontier.offset_note upto.le]
    exact Nat.lt_add_of_pos_right room
  blames fault := absurd (Node.faultless_leaf.mpr rfl) fault

theorem lt_offset_marker (k : Cursor) (name : Text) :
    k.offset < (k.advance ('$' :: name)).offset := by
  rw [offset_marker]
  omega

theorem blames_unnamed {f : Frontier} (upto : f.Upto k.offset) {cs : Text}
    (stopped : ∀ c ∈ cs.head?, isNameChar c = false) {children : List Node} (q : Place) :
    Blames (k.offset + 1) [⟨.directive, ['$'], k.span ['$'], children⟩] q
      (directive ⟨k.offset, '$' :: cs⟩ f).2 := by
  rw [snd_directive_unnamed upto.le stopped]
  exact ⟨Nat.le_refl _, .inl ⟨_, Node.firstUnnamed?_self Node.unnamed_directive, rfl⟩⟩

theorem directive_tracks_name (named : ∀ c ∈ name, isNameChar c = true)
    (stopped : ∀ c ∈ t.head?, isNameChar c = false) (bare : ∀ c ∈ t.head?, c ≠ '[') :
    Tracks directive ctx ⟨k.offset, '$' :: (name ++ t)⟩
      (.leaf .directive ('$' :: name) (k.span ('$' :: name)))
      ⟨(k.advance ('$' :: name)).offset, t⟩ where
  toAgrees := directive_agrees_name named stopped bare
  upto sound f upto := by
    have filled : name ≠ [] := Node.issue?_directive.mp (Node.faultless_leaf.mp sound)
    have further : f.offset < (k.advance ('$' :: name)).offset :=
      Nat.lt_of_le_of_lt upto.le (lt_offset_marker k name)
    have ungrouped := group_eq_note (p := ⟨(k.advance ('$' :: name)).offset, t⟩) f
      (rest_ne_cons bare)
    have noted := Frontier.offset_note (Nat.le_of_lt further) .group
    rw [snd_directive_named (name_behind filled named stopped f), ungrouped]
    · exact .note (.of_lt further) (by decide)
    · intro _
      rw [ungrouped, noted]
      exact lt_offset_marker k name
  blames fault f upto := by
    obtain rfl : name = [] := by
      by_contra filled
      exact fault (Node.faultless_leaf.mpr (Node.issue?_directive.mpr filled))
    exact blames_unnamed upto stopped _

variable {g : Group} {rest : Text} {children : List Node}

theorem group_tracks (fits : g.Fits rest) (limit : g.closed = true ∨ t = [])
    (inner : SlotsTrack ⟨k.offset + 1, g.inner ++ (g.closing ++ t)⟩ children
      ⟨k.offset + 1 + g.inner.size, g.closing ++ t⟩) :
    Tracks group ctx ⟨k.offset, g.content ++ t⟩ (g.node k children)
      ⟨k.offset + g.content.size, t⟩ := by
  have whole : g.content ++ t = '[' :: (g.inner ++ (g.closing ++ t)) := by
    simp [Group.content_eq]
  have size : k.offset + g.content.size = k.offset + 1 + g.inner.size + g.closing.size := by
    rw [Group.content_eq, Text.size_cons, Text.size_append]
    simp only [Nat.add_assoc]
    rfl
  have stop (nothing : g.closing = []) :
      k.offset + g.content.size = (Place.mk (k.offset + 1 + g.inner.size) (g.closing ++ t)).offset := by
    rw [size, nothing]
    rfl
  have group : (g.node k children).unnamed = false := by simp [Node.unnamed, Group.node]
  refine ⟨group_agrees fits limit inner.toSlotsAgree, ?_, ?_⟩
  · intro sound f upto
    obtain ⟨issue, below⟩ := Node.faultless_iff.mp sound
    have closing := Group.closing_of_fits fits (Group.issue?_node.mp issue)
    have atSlot := inner.atSlot below f (.of_lt (Nat.lt_succ_of_le upto.le))
    rw [whole, snd_group]
    · refine .of_lt ?_
      rw [atSlot.here, size, closing]
      exact Nat.lt_succ_self _
    · rw [atSlot.here]
      change k.offset < k.offset + 1 + g.inner.size
      omega
  · intro fault f upto
    have inside : f.Upto (k.offset + 1) := .of_lt (Nat.lt_succ_of_le upto.le)
    have blames : Blames (k.offset + 1) children ⟨k.offset + g.content.size, t⟩
        (slots ⟨k.offset + 1, g.inner ++ (g.closing ++ t)⟩ f).2 := by
      by_cases below : ∀ n ∈ children, n.Faultless
      -- Only the closing bracket can be missing, and then the text ends with the group.
      · have unclosed : ¬ g.closed = true := fun closed =>
          fault (Node.faultless_iff.mpr ⟨Group.issue?_node.mpr closed, below⟩)
        have closing := Group.closing_of_unclosed (by simpa using unclosed)
        have atSlot := inner.atSlot below f inside
        refine ⟨?_, .inr ⟨Node.firstUnnamed?_of_faultless below, limit.resolve_left unclosed, ?_⟩⟩
        · rw [atSlot.here]
          exact Nat.le_add_right _ _
        · rwa [← stop closing] at atSlot
      · obtain ⟨ahead, named | ⟨all, last, atSlot⟩⟩ := inner.blames below f inside
        · exact ⟨ahead, .inl named⟩
        · obtain ⟨closing, nothing⟩ := List.append_eq_nil_iff.mp last
          rw [← stop closing] at atSlot
          exact ⟨ahead, .inr ⟨all, nothing, atSlot⟩⟩
    rw [whole, snd_group blames.ahead]
    obtain ⟨ahead, cause⟩ := blames
    exact ⟨ahead, by rwa [Node.firstUnnamed?_below group]⟩

theorem directive_tracks_call {q : Place} (named : ∀ c ∈ name, isNameChar c = true)
    (call : Tracks group .inside ⟨(k.advance ('$' :: name)).offset, g.content ++ t⟩
      (g.node (k.advance ('$' :: name)) children) q)
    (stop : q.offset = (k.advance ('$' :: name)).offset + g.content.size) :
    Tracks directive ctx ⟨k.offset, '$' :: (name ++ (g.content ++ t))⟩
      ⟨.directive, '$' :: name, k.span ('$' :: name),
        [g.node (k.advance ('$' :: name)) children]⟩ q := by
  have stopped := g.ends_name t
  refine ⟨directive_agrees_call named call.toAgrees stop, ?_, ?_⟩
  · intro sound f upto
    obtain ⟨issue, below⟩ := Node.faultless_iff.mp sound
    have filled := Node.issue?_directive.mp issue
    have inner := below _ List.mem_cons_self
    obtain ⟨pair, -, matched⟩ := call.found inner
    rw [snd_directive_named (name_behind filled named stopped f) (by simp [matched])]
    exact call.upto inner f (.of_lt (Nat.lt_of_le_of_lt upto.le (lt_offset_marker k name)))
  · intro fault f upto
    by_cases filled : name = []
    · subst filled
      exact blames_unnamed upto stopped _
    · have faulty : ¬ (g.node (k.advance ('$' :: name)) children).Faultless := by
        intro sound
        refine fault (Node.faultless_iff.mpr ⟨Node.issue?_directive.mpr filled, ?_⟩)
        simpa using sound
      have further := lt_offset_marker k name
      obtain ⟨ahead, cause⟩ := call.blames faulty f (.of_lt (Nat.lt_of_le_of_lt upto.le further))
      have beyond : k.offset + 1 ≤ _ := Nat.le_trans further (Nat.le_of_succ_le ahead)
      rw [snd_directive_named (name_behind filled named stopped f) fun _ => beyond]
      refine ⟨beyond, ?_⟩
      rwa [Node.firstUnnamed?_below (by rw [Node.unnamed_directive]; simpa using filled)]

end

section
variable {p q m : Place} {n : Node} {ns : List Node}

theorem Blames.skip {start mid : Nat} {f : Frontier} (sound : n.Faultless) (le : start ≤ mid)
    (h : Blames mid ns q f) : Blames start (n :: ns) q f := by
  have none_here := Node.firstUnnamed?_of_faultless (List.forall_mem_singleton.mpr sound)
  have same : Node.firstUnnamed? (n :: ns) = Node.firstUnnamed? ns := by
    rw [Node.firstUnnamed?_cons, none_here, Option.none_or]
  exact ⟨Nat.le_trans le h.ahead, by rw [same]; exact h.cause⟩

theorem Blames.cons {start : Nat} {f : Frontier} (h : Blames start [n] m f)
    (finish : m.rest = [] → ns = [] ∧ q = m) : Blames start (n :: ns) q f := by
  obtain ⟨ahead, ⟨d, first, same⟩ | ⟨all, last, atSlot⟩⟩ := h
  · refine ⟨ahead, .inl ⟨d, ?_, same⟩⟩
    rw [Node.firstUnnamed?_cons, first, Option.some_or]
  · obtain ⟨rfl, rfl⟩ := finish last
    exact ⟨ahead, .inr ⟨all, last, atSlot⟩⟩

theorem Blames.weaken {start mid : Nat} {f : Frontier} (h : Blames mid ns q f) (le : start ≤ mid) :
    Blames start ns q f :=
  ⟨Nat.le_trans le h.ahead, h.cause⟩

theorem SlotsTrack.cons (first : Tracks item .inside p n m) (kind : n.kind ≠ .separator)
    (head : ∀ c ∈ p.rest.head?, c ≠ ';' ∧ c ≠ ']') (forward : p.offset ≤ m.offset)
    (finish : m.rest = [] → ns = [] ∧ q = m) (more : SlotsTrack m ns q) :
    SlotsTrack p (n :: ns) q where
  toSlotsAgree := .cons first.toAgrees kind head more.toSlotsAgree
  atSlot sound f upto := by
    obtain ⟨here, others⟩ := List.forall_mem_cons.mp sound
    obtain ⟨pair, -, matched⟩ := first.found here
    rw [(slots_item f (matched f)).2]
    exact more.atSlot others _ (first.upto here f upto)
  blames fault f upto := by
    by_cases here : n.Faultless
    · obtain ⟨pair, -, matched⟩ := first.found here
      have later : ¬ ∀ n ∈ ns, n.Faultless :=
        fun others => fault (List.forall_mem_cons.mpr ⟨here, others⟩)
      rw [(slots_item f (matched f)).2]
      exact (more.blames later _ (first.upto here f upto)).skip here forward
    · rw [(slots_none f (first.missed here f) (rest_ne_cons fun c hc => (head c hc).1)).2]
      exact ((first.blames here f upto).cons finish).weaken (Nat.le_succ _)

theorem SlotsTrack.separator {k : Cursor} {t : Text}
    (more : SlotsTrack ⟨k.offset + 1, t⟩ ns q) :
    SlotsTrack ⟨k.offset, ';' :: t⟩ (.leaf .separator [';'] (k.span [';']) :: ns) q := by
  have missing (f : Frontier) : outcome (item ⟨k.offset, ';' :: t⟩ f) = none :=
    item_none_of_ends (by simp) f
  have noted (f : Frontier) (upto : f.Upto k.offset) :
      (item ⟨k.offset, ';' :: t⟩ f).2.Upto (k.offset + 1) := by
    have atSlot := atSlot_item (p := ⟨k.offset, ';' :: t⟩) upto (by simp)
    exact .of_lt (Nat.lt_succ_of_le atSlot.upto.le)
  have plain : (Node.leaf .separator [';'] (k.span [';'])).Faultless := Node.faultless_leaf.mpr rfl
  refine ⟨.separator more.toSlotsAgree, ?_, ?_⟩
  · intro sound f upto
    obtain ⟨-, others⟩ := List.forall_mem_cons.mp sound
    rw [(slots_separator f (missing f)).2]
    exact more.atSlot others _ (noted f upto)
  · intro fault f upto
    have later : ¬ ∀ n ∈ ns, n.Faultless :=
      fun others => fault (List.forall_mem_cons.mpr ⟨plain, others⟩)
    rw [(slots_separator f (missing f)).2]
    exact (more.blames later _ (noted f upto)).skip plain (Nat.le_succ _)

theorem SlotsTrack.nil (h : ∀ c ∈ q.rest.head?, c = ']') : SlotsTrack q [] q where
  toSlotsAgree := .nil h
  atSlot _ f upto := by
    have last : ∀ cs, q.rest ≠ ';' :: cs := by
      refine rest_ne_cons ?_
      intro c hc
      rw [h c hc]
      decide
    have ends : ∀ c ∈ q.rest.head?, c = ';' ∨ c = ']' := fun c hc => .inr (h c hc)
    rw [(slots_none f (item_none_of_ends ends f) last).2]
    exact atSlot_item upto ends
  blames fault := by simp at fault

theorem PiecesTrack.cons {stop : Nat} (first : Tracks piece .outside p n m)
    (filled : p.rest ≠ []) (forward : p.offset ≤ m.offset)
    (finish : m.rest = [] → ns = [] ∧ ⟨stop, []⟩ = m) (more : PiecesTrack m ns stop) :
    PiecesTrack p (n :: ns) stop where
  toPiecesAgree := .cons first.toAgrees filled more.toPiecesAgree
  blames fault f upto := by
    by_cases here : n.Faultless
    · obtain ⟨pair, -, matched⟩ := first.found here
      obtain ⟨step, same⟩ := pieces_piece f (matched f)
      have stop : (pieces p f).1.stop = (pieces m _).1.stop := congrArg Prod.snd step
      have later : ¬ ∀ n ∈ ns, n.Faultless :=
        fun others => fault (List.forall_mem_cons.mpr ⟨here, others⟩)
      obtain ⟨behind, blames⟩ := more.blames later _ (first.upto here f upto)
      rw [stop, same]
      exact ⟨behind, blames.skip here forward⟩
    · have blames := first.blames here f upto
      obtain ⟨step, same⟩ := pieces_none f (first.missed here f)
      have stop : (pieces p f).1.stop = p := congrArg Prod.snd step
      rw [stop, same]
      exact ⟨blames.ahead, (blames.cons finish).weaken (Nat.le_succ _)⟩

theorem PiecesTrack.nil (offset : Nat) : PiecesTrack ⟨offset, []⟩ [] offset where
  toPiecesAgree := .nil offset
  blames fault := by simp at fault

end

theorem finish_sequence {ctx : Context} {rest after : Text} {k : Cursor} (h : rest ++ after = []) :
    (sequence ctx rest k).nodes = [] ∧
      (⟨(k.advance rest).offset, after⟩ : Place) = ⟨k.offset, rest ++ after⟩ := by
  obtain ⟨rfl, rfl⟩ := List.append_eq_nil_iff.mp h
  exact ⟨by rw [sequence_nil], rfl⟩

theorem finish_pieces {ctx : Context} {rest : Text} {k : Cursor} (h : rest = []) :
    (sequence ctx rest k).nodes = [] ∧
      (⟨(k.advance rest).offset, []⟩ : Place) = ⟨k.offset, rest⟩ := by
  subst h
  exact ⟨by rw [sequence_nil], rfl⟩

theorem slots_track {ctx : Context} {slice : Text} (pieces : Stretch ctx slice)
    (inside : ctx = .inside) {after : Text} (enclosed : Enclosed slice after) (k : Cursor) :
    SlotsTrack ⟨k.offset, slice ++ after⟩ (sequence ctx slice k).nodes
      ⟨(k.advance slice).offset, after⟩ := by
  -- The bound on the slice carries the induction: it is kept behind every piece, and the
  -- inside of a group is bounded by the bracket that closes it or by the end of the text.
  induction pieces generalizing after k with
  | nil =>
    rw [sequence_nil]
    exact SlotsTrack.nil (q := ⟨k.offset, after⟩) enclosed.head?_after
  | @literal ctx run rest filled plain stopped _ ih =>
    subst inside
    have more := enclosed.skip (bracketless_of_plain plain)
    have limit := more.forall_head? stopped (by decide)
    rw [sequence_literal k filled plain stopped, List.append_assoc, ← Cursor.advance_advance]
    refine .cons (literal_item_tracks filled plain limit) (by simp [Node.leaf]) ?_
      (Nat.le_add_right _ _) finish_sequence (ih rfl more (k.advance run))
    intro c hc
    exact ⟨front_ne filled plain rfl c hc, front_ne filled plain rfl c hc⟩
  | @separator rest _ ih =>
    have more : Enclosed rest after := Enclosed.skip bracketless_separator enclosed
    have others := ih rfl more (k.advance [';'])
    rw [Cursor.advance_advance] at others
    rw [sequence_separator]
    exact .separator others
  | closer => exact absurd enclosed Enclosed.not_closer
  | @directive ctx name rest named stopped bare _ ih =>
    rw [← List.cons_append] at enclosed
    have more := enclosed.skip (bracketless_of_named named)
    have first : Tracks directive .inside _ _ _ :=
      directive_tracks_name (k := k) named (more.forall_head? stopped (by decide))
        (more.forall_head? bare (by decide))
    rw [sequence_name k named stopped bare, ← List.cons_append, List.append_assoc,
      List.cons_append, ← Cursor.advance_advance]
    exact .cons (first.item_directive rfl) (by simp [Node.leaf]) (by simp)
      (Nat.le_add_right _ _) finish_sequence (ih inside more (k.advance ('$' :: name)))
  | @call ctx name rest g named fits _ _ ihInner ih =>
    rw [← List.cons_append] at enclosed
    have called := enclosed.skip (bracketless_of_named named)
    have limit := called.closed_or fits
    have inner := ihInner rfl (Enclosed.enter fits limit) (Group.enter (k.advance ('$' :: name)))
    have call : Tracks group .inside _ _ _ := group_tracks fits limit inner
    have first : Tracks directive .inside _ _ _ := directive_tracks_call named call rfl
    have further := lt_offset_marker k name
    rw [sequence_call k named fits, ← List.cons_append, List.append_assoc, List.append_assoc,
      List.cons_append, ← Cursor.advance_advance, ← Cursor.advance_advance]
    refine .cons (first.item_directive rfl) (by simp) (by simp) ?_ finish_sequence
      (ih inside (called.leave fits) ((k.advance ('$' :: name)).advance g.content))
    exact Nat.le_trans (Nat.le_of_lt further) (Nat.le_add_right _ _)
  | @group rest g fits _ _ ihInner ih =>
    have limit := enclosed.closed_or fits
    have inner := ihInner rfl (Enclosed.enter fits limit) (Group.enter k)
    have first : Tracks group .inside _ _ _ := group_tracks fits limit inner
    rw [sequence_bracket k fits, List.append_assoc, ← Cursor.advance_advance]
    exact .cons (first.item_group rfl) (by simp [Group.node]) (by simp [Group.content])
      (Nat.le_add_right _ _) finish_sequence (ih rfl (enclosed.leave fits) (k.advance g.content))

theorem pieces_track {ctx : Context} {slice : Text} (pieces : Stretch ctx slice)
    (outside : ctx = .outside) (k : Cursor) :
    PiecesTrack ⟨k.offset, slice⟩ (sequence ctx slice k).nodes (k.advance slice).offset := by
  induction pieces generalizing k with
  | nil =>
    rw [sequence_nil]
    exact .nil k.offset
  | @literal ctx run rest filled plain stopped _ ih =>
    subst outside
    rw [sequence_literal k filled plain stopped, ← Cursor.advance_advance]
    exact .cons (literal_piece_tracks filled plain stopped) (by simp [filled])
      (Nat.le_add_right _ _) finish_pieces (ih rfl (k.advance run))
  | separator => cases outside
  | closer => cases outside
  | @directive ctx name rest named stopped bare _ ih =>
    have first : Tracks directive .outside _ _ _ :=
      directive_tracks_name (k := k) named stopped bare
    rw [sequence_name k named stopped bare, ← List.cons_append, ← Cursor.advance_advance]
    exact .cons (first.piece_directive rfl) (by simp) (Nat.le_add_right _ _) finish_pieces
      (ih outside (k.advance ('$' :: name)))
  | @call ctx name rest g named fits inner _ _ ih =>
    have limit := fits.closed_or
    have slots := slots_track inner rfl (Enclosed.enter fits limit)
      (Group.enter (k.advance ('$' :: name)))
    have call : Tracks group .inside _ _ _ := group_tracks fits limit slots
    have first : Tracks directive .outside _ _ _ := directive_tracks_call named call rfl
    have further := lt_offset_marker k name
    rw [sequence_call k named fits, ← List.cons_append, ← Cursor.advance_advance,
      ← Cursor.advance_advance]
    refine .cons (first.piece_directive rfl) (by simp) ?_ finish_pieces
      (ih outside ((k.advance ('$' :: name)).advance g.content))
    exact Nat.le_trans (Nat.le_of_lt further) (Nat.le_add_right _ _)
  | group => cases outside

end Grammar

end InlineScript
