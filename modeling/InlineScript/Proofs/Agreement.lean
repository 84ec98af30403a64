import InlineScript.Proofs.Image

/-! Where the grammar and the builder agree on a node and on siblings. The grammar finds
where a group ends while it reads on, the builder looks for the end first and reads the
slice in between. Where a node has no fault the rule for it matches, over the extent of
the node and with the pairs of the node; where it has one the rule fails, and nothing tried
after it gets any further. -/

namespace InlineScript.Grammar

/-- What a rule finds at `p` is the node `n`, with `q` behind it. -/
structure Agrees (rule : (p : Place) → Frontier → Option (Match p) × Frontier)
    (ctx : Context) (p : Place) (n : Node) (q : Place) : Prop where
  found : n.Faultless → ∃ pair, n.pairs ctx = [pair] ∧ ∀ f, outcome (rule p f) = some (pair, q)
  missed : ¬ n.Faultless → ∀ f, outcome (rule p f) = none

structure SlotsAgree (p : Place) (ns : List Node) (q : Place) : Prop where
  found : (∀ n ∈ ns, n.Faultless) →
    ∀ f, spread (slots p f) = (Node.slotPairs p.offset q.offset ns, q)
  missed : ¬ (∀ n ∈ ns, n.Faultless) → ∀ f rest, (slots p f).1.stop.rest ≠ ']' :: rest

structure PiecesAgree (p : Place) (ns : List Node) (stop : Nat) : Prop where
  found : (∀ n ∈ ns, n.Faultless) →
    ∀ f, spread (pieces p f) = (ns.flatMap (Node.pairs .outside), ⟨stop, []⟩)
  missed : ¬ (∀ n ∈ ns, n.Faultless) → ∀ f, (pieces p f).1.stop.rest ≠ []

theorem front_ne {ctx : Context} {run t : Text} (filled : run ≠ [])
    (plain : ∀ c ∈ run, ctx.stops c = false) {c : Char} (stop : ctx.stops c = true) :
    ∀ d ∈ (run ++ t).head?, d ≠ c := by
  obtain ⟨d, ds, rfl⟩ := List.exists_cons_of_ne_nil filled
  intro e he same
  obtain rfl : d = e := by simpa using he
  have literal := plain d List.mem_cons_self
  rw [same, stop] at literal
  simp at literal

section
variable {p q : Place} {n : Node} {ctx : Context}

theorem Agrees.item_directive (h : Agrees directive ctx p n q) (head : p.rest.head? = some '$') :
    Agrees item ctx p n q where
  found sound := by
    obtain ⟨pair, one, matched⟩ := h.found sound
    exact ⟨pair, one, fun f => Grammar.item_directive f matched⟩
  missed fault f := by
    refine item_none f (h.missed fault) (fun f => group_none f (rest_ne_cons ?_)) ?_
    · simp [head]
    · simp [head, Context.stops_inside_iff]

theorem Agrees.item_group (h : Agrees group ctx p n q) (head : p.rest.head? = some '[') :
    Agrees item ctx p n q where
  found sound := by
    obtain ⟨pair, one, matched⟩ := h.found sound
    exact ⟨pair, one, fun f => Grammar.item_group f
      (fun f => directive_none f (rest_ne_cons (by simp [head]))) matched⟩
  missed fault f := by
    refine item_none f (fun f => directive_none f (rest_ne_cons ?_)) (h.missed fault) ?_
    · simp [head]
    · simp [head, Context.stops_inside_iff]

theorem Agrees.piece_directive (h : Agrees directive ctx p n q)
    (head : p.rest.head? = some '$') : Agrees piece ctx p n q where
  found sound := by
    obtain ⟨pair, one, matched⟩ := h.found sound
    exact ⟨pair, one, fun f => Grammar.piece_directive f matched⟩
  missed fault f := by
    refine piece_none f (h.missed fault) ?_
    simp [head, Context.stops_outside_iff]

end

section
variable {k : Cursor} {run name t : Text} {ctx : Context}

theorem literal_item (filled : run ≠ []) (plain : ∀ c ∈ run, Context.inside.stops c = false)
    (stopped : ∀ c ∈ t.head?, Context.inside.stops c = true) :
    Agrees item .inside ⟨k.offset, run ++ t⟩ (.leaf .literal run (k.span run))
      ⟨k.offset + run.size, t⟩ where
  found _ := by
    refine ⟨⟨.slotText, k.offset, k.offset + run.size, []⟩, by rw [Node.pairs]; rfl, ?_⟩
    intro f
    obtain ⟨g, same⟩ := item_slotText (p := ⟨k.offset, run ++ t⟩) f
      (fun f => directive_none f (rest_ne_cons (front_ne filled plain rfl)))
      (fun f => group_none f (rest_ne_cons (front_ne filled plain rfl)))
    rw [same, slotText_eq]
    exact outcome_run _ _ _ _ filled (by simpa using plain) (by simpa using stopped)
  missed fault := absurd (Node.faultless_leaf.mpr rfl) fault

theorem literal_piece (filled : run ≠ []) (plain : ∀ c ∈ run, Context.outside.stops c = false)
    (stopped : ∀ c ∈ t.head?, Context.outside.stops c = true) :
    Agrees piece .outside ⟨k.offset, run ++ t⟩ (.leaf .literal run (k.span run))
      ⟨k.offset + run.size, t⟩ where
  found _ := by
    refine ⟨⟨.text, k.offset, k.offset + run.size, []⟩, by rw [Node.pairs]; rfl, ?_⟩
    intro f
    obtain ⟨g, same⟩ := piece_text (p := ⟨k.offset, run ++ t⟩) f
      (fun f => directive_none f (rest_ne_cons (front_ne filled plain rfl)))
    rw [same, text_eq]
    exact outcome_run _ _ _ _ filled (by simpa using plain) (by simpa using stopped)
  missed fault := absurd (Node.faultless_leaf.mpr rfl) fault

theorem offset_marker (k : Cursor) (name : Text) :
    (k.advance ('$' :: name)).offset = k.offset + 1 + name.size := by
  rw [Nat.add_assoc]
  rfl

theorem name_behind (filled : name ≠ []) (named : ∀ c ∈ name, isNameChar c = true)
    (stopped : ∀ c ∈ t.head?, isNameChar c = false) (f : Frontier) :
    outcome (Grammar.name ⟨k.offset + 1, name ++ t⟩ f) =
      some (⟨.name, k.offset + 1, (k.advance ('$' :: name)).offset, []⟩,
        ⟨(k.advance ('$' :: name)).offset, t⟩) := by
  rw [name_eq, offset_marker]
  exact outcome_run _ _ _ _ filled named stopped

theorem unnamed_directive (stopped : ∀ c ∈ t.head?, isNameChar c = false) (f : Frontier) :
    outcome (directive ⟨k.offset, '$' :: t⟩ f) = none := by
  refine directive_unnamed f ?_
  intro f
  rw [name_eq]
  exact outcome_run_none _ _ _ _ stopped

theorem directive_agrees_name (named : ∀ c ∈ name, isNameChar c = true)
    (stopped : ∀ c ∈ t.head?, isNameChar c = false) (bare : ∀ c ∈ t.head?, c ≠ '[') :
    Agrees directive ctx ⟨k.offset, '$' :: (name ++ t)⟩
      (.leaf .directive ('$' :: name) (k.span ('$' :: name)))
      ⟨(k.advance ('$' :: name)).offset, t⟩ where
  found sound := by
    have filled : name ≠ [] := Node.issue?_directive.mp (Node.faultless_leaf.mp sound)
    refine ⟨_, by rw [Node.pairs]; rfl, ?_⟩
    intro f
    exact directive_bare f (name_behind filled named stopped)
      (fun f => group_none f (rest_ne_cons bare)) (rest_ne_cons bare)
  missed fault f := by
    have empty : name = [] := by
      by_contra filled
      exact fault (Node.faultless_leaf.mpr (Node.issue?_directive.mpr filled))
    rw [empty]
    exact unnamed_directive stopped f

variable {g : Group} {rest : Text} {children : List Node}

theorem group_agrees (fits : g.Fits rest) (limit : g.closed = true ∨ t = [])
    (inner : SlotsAgree ⟨k.offset + 1, g.inner ++ (g.closing ++ t)⟩ children
      ⟨k.offset + 1 + g.inner.size, g.closing ++ t⟩) :
    Agrees group ctx ⟨k.offset, g.content ++ t⟩ (g.node k children)
      ⟨k.offset + g.content.size, t⟩ := by
  have whole : g.content ++ t = '[' :: (g.inner ++ (g.closing ++ t)) := by
    simp [Group.content_eq]
  rw [whole]
  constructor
  · intro sound
    obtain ⟨issue, below⟩ := Node.faultless_iff.mp sound
    have closed := Group.issue?_node.mp issue
    have stop : k.offset + g.content.size = k.offset + 1 + g.inner.size + 1 := by
      rw [Group.content_eq, Group.closing_of_fits fits closed, Text.size_cons, Text.size_append]
      simp only [Nat.add_assoc]
      rfl
    have found := inner.found below
    rw [Group.closing_of_fits fits closed] at found ⊢
    have pair : (g.node k children).pairs ctx =
        [⟨.group, k.offset, k.offset + g.content.size,
          Node.slotPairs (k.offset + 1) (k.offset + g.content.size - 1) children⟩] :=
      Node.pairs_group rfl
    rw [stop, Nat.add_sub_cancel] at pair
    rw [stop]
    exact ⟨_, pair, fun f => group_closed f found⟩
  · intro fault f
    refine group_unclosed f ?_
    by_cases below : ∀ n ∈ children, n.Faultless
    -- Only the closing bracket can be missing, and then the text ends with the group.
    · intro f rest same
      have stop : (slots ⟨k.offset + 1, g.inner ++ (g.closing ++ t)⟩ f).1.stop = _ :=
        congrArg Prod.snd (inner.found below f)
      have unclosed : ¬ g.closed = true := fun closed =>
        fault (Node.faultless_iff.mpr ⟨Group.issue?_node.mpr closed, below⟩)
      have nothing := limit.resolve_left unclosed
      rw [stop, Group.closing_of_unclosed (by simpa using unclosed), nothing] at same
      simp at same
    · exact inner.missed below

theorem directive_agrees_call {q : Place} (named : ∀ c ∈ name, isNameChar c = true)
    (call : Agrees group .inside ⟨(k.advance ('$' :: name)).offset, g.content ++ t⟩
      (g.node (k.advance ('$' :: name)) children) q)
    (stop : q.offset = (k.advance ('$' :: name)).offset + g.content.size) :
    Agrees directive ctx ⟨k.offset, '$' :: (name ++ (g.content ++ t))⟩
      ⟨.directive, '$' :: name, k.span ('$' :: name),
        [g.node (k.advance ('$' :: name)) children]⟩ q := by
  have stopped := g.ends_name t
  constructor
  · intro sound
    obtain ⟨issue, below⟩ := Node.faultless_iff.mp sound
    have filled := Node.issue?_directive.mp issue
    obtain ⟨pair, one, found⟩ := call.found (below _ List.mem_cons_self)
    refine ⟨⟨.directive, k.offset, q.offset,
      [⟨.name, k.offset + 1, (k.advance ('$' :: name)).offset, []⟩, pair]⟩, ?_, ?_⟩
    · rw [Node.pairs, stop]
      simp only [List.flatMap_cons, one]
      rfl
    · intro f
      exact directive_called f (name_behind filled named stopped) found
  · intro fault f
    by_cases filled : name = []
    · subst filled
      exact unnamed_directive stopped f
    · have faulty : ¬ (g.node (k.advance ('$' :: name)) children).Faultless := by
        intro sound
        refine fault (Node.faultless_iff.mpr ⟨Node.issue?_directive.mpr filled, ?_⟩)
        simpa using sound
      exact directive_uncalled f (name_behind filled named stopped) (call.missed faulty)
        (by simp [Group.content])

end

section
variable {p q m : Place} {n : Node} {ns : List Node}

theorem SlotsAgree.cons (first : Agrees item .inside p n m) (kind : n.kind ≠ .separator)
    (head : ∀ c ∈ p.rest.head?, c ≠ ';' ∧ c ≠ ']') (more : SlotsAgree m ns q) :
    SlotsAgree p (n :: ns) q where
  found sound f := by
    obtain ⟨here, others⟩ := List.forall_mem_cons.mp sound
    obtain ⟨pair, one, matched⟩ := first.found here
    have step := (slots_item f (matched f)).1
    rw [step, more.found others, Node.slotPairs_cons _ _ _ m.offset kind one]
    rfl
  missed fault f rest := by
    by_cases here : n.Faultless
    · obtain ⟨pair, one, matched⟩ := first.found here
      have step := (slots_item f (matched f)).1
      have stop : (slots p f).1.stop = (slots m _).1.stop := congrArg Prod.snd step
      rw [stop]
      exact more.missed (fun others => fault (List.forall_mem_cons.mpr ⟨here, others⟩)) _ rest
    · have bare := rest_ne_cons fun c hc => (head c hc).1
      have step := (slots_none f (first.missed here f) bare).1
      have stop : (slots p f).1.stop = p := congrArg Prod.snd step
      rw [stop]
      exact rest_ne_cons (fun c hc => (head c hc).2) rest

theorem SlotsAgree.separator {k : Cursor} {t : Text}
    (more : SlotsAgree ⟨k.offset + 1, t⟩ ns q) :
    SlotsAgree ⟨k.offset, ';' :: t⟩ (.leaf .separator [';'] (k.span [';']) :: ns) q := by
  have missing (f : Frontier) : outcome (item ⟨k.offset, ';' :: t⟩ f) = none :=
    item_none_of_ends (by simp) f
  constructor
  · intro sound f
    obtain ⟨-, others⟩ := List.forall_mem_cons.mp sound
    have step := (slots_separator f (missing f)).1
    rw [step, more.found others, Node.slotPairs_separator _ _ _ rfl]
    rfl
  · intro fault f rest
    have step := (slots_separator f (missing f)).1
    have stop : (slots ⟨k.offset, ';' :: t⟩ f).1.stop = (slots ⟨k.offset + 1, t⟩ _).1.stop :=
      congrArg Prod.snd step
    rw [stop]
    refine more.missed (fun others => fault (List.forall_mem_cons.mpr ⟨?_, others⟩)) _ rest
    exact Node.faultless_leaf.mpr rfl

theorem SlotsAgree.nil (h : ∀ c ∈ q.rest.head?, c = ']') : SlotsAgree q [] q where
  found _ f := by
    have last : ∀ cs, q.rest ≠ ';' :: cs := by
      refine rest_ne_cons ?_
      intro c hc
      rw [h c hc]
      decide
    have missing := item_none_of_ends (fun c hc => .inr (h c hc)) f
    rw [Node.slotPairs_nil]
    exact (slots_none f missing last).1
  missed fault := by simp at fault

theorem PiecesAgree.cons {stop : Nat} (first : Agrees piece .outside p n m)
    (filled : p.rest ≠ []) (more : PiecesAgree m ns stop) : PiecesAgree p (n :: ns) stop where
  found sound f := by
    obtain ⟨here, others⟩ := List.forall_mem_cons.mp sound
    obtain ⟨pair, one, matched⟩ := first.found here
    have step := (pieces_piece f (matched f)).1
    rw [step, more.found others, List.flatMap_cons, one]
    rfl
  missed fault f := by
    by_cases here : n.Faultless
    · obtain ⟨pair, one, matched⟩ := first.found here
      have step := (pieces_piece f (matched f)).1
      have stop : (pieces p f).1.stop = (pieces m _).1.stop := congrArg Prod.snd step
      rw [stop]
      exact more.missed (fun others => fault (List.forall_mem_cons.mpr ⟨here, others⟩)) _
    · have stop : (pieces p f).1.stop = p :=
        congrArg Prod.snd (pieces_none f (first.missed here f)).1
      rwa [stop]

theorem PiecesAgree.nil (offset : Nat) : PiecesAgree ⟨offset, []⟩ [] offset where
  found _ f := by
    refine (pieces_none f (piece_none f (fun f => directive_none f (by simp)) ?_)).1
    simp
  missed fault := by simp at fault

end

end InlineScript.Grammar
