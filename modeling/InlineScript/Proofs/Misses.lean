import InlineScript.Proofs.Rules

/-! What the rules of the grammar leave on the frontier of misses. A rule that is tried at a
place and misses at once is noted there; one that misses behind the frontier changes nothing,
which is why backtracking over a long stretch cannot move the place that is blamed in the
end. A match keeps what was noted on the way to it. -/

namespace InlineScript.Grammar

namespace Frontier

variable {f : Frontier} {rule : Rule} {offset : Nat}

def note (f : Frontier) (rule : Rule) (offset : Nat) : Frontier :=
  f.miss rule offset (f.count offset)

theorem miss_behind (h : offset < f.offset) (rule : Rule) (entry : Nat) :
    f.miss rule offset entry = f := by
  have elsewhere : f.count offset = 0 := by
    rw [count, if_neg (by omega)]
  rw [miss, elsewhere, if_neg (by omega), if_pos h]

theorem note_behind (h : offset < f.offset) (rule : Rule) : f.note rule offset = f :=
  miss_behind h rule _

theorem note_here (h : f.offset = offset) (rule : Rule) :
    f.note rule offset = ⟨offset, f.rules ++ [rule]⟩ := by
  have noted : f.count offset = f.rules.length := if_pos h
  rw [note, noted, miss, noted, if_neg (by omega), if_neg (by omega), if_pos h.symm,
    List.take_length]

theorem note_ahead (h : f.offset < offset) (rule : Rule) :
    f.note rule offset = ⟨offset, [rule]⟩ := by
  have none_noted : f.count offset = 0 := if_neg (by omega)
  rw [note, none_noted, miss, none_noted, if_neg (by omega), if_neg (by omega),
    if_neg (by omega)]

theorem offset_note (h : f.offset ≤ offset) (rule : Rule) :
    (f.note rule offset).offset = offset := by
  obtain ahead | here := Nat.lt_or_eq_of_le h
  · rw [note_ahead ahead]
  · rw [note_here here]

def slotRules : List Rule := [.directive, .group, .slotText]

/-- Nothing has been noted behind `offset`, and only rules of a slot there. -/
structure Upto (offset : Nat) (f : Frontier) : Prop where
  le : f.offset ≤ offset
  known : f.offset = offset → ∀ rule ∈ f.rules, rule ∈ slotRules

/-- All the rules of a slot have missed at `offset`, and no others. -/
structure AtSlot (offset : Nat) (f : Frontier) : Prop where
  here : f.offset = offset
  rules : ∀ rule, rule ∈ f.rules ↔ rule ∈ slotRules

theorem Upto.of_lt (h : f.offset < offset) : f.Upto offset :=
  ⟨Nat.le_of_lt h, fun here => absurd here (Nat.ne_of_lt h)⟩

theorem Upto.note (h : f.Upto offset) (slot : rule ∈ slotRules) :
    (f.note rule offset).Upto offset := by
  refine ⟨Nat.le_of_eq (offset_note h.le rule), ?_⟩
  intro _ other mem
  obtain ahead | here := Nat.lt_or_eq_of_le h.le
  · rw [note_ahead ahead] at mem
    rwa [List.mem_singleton.mp mem]
  · rw [note_here here, List.mem_append] at mem
    obtain old | new := mem
    · exact h.known here other old
    · rwa [List.mem_singleton.mp new]

theorem AtSlot.upto (h : f.AtSlot offset) : f.Upto offset :=
  ⟨Nat.le_of_eq h.here, fun _ rule mem => (h.rules rule).mp mem⟩

theorem AtSlot.expected (h : f.AtSlot offset) : f.expected = slotRules := by
  have same : f.rules.contains = slotRules.contains := by
    funext rule
    rw [Bool.eq_iff_iff, List.contains_iff_mem, List.contains_iff_mem]
    exact h.rules rule
  rw [Frontier.expected, same]
  rfl

theorem Upto.atSlot (h : f.Upto offset) :
    (((f.note .directive offset).note .group offset).note .slotText offset).AtSlot offset := by
  have first : .directive ∈ slotRules := by decide
  have second : .group ∈ slotRules := by decide
  have first_here := offset_note h.le .directive
  have second_here := offset_note (Nat.le_of_eq first_here) .group
  refine ⟨offset_note (Nat.le_of_eq second_here) .slotText, ?_⟩
  intro rule
  rw [note_here second_here, note_here first_here]
  obtain ahead | here := Nat.lt_or_eq_of_le h.le
  · rw [note_ahead ahead]
    simp [slotRules]
  · rw [note_here here]
    have known := h.known here rule
    simp only [slotRules, List.mem_append, List.mem_cons, List.not_mem_nil, or_false] at known ⊢
    rw [or_assoc, or_assoc, or_iff_right_of_imp known]

end Frontier

section
variable {p : Place} (f : Frontier)

theorem directive_eq_note (h : ∀ cs, p.rest ≠ '$' :: cs) :
    directive p f = (none, f.note .directive p.offset) := by
  rw [directive, after?_eq_none_iff.mpr h]
  rfl

theorem group_eq_note (h : ∀ cs, p.rest ≠ '[' :: cs) :
    group p f = (none, f.note .group p.offset) := by
  rw [group, after?_eq_none_iff.mpr h]
  rfl

variable {rule : Rule} {keep : Char → Bool}

theorem run_eq_note (stopped : ∀ c ∈ p.rest.head?, keep c = false) :
    conclude rule f (run? rule keep p, f) = (none, f.note rule p.offset) := by
  rw [run?_eq_none_iff.mpr (takeWhile_stop stopped)]
  rfl

theorem text_eq_note (stopped : ∀ c ∈ p.rest.head?, Context.outside.stops c = true) :
    text p f = (none, f.note .text p.offset) := by
  rw [text_eq, run_eq_note f (by simpa using stopped)]

theorem slotText_eq_note (stopped : ∀ c ∈ p.rest.head?, Context.inside.stops c = true) :
    slotText p f = (none, f.note .slotText p.offset) := by
  rw [slotText_eq, run_eq_note f (by simpa using stopped)]

theorem name_eq_note (stopped : ∀ c ∈ p.rest.head?, isNameChar c = false) :
    name p f = (none, f.note .name p.offset) := by
  rw [name_eq, run_eq_note f stopped]

end

section
variable {p q : Place} {pair n : Pair} {f : Frontier} {offset : Nat} {cs : Text}

theorem snd_run {rule : Rule} {keep : Char → Bool} {r : Pair × Place}
    (h : outcome (conclude rule f (run? rule keep p, f)) = some r) :
    (conclude rule f (run? rule keep p, f)).2 = f := by
  cases found : run? rule keep p with
  | none =>
    rw [found] at h
    simp [outcome] at h
  | some m => rfl

theorem snd_conclude {rule : Rule} {entered : Frontier} {r : Option (Match p) × Frontier}
    (h : p.offset < r.2.offset) : (conclude rule entered r).2 = r.2 := by
  obtain ⟨_ | m, g⟩ := r
  · exact Frontier.miss_behind h rule _
  · rfl

theorem snd_directive_unnamed (le : f.offset ≤ offset)
    (stopped : ∀ c ∈ cs.head?, isNameChar c = false) :
    (directive ⟨offset, '$' :: cs⟩ f).2 = ⟨offset + 1, [.name]⟩ := by
  have missed : name ⟨offset + 1, cs⟩ f = (none, ⟨offset + 1, [.name]⟩) := by
    rw [name_eq_note f stopped, Frontier.note_ahead (Nat.lt_succ_of_le le)]
  rw [directive, after?_self rfl, snd_conclude]
  · simp only [missed]
  · simp only [missed]
    exact Nat.lt_succ_self offset

theorem snd_directive_named (named : outcome (name ⟨offset + 1, cs⟩ f) = some (n, q))
    (ahead : outcome (group q f) = none → offset < (group q f).2.offset) :
    (directive ⟨offset, '$' :: cs⟩ f).2 = (group q f).2 := by
  have kept : (name ⟨offset + 1, cs⟩ f).2 = f := by
    rw [name_eq] at named ⊢
    exact snd_run named
  obtain ⟨shorter, g, found⟩ := outcome_eq_some named
  obtain rfl : g = f := by rwa [found] at kept
  rw [directive, after?_self rfl]
  simp only [found]
  rcases called : group q g with ⟨_ | m, h⟩
  · rw [called] at ahead
    simp only
    split
    · exact snd_conclude (ahead rfl)
    · rfl
  · rfl

theorem snd_group (ahead : offset < (slots ⟨offset + 1, cs⟩ f).2.offset) :
    (group ⟨offset, '[' :: cs⟩ f).2 = (slots ⟨offset + 1, cs⟩ f).2 := by
  rw [group, after?_self rfl]
  rcases held : slots ⟨offset + 1, cs⟩ f with ⟨inner, g⟩
  rw [held] at ahead
  simp only [held]
  split
  · exact snd_conclude ahead
  · rfl

end

/-! What stands at a place decides which of the alternatives there matters to the frontier. -/

section
variable {p q : Place} {pair : Pair} {f : Frontier}

theorem snd_item_marker (head : p.rest.head? = some '$')
    (ahead : outcome (directive p f) = none → p.offset < (directive p f).2.offset) :
    (item p f).2 = (directive p f).2 := by
  rcases found : directive p f with ⟨_ | m, g⟩
  · rw [found] at ahead
    replace ahead := ahead rfl
    have group := group_eq_note (p := p) g (by intro cs same; simp [same] at head)
    have text := slotText_eq_note (p := p) g (by simp [head, Context.stops_inside_iff])
    simp only [item, found, group]
    rw [Frontier.note_behind ahead, text]
    exact Frontier.note_behind ahead _
  · simp [item, found]

theorem snd_item_opener (head : p.rest.head? = some '[')
    (ahead : outcome (group p (f.note .directive p.offset)) = none →
      p.offset < (group p (f.note .directive p.offset)).2.offset) :
    (item p f).2 = (group p (f.note .directive p.offset)).2 := by
  have directive := directive_eq_note (p := p) f (by intro cs same; simp [same] at head)
  rcases found : group p (f.note .directive p.offset) with ⟨_ | m, g⟩
  · rw [found] at ahead
    replace ahead := ahead rfl
    have text := slotText_eq_note (p := p) g (by simp [head, Context.stops_inside_iff])
    simp only [item, directive, found, text]
    exact Frontier.note_behind ahead _
  · simp [item, directive, found]

theorem item_eq_slotText (marker : ∀ cs, p.rest ≠ '$' :: cs) (opener : ∀ cs, p.rest ≠ '[' :: cs) :
    item p f = slotText p ((f.note .directive p.offset).note .group p.offset) := by
  simp only [item, directive_eq_note f marker, group_eq_note _ opener]

theorem atSlot_item (upto : f.Upto p.offset) (ends : ∀ c ∈ p.rest.head?, c = ';' ∨ c = ']') :
    (item p f).2.AtSlot p.offset := by
  rw [item_eq_slotText (unmarked_of_ends ends) (unopened_of_ends ends),
    slotText_eq_note _ (stops_of_ends ends)]
  exact upto.atSlot

theorem snd_piece_marker (head : p.rest.head? = some '$')
    (ahead : outcome (directive p f) = none → p.offset < (directive p f).2.offset) :
    (piece p f).2 = (directive p f).2 := by
  rcases found : directive p f with ⟨_ | m, g⟩
  · rw [found] at ahead
    replace ahead := ahead rfl
    have text := text_eq_note (p := p) g (by simp [head, Context.stops_outside_iff])
    simp only [piece, found, text]
    exact Frontier.note_behind ahead _
  · simp [piece, found]

theorem piece_eq_text (marker : ∀ cs, p.rest ≠ '$' :: cs) :
    piece p f = text p (f.note .directive p.offset) := by
  simp only [piece, directive_eq_note f marker]

theorem snd_script (rest : (pieces p f).1.stop.rest ≠ [])
    (ahead : (pieces p f).1.stop.offset < (pieces p f).2.offset)
    (start : p.offset < (pieces p f).2.offset) : script p f = (none, (pieces p f).2) := by
  simp only [script, endOfInput, if_neg rest]
  rw [Frontier.miss_behind ahead, Frontier.miss_behind start]

end

end InlineScript.Grammar
