import InlineScript.Grammar.Match
import InlineScript.Proofs.Stretch

/-! What the rules of the grammar do at a place, whatever has been missed before.
A match is told by its pair and the place behind it, so that places which are equal
need not be the same term. -/

namespace InlineScript.Grammar

def outcome {p : Place} (r : Option (Match p) × Frontier) : Option (Pair × Place) :=
  r.1.map fun m => (m.pair, m.stop)

def spread {p : Place} (r : Matches p × Frontier) : List Pair × Place :=
  (r.1.pairs, r.1.stop)

section
variable {p : Place}

theorem outcome_eq_none_iff {r : Option (Match p) × Frontier} :
    outcome r = none ↔ ∃ f, r = (none, f) := by
  obtain ⟨_ | m, f⟩ := r
  · simp [outcome]
  · simp [outcome]

theorem outcome_eq_some {r : Option (Match p) × Frontier} {pair : Pair} {q : Place}
    (h : outcome r = some (pair, q)) :
    ∃ (shorter : q.rest.length < p.rest.length) (f : Frontier),
      r = (some ⟨pair, q, shorter⟩, f) := by
  obtain ⟨_ | ⟨pair, q, shorter⟩, f⟩ := r
  · simp [outcome] at h
  · obtain ⟨rfl, rfl⟩ : pair = _ ∧ q = _ := by simpa [outcome] using h
    exact ⟨shorter, f, rfl⟩

theorem spread_eq {r : Matches p × Frontier} {pairs : List Pair} {q : Place}
    (h : spread r = (pairs, q)) :
    ∃ (notLonger : q.rest.length ≤ p.rest.length) (f : Frontier),
      r = (⟨pairs, q, notLonger⟩, f) := by
  obtain ⟨⟨pairs, q, notLonger⟩, f⟩ := r
  obtain ⟨rfl, rfl⟩ : pairs = _ ∧ q = _ := by simpa [spread] using h
  exact ⟨notLonger, f, rfl⟩

@[simp] theorem outcome_conclude (rule : Rule) (f : Frontier) (r : Option (Match p) × Frontier) :
    outcome (conclude rule f r) = outcome r := by
  obtain ⟨_ | m, g⟩ := r <;> rfl

end

theorem rest_ne_cons {p : Place} {c : Char} (h : ∀ d ∈ p.rest.head?, d ≠ c) (cs : Text) :
    p.rest ≠ c :: cs := by
  intro same
  exact h c (by simp [same]) rfl

/-! The three rules that match a run of characters. -/

theorem keeps_text (c : Char) : (c != '$') = !Context.outside.stops c := by
  rw [Bool.eq_iff_iff, Bool.not_eq_true', ← Bool.not_eq_true (Context.stops _ c),
    Context.stops_outside_iff]
  simp

theorem text_eq (p : Place) (f : Frontier) :
    text p f = conclude .text f (run? .text (fun c => !Context.outside.stops c) p, f) := by
  rw [text]
  simp only [keeps_text]

theorem keeps_slotText (c : Char) :
    (!(c == '$' || c == '[' || c == ']' || c == ';')) = !Context.inside.stops c := by
  rw [Bool.eq_iff_iff, Bool.not_eq_true', Bool.not_eq_true', ← Bool.not_eq_true,
    ← Bool.not_eq_true (Context.stops _ c), Context.stops_inside_iff]
  simp only [Bool.or_eq_true, beq_iff_eq, or_assoc]

theorem slotText_eq (p : Place) (f : Frontier) :
    slotText p f =
      conclude .slotText f (run? .slotText (fun c => !Context.inside.stops c) p, f) := by
  rw [slotText]
  simp only [keeps_slotText]

theorem keeps_name (c : Char) :
    (!(isBlank c || c == '$' || c == '[' || c == ']' || c == ';')) = isNameChar c := by
  rw [isNameChar, ← keeps_slotText]
  simp only [Bool.not_or, Bool.and_assoc]

theorem name_eq (p : Place) (f : Frontier) :
    name p f = conclude .name f (run? .name isNameChar p, f) := by
  rw [name]
  simp only [keeps_name]

section
variable {keep : Char → Bool} {run rest : Text} (rule : Rule) (offset : Nat) (entered f : Frontier)

theorem outcome_run (filled : run ≠ []) (kept : ∀ c ∈ run, keep c = true)
    (stopped : ∀ c ∈ rest.head?, keep c = false) :
    outcome (conclude rule entered (run? rule keep ⟨offset, run ++ rest⟩, f)) =
      some (⟨rule, offset, offset + run.size, []⟩, ⟨offset + run.size, rest⟩) := by
  have taken : (run ++ rest).takeWhile keep = run := takeWhile_append_stop kept stopped
  rw [outcome_conclude]
  cases h : run? rule keep ⟨offset, run ++ rest⟩ with
  | none => exact absurd (taken.symm.trans (run?_eq_none_iff.mp h)) filled
  | some m =>
    have stop := stop_of_run? h
    have pair := pair_of_run? h
    rw [taken, Place.skip_append] at stop
    rw [stop] at pair
    simp [outcome, stop, pair]

theorem outcome_run_none (stopped : ∀ c ∈ rest.head?, keep c = false) :
    outcome (conclude rule entered (run? rule keep ⟨offset, rest⟩, f)) = none := by
  have missed : run? rule keep ⟨offset, rest⟩ = none :=
    run?_eq_none_iff.mpr (takeWhile_stop stopped)
  rw [outcome_conclude, missed]
  rfl

end

/-! The rules that call each other. -/

theorem after?_self {c : Char} (size : c.utf8Size = 1) (offset : Nat) (cs : Text) :
    after? c ⟨offset, c :: cs⟩ = some ⟨⟨offset + 1, cs⟩, Nat.lt_succ_self _⟩ := by
  simp [after?, size]

section
variable {offset : Nat} {cs : Text} {p q : Place} (f : Frontier)

theorem directive_none (h : ∀ cs, p.rest ≠ '$' :: cs) : outcome (directive p f) = none := by
  rw [directive, outcome_conclude, after?_eq_none_iff.mpr h]
  rfl

theorem directive_unnamed (unnamed : ∀ f, outcome (name ⟨offset + 1, cs⟩ f) = none) :
    outcome (directive ⟨offset, '$' :: cs⟩ f) = none := by
  obtain ⟨g, missed⟩ := outcome_eq_none_iff.mp (unnamed f)
  rw [directive, outcome_conclude, after?_self rfl]
  simp only [missed]
  rfl

variable {n : Pair} (named : ∀ f, outcome (name ⟨offset + 1, cs⟩ f) = some (n, q))
include named

theorem directive_bare (ungrouped : ∀ f, outcome (group q f) = none)
    (bare : ∀ cs, q.rest ≠ '[' :: cs) :
    outcome (directive ⟨offset, '$' :: cs⟩ f) =
      some (⟨.directive, offset, q.offset, [n]⟩, q) := by
  obtain ⟨shorter, g, found⟩ := outcome_eq_some (named f)
  obtain ⟨h, missed⟩ := outcome_eq_none_iff.mp (ungrouped g)
  rw [directive, outcome_conclude, after?_self rfl]
  simp only [found, missed, after?_eq_none_iff.mpr bare]
  rfl

theorem directive_uncalled (ungrouped : ∀ f, outcome (group q f) = none)
    (bracket : q.rest.head? = some '[') :
    outcome (directive ⟨offset, '$' :: cs⟩ f) = none := by
  obtain ⟨shorter, g, found⟩ := outcome_eq_some (named f)
  obtain ⟨h, missed⟩ := outcome_eq_none_iff.mp (ungrouped g)
  obtain ⟨start, rest⟩ := q
  obtain ⟨body, rfl⟩ := List.head?_eq_some_iff.mp bracket
  rw [directive, outcome_conclude, after?_self rfl]
  simp only [found, missed, after?_self (show '['.utf8Size = 1 from rfl)]
  rfl

theorem directive_called {g : Pair} {stop : Place}
    (grouped : ∀ f, outcome (group q f) = some (g, stop)) :
    outcome (directive ⟨offset, '$' :: cs⟩ f) =
      some (⟨.directive, offset, stop.offset, [n, g]⟩, stop) := by
  obtain ⟨shorter, f₁, found⟩ := outcome_eq_some (named f)
  obtain ⟨shorter', f₂, called⟩ := outcome_eq_some (grouped f₁)
  rw [directive, outcome_conclude, after?_self rfl]
  simp only [found, called]
  rfl

end

section
variable {offset : Nat} {cs : Text} {p : Place} (f : Frontier)

theorem group_none (h : ∀ cs, p.rest ≠ '[' :: cs) : outcome (group p f) = none := by
  rw [group, outcome_conclude, after?_eq_none_iff.mpr h]
  rfl

theorem group_closed {inner : List Pair} {stop : Nat} {rest : Text}
    (h : ∀ f, spread (slots ⟨offset + 1, cs⟩ f) = (inner, ⟨stop, ']' :: rest⟩)) :
    outcome (group ⟨offset, '[' :: cs⟩ f) =
      some (⟨.group, offset, stop + 1, inner⟩, ⟨stop + 1, rest⟩) := by
  have found := h f
  rw [group, outcome_conclude, after?_self rfl]
  simp only
  generalize slots ⟨offset + 1, cs⟩ f = r at found
  obtain ⟨⟨pairs, q, notLonger⟩, g⟩ := r
  obtain ⟨rfl, rfl⟩ : pairs = inner ∧ q = ⟨stop, ']' :: rest⟩ := by simpa [spread] using found
  simp only [after?_self (show ']'.utf8Size = 1 from rfl)]
  rfl

theorem group_unclosed
    (h : ∀ f rest, (slots ⟨offset + 1, cs⟩ f).1.stop.rest ≠ ']' :: rest) :
    outcome (group ⟨offset, '[' :: cs⟩ f) = none := by
  rw [group, outcome_conclude, after?_self rfl]
  simp only [after?_eq_none_iff.mpr (h f)]
  rfl

end

def item (p : Place) (f : Frontier) : Option (Match p) × Frontier :=
  match directive p f with
  | (some m, f) => (some m, f)
  | (none, f) =>
    match group p f with
    | (some m, f) => (some m, f)
    | (none, f) => slotText p f

theorem items_eq (p : Place) (f : Frontier) :
    items p f =
      match item p f with
      | (some m, f) => ((items m.stop f).map (.cons m) id)
      | (none, f) => (.nil p, f) := by
  rw [items, item]
  rcases directive p f with ⟨_ | m, f⟩
  · simp only
    rcases group p f with ⟨_ | m, f⟩
    · simp only
      rcases slotText p f with ⟨_ | m, f⟩ <;> rfl
    · rfl
  · rfl

section
variable {p q : Place} {pair : Pair} (f : Frontier)

theorem item_directive (h : ∀ f, outcome (directive p f) = some (pair, q)) :
    outcome (item p f) = some (pair, q) := by
  obtain ⟨shorter, g, found⟩ := outcome_eq_some (h f)
  simp [item, found, outcome]

variable (undirected : ∀ f, outcome (directive p f) = none)
include undirected

theorem item_group (h : ∀ f, outcome (group p f) = some (pair, q)) :
    outcome (item p f) = some (pair, q) := by
  obtain ⟨g, missed⟩ := outcome_eq_none_iff.mp (undirected f)
  obtain ⟨shorter, _, found⟩ := outcome_eq_some (h g)
  simp [item, missed, found, outcome]

theorem item_slotText (ungrouped : ∀ f, outcome (group p f) = none) :
    ∃ g, outcome (item p f) = outcome (slotText p g) := by
  obtain ⟨g, missed⟩ := outcome_eq_none_iff.mp (undirected f)
  obtain ⟨h, missed'⟩ := outcome_eq_none_iff.mp (ungrouped g)
  exact ⟨h, by simp [item, missed, missed']⟩

theorem item_none (ungrouped : ∀ f, outcome (group p f) = none)
    (stopped : ∀ c ∈ p.rest.head?, Context.inside.stops c = true) :
    outcome (item p f) = none := by
  obtain ⟨g, same⟩ := item_slotText f undirected ungrouped
  rw [same, slotText_eq]
  exact outcome_run_none .slotText p.offset g g (by simpa using stopped)

end

/-! A slot ends where a separator or a closing bracket stands, or with the text. -/

section
variable {p : Place} (ends : ∀ c ∈ p.rest.head?, c = ';' ∨ c = ']')
include ends

theorem unmarked_of_ends : ∀ cs, p.rest ≠ '$' :: cs := by
  refine rest_ne_cons ?_
  intro c hc
  obtain rfl | rfl := ends c hc <;> decide

theorem unopened_of_ends : ∀ cs, p.rest ≠ '[' :: cs := by
  refine rest_ne_cons ?_
  intro c hc
  obtain rfl | rfl := ends c hc <;> decide

theorem stops_of_ends : ∀ c ∈ p.rest.head?, Context.inside.stops c = true := by
  intro c hc
  obtain rfl | rfl := ends c hc <;> rfl

theorem item_none_of_ends (f : Frontier) : outcome (item p f) = none :=
  item_none f (fun f => directive_none f (unmarked_of_ends ends))
    (fun f => group_none f (unopened_of_ends ends)) (stops_of_ends ends)

end

/-- The slots of a stretch that begins with `pair` at `start`, given those behind it. -/
def ahead (start : Nat) (pair : Pair) (slots : List Pair) : List Pair :=
  slots.modifyHead fun s => { s with start := start, children := pair :: s.children }

section
variable {p q : Place} {pair : Pair} (f : Frontier)

theorem slots_item (h : outcome (item p f) = some (pair, q)) :
    spread (slots p f) = (spread (slots q (item p f).2)).map (ahead p.offset pair) id ∧
      (slots p f).2 = (slots q (item p f).2).2 := by
  obtain ⟨shorter, g, found⟩ := outcome_eq_some h
  obtain ⟨more, g', others⟩ : ∃ more g', items q g = (more, g') := ⟨_, _, rfl⟩
  have whole : items p f = (.cons ⟨pair, q, shorter⟩ more, g') := by
    rw [items_eq, found]
    simp only [others]
    rfl
  rw [found, slots, slots, whole, others]
  simp only [Matches.cons]
  cases separator : after? ';' more.stop <;> exact ⟨rfl, rfl⟩

theorem slots_none (h : outcome (item p f) = none) (bare : ∀ cs, p.rest ≠ ';' :: cs) :
    spread (slots p f) = ([⟨.slot, p.offset, p.offset, []⟩], p) ∧
      (slots p f).2 = (item p f).2 := by
  obtain ⟨g, missed⟩ := outcome_eq_none_iff.mp h
  have whole : items p f = (.nil p, g) := by rw [items_eq, missed]
  have last : after? ';' (Matches.nil p).stop = none := after?_eq_none_iff.mpr bare
  rw [missed, slots, whole]
  simp only [last, and_true]
  rfl

theorem slots_separator {offset : Nat} {cs : Text}
    (h : outcome (item ⟨offset, ';' :: cs⟩ f) = none) :
    spread (slots ⟨offset, ';' :: cs⟩ f) =
        (spread (slots ⟨offset + 1, cs⟩ (item ⟨offset, ';' :: cs⟩ f).2)).map
          (⟨.slot, offset, offset, []⟩ :: ·) id ∧
      (slots ⟨offset, ';' :: cs⟩ f).2 =
        (slots ⟨offset + 1, cs⟩ (item ⟨offset, ';' :: cs⟩ f).2).2 := by
  obtain ⟨g, missed⟩ := outcome_eq_none_iff.mp h
  have whole : items ⟨offset, ';' :: cs⟩ f = (.nil _, g) := by rw [items_eq, missed]
  have next : after? ';' (Matches.nil ⟨offset, ';' :: cs⟩).stop = _ :=
    after?_self (show ';'.utf8Size = 1 from rfl) offset cs
  rw [missed, slots, whole]
  simp only [next, and_true]
  rfl

end

def piece (p : Place) (f : Frontier) : Option (Match p) × Frontier :=
  match directive p f with
  | (some m, f) => (some m, f)
  | (none, f) => text p f

theorem pieces_eq (p : Place) (f : Frontier) :
    pieces p f =
      match piece p f with
      | (some m, f) => (pieces m.stop f).map (.cons m) id
      | (none, f) => (.nil p, f) := by
  rw [pieces, piece]
  rcases directive p f with ⟨_ | m, f⟩
  · simp only
    rcases text p f with ⟨_ | m, f⟩ <;> rfl
  · rfl

section
variable {p q : Place} {pair : Pair} (f : Frontier)

theorem piece_directive (h : ∀ f, outcome (directive p f) = some (pair, q)) :
    outcome (piece p f) = some (pair, q) := by
  obtain ⟨shorter, g, found⟩ := outcome_eq_some (h f)
  simp [piece, found, outcome]

theorem piece_text (undirected : ∀ f, outcome (directive p f) = none) :
    ∃ g, outcome (piece p f) = outcome (text p g) := by
  obtain ⟨g, missed⟩ := outcome_eq_none_iff.mp (undirected f)
  exact ⟨g, by simp [piece, missed]⟩

theorem piece_none (undirected : ∀ f, outcome (directive p f) = none)
    (stopped : ∀ c ∈ p.rest.head?, Context.outside.stops c = true) :
    outcome (piece p f) = none := by
  obtain ⟨g, same⟩ := piece_text f undirected
  rw [same, text_eq]
  exact outcome_run_none .text p.offset g g (by simpa using stopped)

theorem pieces_piece (h : outcome (piece p f) = some (pair, q)) :
    spread (pieces p f) = (spread (pieces q (piece p f).2)).map (pair :: ·) id ∧
      (pieces p f).2 = (pieces q (piece p f).2).2 := by
  obtain ⟨shorter, g, found⟩ := outcome_eq_some h
  rw [pieces_eq, found]
  exact ⟨rfl, rfl⟩

theorem pieces_none (h : outcome (piece p f) = none) :
    spread (pieces p f) = ([], p) ∧ (pieces p f).2 = (piece p f).2 := by
  obtain ⟨g, missed⟩ := outcome_eq_none_iff.mp h
  rw [pieces_eq, missed]
  exact ⟨rfl, rfl⟩

theorem script_some {inner : List Pair} {stop : Nat}
    (h : spread (pieces p f) = (inner, ⟨stop, []⟩)) :
    (script p f).1 =
      some ⟨.script, p.offset, stop, inner ++ [⟨.endOfInput, stop, stop, []⟩]⟩ := by
  obtain ⟨notLonger, g, found⟩ := spread_eq h
  simp [script, found, endOfInput]

theorem script_none (h : (pieces p f).1.stop.rest ≠ []) : (script p f).1 = none := by
  simp [script, endOfInput, h]

end

end InlineScript.Grammar
