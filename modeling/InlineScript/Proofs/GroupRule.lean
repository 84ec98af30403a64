import InlineScript.Proofs.Language
import InlineScript.Proofs.Overlap

/-! The rule for a group, told from the text. The rule reads slots, directives and further groups
until it meets a closing bracket, and a scan only counts brackets; but where the rule matches, it
stops at the bracket that the scan finds. What it asks for besides is a name behind every marker
on the way. -/

namespace InlineScript

namespace Text

/-- Every marker of the text has a name behind it. -/
def Named (t : Text) : Prop :=
  ∀ s after, t = s ++ '$' :: after → ∃ c ∈ after.head?, isNameChar c = true

variable {c : Char} {run s t : Text}

theorem named_nil : Named [] := by
  intro s after whole
  simp at whole

theorem named_cons :
    Named (c :: t) ↔ (c = '$' → ∃ d ∈ t.head?, isNameChar d = true) ∧ t.Named := by
  constructor
  · intro named
    refine ⟨?_, ?_⟩
    · rintro rfl
      exact named [] t rfl
    · intro s after whole
      exact named (c :: s) after (by rw [whole, List.cons_append])
  · rintro ⟨first, named⟩ s after whole
    cases s with
    | nil =>
      obtain ⟨rfl, rfl⟩ := List.cons.inj whole
      exact first rfl
    | cons d s => exact named s after (List.cons.inj whole).2

theorem named_append (plain : ∀ c ∈ run, c ≠ '$') : Named (run ++ t) ↔ t.Named := by
  induction run with
  | nil => rfl
  | cons c run ih =>
    rw [List.forall_mem_cons] at plain
    rw [List.cons_append, named_cons, ih plain.2]
    exact and_iff_right fun marker => absurd marker plain.1

/-- A closing bracket is not the name of a marker before it. -/
theorem named_append_closer : Named (s ++ ']' :: t) ↔ s.Named ∧ t.Named := by
  induction s with
  | nil => simp [named_cons, named_nil]
  | cons c s ih =>
    have front : (∃ d ∈ (s ++ ']' :: t).head?, isNameChar d = true) ↔
        ∃ d ∈ s.head?, isNameChar d = true := by
      cases s with
      | nil => simp [show isNameChar ']' = false by decide]
      | cons d s => simp
    rw [List.cons_append, named_cons, named_cons, ih, front, and_assoc]

theorem named_marker {name rest : Text} (named : ∀ c ∈ name, isNameChar c = true)
    (stopped : ∀ c ∈ rest.head?, isNameChar c = false) :
    Named ('$' :: (name ++ rest)) ↔ name ≠ [] ∧ rest.Named := by
  have unmarked : ∀ c ∈ name, c ≠ '$' := fun c mem => (isNameChar_iff.mp (named c mem)).2.1
  rw [named_cons, front_named_iff named stopped, named_append unmarked]
  simp only [true_implies]

theorem named_within_iff {t rest : Text} (last : t.getLast? = some ']') :
    (∀ before after : Text, t ++ rest = before ++ '$' :: after → before.size < t.size →
      ∃ c ∈ after.head?, isNameChar c = true) ↔ t.Named := by
  constructor
  · rintro named s after rfl
    have room : s.size < size (s ++ '$' :: after) := by
      have behind : 0 < size ('$' :: after) := size_pos (by simp)
      rw [size_append]
      omega
    have follows := named s (after ++ rest) (by simp) room
    cases after with
    | nil => simp at last
    | cons c after => simpa using follows
  · intro named before after whole within
    have reached : before ++ ['$'] <+: t := by
      refine prefix_of_size_le ⟨after, by simp [whole]⟩ (List.prefix_append t rest) ?_
      rw [size_append]
      exact within
    obtain ⟨behind, rfl⟩ := reached
    obtain rfl : behind ++ rest = after := by simpa using whole
    obtain ⟨c, front, name⟩ := named before behind (by simp)
    refine ⟨c, ?_, name⟩
    rw [Option.mem_def] at front ⊢
    rw [List.head?_append, front, Option.some_or]

end Text

theorem Group.faultless_node_iff {g : Group} {k : Cursor} {children : List Node} :
    (g.node k children).Faultless ↔ g.closed = true ∧ ∀ n ∈ children, n.Faultless := by
  rw [Node.faultless_iff, issue?_node]
  rfl

theorem Node.faultless_called_iff {name : Text} {position : Position} {g : Node} :
    (mk .directive ('$' :: name) position [g]).Faultless ↔ name ≠ [] ∧ g.Faultless := by
  rw [faultless_iff, issue?_directive]
  simp only [List.forall_mem_singleton]

theorem Group.named_content_append_iff {g : Group} {rest : Text} (fits : g.Fits rest)
    (closed : g.closed = true) :
    (g.content ++ rest).Named ↔ g.inner.Named ∧ rest.Named := by
  have whole : g.content ++ rest = '[' :: (g.inner ++ ']' :: rest) := by
    rw [content_eq, closing_of_fits fits closed]
    simp
  rw [whole, Text.named_cons, Text.named_append_closer]
  simp

theorem faultless_sequence_iff {ctx : Context} {slice : Text} (pieces : Stretch ctx slice)
    (inside : ctx = .inside) (settled : slice.Settles true) (k : Cursor) :
    (∀ n ∈ (sequence ctx slice k).nodes, n.Faultless) ↔ slice.Named := by
  induction pieces generalizing k with
  | nil => simp [Text.named_nil]
  | @literal ctx run rest filled plain stopped _ ih =>
    subst inside
    have unmarked : ∀ c ∈ run, c ≠ '$' := by
      rintro c mem rfl
      exact absurd (plain '$' mem) (by decide)
    replace settled := (Text.settles_append_iff (bracketless_of_plain plain)).mp settled
    rw [sequence_literal k filled plain stopped, Draft.leaf, List.forall_mem_cons,
      Text.named_append unmarked, ih rfl settled]
    exact and_iff_right (Node.faultless_leaf.mpr rfl)
  | @separator rest _ ih =>
    replace settled := (Text.settles_append_iff bracketless_separator).mp settled
    have unmarked : ∀ c ∈ [';'], c ≠ '$' := by simp
    have named : Text.Named (';' :: rest) ↔ rest.Named := Text.named_append unmarked
    rw [sequence_separator, Draft.leaf, List.forall_mem_cons, ih rfl settled, named]
    exact and_iff_right (Node.faultless_leaf.mpr rfl)
  | closer => exact absurd settled Text.not_settles_closer
  | @directive ctx name rest named stopped bare _ ih =>
    rw [← List.cons_append] at settled
    replace settled := (Text.settles_append_iff (bracketless_of_named named)).mp settled
    rw [sequence_name k named stopped bare, Draft.leaf, List.forall_mem_cons, ih inside settled,
      Text.named_marker named stopped, Node.faultless_leaf, Node.leaf, Node.issue?_directive]
  | @call ctx name rest g named fits _ _ ihInner ih =>
    rw [← List.cons_append] at settled
    replace settled := (Text.settles_append_iff (bracketless_of_named named)).mp settled
    obtain ⟨closes, settled⟩ := (Group.settles_content_append_iff fits).mp settled
    have closed : g.closed = true := by simpa using closes
    have inner := Group.settles_inner fits
    rw [closed] at inner
    rw [sequence_call k named fits, Draft.directive, List.forall_mem_cons,
      Node.faultless_called_iff, Group.faultless_node_iff, ihInner rfl inner, ih inside settled,
      Text.named_marker named (g.ends_name rest), Group.named_content_append_iff fits closed]
    simp only [closed, true_and, and_assoc]
  | @group rest g fits _ _ ihInner ih =>
    obtain ⟨closes, settled⟩ := (Group.settles_content_append_iff fits).mp settled
    have closed : g.closed = true := by simpa using closes
    have inner := Group.settles_inner fits
    rw [closed] at inner
    rw [sequence_bracket k fits, Draft.group, List.forall_mem_cons, Group.faultless_node_iff,
      ihInner rfl inner, ih rfl settled, Group.named_content_append_iff fits closed]
    simp only [closed, true_and]

namespace Grammar

theorem parse_group_eq_ok_iff {text : Text} {pair : Pair} :
    parse .group text = .ok pair ↔ ∃ q, outcome (group (.start text) {}) = some (pair, q) := by
  rw [parse, attempt]
  rcases group (.start text) {} with ⟨_ | m, f⟩
  · simp [outcome]
  · simp [outcome]

theorem parse_group_ne_ok {text : Text} (h : outcome (group (.start text) {}) = none)
    (pair : Pair) : parse .group text ≠ .ok pair := by
  intro matched
  obtain ⟨q, found⟩ := parse_group_eq_ok_iff.mp matched
  rw [h] at found
  simp at found

theorem group_agrees_start {g : Group} {rest : Text} (fits : g.Fits rest) :
    Agrees group .inside (.start (g.content ++ rest))
      (g.node {} (sequence .inside g.inner (Group.enter {})).nodes) ⟨g.content.size, rest⟩ := by
  have limit := fits.closed_or
  have inner := slots_track (stretch .inside g.inner) rfl (Enclosed.enter fits limit)
    (Group.enter {})
  have agrees : Agrees group .inside _ _ _ := group_agrees (k := {}) fits limit inner.toSlotsAgree
  rwa [show ({} : Cursor).offset = 0 from rfl, Nat.zero_add] at agrees

theorem parse_group_of_faultless {g : Group} {rest : Text} (fits : g.Fits rest)
    (h : (g.node {} (sequence .inside g.inner (Group.enter {})).nodes).Faultless) :
    ∃ pair, parse .group (g.content ++ rest) = .ok pair ∧
      pair.start = 0 ∧ pair.stop = g.content.size := by
  obtain ⟨pair, one, matched⟩ := (group_agrees_start fits).found h
  have image := List.singleton_inj.mp ((Node.pairs_group rfl).symm.trans one)
  refine ⟨pair, parse_group_eq_ok_iff.mpr ⟨_, matched {}⟩, ?_, ?_⟩
  · rw [← image]
    rfl
  · rw [← image]
    exact Nat.zero_add _

end Grammar

namespace Group

variable {g : Group} {rest : Text} (fits : g.Fits rest)
include fits

theorem faultless_iff_named (k : Cursor) :
    (g.node k (sequence .inside g.inner (enter k)).nodes).Faultless ↔
      g.closed = true ∧ g.content.Named := by
  rw [faultless_node_iff]
  refine and_congr_right fun closed => ?_
  have inner := settles_inner fits
  have whole := named_content_append_iff fits.alone closed
  rw [closed] at inner
  rw [List.append_nil] at whole
  rw [faultless_sequence_iff (stretch .inside g.inner) rfl inner, whole]
  exact (and_iff_left Text.named_nil).symm

theorem parse_content_iff {start stop : Nat} :
    (∃ pair, Grammar.parse .group (g.content ++ rest) = .ok pair ∧
        pair.start = start ∧ pair.stop = stop) ↔
      start = 0 ∧ stop = g.content.size ∧ g.closed = true ∧ g.content.Named := by
  rw [← faultless_iff_named fits {}]
  by_cases sound : (g.node {} (sequence .inside g.inner (Group.enter {})).nodes).Faultless
  · obtain ⟨found, matched, first, last⟩ := Grammar.parse_group_of_faultless fits sound
    constructor
    · rintro ⟨pair, again, rfl, rfl⟩
      obtain rfl := Except.ok.inj (matched.symm.trans again)
      exact ⟨first, last, sound⟩
    · rintro ⟨rfl, rfl, -⟩
      exact ⟨found, matched, first, last⟩
  · have fails := Grammar.parse_group_ne_ok ((Grammar.group_agrees_start fits).missed sound {})
    constructor
    · rintro ⟨pair, matched, -⟩
      exact absurd matched (fails pair)
    · rintro ⟨-, -, free⟩
      exact absurd free sound

theorem getLast?_content (closed : g.closed = true) : g.content.getLast? = some ']' := by
  rw [content_eq, closing_of_fits fits closed, ← List.cons_append]
  exact List.getLast?_concat

end Group

/-- The rule for a group matches the first bytes of a text up to `stop` if a scan finds a group that
closes there and every marker before that has a name behind it; and it matches nothing else. -/
theorem parse_group_iff (text : Text) (start stop : Nat) :
    (∃ pair, Grammar.parse .group text = .ok pair ∧ pair.start = start ∧ pair.stop = stop) ↔
      start = 0 ∧ Extent.scan? text = some ⟨stop, true⟩ ∧
        ∀ before after, text = before ++ '$' :: after → before.size < stop →
          ∃ c ∈ after.head?, isNameChar c = true := by
  by_cases bracket : text.head? = some '['
  · obtain ⟨body, rfl⟩ := List.head?_eq_some_iff.mp bracket
    obtain ⟨g, rest, whole, fits⟩ := Group.exists_fits body
    rw [whole, Group.parse_content_iff fits, fits.scan?]
    refine and_congr_right fun _ => ?_
    constructor
    · rintro ⟨rfl, closed, named⟩
      rw [closed]
      exact ⟨rfl, (Text.named_within_iff (Group.getLast?_content fits closed)).mpr named⟩
    · rintro ⟨found, named⟩
      obtain ⟨rfl, closed⟩ := Extent.mk.inj (Option.some.inj found)
      have last := Group.getLast?_content fits closed
      exact ⟨rfl, closed, (Text.named_within_iff last).mp named⟩
  · have unopened (body : Text) : text ≠ '[' :: body := by
      rintro rfl
      exact bracket rfl
    have missing := Extent.scan?_eq_none_iff.mpr unopened
    have fails := Grammar.parse_group_ne_ok (Grammar.group_none {} unopened)
    constructor
    · rintro ⟨pair, matched, -⟩
      exact absurd matched (fails pair)
    · rintro ⟨-, found, -⟩
      rw [missing] at found
      simp at found

end InlineScript
