import InlineScript.Proofs.Depth
import InlineScript.Proofs.Remainder

/-! The extent of a group by counting alone. A front part of a text is level if it holds as many
closing brackets as opening ones. Where a text begins with a bracket, the group of that bracket
ends with the first level front part and does not close if there is none: the scan, which jumps
from bracket to bracket and searches for one of them at a time, finds nothing else. -/

namespace InlineScript

namespace Text

/-- Some text with equally many brackets of both kinds. -/
structure Level (t : Text) : Prop where
  filled : t ≠ []
  counts : t.count '[' = t.count ']'

/-- The shortest level front part of a text: all others go on from it. -/
structure FirstLevel (t front : Text) : Prop where
  isFront : front <+: t
  level : front.Level
  first : ∀ s : Text, s <+: t → s.Level → front <+: s

theorem FirstLevel.unique {t r s : Text} (h : t.FirstLevel r) (h' : t.FirstLevel s) : r = s := by
  have before := h.first s h'.isFront h'.level
  have behind := h'.first r h.isFront h.level
  exact before.eq_of_length_le behind.length_le

end Text

/-- The extent that a count of the brackets gives the group at the start of a text. -/
inductive Extent.Counted (text : Text) : Extent → Prop
  | closed {front : Text} (first : text.FirstLevel front) : Counted text ⟨front.size, true⟩
  | unclosed (never : ∀ s : Text, s <+: text → ¬ s.Level) : Counted text ⟨text.size, false⟩

theorem Extent.Counted.unique {text : Text} {e e' : Extent} (h : Counted text e)
    (h' : Counted text e') : e = e' := by
  cases h with
  | closed first =>
    cases h' with
    | closed first' => rw [first.unique first']
    | unclosed never => exact absurd first.level (never _ first.isFront)
  | unclosed never =>
    cases h' with
    | closed first => exact absurd first.level (never _ first.isFront)
    | unclosed => rfl

namespace Group.Fits

variable {g : Group} {rest : Text}

theorem not_level (fits : g.Fits rest) {s : Text} (within : s <+: g.content)
    (proper : g.closed = true → s ≠ g.content) : ¬ s.Level := by
  intro level
  have more := count_front_lt fits within level.filled proper
  have same := level.counts
  omega

theorem level (fits : g.Fits rest) (closed : g.closed = true) : g.content.Level := by
  have count := Text.count_of_depth? (depth?_content fits closed)
  rw [Nat.zero_add, Nat.zero_add] at count
  exact ⟨by simp [content], count⟩

theorem counted (fits : g.Fits rest) :
    Extent.Counted (g.content ++ rest) ⟨g.content.size, g.closed⟩ := by
  cases closed : g.closed with
  | true =>
    refine .closed ⟨List.prefix_append _ _, fits.level closed, ?_⟩
    intro s front level
    obtain shorter | longer :=
      List.prefix_or_prefix_of_prefix front (List.prefix_append g.content rest)
    · -- A shorter one would have ended the group before.
      by_cases whole : s = g.content
      · subst whole
        exact List.prefix_rfl
      · exact absurd level (fits.not_level shorter fun _ => whole)
    · exact longer
  | false =>
    obtain rfl := fits.closed_or.resolve_left (by simp [closed])
    rw [List.append_nil]
    refine .unclosed fun s front => fits.not_level front ?_
    simp [closed]

end Group.Fits

theorem Extent.exists_counted (body : Text) :
    ∃ extent, scan? ('[' :: body) = some extent ∧ Counted ('[' :: body) extent := by
  have fits := Group.fits_cut body
  have found := fits.scan?
  have counted := fits.counted
  rw [Group.content_cut_append] at found counted
  exact ⟨_, found, counted⟩

/-- A scan finds the extent that a count of the brackets gives, in every text that begins with
an opening bracket and in no other. -/
theorem scan?_counted (text : Text) :
    (Extent.scan? text = none ↔ text.head? ≠ some '[') ∧
      ∀ extent, Extent.scan? text = some extent ↔
        text.head? = some '[' ∧ Extent.Counted text extent := by
  by_cases bracket : text.head? = some '['
  · obtain ⟨body, rfl⟩ := List.head?_eq_some_iff.mp bracket
    obtain ⟨found, scan, counted⟩ := Extent.exists_counted body
    refine ⟨by simp [scan], ?_⟩
    intro extent
    rw [scan, Option.some_inj]
    constructor
    · rintro rfl
      exact ⟨bracket, counted⟩
    · intro other
      exact counted.unique other.2
  · have missing : Extent.scan? text = none := by
      refine Extent.scan?_eq_none_iff.mpr fun body same => bracket ?_
      rw [same, List.head?_cons]
    simp [missing, bracket]

end InlineScript
