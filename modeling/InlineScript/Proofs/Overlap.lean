import InlineScript.Proofs.Wrapping

/-! Two scans that read the same brackets. A scan of the front part of a text sees fewer brackets
than a scan of the whole, and finds the same group if that closes in the front part. A scan from a
bracket further on shares none of the counts of the first, and still its group closes inside the
first one if it begins there. Both are laws of counting, and fail where counters wrap around. -/

namespace InlineScript

namespace Text

variable {s t : Text}

theorem slice?_zero_iff {m : Nat} : t.slice? 0 m = some s ↔ s <+: t ∧ s.size = m := by
  rw [slice?_eq_some_iff]
  constructor
  · rintro ⟨before, after, rfl, start, stop⟩
    have nothing : before = [] := by
      by_contra filled
      have room := size_pos filled
      omega
    subst nothing
    exact ⟨List.prefix_append s after, by omega⟩
  · rintro ⟨⟨after, rfl⟩, rfl⟩
    exact ⟨[], after, rfl, rfl, Nat.zero_add _⟩

end Text

namespace Extent

/-- What a scan of the first `size` bytes of a text should find where a scan of all of it finds
the extent: the same if the group closes in them, and otherwise all of them. -/
def truncate (e : Extent) (size : Nat) : Extent :=
  if e.closed = true ∧ e.length ≤ size then e else ⟨size, false⟩

theorem truncate_length (e : Extent) : e.truncate e.length = e := by
  obtain ⟨length, _ | _⟩ := e <;> simp [truncate]

theorem truncate_eq_self {e : Extent} {size : Nat} (h : (e.truncate size).closed = true) :
    e.truncate size = e := by
  unfold truncate at h ⊢
  split at h
  · rw [if_pos ‹_›]
  · simp at h

namespace Counted

variable {text front : Text} {e : Extent}

theorem truncate (h : Counted text e) (isFront : front <+: text) :
    Counted front (e.truncate front.size) := by
  cases h with
  | @closed group first =>
    by_cases within : group.size ≤ front.size
    · rw [Extent.truncate, if_pos ⟨rfl, within⟩]
      refine .closed ⟨Text.prefix_of_size_le first.isFront isFront within, first.level, ?_⟩
      intro s inFront
      exact first.first s (inFront.trans isFront)
    · rw [Extent.truncate, if_neg fun h => within h.2]
      refine .unclosed fun s inFront level => within ?_
      have reached := first.first s (inFront.trans isFront) level
      exact Text.size_le_of_prefix (reached.trans inFront)
  | unclosed never =>
    rw [Extent.truncate, if_neg (by simp)]
    exact .unclosed fun s inFront => never s (inFront.trans isFront)

theorem exists_front (h : Counted text e) (filled : text ≠ []) :
    ∃ s : Text, s <+: text ∧ s ≠ [] ∧ s.size = e.length := by
  cases h with
  | closed first => exact ⟨_, first.isFront, first.level.filled, rfl⟩
  | unclosed => exact ⟨text, List.prefix_rfl, filled, rfl⟩

theorem scan? (h : Counted text e) (bracket : text.head? = some '[') :
    Extent.scan? text = some e := by
  obtain ⟨body, rfl⟩ := List.head?_eq_some_iff.mp bracket
  obtain ⟨found, scan, counted⟩ := exists_counted body
  rw [scan, counted.unique h]

theorem scan?_front (h : Counted text e) (bracket : text.head? = some '[')
    (isFront : front <+: text) (filled : front ≠ []) :
    Extent.scan? front = some (e.truncate front.size) := by
  refine (h.truncate isFront).scan? ?_
  obtain ⟨more, rfl⟩ := isFront
  rwa [List.head?_append_of_ne_nil _ filled] at bracket

end Counted

/-- A text may be cut anywhere behind its first bracket. A scan of what is left finds the group of
the whole text if that closes before the cut, and an unclosed group up to the cut if it does not.
So a scan of what a scan has reported reports the same, and nothing that is appended changes a
group that closes. -/
def Truncates (scan : Text → Option Extent) (text : Text) : Prop :=
  ∃ e, scan text = some e ∧
    (∀ m front, 1 ≤ m → text.slice? 0 m = some front → scan front = some (e.truncate m)) ∧
    (∃ front, text.slice? 0 e.length = some front ∧ scan front = some e) ∧
    (e.closed = true → ∀ more, scan (text ++ more) = some e)

section
variable {text : Text}

theorem truncates_scan? (bracket : text.head? = some '[') : Truncates scan? text := by
  obtain ⟨body, rfl⟩ := List.head?_eq_some_iff.mp bracket
  obtain ⟨e, scan, counted⟩ := exists_counted body
  refine ⟨e, scan, ?_, ?_, ?_⟩
  · intro m front start cut
    obtain ⟨isFront, rfl⟩ := Text.slice?_zero_iff.mp cut
    have filled : front ≠ [] := by
      rintro rfl
      simp at start
    exact counted.scan?_front bracket isFront filled
  · obtain ⟨front, isFront, filled, size⟩ := counted.exists_front (by simp)
    have again := counted.scan?_front bracket isFront filled
    rw [size, truncate_length] at again
    exact ⟨front, Text.slice?_zero_iff.mpr ⟨isFront, size⟩, again⟩
  · intro closed more
    -- The longer text is the one that is cut.
    obtain ⟨e', scan', counted'⟩ := exists_counted (body ++ more)
    have cut := counted'.truncate (List.prefix_append ('[' :: body) more)
    obtain rfl := cut.unique counted
    rw [truncate_eq_self closed]
    exact scan'

variable {κ : Type} [OfNat κ 0] [OfNat κ 1] [Add κ] [LT κ] [DecidableLT κ]
variable {bound : Nat} {f : Nat → κ}

theorem Truncates.scanIn? (h : Truncates scan? text) (counter : Scan.Counter bound f)
    (bracket : text.head? = some '[') (few : List.count '[' text < bound) :
    Truncates (Extent.scanIn? κ) text := by
  obtain ⟨e, found, fronts, ⟨first, here, again⟩, appended⟩ := h
  have low {front : Text} (isFront : front <+: text) : List.count '[' front < bound :=
    (isFront.sublist.count_le '[').trans_lt few
  obtain ⟨isFirst, size⟩ := Text.slice?_zero_iff.mp here
  refine ⟨e, ?_, ?_, ⟨first, here, ?_⟩, ?_⟩
  · rwa [scanIn?_eq_scan? counter few]
  · intro m front start cut
    rw [scanIn?_eq_scan? counter (low (Text.slice?_zero_iff.mp cut).1)]
    exact fronts m front start cut
  · rwa [scanIn?_eq_scan? counter (low isFirst)]
  · intro closed more
    have within : e.length ≤ text.size := size ▸ Text.size_le_of_prefix isFirst
    exact scanIn?_append counter bracket few (appended closed more) closed within

end

end Extent

/-- Cutting a text cuts what a scan of it finds. This is so in every text with counters that are
exact numbers, and with signed numbers of 32 bits, which wrap around, as long as the text has
fewer than `2 ^ 31` opening brackets. -/
theorem scan?_truncate {text : Text} (bracket : text.head? = some '[') :
    Extent.Truncates Extent.scan? text ∧
      (List.count '[' text < 2 ^ 31 → Extent.Truncates (Extent.scanIn? Int32) text) :=
  ⟨Extent.truncates_scan? bracket,
    (Extent.truncates_scan? bracket).scanIn? Extent.Scan.counter_int32 bracket⟩

theorem scan?_truncate_nested :
    "[é[x]y]z".toList.head? = some '[' ∧ List.count '[' "[é[x]y]z".toList < 2 ^ 31 ∧
      Extent.scan? "[é[x]".toList = some ⟨6, false⟩ ∧
      Extent.scanIn? Int32 "[é[x]y]".toList = some ⟨8, true⟩ ∧
      Extent.scanIn? Int32 "[é[x]y]z[".toList = some ⟨8, true⟩ := by
  have few : List.count '[' "[é[x]y]z".toList < 2 ^ 31 := by decide +kernel
  obtain ⟨⟨e, scan, front, -⟩, wraps⟩ := @scan?_truncate "[é[x]y]z".toList rfl
  obtain ⟨e', scan', front', -, more⟩ := wraps few
  obtain rfl : ⟨8, true⟩ = e := by
    have found : Extent.scan? "[é[x]y]z".toList = some ⟨8, true⟩ := by decide +kernel
    exact Option.some.inj (found.symm.trans scan)
  obtain rfl : ⟨8, true⟩ = e' := by
    have found : Extent.scanIn? Int32 "[é[x]y]z".toList = some ⟨8, true⟩ := by decide +kernel
    exact Option.some.inj (found.symm.trans scan')
  refine ⟨rfl, few, front 6 _ (by decide) (by decide +kernel), ?_, more rfl ['[']⟩
  exact front' 8 _ (by decide) (by decide +kernel)

/-- Of `2 ^ 31` opening brackets a scan that wraps around takes the last one for the end of its
group, but a scan up to there finds the group unclosed. -/
theorem not_truncates_openers :
    ¬ Extent.Truncates (Extent.scanIn? Int32) (Text.openers (2 ^ 31)) := by
  rintro ⟨e, found, fronts, -⟩
  rw [Extent.scanIn?_openers Extent.Scan.counter_int32 (by decide) (by decide) le_rfl] at found
  obtain rfl := Option.some.inj found
  have front := Text.slice?_zero_iff.mpr
    ⟨List.prefix_append (List.replicate (2 ^ 31) '[') [']'], Text.size_replicate_opener _⟩
  have again := fronts _ _ (by decide) front
  rw [Extent.scanIn?_replicate (by decide) (by decide)] at again
  simp [Extent.truncate] at again

theorem Text.Balanced.exists_closed {s t : Text} (h : (s ++ '[' :: t).Balanced) :
    ∃ inner rest, t = inner ++ ']' :: rest ∧ inner.Balanced := by
  obtain closes | ⟨e, goesOn⟩ := closes_or_depth? 0 t
  · exact closes
  · rw [Balanced, depth?_append] at h
    obtain ⟨d, -, behind⟩ := Option.bind_eq_some_iff.mp h
    have up := depth?_add goesOn (d + 1)
    rw [Nat.zero_add, ← depth?_opener, behind] at up
    simp at up

theorem Group.exists_fits (t : Text) :
    ∃ (g : Group) (rest : Text), '[' :: t = g.content ++ rest ∧ g.Fits rest :=
  ⟨_, _, (content_cut_append t).symm, fits_cut t⟩

namespace Group.Fits

variable {g g' : Group} {rest rest' front back : Text}

theorem unique (fits : g.Fits rest) (fits' : g'.Fits rest')
    (same : g.content ++ rest = g'.content ++ rest') : g = g' ∧ rest = rest' := by
  have body : g.body ++ rest = g'.body ++ rest' := by simpa [content] using same
  have cut := cut_of_fits fits
  rw [body, cut_of_fits fits'] at cut
  exact Prod.mk.inj cut.symm

theorem exists_inner (fits : g.Fits rest) (closed : g.closed = true)
    (whole : '[' :: (front ++ '[' :: back) = g.content ++ rest)
    (within : 1 + front.size < g.content.size) :
    ∃ behind, g.inner = front ++ '[' :: behind ∧ back = behind ++ ']' :: rest := by
  rw [content_eq, closing_of_fits fits closed] at whole within
  replace whole : front ++ '[' :: back = g.inner ++ (']' :: rest) := by simpa using whole
  have size : front.size ≤ g.inner.size := by
    rw [Text.size_cons, Text.size_append] at within
    have first : '['.utf8Size = 1 := rfl
    have last : Text.size [']'] = 1 := rfl
    omega
  have reached : front <+: g.inner := by
    refine Text.prefix_of_size_le ?_ (List.prefix_append g.inner (']' :: rest)) size
    rw [← whole]
    exact List.prefix_append _ _
  obtain ⟨behind, inner⟩ := reached
  rw [← inner, List.append_assoc, List.append_cancel_left_eq] at whole
  cases behind with
  | nil => simp at whole
  | cons c behind =>
    obtain ⟨rfl, rfl⟩ : '[' = c ∧ back = behind ++ ']' :: rest := by simpa using whole
    exact ⟨behind, inner.symm, rfl⟩

theorem balanced_inner (fits : g.Fits rest) (closed : g.closed = true) : g.inner.Balanced := by
  obtain ⟨d, depth, settled⟩ := settles_inner fits
  rwa [settled closed] at depth

theorem nested (fits : g.Fits rest) (fits' : g'.Fits rest') (closed : g.closed = true)
    (whole : '[' :: (front ++ '[' :: back) = g.content ++ rest)
    (here : '[' :: back = g'.content ++ rest') (within : 1 + front.size < g.content.size) :
    g'.closed = true ∧ 1 + front.size + g'.content.size < g.content.size := by
  obtain ⟨behind, between, rfl⟩ := fits.exists_inner closed whole within
  have balanced := fits.balanced_inner closed
  rw [between] at balanced
  obtain ⟨inner, others, rfl, settled⟩ := balanced.exists_closed
  have found : Group.content ⟨inner ++ [']'], true⟩ ++ (others ++ ']' :: rest) =
      g'.content ++ rest' := by
    rw [← here]
    simp [content]
  obtain ⟨rfl, -⟩ := (Group.Fits.closed settled _).unique fits' found
  refine ⟨rfl, ?_⟩
  have parts : g.content =
      '[' :: (front ++ (Group.content ⟨inner ++ [']'], true⟩ ++ (others ++ [']']))) := by
    rw [content_eq, closing_of_fits fits closed, between]
    simp [content]
  have first : '['.utf8Size = 1 := rfl
  have last : 0 < Text.size (others ++ [']']) := Text.size_pos (by simp)
  rw [parts, Text.size_cons, Text.size_append, Text.size_append]
  omega

end Group.Fits

theorem Text.exists_between {text : Text} {i j : Nat} {c d : Char} (one : c.utf8Size = 1)
    (first : text.slice? i (i + 1) = some [c]) (second : text.slice? j (j + 1) = some [d])
    (before : i < j) :
    ∃ s front back : Text, text = s ++ c :: (front ++ d :: back) ∧ s.size = i ∧
      i + (1 + front.size) = j := by
  obtain ⟨s, t, rfl, rfl, -⟩ := slice?_eq_some_iff.mp first
  obtain ⟨s', back, whole, rfl, -⟩ := slice?_eq_some_iff.mp second
  have further : s ++ [c] <+: s' := by
    refine prefix_of_size_le ⟨t, List.append_assoc _ _ _⟩ ⟨_, whole.symm⟩ ?_
    rw [size_append, size_cons, size_nil, one]
    exact before
  obtain ⟨front, rfl⟩ := further
  refine ⟨s, front, back, by simpa using whole, rfl, ?_⟩
  rw [size_append, size_append, size_cons, size_nil, one, Nat.add_assoc]

namespace Extent

/-- Where a group closes that begins at `i`, a bracket in it at `j` opens a group that closes
before the closing bracket of the first one, though it is scanned for on its own. So of two groups
that close one lies in the other, or they lie apart, and no bracket closes both. -/
def LaminarAt (scan : Text → Option Extent) (text : Text) (i j : Nat) : Prop :=
  ∃ e e', scan (text.cut i).2 = some e ∧ scan (text.cut j).2 = some e' ∧
    (e.closed = true → j < i + e.length → e'.closed = true ∧ j + e'.length < i + e.length) ∧
    (e.closed = true → e'.closed = true →
      (i + e.length ≤ j ∨ j + e'.length < i + e.length) ∧ i + e.length ≠ j + e'.length)

section
variable {text : Text} {i j : Nat}

theorem laminarAt_scan? (outer : text.slice? i (i + 1) = some ['['])
    (inner : text.slice? j (j + 1) = some ['[']) (before : i < j) :
    LaminarAt scan? text i j := by
  obtain ⟨s, front, back, rfl, rfl, rfl⟩ := Text.exists_between rfl outer inner before
  obtain ⟨g, rest, first, fits⟩ := Group.exists_fits (front ++ '[' :: back)
  obtain ⟨g', rest', second, fits'⟩ := Group.exists_fits back
  have here := Text.cut_size_append s ('[' :: (front ++ '[' :: back))
  have there := Text.cut_size_append (s ++ '[' :: front) ('[' :: back)
  rw [List.append_assoc, List.cons_append, Text.size_append, Text.size_cons,
    show '['.utf8Size = 1 from rfl] at there
  have filled : 0 < g'.content.size := Text.size_pos (by simp [Group.content])
  refine ⟨⟨g.content.size, g.closed⟩, ⟨g'.content.size, g'.closed⟩, ?_, ?_, ?_, ?_⟩
  · rw [here, first, fits.scan?]
  · rw [there, second, fits'.scan?]
  · intro closed within
    have inside : 1 + front.size < g.content.size := Nat.lt_of_add_lt_add_left within
    obtain ⟨shut, shorter⟩ := fits.nested fits' closed first second inside
    refine ⟨shut, ?_⟩
    rw [Nat.add_assoc]
    exact Nat.add_lt_add_left shorter s.size
  · intro closed shut
    simp only
    by_cases inside : 1 + front.size < g.content.size
    · have shorter := (fits.nested fits' closed first second inside).2
      omega
    · omega

variable {κ : Type} [OfNat κ 0] [OfNat κ 1] [Add κ] [LT κ] [DecidableLT κ]
variable {bound : Nat} {f : Nat → κ}

theorem LaminarAt.scanIn? (h : LaminarAt scan? text i j) (counter : Scan.Counter bound f)
    (few : List.count '[' text < bound) : LaminarAt (Extent.scanIn? κ) text i j := by
  have low (n : Nat) : List.count '[' (text.cut n).2 < bound := by
    have behind : (text.cut n).2 <:+ text := ⟨_, Text.cut_append n text⟩
    exact (behind.sublist.count_le '[').trans_lt few
  obtain ⟨e, e', first, second, nested, apart⟩ := h
  refine ⟨e, e', ?_, ?_, nested, apart⟩
  · rwa [scanIn?_eq_scan? counter (low i)]
  · rwa [scanIn?_eq_scan? counter (low j)]

end

end Extent

/-- Groups are laminar, wherever in a text two of them begin. Exact numbers find them so in every
text, and signed numbers of 32 bits in a text with fewer than `2 ^ 31` opening brackets. -/
theorem scan?_laminar {text : Text} {i j : Nat} (outer : text.slice? i (i + 1) = some ['['])
    (inner : text.slice? j (j + 1) = some ['[']) (before : i < j) :
    Extent.LaminarAt Extent.scan? text i j ∧
      (List.count '[' text < 2 ^ 31 → Extent.LaminarAt (Extent.scanIn? Int32) text i j) :=
  ⟨Extent.laminarAt_scan? outer inner before,
    (Extent.laminarAt_scan? outer inner before).scanIn? Extent.Scan.counter_int32⟩

theorem scan?_laminar_nested :
    Text.slice? 1 2 "a[é[b;[c]]d][".toList = some ['['] ∧
      Text.slice? 4 5 "a[é[b;[c]]d][".toList = some ['['] ∧
      List.count '[' "a[é[b;[c]]d][".toList < 2 ^ 31 ∧
      ∃ e e', Extent.scanIn? Int32 "[é[b;[c]]d][".toList = some e ∧
        Extent.scanIn? Int32 "[b;[c]]d][".toList = some e' ∧ e.closed = true ∧ 4 < 1 + e.length ∧
        e'.closed = true ∧ 4 + e'.length < 1 + e.length := by
  let text : Text := "a[é[b;[c]]d][".toList
  have outer : text.slice? 1 2 = some ['['] := by decide +kernel
  have inner : text.slice? 4 5 = some ['['] := by decide +kernel
  have few : List.count '[' text < 2 ^ 31 := by decide +kernel
  have here : (text.cut 1).2 = "[é[b;[c]]d][".toList := by decide +kernel
  have there : (text.cut 4).2 = "[b;[c]]d][".toList := by decide +kernel
  obtain ⟨e, e', first, second, nested, -⟩ := (scan?_laminar outer inner (by decide)).2 few
  rw [here] at first
  rw [there] at second
  obtain rfl : ⟨12, true⟩ = e := by
    have found : Extent.scanIn? Int32 "[é[b;[c]]d][".toList = some ⟨12, true⟩ := by
      decide +kernel
    exact Option.some.inj (found.symm.trans first)
  exact ⟨outer, inner, few, _, e', first, second, rfl, by decide, nested rfl (by decide)⟩

/-- Of `2 ^ 31` opening brackets the last one opens a group that the closing bracket closes, and to
a scan that wraps around it also ends the group of the first one. -/
theorem not_laminarAt_openers :
    Text.slice? 0 (0 + 1) (Text.openers (2 ^ 31)) = some ['['] ∧
      Text.slice? (2 ^ 31 - 1) (2 ^ 31 - 1 + 1) (Text.openers (2 ^ 31)) = some ['['] ∧
      0 < 2 ^ 31 - 1 ∧
      ¬ Extent.LaminarAt (Extent.scanIn? Int32) (Text.openers (2 ^ 31)) 0 (2 ^ 31 - 1) := by
  refine ⟨Text.slice?_openers (by decide), Text.slice?_openers (by decide), by decide, ?_⟩
  rintro ⟨e, e', first, second, nested, -⟩
  have last : 2 ^ 31 - (2 ^ 31 - 1) = 1 := rfl
  have group : Extent.scanIn? Int32 (Text.openers 1) = some ⟨2, true⟩ := by decide +kernel
  rw [Text.cut, Extent.scanIn?_openers Extent.Scan.counter_int32 (by decide) (by decide) le_rfl]
    at first
  obtain rfl := Option.some.inj first
  rw [Text.cut_openers (by decide), last, group] at second
  obtain rfl := Option.some.inj second
  have before := (nested rfl (by decide)).2
  exact absurd before (by decide)

end InlineScript
