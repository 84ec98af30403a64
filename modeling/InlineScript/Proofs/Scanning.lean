import InlineScript.Piece
import InlineScript.Proofs.Nesting

/-! The scan for the end of a group finds what a plain count of the depth finds.
At each step the two remembered brackets are the first of their kind from the place
of the scan on, so a scan may be followed character by character: characters that
are no brackets change its place and nothing else. -/

namespace InlineScript

namespace Place

theorem seekFrom_self (c : Char) (offset : Nat) (cs : Text) :
    seekFrom c offset (c :: cs) = some ⟨offset, c :: cs⟩ := by
  simp [seekFrom]

theorem seekFrom_other {c d : Char} (h : d ≠ c) (offset : Nat) (cs : Text) :
    seekFrom c offset (d :: cs) = seekFrom c (offset + d.utf8Size) cs := by
  simp [seekFrom, h]

theorem seekFrom_eq_none_iff {c : Char} {offset : Nat} {t : Text} :
    seekFrom c offset t = none ↔ c ∉ t := by
  induction t generalizing offset with
  | nil => simp [seekFrom]
  | cons d t ih =>
    by_cases h : d = c
    · subst h
      simp [seekFrom_self]
    · rw [seekFrom_other h, ih]
      simp [Ne.symm h]

theorem offset_le_seekFrom {c : Char} {offset : Nat} {t : Text} {q : Place}
    (h : seekFrom c offset t = some q) : offset ≤ q.offset := by
  induction t generalizing offset with
  | nil => simp [seekFrom] at h
  | cons d t ih =>
    by_cases same : d = c
    · subst same
      rw [seekFrom_self] at h
      simp [← Option.some.inj h]
    · rw [seekFrom_other same] at h
      have further := ih h
      omega

end Place

namespace Extent

/-- The extent that a count of the depth finds in a text that begins at `offset`,
when `d` groups are open inside the one that is to close. -/
def byDepth (offset d : Nat) : Text → Extent
  | [] => ⟨offset, false⟩
  | c :: cs =>
    match Role.of c, d with
    | .opener, d => byDepth (offset + c.utf8Size) (d + 1) cs
    | .closer, 0 => ⟨offset + c.utf8Size, true⟩
    | .closer, d + 1 => byDepth (offset + c.utf8Size) d cs
    | _, d => byDepth (offset + c.utf8Size) d cs

section
variable (offset d : Nat) (t : Text)

theorem byDepth_opener : byDepth offset d ('[' :: t) = byDepth (offset + 1) (d + 1) t := rfl

theorem byDepth_closer_zero : byDepth offset 0 (']' :: t) = ⟨offset + 1, true⟩ := rfl

theorem byDepth_closer_succ :
    byDepth offset (d + 1) (']' :: t) = byDepth (offset + 1) d t := rfl

theorem byDepth_other {c : Char} (opener : c ≠ '[') (closer : c ≠ ']') :
    byDepth offset d (c :: t) = byDepth (offset + c.utf8Size) d t := by
  cases role : Role.of c with
  | opener => exact absurd (Role.of_eq_opener_iff.mp role) opener
  | closer => exact absurd (Role.of_eq_closer_iff.mp role) closer
  | marker => simp [byDepth, role]
  | separator => simp [byDepth, role]
  | literal => simp [byDepth, role]

end

theorem byDepth_closed {d : Nat} {inner : Text} (h : inner.depth? d = some 0)
    (offset : Nat) (rest : Text) :
    byDepth offset d (inner ++ ']' :: rest) = ⟨offset + inner.size + 1, true⟩ := by
  induction inner generalizing offset d with
  | nil =>
    have none_open : d = 0 := by simpa using h
    rw [none_open, List.nil_append, byDepth_closer_zero, Text.size_nil, Nat.add_zero]
  | cons c inner ih =>
    rw [List.cons_append, Text.size_cons, ← Nat.add_assoc]
    by_cases opener : c = '['
    · subst opener
      exact ih (by simpa using h) _
    · by_cases closer : c = ']'
      · subst closer
        cases d with
        | zero => simp at h
        | succ d => exact ih (by simpa using h) _
      · rw [Text.depth?_other opener closer] at h
        rw [byDepth_other _ _ _ opener closer, ih h]

theorem byDepth_unclosed {d e : Nat} {t : Text} (h : t.depth? d = some e) (offset : Nat) :
    byDepth offset d t = ⟨offset + t.size, false⟩ := by
  induction t generalizing offset d with
  | nil => rfl
  | cons c t ih =>
    rw [Text.size_cons, ← Nat.add_assoc]
    by_cases opener : c = '['
    · subst opener
      exact ih (by simpa using h) _
    · by_cases closer : c = ']'
      · subst closer
        cases d with
        | zero => simp at h
        | succ d => exact ih (by simpa using h) _
      · rw [Text.depth?_other opener closer] at h
        rw [byDepth_other _ _ _ opener closer, ih h]

theorem byDepth_of_not_mem {t : Text} (h : ']' ∉ t) (offset d : Nat) :
    byDepth offset d t = ⟨offset + t.size, false⟩ := by
  induction t generalizing offset d with
  | nil => rfl
  | cons c t ih =>
    have closer : c ≠ ']' := fun same => h (same ▸ List.mem_cons_self)
    have others := ih fun mem => h (List.mem_cons_of_mem c mem)
    rw [Text.size_cons, ← Nat.add_assoc]
    by_cases opener : c = '['
    · subst opener
      exact others _ _
    · rw [byDepth_other _ _ _ opener closer, others]

namespace Scan

section
variable {κ : Type}

/-- The remembered brackets are the first ones from the place of the scan on. -/
structure Cached (s : Scan κ) : Prop where
  opening : s.nextOpen = s.place.seek? '['
  closing : s.nextClose = s.place.seek? ']'

variable {s : Scan κ} {offset : Nat} {cs : Text}

theorem cached_skip (cached : s.Cached) {c : Char} (opener : c ≠ '[') (closer : c ≠ ']')
    (here : s.place = ⟨offset, c :: cs⟩) :
    { s with place := ⟨offset + c.utf8Size, cs⟩ }.Cached := by
  constructor
  · change s.nextOpen = _
    rw [cached.opening, here]
    exact Place.seekFrom_other opener _ _
  · change s.nextClose = _
    rw [cached.closing, here]
    exact Place.seekFrom_other closer _ _

variable [OfNat κ 1]

theorem cached_start [OfNat κ 0] (p : Place) : (start p : Scan κ).Cached := ⟨rfl, rfl⟩

variable [Add κ]

theorem cached_enter (cached : s.Cached) (here : s.place = ⟨offset, '[' :: cs⟩) :
    (s.enter ⟨offset, '[' :: cs⟩).Cached := by
  refine ⟨rfl, ?_⟩
  change s.nextClose = _
  rw [cached.closing, here]
  exact Place.seekFrom_other (by decide) _ _

theorem cached_leave (cached : s.Cached) (here : s.place = ⟨offset, ']' :: cs⟩) :
    (s.leave ⟨offset, ']' :: cs⟩).Cached := by
  refine ⟨?_, rfl⟩
  change s.nextOpen = _
  rw [cached.opening, here]
  exact Place.seekFrom_other (by decide) _ _

variable [LT κ] [DecidableLT κ]

theorem run_of_step?_none (h : s.step? = none) : s.run = s := by
  rw [run]
  split <;> simp_all

theorem run_of_step?_some {t : Scan κ} (h : s.step? = some t) : s.run = t.run := by
  rw [run]
  split <;> simp_all

theorem extent_run_place (going : s.closes < s.opens) {p : Place}
    (same : p.offset + p.rest.size = s.place.offset + s.place.rest.size) :
    { s with place := p }.run.extent = s.run.extent := by
  have step : { s with place := p }.step? = s.step? := rfl
  cases h : s.step? with
  | none =>
    rw [run_of_step?_none h, run_of_step?_none (step.trans h)]
    simp [extent, going, same]
  | some t => rw [run_of_step?_some h, run_of_step?_some (step.trans h)]

theorem step?_none (cached : s.Cached) (last : ']' ∉ s.place.rest) : s.step? = none := by
  have missing : s.nextClose = none :=
    cached.closing.trans (Place.seekFrom_eq_none_iff.mpr last)
  simp [step?, missing]

theorem step?_opener (cached : s.Cached) (going : s.closes < s.opens)
    (here : s.place = ⟨offset, '[' :: cs⟩) (more : ']' ∈ cs) :
    s.step? = some (s.enter ⟨offset, '[' :: cs⟩) := by
  have opening : s.nextOpen = some ⟨offset, '[' :: cs⟩ := by
    rw [cached.opening, here]
    exact Place.seekFrom_self _ _ _
  cases closing : s.nextClose with
  | none =>
    rw [cached.closing, here] at closing
    exact absurd (List.mem_cons_of_mem _ more) (Place.seekFrom_eq_none_iff.mp closing)
  | some q =>
    have nearer : offset < q.offset := by
      rw [cached.closing, here] at closing
      have further : offset + 1 ≤ q.offset :=
        Place.offset_le_seekFrom ((Place.seekFrom_other (by decide) _ _).symm.trans closing)
      omega
    simp [step?, going, opening, closing, nearer]

theorem step?_closer (cached : s.Cached) (going : s.closes < s.opens)
    (here : s.place = ⟨offset, ']' :: cs⟩) :
    s.step? = some (s.leave ⟨offset, ']' :: cs⟩) := by
  have closing : s.nextClose = some ⟨offset, ']' :: cs⟩ := by
    rw [cached.closing, here]
    exact Place.seekFrom_self _ _ _
  cases opening : s.nextOpen with
  | none => simp [step?, going, opening, closing]
  | some q =>
    have further : offset ≤ q.offset := by
      rw [cached.opening, here] at opening
      exact Place.offset_le_seekFrom opening
    simp [step?, going, opening, closing, Nat.not_lt.mpr further]

end

theorem extent_run {s : Scan Nat} (cached : s.Cached) {d : Nat}
    (depth : s.opens = s.closes + (d + 1)) {offset : Nat} {t : Text}
    (here : s.place = ⟨offset, t⟩) : s.run.extent = byDepth offset d t := by
  have going : s.closes < s.opens := by omega
  -- On the text, not on the steps: a step jumps over characters that are no brackets, and
  -- without a closing bracket ahead there is no step at all.
  induction t generalizing s d offset with
  | nil =>
    rw [run_of_step?_none (step?_none cached (by simp [here]))]
    simp [extent, going, here, byDepth]
  | cons c cs ih =>
    by_cases opener : c = '['
    · subst opener
      by_cases more : ']' ∈ cs
      · rw [run_of_step?_some (step?_opener cached going here more), byDepth_opener]
        refine ih (cached_enter cached here) ?_ rfl ?_
        · simp only [enter]
          omega
        · simp only [enter]
          omega
      · have last : ']' ∉ '[' :: cs := by simpa using more
        rw [run_of_step?_none (step?_none cached (by rwa [here])), byDepth_of_not_mem last]
        simp [extent, going, here]
    · by_cases closer : c = ']'
      · subst closer
        rw [run_of_step?_some (step?_closer cached going here)]
        cases d with
        | zero =>
          have caught : ¬ s.closes + 1 < s.opens := by omega
          have done : (s.leave ⟨offset, ']' :: cs⟩).step? = none := by
            simp [step?, leave, caught]
          rw [run_of_step?_none done, byDepth_closer_zero]
          simp only [extent, leave, caught, if_false, Place.next_cons]
          rfl
        | succ d =>
          rw [byDepth_closer_succ]
          refine ih (cached_leave cached here) ?_ rfl ?_
          · simp only [leave]
            omega
          · simp only [leave]
            omega
      · rw [byDepth_other _ _ _ opener closer,
          ← extent_run_place going (p := ⟨offset + c.utf8Size, cs⟩) (by simp [here, Nat.add_assoc])]
        exact ih (cached_skip cached opener closer here) depth rfl going

end Scan

theorem after_eq_byDepth (body : Text) : after body = byDepth 1 0 body :=
  Scan.extent_run (Scan.cached_start _) rfl rfl

theorem after_closed {inner : Text} (h : inner.Balanced) (rest : Text) :
    after (inner ++ ']' :: rest) = ⟨1 + inner.size + 1, true⟩ := by
  rw [after_eq_byDepth, byDepth_closed h]

theorem after_unclosed {t : Text} (h : t.Nests) : after t = ⟨1 + t.size, false⟩ := by
  obtain ⟨d, depth⟩ := h
  rw [after_eq_byDepth, byDepth_unclosed depth]

end Extent

/-- A group that is what the brackets before `rest` make of it: it closes at its last
character and nowhere before, or it does not close and takes in all there is. -/
inductive Group.Fits : Group → Text → Prop
  | closed {inner : Text} (balanced : inner.Balanced) (rest : Text) :
    Fits ⟨inner ++ [']'], true⟩ rest
  | unclosed {inner : Text} (nests : inner.Nests) : Fits ⟨inner, false⟩ []

namespace Group

theorem Fits.closed_or {g : Group} {rest : Text} (h : g.Fits rest) :
    g.closed = true ∨ rest = [] := by
  cases h with
  | closed => exact .inl rfl
  | unclosed => exact .inr rfl

theorem cut_of_fits {g : Group} {rest : Text} (h : g.Fits rest) :
    cut (g.body ++ rest) = (g, rest) := by
  cases h with
  | @closed inner balanced =>
    have size : 1 + inner.size + 1 - 1 = (inner ++ [']']).size := by
      simp only [Text.size_append, Text.size_cons, Text.size_nil]
      change _ = inner.size + 1
      omega
    have whole : inner ++ ']' :: rest = (inner ++ [']']) ++ rest := by simp
    simp only [cut, List.append_assoc, List.singleton_append]
    rw [Extent.after_closed balanced, size, whole, Text.cut_size_append]
  | @unclosed inner nests =>
    simp only [cut, List.append_nil]
    rw [Extent.after_unclosed nests, Nat.add_sub_cancel_left]
    have whole := Text.cut_size_append inner []
    rw [List.append_nil] at whole
    rw [whole]

theorem fits_cut (t : Text) : (cut t).1.Fits (cut t).2 := by
  obtain ⟨inner, rest, rfl, balanced⟩ | nests := Text.closes_or_depth? 0 t
  · have fits := Fits.closed balanced rest
    have cut := cut_of_fits fits
    rw [List.append_assoc, List.singleton_append] at cut
    rw [cut]
    exact fits
  · have fits := Fits.unclosed nests
    have cut := cut_of_fits fits
    rw [List.append_nil] at cut
    rw [cut]
    exact fits

theorem closing_of_fits {g : Group} {rest : Text} (h : g.Fits rest) (closed : g.closed = true) :
    g.closing = [']'] := by
  cases h with
  | closed => simp [closing]
  | unclosed => simp at closed

theorem closing_of_unclosed {g : Group} (h : g.closed = false) : g.closing = [] := by
  simp [closing, h]

theorem settles_inner {g : Group} {rest : Text} (fits : g.Fits rest) :
    g.inner.Settles g.closed := by
  cases fits with
  | @closed inner balanced =>
    have inside : Group.inner ⟨inner ++ [']'], true⟩ = inner := by simp [Group.inner]
    rw [inside]
    exact ⟨0, balanced, fun _ => rfl⟩
  | @unclosed inner nests =>
    obtain ⟨d, depth⟩ := nests
    exact ⟨d, depth, by simp⟩

theorem settles_content_append_iff {g : Group} {rest : Text} (fits : g.Fits rest) {closes : Bool} :
    (g.content ++ rest).Settles closes ↔
      (g.closed = false → closes = false) ∧ rest.Settles closes := by
  cases fits with
  | @closed inner balanced =>
    have up := Text.depth?_add balanced 1
    rw [Nat.zero_add] at up
    simp [Text.Settles, content, Text.depth?_append, up]
  | @unclosed inner nests =>
    obtain ⟨d, depth⟩ := nests
    have up : Text.depth? 0 ('[' :: inner) = some (d + 1) := Text.depth?_add depth 1
    simp [Text.Settles, content, up]

end Group

/-- What lies between the brackets of a group in front of `after`: the group ends at
the bracket that follows, or with the text. -/
def Enclosed (slice after : Text) : Prop :=
  ∃ closes, slice.Settles closes ∧ if closes then ∃ rest, after = ']' :: rest else after = []

namespace Enclosed

variable {run rest after : Text} {g : Group}

theorem skip (plain : run.Bracketless) (h : Enclosed (run ++ rest) after) :
    Enclosed rest after := by
  obtain ⟨closes, settles, limit⟩ := h
  exact ⟨closes, (Text.settles_append_iff plain).mp settles, limit⟩

theorem not_closer : ¬ Enclosed (']' :: rest) after := by
  intro h
  obtain ⟨closes, settles, -⟩ := h
  exact Text.not_settles_closer settles

theorem closed_or (fits : g.Fits rest) (h : Enclosed (g.content ++ rest) after) :
    g.closed = true ∨ rest ++ after = [] := by
  obtain ⟨closes, settles, limit⟩ := h
  have outer := ((Group.settles_content_append_iff fits).mp settles).1
  by_cases closed : g.closed = true
  · exact .inl closed
  · have nothing := fits.closed_or.resolve_left closed
    rw [outer (by simpa using closed)] at limit
    exact .inr (by simpa [nothing] using limit)

theorem leave (fits : g.Fits rest) (h : Enclosed (g.content ++ rest) after) :
    Enclosed rest after := by
  obtain ⟨closes, settles, limit⟩ := h
  exact ⟨closes, ((Group.settles_content_append_iff fits).mp settles).2, limit⟩

theorem enter (fits : g.Fits rest) {t : Text} (limit : g.closed = true ∨ t = []) :
    Enclosed g.inner (g.closing ++ t) := by
  refine ⟨g.closed, Group.settles_inner fits, ?_⟩
  by_cases closed : g.closed = true
  · simp [closed, Group.closing_of_fits fits closed]
  · have nothing := limit.resolve_left closed
    rw [Group.closing_of_unclosed (by simpa using closed)]
    simp [closed, nothing]

theorem head?_after (h : Enclosed rest after) : ∀ c ∈ after.head?, c = ']' := by
  obtain ⟨_ | _, -, limit⟩ := h
  · have nothing : after = [] := by simpa using limit
    simp [nothing]
  · obtain ⟨others, whole⟩ : ∃ others, after = ']' :: others := by simpa using limit
    simp [whole, eq_comm]

theorem forall_head? {P : Char → Prop} (h : Enclosed rest after) (first : ∀ c ∈ rest.head?, P c)
    (closer : P ']') : ∀ c ∈ (rest ++ after).head?, P c := by
  cases rest with
  | nil =>
    intro c hc
    rw [h.head?_after c hc]
    exact closer
  | cons c rest => simpa using first

end Enclosed

end InlineScript
