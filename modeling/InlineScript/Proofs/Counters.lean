import InlineScript.Proofs.Level
import Mathlib.Algebra.Group.Nat.Defs

/-! What a scan knows at each of its steps. It jumps from bracket to bracket and searches for one
kind at a time, so the bracket of the other kind is remembered from an earlier place; it is still
the first one from where the scan stands, since the nearer of the two is passed. So the counters
have counted every bracket before that place, and no counter goes beyond the opening brackets of
the text: a type that can count those is as good as the numbers themselves. -/

namespace InlineScript

namespace Text

variable {r s t : Text} {c : Char} {start further : Nat} {next : Option Nat}

theorem size_le_of_prefix (h : s <+: t) : s.size ≤ t.size := by
  obtain ⟨more, rfl⟩ := h
  rw [size_append]
  exact Nat.le_add_right _ _

theorem prefix_of_size_le (hr : r <+: t) (hs : s <+: t) (le : r.size ≤ s.size) : r <+: s := by
  obtain shorter | ⟨more, rfl⟩ := List.prefix_or_prefix_of_prefix hr hs
  · exact shorter
  · obtain rfl : more = [] := by
      by_contra filled
      have room := size_pos filled
      rw [size_append] at le
      omega
    exact ⟨[], by rw [List.append_nil, List.append_nil]⟩

/-- The first offset from `start` on at which `c` stands in a text, if there is one. -/
def FirstFrom (t : Text) (start : Nat) (c : Char) : Option Nat → Prop
  | some i => start ≤ i ∧ t.slice? i (i + 1) = some [c] ∧
      ∀ j, start ≤ j → j < i → t.slice? j (j + 1) ≠ some [c]
  | none => ∀ j, start ≤ j → t.slice? j (j + 1) ≠ some [c]

theorem FirstFrom.not_before (h : t.FirstFrom start c next) (ahead : ∀ i ∈ next, further ≤ i) :
    ∀ j, start ≤ j → j < further → t.slice? j (j + 1) ≠ some [c] := by
  intro j behind before
  cases next with
  | none => exact h j behind
  | some i => exact h.2.2 j behind (before.trans_le (ahead i rfl))

theorem FirstFrom.later (h : t.FirstFrom start c next) (le : start ≤ further)
    (ahead : ∀ i ∈ next, further ≤ i) : t.FirstFrom further c next := by
  cases next with
  | none => exact fun j behind => h j (le.trans behind)
  | some i => exact ⟨ahead i rfl, h.2.1, fun j behind => h.2.2 j (le.trans behind)⟩

theorem not_mem_iff_slice? (stops : Context.inside.stops c = true) (before run after : Text) :
    c ∉ run ↔ ∀ j, before.size ≤ j → j < before.size + run.size →
      slice? j (j + 1) (before ++ (run ++ after)) ≠ some [c] := by
  have within (j : Nat) (low : before.size ≤ j) (high : j < before.size + run.size) :
      slice? j (j + 1) (before ++ (run ++ after)) = some [c] ↔ (c, j) ∈ run.marks before.size := by
    rw [slice?_eq_mark_iff stops, marks_append, marks_append, List.mem_append, List.mem_append,
      Nat.zero_add]
    constructor
    · rintro (front | here | back)
      · have bound := (bounds_of_mem_marks front).2
        simp only at bound
        omega
      · exact here
      · have bound := (bounds_of_mem_marks back).1
        simp only at bound
        omega
    · exact fun here => .inr (.inl here)
  constructor
  · intro missing j low high here
    obtain ⟨-, s, rest, rfl, -⟩ := mem_marks_iff.mp ((within j low high).mp here)
    exact missing (by simp)
  · intro never mem
    obtain ⟨s, rest, rfl⟩ := List.append_of_mem mem
    have first := c.utf8Size_pos
    have low : before.size ≤ before.size + size s := Nat.le_add_right _ _
    have high : before.size + size s < before.size + size (s ++ c :: rest) := by
      rw [size_append, size_cons]
      omega
    refine never _ low high ?_
    rw [within _ low high, mem_marks_iff]
    exact ⟨stops, s, rest, rfl, rfl⟩

end Text

namespace Place

def On (text : Text) (p : Place) : Prop :=
  ∃ before, before ++ p.rest = text ∧ p.offset = before.size

variable {text : Text} {p q : Place} {c : Char}

theorem On.cons {offset : Nat} {cs : Text} (h : On text ⟨offset, c :: cs⟩) :
    On text ⟨offset + c.utf8Size, cs⟩ := by
  obtain ⟨before, rfl, rfl⟩ := h
  exact ⟨before ++ [c], by simp, by simp⟩

theorem On.next (on : p.On text) (shows : p.rest.head? = some c) (one : c.utf8Size = 1) :
    p.next.On text ∧ p.next.offset = p.offset + 1 := by
  obtain ⟨offset, t⟩ := p
  obtain ⟨cs, rfl⟩ := List.head?_eq_some_iff.mp shows
  rw [Place.next_cons]
  exact ⟨on.cons, by rw [one]⟩

theorem On.seek? (h : p.On text) : ∀ q ∈ p.seek? c, q.On text ∧ q.rest.head? = some c := by
  intro q found
  obtain ⟨cs, shows⟩ := head_seek? found
  refine ⟨?_, by rw [shows]; rfl⟩
  obtain ⟨offset, t⟩ := p
  rw [Option.mem_def, Place.seek?] at found
  induction t generalizing offset with
  | nil => simp [seekFrom] at found
  | cons d t ih =>
    by_cases same : d = c
    · subst same
      rw [seekFrom_self] at found
      rwa [← Option.some.inj found]
    · rw [seekFrom_other same] at found
      exact ih _ h.cons found

theorem exists_run_of_seekFrom {offset : Nat} {t : Text} (h : seekFrom c offset t = some q) :
    ∃ run, t = run ++ q.rest ∧ c ∉ run ∧ q.offset = offset + run.size := by
  induction t generalizing offset with
  | nil => simp [seekFrom] at h
  | cons d t ih =>
    by_cases same : d = c
    · subst same
      rw [seekFrom_self] at h
      rw [← Option.some.inj h]
      exact ⟨[], rfl, List.not_mem_nil, rfl⟩
    · rw [seekFrom_other same] at h
      obtain ⟨run, rfl, missing, further⟩ := ih h
      refine ⟨d :: run, rfl, ?_, ?_⟩
      · simp [Ne.symm same, missing]
      · rw [further, Text.size_cons, Nat.add_assoc]

theorem On.firstFrom (on : p.On text) (stops : Context.inside.stops c = true) :
    text.FirstFrom p.offset c ((p.seek? c).map Place.offset) := by
  obtain ⟨before, whole, offset⟩ := on
  cases found : p.seek? c with
  | none =>
    intro j behind here
    have missing : c ∉ p.rest := seekFrom_eq_none_iff.mp found
    obtain ⟨s, after, parts, size, -⟩ := Text.slice?_eq_some_iff.mp here
    have room : j < text.size := by
      have one : 0 < Text.size ([c] ++ after) := Text.size_pos (by simp)
      rw [parts, Text.size_append]
      omega
    rw [← whole, Text.size_append] at room
    rw [← List.append_nil p.rest] at whole
    rw [← whole] at here
    rw [offset] at behind
    exact (Text.not_mem_iff_slice? stops before p.rest []).mp missing j behind room here
  | some q =>
    obtain ⟨run, rest, missing, further⟩ := exists_run_of_seekFrom found
    obtain ⟨cs, shows⟩ := head_seek? found
    obtain ⟨stands, -⟩ := On.seek? ⟨before, whole, offset⟩ q found
    rw [rest] at whole
    refine ⟨by simp [further], ?_, ?_⟩
    · have one : c.utf8Size = 1 := by
        obtain rfl | rfl | rfl | rfl := Context.stops_inside_iff.mp stops <;> rfl
      obtain ⟨front, parts, size⟩ := stands
      rw [size, ← parts, Text.slice?_behind_iff one, shows]
      rfl
    · intro j behind within
      rw [← whole]
      rw [offset] at behind
      rw [further, offset] at within
      exact (Text.not_mem_iff_slice? stops before run q.rest).mp missing j behind within

end Place

namespace Extent

namespace Scan

section
variable {κ : Type} [OfNat κ 1] [Add κ] [LT κ] [DecidableLT κ] {s t : Scan κ} {body : Text}

theorem step?_cases (h : s.step? = some t) :
    s.closes < s.opens ∧
      ((∃ p, s.nextOpen = some p ∧ (∀ q ∈ s.nextClose, p.offset < q.offset) ∧ t = s.enter p) ∨
        ∃ q, s.nextClose = some q ∧ (∀ p ∈ s.nextOpen, q.offset ≤ p.offset) ∧ t = s.leave q) := by
  unfold step? at h
  split at h
  · next going =>
    refine ⟨going, ?_⟩
    obtain ⟨q, close, rfl⟩ := Option.map_eq_some_iff.mp h
    cases opening : s.nextOpen with
    | none => exact .inr ⟨q, close, by simp, rfl⟩
    | some p =>
      by_cases nearer : p.offset < q.offset
      · exact .inl ⟨p, rfl, by simpa [close] using nearer, if_pos nearer⟩
      · exact .inr ⟨q, close, by simpa using nearer, if_neg nearer⟩
  · cases h

theorem step?_run (s : Scan κ) : s.run.step? = none := by
  fun_induction Scan.run s with
  | case1 s last => exact last
  | case2 s t next ih => exact ih

structure On (text : Text) (s : Scan κ) : Prop where
  place : s.place.On text
  opening : ∀ p ∈ s.nextOpen, p.On text ∧ p.rest.head? = some '['
  closing : ∀ p ∈ s.nextClose, p.On text ∧ p.rest.head? = some ']'

theorem On.step {text : Text} (on : On text s) (next : s.step? = some t) : On text t := by
  obtain ⟨-, ⟨p, opening, -, rfl⟩ | ⟨q, closing, -, rfl⟩⟩ := step?_cases next
  · obtain ⟨here, shows⟩ := on.opening p opening
    obtain ⟨behind, -⟩ := here.next shows rfl
    exact ⟨behind, behind.seek?, on.closing⟩
  · obtain ⟨here, shows⟩ := on.closing q closing
    obtain ⟨behind, -⟩ := here.next shows rfl
    exact ⟨behind, on.opening, behind.seek?⟩

variable [OfNat κ 0]

/-- The states of a scan whose opening bracket stands before `body`. -/
inductive Reached (body : Text) : Scan κ → Prop
  | start : Reached body (start ⟨1, body⟩)
  | step {s t : Scan κ} (here : Reached body s) (next : s.step? = some t) : Reached body t

theorem Reached.run (here : Reached body s) : Reached body s.run := by
  fun_induction Scan.run s with
  | case1 => exact here
  | case2 s t next ih => exact ih (here.step next)

theorem Reached.run_eq (here : Reached body s) : s.run = (Scan.start ⟨1, body⟩ : Scan κ).run := by
  induction here with
  | start => rfl
  | step here next ih => rw [← run_of_step?_some next, ih]

theorem Reached.on (here : Reached body s) : On ('[' :: body) s := by
  induction here with
  | start =>
    have on : Place.On ('[' :: body) ⟨1, body⟩ := ⟨['['], rfl, rfl⟩
    exact ⟨on, on.seek?, on.seek?⟩
  | step here next ih => exact ih.step next

end

/-- What holds of a scan of a text whenever it looks for its next bracket: the counters have
counted the brackets of the part of the text behind it, and the remembered brackets are the first
ones of their kind from here on. -/
structure Counts (text : Text) (s : Scan Nat) : Prop where
  counters : ∃ front, front ++ s.place.rest = text ∧ s.place.offset = front.size ∧
    s.opens = front.count '[' ∧ s.closes = front.count ']'
  notMore : s.closes ≤ s.opens
  opening : text.FirstFrom s.place.offset '[' (s.nextOpen.map Place.offset)
  closing : text.FirstFrom s.place.offset ']' (s.nextClose.map Place.offset)

section
variable {text body : Text} {s t : Scan Nat} {p : Place} {c : Char}

theorem Counts.pass (counts : Counts text s) (on : p.On text) (shows : p.rest.head? = some c)
    (one : c.utf8Size = 1) (reached : s.place.offset ≤ p.offset)
    (unopened : ∀ q ∈ s.nextOpen, p.offset ≤ q.offset)
    (unclosed : ∀ q ∈ s.nextClose, p.offset ≤ q.offset) :
    s.place.offset < p.next.offset ∧
      ∃ front, front ++ p.next.rest = text ∧ p.next.offset = front.size ∧
        s.opens + [c].count '[' = front.count '[' ∧ s.closes + [c].count ']' = front.count ']' := by
  have noOpen : ∀ j, s.place.offset ≤ j → j < p.offset → text.slice? j (j + 1) ≠ some ['['] :=
    counts.opening.not_before (by simpa using unopened)
  have noClose : ∀ j, s.place.offset ≤ j → j < p.offset → text.slice? j (j + 1) ≠ some [']'] :=
    counts.closing.not_before (by simpa using unclosed)
  obtain ⟨front, whole, offset, opens, closes⟩ := counts.counters
  obtain ⟨before, parts, here⟩ := on
  obtain ⟨run, rfl⟩ : front <+: before := by
    refine Text.prefix_of_size_le ⟨_, whole⟩ ⟨_, parts⟩ ?_
    rwa [← offset, ← here]
  rw [Text.size_append] at here
  rw [List.append_assoc] at parts
  rw [offset, here, ← parts] at noOpen noClose
  rw [← Text.not_mem_iff_slice? (by decide), ← List.count_eq_zero] at noOpen noClose
  obtain ⟨start, rest⟩ := p
  obtain ⟨cs, rfl⟩ := List.head?_eq_some_iff.mp shows
  rw [Place.next_cons, one]
  refine ⟨Nat.lt_succ_of_le reached, front ++ run ++ [c], ?_, ?_, ?_, ?_⟩
  · simpa using parts
  · rw [Text.size_append, Text.size_append, Text.size_cons, Text.size_nil, one, ← here]
  · rw [List.count_append, List.count_append, noOpen, opens, Nat.add_zero]
  · rw [List.count_append, List.count_append, noClose, closes, Nat.add_zero]

theorem Counts.lt_of_le (counts : Counts text s) {q : Place} (closing : s.nextClose = some q)
    (nearer : ∀ p ∈ s.nextOpen, q.offset ≤ p.offset) : ∀ p ∈ s.nextOpen, q.offset < p.offset := by
  intro p opening
  refine (nearer p opening).lt_of_ne fun same => ?_
  have opens := counts.opening
  have closes := counts.closing
  rw [Option.mem_def.mp opening] at opens
  rw [closing] at closes
  have both := opens.2.1.symm.trans (same ▸ closes.2.1)
  simp at both

theorem Counts.step (counts : Counts text s) (on : On text s)
    (next : s.step? = some t) : Counts text t ∧ s.place.offset < t.place.offset := by
  obtain ⟨going, ⟨p, opening, nearer, rfl⟩ | ⟨q, closing, nearer, rfl⟩⟩ := step?_cases next
  · obtain ⟨here, shows⟩ := on.opening p opening
    obtain ⟨behind, offset⟩ := here.next shows rfl
    have first := counts.opening
    rw [opening] at first
    obtain ⟨further, passed⟩ := counts.pass here shows rfl first.1 (by simp [opening])
      fun q closing => (nearer q closing).le
    have ahead : ∀ j ∈ s.nextClose.map Place.offset, p.next.offset ≤ j := by
      rw [offset]
      simpa [Nat.succ_le_iff] using nearer
    exact ⟨⟨passed, counts.notMore.trans (Nat.le_succ _), behind.firstFrom rfl,
      counts.closing.later further.le ahead⟩, further⟩
  · obtain ⟨here, shows⟩ := on.closing q closing
    obtain ⟨behind, offset⟩ := here.next shows rfl
    have first := counts.closing
    rw [closing] at first
    obtain ⟨further, passed⟩ := counts.pass here shows rfl first.1 nearer (by simp [closing])
    have ahead : ∀ j ∈ s.nextOpen.map Place.offset, q.next.offset ≤ j := by
      rw [offset]
      simpa [Nat.succ_le_iff] using counts.lt_of_le closing nearer
    -- The loop goes on only while a group is open, so there is one left for this bracket.
    exact ⟨⟨passed, going, counts.opening.later further.le ahead, behind.firstFrom rfl⟩, further⟩

/-- What a scan of a group knows at its start, it knows at every step. -/
theorem Reached.counts (here : Reached body s) : Counts ('[' :: body) s := by
  induction here with
  | start =>
    have on : Place.On ('[' :: body) ⟨1, body⟩ := ⟨['['], rfl, rfl⟩
    exact ⟨⟨['['], rfl, rfl, rfl, rfl⟩, Nat.zero_le 1, on.firstFrom rfl, on.firstFrom rfl⟩
  | step here next ih => exact (ih.step here.on next).1

theorem Reached.offset_le_run (here : Reached body s) : s.place.offset ≤ s.run.place.offset := by
  fun_induction Scan.run s with
  | case1 => exact le_rfl
  | case2 s t next ih => exact (here.counts.step here.on next).2.le.trans (ih (here.step next))

theorem length_extent (closed : s.extent.closed = true) : s.extent.length = s.place.offset := by
  unfold extent at closed ⊢
  split
  · next going => simp [going] at closed
  · rfl

/-- No counter of a scan comes up to the bound. -/
def Below (bound : Nat) (body : Text) : Prop :=
  ∀ s : Scan Nat, s.Reached body → s.opens < bound ∧ s.closes < bound

theorem below_of_count {front : Text} {bound : Nat} (isFront : front <+: '[' :: body)
    (stays : ∀ s : Scan Nat, s.Reached body → s.place.offset ≤ front.size)
    (few : List.count '[' front < bound) : Below bound body := by
  intro s here
  obtain ⟨behind, whole, offset, opens, -⟩ := here.counts.counters
  have within : behind <+: front :=
    Text.prefix_of_size_le ⟨_, whole⟩ isFront (offset ▸ stays s here)
  have low : s.opens < bound := opens ▸ (within.sublist.count_le '[').trans_lt few
  exact ⟨low, here.counts.notMore.trans_lt low⟩

theorem below_of_few {bound : Nat} (few : List.count '[' ('[' :: body) < bound) :
    Below bound body := by
  refine below_of_count List.prefix_rfl (fun s here => ?_) few
  obtain ⟨behind, whole, offset, -⟩ := here.counts.counters
  rw [offset, ← whole, Text.size_append]
  exact Nat.le_add_right _ _

theorem below_of_closed {front : Text} {bound : Nat} (isFront : front <+: '[' :: body)
    (closed : (after body).closed = true) (within : (after body).length ≤ front.size)
    (few : List.count '[' front < bound) : Below bound body := by
  refine below_of_count isFront (fun s here => ?_) few
  have reaches := here.offset_le_run
  rw [here.run_eq, ← length_extent closed] at reaches
  exact reaches.trans within

end

/-! Counters of other types. -/

section
variable {κ : Type} {bound : Nat} {f : Nat → κ} {body : Text} {s : Scan Nat}

def map (f : Nat → κ) (s : Scan Nat) : Scan κ :=
  ⟨f s.opens, f s.closes, s.place, s.nextOpen, s.nextClose⟩

@[simp] theorem nextOpen_map : (s.map f).nextOpen = s.nextOpen := rfl

@[simp] theorem nextClose_map : (s.map f).nextClose = s.nextClose := rfl

variable [OfNat κ 0] [OfNat κ 1] [Add κ] [LT κ]

/-- `f` takes counting from zero over into `κ`, and below the bound also the order. -/
structure Counter (bound : Nat) (f : Nat → κ) : Prop where
  zero : f 0 = 0
  one : f 1 = 1
  succ (n : Nat) : f (n + 1) = f n + 1
  lt_iff {m n : Nat} : m < bound → n < bound → (f m < f n ↔ m < n)

theorem map_start (counter : Counter bound f) (p : Place) : (start p).map f = start p := by
  simp [map, start, counter.zero, counter.one]

variable [DecidableLT κ]

theorem step?_map (counter : Counter bound f) (opens : s.opens < bound)
    (closes : s.closes < bound) : (s.map f).step? = s.step?.map (map f) := by
  have going : (s.map f).closes < (s.map f).opens ↔ s.closes < s.opens :=
    counter.lt_iff closes opens
  have enter (p : Place) : (s.map f).enter p = (s.enter p).map f := by
    simp [map, Scan.enter, counter.succ]
  have leave (p : Place) : (s.map f).leave p = (s.leave p).map f := by
    simp [map, Scan.leave, counter.succ]
  by_cases goes : s.closes < s.opens
  · rw [step?, if_pos (going.mpr goes), step?, if_pos goes, Option.map_map, nextClose_map,
      nextOpen_map]
    congr 1
    funext q
    cases s.nextOpen with
    | none => exact leave q
    | some p =>
      by_cases nearer : p.offset < q.offset
      · simp [nearer, enter]
      · simp [nearer, leave]
  · rw [step?, if_neg (going.not.mpr goes), step?, if_neg goes]
    rfl

section
variable (counter : Counter bound f) (below : Below bound body)
include counter below

theorem Reached.map (here : Reached body s) : Reached body (s.map f) := by
  induction here with
  | start =>
    rw [map_start counter]
    exact .start
  | @step s t here next ih =>
    obtain ⟨opens, closes⟩ := below _ here
    refine ih.step ?_
    rw [step?_map counter opens closes, next]
    rfl

theorem Reached.exists_map {w : Scan κ} (here : Reached body w) :
    ∃ s : Scan Nat, Reached body s ∧ w = s.map f := by
  induction here with
  | start => exact ⟨_, .start, (map_start counter _).symm⟩
  | step here next ih =>
    obtain ⟨s, numbers, rfl⟩ := ih
    obtain ⟨opens, closes⟩ := below _ numbers
    rw [step?_map counter opens closes] at next
    obtain ⟨t, step, rfl⟩ := Option.map_eq_some_iff.mp next
    exact ⟨t, numbers.step step, rfl⟩

theorem extent_run_map (here : Reached body s) : (s.map f).run.extent = s.run.extent := by
  fun_induction Scan.run s with
  | case1 s last =>
    obtain ⟨opens, closes⟩ := below _ here
    have step := step?_map counter opens closes
    rw [last] at step
    rw [run_of_step?_none step]
    have going := counter.lt_iff closes opens
    simp [extent, Scan.map, going]
  | case2 s t next ih =>
    obtain ⟨opens, closes⟩ := below _ here
    have step := step?_map counter opens closes
    rw [next] at step
    rw [run_of_step?_some step]
    exact ih (here.step next)

end

end

theorem counter_int32 : Counter (2 ^ 31) Int32.ofNat :=
  ⟨rfl, rfl, fun n => Int32.ofNat_add n 1, Int32.ofNat_lt_iff_lt⟩

end Scan

section
variable {κ : Type} [OfNat κ 0] [OfNat κ 1] [Add κ] [LT κ] [DecidableLT κ]
variable {bound : Nat} {f : Nat → κ} {text more : Text} {e : Extent}

theorem countedIn_eq_after {body : Text} (counter : Scan.Counter bound f)
    (below : Scan.Below bound body) : countedIn κ body = after body := by
  rw [countedIn, ← Scan.map_start counter, Scan.extent_run_map counter below .start]
  rfl

theorem scanIn?_eq_scan? (counter : Scan.Counter bound f) (few : List.count '[' text < bound) :
    scanIn? κ text = scan? text := by
  by_cases bracket : text.head? = some '['
  · obtain ⟨body, rfl⟩ := List.head?_eq_some_iff.mp bracket
    rw [scanIn?_opener, scan?_opener, countedIn_eq_after counter (Scan.below_of_few few)]
  · cases text with
    | nil => rfl
    | cons c cs =>
      have other : c ≠ '[' := fun same => bracket (congrArg some same)
      simp [scan?, scanIn?, other]

theorem scanIn?_append (counter : Scan.Counter bound f) (bracket : text.head? = some '[')
    (few : List.count '[' text < bound) (found : scan? (text ++ more) = some e)
    (closed : e.closed = true) (within : e.length ≤ text.size) :
    scanIn? κ (text ++ more) = some e := by
  obtain ⟨body, rfl⟩ := List.head?_eq_some_iff.mp bracket
  rw [List.cons_append, scan?_opener, Option.some.injEq] at found
  subst found
  have below : Scan.Below bound (body ++ more) :=
    Scan.below_of_closed (List.prefix_append ('[' :: body) more) closed within few
  rw [List.cons_append, scanIn?_opener, countedIn_eq_after counter below]

end

end Extent

open Extent (Scan)

/-- At every step of a scan the counters are the numbers of brackets behind its place, which
steps always move on, and both remembered brackets are the first ones ahead, though a step searches
for one of them only. With fewer than `2 ^ 31` opening brackets in the text no counter leaves the
signed numbers of 32 bits, and counters that wrap around there go through the same steps to the
same extent. -/
theorem scan_counts (body : Text) :
    (∀ s : Scan Nat, s.Reached body → s.Counts ('[' :: body) ∧
      ∀ t, s.step? = some t → s.place.offset < t.place.offset ∧
        (t.nextOpen = s.nextOpen ∨ t.nextClose = s.nextClose)) ∧
    (∃ s : Scan Nat, s.Reached body ∧ s.step? = none ∧
      Extent.scan? ('[' :: body) = some s.extent) ∧
    (List.count '[' ('[' :: body) < 2 ^ 31 →
      (∀ s : Scan Nat, s.Reached body →
        s.opens < 2 ^ 31 ∧ s.closes < 2 ^ 31 ∧ (s.map Int32.ofNat).Reached body) ∧
      (∀ w : Scan Int32, w.Reached body → ∃ s : Scan Nat, s.Reached body ∧
        w = s.map Int32.ofNat ∧ w.opens.toInt = s.opens ∧ w.closes.toInt = s.closes) ∧
      Extent.scan? ('[' :: body) = some (Extent.countedIn Int32 body)) := by
  refine ⟨?steps, ?ends, ?wraps⟩
  case steps =>
    intro s here
    refine ⟨here.counts, fun t next => ⟨(here.counts.step here.on next).2, ?_⟩⟩
    obtain ⟨-, ⟨p, -, -, rfl⟩ | ⟨q, -, -, rfl⟩⟩ := Scan.step?_cases next
    · exact .inr rfl
    · exact .inl rfl
  case ends =>
    exact ⟨_, Scan.Reached.start.run, Scan.step?_run _, rfl⟩
  case wraps =>
    intro few
    have below : Scan.Below (2 ^ 31) body := Scan.below_of_few few
    refine ⟨?_, ?_, ?_⟩
    · intro s here
      exact ⟨(below s here).1, (below s here).2, here.map Scan.counter_int32 below⟩
    · intro w here
      obtain ⟨s, numbers, rfl⟩ := here.exists_map Scan.counter_int32 below
      obtain ⟨opens, closes⟩ := below s numbers
      exact ⟨s, numbers, rfl, Int32.toInt_ofNat_of_lt opens, Int32.toInt_ofNat_of_lt closes⟩
    · rw [Extent.countedIn_eq_after Scan.counter_int32 below]
      rfl

theorem scan_counts_nested :
    (∃ s t : Scan Nat, s.Reached "é[x]y]z".toList ∧ s.opens = 2 ∧ s.closes = 1 ∧
      s.Counts "[é[x]y]z".toList ∧ s.step? = some t ∧ s.place.offset < t.place.offset) ∧
    List.count '[' "[é[x]y]z".toList < 2 ^ 31 ∧
    Extent.countedIn Int32 "é[x]y]z".toList = ⟨8, true⟩ := by
  obtain ⟨steps, -, wraps⟩ := scan_counts "é[x]y]z".toList
  let first : Scan Nat := .start ⟨1, "é[x]y]z".toList⟩
  let second := first.enter ⟨3, "[x]y]z".toList⟩
  let third := second.leave ⟨5, "]y]z".toList⟩
  have enters : first.step? = some second := by decide +kernel
  have leaves : second.step? = some third := by decide +kernel
  have last : third.step? = some (third.leave ⟨7, "]z".toList⟩) := by decide +kernel
  have here : third.Reached "é[x]y]z".toList := (Scan.Reached.start.step enters).step leaves
  have few : List.count '[' "[é[x]y]z".toList < 2 ^ 31 := by decide +kernel
  obtain ⟨counts, further⟩ := steps third here
  refine ⟨⟨third, _, here, rfl, rfl, counts, last, (further _ last).1⟩, few, ?_⟩
  have found : Extent.scan? "[é[x]y]z".toList = some ⟨8, true⟩ := by decide +kernel
  exact (Option.some.inj (found.symm.trans (wraps few).2.2)).symm

end InlineScript
