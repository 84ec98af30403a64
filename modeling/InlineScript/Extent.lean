import InlineScript.Place

/-! How far a bracketed group reaches. There is one pair of brackets, so a scan
keeps two counters and no stack: the group ends where the closing brackets have
caught up with the opening ones, or with the text. The next bracket of either
kind is remembered and searched for again only when the scan has passed it.
The counters may be of any type that can count; a text decides which suffice. -/

namespace InlineScript

/-- The bytes a group covers, its brackets included, and whether it closes. -/
structure Extent where
  length : Nat
  closed : Bool
deriving DecidableEq

namespace Extent

structure Scan (κ : Type) where
  opens : κ
  closes : κ
  place : Place
  nextOpen : Option Place
  nextClose : Option Place
deriving DecidableEq

namespace Scan

section
variable {κ : Type} [OfNat κ 0] [OfNat κ 1] [Add κ] [LT κ] [DecidableLT κ]

/-- The scan of a group whose opening bracket lies just before `p`. -/
def start (p : Place) : Scan κ := ⟨1, 0, p, p.seek? '[', p.seek? ']'⟩

def enter (s : Scan κ) (opening : Place) : Scan κ :=
  { s with opens := s.opens + 1, place := opening.next, nextOpen := opening.next.seek? '[' }

def leave (s : Scan κ) (closing : Place) : Scan κ :=
  { s with closes := s.closes + 1, place := closing.next, nextClose := closing.next.seek? ']' }

/-- Pass the nearer of the two next brackets, unless the group has ended or no
closing bracket is left. -/
def step? (s : Scan κ) : Option (Scan κ) :=
  if s.closes < s.opens then
    s.nextClose.map fun closing =>
      match s.nextOpen with
      | some opening =>
        if opening.offset < closing.offset then s.enter opening else s.leave closing
      | none => s.leave closing
  else none

def ahead : Option Place → Nat
  | none => 0
  | some p => p.rest.length + 1

theorem ahead_next_lt (p : Place) (c : Char) :
    ahead (p.next.seek? c) < ahead (some p) := by
  rcases p with ⟨offset, _ | ⟨d, ds⟩⟩
  · simp [Place.next_nil, Place.seek?, Place.seekFrom, ahead]
  · rw [Place.next_cons]
    cases h : Place.seek? ⟨offset + d.utf8Size, ds⟩ c with
    | none => simp [ahead]
    | some q =>
      have := Place.length_seek?_le h
      simp only [ahead, List.length_cons] at this ⊢
      omega

omit [OfNat κ 0] in
theorem ahead_step?_lt {s t : Scan κ} (h : s.step? = some t) :
    ahead t.nextOpen + ahead t.nextClose < ahead s.nextOpen + ahead s.nextClose := by
  unfold step? at h
  split at h
  · obtain ⟨closing, hc, ht⟩ := Option.map_eq_some_iff.mp h
    have close := ahead_next_lt closing ']'
    subst ht
    rw [hc]
    split
    · next opening ho =>
      have enter := ahead_next_lt opening '['
      rw [ho]
      split <;> simp only [Scan.enter, Scan.leave, hc, ho] <;> omega
    · next ho =>
      rw [ho]
      simp only [Scan.leave, ho]
      omega
  · simp at h

def run (s : Scan κ) : Scan κ :=
  match _ : s.step? with
  | none => s
  | some t => run t
termination_by ahead s.nextOpen + ahead s.nextClose
decreasing_by exact ahead_step?_lt ‹_›

/-- The extent that a finished scan has found. A group that did not close takes
in all that is left. -/
def extent (s : Scan κ) : Extent :=
  if s.closes < s.opens then ⟨s.place.offset + s.place.rest.size, false⟩
  else ⟨s.place.offset, true⟩

end

end Scan

/-- The extent of a group whose opening bracket stands before `body`, found with
counters in `κ`. -/
def countedIn (κ : Type) [OfNat κ 0] [OfNat κ 1] [Add κ] [LT κ] [DecidableLT κ]
    (body : Text) : Extent :=
  (Scan.start ⟨1, body⟩ : Scan κ).run.extent

/-- What exact numbers find. Counters of 32 bits find it in a text with fewer than `2 ^ 31` opening
brackets. -/
def after (body : Text) : Extent := countedIn Nat body

/-- The extent of the group that a text starts with, found with counters in `κ`. -/
def scanIn? (κ : Type) [OfNat κ 0] [OfNat κ 1] [Add κ] [LT κ] [DecidableLT κ] :
    Text → Option Extent
  | [] => none
  | c :: body => if c = '[' then some (countedIn κ body) else none

/-- The extent of the group that a text starts with, as exact numbers find it. -/
def scan? (t : Text) : Option Extent := scanIn? Nat t

/-- The extents of all groups in a text that begins at `offset`, each with the
offset of its opening bracket. Groups inside groups are listed too. -/
def scanFrom (offset : Nat) : Text → List (Nat × Extent)
  | [] => []
  | c :: cs =>
    let others := scanFrom (offset + c.utf8Size) cs
    match scan? (c :: cs) with
    | some extent => (offset, extent) :: others
    | none => others

def scanAll (t : Text) : List (Nat × Extent) := scanFrom 0 t

theorem scan?_eq_none_iff {t : Text} : scan? t = none ↔ ∀ cs, t ≠ '[' :: cs := by
  rcases t with _ | ⟨c, cs⟩
  · simp [scan?, scanIn?]
  · by_cases h : c = '[' <;> simp [scan?, scanIn?, h]

theorem scanIn?_opener (κ : Type) [OfNat κ 0] [OfNat κ 1] [Add κ] [LT κ] [DecidableLT κ]
    (body : Text) : scanIn? κ ('[' :: body) = some (countedIn κ body) := rfl

theorem scan?_opener (body : Text) : scan? ('[' :: body) = some (after body) := rfl

end Extent

end InlineScript
