import InlineScript.Proofs.Counters

/-! Counters that wrap around. A run of opening brackets makes a scan count as far as its counters
go. Where the next number is no longer above zero the scan takes its group for closed, though it
has passed no closing bracket; it ends behind the bracket that it could not count. -/

namespace InlineScript

namespace Text

/-- Opening brackets, and one bracket that closes the last of them. -/
def openers (n : Nat) : Text := List.replicate n '[' ++ [']']

theorem openers_succ (n : Nat) : openers (n + 1) = '[' :: openers n := rfl

theorem size_replicate_opener (n : Nat) : size (List.replicate n '[') = n := by
  induction n with
  | zero => rfl
  | succ n ih =>
    rw [List.replicate_succ, size_cons, ih, Nat.add_comm]
    rfl

theorem replicate_append_openers {k n : Nat} (le : k ≤ n) :
    List.replicate k '[' ++ openers (n - k) = openers n := by
  rw [openers, openers, ← List.append_assoc, List.replicate_append_replicate,
    Nat.add_sub_of_le le]

theorem openers_sub {k n : Nat} (less : k < n) : openers (n - k) = '[' :: openers (n - k - 1) := by
  rw [← openers_succ, Nat.sub_add_cancel (Nat.sub_pos_of_lt less)]

theorem cut_openers {k n : Nat} (le : k ≤ n) :
    cut k (openers n) = (List.replicate k '[', openers (n - k)) := by
  have parts := cut_size_append (List.replicate k '[') (openers (n - k))
  rwa [size_replicate_opener, replicate_append_openers le] at parts

theorem slice?_openers {k n : Nat} (less : k < n) :
    slice? k (k + 1) (openers n) = some ['['] := by
  have here := slice?_append (List.replicate k '[') ['['] (openers (n - k - 1))
  rwa [size_replicate_opener, List.singleton_append, ← openers_sub less,
    replicate_append_openers less.le] at here

end Text

namespace Place

theorem seek?_opener (offset n : Nat) :
    seek? ⟨offset, Text.openers (n + 1)⟩ '[' = some ⟨offset, Text.openers (n + 1)⟩ :=
  seekFrom_self _ _ _

theorem seek?_openers (offset n : Nat) :
    seek? ⟨offset, Text.openers n⟩ ']' = some ⟨offset + n, [']']⟩ := by
  induction n generalizing offset with
  | zero => rfl
  | succ n ih =>
    have later : seek? ⟨offset, Text.openers (n + 1)⟩ ']' =
        seek? ⟨offset + 1, Text.openers n⟩ ']' := by
      rw [seek?, Text.openers_succ, seekFrom_other (by decide)]
      rfl
    rw [later, ih, Nat.add_right_comm, Nat.add_assoc]

end Place

namespace Extent

variable {κ : Type} [OfNat κ 0] [OfNat κ 1] [Add κ] [LT κ] [DecidableLT κ]
variable {bound : Nat} {f : Nat → κ}

namespace Scan

def ascent (opens : κ) (p : Place) : Scan κ := ⟨opens, 0, p, p.seek? '[', p.seek? ']'⟩

theorem step?_ascent {opens : κ} (positive : 0 < opens) (offset n : Nat) :
    (ascent opens ⟨offset, Text.openers (n + 1)⟩).step? =
      some (ascent (opens + 1) ⟨offset + 1, Text.openers n⟩) := by
  have next : Place.next ⟨offset, Text.openers (n + 1)⟩ = ⟨offset + 1, Text.openers n⟩ :=
    Place.next_cons _ _ _
  simp [step?, ascent, positive, Place.seek?_opener, Place.seek?_openers, enter, next,
    Nat.add_right_comm _ 1 n, Nat.add_assoc]

/-- Below the bound a scan counts one opening bracket after the other. -/
theorem run_ascent (counter : Counter bound f) {k j : Nat} (started : 0 < k)
    (low : k + j ≤ bound) (offset n : Nat) :
    (ascent (f k) ⟨offset, Text.openers (n + j)⟩).run =
      (ascent (f (k + j)) ⟨offset + j, Text.openers n⟩).run := by
  induction j generalizing k offset with
  | zero => rfl
  | succ j ih =>
    have positive : 0 < f k := by
      rw [← counter.zero]
      exact (counter.lt_iff (by omega) (by omega)).mpr started
    rw [← Nat.add_assoc n, run_of_step?_some (step?_ascent positive offset (n + j)),
      ← counter.succ, ih (k := k + 1) (by omega) (by omega), Nat.add_assoc k, Nat.add_assoc offset,
      Nat.add_comm 1 j]

end Scan

theorem scanIn?_openers (counter : Scan.Counter bound f) (positive : 0 < bound)
    (wraps : ¬ 0 < f bound) {n : Nat} (many : bound ≤ n) :
    scanIn? κ (Text.openers n) = some ⟨bound, true⟩ := by
  obtain ⟨low, rfl⟩ := Nat.exists_eq_add_of_le' positive
  obtain ⟨m, rfl⟩ := Nat.exists_eq_add_of_le' many
  have start : (Scan.start ⟨1, Text.openers (m + low)⟩ : Scan κ) =
      .ascent (f 1) ⟨1, Text.openers (m + low)⟩ := by
    rw [counter.one]
    rfl
  have last : (Scan.ascent (f (1 + low)) ⟨1 + low, Text.openers m⟩).step? = none := by
    rw [Nat.add_comm 1]
    simp [Scan.step?, Scan.ascent, wraps]
  rw [← Nat.add_assoc, Text.openers_succ, scanIn?_opener, countedIn, start,
    Scan.run_ascent counter Nat.one_pos (by omega), Scan.run_of_step?_none last, Nat.add_comm 1]
  simp [Scan.extent, Scan.ascent, wraps]

theorem scanIn?_replicate (rises : (0 : κ) < 1) {n : Nat} (positive : 0 < n) :
    scanIn? κ (List.replicate n '[') = some ⟨n, false⟩ := by
  obtain ⟨m, rfl⟩ := Nat.exists_eq_add_of_le' positive
  have missing : Place.seek? ⟨1, List.replicate m '['⟩ ']' = none :=
    Place.seekFrom_eq_none_iff.mpr (by simp)
  have last : (Scan.start ⟨1, List.replicate m '['⟩ : Scan κ).step? = none := by
    simp [Scan.step?, Scan.start, missing]
  rw [List.replicate_succ, scanIn?_opener, countedIn, Scan.run_of_step?_none last]
  simp [Scan.extent, Scan.start, rises, Text.size_replicate_opener, Nat.add_comm]

end Extent

end InlineScript
