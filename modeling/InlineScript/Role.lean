/-! The role a single character plays in a script, and where it plays it.
Outside every group only the marker is significant; inside a group the brackets
and the separator are too. -/

namespace InlineScript

inductive Role where
  | marker
  | opener
  | closer
  | separator
  | literal
deriving DecidableEq

def Role.of (c : Char) : Role :=
  match c with
  | '$' => .marker
  | '[' => .opener
  | ']' => .closer
  | ';' => .separator
  | _ => .literal

inductive Context where
  | outside
  | inside
deriving DecidableEq

/-- Whether a character ends a literal run. -/
def Context.stops : Context → Char → Bool
  | .outside, c => Role.of c = .marker
  | .inside, c => Role.of c ≠ .literal

namespace Role

theorem of_eq_marker_iff {c : Char} : of c = .marker ↔ c = '$' := by
  unfold of
  split <;> simp_all

theorem of_eq_opener_iff {c : Char} : of c = .opener ↔ c = '[' := by
  unfold of
  split <;> simp_all

theorem of_eq_closer_iff {c : Char} : of c = .closer ↔ c = ']' := by
  unfold of
  split <;> simp_all

theorem of_eq_separator_iff {c : Char} : of c = .separator ↔ c = ';' := by
  unfold of
  split <;> simp_all

theorem of_eq_literal_iff {c : Char} :
    of c = .literal ↔ c ≠ '$' ∧ c ≠ '[' ∧ c ≠ ']' ∧ c ≠ ';' := by
  unfold of
  split <;> simp_all

end Role

namespace Context

theorem stops_outside_iff {c : Char} : stops .outside c = true ↔ c = '$' := by
  simp [stops, Role.of_eq_marker_iff]

theorem stops_inside_iff {c : Char} :
    stops .inside c = true ↔ c = '$' ∨ c = '[' ∨ c = ']' ∨ c = ';' := by
  simp only [stops, ne_eq, decide_not, Bool.not_eq_true', decide_eq_false_iff_not,
    Role.of_eq_literal_iff]
  by_cases h1 : c = '$' <;> by_cases h2 : c = '[' <;> by_cases h3 : c = ']' <;> simp [h1, h2, h3]

end Context

end InlineScript
