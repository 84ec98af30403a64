import InlineScript.Proofs.Layout
import InlineScript.Proofs.Strict

/-! Why a text is refused. The place that the grammar blames and the rules that it would have
wanted there can be told from the issues of the tree, with the line on which they are. -/

namespace InlineScript

namespace Grammar

theorem script_refused {text : Text} (fault : ¬ (build text).Faultless) :
    ∃ f, script (.start text) {} = (none, f) ∧
      Blames 0 (build text).children ⟨text.size, []⟩ f := by
  have track := pieces_track (stretch .outside text) rfl {}
  rw [show (Cursor.advance {} text).offset = text.size from Nat.zero_add _] at track
  have faulty := mt build_faultless_iff.mpr fault
  have start : Frontier.Upto 0 {} := ⟨Nat.le_refl _, by simp⟩
  obtain ⟨behind, blames⟩ := track.blames faulty {} start
  exact ⟨_, snd_script (track.missed faulty {}) behind (Nat.zero_lt_of_lt behind), blames⟩

end Grammar

namespace Node

theorem issue?_eq_unnamed_iff {n : Node} {offset line : Nat} :
    n.issue? = some (.unnamedDirective offset line) ↔
      n.unnamed = true ∧ n.position.offset = offset ∧ n.position.line = line := by
  by_cases directive : n.kind = .directive
  · simp [issue?, unnamed, directive]
  · unfold issue? unnamed
    split <;> simp_all

theorem mem_issues_unnamed_iff {text : Text} {offset line : Nat} :
    .unnamedDirective offset line ∈ (build text).issues ↔
      ∃ n ∈ walkAll (build text).children,
        n.unnamed = true ∧ n.position.offset = offset ∧ n.position.line = line := by
  have root : (build text).issue? = none := rfl
  rw [issues, walk_eq, List.filterMap_cons_none root, List.mem_filterMap]
  simp only [issue?_eq_unnamed_iff]

theorem Occurs.marker {text : Text} {n : Node} (h : n.Occurs text) (kind : n.kind = .directive) :
    ∃ before after : Text, text = before ++ '$' :: after ∧
      n.position = (Cursor.advance {} before).span n.content := by
  obtain ⟨before, name, rest, whole, -, -, ⟨rfl, -, -⟩ | ⟨g, after, children, -, -, rfl⟩⟩ :=
    h.exists_directive kind
  · exact ⟨before, _, whole.symm, rfl⟩
  · exact ⟨before, _, whole.symm, rfl⟩

theorem Occurs.line_behind {text : Text} {n : Node} (h : n.Occurs text)
    (kind : n.kind = .directive) (rules : List Grammar.Rule) :
    (Grammar.SyntaxError.of text ⟨n.position.offset + 1, rules⟩).line = n.position.line := by
  obtain ⟨before, after, rfl, position⟩ := h.marker kind
  have behind := Text.cut_size_append (before ++ ['$']) after
  rw [List.append_assoc, List.singleton_append] at behind
  have offset : n.position.offset + 1 = Text.size (before ++ ['$']) := by
    rw [position, Text.size_append]
    simp only [Cursor.span, Position.of, Cursor.advance, Nat.zero_add]
    rfl
  have line : n.position.line = 1 + before.newlines := by rw [position]; rfl
  simp only [Grammar.SyntaxError.of]
  rw [offset, behind, line, Text.newlines_append]
  rfl

theorem mem_issues_of_firstUnnamed? {text : Text} {d : Node}
    (first : firstUnnamed? (build text).children = some d) :
    .unnamedDirective d.position.offset d.position.line ∈ (build text).issues :=
  mem_issues_unnamed_iff.mpr
    ⟨d, List.mem_of_find?_eq_some first, List.find?_some first, rfl, rfl⟩

theorem eq_of_firstUnnamed? {text : Text} {d n : Node}
    (first : firstUnnamed? (build text).children = some d)
    (mem : n ∈ walkAll (build text).children) (unnamed : n.unnamed = true)
    (least : n.position.offset ≤ d.position.offset) : n = d := by
  obtain ⟨-, front, back, whole, named⟩ := List.find?_eq_some_iff_append.mp first
  have later := (increasing_build text).pairwise
  rw [offsets, whole, List.map_append, List.map_cons] at later
  rw [whole, List.mem_append, List.mem_cons] at mem
  obtain early | rfl | late := mem
  · simpa [unnamed] using named n early
  · rfl
  · have order := (List.pairwise_append.mp later).2.1
    have further := (List.pairwise_cons.mp order).1 _ (List.mem_map_of_mem late)
    omega

end Node

/-- The grammar refuses a text for the first directive without a name, right behind its marker;
and if there is none, for what the last open group still lacks at the end of the text. -/
theorem check_error {text : Text} {e : Grammar.SyntaxError}
    (refused : Grammar.check text = .error e) :
    (∀ offset line, .unnamedDirective offset line ∈ (build text).issues →
      (∀ offset' line', .unnamedDirective offset' line' ∈ (build text).issues →
        offset ≤ offset') →
      e.offset = offset + 1 ∧ e.expected = [.name] ∧ e.line = line) ∧
    ((∀ offset line, .unnamedDirective offset line ∉ (build text).issues) →
      (∃ offset line, .unterminatedGroup offset line ∈ (build text).issues) ∧
        e.offset = text.size ∧ e.expected = [.directive, .group, .slotText] ∧
        e.line = 1 + text.newlines) := by
  have fault : ¬ (build text).Faultless := by
    rw [← Node.issues_eq_nil_iff, ← Grammar.check_eq_ok_iff, refused]
    simp
  obtain ⟨f, missed, -, cause⟩ := Grammar.script_refused fault
  have error : e = .of text f := by
    rw [Grammar.check, Grammar.parse, Grammar.attempt, missed] at refused
    exact (Except.error.inj refused).symm
  subst error
  constructor
  · intro offset line issue least
    obtain ⟨n, mem, unnamed, rfl, rfl⟩ := Node.mem_issues_unnamed_iff.mp issue
    obtain ⟨d, first, rfl⟩ | ⟨all, -⟩ := cause
    · have least := least _ _ (Node.mem_issues_of_firstUnnamed? first)
      obtain rfl := Node.eq_of_firstUnnamed? first mem unnamed least
      exact ⟨rfl, rfl, (occurs_build n mem).line_behind (Node.kind_of_unnamed unnamed) _⟩
    · have named := List.find?_eq_none.mp all n mem
      exact absurd unnamed named
  · intro named
    obtain ⟨d, first, -⟩ | ⟨-, -, atSlot⟩ := cause
    · exact absurd (Node.mem_issues_of_firstUnnamed? first) (named _ _)
    · have whole := Text.cut_size_append text []
      rw [List.append_nil] at whole
      refine ⟨?_, atSlot.here, atSlot.expected, ?_⟩
      · obtain ⟨issue, mem⟩ := List.exists_mem_of_ne_nil _ (mt Node.issues_eq_nil_iff.mp fault)
        cases issue with
        | unterminatedGroup offset line => exact ⟨offset, line, mem⟩
        | unnamedDirective offset line => exact absurd mem (named offset line)
      · simp only [Grammar.SyntaxError.of]
        rw [atSlot.here, whole]

theorem Grammar.exists_check_error {text : Text} (h : (build text).issues ≠ []) :
    ∃ e, check text = .error e := by
  cases verdict : check text with
  | ok => exact absurd (check_eq_ok_iff.mp verdict) h
  | error e => exact ⟨e, rfl⟩

theorem check_error_nested :
    (∃ e, Grammar.check "é\n$f[$;[$".toList = .error e ∧ e.offset = 7 ∧ e.expected = [.name] ∧
      e.line = 2) ∧
    ∃ e, Grammar.check "é\n$f[[;]$g".toList = .error e ∧ e.offset = 11 ∧
      e.expected = [.directive, .group, .slotText] ∧ e.line = 2 := by
  constructor
  · have issues : (build "é\n$f[$;[$".toList).issues =
        [.unterminatedGroup 5 2, .unnamedDirective 6 2, .unterminatedGroup 8 2,
          .unnamedDirective 9 2] := by decide +kernel
    obtain ⟨e, refused⟩ := Grammar.exists_check_error (by rw [issues]; simp)
    refine ⟨e, refused, (check_error refused).1 6 2 (by rw [issues]; simp) ?_⟩
    intro offset line mem
    rw [issues] at mem
    have places : offset = 6 ∧ line = 2 ∨ offset = 9 ∧ line = 2 := by simpa using mem
    omega
  · have issues : (build "é\n$f[[;]$g".toList).issues = [.unterminatedGroup 5 2] := by
      decide +kernel
    obtain ⟨e, refused⟩ := Grammar.exists_check_error (by rw [issues]; simp)
    exact ⟨e, refused, ((check_error refused).2 (by rw [issues]; simp)).2⟩

end InlineScript
