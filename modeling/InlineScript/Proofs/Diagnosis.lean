import InlineScript.Proofs.Language

/-! What the issues of a tree say about its text. They are gathered along the walk, where a group
comes after the directive it belongs to and before what it holds, so their offsets increase as
the places in the text do. No group or slice hides one of them: a name is missing wherever the
text has a marker with no name behind it, and a group is unclosed if a scan of the whole rest of
the text finds no end. -/

namespace InlineScript

def Issue.offset : Issue → Nat
  | .unterminatedGroup offset _ => offset
  | .unnamedDirective offset _ => offset

def Issue.line : Issue → Nat
  | .unterminatedGroup _ line => line
  | .unnamedDirective _ line => line

theorem not_isNameChar_iff {c : Char} :
    isNameChar c = false ↔ isBlank c = true ∨ c = '$' ∨ c = '[' ∨ c = ']' ∨ c = ';' := by
  rw [← Bool.not_eq_true, isNameChar_iff, ← Bool.not_eq_true (isBlank c)]
  tauto

theorem Text.slice?_eq_marker_iff {text : Text} {offset : Nat} {P : Text → Prop} :
    (text.slice? offset (offset + 1) = some ['$'] ∧ P (text.cut (offset + 1)).2) ↔
      ∃ before after, text = before ++ '$' :: after ∧ before.size = offset ∧ P after := by
  have behind (before after : Text) :
      Text.cut (before.size + 1) (before ++ '$' :: after) = (before ++ ['$'], after) := by
    have cut := cut_size_append (before ++ ['$']) after
    rwa [List.append_assoc, size_append] at cut
  constructor
  · rintro ⟨here, follows⟩
    obtain ⟨before, after, rfl, rfl, -⟩ := slice?_eq_some_iff.mp here
    rw [List.singleton_append, behind] at follows
    exact ⟨before, after, rfl, rfl, follows⟩
  · rintro ⟨before, after, rfl, rfl, follows⟩
    rw [behind]
    exact ⟨slice?_append before ['$'] after, follows⟩

namespace Node

theorem issue?_eq_unterminated_iff {n : Node} {offset line : Nat} :
    n.issue? = some (.unterminatedGroup offset line) ↔
      n.kind = .group false ∧ n.position.offset = offset ∧ n.position.line = line := by
  obtain ⟨kind, content, position, children⟩ := n
  cases kind with
  | group closed => cases closed <;> simp [issue?]
  | directive => simp [issue?]
  | literal => simp [issue?]
  | separator => simp [issue?]
  | program => simp [issue?]
  | endOfInput => simp [issue?]

theorem place_of_issue? {n : Node} {i : Issue} (h : n.issue? = some i) :
    i.offset = n.position.offset ∧ i.line = n.position.line := by
  cases i with
  | unterminatedGroup offset line =>
    obtain ⟨-, rfl, rfl⟩ := issue?_eq_unterminated_iff.mp h
    exact ⟨rfl, rfl⟩
  | unnamedDirective offset line =>
    obtain ⟨-, rfl, rfl⟩ := issue?_eq_unnamed_iff.mp h
    exact ⟨rfl, rfl⟩

theorem sublist_offsets (nodes : List Node) :
    ((nodes.filterMap issue?).map Issue.offset).Sublist (offsets nodes) := by
  induction nodes with
  | nil => exact .slnil
  | cons n nodes ih =>
    cases issue : n.issue? with
    | none =>
      rw [List.filterMap_cons_none issue]
      exact .cons _ ih
    | some i =>
      rw [List.filterMap_cons_some issue, List.map_cons, (place_of_issue? issue).1]
      exact .cons_cons _ ih

theorem mem_issues_unterminated_iff {text : Text} {offset line : Nat} :
    .unterminatedGroup offset line ∈ (build text).issues ↔
      ∃ g ∈ walkAll (build text).children,
        g.kind = .group false ∧ g.position.offset = offset ∧ g.position.line = line := by
  rw [issues_build, issuesAll, List.mem_filterMap]
  simp only [issue?_eq_unterminated_iff]

theorem Stands.line {text : Text} {n : Node} (h : n.Stands text) :
    n.position.line = 1 + (text.cut n.position.offset).1.newlines := by
  obtain ⟨before, s, after, rfl, -, -, position, -⟩ := h
  have offset : n.position.offset = before.size := by
    rw [position]
    exact Cursor.offset_advance before
  rw [offset, Text.cut_size_append, position]
  rfl

theorem Occurs.unnamed_iff {text before after : Text} {d : Node} (h : d.Occurs text)
    (kind : d.kind = .directive) (whole : text = before ++ '$' :: after)
    (here : d.position.offset = before.size) :
    d.unnamed = true ↔ ∀ c ∈ after.head?, isNameChar c = false := by
  obtain ⟨before', name, rest, place, offset, named, directive⟩ := h.exists_directive kind
  obtain rfl := Text.eq_behind (place.trans whole) (offset.symm.trans here)
  have stopped : ∀ c ∈ rest.head?, isNameChar c = false := by
    obtain ⟨-, stopped, -⟩ | ⟨g, after, children, rfl, -⟩ := directive
    · exact stopped
    · exact g.ends_name after
  have nameless : d.unnamed = true ↔ name = [] := by
    obtain ⟨rfl, -⟩ | ⟨g, after, children, -, -, rfl⟩ := directive
    · rw [leaf, unnamed_directive, List.isEmpty_iff]
    · rw [unnamed_directive, List.isEmpty_iff]
  have front := (front_named_iff named stopped).not
  rw [nameless]
  simpa using front.symm

/-- The groups that the builder left open are those of which a scan finds no end. -/
theorem Occurs.unclosed_iff {text : Text} {g : Node} (h : g.Occurs text)
    (group : g.kind.isGroup = true) :
    g.kind = .group false ↔
      ∃ extent, Extent.scan? (text.cut g.position.offset).2 = some extent ∧
        extent.closed = false := by
  cases kind : g.kind with
  | group closed =>
    rw [h.scan? kind]
    simp
  | literal => simp [kind, Kind.isGroup] at group
  | directive => simp [kind, Kind.isGroup] at group
  | separator => simp [kind, Kind.isGroup] at group
  | program => simp [kind, Kind.isGroup] at group
  | endOfInput => simp [kind, Kind.isGroup] at group

end Node

theorem increasing_issues (text : Text) :
    ((build text).issues.map Issue.offset).Pairwise (· < ·) := by
  rw [issues_build]
  exact (increasing_build text).pairwise.sublist (Node.sublist_offsets _)

theorem exists_unnamed_iff {text : Text} {offset : Nat} :
    (∃ line, .unnamedDirective offset line ∈ (build text).issues) ↔
      ∃ before after, text = before ++ '$' :: after ∧ before.size = offset ∧
        ∀ c ∈ after.head?, isNameChar c = false := by
  simp only [Node.mem_issues_unnamed_iff]
  constructor
  · rintro ⟨line, d, mem, unnamed, rfl, rfl⟩
    have kind := Node.kind_of_unnamed unnamed
    obtain ⟨before, after, whole, position⟩ := (occurs_build d mem).marker kind
    have here : d.position.offset = before.size := by
      rw [position]
      exact Cursor.offset_advance before
    exact ⟨before, after, whole, here.symm,
      ((occurs_build d mem).unnamed_iff kind whole here).mp unnamed⟩
  · rintro ⟨before, after, whole, rfl, nothing⟩
    obtain ⟨d, mem, kind, here⟩ := exists_directive_build whole
    have unnamed := ((occurs_build d mem).unnamed_iff kind whole here).mpr nothing
    exact ⟨d.position.line, d, mem, unnamed, here, rfl⟩

theorem exists_unterminated_iff {text : Text} {offset : Nat} :
    (∃ line, .unterminatedGroup offset line ∈ (build text).issues) ↔
      (∃ g ∈ (build text).walk, g.kind.isGroup = true ∧ g.position.offset = offset) ∧
        ∃ extent, Extent.scan? (text.cut offset).2 = some extent ∧ extent.closed = false := by
  simp only [Node.mem_issues_unterminated_iff]
  constructor
  · rintro ⟨line, g, mem, kind, rfl, rfl⟩
    have group : g.kind.isGroup = true := by simp [kind, Kind.isGroup]
    refine ⟨⟨g, ?_, group, rfl⟩, ((occurs_build g mem).unclosed_iff group).mp kind⟩
    rw [Node.walk_eq]
    exact List.mem_cons_of_mem _ mem
  · rintro ⟨⟨g, mem, group, rfl⟩, endless⟩
    rw [Node.walk_eq, List.mem_cons] at mem
    obtain rfl | below := mem
    · simp [build_eq, program, Kind.isGroup] at group
    · have kind := ((occurs_build g below).unclosed_iff group).mpr endless
      exact ⟨g.position.line, g, below, kind, rfl, rfl⟩

theorem line_of_mem_issues {text : Text} {i : Issue} (mem : i ∈ (build text).issues) :
    i.line = 1 + (text.cut i.offset).1.newlines := by
  rw [issues_build] at mem
  obtain ⟨n, below, issue⟩ := List.mem_filterMap.mp mem
  obtain ⟨offset, line⟩ := Node.place_of_issue? issue
  rw [offset, line]
  exact (stands_build n below).line

/-- The issues of a text are told by the text, in the order of their places: the markers that no
name follows, the opening brackets of groups that a scan finds without an end, and the lines
on which they stand. -/
theorem issues_exact (text : Text) :
    ((build text).issues.map Issue.offset).Pairwise (· < ·) ∧
    (∀ offset, (∃ line, .unnamedDirective offset line ∈ (build text).issues) ↔
      text.slice? offset (offset + 1) = some ['$'] ∧
        ∀ c ∈ (text.cut (offset + 1)).2.head?,
          isBlank c = true ∨ c = '$' ∨ c = '[' ∨ c = ']' ∨ c = ';') ∧
    (∀ offset, (∃ line, .unterminatedGroup offset line ∈ (build text).issues) ↔
      (∃ g ∈ (build text).walk, g.kind.isGroup = true ∧ g.position.offset = offset) ∧
        ∃ extent, Extent.scan? (text.cut offset).2 = some extent ∧ extent.closed = false) ∧
    ∀ i ∈ (build text).issues, i.line = 1 + (text.cut i.offset).1.newlines := by
  refine ⟨increasing_issues text, ?_, fun offset => exists_unterminated_iff,
    fun i => line_of_mem_issues⟩
  intro offset
  simp only [← not_isNameChar_iff]
  exact exists_unnamed_iff.trans Text.slice?_eq_marker_iff.symm

theorem issues_exact_nested :
    ∃ i ∈ (build "é$f\n$g[$\u3000;[$[".toList).issues,
      i = .unnamedDirective 14 2 ∧
        i.line = 1 + (Text.cut i.offset "é$f\n$g[$\u3000;[$[".toList).1.newlines := by
  let text : Text := "é$f\n$g[$\u3000;[$[".toList
  have mem : .unnamedDirective 14 2 ∈ (build text).issues := by decide +kernel
  exact ⟨_, mem, rfl, (issues_exact text).2.2.2 _ mem⟩

end InlineScript
