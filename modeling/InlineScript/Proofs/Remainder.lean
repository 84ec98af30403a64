import InlineScript.Proofs.Runs

/-! A slice never changes an answer. The builder looks for the end of a group and for the end
of a name only up to where the group around them ends, but what it finds there is what the
whole rest of the text has: behind a slice stands a closing bracket, which ends a name and
closes no group that was opened in the slice, or nothing at all. -/

namespace InlineScript

namespace Text

theorem slice?_behind_iff {before after : Text} {c : Char} (one : c.utf8Size = 1) :
    (before ++ after).slice? before.size (before.size + 1) = some [c] ↔
      after.head? = some c := by
  constructor
  · intro h
    obtain ⟨front, back, whole, size, -⟩ := slice?_eq_some_iff.mp h
    have here := cut_size_append before after
    rw [whole, ← size, cut_size_append] at here
    rw [← (Prod.mk.inj here).2]
    rfl
  · intro h
    obtain ⟨cs, rfl⟩ := List.head?_eq_some_iff.mp h
    have here := slice?_append before [c] cs
    rwa [size_cons, size_nil, one] at here

end Text

theorem Group.Fits.scan? {g : Group} {rest : Text} (fits : g.Fits rest) :
    Extent.scan? (g.content ++ rest) = some ⟨g.content.size, g.closed⟩ := by
  cases fits with
  | @closed inner balanced =>
    have found := Extent.after_closed balanced rest
    simp only [content, List.cons_append, List.append_assoc, List.nil_append,
      Extent.scan?_opener, found, Text.size_cons, Text.size_append, Text.size_nil]
    rw [Nat.add_assoc]
    rfl
  | @unclosed inner nests =>
    have found := Extent.after_unclosed nests
    rw [List.append_nil, content, Extent.scan?_opener, found]
    rfl

namespace Node.Occurs

variable {text : Text} {n : Node} (h : n.Occurs text)
include h

theorem scan? {closed : Bool} (kind : n.kind = .group closed) :
    Extent.scan? (text.cut n.position.offset).2 = some ⟨n.position.length, closed⟩ := by
  obtain ⟨before, after, g, whole, offset, fits, same⟩ :=
    h.exists_group (by simp [kind, Kind.isGroup])
  have flag : g.closed = closed := by simpa [same, Group.node] using kind
  have length : n.position.length = g.content.size := by rw [same]; rfl
  rw [offset, length, ← flag, ← whole, Text.cut_size_append]
  exact fits.scan?

theorem name_and_group (kind : n.kind = .directive) :
    ∃ before name after, text = (before ++ '$' :: name) ++ after ∧
      n.position = (Cursor.advance {} before).span ('$' :: name) ∧ n.name? = some name ∧
      LongestFront isNameChar (name ++ after) name ∧
      ((∃ g ∈ n.children, g.kind.isGroup = true) ↔ after.head? = some '[') := by
  obtain ⟨before, name, rest, whole, -, named, directive⟩ := h.exists_directive kind
  refine ⟨before, name, rest, by simp [← whole], ?_⟩
  obtain ⟨rfl, stopped, bare⟩ | ⟨g, after, children, rfl, -, rfl⟩ := directive
  · refine ⟨rfl, rfl, longestFront_append named stopped, ?_⟩
    simpa [leaf] using fun opener => bare '[' opener rfl
  · refine ⟨rfl, rfl, longestFront_append named (g.ends_name after), ?_⟩
    simp [Group.node, Kind.isGroup, Group.content]

end Node.Occurs

/-- What was found in a slice is what the whole rest of the text has: the extent of each group,
the name of each directive, and whether a group follows the name. -/
theorem remainder_build (text : Text) :
    (∀ g ∈ (build text).walk, ∀ closed, g.kind = .group closed →
      Extent.scan? (text.cut g.position.offset).2 = some ⟨g.position.length, closed⟩) ∧
    ∀ d ∈ (build text).walk, d.kind = .directive →
      (∃ name, d.name? = some name ∧
        LongestFront isNameChar (text.cut (d.position.offset + 1)).2 name) ∧
      ((∃ g ∈ d.children, g.kind.isGroup = true) ↔
        text.slice? d.position.stop (d.position.stop + 1) = some ['[']) := by
  constructor
  · intro g mem closed kind
    exact (occurs_of_mem_walk mem (by simp [kind])).scan? kind
  · intro d mem kind
    obtain ⟨before, name, after, rfl, position, named, longest, called⟩ :=
      (occurs_of_mem_walk mem (by simp [kind])).name_and_group kind
    have behind : d.position.offset + 1 = Text.size (before ++ ['$']) := by
      rw [position, Text.size_append]
      exact congrArg (· + 1) (Cursor.offset_advance before)
    have stop : d.position.stop = Text.size (before ++ '$' :: name) := by
      rw [position, Cursor.span_stop, Cursor.advance_advance, Cursor.offset_advance]
    refine ⟨⟨name, named, ?_⟩, ?_⟩
    · have rest := Text.cut_size_append (before ++ ['$']) (name ++ after)
      rw [List.append_assoc, List.singleton_append, ← List.cons_append, ← List.append_assoc] at rest
      rwa [behind, rest]
    · rw [stop, Text.slice?_behind_iff rfl]
      exact called

theorem remainder_build_nested :
    (∃ g ∈ (build "$f[é[x;]$k é]$h[]]".toList).walk,
      g.kind = .group true ∧ g.position.offset = 5 ∧
        Extent.scan? "[x;]$k é]$h[]]".toList = some ⟨g.position.length, true⟩) ∧
    ∃ d ∈ (build "$f[é[x;]$k é]$h[]]".toList).walk,
      d.kind = .directive ∧ d.position.offset = 9 ∧ d.name? = some ['k'] ∧
        LongestFront isNameChar "k é]$h[]]".toList ['k'] ∧
        ¬ ∃ g ∈ d.children, g.kind.isGroup = true := by
  let text : Text := "$f[é[x;]$k é]$h[]]".toList
  let g := (build text).walk.get ⟨4, by decide +kernel⟩
  let d := (build text).walk.get ⟨7, by decide +kernel⟩
  have group : g ∈ (build text).walk := List.get_mem _ _
  have directive : d ∈ (build text).walk := List.get_mem _ _
  constructor
  · have rest : (text.cut g.position.offset).2 = "[x;]$k é]$h[]]".toList := by decide +kernel
    refine ⟨g, group, by decide +kernel, by decide +kernel, ?_⟩
    rw [← rest]
    exact (remainder_build text).1 g group true (by decide +kernel)
  · obtain ⟨⟨name, named, longest⟩, called⟩ :=
      (remainder_build text).2 d directive (by decide +kernel)
    obtain rfl : ['k'] = name := by
      have known : d.name? = some ['k'] := by decide +kernel
      exact Option.some.inj (known.symm.trans named)
    have rest : (text.cut (d.position.offset + 1)).2 = "k é]$h[]]".toList := by decide +kernel
    rw [rest] at longest
    refine ⟨d, directive, by decide +kernel, by decide +kernel, named, longest, ?_⟩
    rw [called]
    decide +kernel

end InlineScript
