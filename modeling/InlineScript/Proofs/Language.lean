import InlineScript.Proofs.Depth
import InlineScript.Proofs.Refusal
import InlineScript.Proofs.Remainder
import InlineScript.Proofs.Shift
import InlineScript.Proofs.Unclosed

/-! The language of the strict grammar, told from the text alone. The rules call each other to
any depth, yet what they ask for can be looked up marker by marker: a name behind it, and a group
that closes where a bracket follows the name. A bare group needs no condition of its own, as it
lies in the group of some directive and closes if that one does. -/

namespace InlineScript

/-- What has to stand behind a marker: a name, and where an opening bracket follows the name at
once, a group that closes. -/
structure FollowsMarker (after : Text) : Prop where
  named : ∃ c ∈ after.head?, isNameChar c = true
  closes : (after.dropWhile isNameChar).head? = some '[' →
    ∃ extent, Extent.scan? (after.dropWhile isNameChar) = some extent ∧ extent.closed = true

theorem Text.eq_behind {s s' t t' : Text} {c : Char} (whole : s ++ c :: t = s' ++ c :: t')
    (size : s.size = s'.size) : t = t' := by
  have cut := cut_size_append s (c :: t)
  rw [whole, size, cut_size_append] at cut
  have same := (Prod.mk.inj cut).2
  exact (List.cons.inj same).2.symm

section
variable {name rest : Text} (named : ∀ c ∈ name, isNameChar c = true)
  (stopped : ∀ c ∈ rest.head?, isNameChar c = false)
include named stopped

theorem front_named_iff : (∃ c ∈ (name ++ rest).head?, isNameChar c = true) ↔ name ≠ [] := by
  cases name with
  | nil => simpa using stopped
  | cons c name => simp [named c List.mem_cons_self]

theorem followsMarker_name_iff (bare : ∀ c ∈ rest.head?, c ≠ '[') :
    FollowsMarker (name ++ rest) ↔ name ≠ [] := by
  rw [← front_named_iff named stopped]
  constructor
  · exact FollowsMarker.named
  · intro front
    refine ⟨front, fun bracket => ?_⟩
    rw [dropWhile_append_stop named stopped] at bracket
    exact absurd rfl (bare '[' bracket)

end

theorem followsMarker_call_iff {name rest : Text} {g : Group}
    (named : ∀ c ∈ name, isNameChar c = true) (fits : g.Fits rest) :
    FollowsMarker (name ++ (g.content ++ rest)) ↔ name ≠ [] ∧ g.closed = true := by
  have stopped := g.ends_name rest
  have behind := dropWhile_append_stop named stopped
  rw [← front_named_iff named stopped]
  constructor
  · intro follows
    obtain ⟨extent, found, closed⟩ := follows.closes (by rw [behind]; rfl)
    rw [behind, fits.scan?] at found
    refine ⟨follows.named, ?_⟩
    rwa [← Option.some.inj found] at closed
  · rintro ⟨front, closed⟩
    refine ⟨front, fun _ => ⟨⟨g.content.size, g.closed⟩, ?_, closed⟩⟩
    rw [behind, fits.scan?]

namespace Node

theorem issue?_eq_none_iff {n : Node} :
    n.issue? = none ↔ n.kind ≠ .group false ∧ n.unnamed = false := by
  obtain ⟨kind, content, position, children⟩ := n
  cases kind with
  | group closed => cases closed <;> simp [issue?, unnamed]
  | directive => simp [issue?, unnamed]
  | literal => simp [issue?, unnamed]
  | separator => simp [issue?, unnamed]
  | program => simp [issue?, unnamed]
  | endOfInput => simp [issue?, unnamed]

theorem Occurs.followsMarker_iff {text before after : Text} {d : Node} (h : d.Occurs text)
    (kind : d.kind = .directive) (whole : text = before ++ '$' :: after)
    (here : d.position.offset = before.size) :
    FollowsMarker after ↔ d.issue? = none ∧ ∀ g ∈ d.children, g.kind ≠ .group false := by
  obtain ⟨before', name, rest, place, offset, named, directive⟩ := h.exists_directive kind
  obtain rfl := Text.eq_behind (place.trans whole) (offset.symm.trans here)
  obtain ⟨rfl, stopped, bare⟩ | ⟨g, more, children, rfl, fits, rfl⟩ := directive
  · rw [followsMarker_name_iff named stopped bare, leaf, issue?_directive]
    simp
  · rw [followsMarker_call_iff named fits, issue?_directive]
    simp [Group.node]

theorem CanonicalAll.openGroups_eq_nil_of_calls {ctx : Context} {closes : Bool} {ns : List Node}
    (h : CanonicalAll ctx closes ns) (outside : ctx = .outside)
    (calls : ∀ d ∈ ns, d.kind = .directive → ∀ g ∈ d.children, g.kind ≠ .group false) :
    openGroups (walkAll ns) = [] := by
  induction h with
  | nil => rfl
  | literal filled plain apart more ih =>
    rw [openGroups_leaf (by simp), ih outside (List.forall_mem_cons.mp calls).2]
  | separator => cases outside
  | directive named apart more ih =>
    rw [openGroups_leaf (by simp), ih outside (List.forall_mem_cons.mp calls).2]
  | @call ctx closes closed name inner position place children ns named printed below last more
      ihBelow ih =>
    obtain ⟨here, others⟩ := List.forall_mem_cons.mp calls
    obtain rfl : closed = true := by simpa using here
    rw [openGroups_call, openGroups_closed (below.openGroups_eq_nil rfl), ih outside others]
  | group => cases outside

end Node

theorem exists_directive_build {text before after : Text} (whole : text = before ++ '$' :: after) :
    ∃ d ∈ Node.walkAll (build text).children,
      d.kind = .directive ∧ d.position.offset = before.size := by
  have here : text.slice? before.size (before.size + 1) = some ['$'] := by
    rw [whole]
    exact Text.slice?_append before ['$'] after
  have owned := (slice?_eq_iff_count (by decide) (by simp [Node.owned])).mp here
  have mem := List.count_pos_iff.mp (owned ▸ Nat.one_pos)
  obtain ⟨d, below, mark⟩ := List.mem_flatMap.mp mem
  refine ⟨d, below, ?_⟩
  have count := List.count_pos_iff.mpr mark
  rw [Node.count_marks_marker] at count
  by_contra other
  simp [other] at count

/-- The strict grammar accepts the texts in which every marker has a name behind it, and a group
that closes where an opening bracket follows the name at once. -/
theorem strict_language (text : Text) :
    Grammar.check text = .ok () ↔
      ∀ before after, text = before ++ '$' :: after → FollowsMarker after := by
  rw [Grammar.check_eq_ok_iff, issues_build, Node.issuesAll, List.filterMap_eq_nil_iff]
  constructor
  · intro faultless before after whole
    obtain ⟨d, mem, kind, here⟩ := exists_directive_build whole
    refine ((occurs_build d mem).followsMarker_iff kind whole here).mpr ⟨faultless d mem, ?_⟩
    intro g child
    have inside : g ∈ d.walk := by
      rw [Node.walk_eq]
      exact List.mem_cons_of_mem d (Node.mem_walkAll_of_mem child)
    have below := Node.mem_walkAll_trans _ mem inside
    exact (Node.issue?_eq_none_iff.mp (faultless g below)).1
  · intro follows n mem
    have sound {d : Node} (mem : d ∈ Node.walkAll (build text).children)
        (kind : d.kind = .directive) :
        d.issue? = none ∧ ∀ g ∈ d.children, g.kind ≠ .group false := by
      obtain ⟨before, after, whole, position⟩ := (occurs_build d mem).marker kind
      refine ((occurs_build d mem).followsMarker_iff kind whole ?_).mp (follows before after whole)
      rw [position]
      exact Cursor.offset_advance before
    -- A bare group that is open would lie in an open group of a directive at the top.
    have settled := (canonical_build text).2.openGroups_eq_nil_of_calls rfl fun d sibling =>
      fun kind => (sound (Node.mem_walkAll_of_mem sibling) kind).2
    refine Node.issue?_eq_none_iff.mpr ⟨?_, ?_⟩
    · simpa using List.filter_eq_nil_iff.mp settled n mem
    · by_cases kind : n.kind = .directive
      · exact (Node.issue?_eq_none_iff.mp (sound mem kind).1).2
      · simp [Node.unnamed, kind]

end InlineScript
