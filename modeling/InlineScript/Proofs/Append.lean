import InlineScript.Proofs.Layout
import InlineScript.Proofs.Shift
import InlineScript.Proofs.Strict

/-! A text that goes on. What is read at the top ends where it ended, whatever the text is
continued with, as soon as something stands behind it: a run of literal text has met its stop, a
name has met its end, and a group with a rest behind it is closed. Only the last node is still
open to what follows, and a marker leaves even that one alone unless a group of it is unclosed. -/

namespace InlineScript

theorem forall_head?_append {P : Char → Prop} {rest after : Text} (first : ∀ c ∈ rest.head?, P c)
    (second : rest = [] → ∀ c ∈ after.head?, P c) : ∀ c ∈ (rest ++ after).head?, P c := by
  cases rest with
  | nil => exact second rfl
  | cons c rest => simpa using first

/-- Induction over a text at the top that may go on. A leaf is read as before if something stands
behind it, or if a marker follows; a directive with its group is if the group closes. -/
theorem append_induct {motive : Text → Cursor → Prop} (nil : ∀ k, motive [] k)
    (leaf : ∀ (kind : Kind) (content rest : Text) (k : Cursor),
      (∀ after : Text, (rest = [] → ∀ c ∈ after.head?, c = '$') →
        sequence .outside (content ++ (rest ++ after)) k =
          .leaf k kind content (sequence .outside (rest ++ after) (k.advance content))) →
      motive rest (k.advance content) → motive (content ++ rest) k)
    (call : ∀ (content : Text) (g : Group) (rest : Text) (k : Cursor),
      (g.closed = true ∨ rest = []) →
      (∀ after : Text, g.closed = true ∨ rest ++ after = [] →
        sequence .outside (content ++ (g.content ++ (rest ++ after))) k =
          .directive k content g (sequence .inside g.inner (Group.enter (k.advance content)))
            (sequence .outside (rest ++ after) ((k.advance content).advance g.content))) →
      motive rest ((k.advance content).advance g.content) →
      motive (content ++ (g.content ++ rest)) k)
    (text : Text) (k : Cursor) : motive text k := by
  suffices top : ∀ ctx slice, Stretch ctx slice → ctx = .outside → ∀ k, motive slice k from
    top .outside text (stretch .outside text) rfl k
  intro ctx slice pieces outside
  induction pieces with
  | nil => exact nil
  | @literal ctx run rest filled plain stopped _ ih =>
    subst outside
    refine fun k => leaf .literal run rest k ?_ (ih rfl _)
    intro after marker
    refine sequence_literal k filled plain (forall_head?_append stopped ?_)
    intro last c head
    rw [marker last c head]
    rfl
  | separator => cases outside
  | closer => cases outside
  | @directive ctx name rest named stopped bare _ ih =>
    subst outside
    refine fun k => leaf .directive ('$' :: name) rest k ?_ (ih rfl _)
    intro after marker
    refine sequence_name k named (forall_head?_append stopped ?_) (forall_head?_append bare ?_)
    · intro last c head
      rw [marker last c head]
      decide
    · intro last c head
      rw [marker last c head]
      decide
  | @call ctx name rest g named fits _ _ _ ih =>
    subst outside
    refine fun k => call ('$' :: name) g rest k fits.closed_or ?_ (ih rfl _)
    intro after limit
    exact sequence_call k named (fits.append limit)
  | group => cases outside

theorem exists_rest_of_node {text : Text} {k : Cursor} : ∀ {front back : List Node} {c : Node},
    (sequence .outside text k).nodes = front ++ c :: back →
    ∃ before rest, text = before ++ rest ∧ c.position.offset = (k.advance before).offset ∧
      ∀ after, (sequence .outside (text ++ after) k).nodes =
        front ++ (sequence .outside (rest ++ after) (k.advance before)).nodes := by
  have filled {rest : Text} {k : Cursor} {front back : List Node} {c : Node}
      (nodes : (sequence .outside rest k).nodes = front ++ c :: back) : rest ≠ [] := by
    rintro rfl
    simp at nodes
  induction text, k using append_induct with
  | nil k =>
    intro front back c nodes
    exact absurd rfl (filled nodes)
  | leaf kind content rest k read ih =>
    intro front back c nodes
    have whole := read [] (by simp)
    rw [List.append_nil] at whole
    rw [whole] at nodes
    cases front with
    | nil =>
      obtain ⟨rfl, -⟩ := List.cons.inj nodes
      exact ⟨[], content ++ rest, rfl, rfl, fun after => rfl⟩
    | cons first front =>
      obtain ⟨rfl, others⟩ := List.cons.inj nodes
      have ended := filled others
      obtain ⟨before, tail, rfl, offset, more⟩ := ih others
      refine ⟨content ++ before, tail, by simp, by rwa [← Cursor.advance_advance], ?_⟩
      intro after
      rw [List.append_assoc, read after (absurd · ended), ← Cursor.advance_advance]
      exact congrArg (_ :: ·) (more after)
  | call content g rest k limit read ih =>
    intro front back c nodes
    have whole := read [] (by simpa using limit)
    rw [List.append_nil] at whole
    rw [whole] at nodes
    cases front with
    | nil =>
      obtain ⟨rfl, -⟩ := List.cons.inj nodes
      exact ⟨[], content ++ (g.content ++ rest), rfl, rfl, fun after => rfl⟩
    | cons first front =>
      obtain ⟨rfl, others⟩ := List.cons.inj nodes
      have closed := limit.resolve_right (filled others)
      obtain ⟨before, tail, rfl, offset, more⟩ := ih others
      refine ⟨content ++ (g.content ++ before), tail, by simp, ?_, ?_⟩
      · rwa [← Cursor.advance_advance, ← Cursor.advance_advance]
      · intro after
        rw [List.append_assoc, List.append_assoc, read after (.inl closed),
          ← Cursor.advance_advance, ← Cursor.advance_advance]
        exact congrArg (_ :: ·) (more after)

theorem sequence_append_marker {text after : Text} {k : Cursor}
    (marker : ∀ c ∈ after.head?, c = '$')
    (settled : ∀ n ∈ Node.walkAll (sequence .outside text k).nodes, n.kind ≠ .group false) :
    (sequence .outside (text ++ after) k).nodes =
      (sequence .outside text k).nodes ++ (sequence .outside after (k.advance text)).nodes := by
  induction text, k using append_induct with
  | nil k => simp
  | leaf kind content rest k read ih =>
    have whole := read [] (by simp)
    rw [List.append_nil] at whole
    rw [whole, Draft.walkAll_leaf, List.forall_mem_cons] at settled
    rw [List.append_assoc, read after fun _ => marker, whole, ← Cursor.advance_advance]
    exact congrArg (_ :: ·) (ih settled.2)
  | call content g rest k limit read ih =>
    have whole := read [] (by simpa using limit)
    rw [List.append_nil] at whole
    rw [whole, Draft.walkAll_directive, List.forall_mem_cons, List.forall_mem_cons,
      List.forall_mem_append] at settled
    obtain ⟨-, group, -, settled⟩ := settled
    have closed : g.closed = true := by simpa [Group.node] using group
    rw [List.append_assoc, List.append_assoc, read after (.inl closed), whole,
      ← Cursor.advance_advance, ← Cursor.advance_advance]
    exact congrArg (_ :: ·) (ih settled)

/-- When a text grows, all its nodes at the top but the last stay what they are, and where one of
them begins the text can be read anew: what follows is the tree of the rest, moved there. -/
theorem children_build_append {a : Text} {front back : List Node} {c : Node}
    (split : (build a).children = front ++ c :: back) (b : Text) :
    (build (a ++ b)).children = front ++
        (build ((a.cut c.position.offset).2 ++ b)).children.map
          (Node.shift c.position.offset (a.cut c.position.offset).1.newlines) ∧
      (build a).children.dropLast <+: (build (a ++ b)).children := by
  have nodes (text : Text) : (build text).children = (sequence .outside text {}).nodes := rfl
  constructor
  · obtain ⟨before, rest, rfl, offset, more⟩ := exists_rest_of_node split
    rw [Cursor.offset_advance] at offset
    rw [offset, Text.cut_size_append, nodes, nodes, more, sequence_behind]
  · obtain nothing | ⟨others, last, ends⟩ := List.eq_nil_or_concat (build a).children
    · simp [nothing] at split
    · rw [List.concat_eq_append] at ends
      obtain ⟨before, rest, -, -, more⟩ := exists_rest_of_node ends
      rw [ends, List.dropLast_concat, nodes, more]
      exact List.prefix_append _ _

theorem children_build_append_unclosed :
    ∃ front c, (build "é\n$f[x] \n$g[é[".toList).children = front ++ [c] ∧ front.length = 3 ∧
      (build "é\n$f[x] \n$g[é[;]\n]$h".toList).children =
        front ++ (build "$g[é[;]\n]$h".toList).children.map (Node.shift 10 2) := by
  let text : Text := "é\n$f[x] \n$g[é[".toList
  let front := (build text).children.take 3
  let c := (build text).children.get ⟨3, by decide +kernel⟩
  have split : (build text).children = front ++ [c] := by decide +kernel
  have offset : c.position.offset = 10 := by decide +kernel
  have grown := (children_build_append split ";]\n]$h".toList).1
  have rest : (text.cut 10).2 = "$g[é[".toList := by decide +kernel
  have lines : (text.cut 10).1.newlines = 2 := by decide +kernel
  rw [offset, rest, lines] at grown
  exact ⟨front, c, split, by decide +kernel, grown⟩

/-- Texts put next to each other are built one by one if the second begins with a marker and the
first leaves no group open: so are their nodes, their issues and their verdicts. -/
theorem build_append_marker {a b : Text} (settled : ∀ n ∈ (build a).walk, n.kind ≠ .group false)
    (marker : ∀ c ∈ b.head?, c = '$') :
    (build (a ++ b)).children =
        (build a).children ++ (build b).children.map (Node.shift a.size a.newlines) ∧
      (build (a ++ b)).issues =
        (build a).issues ++ (build b).issues.map (Issue.shift a.size a.newlines) ∧
      (Grammar.check (a ++ b) = .ok () ↔ Grammar.check a = .ok () ∧ Grammar.check b = .ok ()) := by
  have children : (build (a ++ b)).children =
      (build a).children ++ (build b).children.map (Node.shift a.size a.newlines) := by
    rw [Node.walk_eq, List.forall_mem_cons] at settled
    have joined := sequence_append_marker marker settled.2
    rwa [sequence_behind] at joined
  have issues : (build (a ++ b)).issues =
      (build a).issues ++ (build b).issues.map (Issue.shift a.size a.newlines) := by
    rw [issues_build, children, Node.issuesAll_append, Node.issuesAll_shift, ← issues_build,
      ← issues_build]
  refine ⟨children, issues, ?_⟩
  rw [Grammar.check_eq_ok_iff, Grammar.check_eq_ok_iff, Grammar.check_eq_ok_iff, issues]
  simp

theorem build_append_marker_unnamed :
    (∀ n ∈ (build "é\n$f[[$];]$".toList).walk, n.kind ≠ .group false) ∧
      (build "é\n$f[[$];]$$é]\n$[x".toList).children =
        (build "é\n$f[[$];]$".toList).children ++
          (build "$é]\n$[x".toList).children.map (Node.shift 12 1) ∧
      (build "é\n$f[[$];]$$é]\n$[x".toList).issues =
        [.unnamedDirective 7 2, .unnamedDirective 11 2] ++
          [.unnamedDirective 5 2, .unterminatedGroup 6 2].map (Issue.shift 12 1) := by
  have settled : ∀ n ∈ (build "é\n$f[[$];]$".toList).walk, n.kind ≠ .group false := by
    decide +kernel
  have first : (build "é\n$f[[$];]$".toList).issues =
      [.unnamedDirective 7 2, .unnamedDirective 11 2] := by decide +kernel
  have second : (build "$é]\n$[x".toList).issues =
      [.unnamedDirective 5 2, .unterminatedGroup 6 2] := by decide +kernel
  obtain ⟨children, issues, -⟩ := build_append_marker settled (b := "$é]\n$[x".toList) (by simp)
  rw [first, second] at issues
  exact ⟨settled, children, issues⟩

end InlineScript
