import InlineScript.Proofs.Append
import InlineScript.Proofs.Depth
import InlineScript.Proofs.Unclosed

/-! Closing what a text has left open. A closing bracket at the end of a text closes the innermost
group that is open there and no other; when none is open it is literal text. So brackets take the
unclosed groups off the list of issues from its end, one by one, and leave the rest of it alone. -/

namespace InlineScript

namespace Issue

def isUnterminated : Issue → Bool
  | .unterminatedGroup _ _ => true
  | .unnamedDirective _ _ => false

/-- What is left of a list of issues without the last `n` unclosed groups in it: one stays if at
least `n` others come behind it. Directives without a name all stay. -/
def closeLast (n : Nat) : List Issue → List Issue
  | [] => []
  | i :: is =>
    if i.isUnterminated && is.countP isUnterminated < n then closeLast n is
    else i :: closeLast n is

section
variable {n m : Nat} {i : Issue} {is js : List Issue}

theorem closeLast_cons_named (h : i.isUnterminated = false) :
    closeLast n (i :: is) = i :: closeLast n is := by
  simp [closeLast, h]

theorem closeLast_cons_removed (h : i.isUnterminated = true)
    (last : is.countP isUnterminated < n) : closeLast n (i :: is) = closeLast n is := by
  simp [closeLast, h, last]

theorem closeLast_cons_kept (h : n ≤ is.countP isUnterminated) :
    closeLast n (i :: is) = i :: closeLast n is := by
  simp [closeLast, Nat.not_lt.mpr h]

theorem closeLast_append (named : is.countP isUnterminated = 0) :
    closeLast n (is ++ js) = is ++ closeLast n js := by
  induction is with
  | nil => rfl
  | cons i is ih =>
    cases h : i.isUnterminated with
    | true => simp [h] at named
    | false =>
      rw [List.countP_cons_of_neg (by simp [h])] at named
      rw [List.cons_append, closeLast_cons_named h, ih named, List.cons_append]

theorem closeLast_of_named (named : is.countP isUnterminated = 0) : closeLast n is = is := by
  have whole : closeLast n (is ++ []) = is ++ closeLast n [] := closeLast_append named
  rw [List.append_nil] at whole
  rw [whole, closeLast, List.append_nil]

theorem filter_closeLast (n : Nat) (is : List Issue) :
    (closeLast n is).filter isUnterminated =
      (is.filter isUnterminated).take (is.countP isUnterminated - n) := by
  induction is with
  | nil => simp [closeLast]
  | cons i is ih =>
    cases h : i.isUnterminated with
    | false =>
      rw [closeLast_cons_named h, List.filter_cons_of_neg (by simp [h]),
        List.filter_cons_of_neg (by simp [h]), List.countP_cons_of_neg (by simp [h]), ih]
    | true =>
      rw [List.filter_cons_of_pos h, List.countP_cons_of_pos h]
      by_cases last : is.countP isUnterminated < n
      · rw [closeLast_cons_removed h last, ih, Nat.sub_eq_zero_of_le (by omega),
          Nat.sub_eq_zero_of_le (by omega), List.take_zero, List.take_zero]
      · rw [closeLast_cons_kept (by omega), List.filter_cons_of_pos h, ih,
          Nat.sub_add_comm (by omega), List.take_succ_cons]

example :
    closeLast 1 [.unterminatedGroup 1 1, .unterminatedGroup 2 1, .unnamedDirective 3 1] =
      [.unterminatedGroup 1 1, .unnamedDirective 3 1] := by
  decide

theorem countP_closeLast (n : Nat) (is : List Issue) :
    (closeLast n is).countP isUnterminated = is.countP isUnterminated - n := by
  rw [List.countP_eq_length_filter, filter_closeLast, List.length_take,
    ← List.countP_eq_length_filter]
  omega

theorem closeLast_zero (is : List Issue) : closeLast 0 is = is := by
  induction is with
  | nil => rfl
  | cons i is ih => rw [closeLast_cons_kept (Nat.zero_le _), ih]

theorem closeLast_closeLast (n : Nat) (is : List Issue) :
    closeLast 1 (closeLast n is) = closeLast (n + 1) is := by
  induction is with
  | nil => rfl
  | cons i is ih =>
    cases h : i.isUnterminated with
    | false => rw [closeLast_cons_named h, closeLast_cons_named h, closeLast_cons_named h, ih]
    | true =>
      have left := countP_closeLast n is
      by_cases last : is.countP isUnterminated < n
      · rw [closeLast_cons_removed h last, closeLast_cons_removed h (by omega), ih]
      · rw [closeLast_cons_kept (by omega)]
        by_cases next : is.countP isUnterminated = n
        · rw [closeLast_cons_removed h (by omega), closeLast_cons_removed h (by omega), ih]
        · rw [closeLast_cons_kept (by omega), closeLast_cons_kept (by omega), ih]

theorem closeLast_all (few : is.countP isUnterminated ≤ n) :
    closeLast n is = is.filter fun i => !i.isUnterminated := by
  induction is with
  | nil => rfl
  | cons i is ih =>
    cases h : i.isUnterminated with
    | false =>
      rw [List.countP_cons_of_neg (by simp [h])] at few
      rw [closeLast_cons_named h, List.filter_cons_of_pos (by simp [h]), ih few]
    | true =>
      rw [List.countP_cons_of_pos h] at few
      rw [closeLast_cons_removed h (by omega), List.filter_cons_of_neg (by simp [h]),
        ih (by omega)]

theorem closeLast_min (few : is.countP isUnterminated ≤ m) :
    closeLast (min n m) is = closeLast n is := by
  obtain fewer | more := Nat.le_total n m
  · rw [Nat.min_eq_left fewer]
  · rw [Nat.min_eq_right more, closeLast_all few, closeLast_all (few.trans more)]

end

end Issue

open Issue (isUnterminated closeLast)

namespace Node

theorem countP_issue? {n : Node} (h : n.kind ≠ .group false) :
    n.issue?.toList.countP isUnterminated = 0 := by
  obtain ⟨kind, content, position, children⟩ := n
  cases kind with
  | group closed => cases closed <;> simp_all [issue?]
  | directive =>
    simp only [issue?]
    split <;> simp [isUnterminated]
  | literal => rfl
  | separator => rfl
  | program => rfl
  | endOfInput => rfl

theorem filter_issues (nodes : List Node) :
    (nodes.filterMap issue?).filter isUnterminated =
      (openGroups nodes).map fun g => .unterminatedGroup g.position.offset g.position.line := by
  induction nodes with
  | nil => rfl
  | cons n nodes ih =>
    by_cases open_ : n.kind = .group false
    · have issue : n.issue? = some (.unterminatedGroup n.position.offset n.position.line) := by
        simp [issue?, open_]
      rw [List.filterMap_cons_some issue, List.filter_cons_of_pos rfl, ih,
        openGroups_cons_self open_, List.map_cons]
    · rw [openGroups_cons open_, ← ih]
      have named := countP_issue? open_
      cases issue : n.issue? with
      | none => rw [List.filterMap_cons_none issue]
      | some i =>
        rw [issue] at named
        rw [List.filterMap_cons_some issue, List.filter_cons_of_neg (by simpa using named)]

theorem countP_issuesAll (ns : List Node) :
    (issuesAll ns).countP isUnterminated = (openGroups (walkAll ns)).length := by
  rw [List.countP_eq_length_filter, issuesAll, filter_issues, List.length_map]

end Node

theorem length_openGroups_sequence {slice : Text} {d : Nat} (depth : slice.depth? 0 = some d)
    (k : Cursor) :
    (Node.openGroups (Node.walkAll (sequence .inside slice k).nodes)).length = d := by
  have enclosed : Enclosed slice [] := ⟨false, ⟨d, depth, by simp⟩, rfl⟩
  have perm := perm_marks_inside (stretch .inside slice) rfl enclosed k
  have brackets := Text.count_of_perm_marks perm
  have count := Text.count_of_depth? depth
  omega

namespace Group

def issues (g : Group) (k : Cursor) : List Issue :=
  Node.issuesAll [g.node k (sequence .inside g.inner (enter k)).nodes]

variable {g : Group} {rest inner : Text} (k : Cursor)

theorem issues_closed (closed : g.closed = true) :
    g.issues k = Node.issuesAll (sequence .inside g.inner (enter k)).nodes := by
  rw [issues, Node.issuesAll_cons, issue?_node.mpr closed]
  exact List.append_nil _

theorem issues_unclosed :
    Group.issues ⟨inner, false⟩ k = .unterminatedGroup k.offset k.line ::
      Node.issuesAll (sequence .inside inner (enter k)).nodes := by
  rw [issues, Node.issuesAll_cons]
  exact congrArg (_ :: ·) (List.append_nil _)

theorem countP_issues_closed (fits : g.Fits rest) (closed : g.closed = true) :
    (g.issues k).countP isUnterminated = 0 := by
  obtain ⟨d, depth, settled⟩ := settles_inner fits
  rw [issues_closed k closed, Node.countP_issuesAll, length_openGroups_sequence depth,
    settled closed]

end Group

namespace Draft

variable (k : Cursor) (kind : Kind) (content : Text) (g : Group) (rest : Draft)

theorem issuesAll_leaf :
    Node.issuesAll (leaf k kind content rest).nodes =
      (Node.leaf kind content (k.span content)).issue?.toList ++ Node.issuesAll rest.nodes := by
  rw [leaf, Node.issuesAll_cons]
  rfl

theorem issuesAll_group :
    Node.issuesAll (group k g (sequence .inside g.inner (Group.enter k)) rest).nodes =
      g.issues k ++ Node.issuesAll rest.nodes := by
  rw [Group.issues, ← Node.issuesAll_append]
  rfl

theorem issuesAll_directive :
    Node.issuesAll (directive k content g
        (sequence .inside g.inner (Group.enter (k.advance content))) rest).nodes =
      (Node.leaf .directive content (k.span content)).issue?.toList ++
        (g.issues (k.advance content) ++ Node.issuesAll rest.nodes) := by
  rw [directive, Node.issuesAll_cons]
  rfl

end Draft

/-- Some group that the slice opens is open at its end, or none is around the slice. -/
def Context.Shields (ctx : Context) (slice : Text) : Prop :=
  ctx = .inside → ∃ d, slice.depth? 0 = some (d + 1)

theorem Context.Shields.skip {ctx : Context} {run rest : Text} (h : ctx.Shields (run ++ rest))
    (settled : ctx = .inside → run.depth? 0 = some 0) : ctx.Shields rest := by
  intro inside
  obtain ⟨d, depth⟩ := h inside
  rw [Text.depth?_append, settled inside] at depth
  exact ⟨d, depth⟩

/-- A closing bracket behind the slice closes the innermost group that is open there. -/
def Context.ClosesLast (ctx : Context) (slice : Text) : Prop :=
  ctx.Shields slice → ∀ k, Node.issuesAll (sequence ctx (slice ++ [']']) k).nodes =
    closeLast 1 (Node.issuesAll (sequence ctx slice k).nodes)

section
variable {ctx : Context} {kind : Kind} {content rest : Text} {g : Group}

theorem Context.ClosesLast.leaf (more : ctx.ClosesLast rest) (other : kind ≠ .group false)
    (settled : ctx = .inside → content.depth? 0 = some 0)
    (before : ∀ k, sequence ctx (content ++ rest) k =
      .leaf k kind content (sequence ctx rest (k.advance content)))
    (after : ∀ k, sequence ctx (content ++ (rest ++ [']'])) k =
      .leaf k kind content (sequence ctx (rest ++ [']']) (k.advance content))) :
    ctx.ClosesLast (content ++ rest) := by
  intro shields k
  rw [List.append_assoc, before, after, Draft.issuesAll_leaf, Draft.issuesAll_leaf,
    more (shields.skip settled), Issue.closeLast_append (Node.countP_issue? other)]

theorem Group.exists_append_closer (fits : g.Fits []) (unclosed : g.closed = false)
    (inside : Context.inside.ClosesLast g.inner) :
    ∃ h : Group, h.Fits [] ∧ h.content = g.content ++ [']'] ∧
      ∀ k, h.issues k = closeLast 1 (g.issues k) := by
  cases fits with
  | closed => simp at unclosed
  | @unclosed inner nests =>
    change Context.inside.ClosesLast inner at inside
    obtain ⟨d, depth⟩ := nests
    have count (k : Cursor) :
        (Node.issuesAll (sequence .inside inner k).nodes).countP isUnterminated = d := by
      rw [Node.countP_issuesAll, length_openGroups_sequence depth]
    cases d with
    | zero =>
      refine ⟨⟨inner ++ [']'], true⟩, .closed depth [], rfl, ?_⟩
      intro k
      have same : Group.inner ⟨inner ++ [']'], true⟩ = inner := by simp [Group.inner]
      have last := count (enter k)
      rw [issues_closed k rfl, same, issues_unclosed,
        Issue.closeLast_cons_removed rfl (by omega), Issue.closeLast_of_named last]
    | succ d =>
      have nests : (inner ++ [']']).Nests := ⟨d, by rw [Text.depth?_append, depth]; rfl⟩
      refine ⟨⟨inner ++ [']'], false⟩, .unclosed nests, rfl, ?_⟩
      intro k
      have more := count (enter k)
      rw [issues_unclosed, issues_unclosed, inside fun _ => ⟨d, depth⟩,
        Issue.closeLast_cons_kept (by omega)]

theorem Group.exists_fits_append_closer (fits : g.Fits rest)
    (shields : ctx.Shields (g.content ++ rest)) (inside : Context.inside.ClosesLast g.inner)
    (behind : ctx.ClosesLast rest) :
    ∃ (h : Group) (tail : Text), h.Fits tail ∧ h.content ++ tail = g.content ++ (rest ++ [']']) ∧
      ∀ k, h.issues k ++ Node.issuesAll (sequence ctx tail (k.advance h.content)).nodes =
        closeLast 1
          (g.issues k ++ Node.issuesAll (sequence ctx rest (k.advance g.content)).nodes) := by
  cases closed : g.closed with
  | true =>
    refine ⟨g, rest ++ [']'], fits.append (.inl closed), rfl, ?_⟩
    intro k
    rw [behind (shields.skip fun _ => Group.depth?_content fits closed),
      Issue.closeLast_append (countP_issues_closed k fits closed)]
  | false =>
    obtain rfl := fits.closed_or.resolve_left (by simp [closed])
    obtain ⟨h, fits, content, issues⟩ := Group.exists_append_closer fits closed inside
    have nothing : Node.issuesAll [] = [] := rfl
    refine ⟨h, [], fits, by simpa using content, ?_⟩
    intro k
    rw [sequence_nil, sequence_nil, nothing, List.append_nil, List.append_nil, issues]

end

theorem forall_head?_closer {P : Char → Prop} (closer : P ']') :
    ∀ c ∈ List.head? [']'], P c := by
  simpa using closer

theorem issuesAll_plain {run : Text} (plain : ∀ c ∈ run, Context.outside.stops c = false)
    (k : Cursor) : Node.issuesAll (sequence .outside run k).nodes = [] := by
  by_cases filled : run = []
  · rw [filled, sequence_nil]
    rfl
  · have whole : sequence .outside (run ++ []) k = .leaf k .literal run _ :=
      sequence_literal k filled plain (by simp)
    rw [← List.append_nil run, whole, Draft.issuesAll_leaf, sequence_nil]
    rfl

theorem closesLast_plain {run : Text} (plain : ∀ c ∈ run, Context.outside.stops c = false) :
    Context.outside.ClosesLast run := by
  intro _ k
  have longer : ∀ c ∈ run ++ [']'], Context.outside.stops c = false := by
    rw [List.forall_mem_append, List.forall_mem_singleton]
    exact ⟨plain, rfl⟩
  rw [issuesAll_plain plain, issuesAll_plain longer]
  rfl

/-- The bracket is handed down to the group that is unclosed at the end of the slice, if there is
one, and by that to the unclosed group in it, until it reaches a group with none. -/
theorem closesLast {ctx : Context} {slice : Text} (pieces : Stretch ctx slice) :
    ctx.ClosesLast slice := by
  induction pieces with
  | nil ctx =>
    cases ctx with
    | inside =>
      intro shields
      obtain ⟨d, depth⟩ := shields rfl
      simp at depth
    | outside => exact closesLast_plain (by simp)
  | @literal ctx run rest filled plain stopped _ ih =>
    by_cases last : ctx = .outside ∧ rest = []
    · -- At the top the bracket is one more character of the last run.
      obtain ⟨rfl, rfl⟩ := last
      rw [List.append_nil]
      exact closesLast_plain plain
    · refine ih.leaf (by simp) ?_ (sequence_literal · filled plain stopped)
        (sequence_literal · filled plain (forall_head?_append stopped ?_))
      · rintro rfl
        exact Text.depth?_bracketless (bracketless_of_plain plain) 0
      · intro nothing
        cases ctx with
        | inside => exact forall_head?_closer rfl
        | outside => exact absurd ⟨rfl, nothing⟩ last
  | @separator rest _ ih =>
    change Context.inside.ClosesLast ([';'] ++ rest)
    exact ih.leaf (by simp) (fun _ => rfl) (fun k => sequence_separator k)
      fun k => sequence_separator k
  | closer =>
    intro shields
    obtain ⟨d, depth⟩ := shields rfl
    simp at depth
  | @directive ctx name rest named stopped bare _ ih =>
    rw [← List.cons_append]
    exact ih.leaf (by simp)
      (fun _ => Text.depth?_bracketless (bracketless_of_named named) 0)
      (sequence_name · named stopped bare)
      (sequence_name · named (forall_head?_append stopped fun _ => forall_head?_closer (by decide))
        (forall_head?_append bare fun _ => forall_head?_closer (by decide)))
  | @call ctx name rest g named fits _ _ ihInner ih =>
    intro shields k
    rw [← List.cons_append] at shields
    have called := shields.skip fun _ => Text.depth?_bracketless (bracketless_of_named named) 0
    obtain ⟨h, tail, closes, whole, issues⟩ :=
      Group.exists_fits_append_closer fits called ihInner ih
    have own := Node.countP_issue? (n := .leaf .directive ('$' :: name) (k.span ('$' :: name)))
      (by simp [Node.leaf])
    rw [List.cons_append, List.append_assoc, List.append_assoc, ← whole,
      sequence_call k named closes, sequence_call k named fits, Draft.issuesAll_directive,
      Draft.issuesAll_directive, issues, Issue.closeLast_append own]
  | @group rest g fits _ _ ihInner ih =>
    intro shields k
    obtain ⟨h, tail, closes, whole, issues⟩ :=
      Group.exists_fits_append_closer fits shields ihInner ih
    rw [List.append_assoc, ← whole, sequence_bracket k closes, sequence_bracket k fits,
      Draft.issuesAll_group, Draft.issuesAll_group, issues]

theorem issues_build_replicate (text : Text) (j : Nat) :
    (build (text ++ List.replicate j ']')).issues = closeLast j (build text).issues := by
  induction j with
  | zero => rw [List.replicate_zero, List.append_nil, Issue.closeLast_zero]
  | succ j ih =>
    have one := closesLast (stretch .outside (text ++ List.replicate j ']')) nofun {}
    change Node.issuesAll (build (text ++ List.replicate j ']' ++ [']'])).children =
      closeLast 1 (Node.issuesAll (build (text ++ List.replicate j ']')).children) at one
    rw [← issues_build, ← issues_build, ih, Issue.closeLast_closeLast, List.append_assoc] at one
    rw [List.replicate_succ', one]

/-- Closing brackets at the end of a text close its unclosed groups from the innermost one on,
until none is left: the other issues stay what they are, and so do the groups around. As many
brackets as there are unclosed groups make the text well formed if its directives have names. -/
theorem issues_build_closers (text : Text) :
    (∀ j, (build (text ++ List.replicate j ']')).issues =
        closeLast (min j (Node.openGroups (build text).walk).length) (build text).issues ∧
      (build (text ++ List.replicate j ']')).issues.filter isUnterminated =
        ((Node.openGroups (build text).walk).take
            ((Node.openGroups (build text).walk).length - j)).map
          fun g => .unterminatedGroup g.position.offset g.position.line) ∧
    ((Node.openGroups (build text).walk).Pairwise fun g h => h ∈ Node.walkAll g.children) ∧
    (Grammar.check (text ++ List.replicate (Node.openGroups (build text).walk).length ']') =
        .ok () ↔ ∀ offset line, .unnamedDirective offset line ∉ (build text).issues) := by
  have groups := Node.filter_issues (build text).walk
  change (build text).issues.filter isUnterminated = _ at groups
  have count : (build text).issues.countP isUnterminated =
      (Node.openGroups (build text).walk).length := by
    rw [List.countP_eq_length_filter, groups, List.length_map]
  refine ⟨?_, (chained_build text).pairwise, ?_⟩
  · intro j
    rw [issues_build_replicate, Issue.closeLast_min count.le, Issue.filter_closeLast, groups, count,
      List.map_take]
    exact ⟨rfl, rfl⟩
  · rw [Grammar.check_eq_ok_iff, issues_build_replicate, Issue.closeLast_all count.le,
      List.filter_eq_nil_iff]
    constructor
    · intro closed offset line mem
      exact closed _ mem rfl
    · intro named i mem
      cases i with
      | unterminatedGroup offset line => simp [isUnterminated]
      | unnamedDirective offset line => exact absurd mem (named offset line)

end InlineScript
