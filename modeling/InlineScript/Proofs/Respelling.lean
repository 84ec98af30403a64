import InlineScript.Proofs.Canonical
import InlineScript.Proofs.Layout
import InlineScript.Proofs.Shift
import InlineScript.Proofs.Strict

/-! Only the roles of characters matter. Where every character of a text is replaced by one with
the same role, blanks by blanks and others by others, the same tree is built around the new
contents, though each length and each offset in it may be another: a scan counts brackets, a run
ends at roles, and the bytes between them are only handed on. So the grammar's verdict stays too. -/

namespace InlineScript

/-- Each character is replaced by one of the same role, a blank by a blank and no other by one. -/
structure KeepsRoles (s : Char → Char) : Prop where
  role : ∀ c, Role.of (s c) = Role.of c
  blank : ∀ c, isBlank (s c) = isBlank c

def Group.respell (s : Char → Char) (g : Group) : Group := ⟨g.body.map s, g.closed⟩

namespace KeepsRoles

variable {s : Char → Char} (h : KeepsRoles s)
include h

theorem marker : s '$' = '$' := Role.of_eq_marker_iff.mp (h.role '$')

theorem opener : s '[' = '[' := Role.of_eq_opener_iff.mp (h.role '[')

theorem closer : s ']' = ']' := Role.of_eq_closer_iff.mp (h.role ']')

theorem separator : s ';' = ';' := Role.of_eq_separator_iff.mp (h.role ';')

theorem stops_apply (ctx : Context) (c : Char) : ctx.stops (s c) = ctx.stops c := by
  cases ctx <;> simp [Context.stops, h.role]

theorem isNameChar_apply (c : Char) : isNameChar (s c) = isNameChar c := by
  simp [isNameChar, h.blank, h.stops_apply]

theorem eq_opener_iff (c : Char) : s c = '[' ↔ c = '[' := by
  rw [← Role.of_eq_opener_iff, ← Role.of_eq_opener_iff, h.role]

theorem depth?_map (d : Nat) (t : Text) : Text.depth? d (t.map s) = t.depth? d := by
  induction t generalizing d with
  | nil => rfl
  | cons c t ih => simp only [List.map_cons, Text.depth?, h.role, ih]

theorem content_respell (g : Group) : (g.respell s).content = g.content.map s := by
  simp [Group.content, Group.respell, h.opener]

theorem fits_respell {g : Group} {rest : Text} (fits : g.Fits rest) :
    (g.respell s).Fits (rest.map s) := by
  cases fits with
  | @closed inner balanced =>
    have kept : Text.Balanced (inner.map s) := (h.depth?_map 0 inner).trans balanced
    simpa [Group.respell, h.closer] using Group.Fits.closed kept (rest.map s)
  | @unclosed inner nests =>
    obtain ⟨d, depth⟩ := nests
    exact .unclosed ⟨d, (h.depth?_map 0 inner).trans depth⟩

end KeepsRoles

theorem Group.inner_respell (s : Char → Char) (g : Group) :
    (g.respell s).inner = g.inner.map s := by
  cases closed : g.closed <;> simp [inner, respell, closed, List.map_dropLast]

namespace Node

mutual

/-- A node with the characters of its contents replaced, and without the positions. -/
def respell (s : Char → Char) : Node → Node
  | ⟨kind, content, _, children⟩ => ⟨kind, content.map s, {}, respellAll s children⟩

def respellAll (s : Char → Char) : List Node → List Node
  | [] => []
  | n :: ns => respell s n :: respellAll s ns

end

theorem respell_mk (s : Char → Char) (kind : Kind) (content : Text) (position : Position)
    (children : List Node) :
    (mk kind content position children).respell s =
      ⟨kind, content.map s, {}, respellAll s children⟩ := rfl

@[simp] theorem respellAll_nil (s : Char → Char) : respellAll s [] = [] := rfl

@[simp] theorem respellAll_cons (s : Char → Char) (n : Node) (ns : List Node) :
    respellAll s (n :: ns) = n.respell s :: respellAll s ns := rfl

mutual

theorem bare_eq_respell : (n : Node) → n.bare = n.respell id
  | ⟨kind, content, position, children⟩ => by
    rw [bare_mk, respell_mk, List.map_id, bareAll_eq_respellAll children]

theorem bareAll_eq_respellAll : (ns : List Node) → bareAll ns = respellAll id ns
  | [] => rfl
  | n :: ns => by
    rw [bareAll_cons, respellAll_cons, bare_eq_respell n, bareAll_eq_respellAll ns]

end

mutual

theorem walk_respell (s : Char → Char) : (n : Node) →
    (n.respell s).walk = n.walk.map (respell s)
  | ⟨kind, content, position, children⟩ => by
    rw [respell_mk, walk, walk, List.map_cons, respell_mk, walkAll_respell s children]

theorem walkAll_respell (s : Char → Char) : (ns : List Node) →
    walkAll (respellAll s ns) = (walkAll ns).map (respell s)
  | [] => rfl
  | n :: ns => by
    rw [respellAll_cons, walkAll_cons, walkAll_cons, List.map_append, walk_respell s n,
      walkAll_respell s ns]

end

end Node

theorem forall_head?_map {P Q : Char → Prop} {s : Char → Char} {t : Text}
    (first : ∀ c ∈ t.head?, P c) (keep : ∀ c, P c → Q (s c)) : ∀ c ∈ (t.map s).head?, Q c := by
  cases t with
  | nil => simp
  | cons c t =>
    have here := keep c (first c rfl)
    simpa using here

namespace Draft

open Node (bareAll respellAll)

variable {s : Char → Char} {k k' : Cursor} {content content' : Text} {g : Group}
  {inner inner' rest rest' : Draft}

theorem respell_leaf (kind : Kind) (spelled : content.map s = content')
    (behind : bareAll rest'.nodes = respellAll s rest.nodes) :
    bareAll (leaf k' kind content' rest').nodes =
      respellAll s (leaf k kind content rest).nodes := by
  rw [leaf, leaf, Node.bareAll_cons, Node.respellAll_cons, behind, ← spelled]
  rfl

variable (h : KeepsRoles s) (inside : bareAll inner'.nodes = respellAll s inner.nodes)
include h inside

theorem respell_node :
    ((g.respell s).node k' inner'.nodes).bare = (g.node k inner.nodes).respell s := by
  rw [Group.node, Group.node, Node.bare_mk, Node.respell_mk, inside, h.content_respell]
  rfl

theorem respell_group (behind : bareAll rest'.nodes = respellAll s rest.nodes) :
    bareAll (group k' (g.respell s) inner' rest').nodes =
      respellAll s (group k g inner rest).nodes := by
  rw [group, group, Node.bareAll_cons, Node.respellAll_cons, behind, respell_node h inside]

theorem respell_directive (spelled : content.map s = content')
    (behind : bareAll rest'.nodes = respellAll s rest.nodes) :
    bareAll (directive k' content' (g.respell s) inner' rest').nodes =
      respellAll s (directive k content g inner rest).nodes := by
  rw [directive, directive, Node.bareAll_cons, Node.respellAll_cons, behind, Node.bare_mk,
    Node.respell_mk, Node.bareAll_cons, Node.respellAll_cons,
    respell_node (k := k.advance content) h inside, spelled]
  rfl

end Draft

theorem respell_sequence {s : Char → Char} (h : KeepsRoles s) {ctx : Context} {slice : Text}
    (pieces : Stretch ctx slice) (k k' : Cursor) :
    Node.bareAll (sequence ctx (slice.map s) k').nodes =
      Node.respellAll s (sequence ctx slice k).nodes := by
  induction pieces generalizing k k' with
  | nil => simp
  | @literal ctx run rest filled plain stopped _ ih =>
    have plain' : ∀ c ∈ run.map s, ctx.stops c = false := by simpa [h.stops_apply] using plain
    have stopped' : ∀ c ∈ (rest.map s).head?, ctx.stops c = true :=
      forall_head?_map stopped fun c stop => (h.stops_apply ctx c).trans stop
    rw [List.map_append, sequence_literal k' (by simpa using filled) plain' stopped',
      sequence_literal k filled plain stopped]
    exact Draft.respell_leaf .literal rfl (ih _ _)
  | separator _ ih =>
    rw [List.map_cons, h.separator, sequence_separator, sequence_separator]
    exact Draft.respell_leaf .separator (by simp [h.separator]) (ih _ _)
  | closer _ ih =>
    rw [List.map_cons, h.closer, sequence_closer, sequence_closer]
    exact Draft.respell_leaf .literal (by simp [h.closer]) (ih _ _)
  | @directive ctx name rest named stopped bare _ ih =>
    have named' : ∀ c ∈ name.map s, isNameChar c = true := by simpa [h.isNameChar_apply] using named
    have stopped' : ∀ c ∈ (rest.map s).head?, isNameChar c = false :=
      forall_head?_map stopped fun c stop => (h.isNameChar_apply c).trans stop
    have bare' : ∀ c ∈ (rest.map s).head?, c ≠ '[' :=
      forall_head?_map bare fun c other => mt (h.eq_opener_iff c).mp other
    rw [List.map_cons, List.map_append, h.marker, sequence_name k' named' stopped' bare',
      sequence_name k named stopped bare]
    exact Draft.respell_leaf .directive (by simp [h.marker]) (ih _ _)
  | @call ctx name rest g named fits _ _ ihInner ih =>
    have named' : ∀ c ∈ name.map s, isNameChar c = true := by simpa [h.isNameChar_apply] using named
    rw [List.map_cons, List.map_append, List.map_append, h.marker, ← h.content_respell,
      sequence_call k' named' (h.fits_respell fits), sequence_call k named fits,
      Group.inner_respell]
    exact Draft.respell_directive h (ihInner _ _) (by simp [h.marker]) (ih _ _)
  | @group rest g fits _ _ ihInner ih =>
    rw [List.map_append, ← h.content_respell, sequence_bracket k' (h.fits_respell fits),
      sequence_bracket k fits, Group.inner_respell]
    exact Draft.respell_group h (ihInner _ _) (ih _ _)

theorem Node.Occurs.issue?_respell {s : Char → Char} (h : KeepsRoles s) {text : Text} {n : Node}
    (occurs : n.Occurs text) : (n.respell s).issue? = none ↔ n.issue? = none := by
  cases occurs with
  | literal => simp [leaf, respell_mk, issue?]
  | separator => simp [leaf, respell_mk, issue?]
  | directive =>
    simp only [leaf, respell_mk, List.map_cons, h.marker, issue?_directive, ne_eq,
      List.map_eq_nil_iff]
  | call =>
    simp only [respell_mk, List.map_cons, h.marker, issue?_directive, ne_eq, List.map_eq_nil_iff]
  | @group before after g =>
    rw [Group.node, respell_mk]
    cases g.closed <;> simp [issue?]

theorem Grammar.check_eq_ok_iff_respell {s : Char → Char} (h : KeepsRoles s) {text : Text} :
    check text = .ok () ↔
      ∀ n ∈ Node.walkAll (Node.respellAll s (build text).children), n.issue? = none := by
  rw [check_eq_ok_iff, issues_build, Node.issuesAll, List.filterMap_eq_nil_iff,
    Node.walkAll_respell, List.forall_mem_map]
  exact forall₂_congr fun n mem => ((occurs_build n mem).issue?_respell h).symm

/-- A text in which characters make way for others of the same role has the same tree with the
new contents, and the same verdict of the grammar. The content of a root is no part of a text. -/
theorem respell_build {s : Char → Char} (h : KeepsRoles s) (text : Text) :
    (build (text.map s)).bare = { (build text).respell s with content := programMark } ∧
      (Grammar.check (text.map s) = .ok () ↔ Grammar.check text = .ok ()) := by
  have children : Node.bareAll (build (text.map s)).children =
      Node.respellAll s (build text).children :=
    respell_sequence h (stretch .outside text) {} {}
  constructor
  · rw [build_eq, build_eq, program, program, Node.bare_mk, Node.respell_mk]
    exact congrArg (Node.mk .program programMark {}) children
  · have same : KeepsRoles id := ⟨fun _ => rfl, fun _ => rfl⟩
    rw [Grammar.check_eq_ok_iff_respell same, Grammar.check_eq_ok_iff_respell h, ← children,
      Node.bareAll_eq_respellAll]

theorem respell_build_widened :
    ∃ s : Char → Char, KeepsRoles s ∧ s 'x' = '€' ∧ s ' ' = '\n' ∧ s '\n' = '\u3000' ∧
      (build ("x\n$x[ ;x[$x]x".toList.map s)).bare =
        { (build "x\n$x[ ;x[$x]x".toList).respell s with content := programMark } ∧
      (Grammar.check ("x\n$x[ ;x[$x]x".toList.map s) = .ok () ↔
        Grammar.check "x\n$x[ ;x[$x]x".toList = .ok ()) := by
  let s (c : Char) : Char :=
    if c = 'x' then '€' else if c = ' ' then '\n' else if c = '\n' then '\u3000' else c
  have keeps : KeepsRoles s := by
    constructor
    · intro c
      simp only [s]
      split_ifs <;> simp_all [Role.of]
    · intro c
      simp only [s]
      split_ifs <;> simp_all <;> decide
  exact ⟨s, keeps, rfl, rfl, rfl, respell_build keeps _⟩

end InlineScript
