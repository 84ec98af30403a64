import InlineScript.Draft
import InlineScript.Proofs.Scanning
import Mathlib.Data.List.TakeWhile

/-! How a stretch of script falls into pieces, each with what must hold around it
for the reader to stop where it stops. Every text is a stretch in either context,
in one way only, so an induction over stretches is an induction over what the
sequence of siblings does. -/

namespace InlineScript

def isNameChar (c : Char) : Bool := !isBlank c && !Context.inside.stops c

theorem isNameChar_iff {c : Char} :
    isNameChar c = true ↔ isBlank c = false ∧ c ≠ '$' ∧ c ≠ '[' ∧ c ≠ ']' ∧ c ≠ ';' := by
  rw [isNameChar, Bool.and_eq_true, Bool.not_eq_true', Bool.not_eq_true',
    ← Bool.not_eq_true (Context.stops _ c), Context.stops_inside_iff]
  simp only [not_or, ne_eq]

theorem nameRun_eq_takeWhile (t : Text) : nameRun t = t.takeWhile isNameChar := by
  rw [nameRun, literal, List.takeWhile_takeWhile]
  congr 1
  funext c
  cases blank : isBlank c <;> cases stops : Context.inside.stops c <;>
    simp [isNameChar, blank, stops]

theorem takeWhile_stop {p : Char → Bool} {rest : Text} (stop : ∀ c ∈ rest.head?, p c = false) :
    rest.takeWhile p = [] := by
  cases rest with
  | nil => rfl
  | cons c rest => simp [stop c rfl]

theorem takeWhile_append_stop {p : Char → Bool} {run rest : Text}
    (keep : ∀ c ∈ run, p c = true) (stop : ∀ c ∈ rest.head?, p c = false) :
    (run ++ rest).takeWhile p = run := by
  rw [List.takeWhile_append_of_pos keep, takeWhile_stop stop, List.append_nil]

theorem dropWhile_append_stop {p : Char → Bool} {run rest : Text}
    (keep : ∀ c ∈ run, p c = true) (stop : ∀ c ∈ rest.head?, p c = false) :
    (run ++ rest).dropWhile p = rest := by
  rw [List.dropWhile_append_of_pos keep]
  cases rest with
  | nil => rfl
  | cons c rest => simp [stop c rfl]

theorem not_head?_dropWhile {p : Char → Bool} {t : Text} :
    ∀ c ∈ (t.dropWhile p).head?, p c = false := by
  intro c hc
  have stop := List.head?_dropWhile_not p t
  rw [Option.mem_def.mp hc] at stop
  exact stop

theorem literal_append {ctx : Context} {run rest : Text}
    (plain : ∀ c ∈ run, ctx.stops c = false) (stopped : ∀ c ∈ rest.head?, ctx.stops c = true) :
    literal ctx (run ++ rest) = run :=
  takeWhile_append_stop (by simpa using plain) (by simpa using stopped)

theorem nameRun_append {name rest : Text} (named : ∀ c ∈ name, isNameChar c = true)
    (stopped : ∀ c ∈ rest.head?, isNameChar c = false) : nameRun (name ++ rest) = name := by
  rw [nameRun_eq_takeWhile, takeWhile_append_stop named stopped]

theorem Group.ends_name (g : Group) (t : Text) :
    ∀ c ∈ (g.content ++ t).head?, isNameChar c = false := by
  intro c head
  obtain rfl : '[' = c := by simpa [content] using head
  decide

theorem bracketless_of_plain {run : Text} (plain : ∀ c ∈ run, Context.inside.stops c = false) :
    run.Bracketless := by
  intro c hc
  have literal := Bool.eq_false_iff.mp (plain c hc)
  rw [ne_eq, Context.stops_inside_iff] at literal
  exact ⟨fun same => literal (.inr (.inl same)), fun same => literal (.inr (.inr (.inl same)))⟩

theorem bracketless_separator : Text.Bracketless [';'] := by
  simp [Text.Bracketless]

theorem bracketless_of_named {name : Text} (named : ∀ c ∈ name, isNameChar c = true) :
    Text.Bracketless ('$' :: name) := by
  rw [Text.Bracketless, List.forall_mem_cons]
  refine ⟨by decide, ?_⟩
  intro c hc
  have literal := isNameChar_iff.mp (named c hc)
  exact ⟨literal.2.2.1, literal.2.2.2.1⟩

inductive Stretch : Context → Text → Prop
  | nil (ctx : Context) : Stretch ctx []
  | literal {ctx : Context} {run rest : Text} (filled : run ≠ [])
      (plain : ∀ c ∈ run, ctx.stops c = false)
      (stopped : ∀ c ∈ rest.head?, ctx.stops c = true) (more : Stretch ctx rest) :
      Stretch ctx (run ++ rest)
  | separator {rest : Text} (more : Stretch .inside rest) : Stretch .inside (';' :: rest)
  | closer {rest : Text} (more : Stretch .inside rest) : Stretch .inside (']' :: rest)
  | directive {ctx : Context} {name rest : Text} (named : ∀ c ∈ name, isNameChar c = true)
      (stopped : ∀ c ∈ rest.head?, isNameChar c = false) (bare : ∀ c ∈ rest.head?, c ≠ '[')
      (more : Stretch ctx rest) : Stretch ctx ('$' :: (name ++ rest))
  | call {ctx : Context} {name rest : Text} {g : Group} (named : ∀ c ∈ name, isNameChar c = true)
      (fits : g.Fits rest) (inner : Stretch .inside g.inner) (more : Stretch ctx rest) :
      Stretch ctx ('$' :: (name ++ (g.content ++ rest)))
  | group {rest : Text} {g : Group} (fits : g.Fits rest) (inner : Stretch .inside g.inner)
      (more : Stretch .inside rest) : Stretch .inside (g.content ++ rest)

section
variable {ctx : Context} {run name rest : Text} {g : Group} (k : Cursor)

theorem sequence_literal (filled : run ≠ []) (plain : ∀ c ∈ run, ctx.stops c = false)
    (stopped : ∀ c ∈ rest.head?, ctx.stops c = true) :
    sequence ctx (run ++ rest) k = .leaf k .literal run (sequence ctx rest (k.advance run)) := by
  obtain ⟨c, cs, rfl⟩ := List.exists_cons_of_ne_nil filled
  have whole : literal ctx (c :: (cs ++ rest)) = c :: cs := literal_append plain stopped
  have read : Piece.read ctx c (cs ++ rest) = (.leaf .literal (c :: cs), rest) := by
    rw [Piece.read_literal (plain c List.mem_cons_self), Piece.readLiteral, whole]
    simp
  exact sequence_leaf read k

theorem sequence_separator :
    sequence .inside (';' :: rest) k =
      .leaf k .separator [';'] (sequence .inside rest (k.advance [';'])) :=
  sequence_leaf (Piece.read_separator rfl rest) k

theorem sequence_closer :
    sequence .inside (']' :: rest) k =
      .leaf k .literal [']'] (sequence .inside rest (k.advance [']'])) :=
  sequence_leaf (Piece.read_closer rfl rest) k

theorem sequence_name (named : ∀ c ∈ name, isNameChar c = true)
    (stopped : ∀ c ∈ rest.head?, isNameChar c = false) (bare : ∀ c ∈ rest.head?, c ≠ '[') :
    sequence ctx ('$' :: (name ++ rest)) k =
      .leaf k .directive ('$' :: name) (sequence ctx rest (k.advance ('$' :: name))) := by
  have uncut : Group.cut? rest = none := by
    cases rest with
    | nil => rfl
    | cons c cs => simp [Group.cut?, bare c rfl]
  have read : Piece.read ctx '$' (name ++ rest) = (.leaf .directive ('$' :: name), rest) := by
    rw [Piece.read_marker rfl, Piece.readDirective, nameRun_append named stopped]
    simp [uncut]
  exact sequence_leaf read k

theorem sequence_call (named : ∀ c ∈ name, isNameChar c = true) (fits : g.Fits rest) :
    sequence ctx ('$' :: (name ++ (g.content ++ rest))) k =
      .directive k ('$' :: name) g
        (sequence .inside g.inner (Group.enter (k.advance ('$' :: name))))
        (sequence ctx rest ((k.advance ('$' :: name)).advance g.content)) := by
  have stopped := g.ends_name rest
  have cut : Group.cut? (g.content ++ rest) = some (g, rest) := by
    simp [Group.content, Group.cut?, Group.cut_of_fits fits]
  have read : Piece.read ctx '$' (name ++ (g.content ++ rest)) =
      (.directive ('$' :: name) g, rest) := by
    rw [Piece.read_marker rfl, Piece.readDirective, nameRun_append named stopped]
    simp [cut]
  exact sequence_directive read k

theorem sequence_bracket (fits : g.Fits rest) :
    sequence .inside (g.content ++ rest) k =
      .group k g (sequence .inside g.inner (Group.enter k))
        (sequence .inside rest (k.advance g.content)) := by
  have read : Piece.read .inside '[' (g.body ++ rest) = (.group g, rest) := by
    rw [Piece.read_opener rfl, Group.cut_of_fits fits]
  exact sequence_group read k

end

namespace Draft

variable (k : Cursor) (kind : Kind) (content : Text) (g : Group) (inner rest : Draft)

@[simp] theorem walkAll_leaf :
    Node.walkAll (leaf k kind content rest).nodes =
      .leaf kind content (k.span content) :: Node.walkAll rest.nodes := rfl

@[simp] theorem walkAll_group :
    Node.walkAll (group k g inner rest).nodes =
      g.node k inner.nodes :: (Node.walkAll inner.nodes ++ Node.walkAll rest.nodes) := by
  simp [group, Group.node, Node.walk_eq]

@[simp] theorem walkAll_directive :
    Node.walkAll (directive k content g inner rest).nodes =
      ⟨.directive, content, k.span content, [g.node (k.advance content) inner.nodes]⟩ ::
        g.node (k.advance content) inner.nodes ::
          (Node.walkAll inner.nodes ++ Node.walkAll rest.nodes) := by
  simp [directive, Group.node, Node.walk_eq]

end Draft

theorem Stretch.marker {ctx : Context} {cs : Text}
    (shorter : ∀ (ctx : Context) (t : Text), t.length ≤ cs.length → Stretch ctx t) :
    Stretch ctx ('$' :: cs) := by
  have named : ∀ c ∈ cs.takeWhile isNameChar, isNameChar c = true :=
    fun c hc => List.mem_takeWhile_imp hc
  have stopped := not_head?_dropWhile (p := isNameChar) (t := cs)
  have whole := List.takeWhile_append_dropWhile (p := isNameChar) (l := cs)
  generalize cs.takeWhile isNameChar = name at named whole
  generalize cs.dropWhile isNameChar = rest at stopped whole
  subst whole
  by_cases bracket : ∃ body, rest = '[' :: body
  · obtain ⟨body, rfl⟩ := bracket
    have fits := Group.fits_cut body
    have content := Group.content_cut_append body
    generalize Group.cut body = found at fits content
    obtain ⟨g, rest⟩ := found
    simp only at fits content
    rw [← content] at shorter ⊢
    have inner := g.length_inner_le
    refine .call named fits (shorter _ _ ?_) (shorter _ _ ?_)
    · simp only [Group.content, List.length_append, List.length_cons]
      omega
    · simp only [List.length_append]
      omega
  · refine .directive named stopped ?_ (shorter _ _ ?_)
    · intro c hc same
      obtain ⟨body, shape⟩ := List.head?_eq_some_iff.mp hc
      exact bracket ⟨body, by rw [shape, same]⟩
    · simp

theorem Stretch.of_length_le (n : Nat) :
    ∀ (ctx : Context) (t : Text), t.length ≤ n → Stretch ctx t := by
  induction n with
  | zero =>
    intro ctx t h
    rw [List.length_eq_zero_iff.mp (Nat.le_zero.mp h)]
    exact .nil ctx
  | succ n ih =>
    intro ctx t h
    cases t with
    | nil => exact .nil ctx
    | cons c cs =>
      have short : cs.length ≤ n := by simpa using h
      cases stops : ctx.stops c with
      | false =>
        rw [← List.takeWhile_append_dropWhile (p := fun c => !ctx.stops c) (l := c :: cs)]
        refine .literal ?_ ?_ ?_ (ih _ _ ?_)
        · simp [stops]
        · intro d hd
          simpa using List.mem_takeWhile_imp hd
        · intro d hd
          simpa using not_head?_dropWhile d hd
        · have shrunk := List.length_dropWhile_le (fun c => !ctx.stops c) cs
          simp only [List.dropWhile_cons, stops, Bool.not_false, if_true]
          omega
      | true =>
        by_cases marker : c = '$'
        · subst marker
          exact .marker fun ctx t ht => ih ctx t (by omega)
        · cases ctx with
          | outside => exact absurd (Context.stops_outside_iff.mp stops) marker
          | inside =>
            obtain same | rfl | rfl | rfl := Context.stops_inside_iff.mp stops
            · exact absurd same marker
            · have fits := Group.fits_cut cs
              have content := Group.content_cut_append cs
              have body := congrArg List.length (Group.body_cut_append cs)
              have inner := (Group.cut cs).1.length_inner_le
              rw [List.length_append] at body
              rw [← content]
              exact .group fits (ih _ _ (by omega)) (ih _ _ (by omega))
            · exact .closer (ih _ _ short)
            · exact .separator (ih _ _ short)

theorem stretch (ctx : Context) (t : Text) : Stretch ctx t :=
  Stretch.of_length_le t.length ctx t (Nat.le_refl _)

/-- What holds of the empty slice, and in front of any other with one more leaf, group or
directive with its group, holds of every slice that siblings are read from. What is read first
does not depend on where the slice lies. -/
theorem sequence_induct {motive : Context → Text → Cursor → Prop}
    (nil : ∀ ctx k, motive ctx [] k)
    (leaf : ∀ (ctx : Context) (kind : Kind) (content rest : Text) (k : Cursor), content ≠ [] →
      (∀ k, sequence ctx (content ++ rest) k =
        .leaf k kind content (sequence ctx rest (k.advance content))) →
      motive ctx rest (k.advance content) → motive ctx (content ++ rest) k)
    (group : ∀ (g : Group) (rest : Text) (k : Cursor), g.Fits rest →
      (∀ k, sequence .inside (g.content ++ rest) k =
        .group k g (sequence .inside g.inner (Group.enter k))
          (sequence .inside rest (k.advance g.content))) →
      motive .inside g.inner (Group.enter k) → motive .inside rest (k.advance g.content) →
      motive .inside (g.content ++ rest) k)
    (call : ∀ (ctx : Context) (content : Text) (g : Group) (rest : Text) (k : Cursor),
      content ≠ [] → g.Fits rest →
      (∀ k, sequence ctx (content ++ (g.content ++ rest)) k =
        .directive k content g (sequence .inside g.inner (Group.enter (k.advance content)))
          (sequence ctx rest ((k.advance content).advance g.content))) →
      motive .inside g.inner (Group.enter (k.advance content)) →
      motive ctx rest ((k.advance content).advance g.content) →
      motive ctx (content ++ (g.content ++ rest)) k)
    (ctx : Context) (slice : Text) (k : Cursor) : motive ctx slice k := by
  induction stretch ctx slice generalizing k with
  | nil ctx => exact nil ctx k
  | literal filled plain stopped _ ih =>
    exact leaf _ _ _ _ k filled (sequence_literal · filled plain stopped) (ih _)
  | separator _ ih => exact leaf _ _ [';'] _ k (by simp) (fun k => sequence_separator k) (ih _)
  | closer _ ih => exact leaf _ _ [']'] _ k (by simp) (fun k => sequence_closer k) (ih _)
  | @directive ctx name rest named stopped bare _ ih =>
    exact leaf _ _ ('$' :: name) _ k (by simp) (sequence_name · named stopped bare) (ih _)
  | @call ctx name rest g named fits _ _ ihInner ih =>
    exact call _ ('$' :: name) g rest k (by simp) fits (sequence_call · named fits) (ihInner _)
      (ih _)
  | group fits _ _ ihInner ih =>
    exact group _ _ k fits (sequence_bracket · fits) (ihInner _) (ih _)

end InlineScript
