import InlineScript.Extent
import InlineScript.Literal
import InlineScript.Node

/-! The first piece of a stretch of script: a leaf, a group, or a directive with
its group. Reading a piece and what follows it loses nothing, and a piece is
never empty, so reading the pieces of a stretch one after another comes to an end. -/

namespace InlineScript

/-- A group cut out of a text: what follows its opening bracket, the closing one included. -/
structure Group where
  body : Text
  closed : Bool
deriving DecidableEq

namespace Group

def content (g : Group) : Text := '[' :: g.body

/-- What lies between the brackets, or behind the only one. -/
def inner (g : Group) : Text := if g.closed then g.body.dropLast else g.body

/-- The last character of a group that closes; nothing otherwise. -/
def closing (g : Group) : Text := if g.closed then g.body.getLast?.toList else []

/-- The group whose opening bracket stands before `t`, and what follows it. -/
def cut (t : Text) : Group × Text :=
  let extent := Extent.after t
  let (body, rest) := Text.cut (extent.length - 1) t
  (⟨body, extent.closed⟩, rest)

def cut? : Text → Option (Group × Text)
  | [] => none
  | c :: cs => if c = '[' then some (cut cs) else none

theorem inner_append_closing (g : Group) : g.inner ++ g.closing = g.body := by
  rcases g with ⟨body, _ | _⟩
  · simp [inner, closing]
  · rcases List.eq_nil_or_concat body with rfl | ⟨front, c, rfl⟩ <;> simp [inner, closing]

theorem content_eq (g : Group) : g.content = '[' :: (g.inner ++ g.closing) := by
  rw [content, inner_append_closing]

theorem body_cut_append (t : Text) : (cut t).1.body ++ (cut t).2 = t := by
  simpa [cut] using Text.cut_append ((Extent.after t).length - 1) t

theorem content_cut_append (t : Text) : (cut t).1.content ++ (cut t).2 = '[' :: t := by
  simp [content, body_cut_append]

theorem length_inner_le (g : Group) : g.inner.length ≤ g.body.length := by
  have h := congrArg List.length (inner_append_closing g)
  rw [List.length_append] at h
  omega

theorem content_append_of_cut? {t rest : Text} {g : Group} (h : cut? t = some (g, rest)) :
    g.content ++ rest = t := by
  rcases t with _ | ⟨c, cs⟩
  · simp [cut?] at h
  · simp only [cut?] at h
    split at h
    · next hc =>
      have := content_cut_append cs
      rw [Option.some.inj h] at this
      rw [this, hc]
    · simp at h

end Group

inductive Piece where
  | leaf (kind : Kind) (content : Text)
  | group (g : Group)
  | directive (content : Text) (g : Group)

namespace Piece

def text : Piece → Text
  | leaf _ content => content
  | group g => g.content
  | directive content g => content ++ g.content

def group? : Piece → Option Group
  | leaf _ _ => none
  | group g => some g
  | directive _ g => some g

/-- A directive whose marker stands before `t`; its group has to follow its name at once. -/
def readDirective (t : Text) : Piece × Text :=
  let name := nameRun t
  let rest := t.drop name.length
  match Group.cut? rest with
  | some (g, rest) => (directive ('$' :: name) g, rest)
  | none => (leaf .directive ('$' :: name), rest)

def readLiteral (ctx : Context) (t : Text) : Piece × Text :=
  let run := literal ctx t
  (leaf .literal run, t.drop run.length)

/-- The first piece of `c :: cs`. A closing bracket that no group has claimed is
a literal of its own. -/
def read (ctx : Context) (c : Char) (cs : Text) : Piece × Text :=
  match Role.of c, ctx with
  | .marker, _ => readDirective cs
  | .opener, .inside => let (g, rest) := Group.cut cs; (group g, rest)
  | .separator, .inside => (leaf .separator [c], cs)
  | .closer, .inside => (leaf .literal [c], cs)
  | _, _ => readLiteral ctx (c :: cs)

theorem read_marker {c : Char} (h : Role.of c = .marker) (ctx : Context) (cs : Text) :
    read ctx c cs = readDirective cs := by
  simp [read, h]

theorem read_opener {c : Char} (h : Role.of c = .opener) (cs : Text) :
    read .inside c cs = (group (Group.cut cs).1, (Group.cut cs).2) := by
  simp [read, h]

theorem read_separator {c : Char} (h : Role.of c = .separator) (cs : Text) :
    read .inside c cs = (leaf .separator [c], cs) := by
  simp [read, h]

theorem read_closer {c : Char} (h : Role.of c = .closer) (cs : Text) :
    read .inside c cs = (leaf .literal [c], cs) := by
  simp [read, h]

theorem read_literal {ctx : Context} {c : Char} (h : ctx.stops c = false) (cs : Text) :
    read ctx c cs = readLiteral ctx (c :: cs) := by
  cases ctx <;> cases hc : Role.of c <;> simp_all [read, Context.stops]

/-- What holds of each of the five readings holds of the one that is taken. -/
theorem read_elim {motive : Piece × Text → Prop} {ctx : Context} {c : Char} {cs : Text}
    (marker : c = '$' → motive (readDirective cs))
    (opener : ctx = .inside → c = '[' → motive (group (Group.cut cs).1, (Group.cut cs).2))
    (separator : ctx = .inside → c = ';' → motive (leaf .separator [c], cs))
    (closer : ctx = .inside → c = ']' → motive (leaf .literal [c], cs))
    (literal : ctx.stops c = false → motive (readLiteral ctx (c :: cs))) :
    motive (read ctx c cs) := by
  cases role : Role.of c with
  | marker => rw [read_marker role]; exact marker (Role.of_eq_marker_iff.mp role)
  | opener =>
    cases ctx with
    | outside => simp_all [read_literal, Context.stops]
    | inside => rw [read_opener role]; exact opener rfl (Role.of_eq_opener_iff.mp role)
  | closer =>
    cases ctx with
    | outside => simp_all [read_literal, Context.stops]
    | inside => rw [read_closer role]; exact closer rfl (Role.of_eq_closer_iff.mp role)
  | separator =>
    cases ctx with
    | outside => simp_all [read_literal, Context.stops]
    | inside => rw [read_separator role]; exact separator rfl (Role.of_eq_separator_iff.mp role)
  | literal =>
    have stops : ctx.stops c = false := by cases ctx <;> simp [Context.stops, role]
    rw [read_literal stops]
    exact literal stops

theorem text_readDirective_append (t : Text) :
    (readDirective t).1.text ++ (readDirective t).2 = '$' :: t := by
  have name := nameRun_append_drop t
  simp only [readDirective]
  split
  · next g rest h => simp [text, Group.content_append_of_cut? h, name]
  · simp [text, name]

theorem text_readLiteral_append (ctx : Context) (t : Text) :
    (readLiteral ctx t).1.text ++ (readLiteral ctx t).2 = t :=
  literal_append_drop ctx t

theorem text_read_append (ctx : Context) (c : Char) (cs : Text) :
    (read ctx c cs).1.text ++ (read ctx c cs).2 = c :: cs := by
  refine read_elim (motive := fun r => r.1.text ++ r.2 = c :: cs) ?_ ?_ ?_ ?_ ?_
  · rintro rfl; exact text_readDirective_append cs
  · rintro - rfl; exact Group.content_cut_append cs
  · rintro - -; rfl
  · rintro - -; rfl
  · rintro -; exact text_readLiteral_append ctx (c :: cs)

theorem text_read_ne_nil (ctx : Context) (c : Char) (cs : Text) :
    (read ctx c cs).1.text ≠ [] := by
  refine read_elim (motive := fun r => r.1.text ≠ []) ?_ ?_ ?_ ?_ ?_
  · rintro -; simp only [readDirective]; split <;> simp [text]
  · rintro - -; simp [text, Group.content]
  · rintro - -; simp [text]
  · rintro - -; simp [text]
  · intro stops; simp [readLiteral, text, literal_cons stops]

theorem length_rest_lt (ctx : Context) (c : Char) (cs : Text) :
    (read ctx c cs).2.length < cs.length + 1 := by
  have h := congrArg List.length (text_read_append ctx c cs)
  have := List.length_pos_iff.mpr (text_read_ne_nil ctx c cs)
  simp only [List.length_append, List.length_cons] at h
  omega

theorem length_inner_lt {ctx : Context} {c : Char} {cs : Text} {g : Group}
    (hg : (read ctx c cs).1.group? = some g) : g.inner.length < cs.length + 1 := by
  have h := congrArg List.length (text_read_append ctx c cs)
  have inner := g.length_inner_le
  cases hp : (read ctx c cs).1 with
  | leaf => simp [hp, group?] at hg
  | group =>
    simp only [hp, group?, Option.some.injEq] at hg
    subst hg
    simp only [hp, text, Group.content, List.length_append, List.length_cons] at h
    omega
  | directive =>
    simp only [hp, group?, Option.some.injEq] at hg
    subst hg
    simp only [hp, text, Group.content, List.length_append, List.length_cons] at h
    omega

end Piece

end InlineScript
