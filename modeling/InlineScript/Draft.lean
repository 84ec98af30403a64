import InlineScript.Piece

/-! The tree of a stretch of script, built piece by piece. One cursor runs through
the whole stretch: a leaf moves it by its content, a group by its opening bracket,
its inner pieces and its closing bracket. A group's own position is taken before
the cursor enters it, and so is the note that it does not close. -/

namespace InlineScript

namespace Group

def node (g : Group) (k : Cursor) (children : List Node) : Node :=
  ⟨.group g.closed, g.content, k.span g.content, children⟩

def enter (k : Cursor) : Cursor := k.advance ['[']

def unclosed (g : Group) (k : Cursor) : List Cursor := if g.closed then [] else [k]

end Group

/-- The nodes of a stretch, where its unclosed groups open, and the cursor behind it. -/
structure Draft where
  nodes : List Node
  unclosed : List Cursor
  cursor : Cursor
deriving DecidableEq

namespace Draft

def leaf (k : Cursor) (kind : Kind) (content : Text) (rest : Draft) : Draft :=
  { rest with nodes := .leaf kind content (k.span content) :: rest.nodes }

def group (k : Cursor) (g : Group) (inner rest : Draft) : Draft :=
  ⟨g.node k inner.nodes :: rest.nodes, g.unclosed k ++ inner.unclosed ++ rest.unclosed,
    rest.cursor⟩

def directive (k : Cursor) (content : Text) (g : Group) (inner rest : Draft) : Draft :=
  ⟨⟨.directive, content, k.span content, [g.node (k.advance content) inner.nodes]⟩ :: rest.nodes,
    g.unclosed (k.advance content) ++ inner.unclosed ++ rest.unclosed, rest.cursor⟩

end Draft

/-- The siblings in a slice that begins at `k`. -/
def sequence (ctx : Context) (slice : Text) (k : Cursor) : Draft :=
  match slice with
  | [] => ⟨[], [], k⟩
  | c :: cs =>
    match _ : Piece.read ctx c cs with
    | (.leaf kind content, rest) =>
      .leaf k kind content (sequence ctx rest (k.advance content))
    | (.group g, rest) =>
      let inner := sequence .inside g.inner (Group.enter k)
      .group k g inner (sequence ctx rest (inner.cursor.advance g.closing))
    | (.directive content g, rest) =>
      let inner := sequence .inside g.inner (Group.enter (k.advance content))
      .directive k content g inner (sequence ctx rest (inner.cursor.advance g.closing))
termination_by slice.length
decreasing_by
  · simpa [‹Piece.read ctx c cs = _›] using Piece.length_rest_lt ctx c cs
  · exact Piece.length_inner_lt (by rw [‹Piece.read ctx c cs = _›]; rfl)
  · simpa [‹Piece.read ctx c cs = _›] using Piece.length_rest_lt ctx c cs
  · exact Piece.length_inner_lt (by rw [‹Piece.read ctx c cs = _›]; rfl)
  · simpa [‹Piece.read ctx c cs = _›] using Piece.length_rest_lt ctx c cs

@[simp] theorem sequence_nil (ctx : Context) (k : Cursor) : sequence ctx [] k = ⟨[], [], k⟩ := by
  rw [sequence]

theorem sequence_cursor (ctx : Context) (slice : Text) (k : Cursor) :
    (sequence ctx slice k).cursor = k.advance slice := by
  fun_induction sequence ctx slice k with
  | case1 => rfl
  | case2 ctx k c cs kind content rest h ih =>
    have whole := Piece.text_read_append ctx c cs
    rw [h, Piece.text] at whole
    change (sequence ctx rest (k.advance content)).cursor = _
    rw [ih, Cursor.advance_advance, whole]
  | case3 ctx k c cs g rest h inner ihInner ih =>
    have whole := Piece.text_read_append ctx c cs
    rw [h, Piece.text, Group.content_eq] at whole
    change (sequence ctx rest (inner.cursor.advance g.closing)).cursor = _
    rw [ih, ihInner, Group.enter, ← whole]
    simp
  | case4 ctx k c cs content g rest h inner ihInner ih =>
    have whole := Piece.text_read_append ctx c cs
    rw [h, Piece.text, Group.content_eq] at whole
    change (sequence ctx rest (inner.cursor.advance g.closing)).cursor = _
    rw [ih, ihInner, Group.enter, ← whole]
    simp

theorem Group.leave_cursor (g : Group) (k : Cursor) :
    (sequence .inside g.inner (Group.enter k)).cursor.advance g.closing = k.advance g.content := by
  simp [sequence_cursor, Group.enter, Group.content_eq]

section
variable {ctx : Context} {c : Char} {cs rest content : Text} {g : Group}

theorem sequence_leaf {kind : Kind} (h : Piece.read ctx c cs = (.leaf kind content, rest))
    (k : Cursor) :
    sequence ctx (c :: cs) k = .leaf k kind content (sequence ctx rest (k.advance content)) := by
  rw [sequence]
  split <;> simp_all

theorem sequence_group (h : Piece.read ctx c cs = (.group g, rest)) (k : Cursor) :
    sequence ctx (c :: cs) k =
      .group k g (sequence .inside g.inner (Group.enter k))
        (sequence ctx rest (k.advance g.content)) := by
  rw [← Group.leave_cursor, sequence]
  split <;> simp_all

theorem sequence_directive (h : Piece.read ctx c cs = (.directive content g, rest))
    (k : Cursor) :
    sequence ctx (c :: cs) k =
      .directive k content g (sequence .inside g.inner (Group.enter (k.advance content)))
        (sequence ctx rest ((k.advance content).advance g.content)) := by
  rw [← Group.leave_cursor, sequence]
  split <;> simp_all

end

end InlineScript
