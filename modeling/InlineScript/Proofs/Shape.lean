import InlineScript.Proofs.Unclosed

/-! The shape of a tree: which kinds of nodes stand below which, and what a node of a kind has as
its content. Whoever walks a tree that was built may rely on it: a directive has its marker, and so
a name; a group has its brackets; and below a node stands nothing that its kind does not hold. -/

namespace InlineScript

def Context.holds : Context → Kind → Bool
  | _, .literal => true
  | _, .directive => true
  | .inside, .separator => true
  | .inside, .group _ => true
  | _, _ => false

theorem Context.holds_outside_iff {kind : Kind} :
    Context.outside.holds kind = true ↔ kind = .literal ∨ kind = .directive := by
  cases kind <;> simp [holds]

namespace Node

def Named (n : Node) : Prop :=
  ∃ name, n.content = '$' :: name ∧ n.name? = some name ∧
    ∀ c ∈ name, isBlank c = false ∧ c ≠ '$' ∧ c ≠ '[' ∧ c ≠ ']' ∧ c ≠ ';'

def CalledOnce (n : Node) : Prop :=
  n.children = [] ∨ ∃ g, n.children = [g] ∧ g.kind.isGroup = true ∧ n.argument? = some g

/-- The content begins with an opening bracket, and behind it ends with a closing one if the group
closes. -/
def Bracketed (n : Node) (closed : Bool) : Prop :=
  ∃ inner, n.content = '[' :: (inner ++ if closed then [']'] else [])

/-- What a node below the root is made of, by its kind. -/
def Shaped (n : Node) : Prop :=
  match n.kind with
  | .literal => n.children = []
  | .directive => n.Named ∧ n.CalledOnce
  | .group closed => n.Bracketed closed ∧ ∀ m ∈ n.children, Context.inside.holds m.kind = true
  | .separator => n.content = [';'] ∧ n.children = []
  | .program => False
  | .endOfInput => False

theorem CanonicalAll.holds {ctx : Context} {closes : Bool} {ns : List Node}
    (h : CanonicalAll ctx closes ns) : ∀ n ∈ ns, ctx.holds n.kind = true := by
  induction h with
  | nil => simp
  | literal filled plain apart more ih => exact List.forall_mem_cons.mpr ⟨rfl, ih⟩
  | separator more ih => exact List.forall_mem_cons.mpr ⟨rfl, ih⟩
  | directive named apart more ih => exact List.forall_mem_cons.mpr ⟨rfl, ih⟩
  | call named printed below last more ihBelow ih => exact List.forall_mem_cons.mpr ⟨rfl, ih⟩
  | group printed below last more ihBelow ih => exact List.forall_mem_cons.mpr ⟨rfl, ih⟩

theorem named_mk {name : Text} (named : ∀ c ∈ name, isNameChar c = true) (position : Position)
    (children : List Node) : (mk .directive ('$' :: name) position children).Named :=
  ⟨name, rfl, rfl, fun c mem => isNameChar_iff.mp (named c mem)⟩

theorem bracketed_node {g : Group} {rest : Text} (fits : g.Fits rest) (k : Cursor)
    (children : List Node) : (g.node k children).Bracketed g.closed := by
  cases fits with
  | closed => exact ⟨_, rfl⟩
  | @unclosed inner => exact ⟨inner, by simp [Group.node, Group.content]⟩

theorem Occurs.shaped {text : Text} {n : Node} (h : n.Occurs text) : n.Shaped := by
  cases h with
  | literal => rfl
  | separator => exact ⟨rfl, rfl⟩
  | directive whole named => exact ⟨named_mk named _ _, .inl rfl⟩
  | call whole named => exact ⟨named_mk named _ _, .inr ⟨_, rfl, rfl, rfl⟩⟩
  | group whole fits =>
    have below := (Occurs.group whole fits).canonicalAll rfl
    exact ⟨bracketed_node fits _ _, below.holds⟩

end Node

/-- The root of every tree is its one program, with literals and directives below it, and every
other node has the shape of its kind. -/
theorem shape_build (text : Text) :
    (build text).kind = .program ∧
      (∀ n ∈ (build text).children, n.kind = .literal ∨ n.kind = .directive) ∧
      ∀ n ∈ Node.walkAll (build text).children, n.Shaped := by
  refine ⟨rfl, ?_, fun n mem => (occurs_build n mem).shaped⟩
  intro n mem
  exact Context.holds_outside_iff.mp ((canonical_build text).2.holds n mem)

theorem shape_build_unclosed :
    ∃ g ∈ Node.walkAll (build "a$é[x;$k[;][b]c[[".toList).children,
      g.kind = .group false ∧ g.children.length = 6 ∧ g.Shaped := by
  let g := (Node.walkAll (build "a$é[x;$k[;][b]c[[".toList).children).get ⟨2, by decide +kernel⟩
  have mem : g ∈ Node.walkAll (build "a$é[x;$k[;][b]c[[".toList).children := List.get_mem _ _
  exact ⟨g, mem, by decide +kernel, by decide +kernel, (shape_build _).2.2 g mem⟩

end InlineScript
