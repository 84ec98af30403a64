import InlineScript.Position

/-! The tree of a script. A directive's argument group is its child, not part of
its content; a group's content spans its brackets and everything between them.
Nothing here asks how a tree was made, so the same functions serve trees that
were put together by hand. -/

namespace InlineScript

inductive Kind where
  | literal
  | directive
  | group (closed : Bool)
  | separator
  | program
  | endOfInput
deriving DecidableEq

def Kind.isGroup : Kind → Bool
  | .group _ => true
  | _ => false

structure Node where
  kind : Kind
  content : Text
  position : Position
  children : List Node

namespace Node

def leaf (kind : Kind) (content : Text) (position : Position) : Node :=
  ⟨kind, content, position, []⟩

mutual

def decEq : (a b : Node) → Decidable (a = b)
  | ⟨kind₁, content₁, position₁, children₁⟩, ⟨kind₂, content₂, position₂, children₂⟩ =>
    if h : kind₁ = kind₂ ∧ content₁ = content₂ ∧ position₁ = position₂ then
      match decEqAll children₁ children₂ with
      | isTrue hs => isTrue (by obtain ⟨rfl, rfl, rfl⟩ := h; rw [hs])
      | isFalse hs => isFalse fun e => hs (by cases e; rfl)
    else isFalse fun e => h (by cases e; exact ⟨rfl, rfl, rfl⟩)

def decEqAll : (as bs : List Node) → Decidable (as = bs)
  | [], [] => isTrue rfl
  | [], _ :: _ => isFalse nofun
  | _ :: _, [] => isFalse nofun
  | a :: as, b :: bs =>
    match decEq a b with
    | isTrue h =>
      match decEqAll as bs with
      | isTrue hs => isTrue (by rw [h, hs])
      | isFalse hs => isFalse fun e => hs (by cases e; rfl)
    | isFalse h => isFalse fun e => h (by cases e; rfl)

end

instance : DecidableEq Node := decEq

mutual

/-- A node and all its descendants, every node before its children. -/
def walk : Node → List Node
  | ⟨kind, content, position, children⟩ =>
    ⟨kind, content, position, children⟩ :: walkAll children

def walkAll : List Node → List Node
  | [] => []
  | n :: ns => walk n ++ walkAll ns

end

/-- The name of a directive, without its marker. -/
def name? (n : Node) : Option Text :=
  if n.kind = .directive then n.content.afterByte? else none

def argument? (n : Node) : Option Node :=
  if n.kind = .directive then n.children.find? (·.kind.isGroup) else none

/-- The children of a group, split at its separators; a group without children
has one empty slot. -/
def slots (n : Node) : List (List Node) :=
  if n.kind.isGroup then n.children.splitOnP (·.kind = .separator) else []

theorem walk_eq (n : Node) : n.walk = n :: walkAll n.children := by
  cases n
  rw [walk]

@[simp] theorem walkAll_nil : walkAll [] = [] := rfl

@[simp] theorem walkAll_cons (n : Node) (ns : List Node) :
    walkAll (n :: ns) = n.walk ++ walkAll ns := rfl

@[simp] theorem walkAll_append (ms ns : List Node) :
    walkAll (ms ++ ns) = walkAll ms ++ walkAll ns := by
  induction ms with
  | nil => rfl
  | cons m ms ih => simp [ih]

theorem walkAll_eq_flatMap (ns : List Node) : walkAll ns = ns.flatMap walk := by
  induction ns with
  | nil => rfl
  | cons n ns ih => simp [ih]

theorem mem_walk_self (n : Node) : n ∈ n.walk := by
  rw [walk_eq]
  exact List.mem_cons_self

@[simp] theorem walk_leaf (kind : Kind) (content : Text) (position : Position) :
    (leaf kind content position).walk = [leaf kind content position] := by
  simp [leaf, walk]

end Node

end InlineScript
