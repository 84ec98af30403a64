import InlineScript.Node

/-! Writing a tree back as text. A group owns only its brackets, which are the
first and the last byte of its content; the program owns nothing; every other
node owns its content and writes it before its children. A group whose content
lacks one of those bytes, or has a longer character there, cannot be written.
Before a tree is written, room is reserved for its text. -/

namespace InlineScript.Node

/-- What a node writes of its own, before its children and after them. -/
def margins? (kind : Kind) (content : Text) : Option (Text × Text) :=
  match kind with
  | .program => some ([], [])
  | .group false => content.firstByte?.map fun opening => (opening, [])
  | .group true => do
    let opening ← content.firstByte?
    let closing ← content.lastByte?
    some (opening, closing)
  | _ => some (content, [])

mutual

/-- The text of a node, written in front of `after`. -/
def sourceBefore? : Node → Text → Option Text
  | ⟨kind, content, _, children⟩, after => do
    let (front, back) ← margins? kind content
    let inner ← sourceAllBefore? children (back ++ after)
    some (front ++ inner)

def sourceAllBefore? : List Node → Text → Option Text
  | [], after => some after
  | n :: ns, after => do
    let others ← sourceAllBefore? ns after
    sourceBefore? n others

end

/-- The text that a tree stands for, if it can be written. -/
def source? (n : Node) : Option Text := n.sourceBefore? []

def sourceAll? (ns : List Node) : Option Text := sourceAllBefore? ns []

/-- The most bytes that can be reserved: the largest signed number of 64 bits. -/
def maxRoom : Nat := 9223372036854775807

/-- Prints a tree. The room is what the position of its root gives as the length, which in a
tree that was put together by hand may be more than can be reserved. -/
def print? (n : Node) : Option Text :=
  if n.position.length ≤ maxRoom then n.source? else none

mutual

theorem sourceBefore?_eq : (n : Node) → (after : Text) →
    n.sourceBefore? after = n.source?.map (· ++ after)
  | ⟨kind, content, _, children⟩, after => by
    simp only [source?, sourceBefore?]
    rcases margins? kind content with _ | ⟨front, back⟩
    · rfl
    · simp only [Option.bind_eq_bind, Option.bind_some, List.append_nil]
      rw [sourceAllBefore?_eq children (back ++ after), sourceAllBefore?_eq children back]
      cases sourceAll? children <;> simp

theorem sourceAllBefore?_eq : (ns : List Node) → (after : Text) →
    sourceAllBefore? ns after = (sourceAll? ns).map (· ++ after)
  | [], after => rfl
  | n :: ns, after => by
    simp only [sourceAll?, sourceAllBefore?, Option.bind_eq_bind]
    rw [sourceAllBefore?_eq ns after]
    cases h : sourceAll? ns with
    | none => simp_all [sourceAll?]
    | some others =>
      simp only [sourceAll?] at h
      simp only [h, Option.map_some, Option.bind_some]
      rw [sourceBefore?_eq n (others ++ after), sourceBefore?_eq n others]
      cases n.source? <;> simp

end

theorem source?_eq (n : Node) :
    n.source? = (margins? n.kind n.content).bind fun (front, back) =>
      (sourceAll? n.children).map fun inner => front ++ inner ++ back := by
  rcases n with ⟨kind, content, position, children⟩
  simp only [source?, sourceBefore?, Option.bind_eq_bind]
  rcases margins? kind content with _ | ⟨front, back⟩
  · rfl
  · simp only [Option.bind_some, sourceAllBefore?_eq]
    cases sourceAll? children <;> simp

@[simp] theorem sourceAll?_nil : sourceAll? [] = some [] := rfl

theorem sourceAll?_cons (n : Node) (ns : List Node) :
    sourceAll? (n :: ns) = n.source?.bind fun first =>
      (sourceAll? ns).map fun others => first ++ others := by
  simp only [sourceAll?, sourceAllBefore?, Option.bind_eq_bind]
  cases sourceAllBefore? ns [] with
  | none => cases n.source? <;> rfl
  | some others => simp only [Option.bind_some, sourceBefore?_eq]; cases n.source? <;> rfl

end InlineScript.Node
