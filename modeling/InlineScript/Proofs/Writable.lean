import InlineScript.Proofs.Printing
import Mathlib.Data.List.Basic

/-! Which trees can be printed, and what is printed then. A tree that was put together by hand may
have anything as the content of a group, and a group is written by the first and the last byte of
its content, so those bytes have to be there and have to be whole characters. Nothing else can go
wrong while a tree is written, wherever in it the group is. Of the positions only one is looked at:
the length in that of the root is the room that is reserved before anything is written. -/

namespace InlineScript

namespace Text

variable {s t : Text}

theorem eq_nil_of_size (nothing : t.size = 0) : t = [] := by
  by_contra filled
  have room := size_pos filled
  omega

theorem eq_singleton_of_size (one : t.size = 1) : ∃ c : Char, t = [c] ∧ c.utf8Size = 1 := by
  rcases t with _ | ⟨c, cs⟩
  · simp at one
  · have first := c.utf8Size_pos
    rw [size_cons] at one
    obtain rfl : cs = [] := eq_nil_of_size (by omega)
    exact ⟨c, rfl, one⟩

theorem slice?_firstByte (t : Text) : t.slice? 0 1 = t.firstByte? := by
  cases t with
  | nil => rfl
  | cons c cs =>
    have room : 0 + 1 - c.utf8Size = 0 := by
      have first := c.utf8Size_pos
      omega
    simp [firstByte?, slice?, cut, room]

theorem slice?_lastByte (filled : t ≠ []) : t.slice? (t.size - 1) t.size = t.lastByte? := by
  obtain ⟨front, c, rfl⟩ := (List.eq_nil_or_concat' t).resolve_left filled
  have size : size (front ++ [c]) = size front + c.utf8Size := by simp
  rw [lastByte?, List.getLast?_concat, Option.bind_some, size]
  split
  · next one =>
    have last := slice?_append front [c] []
    rw [size_cons, size_nil, one, List.append_nil] at last
    rw [one]
    exact last
  · next wide =>
    rw [Option.eq_none_iff_forall_ne_some]
    intro s cut
    obtain ⟨before, after, whole, start, stop⟩ := slice?_eq_some_iff.mp cut
    have first := c.utf8Size_pos
    obtain ⟨d, rfl, one⟩ := eq_singleton_of_size (t := s) (by omega)
    obtain rfl : after = [] := by
      have sizes := congrArg Text.size whole
      simp only [size_append, size_cons, size_nil] at sizes
      exact eq_nil_of_size (by omega)
    have last := congrArg List.getLast? whole
    simp only [List.append_nil, List.getLast?_concat, Option.some.injEq] at last
    rw [last] at wide
    exact wide one

theorem firstByte?_eq_none_iff :
    t.firstByte? = none ↔ t = [] ∨ ∃ c ∈ t.head?, 1 < c.utf8Size := by
  cases t with
  | nil => simp [firstByte?]
  | cons c cs =>
    have first := c.utf8Size_pos
    simp [firstByte?]
    omega

theorem lastByte?_eq_none_iff :
    t.lastByte? = none ↔ t = [] ∨ ∃ c ∈ t.getLast?, 1 < c.utf8Size := by
  rcases List.eq_nil_or_concat' t with rfl | ⟨front, c, rfl⟩
  · simp [lastByte?]
  · have first := c.utf8Size_pos
    simp [lastByte?]
    omega

end Text

namespace Node

/-- A group whose brackets are no single bytes of its content. -/
def Unwritable (n : Node) : Prop :=
  n.kind.isGroup = true ∧ (n.content = [] ∨ (∃ c ∈ n.content.head?, 1 < c.utf8Size) ∨
    n.kind = .group true ∧ ∃ c ∈ n.content.getLast?, 1 < c.utf8Size)

instance (n : Node) : Decidable n.Unwritable :=
  -- Asks the one character that there may be, not all characters.
  haveI (o : Option Char) : Decidable (∃ c ∈ o, 1 < c.utf8Size) := Option.decidableExistsMem o
  inferInstanceAs (Decidable (_ ∧ (_ ∨ (∃ c ∈ n.content.head?, _) ∨ _ ∧ ∃ c ∈ _, _)))

def opening (kind : Kind) (content : Text) : Text :=
  match kind with
  | .program => []
  | .group _ => (content.slice? 0 1).getD []
  | _ => content

def ending (kind : Kind) (content : Text) : Text :=
  match kind with
  | .group true => (content.slice? (content.size - 1) content.size).getD []
  | _ => []

mutual

/-- What the nodes of a tree write of their own, one after the other. -/
def written : Node → Text
  | ⟨kind, content, _, children⟩ =>
    opening kind content ++ writtenAll children ++ ending kind content

def writtenAll : List Node → Text
  | [] => []
  | n :: ns => written n ++ writtenAll ns

end

theorem margins?_closed_eq_none_iff {content : Text} :
    margins? (.group true) content = none ↔
      content.firstByte? = none ∨ content.lastByte? = none := by
  rw [margins?]
  cases content.firstByte? with
  | none => simp
  | some first => cases content.lastByte? <;> simp

theorem margins?_eq_none_iff {n : Node} : margins? n.kind n.content = none ↔ n.Unwritable := by
  obtain ⟨kind, content, position, children⟩ := n
  cases kind with
  | group closed =>
    cases closed with
    | true =>
      rw [margins?_closed_eq_none_iff, Text.firstByte?_eq_none_iff, Text.lastByte?_eq_none_iff]
      by_cases empty : content = [] <;> simp [Unwritable, Kind.isGroup, empty]
    | false => simp [margins?, Unwritable, Kind.isGroup, Text.firstByte?_eq_none_iff]
  | literal => simp [margins?, Unwritable, Kind.isGroup]
  | directive => simp [margins?, Unwritable, Kind.isGroup]
  | separator => simp [margins?, Unwritable, Kind.isGroup]
  | program => simp [margins?, Unwritable, Kind.isGroup]
  | endOfInput => simp [margins?, Unwritable, Kind.isGroup]

theorem margins?_of_writable {n : Node} (writable : ¬ n.Unwritable) :
    margins? n.kind n.content = some (opening n.kind n.content, ending n.kind n.content) := by
  rw [← margins?_eq_none_iff] at writable
  obtain ⟨kind, content, position, children⟩ := n
  cases kind with
  | group closed =>
    cases closed with
    | true =>
      rw [margins?_closed_eq_none_iff, not_or] at writable
      obtain ⟨first, opened⟩ := Option.ne_none_iff_exists'.mp writable.1
      obtain ⟨last, closed⟩ := Option.ne_none_iff_exists'.mp writable.2
      have filled : content ≠ [] := by
        rintro rfl
        cases opened
      simp [margins?, opening, ending, Text.slice?_firstByte, Text.slice?_lastByte filled, opened,
        closed]
    | false =>
      simp only [margins?, Option.map_eq_none_iff] at writable
      obtain ⟨first, opened⟩ := Option.ne_none_iff_exists'.mp writable
      simp [margins?, opening, ending, Text.slice?_firstByte, opened]
  | literal => rfl
  | directive => rfl
  | separator => rfl
  | program => rfl
  | endOfInput => rfl

mutual

theorem source?_of_writable : (n : Node) → (∀ m ∈ n.walk, ¬ m.Unwritable) →
    n.source? = some n.written
  | ⟨kind, content, position, children⟩, writable => by
    rw [walk_eq, List.forall_mem_cons] at writable
    rw [source?_eq, margins?_of_writable writable.1, Option.bind_some,
      sourceAll?_of_writable children writable.2]
    rfl

theorem sourceAll?_of_writable : (ns : List Node) → (∀ m ∈ walkAll ns, ¬ m.Unwritable) →
    sourceAll? ns = some (writtenAll ns)
  | [], _ => rfl
  | n :: ns, writable => by
    rw [walkAll_cons, List.forall_mem_append] at writable
    exact sourceAll?_of_source? (source?_of_writable n writable.1)
      (sourceAll?_of_writable ns writable.2)

end

mutual

theorem source?_of_unwritable : (n : Node) → (∃ m ∈ n.walk, m.Unwritable) → n.source? = none
  | ⟨kind, content, position, children⟩, broken => by
    rw [walk_eq, List.exists_mem_cons_iff] at broken
    rw [source?_eq]
    obtain here | below := broken
    · rw [margins?_eq_none_iff.mpr here]
      rfl
    · rw [sourceAll?_of_unwritable children below]
      cases margins? kind content <;> rfl

theorem sourceAll?_of_unwritable : (ns : List Node) → (∃ m ∈ walkAll ns, m.Unwritable) →
    sourceAll? ns = none
  | n :: ns, broken => by
    obtain ⟨m, mem, unwritable⟩ := broken
    rw [walkAll_cons, List.mem_append] at mem
    rw [sourceAll?_cons]
    obtain here | later := mem
    · rw [source?_of_unwritable n ⟨m, here, unwritable⟩]
      rfl
    · rw [sourceAll?_of_unwritable ns ⟨m, later, unwritable⟩]
      cases n.source? <;> rfl

end

end Node

theorem Node.source?_eq_none_iff {n : Node} :
    n.source? = none ↔ ∃ g ∈ n.walk, g.Unwritable := by
  refine ⟨?_, n.source?_of_unwritable⟩
  intro failed
  by_contra sound
  rw [n.source?_of_writable (by simpa using sound)] at failed
  cases failed

/-- A tree put together by hand cannot be printed exactly if its root asks for `2 ^ 63` bytes or
more, which cannot be reserved, or some group in it cannot be written. Otherwise each node writes
its own text around that of its children, whatever the positions. -/
theorem print?_by_hand (n : Node) :
    (n.print? = none ↔ 2 ^ 63 ≤ n.position.length ∨ ∃ g ∈ n.walk, g.Unwritable) ∧
    (n.position.length < 2 ^ 63 → (∀ g ∈ n.walk, ¬ g.Unwritable) →
      n.print? = some n.written) := by
  obtain room | many := Nat.lt_or_ge n.position.length (2 ^ 63)
  · rw [Node.print?_eq_source? room, Node.source?_eq_none_iff]
    exact ⟨(or_iff_right room.not_ge).symm, fun _ => n.source?_of_writable⟩
  · have failed := Node.print?_of_le many
    exact ⟨iff_of_true failed (.inl many), fun room => absurd many room.not_ge⟩

theorem print?_by_hand_below :
    (Node.mk .separator "é".toList ⟨9, 0, 4, 0⟩
      [⟨.group true, "|".toList, {}, [.leaf .program "é".toList {},
        .leaf (.group false) "xé".toList {}]⟩]).print? = some "é|x|".toList ∧
    (Node.mk .directive "$".toList {}
      [⟨.literal, "a".toList, {}, [.leaf (.group false) "é".toList {}]⟩]).print? = none := by
  constructor
  · rw [(print?_by_hand _).2 (by decide) (by decide +kernel)]
    decide +kernel
  · rw [(print?_by_hand _).1]
    exact .inr (by decide +kernel)

/-- A program without children has no group that could not be written, but it can ask for more room
than there is. -/
theorem not_print?_program :
    (∀ g ∈ (Node.leaf .program [] ⟨0, 1, 2 ^ 63, 0⟩).walk, ¬ g.Unwritable) ∧
      (Node.leaf .program [] ⟨0, 1, 2 ^ 63, 0⟩).print? = none := by
  constructor
  · decide +kernel
  · exact Node.print?_of_le le_rfl

end InlineScript
