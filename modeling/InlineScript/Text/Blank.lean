/-! The blank characters, which end a directive's name. They are the 25 characters
with the Unicode property White_Space, given as closed ranges of code points. -/

namespace InlineScript

def blankRanges : List (Nat × Nat) :=
  [(0x0009, 0x000d), (0x0020, 0x0020), (0x0085, 0x0085), (0x00a0, 0x00a0),
   (0x1680, 0x1680), (0x2000, 0x200a), (0x2028, 0x2029), (0x202f, 0x202f),
   (0x205f, 0x205f), (0x3000, 0x3000)]

def isBlank (c : Char) : Bool :=
  blankRanges.any fun (first, last) => first ≤ c.toNat && c.toNat ≤ last

example : (blankRanges.map fun range => range.2 + 1 - range.1).sum = 25 := rfl

example : ['\x1c', '\x1f', '\u180e', '\u200b', '\ufeff'].any isBlank = false := by decide

end InlineScript
