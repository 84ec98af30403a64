import InlineScript.Grammar.Frontier
import InlineScript.Text

/-! Why the grammar refused a text: the furthest place that some rule demanded
more of, by line and column, and the rules that would have helped there. Columns
count characters, and only a line feed ends a line. -/

namespace InlineScript.Grammar

structure SyntaxError where
  offset : Nat
  line : Nat
  column : Nat
  expected : List Rule
  /-- The line of the offset, made printable. -/
  excerpt : Text
deriving DecidableEq

/-- The part of a text behind its last line feed. -/
def lastLine (t : Text) : Text := (t.reverse.takeWhile (· ≠ '\n')).reverse

/-- The part of a text up to its first line feed, which is included. -/
def firstLine (t : Text) : Text :=
  t.takeWhile (· ≠ '\n') ++ (t.dropWhile (· ≠ '\n')).take 1

/-- The line that `before` ends in and `after` goes on with. Line breaks are shown
as symbols when one of them is what the rules missed at, and left out otherwise. -/
def excerptOf (before after : Text) : Text :=
  let line := lastLine before ++ firstLine after
  if after.head? = some '\r' ∨ after.head? = some '\n' then
    line.map fun c => if c = '\r' then '␍' else if c = '\n' then '␊' else c
  else line.filter fun c => c ≠ '\r' ∧ c ≠ '\n'

/-- Names as a choice: `A`, `A or B`, `A, B, or C`. -/
def choice : List String → String
  | [] => ""
  | [a] => a
  | [a, b] => a ++ " or " ++ b
  | a :: rest => a ++ ", " ++ listed rest
where
  listed : List String → String
    | [] => ""
    | [a] => "or " ++ a
    | a :: rest => a ++ ", " ++ listed rest

namespace SyntaxError

/-- The error for a text at whose frontier the search for a match ended. -/
def of (text : Text) (f : Frontier) : SyntaxError :=
  let (before, after) := text.cut f.offset
  { offset := f.offset
    line := 1 + before.newlines
    column := 1 + (lastLine before).length
    expected := f.expected
    excerpt := excerptOf before after }

/-- What stands below the excerpt to point at the column; tabs are kept. -/
def underline (e : SyntaxError) : String :=
  let blanks := (e.excerpt.take (e.column - 1)).map fun c => if c = '\t' then c else ' '
  String.ofList blanks ++ "^---"

def message (e : SyntaxError) : String :=
  let line := toString e.line
  let margin := String.ofList (List.replicate line.length ' ')
  let place := s!"{margin}--> {line}:{e.column}\n"
  let source := s!"{margin} |\n{line} | {String.ofList e.excerpt}\n"
  let pointer := s!"{margin} | {e.underline}\n{margin} |\n"
  let expected := choice (e.expected.map Rule.label)
  place ++ source ++ pointer ++ s!"{margin} = expected {expected}"

end SyntaxError

end InlineScript.Grammar
