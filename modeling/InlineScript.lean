import InlineScript.Build
import InlineScript.Draft
import InlineScript.Event
import InlineScript.Extent
import InlineScript.Grammar.Check
import InlineScript.Grammar.Frontier
import InlineScript.Grammar.Match
import InlineScript.Grammar.Rule
import InlineScript.Grammar.SyntaxError
import InlineScript.Literal
import InlineScript.Node
import InlineScript.Node.Issue
import InlineScript.Node.Source
import InlineScript.Piece
import InlineScript.Place
import InlineScript.Position
import InlineScript.Reading
import InlineScript.Role
import InlineScript.Session
import InlineScript.Text
import InlineScript.Text.Blank
import InlineScript.Proofs.Nesting
import InlineScript.Proofs.Scanning
import InlineScript.Proofs.Stretch
import InlineScript.Proofs.Printing
import InlineScript.Proofs.Canonical
import InlineScript.Proofs.Layout
import InlineScript.Proofs.Marks
import InlineScript.Proofs.Rules
import InlineScript.Proofs.Image
import InlineScript.Proofs.Agreement
import InlineScript.Proofs.Misses
import InlineScript.Proofs.Tracking
import InlineScript.Proofs.Strict
import InlineScript.Proofs.Refusal
import InlineScript.Proofs.Runs
import InlineScript.Proofs.Remainder
import InlineScript.Proofs.Unclosed
import InlineScript.Proofs.Depth
import InlineScript.Proofs.Shift
import InlineScript.Proofs.Append
import InlineScript.Proofs.Language
import InlineScript.Proofs.Repair
import InlineScript.Proofs.Subtree
import InlineScript.Proofs.Respelling
import InlineScript.Proofs.Shape
import InlineScript.Proofs.Level
import InlineScript.Proofs.Overlap
import InlineScript.Proofs.GroupRule
import InlineScript.Proofs.Slots
import InlineScript.Proofs.Checked
import InlineScript.Proofs.Assembly
import InlineScript.Proofs.Progress
import InlineScript.Proofs.Diagnosis
import InlineScript.Proofs.Report
import InlineScript.Proofs.Writable
import InlineScript.Proofs.Counters
import InlineScript.Proofs.Lexemes
import InlineScript.Proofs.Wrapping
