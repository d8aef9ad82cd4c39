import JsonEdit.Fault
import JsonEdit.Fingerprint
import JsonEdit.Json.Basic
import JsonEdit.Json.Conversion
import JsonEdit.Json.Dynamic
import JsonEdit.Json.Edit
import JsonEdit.Json.Entries
import JsonEdit.Json.Fold
import JsonEdit.Json.Interchange
import JsonEdit.Json.Lexeme
import JsonEdit.Json.Locate
import JsonEdit.Json.Merge
import JsonEdit.Json.Order
import JsonEdit.Json.Pairs
import JsonEdit.Json.Places
import JsonEdit.Json.Printer
import JsonEdit.Json.Problem
import JsonEdit.Json.Quoted
import JsonEdit.Json.Reader
import JsonEdit.Json.Reshape
import JsonEdit.Json.Schema
import JsonEdit.Json.Selection
import JsonEdit.Json.Sift
import JsonEdit.Main
import JsonEdit.Number.Basic
import JsonEdit.Number.Decimal
import JsonEdit.Number.Digit
import JsonEdit.Number.Float
import JsonEdit.Number.Integer
import JsonEdit.Number.Power
import JsonEdit.Number.Reader
import JsonEdit.Number.Scientific
import JsonEdit.Patch.Apply
import JsonEdit.Patch.Basic
import JsonEdit.Patch.Diff
import JsonEdit.Patch.Document
import JsonEdit.Patch.Dynamic
import JsonEdit.Patch.Text
import JsonEdit.Path.Basic
import JsonEdit.Path.Key
import JsonEdit.Path.Name
import JsonEdit.Path.Parser
import JsonEdit.Path.Printer
import JsonEdit.Proofs.Json.Calls
import JsonEdit.Proofs.Json.Children
import JsonEdit.Proofs.Json.Congruence
import JsonEdit.Proofs.Json.Division
import JsonEdit.Proofs.Json.DocumentOrder
import JsonEdit.Proofs.Json.Entries
import JsonEdit.Proofs.Json.Equality
import JsonEdit.Proofs.Json.Escapes
import JsonEdit.Proofs.Json.Every
import JsonEdit.Proofs.Json.Exchange
import JsonEdit.Proofs.Json.Failure
import JsonEdit.Proofs.Json.FanOut
import JsonEdit.Proofs.Json.Focus
import JsonEdit.Proofs.Json.Images
import JsonEdit.Proofs.Json.Insertion
import JsonEdit.Proofs.Json.KeyOrder
import JsonEdit.Proofs.Json.Lasting
import JsonEdit.Proofs.Json.Locations
import JsonEdit.Proofs.Json.Merge
import JsonEdit.Proofs.Json.NormalForm
import JsonEdit.Proofs.Json.Numeral
import JsonEdit.Proofs.Json.Order
import JsonEdit.Proofs.Json.Pairs
import JsonEdit.Proofs.Json.Parsed
import JsonEdit.Proofs.Json.Precedence
import JsonEdit.Proofs.Json.Projection
import JsonEdit.Proofs.Json.Quoted
import JsonEdit.Proofs.Json.Reader
import JsonEdit.Proofs.Json.Removal
import JsonEdit.Proofs.Json.Renumbered
import JsonEdit.Proofs.Json.Slots
import JsonEdit.Proofs.Json.Surrogates
import JsonEdit.Proofs.Json.Text
import JsonEdit.Proofs.Json.Visits
import JsonEdit.Proofs.Json.Walk
import JsonEdit.Proofs.Number.Alike
import JsonEdit.Proofs.Number.Arithmetic
import JsonEdit.Proofs.Number.Decimal
import JsonEdit.Proofs.Number.Digits
import JsonEdit.Proofs.Number.Equality
import JsonEdit.Proofs.Number.Exact
import JsonEdit.Proofs.Number.Grammar
import JsonEdit.Proofs.Number.Narrowing
import JsonEdit.Proofs.Number.Order
import JsonEdit.Proofs.Number.Reader
import JsonEdit.Proofs.Number.Sum
import JsonEdit.Proofs.Number.Value
import JsonEdit.Proofs.Outcome
import JsonEdit.Proofs.Patch.Addressing
import JsonEdit.Proofs.Patch.Arrays
import JsonEdit.Proofs.Patch.Difference
import JsonEdit.Proofs.Patch.Document
import JsonEdit.Proofs.Patch.Dynamic
import JsonEdit.Proofs.Patch.Every
import JsonEdit.Proofs.Patch.Failure
import JsonEdit.Proofs.Patch.FanOut
import JsonEdit.Proofs.Patch.Independent
import JsonEdit.Proofs.Patch.Lasting
import JsonEdit.Proofs.Patch.Lenient
import JsonEdit.Proofs.Patch.Modes
import JsonEdit.Proofs.Patch.Objects
import JsonEdit.Proofs.Patch.Plain
import JsonEdit.Proofs.Patch.Refusal
import JsonEdit.Proofs.Patch.Renumbered
import JsonEdit.Proofs.Patch.Revisions
import JsonEdit.Proofs.Patch.Setting
import JsonEdit.Proofs.Patch.Stored
import JsonEdit.Proofs.Patch.Strict
import JsonEdit.Proofs.Patch.Strings
import JsonEdit.Proofs.Patch.Text
import JsonEdit.Proofs.Patch.Tidy
import JsonEdit.Proofs.Path.Agreement
import JsonEdit.Proofs.Path.Cursor
import JsonEdit.Proofs.Path.Grammar
import JsonEdit.Proofs.Path.Offset
import JsonEdit.Proofs.Path.Quoted
import JsonEdit.Proofs.Path.Reader
import JsonEdit.Proofs.Path.Text
import JsonEdit.Proofs.Sequence.Alignment
import JsonEdit.Proofs.Sequence.Cost
import JsonEdit.Proofs.Sequence.Normal
import JsonEdit.Proofs.Sequence.Search
import JsonEdit.Proofs.Sequence.Shortest
import JsonEdit.Proofs.Text.Mended
import JsonEdit.Proofs.Text.Unpaired
import JsonEdit.Sequence.Frontier
import JsonEdit.Sequence.Run
import JsonEdit.Text.Alphanumeric
import JsonEdit.Text.Blank
import JsonEdit.Text.Blocks
import JsonEdit.Text.Hex
import JsonEdit.Text.Invisible
import JsonEdit.Text.Position
import JsonEdit.Text.Quoted
import JsonEdit.Text.Surrogate
import JsonEdit.Text.Utf8
import JsonEdit.Proofs.Json.Schema
import JsonEdit.Proofs.Path.Key
import JsonEdit.Proofs.Sequence.Table
import JsonEdit.Proofs.Number.Held
import JsonEdit.Proofs.Json.Counting
import JsonEdit.Proofs.Patch.Counting
