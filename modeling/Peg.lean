import Peg.Session
import Peg.Main
import Peg.Proofs.Loops
import Peg.Proofs.Cut
import Peg.Proofs.Grammar
import Peg.Proofs.Units
import Peg.Proofs.Uses
import Peg.Proofs.Meaning
import Peg.Proofs.Ends
import Peg.Proofs.Digits
import Peg.Proofs.Arithmetic
import Peg.Proofs.Json.Language
import Peg.Proofs.Json.Strings
import Peg.Proofs.Json.Numbers
import Peg.Proofs.Json.Values
import Peg.Proofs.Json.Parsing
import Peg.Proofs.Hollow
import Peg.Proofs.Sessions
import Peg.Proofs.Pruning
import Peg.Proofs.Commitments
import Peg.Proofs.Json.Uncut
import Peg.Proofs.Spans
import Peg.Proofs.Calls
import Peg.Proofs.Bounds
import Peg.Proofs.Recursion
import Peg.Proofs.Termination
import Peg.Proofs.Causes
import Peg.Proofs.Lockstep
import Peg.Proofs.Suffixes
import Peg.Proofs.Unlogged
import Peg.Proofs.Brackets
import Peg.Proofs.Depths
import Peg.Proofs.Asking
import Peg.Proofs.RuleLogs
import Peg.Proofs.SpanTrees
import Peg.Proofs.Refusals
import Peg.Proofs.Recognisers
import Peg.Proofs.Spelling
import Peg.Proofs.Tokens
import Peg.Proofs.Readings
import Peg.Proofs.Supplies
import Peg.Proofs.Agreement
import Peg.Proofs.Mappings
import Peg.Proofs.Equality
import Peg.Proofs.Sections
import Peg.Proofs.Repetition
import Peg.Proofs.Unrolling
import Peg.Proofs.Interchange
import Peg.Proofs.Insertions
import Peg.Proofs.Limits
import Peg.Proofs.Grouping
import Peg.Proofs.Deepening
import Peg.Proofs.Alternatives
import Peg.Proofs.Characters
import Peg.Proofs.Lines
import Peg.Proofs.Captures
import Peg.Proofs.Durations
import Peg.Proofs.Scopes
import Peg.Proofs.Walks
