import FOmega.Text.Ranges
import FOmega.Text.Letter
import FOmega.Text.Numeral
import FOmega.Text.Decimal
import FOmega.Text.Escape
import FOmega.Span
import FOmega.Name
import FOmega.Mark
import FOmega.Builtin
import FOmega.Constant
import FOmega.Tree
import FOmega.Token
import FOmega.Token.Lexer
import FOmega.ParseError
import FOmega.Log
import FOmega.Interner
import FOmega.Parser
import FOmega.Grammar
import FOmega.Rule
import FOmega.Machine
import FOmega.Parse
import FOmega.Scope.Entry
import FOmega.Scope.Info
import FOmega.Scope.Check
import FOmega.Scope.Collect
import FOmega.Scope.Registrar
import FOmega.Scope.Rename
import FOmega.Session
import FOmega.Proofs.Skeleton
import FOmega.Proofs.Derivation
import FOmega.Proofs.Invariant
import FOmega.Proofs.Combinator
import FOmega.Proofs.Reading
import FOmega.Proofs.Recognition
import FOmega.Proofs.Renaming
import FOmega.Proofs.Sentence
import FOmega.Proofs.Consistency
import FOmega.Proofs.Height
import FOmega.Proofs.Numbering
import FOmega.Proofs.Freshness
import FOmega.Proofs.Continuation
import FOmega.Proofs.Diagnosis
import FOmega.Proofs.Escape
import FOmega.Proofs.Lexeme
import FOmega.Proofs.CommentScan
import FOmega.Proofs.Pieces
import FOmega.Proofs.Coverage
import FOmega.Proofs.RoundTrip
import FOmega.Proofs.ErrorReport
import FOmega.Proofs.Placement
import FOmega.Proofs.Lockstep
import FOmega.Proofs.Agreement
import FOmega.Proofs.RuleAgreement
import FOmega.Proofs.DepthLimit
import FOmega.Proofs.Routine
import FOmega.Proofs.Machine
import FOmega.Proofs.Interference
import FOmega.Proofs.History
import FOmega.Proofs.Repetition
import FOmega.Proofs.Outline
import FOmega.Proofs.Positions
import FOmega.Proofs.Multiset
import FOmega.Proofs.Regroup
import FOmega.Proofs.Verdict
import FOmega.Proofs.Culprit
import FOmega.Proofs.Gathering
import FOmega.Proofs.Spelling
import FOmega.Proofs.Nesting
import FOmega.Proofs.Excerpt
import FOmega.Proofs.BlockComment
import FOmega.Proofs.Seam
import FOmega.Proofs.Nodes
import FOmega.Proofs.Subphrase
import FOmega.Proofs.LineColumn
import FOmega.Proofs.Merging
import FOmega.Proofs.Literal
import FOmega.Proofs.Raising
import FOmega.Proofs.Rendering
