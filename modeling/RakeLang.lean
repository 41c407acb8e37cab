import RakeLang.Main
import RakeLang.Proofs.Accepting.Expression
import RakeLang.Proofs.Accepting.NegativeScalar
import RakeLang.Proofs.Accepting.Parameter
import RakeLang.Proofs.Accepting.Predicate
import RakeLang.Proofs.Accepting.ScalarTrial
import RakeLang.Proofs.Accepting.Trial
import RakeLang.Proofs.Attempting.Definition
import RakeLang.Proofs.Attempting.FirstFault
import RakeLang.Proofs.Attempting.Integer
import RakeLang.Proofs.Attempting.Ordered
import RakeLang.Proofs.Attempting.Quoting
import RakeLang.Proofs.Attempting.Recovery
import RakeLang.Proofs.Attempting.Telling
import RakeLang.Proofs.Attempting.Within
import RakeLang.Proofs.Canonical.Definition
import RakeLang.Proofs.Canonical.Expression
import RakeLang.Proofs.Canonical.Predicate
import RakeLang.Proofs.Canonical.SourceFile
import RakeLang.Proofs.Completing.Definition
import RakeLang.Proofs.Completing.Leads
import RakeLang.Proofs.Completing.Rake
import RakeLang.Proofs.Completing.SourceFile
import RakeLang.Proofs.Completing.Spelling
import RakeLang.Proofs.Completing.Statement
import RakeLang.Proofs.Lexing.Grammar
import RakeLang.Proofs.Lexing.Longest
import RakeLang.Proofs.Lexing.Stream
import RakeLang.Proofs.Mirroring.Closed
import RakeLang.Proofs.Mirroring.Concatenation
import RakeLang.Proofs.Mirroring.Continued
import RakeLang.Proofs.Mirroring.Definition
import RakeLang.Proofs.Mirroring.Displaced
import RakeLang.Proofs.Mirroring.Expression
import RakeLang.Proofs.Mirroring.Layout
import RakeLang.Proofs.Mirroring.Lexing
import RakeLang.Proofs.Mirroring.Mirror
import RakeLang.Proofs.Mirroring.Parameter
import RakeLang.Proofs.Mirroring.Predicate
import RakeLang.Proofs.Mirroring.SourceFile
import RakeLang.Proofs.Mirroring.Split
import RakeLang.Proofs.Mirroring.Statement
import RakeLang.Proofs.Mirroring.Unrecognized
import RakeLang.Proofs.Ordering.Rake
import RakeLang.Proofs.Ordering.Section
import RakeLang.Proofs.Placing.Buffer
import RakeLang.Proofs.Placing.Lexeme
import RakeLang.Proofs.Placing.Node
import RakeLang.Proofs.Placing.Slice
import RakeLang.Proofs.Placing.SourceFile
import RakeLang.Proofs.Placing.Stream
import RakeLang.Proofs.Placing.Token
import RakeLang.Proofs.Reading.Cursor
import RakeLang.Proofs.Reading.Definition
import RakeLang.Proofs.Reading.Expression
import RakeLang.Proofs.Reading.Parameter
import RakeLang.Proofs.Reading.Parser
import RakeLang.Proofs.Reading.Predicate
import RakeLang.Proofs.Reading.SourceFile
import RakeLang.Proofs.Reading.Statement
import RakeLang.Proofs.Rereading.Alongside
import RakeLang.Proofs.Rereading.Boundary
import RakeLang.Proofs.Rereading.Course
import RakeLang.Proofs.Rereading.Definition
import RakeLang.Proofs.Rereading.Ends
import RakeLang.Proofs.Rereading.Phrase
import RakeLang.Proofs.Rereading.Rake
import RakeLang.Proofs.Rereading.Relexing
import RakeLang.Proofs.Rereading.Shift
import RakeLang.Proofs.Rereading.SourceFile
import RakeLang.Proofs.Rereading.Spanless
import RakeLang.Proofs.Rereading.Statement
import RakeLang.Proofs.Running.Definition
import RakeLang.Proofs.Running.Expression
import RakeLang.Proofs.Running.Machine
import RakeLang.Proofs.Running.Run
import RakeLang.Proofs.Running.Session
import RakeLang.Proofs.Running.SourceFile
import RakeLang.Proofs.Settling.Comparison
import RakeLang.Proofs.Settling.LetIn
import RakeLang.Proofs.Settling.SourceFile
import RakeLang.Proofs.Spelling.Definition
import RakeLang.Proofs.Spelling.Expression
import RakeLang.Proofs.Spelling.Placed
import RakeLang.Proofs.Unique
