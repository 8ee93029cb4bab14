import Abacus.Main
import Abacus.Syntax.Alike
import Abacus.Proofs.Trace
import Abacus.Proofs.Meaning
import Abacus.Proofs.Floats
import Abacus.Proofs.Running
import Abacus.Proofs.Compiled
import Abacus.Proofs.Folding
import Abacus.Proofs.Grammar.Rules
import Abacus.Proofs.Grammar.Derivation
import Abacus.Proofs.Grammar.Extent
import Abacus.Proofs.Grammar.Parts
import Abacus.Proofs.Grammar.Sound
import Abacus.Proofs.Grammar.Accepts
import Abacus.Proofs.Token.Lexemes
import Abacus.Proofs.Token.Scanning
import Abacus.Proofs.Layout.Readable
import Abacus.Proofs.Layout.Alike
import Abacus.Proofs.Layout.Spelling
import Abacus.Proofs.Layout.Expressions
import Abacus.Proofs.Layout.Statements
import Abacus.Proofs.Layout.RoundTrip
import Abacus.Proofs.Answers
import Abacus.Proofs.CallDepth
import Abacus.Proofs.Float.Fields
import Abacus.Proofs.Float.Reading
import Abacus.Proofs.Float.Writing
import Abacus.Proofs.Layout.Computed
import Abacus.Proofs.Formatting
import Abacus.Proofs.Flow.Scoping
import Abacus.Proofs.Names.Basic
import Abacus.Proofs.Names.Running
import Abacus.Proofs.Flow.Edges
import Abacus.Proofs.Names.Checking
import Abacus.Proofs.Flow.Folded
import Abacus.Proofs.Flow.Reach
import Abacus.Proofs.Flow.Mismatches
import Abacus.Proofs.Desugared
import Abacus.Proofs.Token.Places
import Abacus.Proofs.Grammar.Kinds
import Abacus.Proofs.Respacing
import Abacus.Proofs.Execution
import Abacus.Proofs.Names.Renaming
import Abacus.Proofs.Flow.Renamed
import Abacus.Proofs.Grammar.Watched
import Abacus.Proofs.Grammar.Rewinding
import Abacus.Proofs.Reformatting
import Abacus.Proofs.Settled
import Abacus.Proofs.Flow.Distance
import Abacus.Proofs.Positions
import Abacus.Proofs.Constants
import Abacus.Proofs.Degrees
import Abacus.Proofs.Float.Special
import Abacus.Proofs.Degree.Calls
import Abacus.Proofs.Degree.Folded
import Abacus.Proofs.Grammar.Malformed
import Abacus.Proofs.Token.Lookahead
import Abacus.Proofs.Token.Errors
import Abacus.Proofs.Flow.Lexical
import Abacus.Proofs.Float.Comparing
import Abacus.Proofs.Degree.Swapped
import Abacus.Proofs.Layout.Congruence
import Abacus.Proofs.Flow.Corresponding
import Abacus.Proofs.Grammar.Drawing
import Abacus.Proofs.Grammar.Drawn
import Abacus.Proofs.Identities
import Abacus.Proofs.Float.Integers
import Abacus.Proofs.Token.Radix
import Abacus.Proofs.Layout.Juxtaposition
import Abacus.Proofs.Flow.Coverage
import Abacus.Proofs.Flow.Checked
import Abacus.Proofs.Flow.Lists
import Abacus.Proofs.Grammar.References
import Abacus.Proofs.Grammar.Unbounded
import Abacus.Proofs.Grammar.Termination
