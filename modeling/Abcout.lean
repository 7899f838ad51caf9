import Abcout.Main
import Abcout.Proofs.Image
import Abcout.Proofs.Outcome
import Abcout.Proofs.Reading
import Abcout.Proofs.Renaming
import Abcout.Proofs.Macros
import Abcout.Proofs.Import
import Abcout.Proofs.Expansion
import Abcout.Proofs.Layout
import Abcout.Proofs.Assembly
import Abcout.Proofs.Calls
import Abcout.Proofs.Listing
import Abcout.Proofs.Disassembly
import Abcout.Proofs.Capacity
import Abcout.Proofs.Causes
import Abcout.Proofs.Location
import Abcout.Proofs.ImportGraph
import Abcout.Proofs.Templates
import Abcout.Proofs.Contexts
import Abcout.Proofs.Inlining
import Abcout.Proofs.Capture
import Abcout.Proofs.Declarations
import Abcout.Proofs.Traces
import Abcout.Proofs.Alike
import Abcout.Proofs.Extraction
import Abcout.Proofs.Clause
import Abcout.Proofs.Omission
import Abcout.Proofs.Selection
import Abcout.Proofs.Commands
import Abcout.Proofs.Blanks
import Abcout.Proofs.Spacing
import Abcout.Proofs.ImportOrder
import Abcout.Proofs.Relayout
import Abcout.Proofs.Privacy
import Abcout.Proofs.Codec
import Abcout.Proofs.Pieces
import Abcout.Proofs.Arguments
import Abcout.Proofs.Session
import Abcout.Proofs.Overflow
import Abcout.Proofs.Trailing
import Abcout.Proofs.Literals
import Abcout.Proofs.Sites
import Abcout.Proofs.Numerals
import Abcout.Proofs.Substitution
import Abcout.Proofs.Writing
import Abcout.Proofs.Rendering
import Abcout.Proofs.Faithful
import Abcout.Proofs.Fractions
import Abcout.Proofs.Origin
import Abcout.Proofs.Freshness
import Abcout.Proofs.Words
import Abcout.Proofs.Provenance
import Abcout.Proofs.Counters
