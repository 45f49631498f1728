import FourValued.Main
import FourValued.Polish.Reader
import FourValued.Proofs.Closure
import FourValued.Proofs.Soundness
import FourValued.Proofs.Fixpoint
import FourValued.Proofs.Locality
import FourValued.Proofs.PassBound
import FourValued.Proofs.Monotonicity
import FourValued.Proofs.Interference
import FourValued.Proofs.Evidence
import FourValued.Proofs.FreeClasses
import FourValued.Proofs.Rows
import FourValued.Proofs.Decisions
import FourValued.Proofs.Decoding
import FourValued.Proofs.Printing
import FourValued.Proofs.Ascent
import FourValued.Proofs.Counting
import FourValued.Proofs.Draft
import FourValued.Proofs.Rewriting
import FourValued.Proofs.Assignments
import FourValued.Proofs.Contraposition
import FourValued.Proofs.Robustness
import FourValued.Proofs.Thresholds
import FourValued.Proofs.ReadOnce
import FourValued.Proofs.Respelling
import FourValued.Proofs.Declarations
import FourValued.Proofs.Drawing
import FourValued.Proofs.UniqueReading
import FourValued.Proofs.Retracing
import FourValued.Proofs.Entering
import FourValued.Proofs.Invocation
import FourValued.Proofs.Notation
import FourValued.Proofs.Undeclared
import FourValued.Proofs.Writes
import FourValued.Proofs.Depth
import FourValued.Proofs.Nesting
