import Supermartingale.Automaton.Dot
import Supermartingale.Main
import Supermartingale.Plot.Gallery
import Supermartingale.Plot.Population
import Supermartingale.Point
import Supermartingale.Proofs.Automaton.Conversion
import Supermartingale.Proofs.Automaton.Order
import Supermartingale.Proofs.Automaton.Rejection
import Supermartingale.Proofs.Certificate.Ends
import Supermartingale.Proofs.Certificate.Limits
import Supermartingale.Proofs.Certificate.Totality
import Supermartingale.Proofs.Certificate.Unknowns
import Supermartingale.Proofs.Constraint.Rendering
import Supermartingale.Proofs.Guard.Negation
import Supermartingale.Proofs.Guard.Numerals
import Supermartingale.Proofs.Hoa.RoundTrip
import Supermartingale.Proofs.Invariant.Soundness
import Supermartingale.Proofs.Policy.Recovery
import Supermartingale.Proofs.Policy.Selection
import Supermartingale.Proofs.Polynomial.LikeTerms
import Supermartingale.Proofs.Run.Location
import Supermartingale.Proofs.Smt.Denotation
import Supermartingale.Proofs.Space.Reading
import Supermartingale.Proofs.Text.Marking
import Supermartingale.Proofs.Tuning.Progress
import Supermartingale.Upload
