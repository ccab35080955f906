import Validity.Host
import Validity.Inspection.Script
import Validity.Linear.Decision
import Validity.Proofs.History
import Validity.Proofs.Scopes
import Validity.Proofs.ClosedScopes
import Validity.Proofs.Verdicts
import Validity.Proofs.Balanced
import Validity.Proofs.Residue
import Validity.Proofs.Rendering
import Validity.Proofs.Meaning
import Validity.Proofs.Expressions
import Validity.Proofs.WrittenMeaning
import Validity.Proofs.WrittenLiterals
import Validity.Proofs.Legibility
import Validity.Proofs.Soundness
import Validity.Proofs.ExistsForall
import Validity.Proofs.Copying
import Validity.Proofs.Effects
import Validity.Proofs.Visited
import Validity.Proofs.Regions
import Validity.Proofs.Completion
import Validity.Proofs.Independence
import Validity.Proofs.Conservation
import Validity.Proofs.Filtering
import Validity.Proofs.Wording
import Validity.Proofs.Scoping
import Validity.Proofs.Decoding
import Validity.Proofs.Failures
import Validity.Proofs.Paths
import Validity.Proofs.Locating
import Validity.Proofs.Integers
import Validity.Proofs.Reasons
import Validity.Proofs.CutPositions
import Validity.Proofs.Worklist
