import SegregatedFit.Walk
import SegregatedFit.Allocator
import SegregatedFit.Proofs.Intact
import SegregatedFit.Proofs.Allocations
import SegregatedFit.Proofs.Safety
import SegregatedFit.Proofs.Validating
import SegregatedFit.Proofs.Fitting
import SegregatedFit.Proofs.Supplying
import SegregatedFit.Proofs.Shifting
import SegregatedFit.Proofs.Deciding
import SegregatedFit.Proofs.Replaying
import SegregatedFit.Proofs.Releasing
import SegregatedFit.Proofs.Refusing
import SegregatedFit.Proofs.Halting
import SegregatedFit.Proofs.Listing
import SegregatedFit.Proofs.Regions
import SegregatedFit.Proofs.Agreeing
import SegregatedFit.Proofs.Carving
import SegregatedFit.Proofs.Coalescing
import SegregatedFit.Proofs.Undoing
import SegregatedFit.Proofs.Repeating
import SegregatedFit.Proofs.Scanning
import SegregatedFit.Proofs.Reporting
import SegregatedFit.Proofs.Damaging
import SegregatedFit.Proofs.Lingering
