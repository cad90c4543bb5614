import MobileCode.Json.Assembler
import MobileCode.Json.Rehearsal
import MobileCode.Json.Report
import MobileCode.Main
import MobileCode.Proofs.Coverage
import MobileCode.Proofs.LocalFallback
import MobileCode.Proofs.Overloads
import MobileCode.Proofs.Undispatched
import MobileCode.Proofs.Moves
import MobileCode.Proofs.Counts
import MobileCode.Proofs.Invocations
import MobileCode.Proofs.Outcomes
import MobileCode.Proofs.Bundles
import MobileCode.Proofs.Siblings
import MobileCode.Proofs.Assignments
import MobileCode.Proofs.Failures
import MobileCode.Proofs.Windows
import MobileCode.Proofs.Validity
import MobileCode.Proofs.Linkage
import MobileCode.Proofs.Indexes
import MobileCode.Proofs.Conduct
import MobileCode.Proofs.Histories
import MobileCode.Proofs.Hashes
import MobileCode.Proofs.ServerCopies
import MobileCode.Proofs.Versions
import MobileCode.Proofs.Attempts
import MobileCode.Proofs.Handshakes
import MobileCode.Proofs.Deliveries
import MobileCode.Proofs.Companions
import MobileCode.Proofs.Neighbours
import MobileCode.Proofs.RequestMails
import MobileCode.Proofs.Loadings
import MobileCode.Proofs.Definitions
import MobileCode.Proofs.Exceptions
import MobileCode.Proofs.Changes
import MobileCode.Proofs.Confinement
import MobileCode.Proofs.Rejections
import MobileCode.Proofs.Trials
import MobileCode.Proofs.Releases
import MobileCode.Proofs.Passes
import MobileCode.Proofs.Bindings
import MobileCode.Proofs.Depths
import MobileCode.Proofs.Constructions
import MobileCode.Proofs.Resolutions
import MobileCode.Proofs.Repetitions
import MobileCode.Proofs.Integers
import MobileCode.Proofs.Labels
import MobileCode.Proofs.Outputs
import MobileCode.Proofs.Worklists
import MobileCode.Proofs.Destinations
import MobileCode.Proofs.Cycles
import MobileCode.Proofs.Cargoes
import MobileCode.Proofs.Commissions
import MobileCode.Proofs.Departures
import MobileCode.Proofs.Homecomings
import MobileCode.Proofs.Journeys
