import Retention.Main
import Retention.Program.Session
import Retention.Proofs.ByName
import Retention.Proofs.ByNeed
import Retention.Proofs.Cost
import Retention.Proofs.Memoization
import Retention.Proofs.Reentrance
import Retention.Proofs.Liveness
import Retention.Proofs.Building
import Retention.Proofs.Faithful
import Retention.Proofs.Observation
import Retention.Proofs.SampledCalls
import Retention.Proofs.Driving
import Retention.Proofs.Nesting
import Retention.Proofs.Isolation
import Retention.Proofs.Printing
import Retention.Proofs.Supplying
import Retention.Proofs.Recurring
import Retention.Proofs.Accounting
import Retention.Proofs.Dropping
import Retention.Proofs.Cohabiting
import Retention.Proofs.Concatenating
import Retention.Proofs.Taking
import Retention.Proofs.Sharing
import Retention.Proofs.Splitting
import Retention.Proofs.Tables
import Retention.Proofs.Heapless
import Retention.Proofs.Repeating
import Retention.Proofs.Relaying
import Retention.Proofs.RoundTrip
import Retention.Proofs.Altering
import Retention.Proofs.Recording
