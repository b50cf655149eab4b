import Sm83.Main
import Sm83.Proofs.Addresses
import Sm83.Proofs.Columns.Binary
import Sm83.Proofs.Columns.Decimal
import Sm83.Proofs.Columns.Rotated
import Sm83.Proofs.Conformance.Fixtures
import Sm83.Proofs.Conformance.Presets
import Sm83.Proofs.Counters
import Sm83.Proofs.Decode.Stream
import Sm83.Proofs.Dependence
import Sm83.Proofs.Dependence.Flags
import Sm83.Proofs.Guarded.Safety
import Sm83.Proofs.Interrupts.Host
import Sm83.Proofs.Interrupts.Isolation
import Sm83.Proofs.Loads
import Sm83.Proofs.Memory.Overrun
import Sm83.Proofs.Parking
import Sm83.Proofs.Perform
import Sm83.Proofs.Prefixed
import Sm83.Proofs.Registers
import Sm83.Proofs.Routes
import Sm83.Proofs.Stack
import Sm83.Proofs.Traffic
import Sm83.Proofs.Transfer
import Sm83.Proofs.WordSums
