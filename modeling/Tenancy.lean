import Tenancy.Code.Listing
import Tenancy.Contention
import Tenancy.Main
import Tenancy.Proofs.Assembly
import Tenancy.Proofs.Atomicity
import Tenancy.Proofs.Callees
import Tenancy.Proofs.Confinement
import Tenancy.Proofs.Conservation
import Tenancy.Proofs.Efuns
import Tenancy.Proofs.Heap.Dealings
import Tenancy.Proofs.Ordering
import Tenancy.Proofs.Rendering
import Tenancy.Proofs.Retention
import Tenancy.Proofs.Storage
import Tenancy.Proofs.Switching
import Tenancy.Proofs.Transparency
import Tenancy.Proofs.Unwinding
import Tenancy.Proofs.Words
import Tenancy.Script
