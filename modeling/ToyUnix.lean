import ToyUnix.Main
import ToyUnix.Shell.Cursor
import ToyUnix.Proofs.Process.Moment
import ToyUnix.Proofs.Files.Layers
import ToyUnix.Proofs.Files.Mounting
import ToyUnix.Proofs.Files.Listing
import ToyUnix.Proofs.Files.Confined
import ToyUnix.Proofs.Files.Editing
import ToyUnix.Proofs.Files.Unmounting
import ToyUnix.Proofs.Files.Devices
import ToyUnix.Proofs.Addressing
import ToyUnix.Proofs.Process.Cascade
import ToyUnix.Proofs.Shell.Completeness
import ToyUnix.Proofs.Shell.Stripping
import ToyUnix.Proofs.Shell.Literal
import ToyUnix.Proofs.Shell.Parameters
import ToyUnix.Proofs.Shell.Isolation
import ToyUnix.Proofs.Shell.Leftovers
import ToyUnix.Proofs.Shell.Status
import ToyUnix.Proofs.Shell.Containment
import ToyUnix.Proofs.Shell.Parallel
import ToyUnix.Proofs.Shell.Grammar
import ToyUnix.Proofs.Shell.Rendering
import ToyUnix.Proofs.Shell.RoundTrip
import ToyUnix.Proofs.Shell.Derivation
import ToyUnix.Proofs.Shell.Tiling
import ToyUnix.Proofs.Narrative
import ToyUnix.Proofs.Homes
import ToyUnix.Proofs.Session
import ToyUnix.Proofs.Confinement
import ToyUnix.Proofs.Resolution
import ToyUnix.Proofs.Ownership
import ToyUnix.Proofs.Directory
import ToyUnix.Proofs.Shell.ReadBack
import ToyUnix.Proofs.Shell.DoubleQuoted
import ToyUnix.Proofs.Process.Footprint
import ToyUnix.Proofs.Process.Listeners
import ToyUnix.Proofs.Shell.Parentheses
import ToyUnix.Proofs.Shell.Unwinding
import ToyUnix.Proofs.Operands
import ToyUnix.Proofs.Shell.Captured
import ToyUnix.Proofs.Making
import ToyUnix.Proofs.Files.Ledger
import ToyUnix.Proofs.Shell.Delivered
import ToyUnix.Proofs.Canonical
import ToyUnix.Proofs.Prefixes
import ToyUnix.Proofs.Lookup
import ToyUnix.Proofs.Shell.Negation
import ToyUnix.Proofs.Shell.Dispatch
