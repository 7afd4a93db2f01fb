import Bytewire.Proofs.Frame.Recovery
import Bytewire.Proofs.Frame.Refusal
import Bytewire.Proofs.Map.Canonical
import Bytewire.Proofs.Read.Prefix
import Bytewire.Proofs.Value.Depth
import Bytewire.Proofs.Value.RoundTrip
import Bytewire.Proofs.Value.Uniqueness
import Bytewire.Proofs.Map.Acceptance
import Bytewire.Proofs.Budget.Accounting
import Bytewire.Proofs.Frame.Segments
import Bytewire.Proofs.Map.Reordering
import Bytewire.Proofs.Read.Machine
import Bytewire.Proofs.Read.Cursor
import Bytewire.Proofs.Frame.Extent
import Bytewire.Proofs.Frame.Buffers
import Bytewire.Proofs.Number.Language
import Bytewire.Proofs.Number.RoundTrip
import Bytewire.Proofs.Entries.Offsets
import Bytewire.Proofs.Write.Appending
import Bytewire.Proofs.Number.Lengths
import Bytewire.Proofs.Number.Integers
import Bytewire.Proofs.Read.Tree
import Bytewire.Proofs.Check
