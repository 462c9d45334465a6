import RecordArena.Proofs.Bytes.CommonPrefix
import RecordArena.Proofs.Bytes.Spread
import RecordArena.Proofs.Capacity
import RecordArena.Proofs.InlineMap.History
import RecordArena.Proofs.KeyIndex.Faults
import RecordArena.Proofs.KeyIndex.Rewritten
import RecordArena.Proofs.KeyIndex.Store
import RecordArena.Proofs.Lockstep
import RecordArena.Proofs.PaddedKey.Collection
import RecordArena.Proofs.PaddedKey.Padding
import RecordArena.Proofs.Probing.Deletion
import RecordArena.Proofs.Probing.Doubling
import RecordArena.Proofs.Probing.Path
import RecordArena.Proofs.Probing.Relocation
import RecordArena.Proofs.Rebuild
import RecordArena.Proofs.Record.Fields
import RecordArena.Proofs.Slab.Coding
import RecordArena.Proofs.Slab.Growth
import RecordArena.Proofs.Slab.Recycling
import RecordArena.Proofs.Undo
import RecordArena.Record.View
import RecordArena.Text.Key
