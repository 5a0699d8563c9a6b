import ArenaHeap.Abort
import ArenaHeap.Collect.Reachable
import ArenaHeap.Config.Basic
import ArenaHeap.Heap.Block
import ArenaHeap.Heap.Chain
import ArenaHeap.Heap.Tiling
import ArenaHeap.History
import ArenaHeap.Log.Journal
import ArenaHeap.Log.Settings
import ArenaHeap.ProcessHeap
import ArenaHeap.Proofs.ArbitraryMemory
import ArenaHeap.Proofs.Bits
import ArenaHeap.Proofs.Bumping
import ArenaHeap.Proofs.Checked.NormalUse
import ArenaHeap.Proofs.Configured
import ArenaHeap.Proofs.Documents
import ArenaHeap.Proofs.Environment
import ArenaHeap.Proofs.Equality
import ArenaHeap.Proofs.Exactness
import ArenaHeap.Proofs.Interruption
import ArenaHeap.Proofs.Lifecycle
import ArenaHeap.Proofs.Lookup
import ArenaHeap.Proofs.LowestFit
import ArenaHeap.Proofs.MarkingOrder
import ArenaHeap.Proofs.Noninterference
import ArenaHeap.Proofs.OutOfMemory
import ArenaHeap.Proofs.Ownership
import ArenaHeap.Proofs.Placement
import ArenaHeap.Proofs.Repetition
import ArenaHeap.Proofs.Representation
import ArenaHeap.Proofs.Straying
import ArenaHeap.Proofs.Sweep.Canonical
