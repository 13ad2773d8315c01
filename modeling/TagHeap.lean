import TagHeap.Heap.Layout
import TagHeap.Proofs.Contract
import TagHeap.Proofs.Damage
import TagHeap.Proofs.Exactness
import TagHeap.Proofs.Isolation
import TagHeap.Proofs.Merging
import TagHeap.Proofs.Refusals
import TagHeap.Proofs.Releasing
import TagHeap.Proofs.Restoring
import TagHeap.Proofs.Reuse
import TagHeap.Proofs.Snugness
import TagHeap.Proofs.Tampering
import TagHeap.Proofs.SortedSets
import TagHeap.Proofs.Repeating
import TagHeap.Proofs.Warnings
import TagHeap.Proofs.Splitting
import TagHeap.Proofs.Boundaries
import TagHeap.Proofs.Classes
import TagHeap.Proofs.RequestSizes
