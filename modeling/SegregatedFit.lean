import SegregatedFit.Block.Lemmas
import SegregatedFit.Client.History
import SegregatedFit.Client.Transcript
import SegregatedFit.Config.Environment
import SegregatedFit.Consistency.Check
import SegregatedFit.Heap.View
import SegregatedFit.Region.Host
import SegregatedFit.Region.Process
import SegregatedFit.Proofs.Word.Rounding
import SegregatedFit.Proofs.Memory.Agreement
import SegregatedFit.Proofs.Memory.Changes
import SegregatedFit.Proofs.FreeList.Edits
import SegregatedFit.Proofs.FreeList.Filing
import SegregatedFit.Proofs.FreeList.Walks
import SegregatedFit.Proofs.FreeList.Sequences
import SegregatedFit.Proofs.Block.Tiling
import SegregatedFit.Proofs.Block.Neighbours
import SegregatedFit.Proofs.Block.Delimiting
import SegregatedFit.Proofs.Heap.Outlines
import SegregatedFit.Proofs.Heap.Misfiling
import SegregatedFit.Proofs.Heap.Steps
import SegregatedFit.Proofs.Heap.Merging
import SegregatedFit.Proofs.Heap.Splitting
import SegregatedFit.Proofs.Heap.Layout
import SegregatedFit.Proofs.Heap.Search
import SegregatedFit.Proofs.Heap.Transitions
import SegregatedFit.Proofs.Region.Answers
import SegregatedFit.Proofs.Region.Growth
import SegregatedFit.Proofs.Region.Soundness
import SegregatedFit.Proofs.Region.Sharing
import SegregatedFit.Proofs.Region.Hosting
import SegregatedFit.Proofs.Region.Anchoring
import SegregatedFit.Proofs.Consistency.Totality
import SegregatedFit.Proofs.Consistency.Lists
import SegregatedFit.Proofs.Consistency.Blocks
import SegregatedFit.Proofs.Consistency.Decision
import SegregatedFit.Proofs.Consistency.Faults
import SegregatedFit.Proofs.Consistency.Reports
import SegregatedFit.Proofs.Consistency.Redundancy
import SegregatedFit.Proofs.Consistency.Room
import SegregatedFit.Proofs.Allocator.Sizes
import SegregatedFit.Proofs.Allocator.Growth
import SegregatedFit.Proofs.Allocator.Allocating
import SegregatedFit.Proofs.Allocator.Freeing
import SegregatedFit.Proofs.Allocator.Initializing
import SegregatedFit.Proofs.Allocator.Payloads
import SegregatedFit.Proofs.Allocator.Refusals
import SegregatedFit.Proofs.Allocator.Warnings
import SegregatedFit.Proofs.Allocator.Twins
import SegregatedFit.Proofs.Allocator.Counterparts
import SegregatedFit.Proofs.Allocator.Stores
import SegregatedFit.Proofs.Client.Ledger
import SegregatedFit.Proofs.Client.Steps
import SegregatedFit.Proofs.Client.Invariant
import SegregatedFit.Proofs.Client.Runs
import SegregatedFit.Proofs.Client.Guarantees
import SegregatedFit.Proofs.Client.Detection
import SegregatedFit.Proofs.Client.Acceptance
import SegregatedFit.Proofs.Client.Policy
import SegregatedFit.Proofs.Client.Releasing
import SegregatedFit.Proofs.Client.Resizing
import SegregatedFit.Proofs.Client.Alignment
import SegregatedFit.Proofs.Client.Failures
import SegregatedFit.Proofs.Client.Logging
import SegregatedFit.Proofs.Client.Noninterference
import SegregatedFit.Proofs.Client.Portability
import SegregatedFit.Journal
import SegregatedFit.Proofs.Client.Bookkeeping
import SegregatedFit.Proofs.Client.Conservation
import SegregatedFit.Proofs.Heap.Gaps
import SegregatedFit.Proofs.Client.Reordering
import SegregatedFit.Proofs.Client.Retries
import SegregatedFit.Proofs.Client.Serving
import SegregatedFit.Proofs.Client.Undoing
import SegregatedFit.Proofs.Client.Recovery
import SegregatedFit.Proofs.Client.Sizing
import SegregatedFit.Proofs.Client.Diagnosis
