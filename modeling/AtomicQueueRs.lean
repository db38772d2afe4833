import AtomicQueueRs.Concurrency.Imitation
import AtomicQueueRs.Concurrency.Ownership
import AtomicQueueRs.DeadlockFreedom
import AtomicQueueRs.Refinement.Operations
import AtomicQueueRs.Ring.Fifo
import AtomicQueueRs.Ring.Wrap
import AtomicQueueRs.ElementTypes
import AtomicQueueRs.AtomicVariable
import AtomicQueueRs.Shuffling
import AtomicQueueRs.Relabelling
import AtomicQueueRs.Confinement
import AtomicQueueRs.Construction
import AtomicQueueRs.AtomicQueueB2
import AtomicQueueRs.ClaimBounds
import AtomicQueueRs.CounterGap
import AtomicQueueRs.Underflow
import AtomicQueueRs.Loads
import AtomicQueueRs.Quiescence
import AtomicQueueRs.SlotOwnership
import AtomicQueueRs.TurnOrder
import AtomicQueueRs.SpscOrder
import AtomicQueueRs.SpscLinearizability
import AtomicQueueRs.SpscProgress
import AtomicQueueRs.Preservation
import AtomicQueueRs.Contents
import AtomicQueueRs.Delivery
import AtomicQueueRs.Sequential
import AtomicQueueRs.SingleThread
import AtomicQueueRs.Endings
import AtomicQueueRs.PanicAtomicity
import AtomicQueueRs.ListQueue
import AtomicQueueRs.SequentialFifo
import AtomicQueueRs.Transparency
import AtomicQueueRs.Overclaims
import AtomicQueueRs.Justification
import AtomicQueueRs.CounterWrap
import AtomicQueueRs.Drop
import AtomicQueueRs.Conservation
import AtomicQueueRs.Occupancy
import AtomicQueueRs.Handover
import AtomicQueueRs.CellProgress
import AtomicQueueRs.ClaimOrder
import AtomicQueueRs.Resumption
import AtomicQueueRs.Speculation
import AtomicQueueRs.WaitFreedom
