import MemoSeq.Proofs.Amounts.Overwriting
import MemoSeq.Proofs.Amounts.Strides
import MemoSeq.Proofs.Apart
import MemoSeq.Proofs.Broadcast.Buffers
import MemoSeq.Proofs.Climbing
import MemoSeq.Proofs.Demand.Sequences
import MemoSeq.Proofs.Discipline
import MemoSeq.Proofs.Display
import MemoSeq.Proofs.Endings.Exhausted
import MemoSeq.Proofs.Failure
import MemoSeq.Proofs.Faithful
import MemoSeq.Proofs.Flattening.Documents
import MemoSeq.Proofs.Flattening.Equality
import MemoSeq.Proofs.Flattening.Exchange
import MemoSeq.Proofs.Flattening.Returning
import MemoSeq.Proofs.Limit.Bounded
import MemoSeq.Proofs.Limit.Recovery
import MemoSeq.Proofs.Number.Widening
import MemoSeq.Proofs.Pipeline.LazyEager
import MemoSeq.Proofs.Reentrancy
import MemoSeq.Proofs.Session.Pure
import MemoSeq.Proofs.Session.Reduced
import MemoSeq.Proofs.Views.Overwrites
