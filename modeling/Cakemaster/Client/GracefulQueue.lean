import Cakemaster.Client.Registry
import Cakemaster.Segment.Mounts

/-!
# The queue of graceful unmounts

Removals that wait for their deadline. A job is claimed when it is due, and it is
finished or put back by the thread that claimed it; what was cancelled or replaced in
between is told by its revision. The heap of deadlines is the sorted list of its records.
-/

namespace Cakemaster.Client

open Machine Segment
open Object (ClientSession)

/-- A mounted incarnation of a segment is known by its entry. -/
abbrev SegmentIncarnation := SegmentHandle

structure GracefulUnmountKey where
  session : ClientSession
  segment : SegmentId
deriving DecidableEq

structure PendingGracefulUnmount where
  deadline : ClientTick
  incarnation : SegmentIncarnation
  revision : ℕ
  claimed : Bool
deriving DecidableEq

structure GracefulUnmountJob where
  key : GracefulUnmountKey
  incarnation : SegmentIncarnation
  revision : ℕ
deriving DecidableEq

structure GracefulDeadlineRecord where
  deadline : ClientTick
  revision : ℕ
  key : GracefulUnmountKey
deriving DecidableEq

/-- The numbers that records are compared by, one after the other. -/
def GracefulDeadlineRecord.order (record : GracefulDeadlineRecord) : List ℕ :=
  [record.deadline, record.revision, record.key.session.clientId.high,
    record.key.session.clientId.low, record.key.session.generation, record.key.segment.high,
    record.key.segment.low]

structure GracefulUnmountQueue where
  deadlines : List GracefulDeadlineRecord
  pending : AList fun _ : GracefulUnmountKey => PendingGracefulUnmount
  nextRevision : ℕ
  cancelledSinceReport : ℕ

namespace GracefulUnmountQueue

def default : GracefulUnmountQueue := ⟨[], ∅, 0, 0⟩

def insert (key : GracefulUnmountKey) (incarnation : SegmentIncarnation) (deadline : ClientTick)
    (q : GracefulUnmountQueue) : GracefulUnmountQueue :=
  let revision := max (Word.wrapAdd 64 q.nextRevision 1) 1
  { q with
    nextRevision := revision
    pending := q.pending.insert key ⟨deadline, incarnation, revision, false⟩
    deadlines := q.deadlines.orderedInsert (fun a b => a.order ≤ b.order) ⟨deadline, revision, key⟩ }

def schedule (key : GracefulUnmountKey) (incarnation : SegmentIncarnation) (deadline : ClientTick)
    (q : GracefulUnmountQueue) : GracefulUnmountQueue :=
  match q.pending.lookup key with
  | some pending =>
    if pending.incarnation = incarnation ∧ (pending.claimed ∨ pending.deadline ≤ deadline) then q
    else q.insert key incarnation deadline
  | none => q.insert key incarnation deadline

def cancel (key : GracefulUnmountKey) (q : GracefulUnmountQueue) : GracefulUnmountQueue :=
  let cancelled := (q.pending.lookup key).any fun pending => !pending.claimed
  { q with
    pending := q.pending.erase key
    cancelledSinceReport :=
      if cancelled then Word.satAdd 64 q.cancelledSinceReport 1 else q.cancelledSinceReport }

def cancelSession (session : ClientSession) (q : GracefulUnmountQueue) : GracefulUnmountQueue :=
  let cancelled := q.pending.entries.countP fun entry => entry.1.session = session ∧
    !entry.2.claimed
  let keys := q.pending.keys.filter (·.session = session)
  { q with
    pending := keys.foldl (fun pending key => pending.erase key) q.pending
    cancelledSinceReport := Word.satAdd 64 q.cancelledSinceReport cancelled }

def contains (key : GracefulUnmountKey) (incarnation : SegmentIncarnation)
    (q : GracefulUnmountQueue) : Bool :=
  (q.pending.lookup key).any (·.incarnation = incarnation)

/-- The record is the one of the pending unmount under its key. -/
def isCurrent (pending : AList fun _ : GracefulUnmountKey => PendingGracefulUnmount)
    (record : GracefulDeadlineRecord) : Bool :=
  (pending.lookup record.key).any fun current => current.revision = record.revision ∧
    current.deadline = record.deadline

def pruneStaleDeadlines (q : GracefulUnmountQueue) : GracefulUnmountQueue :=
  { q with deadlines := q.deadlines.dropWhile fun record => !isCurrent q.pending record }

def nextDeadline (q : GracefulUnmountQueue) : Option ClientTick × GracefulUnmountQueue :=
  let q := q.pruneStaleDeadlines
  (q.deadlines.head?.map (·.deadline), q)

/-- The loop of `claim_due`, over the records that are left in the heap. Stale records
at its front are pruned. -/
def claimRecords (now : ClientTick) (budget : ℕ) :
    List GracefulDeadlineRecord → (AList fun _ : GracefulUnmountKey => PendingGracefulUnmount) →
      List GracefulUnmountJob →
        List GracefulUnmountJob × List GracefulDeadlineRecord ×
          AList fun _ : GracefulUnmountKey => PendingGracefulUnmount
  | [], pending, jobs => (jobs, [], pending)
  | record :: rest, pending, jobs =>
    if budget ≤ jobs.length then (jobs, record :: rest, pending)
    else if !isCurrent pending record then claimRecords now budget rest pending jobs
    else if now < record.deadline then (jobs, record :: rest, pending)
    else
      match pending.lookup record.key with
      | none => claimRecords now budget rest pending jobs
      | some current =>
        if current.claimed then claimRecords now budget rest pending jobs
        else
          claimRecords now budget rest (pending.insert record.key { current with claimed := true })
            (jobs ++ [⟨record.key, current.incarnation, record.revision⟩])

def claimDue (now : ClientTick) (budget : ℕ) (q : GracefulUnmountQueue) :
    List GracefulUnmountJob × GracefulUnmountQueue :=
  let (jobs, deadlines, pending) := claimRecords now budget q.deadlines q.pending []
  (jobs, { q with deadlines, pending })

def takeCancelled (q : GracefulUnmountQueue) : ℕ × GracefulUnmountQueue :=
  (q.cancelledSinceReport, { q with cancelledSinceReport := 0 })

def finish (job : GracefulUnmountJob) (q : GracefulUnmountQueue) : GracefulUnmountQueue :=
  if (q.pending.lookup job.key).any (·.revision = job.revision) then
    { q with pending := q.pending.erase job.key }
  else q

def retry (job : GracefulUnmountJob) (deadline : ClientTick) (q : GracefulUnmountQueue) :
    Bool × GracefulUnmountQueue :=
  if (q.pending.lookup job.key).all (·.revision ≠ job.revision) then (false, q)
  else (true, q.insert job.key job.incarnation deadline)

end GracefulUnmountQueue

end Cakemaster.Client
