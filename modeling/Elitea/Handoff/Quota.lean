/-
`Publish` statement by statement, on the tables of one project
(services/elitea-main/internal/infra/db/repos/workspace_store.go).

`Elitea.Handoff.Thread` has a publish as one step on one thread, with the
bytes of the project's other threads as a parameter. Here the threads of
a project share their tables and any number of publishes run at once, a
statement at a time, over the machine of `Elitea.Lib.Statements`:

- the first batch locks the thread's row and reads its refs, a replay and
  the counts of its live segments; the checks that follow are those of
  `publishCheck`;
- the second batch supersedes, inserts the segment, moves the refs,
  advances the row and spends the grants. Only then, if the project has a
  ceiling, it takes the project's lock and sums the live segments;
- the transaction commits, or rolls back with the answer it has.

# The other writers

A transaction that changes a thread's row or its refs locks the row, as
every operation of `Elitea.Handoff.Row` does. A sweep rewrites segments
that are superseded already. An upload inserts a grant.

The answer stamped on a cloud turn's message is left out: it writes none
of these tables.
-/
import Elitea.Handoff.Storage
import Elitea.Lib.Statements

namespace Elitea.Handoff.Quota

open Elitea.Lib
open Elitea.Lib.Statements

/-- A conversation's uuid. -/
abbrev ThreadId := Nat

-- =================================================================== tables

/-- The tables of one project. -/
structure Tables where
  handoffs : ThreadId → Option Row
  refs : ThreadId → Refs
  segments : List (ThreadId × SegmentRow)
  grants : List (ThreadId × Grant)

/-- The rows of the segments that are not superseded. -/
def Tables.live (t : Tables) : List (ThreadId × SegmentRow) :=
  t.segments.filter fun s => s.2.live

/-- The usage of the project: `sum(byte_length)` over its live
segments. -/
def Tables.liveBytes (t : Tables) : Nat :=
  (t.live.map fun s => s.2.bytes).sum

/-- The rows of one thread. -/
def Tables.thread (t : Tables) (id : ThreadId) : Thread :=
  { row := t.handoffs id
    refs := t.refs id
    segments := (t.segments.filter fun s => s.1 = id).map Prod.snd }

-- =================================================================== writes

/-- What a statement of the second batch writes. The rows that a statement
found are named, so that a row which appears later is not one of them. -/
inductive Write
  | supersede (thread : ThreadId) (seqs : List Nat) (now : Time)
  | insertSegment (thread : ThreadId) (segment : SegmentRow)
  | moveRefs (thread : ThreadId) (refs : List RefUpdate)
  | advanceThread (thread : ThreadId) (seq : Nat) (refs : List RefUpdate)
      (now : Time)
  | consumeGrants (thread : ThreadId) (ids : List Nat)
deriving DecidableEq, Repr

def Tables.write (t : Tables) : Write → Tables
  | .supersede thread seqs now =>
      { t with segments := t.segments.map fun s =>
          if s.1 = thread ∧ s.2.seq ∈ seqs then
            (s.1, s.2.superseded now)
          else s }
  | .insertSegment thread segment =>
      { t with segments := t.segments ++ [(thread, segment)] }
  | .moveRefs thread refs =>
      { t with
        refs := Function.update t.refs thread
          ((t.refs thread).updated refs) }
  | .advanceThread thread seq refs now =>
      { t with
        handoffs := Function.update t.handoffs thread
          ((t.handoffs thread).map (Row.published · now seq refs)) }
  | .consumeGrants thread ids =>
      { t with grants := t.grants.map fun g =>
          if g.1 = thread ∧ g.2.id ∈ ids then
            (g.1, { g.2 with consumed := true })
          else g }

-- ============================================================= the program

/-- A call of `Publish`. -/
structure Call where
  thread : ThreadId
  record : PublishRecord
deriving DecidableEq, Repr

/-- The ceiling is on. -/
def Call.quota (c : Call) : Prop := 0 < c.record.maxProjectBytes

instance (c : Call) : Decidable c.quota :=
  inferInstanceAs (Decidable (_ < _))

/-- What the first batch read: the locked row and the thread's refs. -/
structure Found where
  row : Row
  current : Refs
deriving DecidableEq, Repr

/-- `seq`. -/
def Found.seq (f : Found) : Nat := f.row.lastSeq + 1

/-- The refs the publish leaves. -/
def Found.moved (f : Found) (c : Call) : Refs :=
  f.current.updated c.record.refs

/-- The statement a publish sends next. `superseded` is what the first
statement of the second batch returned. -/
inductive Stage
  | lockThread
  | readThread (row : Row)
  | supersede (found : Found)
  | insertSegment (found : Found) (superseded : List Nat)
  | moveRefs (found : Found) (superseded : List Nat)
  | advanceThread (found : Found) (superseded : List Nat)
  | consumeGrants (found : Found) (superseded : List Nat)
  | lockQuota (found : Found) (superseded : List Nat)
  | sumUsage (found : Found) (superseded : List Nat)
  | commit (found : Found) (superseded : List Nat)
  | rollback (answer : Except PublishError PublishResult)
deriving DecidableEq, Repr

structure Publish where
  call : Call
  stage : Stage
deriving DecidableEq, Repr

/-- `workspace_handoffs`' row of a thread, and the advisory lock of the
project. -/
inductive Lock
  | handoff (thread : ThreadId)
  | quota
deriving DecidableEq, Repr

/-- `FOR UPDATE` locks the row if there is one. -/
def Publish.needs (p : Publish) (t : Tables) : Option Lock :=
  match p.stage with
  | .lockThread =>
      if (t.handoffs p.call.thread).isSome then
        some (.handoff p.call.thread)
      else none
  | .lockQuota _ _ => some .quota
  | _ => none

abbrev Answer := Except PublishError PublishResult

/-- The next statement, with what it writes. -/
def Publish.next (p : Publish) (stage : Stage) (writes : List Write) :
    Turn Publish Write Answer :=
  .next { p with stage } writes

/-- The seqs that `RETURNING` answers. -/
def Tables.liveSeqs (t : Tables) (id : ThreadId) : List Nat :=
  (t.thread id).live.map SegmentRow.seq

/-- The open grants of the segment's key. -/
def Tables.openGrants (t : Tables) (c : Call) : List Nat :=
  (t.grants.filter fun g => g.1 = c.thread
    ∧ g.2.sha256 = c.record.sha256 ∧ g.2.consumed = false).map
      fun g => g.2.id

/-- What the code does with the row of the first statement. -/
def lockThread (p : Publish) (t : Tables) : Turn Publish Write Answer :=
  match t.handoffs p.call.thread with
  | none => p.next (.rollback (.error .notFound)) []
  | some row => p.next (.readThread row) []

/-- The read of the first batch and the checks that follow it. -/
def readThread (p : Publish) (row : Row) (t : Tables) :
    Turn Publish Write Answer :=
  let thread := t.thread p.call.thread
  match publishCheck p.call.record row thread with
  | .error e => p.next (.rollback (.error e)) []
  | .ok (some seq) =>
      p.next (.rollback (.ok ⟨seq, thread.refs, [], true⟩)) []
  | .ok none => p.next (.supersede ⟨row, thread.refs⟩) []

/-- A `COMPACT` supersedes the thread's live segments; for a `PUSH` the
statement matches no row. -/
def supersede (p : Publish) (f : Found) (t : Tables) (now : Time) :
    Turn Publish Write Answer :=
  let seqs :=
    if p.call.record.kind = .compact then t.liveSeqs p.call.thread else []
  p.next (.insertSegment f seqs) [.supersede p.call.thread seqs now]

/-- The last statement of the second batch, and what the code does with
it. -/
def sumUsage (p : Publish) (f : Found) (superseded : List Nat)
    (t : Tables) : Turn Publish Write Answer :=
  if p.call.record.maxProjectBytes < t.liveBytes then
    p.next (.rollback (.error .quotaExceeded)) []
  else p.next (.commit f superseded) []

def Publish.exec (p : Publish) (t : Tables) (now : Time) :
    Turn Publish Write Answer :=
  match p.stage with
  | .lockThread => lockThread p t
  | .readThread row => readThread p row t
  | .supersede f => supersede p f t now
  | .insertSegment f superseded =>
      p.next (.moveRefs f superseded)
        [.insertSegment p.call.thread
          (p.call.record.segment f.seq (f.moved p.call))]
  | .moveRefs f superseded =>
      p.next (.advanceThread f superseded)
        [.moveRefs p.call.thread p.call.record.refs]
  | .advanceThread f superseded =>
      p.next (.consumeGrants f superseded)
        [.advanceThread p.call.thread f.seq p.call.record.refs now]
  | .consumeGrants f superseded =>
      p.next
        (if p.call.quota then .lockQuota f superseded
          else .commit f superseded)
        [.consumeGrants p.call.thread (t.openGrants p.call)]
  | .lockQuota f superseded => p.next (.sumUsage f superseded) []
  | .sumUsage f superseded => sumUsage p f superseded t
  | .commit f superseded =>
      .commit (.ok ⟨f.seq, f.moved p.call, superseded, false⟩)
  | .rollback answer => .rollback answer

-- ============================================================ other writers

/-- A transaction that is not a publish. -/
inductive Other
  /-- One that changes a thread's row and its refs. -/
  | handoff (thread : ThreadId) (row : Option Row) (refs : Refs)
  /-- One that rewrites segments that are superseded. -/
  | segments (segments : List (ThreadId × SegmentRow))
  | grant (thread : ThreadId) (grant : Grant)
deriving DecidableEq, Repr

def Other.needs : Other → List Lock
  | .handoff thread _ _ => [.handoff thread]
  | _ => []

def Tables.other (t : Tables) : Other → Option Tables
  | .handoff thread row refs => some
      { t with
        handoffs := Function.update t.handoffs thread row
        refs := Function.update t.refs thread refs }
  | .segments segments =>
      let after := { t with segments }
      if after.live = t.live then some after else none
  | .grant thread grant =>
      some { t with grants := t.grants ++ [(thread, grant)] }

/-- The publishes of one project. -/
def machine : Machine Tables Lock Publish Write Answer Call Other where
  start call := ⟨call, .lockThread⟩
  needs := Publish.needs
  exec := Publish.exec
  apply := Tables.write
  otherNeeds := Other.needs
  other := Tables.other

abbrev Db := Statements.State Tables Lock Publish Write Answer

end Elitea.Handoff.Quota
