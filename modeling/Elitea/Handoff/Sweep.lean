/-
The sweeper's timed transitions beside everything else that happens to a
thread (services/elitea-main/internal/application/workspacehandoff/
sweep.go, internal/infra/db/repos/workspace_handoffs.go and claims.go).

A sweep reads the rows that are due, and then moves each of them in a
transaction of its own, which compares the state and the epoch with what
was read and nothing else. Between the two, any request and any other
replica's sweep may run. A `Selection` is a row that a sweep has read and
not yet moved, with the clocks the read compared with.

The executions are modelled as far as the sweeper reads them: whether the
job is terminal, and its claims, the newest first. A claim is granted when
no other is live, and an expired one is released by the next.
-/
import Elitea.Handoff.Thread

namespace Elitea.Handoff

-- =============================================================== executions

/-- A row of `execution_claims`. -/
structure Claim where
  claimedAt : Time
  leaseExpiresAt : Time
  releasedAt : Option Time := none
deriving DecidableEq, Repr

/-- A row of `execution_jobs` with its claims, the newest first. -/
structure Execution where
  id : ExecutionId
  terminal : Bool := false
  claims : List Claim := []
deriving DecidableEq, Repr

/-- The claim holds the execution. -/
def Claim.live (now : Time) (c : Claim) : Prop :=
  c.releasedAt = none ∧ now < c.leaseExpiresAt

instance (now : Time) (c : Claim) : Decidable (c.live now) :=
  inferInstanceAs (Decidable (_ ∧ _))

def Claim.released (now : Time) (c : Claim) : Claim :=
  { c with releasedAt := some (c.releasedAt.getD now) }

/-- A worker asks for the execution; `none` while another one holds it.
A claim that ran out is released, whether or not a new one is granted. -/
def Execution.claim (now ttl : Time) (grants : Bool) (e : Execution) :
    Option Execution :=
  let granted : List Claim :=
    if grants then [{ claimedAt := now, leaseExpiresAt := now + ttl }]
    else []
  if e.terminal then none
  else
    match e.claims with
    | [] => some { e with claims := granted }
    | c :: rest =>
        if c.live now then none
        else some { e with claims := granted ++ c.released now :: rest }

/-- `RenewLease`: a lease that ran out is not renewed. -/
def Execution.renew (now ttl : Time) (e : Execution) : Option Execution :=
  match e.claims with
  | [] => none
  | c :: rest =>
      if c.live now then
        some { e with claims := { c with leaseExpiresAt := now + ttl } :: rest }
      else none

/-- `ReleaseClaim`: a worker hands the execution back. -/
def Execution.release (now : Time) (e : Execution) : Option Execution :=
  match e.claims with
  | [] => none
  | c :: rest =>
      if c.live now then some { e with claims := c.released now :: rest }
      else none

/-- The settlement of the job. -/
def Execution.settle (now : Time) (e : Execution) : Option Execution :=
  some { e with
    terminal := true
    claims := match e.claims with
      | [] => []
      | c :: rest => c.released now :: rest }

/-- The table after a change of one execution; a refused one changes
nothing. -/
def changeExecution (id : ExecutionId)
    (change : Execution → Option Execution) (table : List Execution) :
    List Execution :=
  table.map fun e => if e.id = id then (change e).getD e else e

-- ===================================================================== due

def hour : Time := 60 * minute

/-- `DeadTurnGrace`. -/
def deadTurnGrace : Time := 30 * second

/-- `ReclaimGrace`. -/
def reclaimGrace : Time := 60 * second

/-- `ReclaimAbandonedAfter`. -/
def reclaimAbandonedAfter : Time := 7 * 24 * hour

/-- `RestReclaimAbandonedAfter`. -/
def restReclaimAbandonedAfter : Time := hour

/-- `MinIdleRetention`. -/
def minIdleRetention : Time := 24 * hour

/-- What a sweep does to the rows it finds due. -/
inductive Swept
  | expireHandingOff
  | forceReclaim
  | reap
  | abandonReclaim
  | expireRestReclaim
  | abandonRestReclaim
  | idleErase
deriving DecidableEq, Repr

/-- A row that a sweep has read as due: its epoch and its running
execution, the sweep's clock, the database's clock at the read, and the
project's idle retention. -/
structure Selection where
  what : Swept
  epoch : Nat
  executionId : ExecutionId
  now : Time
  clock : Time
  idleRetention : Time
deriving DecidableEq, Repr

/-- The worker of the execution died: the job is not terminal, and its
newest claim was never released and ran out more than the grace ago. -/
def Execution.dead (clock : Time) (e : Execution) : Prop :=
  e.terminal = false
    ∧ ∃ c ∈ e.claims.head?,
      c.releasedAt = none ∧ c.leaseExpiresAt + deadTurnGrace < clock

instance (clock : Time) (e : Execution) : Decidable (e.dead clock) :=
  inferInstanceAs (Decidable (_ ∧ _))

/-- The condition under which the row is selected: the `WHERE` clauses of
`DueHandingOff`, `DueReclaimGrace`, `DeadCloudTurns`,
`DueAbandonedReclaim`, `DueRestExpired`, `DueAbandonedRestReclaim` and
`DueIdle`, the last with the deadline `sweepIdle` compares. -/
def Selection.due (x : Selection) (executions : List Execution)
    (row : Row) : Prop :=
  match x.what with
  | .expireHandingOff =>
      row.state = .handingOff ∧ ∃ t ∈ row.expiresAt, t ≤ x.now
  | .forceReclaim =>
      row.state = .cloudRunning ∧ row.reclaimPending
        ∧ ∃ t ∈ row.reclaimRequestedAt, t + reclaimGrace ≤ x.now
  | .reap =>
      row.state = .cloudRunning
        ∧ row.stateChangedAt + deadTurnGrace < x.clock
        ∧ ∃ e ∈ executions, row.runningExecutionId = some e.id
          ∧ e.dead x.clock
  | .abandonReclaim =>
      row.state = .reclaiming ∧ row.restPending = false
        ∧ row.stateChangedAt + reclaimAbandonedAfter ≤ x.now
  | .expireRestReclaim =>
      row.state = .reclaiming ∧ row.restPending
        ∧ ∃ t ∈ row.deleteAfter, t ≤ x.now
  | .abandonRestReclaim =>
      row.state = .reclaiming ∧ row.restPending
        ∧ row.stateChangedAt + restReclaimAbandonedAfter ≤ x.now
        ∧ row.deletedAt = none ∧ ∃ t ∈ row.deleteAfter, x.clock < t
  | .idleErase =>
      row.state = .cloudIdle
        ∧ row.stateChangedAt + max x.idleRetention minIdleRetention ≤ x.now

instance (x : Selection) (executions : List Execution) (row : Row) :
    Decidable (x.due executions row) := by
  unfold Selection.due
  cases x.what <;> infer_instance

/-- The transaction that moves the selected row. -/
def Selection.op (x : Selection) : Op :=
  match x.what with
  | .expireHandingOff => .timed .expireHandingOff x.epoch
  | .forceReclaim => .timed .forceReclaim x.epoch
  | .reap => .finishCloudTurn x.epoch x.executionId
  | .abandonReclaim => .timed .abandonReclaim x.epoch
  | .expireRestReclaim => .timed .expireRestReclaim x.epoch
  | .abandonRestReclaim => .timed .abandonRestReclaim x.epoch
  | .idleErase => .timed .idleErase x.epoch

-- =================================================================== the run

/-- One thread, the executions, and what the sweeps have selected. -/
structure World where
  thread : Thread := {}
  executions : List Execution := []
  clock : Time := 0
  selections : List Selection := []
deriving DecidableEq, Repr

inductive Event
  /-- Time passes. -/
  | tick (elapsed : Time)
  /-- A transaction other than a sweep's. -/
  | txn (op : Op) (wall : Time)
  | admission (id : ExecutionId)
  | claim (id : ExecutionId) (ttl : Time) (grants : Bool)
  | renew (id : ExecutionId) (ttl : Time)
  | releaseClaim (id : ExecutionId)
  | settle (id : ExecutionId)
  /-- A sweep, whose clock shows `now`, reads the row as due. -/
  | select (what : Swept) (now idleRetention : Time)
  /-- It moves the row it read. -/
  | fire (i : Nat)
deriving DecidableEq, Repr

/-- The operations that only a sweep's selection runs. -/
def Op.swept : Op → Bool
  | .timed .orphanErase _ => false
  | .timed _ _ => true
  | _ => false

/-- The tables after a transaction; a refused one leaves them alone. -/
def World.ran (maxPushChain : Int) (w : World) (op : Op) (wall : Time) :
    World :=
  { w with
    thread := (op.exec maxPushChain w.clock wall w.thread).getD w.thread }

def World.changed (w : World) (id : ExecutionId)
    (change : Execution → Option Execution) : World :=
  { w with executions := changeExecution id change w.executions }

/-- One event; `none` when it is not enabled. -/
def World.step (maxPushChain : Int) (w : World) : Event → Option World
  | .tick elapsed => some { w with clock := w.clock + elapsed }
  | .txn op wall =>
      if op.swept then none else some (w.ran maxPushChain op wall)
  | .admission id =>
      if ∃ e ∈ w.executions, e.id = id then none
      else some { w with executions := w.executions ++ [{ id := id }] }
  | .claim id ttl grants =>
      some (w.changed id (Execution.claim w.clock ttl grants))
  | .renew id ttl => some (w.changed id (Execution.renew w.clock ttl))
  | .releaseClaim id => some (w.changed id (Execution.release w.clock))
  | .settle id => some (w.changed id (Execution.settle w.clock))
  | .select what now idleRetention =>
      w.thread.row.bind fun row =>
        let x : Selection :=
          { what := what
            epoch := row.epoch
            executionId := row.runningExecutionId.getD 0
            now := now
            clock := w.clock
            idleRetention := idleRetention }
        if x.due w.executions row then
          some { w with selections := w.selections ++ [x] }
        else none
  | .fire i =>
      w.selections[i]?.map fun x =>
        { w.ran maxPushChain x.op w.clock with
          selections := w.selections.eraseIdx i }

end Elitea.Handoff
