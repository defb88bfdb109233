/-
Billing over a failing counter: the gateway fleet, the NATS counter, the
write-behind stream, the durable tier, and the recovery pass.

# What is modelled

- `UpdateUsage` (services/elitea-llm-gateway/internal/governance/
  store.go) as the two NATS calls it makes, in order, and the persist it
  spawns between them or after them. Any number of calls are in flight,
  on any replicas; a call may be a retry of an event already billed.
- The counter: an increment is atomic and deduplicated by its
  Nats-Msg-Id. It succeeds, fails with nothing applied, or is applied
  with its ack lost; the last two look alike to the caller.
- The consumer's `Apply` of published deltas, in any coalescing, any
  order and any number of deliveries.
- `reconcileAll` and `reconcileScope` (failmode/recovery.go): the
  enumeration, the row lock, the counter read, the replay and the
  finalize are steps of their own, and any of them may fail.

# Row locks

`reconcileScope` holds its row `FOR UPDATE` from the relock to the end
of its transaction. A write that would change a locked row waits: it is
not enabled (`Fleet.blocked`). A write that touches no row, such as a
persist whose event is already claimed, does not wait.
-/
import Elitea.Budget.Store
import Elitea.Lib.Runs
import Mathlib.Algebra.BigOperators.Group.Finset.Basic

namespace Elitea.Budget

open Lib

-- ============================================================ the counter

/-- A Nats-Msg-Id on the budget stream: a billing event's id, or the
`recovery.<scope>.<scopeID>.<period>.base<base>.delta<delta>` that
`recoveryEventID` builds for a replay. -/
inductive MsgID
  | event (id : String)
  | recovery (k : DeltaKey) (base delta : Int)
deriving DecidableEq, Repr

/-- The NATS side: the counters, the ids the duplicate window has seen,
and the published deltas. -/
structure Nats where
  counter : DeltaKey → Int
  seen : List MsgID
  stream : List BudgetDelta

/-- How a NATS call goes. -/
inductive Outcome
  | ok
  /-- `ErrUnavailable`, nothing applied. -/
  | unavailable
  /-- Applied, and `ErrUnavailable` to the caller. -/
  | ackLost
deriving DecidableEq, Repr

/-- The server's part of `IncrBudgetIdempotent`. -/
def Nats.incr (n : Nats) (k : DeltaKey) (id : MsgID) (delta : Int) : Nats :=
  if id ∈ n.seen then n
  else { n with
    counter := Function.update n.counter k (n.counter k + delta)
    seen := id :: n.seen }

/-- `IncrBudgetIdempotent`: the state after the call. -/
def Nats.incrBudgetIdempotent (n : Nats) (how : Outcome) (k : DeltaKey)
    (id : MsgID) (delta : Int) : Nats :=
  match how with
  | .unavailable => n
  | .ok | .ackLost => n.incr k id delta

/-- `PublishDelta`: the state after the call. -/
def Nats.publishDelta (n : Nats) (how : Outcome) (d : BudgetDelta) : Nats :=
  match how with
  | .unavailable => n
  | .ok | .ackLost => { n with stream := d :: n.stream }

-- ================================================================ parties

/-- Where a call of `UpdateUsage` is: before its increment, or before
its publish with what the increment returned. -/
inductive UsagePhase
  | increment
  | publish (incrOk : Bool)
deriving DecidableEq, Repr

/-- A call of `UpdateUsage` in flight. -/
structure UsageCall where
  delta : BudgetDelta
  phase : UsagePhase
deriving DecidableEq, Repr

/-- A spawned persist: the write and its delta. -/
structure PersistTask where
  healthy : Bool
  delta : OutageDelta
deriving DecidableEq, Repr

/-- Where a `reconcileScope` that holds its row is. -/
inductive ScopePhase
  | read
  | replay (counterNano : Int)
  | finalize
deriving DecidableEq, Repr

/-- A `reconcileScope` transaction: its locked row and the accumulated
amount it read under the lock. -/
structure ScopePass where
  key : DeltaKey
  accumulatedNano : Int
  phase : ScopePhase
deriving DecidableEq, Repr

/-- The fleet. `billed` lists the deltas of every call ever made. -/
structure Fleet where
  tables : Tables
  nats : Nats
  calls : List UsageCall
  persists : List PersistTask
  /-- Persists that returned an error. -/
  failed : List OutageDelta
  billed : List BudgetDelta
  /-- Per running `reconcileAll`, the rows it has still to visit. -/
  passes : List (List DeltaKey)
  scopes : List ScopePass

def Fleet.start : Fleet :=
  { tables := .empty
    nats := { counter := fun _ => 0, seen := [], stream := [] }
    calls := [], persists := [], failed := [], billed := []
    passes := [], scopes := [] }

/-- Some transaction holds the row of `k`. -/
def Fleet.locked (s : Fleet) (k : DeltaKey) : Bool :=
  s.scopes.any fun p => p.key == k

/-- A transaction that leaves `t` would have to wait for the row of
`k`. -/
def Fleet.blocked (s : Fleet) (t : Tables) (k : DeltaKey) : Bool :=
  s.locked k && t.rows k != s.tables.rows k

-- ================================================================== steps

inductive FleetOp
  /-- A request is billed: `UpdateUsage` is called. -/
  | updateUsage (d : BudgetDelta)
  /-- Call `i` makes its increment. -/
  | increment (i : Nat) (how : Outcome)
  /-- Call `i` makes its publish, and returns. -/
  | publish (i : Nat) (how : Outcome)
  /-- Persist `i` runs its transaction. -/
  | persistDelta (i : Nat) (reasoning : Bool) (f : SqlFault)
  /-- The consumer applies a coalesced group of published deltas. -/
  | apply (group : List BudgetDelta) (reasoning : Bool) (f : SqlFault)
  /-- `lockOutageRows`: a `reconcileAll` enumerates outage rows. -/
  | lockOutageRows (rows : List DeltaKey)
  /-- Pass `i` relocks its next row, or finds nothing to do. -/
  | relock (i : Nat)
  /-- Scope `j` reads the counter, or fails to. -/
  | readBudget (j : Nat) (ok : Bool)
  /-- Scope `j` replays what the counter is short of. -/
  | replay (j : Nat) (how : Outcome)
  /-- Scope `j` finalizes its row and commits, or fails to. -/
  | finalize (j : Nat) (ok : Bool)
deriving DecidableEq, Repr

/-- Run the persist's transaction. -/
def PersistTask.run (p : PersistTask) (reasoning : Bool) (f : SqlFault)
    (t : Tables) : TxEnd Tables ErrClass Unit :=
  if p.healthy then persistHealthyDelta exactColumn reasoning f t p.delta
  else persistOutageDelta exactColumn reasoning f t p.delta

/-- What scope `p` does next when its replay is due: nothing for a
counter that is not short, else one idempotent increment. -/
def replayStep (s : Fleet) (j : Nat) (p : ScopePass) (counterNano : Int)
    (how : Outcome) : Fleet :=
  let replayNano := p.accumulatedNano - counterNano
  if replayNano > 0 then
    let n := s.nats.incrBudgetIdempotent how p.key
      (.recovery p.key counterNano replayNano) replayNano
    if how = .ok then
      { s with nats := n, scopes := s.scopes.set j { p with phase := .finalize } }
    else { s with nats := n, scopes := s.scopes.eraseIdx j }
  else { s with scopes := s.scopes.set j { p with phase := .finalize } }

/-- The consumer's group: published, valid, of one key. -/
def Fleet.delivers (s : Fleet) (group : List BudgetDelta) : Bool :=
  group.all fun d => decide (d ∈ s.nats.stream) && d.validate.isNone
    && group.all fun d' => decide (d'.key = d.key)

/-- One step of the fleet. A failed step of a scope rolls its
transaction back, which gives up the row. -/
def fleetStep (s : Fleet) : FleetOp → Option Fleet
  | .updateUsage d =>
      some { s with
        calls := s.calls ++ [⟨d, .increment⟩], billed := d :: s.billed }
  | .increment i how =>
      match s.calls[i]? with
      | some ⟨d, .increment⟩ =>
          let n := s.nats.incrBudgetIdempotent how d.key (.event d.eventID)
            d.nano
          if how = .ok then
            some { s with
              nats := n, calls := s.calls.set i ⟨d, .publish true⟩ }
          else
            some { s with
              nats := n, calls := s.calls.set i ⟨d, .publish false⟩
              persists := s.persists ++ [⟨false, d⟩] }
      | _ => none
  | .publish i how =>
      match s.calls[i]? with
      | some ⟨d, .publish incrOk⟩ =>
          let s' := { s with
            nats := s.nats.publishDelta how d
            calls := s.calls.eraseIdx i }
          if how ≠ .ok ∧ incrOk then
            some { s' with persists := s.persists ++ [⟨true, d⟩] }
          else some s'
      | _ => none
  | .persistDelta i reasoning f =>
      match s.persists[i]? with
      | none => none
      | some p =>
          let r := p.run reasoning f s.tables
          if s.blocked r.state p.delta.key then none
          else
            let s' := { s with
              tables := r.state, persists := s.persists.eraseIdx i }
            match r.result, r.committed with
            | .error _, false =>
                some { s' with failed := p.delta :: s.failed }
            | _, _ => some s'
  | .apply group reasoning f =>
      match group with
      | [] => none
      | head :: _ =>
          let r := apply exactColumn reasoning f s.tables group
          if s.delivers group && !s.blocked r.state head.key then
            some { s with tables := r.state }
          else none
  | .lockOutageRows rows =>
      if rows.all fun k =>
          !s.locked k && (s.tables.rows k).any AccRow.outageOwned then
        some { s with
          tables := rows.foldl markInProgress s.tables
          passes := s.passes ++ [rows] }
      else none
  | .relock i =>
      match s.passes[i]? with
      | some (k :: rest) =>
          if s.locked k then none
          else
            let s' := { s with passes := s.passes.set i rest }
            match s.tables.rows k with
            | some r =>
                if r.outageOwned then
                  some { s' with
                    scopes := s.scopes ++ [⟨k, r.accumulated, .read⟩] }
                else some s'
            | none => some s'
      | some [] => some { s with passes := s.passes.eraseIdx i }
      | none => none
  | .readBudget j ok =>
      match s.scopes[j]? with
      | some ⟨k, acc, .read⟩ =>
          if ok then
            some { s with
              scopes := s.scopes.set j ⟨k, acc, .replay (s.nats.counter k)⟩ }
          else some { s with scopes := s.scopes.eraseIdx j }
      | _ => none
  | .replay j how =>
      match s.scopes[j]? with
      | some ⟨k, acc, .replay counterNano⟩ =>
          some (replayStep s j ⟨k, acc, .replay counterNano⟩ counterNano how)
      | _ => none
  | .finalize j ok =>
      match s.scopes[j]? with
      | some ⟨k, _, .finalize⟩ =>
          let s' := { s with scopes := s.scopes.eraseIdx j }
          if ok then some { s' with tables := finalizeRow s.tables k }
          else some s'
      | _ => none

-- ============================================================= quiescence

/-- Nothing is under way: every call has returned, every published delta
is applied, every persist committed, and a finished recovery pass left
no outage-owned row. -/
structure Fleet.Quiescent (s : Fleet) : Prop where
  calls : s.calls = []
  persists : s.persists = []
  failed : s.failed = []
  applied : ∀ d ∈ s.nats.stream, d.eventID ∈ s.tables.processed
  passes : s.passes = []
  scopes : s.scopes = []
  reconciled : ∀ k, (s.tables.rows k).all fun r => !r.outageOwned

/-- The events billed so far. -/
def Fleet.billedEvents (s : Fleet) : Finset String :=
  (s.billed.map BudgetDelta.eventID).toFinset

/-- The spend billed to a key: each of its events once. -/
def Fleet.spend (bill : String → DeltaKey × Int64) (s : Fleet)
    (k : DeltaKey) : Int :=
  ∑ id ∈ s.billedEvents with (bill id).1 = k, (bill id).2.toInt

end Elitea.Budget
