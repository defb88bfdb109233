/-
The write-behind consumer and everything else that touches the durable
tier, as one state machine.

# What is modelled

`processBatch` decodes a fetched batch, terminates poison, and coalesces
the rest by upsert key; `applyGroup` applies one group and settles its
messages (services/elitea-scheduler/internal/budgetwriteback/
consumer.go). Between two groups, and between the transactions of a
group that is isolated delta by delta, any other writer may run: a
group waiting to be applied is part of the state, and applying one is a
step. A crashed consumer forgets its waiting groups; the stream
delivers their messages again, which is a later `processBatch`.

The other steps are the gateway's direct writes, the recovery pass's
two row updates, and the retention prune.
-/
import Elitea.Budget.Store
import Elitea.Lib.Runs

namespace Elitea.Budget

open Lib

-- =============================================================== messages

/-- A delivered message: its sequence number in the stream and what its
payload decodes to, if it does. -/
structure Message where
  seq : Nat
  data : Option BudgetDelta
deriving DecidableEq, Repr

/-- A valid delta with the message that brought it. -/
structure Decoded where
  delta : BudgetDelta
  msg : Message
deriving DecidableEq, Repr

/-- What the consumer tells the stream about a message. -/
inductive Settlement
  | ack | nak | term
deriving DecidableEq, Repr

/-- The decode and validate steps of `processBatch`; `none` is poison. -/
def Message.decode (m : Message) : Option Decoded :=
  match m.data with
  | none => none
  | some d => if d.validate.isSome then none else some ⟨d, m⟩

/-- Add a delta to the group of its key, or open the group. -/
def addToGroup : List (DeltaKey × List Decoded) → Decoded →
    List (DeltaKey × List Decoded)
  | [], x => [(x.delta.key, [x])]
  | (k, items) :: rest, x =>
      if k = x.delta.key then (k, items ++ [x]) :: rest
      else (k, items) :: addToGroup rest x

/-- The groups of a batch, in the order their keys first appear. -/
def coalesce (msgs : List Message) : List (List Decoded) :=
  ((msgs.filterMap Message.decode).foldl addToGroup []).map Prod.snd

-- ================================================================== state

/-- The durable tier, the consumer's groups waiting to be applied, and
what the stream was told. -/
structure Durable where
  tables : Tables
  groups : List (List Decoded)
  settled : List (Message × Settlement)

def Durable.start : Durable :=
  { tables := .empty, groups := [], settled := [] }

/-- Settle every message of a group the same way. -/
def Durable.settleAll (s : Durable) (items : List Decoded)
    (how : Settlement) : Durable :=
  { s with settled := s.settled ++ items.map fun x => (x.msg, how) }

/-- `applyGroup`: one `Apply`, then what its outcome asks for. A group
that fails on one delta's data is applied again delta by delta; those
one-element groups wait their turn like any other. -/
def applyGroup (col : Column) (reasoning : Bool) (f : SqlFault)
    (s : Durable) (items : List Decoded) : Durable :=
  let r := apply col reasoning f s.tables (items.map Decoded.delta)
  let s' := { s with tables := r.state }
  match r.result with
  | .error .permanent =>
      if items.length > 1 then
        { s' with groups := items.map (fun x => [x]) ++ s'.groups }
      else s'.settleAll items .term
  | .error .environmental => s'.settleAll items .nak
  | .error .transient => s'.settleAll items .nak
  | .ok .deferred => s'.settleAll items .nak
  | .ok .applied => s'.settleAll items .ack

-- ================================================================== steps

inductive StoreOp
  | processBatch (msgs : List Message)
  | applyGroup (i : Nat) (reasoning : Bool) (f : SqlFault)
  | crash
  | persistOutageDelta (d : OutageDelta) (reasoning : Bool) (f : SqlFault)
  | persistHealthyDelta (d : OutageDelta) (reasoning : Bool) (f : SqlFault)
  | markInProgress (k : DeltaKey)
  | finalizeRow (k : DeltaKey)
  | pruneUsageEvents (now : Int) (picked : List String)
deriving DecidableEq, Repr

/-- One step of any of the writers. `finalizeRow` runs under the row
lock that `reconcileScope` took on an outage-owned row. -/
def storeStep (col : Column) (s : Durable) : StoreOp → Option Durable
  | .processBatch msgs =>
      some { s with
        groups := s.groups ++ coalesce msgs
        settled := s.settled
          ++ (msgs.filter fun m => m.decode.isNone).map
            fun m => (m, .term) }
  | .applyGroup i reasoning f =>
      match s.groups[i]? with
      | none => none
      | some items =>
          some (applyGroup col reasoning f
            { s with groups := s.groups.eraseIdx i } items)
  | .crash => some { s with groups := [] }
  | .persistOutageDelta d reasoning f =>
      some { s with
        tables := (persistOutageDelta col reasoning f s.tables d).state }
  | .persistHealthyDelta d reasoning f =>
      some { s with
        tables := (persistHealthyDelta col reasoning f s.tables d).state }
  | .markInProgress k =>
      some { s with tables := markInProgress s.tables k }
  | .finalizeRow k =>
      match s.tables.rows k with
      | some r =>
          if r.outageOwned then
            some { s with tables := finalizeRow s.tables k }
          else none
      | none => none
  | .pruneUsageEvents now picked =>
      some { s with tables := pruneUsageEvents s.tables now picked }

/-- One event id names one upsert key and one amount. -/
def BudgetDelta.Named (bill : String → DeltaKey × Int64)
    (d : BudgetDelta) : Prop :=
  bill d.eventID = (d.key, d.deltaNanoUSD)

instance (bill : String → DeltaKey × Int64) (d : BudgetDelta) :
    Decidable (d.Named bill) := by
  unfold BudgetDelta.Named
  infer_instance

/-- Every delta an operation brings in is named. -/
def StoreOp.Named (bill : String → DeltaKey × Int64) : StoreOp → Prop
  | .processBatch msgs => ∀ m ∈ msgs, ∀ d ∈ m.data, d.Named bill
  | .persistOutageDelta d _ _ => d.Named bill
  | .persistHealthyDelta d _ _ => d.Named bill
  | _ => True

instance (bill : String → DeltaKey × Int64) (op : StoreOp) :
    Decidable (op.Named bill) := by
  cases op <;> (unfold StoreOp.Named; infer_instance)

end Elitea.Budget
