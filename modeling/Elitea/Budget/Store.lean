/-
The durable spend tier: the three tables one billed delta touches, and
the three transactions that write it.

# What is modelled

- `gateway.processed_event_ids`, `gateway.llm_budget_accumulators` and
  `gateway.llm_usage_events`, as `Tables`;
- the scheduler's `Store.Apply` on a coalesced group
  (services/elitea-scheduler/internal/budgetwriteback/store.go);
- the gateway's `PersistOutageDelta` and `PersistHealthyDelta`
  (services/elitea-llm-gateway/internal/failmode/store.go);
- the recovery pass's two row updates, `markInProgress` and
  `finalizeRow` (failmode/recovery.go), and the retention prune of the
  usage ledger.

Every transaction takes a `Lib.Fault`: it may fail at any statement,
and its commit may be applied with the acknowledgement lost.

# Money

Amounts are `Int64` nano-USD, and so is the summed delta of a group,
which wraps as Go's does; the columns are NUMERIC and do not. What a column
keeps of an amount is a parameter, `Column`: `exactColumn` keeps all of
it, `numeric20_8` rounds to eight decimals of a USD as the schema does.

# The row's history

`AccRow.upserts` is the one field with no column behind it: the deltas
of every upsert that reached the row, oldest first. Nothing reads it;
it is what "the row contains this delta" means.
-/
import Elitea.Lib.Tx
import Mathlib.Logic.Function.Basic
import Mathlib.Algebra.Order.Ring.Int

namespace Elitea.Budget

open Lib

-- ================================================================== money

/-- What a money column stores of an amount, in nano-USD. The stored
values are closed under addition, so only an amount coming in is ever
changed. -/
structure Column where
  round : Int → Int
  round_zero : round 0 = 0
  round_round : ∀ a, round (round a) = round a
  round_add : ∀ a b, round a = a → round b = b → round (a + b) = a + b

/-- A column that keeps every nano-USD. -/
def exactColumn : Column where
  round := id
  round_zero := rfl
  round_round _ := rfl
  round_add _ _ _ _ := rfl

/-- Half away from zero at 1e-8 USD, that is at 10 nano-USD. -/
def roundNano (x : Int) : Int :=
  if 0 ≤ x then (x + 5) / 10 * 10 else -((-x + 5) / 10 * 10)

theorem roundNano_eq_self_iff (x : Int) : roundNano x = x ↔ x % 10 = 0 := by
  unfold roundNano
  split <;> omega

theorem roundNano_mod (x : Int) : roundNano x % 10 = 0 := by
  unfold roundNano
  split <;> omega

/-- `NUMERIC(20,8)`, the type of `accumulated_cost` and `cost_usd`. -/
def numeric20_8 : Column where
  round := roundNano
  round_zero := rfl
  round_round a := (roundNano_eq_self_iff _).2 (roundNano_mod a)
  round_add a b ha hb := by
    rw [roundNano_eq_self_iff] at ha hb ⊢
    omega

/-- The amount is an int64. -/
def Fits64 (x : Int) : Prop := -2 ^ 63 ≤ x ∧ x < 2 ^ 63

instance (x : Int) : Decidable (Fits64 x) := inferInstanceAs (Decidable (_ ∧ _))

/-- `(accumulated_cost * 1e9)::bigint`, an error past its range. -/
def bigint (nano : Int) : Option Int64 :=
  if Fits64 nano then some (Int64.ofInt nano) else none

theorem bigint_toInt (nano : Int) :
    (bigint nano).map Int64.toInt = if Fits64 nano then some nano else none := by
  unfold bigint
  split
  case isTrue h =>
    rw [Option.map_some, Int64.toInt_ofInt_of_le h.1 h.2]
  case isFalse => rfl

-- ================================================================= deltas

/-- The upsert key: one accumulator row per scope and period. -/
structure DeltaKey where
  scope : String
  scopeID : String
  periodStart : Int
deriving DecidableEq, Repr

/-- The reporting dimensions of one billed request. -/
structure UsageDimensions where
  userID : Option Int := none
  provider : String := ""
  model : String := ""
  promptTokens : Int := 0
  completionTokens : Int := 0
  occurredAtUnix : Int := 0
  executionID : String := ""
  operation : String := ""
  units : Option Int := none
  unit : String := ""
  reasoningTokens : Int := 0
deriving DecidableEq, Repr

/-- A billed increment: the write-behind `BudgetDelta`, and the
gateway's `OutageDelta`, which has the same fields. -/
structure BudgetDelta where
  eventID : String
  scope : String
  scopeID : String
  projectID : Int
  orgID : Option Int := none
  periodStart : Int
  periodEnd : Int
  deltaNanoUSD : Int64
  usage : Option UsageDimensions := none
deriving DecidableEq, Repr

abbrev OutageDelta := BudgetDelta

/-- The amount, as the column arithmetic sees it. -/
def BudgetDelta.nano (d : BudgetDelta) : Int := d.deltaNanoUSD.toInt

/-- `BudgetDelta.key`. -/
def BudgetDelta.key (d : BudgetDelta) : DeltaKey :=
  ⟨d.scope, d.scopeID, d.periodStart⟩

/-- `BudgetDelta.validate`: the error, if any. -/
def BudgetDelta.validate (d : BudgetDelta) : Option String :=
  if d.eventID = "" then some "empty event_id"
  else if d.scope = "" then some "empty scope"
  else if d.scopeID = "" then some "empty scope_id"
  else if d.projectID < 1 then
    some ("non-positive project_id " ++ toString d.projectID)
  else if d.periodStart ≤ 0 then
    some ("non-positive period_start " ++ toString d.periodStart)
  else if d.periodEnd ≤ d.periodStart then
    some ("period_end " ++ toString d.periodEnd
      ++ " not after period_start " ++ toString d.periodStart)
  else none

/-- `OutageDelta.validate`: the gateway checks the project first, and a
missing id twice, once for the ledger's sake. -/
def OutageDelta.validate (d : OutageDelta) : Option String :=
  if d.projectID < 1 then
    some ("failmode: non-positive project_id " ++ toString d.projectID)
  else if d.usage.isSome && d.eventID = "" then
    some "failmode: usage dimensions without event_id"
  else if d.scope = "" then some "failmode: empty scope"
  else if d.scopeID = "" then some "failmode: empty scope_id"
  else if d.eventID = "" then some "failmode: empty event_id"
  else if d.periodStart ≤ 0 then
    some ("failmode: non-positive period_start " ++ toString d.periodStart)
  else if d.periodEnd ≤ d.periodStart then
    some ("failmode: period_end " ++ toString d.periodEnd
      ++ " not after period_start " ++ toString d.periodStart)
  else none

-- ================================================================= tables

/-- A row of `gateway.llm_budget_accumulators`; its key is its place in
`Tables.rows`. -/
structure AccRow where
  projectID : Int
  orgID : Option Int
  periodEnd : Int
  /-- `accumulated_cost`, in nano-USD. -/
  accumulated : Int
  outageMode : Bool
  reconciled : Bool
  reconciliationInProgress : Bool := false
  /-- The deltas of every upsert, oldest first. -/
  upserts : List (List BudgetDelta)
deriving DecidableEq, Repr

/-- The row is owned by the gateway's recovery pass. -/
def AccRow.outageOwned (r : AccRow) : Bool := r.outageMode && !r.reconciled

/-- A row of `gateway.llm_usage_events`. -/
structure UsageRow where
  eventID : String
  projectID : Int
  userID : Option Int
  provider : String
  model : String
  promptTokens : Int
  completionTokens : Int
  /-- `cost_usd`, in nano-USD. -/
  cost : Int
  periodStart : Int
  periodEnd : Int
  occurredAt : Int
  executionID : Option String
  operation : String
  units : Option Int
  unit : Option String
  reasoningTokens : Int
deriving DecidableEq, Repr

/-- The durable tier. -/
structure Tables where
  processed : List String
  rows : DeltaKey → Option AccRow
  usage : List UsageRow

/-- An empty schema. -/
def Tables.empty : Tables :=
  { processed := [], rows := fun _ => none, usage := [] }

-- ============================================================= statements

/-- What a statement's SQLSTATE makes of a failure. -/
inductive ErrClass
  | transient | permanent | environmental
deriving DecidableEq, Repr

abbrev SqlFault := Fault ErrClass

/-- `dedupSQL` / `outageDedupSQL`, for an id not yet there. -/
def Tables.claim (t : Tables) (id : String) : Tables :=
  { t with processed := id :: t.processed }

/-- Put a row under its key. -/
def Tables.setRow (t : Tables) (k : DeltaKey) (r : AccRow) : Tables :=
  { t with rows := Function.update t.rows k (some r) }

section Upserts

variable (col : Column)

/-- A fresh accumulator row for `head`'s key. -/
def freshRow (head : BudgetDelta) (nano : Int) (outage : Bool)
    (new : List BudgetDelta) : AccRow :=
  { projectID := head.projectID, orgID := head.orgID
    periodEnd := head.periodEnd, accumulated := col.round nano
    outageMode := outage, reconciled := false, upserts := [new] }

/-- `accumulated_cost = acc.accumulated_cost + EXCLUDED.accumulated_cost`.
The excluded value was already stored once. -/
def AccRow.add (r : AccRow) (nano : Int) (new : List BudgetDelta) :
    AccRow :=
  { r with
    accumulated := col.round (r.accumulated + col.round nano)
    upserts := r.upserts ++ [new] }

/-- `upsertSQL` with the number of rows affected: a fresh row, or an
addition to a row the recovery pass does not own. -/
def upsert (t : Tables) (head : BudgetDelta) (nano : Int)
    (new : List BudgetDelta) : Tables × Nat :=
  match t.rows head.key with
  | none => (t.setRow head.key (freshRow col head nano false new), 1)
  | some r =>
      if r.outageOwned then (t, 0)
      else (t.setRow head.key (r.add col nano new), 1)

/-- `healthyUpsertSQL`: the consumer's statement, in the gateway. -/
def healthyUpsert (t : Tables) (d : OutageDelta) : Tables × Nat :=
  upsert col t d d.nano [d]

/-- `outageUpsertSQL`: add unconditionally and take the row for the
recovery pass. -/
def outageUpsert (t : Tables) (d : OutageDelta) : Tables :=
  match t.rows d.key with
  | none => t.setRow d.key (freshRow col d d.nano true [d])
  | some r =>
      t.setRow d.key
        { r.add col d.nano [d] with
          outageMode := true, reconciled := false
          reconciliationInProgress := false }

end Upserts

-- ================================================================= ledger

/-- `truncateUTF8`: the longest run of whole characters within `limit`
bytes. -/
def truncateUTF8 (value : String) (limit : Nat) : String :=
  if value.utf8ByteSize ≤ limit then value
  else String.ofList (go value.toList limit)
where
  go : List Char → Nat → List Char
    | [], _ => []
    | c :: cs, room =>
        if c.utf8Size ≤ room then c :: go cs (room - c.utf8Size) else []

/-- An empty text is SQL NULL. -/
def nullable (value : String) (limit : Nat) : Option String :=
  if value = "" then none else some (truncateUTF8 value limit)

def usageProviderBytes : Nat := 64
def usageModelBytes : Nat := 128
def usageExecutionIDBytes : Nat := 128
def usageUnitBytes : Nat := 16
def usageOperationTool : String := "tool"

/-- The ledger row of one delta. A tool row carries its operation, units
and unit; any other is a model row, whose columns default. The
reasoning count is written only while its column exists. -/
def usageRow (col : Column) (reasoning : Bool) (d : BudgetDelta)
    (u : UsageDimensions) : UsageRow :=
  let tool := u.operation = usageOperationTool
  { eventID := d.eventID, projectID := d.projectID, userID := u.userID
    provider := truncateUTF8 u.provider usageProviderBytes
    model := truncateUTF8 u.model usageModelBytes
    promptTokens := u.promptTokens, completionTokens := u.completionTokens
    cost := col.round d.nano
    periodStart := d.periodStart, periodEnd := d.periodEnd
    occurredAt := u.occurredAtUnix
    executionID := nullable u.executionID usageExecutionIDBytes
    operation := if tool then usageOperationTool else "llm"
    units := if tool then u.units else none
    unit := if tool then nullable u.unit usageUnitBytes else none
    reasoningTokens :=
      if u.reasoningTokens > 0 ∧ reasoning then u.reasoningTokens else 0 }

/-- `usageEventSQL`: append the row unless its event has one. -/
def appendUsage (usage : List UsageRow) (row : UsageRow) : List UsageRow :=
  if row.eventID ∈ usage.map UsageRow.eventID then usage
  else usage ++ [row]

/-- The ledger after a delta: its row, if it carries dimensions. -/
def ledgerAfter (col : Column) (reasoning : Bool) (usage : List UsageRow)
    (d : BudgetDelta) : List UsageRow :=
  match d.usage with
  | none => usage
  | some u => appendUsage usage (usageRow col reasoning d u)

/-- Write a delta's ledger row. -/
def Tables.ledger (col : Column) (reasoning : Bool) (t : Tables)
    (d : BudgetDelta) : Tables :=
  { t with usage := ledgerAfter col reasoning t.usage d }

-- ==================================================== the three writers

inductive ApplyOutcome
  | applied | deferred
deriving DecidableEq, Repr

/-- What `Apply`'s loop has staged so far: the tables, the summed delta
and the new events (the source keeps their number). -/
structure Claims where
  tables : Tables
  sumNano : Int64
  new : List BudgetDelta

/-- A new event: its id claimed, its amount summed, its ledger row
appended. -/
def Claims.take (col : Column) (reasoning : Bool) (c : Claims)
    (d : BudgetDelta) : Claims :=
  { tables := (c.tables.claim d.eventID).ledger col reasoning d
    sumNano := c.sumNano + d.deltaNanoUSD
    new := c.new ++ [d] }

/-- The claim loop of `Apply`, from statement `n`: an id already there
contributes nothing. The ledger row is a statement of its own. -/
def claimGroup (col : Column) (reasoning : Bool) (f : SqlFault) :
    Nat → Claims → List BudgetDelta → Except ErrClass (Nat × Claims)
  | n, c, [] => .ok (n, c)
  | n, c, d :: ds =>
      match f.check n with
      | .error e => .error e
      | .ok () =>
          if d.eventID ∈ c.tables.processed then
            claimGroup col reasoning f (n + 1) c ds
          else if d.usage.isNone then
            claimGroup col reasoning f (n + 1) (c.take col reasoning d) ds
          else
            match f.check (n + 1) with
            | .error e => .error e
            | .ok () =>
                claimGroup col reasoning f (n + 2)
                  (c.take col reasoning d) ds

/-- The body of `Store.Apply`. -/
def applyBody (col : Column) (reasoning : Bool) (f : SqlFault)
    (t : Tables) (group : List BudgetDelta) :
    Except ErrClass (Finish Tables ApplyOutcome) :=
  match claimGroup col reasoning f 1 ⟨t, 0, []⟩ group with
  | .error e => .error e
  | .ok (n, c) =>
      match group.head?, c.new with
      | none, _ => .ok (.commit n c.tables .applied)
      | _, [] => .ok (.commit n c.tables .applied)
      | some head, _ :: _ =>
          match f.check n with
          | .error e => .error e
          | .ok () =>
              let r := upsert col c.tables head c.sumNano.toInt c.new
              -- an outage-owned row: the claims go with the rollback
              if r.2 = 0 then .ok (.rollback .deferred)
              else .ok (.commit (n + 1) r.1 .applied)

/-- `Store.Apply`: one coalesced group in one transaction. -/
def apply (col : Column) (reasoning : Bool) (f : SqlFault) (t : Tables)
    (group : List BudgetDelta) : TxEnd Tables ErrClass ApplyOutcome :=
  transact f t (applyBody col reasoning f t group)

/-- What the gateway's two direct writes have in common: claim the event
id, and give up silently when the consumer was faster; then write the
row, the ledger, and commit. -/
def persistBody (col : Column) (reasoning : Bool) (f : SqlFault)
    (t : Tables) (d : OutageDelta) (write : Nat → Tables →
      Except ErrClass (Nat × Tables)) :
    Except ErrClass (Finish Tables Unit) :=
  match f.check 1 with
  | .error e => .error e
  | .ok () =>
      if d.eventID ∈ t.processed then .ok (.rollback ())
      else
        match write 2 (t.claim d.eventID) with
        | .error e => .error e
        | .ok (n, t') =>
            if d.usage.isNone then .ok (.commit n t' ())
            else
              match f.check n with
              | .error e => .error e
              | .ok () =>
                  .ok (.commit (n + 1) (t'.ledger col reasoning d) ())

/-- The row statement of `PersistOutageDelta`. -/
def writeOutage (col : Column) (f : SqlFault) (d : OutageDelta) (n : Nat)
    (t : Tables) : Except ErrClass (Nat × Tables) :=
  match f.check n with
  | .error e => .error e
  | .ok () => .ok (n + 1, outageUpsert col t d)

/-- The row statements of `PersistHealthyDelta`: the guarded upsert, and
on a row already owned by an outage the outage upsert. -/
def writeHealthy (col : Column) (f : SqlFault) (d : OutageDelta) (n : Nat)
    (t : Tables) : Except ErrClass (Nat × Tables) :=
  match f.check n with
  | .error e => .error e
  | .ok () =>
      let r := healthyUpsert col t d
      if r.2 = 0 then
        match f.check (n + 1) with
        | .error e => .error e
        | .ok () => .ok (n + 2, outageUpsert col t d)
      else .ok (n + 1, r.1)

/-- A direct write refuses an invalid delta before it opens a
transaction. -/
def persist (f : SqlFault) (t : Tables) (d : OutageDelta)
    (body : Except ErrClass (Finish Tables Unit)) :
    TxEnd Tables ErrClass Unit :=
  if (OutageDelta.validate d).isSome then ⟨t, .error .permanent, false⟩
  else transact f t body

/-- `PersistOutageDelta`. -/
def persistOutageDelta (col : Column) (reasoning : Bool) (f : SqlFault)
    (t : Tables) (d : OutageDelta) : TxEnd Tables ErrClass Unit :=
  persist f t d
    (persistBody col reasoning f t d (writeOutage col f d))

/-- `PersistHealthyDelta`. -/
def persistHealthyDelta (col : Column) (reasoning : Bool) (f : SqlFault)
    (t : Tables) (d : OutageDelta) : TxEnd Tables ErrClass Unit :=
  persist f t d
    (persistBody col reasoning f t d (writeHealthy col f d))

-- ============================================== recovery's row updates

/-- `markInProgressSQL` on the row of `k`. -/
def markInProgress (t : Tables) (k : DeltaKey) : Tables :=
  match t.rows k with
  | none => t
  | some r => t.setRow k { r with reconciliationInProgress := true }

/-- `finalizeRowSQL` on the row of `k`. -/
def finalizeRow (t : Tables) (k : DeltaKey) : Tables :=
  match t.rows k with
  | none => t
  | some r =>
      t.setRow k
        { r with
          reconciled := true, outageMode := false
          reconciliationInProgress := false }

/-- `RetentionWindow`, in seconds. -/
def retentionWindow : Int := 400 * 24 * 3600

/-- `pruneBatchSize`. -/
def pruneBatchSize : Nat := 5000

/-- `PruneUsageEvents`: delete at most one batch of rows past the
window; `picked` is which of them the sub-select happens to return. -/
def pruneUsageEvents (t : Tables) (now : Int) (picked : List String) :
    Tables :=
  { t with
    usage := t.usage.filter fun r =>
      !(decide (r.occurredAt < now - retentionWindow)
        && decide (r.eventID ∈ picked.take pruneBatchSize)) }

end Elitea.Budget
