/-
The NATS-failure state table (`internal/failmode/fsm.go`) and the
reservation that follows an allowing verdict (`GovernanceStore.reserve`,
`internal/governance/store.go`), with the admission check that joins
the two (`CheckBudget`).

`decide` is the source's pure table: the healthy branch, the two
overrides that outrank it, the snapshot freshness test, and the two
capped states in which a replica may spend only its share of a fleet
allowance. Durations are `Int` nanoseconds and amounts `Int` nano-USD,
whose sums and differences are taken to fit an int64; the product of the
soft threshold wraps as Go's does. Every other division below has a
non-negative dividend and a positive divisor on the branch that reaches
it, where Go's truncation and `Int` division agree.
-/
import Elitea.Failmode.Counter

namespace Elitea.Failmode

-- ============================================================= the inputs

/-- `NanoUSD`: one USD in nano-USD. -/
def nanoUSD : Int := 1000000000

/-- A state of the table (`State`). -/
inductive FsmState
  | natsHealthy
  | downPGFreshSafe
  | downPGFreshNear
  | downPGFreshOver
  | downPGStale
  | forcedClosed
deriving DecidableEq, Repr

/-- The enforcement outcome (`Verdict`). -/
inductive Verdict
  | allow
  | block402
  | block503
deriving DecidableEq, Repr

/-- The resolved NATS-failure policy (`FailMode`). -/
inductive FailMode
  | tieredHybrid
  | failOpen
  | failClosed
deriving DecidableEq, Repr

/-- The point-read of one budget scope (`Snapshot`), as far as the
table reads it. -/
structure Snapshot where
  isUnlimited : Bool
  hardLimitNano : Int
  accumulatedNano : Int
  softAlertPct : Int
  age : Int
  found : Bool
  softAlertsDisabled : Bool := false

/-- The resolved configuration (`Params`). -/
structure Params where
  mode : FailMode
  pgFreshness : Int
  expectedReplicas : Int
  degradedCapNano : Int
  outageExceededMax : Bool
  degradedReservationNano : Int

/-- The table's answer (`Decision`). -/
structure Decision where
  verdict : Verdict
  state : FsmState
  degraded : Bool := false
  softThresholdNear : Bool := false
  softAlertsDisabled : Bool := false
  capped : Bool := false
  replicaShareNano : Int := 0
deriving DecidableEq, Repr

-- ============================================================== the shares

/-- `PerReplicaShare`: the floor of an even split. -/
def perReplicaShare (total replicas : Int) : Int :=
  if total ≤ 0 then 0
  else
    let n := if replicas < 1 then 1 else replicas
    total / n

/-- `overShare`: whether a degraded request must be refused. -/
def overShare (spentNano reqCostNano shareNano : Int) : Bool :=
  if shareNano ≤ 0 then true
  else if reqCostNano ≤ 0 then decide (spentNano ≥ shareNano)
  else decide (spentNano + reqCostNano > shareNano)

/-- `cappedDecision`: the shared tail of the two capped states. -/
def cappedDecision (state : FsmState) (share spentNano reqCostNano : Int) :
    Decision :=
  { verdict := if overShare spentNano reqCostNano share
      then .block402 else .allow
    state := state
    degraded := true
    capped := true
    replicaShareNano := share }

/-- The soft-alert percentage, 80 when it is out of range. -/
def softPct (snap : Snapshot) : Int :=
  if snap.softAlertPct ≤ 0 ∨ snap.softAlertPct > 100 then 80
  else snap.softAlertPct

/-- `softThreshold`: where the FRESH_NEAR state begins. A product past
int64 wraps. -/
def softThreshold (snap : Snapshot) : Int :=
  ((snap.hardLimitNano * softPct snap).bmod (2 ^ 64)).tdiv 100

/-- The fleet-wide degraded cap of the FRESH_SAFE state: the configured
one, else a tenth of the limit, never below one. -/
def fleetCap (p : Params) (limit : Int) : Int :=
  if p.degradedCapNano ≤ 0 then max 1 (limit / 10) else p.degradedCapNano

-- =============================================================== the table

/-- The NATS_HEALTHY row of the table. -/
def decideHealthy (authoritativeNano : Int) (snap : Snapshot) : Decision :=
  let budgeted := !snap.isUnlimited && decide (snap.hardLimitNano > 0)
  if budgeted && decide (authoritativeNano ≥ snap.hardLimitNano) then
    { verdict := .block402, state := .natsHealthy }
  else
    { verdict := .allow
      state := .natsHealthy
      softThresholdNear := budgeted &&
        decide (authoritativeNano ≥ softThreshold snap) }

/-- The rows of a fresh snapshot with a positive limit. -/
def decideFresh (replicaDegradedNano : Int) (snap : Snapshot)
    (reqCostNano : Int) (p : Params) : Decision :=
  let limit := snap.hardLimitNano
  let accumulated := snap.accumulatedNano
  if accumulated ≥ limit then
    { verdict := .block402, state := .downPGFreshOver, degraded := true }
  else if accumulated ≥ softThreshold snap then
    cappedDecision .downPGFreshNear
      (perReplicaShare (limit - accumulated) p.expectedReplicas)
      replicaDegradedNano reqCostNano
  else
    cappedDecision .downPGFreshSafe
      (perReplicaShare (fleetCap p limit) p.expectedReplicas)
      replicaDegradedNano reqCostNano

/-- `decide`: the state table. FORCED_CLOSED outranks every override,
and the overrides outrank the snapshot. -/
def decideTable (natsUp : Bool) (authoritativeNano replicaDegradedNano : Int)
    (snap : Snapshot) (reqCostNano : Int) (p : Params) : Decision :=
  if natsUp then decideHealthy authoritativeNano snap
  else if p.outageExceededMax then
    { verdict := .block503, state := .forcedClosed, degraded := true }
  else
    match p.mode with
    | .failClosed =>
        { verdict := .block402, state := .downPGFreshOver, degraded := true }
    | .failOpen =>
        { verdict := .allow, state := .downPGFreshSafe, degraded := true }
    | .tieredHybrid =>
        if snap.isUnlimited then
          { verdict := .allow, state := .downPGFreshSafe, degraded := true }
        else if snap.found && decide (snap.age ≥ p.pgFreshness) then
          { verdict := .block503, state := .downPGStale, degraded := true }
        else if snap.hardLimitNano ≤ 0 then
          { verdict := .allow, state := .downPGFreshSafe, degraded := true }
        else decideFresh replicaDegradedNano snap reqCostNano p

/-- `Decide`: the table, with the platform's soft-alert switch copied
from the snapshot. -/
def decideWithAlerts (natsUp : Bool) (authoritativeNano replicaDegradedNano : Int)
    (snap : Snapshot) (reqCostNano : Int) (p : Params) : Decision :=
  { decideTable natsUp authoritativeNano replicaDegradedNano snap
      reqCostNano p with
    softAlertsDisabled := snap.softAlertsDisabled }

/-- `DefaultDegradedReservationNano`: 0.10 USD. -/
def defaultDegradedReservationNano : Int := nanoUSD / 10

/-- `GovernanceStore.reserve`: take the admitted request's reservation
against the share of its decision, or turn the verdict into 402. -/
def reserve (d : Counters) (dec : Decision) (key : String) (p : Params) :
    Counters × Decision × Option Hold :=
  let r := if p.degradedReservationNano ≤ 0
    then defaultDegradedReservationNano else p.degradedReservationNano
  match tryReserve d key r dec.replicaShareNano with
  | (d', some h) => (d', dec, some h)
  | (d', none) => (d', { dec with verdict := .block402 }, none)

/-- `GovernanceStore.CheckBudget` once the snapshot is read and the
parameters are resolved, for a request that carries holds and is not a
re-check: decide on the counters seen, and reserve when a capped state
allows, on those found then. -/
def checkBudget (natsUp : Bool) (authoritativeNano : Int)
    (seen d : Counters) (key : String) (snap : Snapshot)
    (reqCostNano : Int) (p : Params) : Counters × Decision × Option Hold :=
  let spent := if natsUp then 0 else get seen key
  let dec := decideWithAlerts natsUp authoritativeNano spent snap reqCostNano p
  if dec.verdict = .allow ∧ dec.capped then reserve d dec key p
  else (d, dec, none)

-- ============================================================ share lemmas

/-- The floor split never hands out more than the total: `n` replicas
with a share each stay within it. -/
theorem replicas_mul_perReplicaShare_le {total : Int} (n : Nat)
    (htotal : 0 ≤ total) : n * perReplicaShare total n ≤ total := by
  unfold perReplicaShare
  split
  case isTrue => simp; omega
  case isFalse =>
    cases n with
    | zero => simp; omega
    | succ n =>
        have hn : ¬ (((n + 1 : Nat) : Int) < 1) := by omega
        simp only [hn, if_false]
        exact Int.mul_ediv_self_le (by omega)

/-- A share is never negative. -/
theorem perReplicaShare_nonneg (total replicas : Int) :
    0 ≤ perReplicaShare total replicas := by
  unfold perReplicaShare
  split
  case isTrue => exact Int.le_refl 0
  case isFalse h =>
    refine Int.ediv_nonneg (by omega) ?_
    split <;> omega

/-- A larger total has no smaller share. -/
theorem perReplicaShare_mono {total total' : Int} (h : total ≤ total')
    (replicas : Int) :
    perReplicaShare total replicas ≤ perReplicaShare total' replicas := by
  by_cases htotal : total ≤ 0
  case pos =>
    rw [perReplicaShare, if_pos htotal]
    exact perReplicaShare_nonneg total' replicas
  case neg =>
    rw [perReplicaShare, if_neg htotal, perReplicaShare,
      if_neg (by omega : ¬ total' ≤ 0)]
    dsimp only
    exact Int.ediv_le_ediv (by split <;> omega) h

/-- Every capped decision of the table carries the per-replica share of
a fleet allowance: what is left of the limit near it, the fleet cap
below the soft threshold. -/
theorem decideTable_capped {natsUp : Bool} {auth spent req : Int}
    {snap : Snapshot} {p : Params}
    (hcap : (decideTable natsUp auth spent snap req p).capped = true) :
    ∃ total,
      (total = snap.hardLimitNano - snap.accumulatedNano
        ∨ snap.accumulatedNano < softThreshold snap
          ∧ total = fleetCap p snap.hardLimitNano)
      ∧ (decideTable natsUp auth spent snap req p).replicaShareNano
          = perReplicaShare total p.expectedReplicas := by
  revert hcap
  unfold decideTable decideHealthy decideFresh
  dsimp only
  repeat' split
  all_goals intro hcap
  -- only the two last rows are capped
  all_goals first
    | (cases hcap; done)
    | exact ⟨_, .inl rfl, rfl⟩
    | exact ⟨_, .inr ⟨Int.not_le.1 (by assumption), rfl⟩, rfl⟩

end Elitea.Failmode
