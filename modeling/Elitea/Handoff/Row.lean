/-
The ownership row of a handed-off thread (services/elitea-main/internal/
infra/db/repos/workspace_handoffs.go).

A Local work thread has one row of `workspace_handoffs`, or none while it
was never sent. Every ownership change goes through `transition`, a
compare-and-set on the state and the epoch that stamps the row, clears the
markers of the state it leaves, and applies the caller's own assignments.
The operations below are the repository's: the ones a request drives lock
the row first, so that a refusal can name its reason; the sweeper's are a
`transition` alone.

# Time

A time is a number of microseconds. `now` is `clock_timestamp()`, the
database's clock as the statement reads it; `wall` is `time.Now()` of the
process, which two operations compare with instead.

# What is left out

The columns that are only stored and shown (the device name, the token,
the history mode, the lists and the stats of the send, its note and the
forge credential), the event messages and the notifications.
-/
import Elitea.Lib.Fallible

namespace Elitea.Handoff

/-- Microseconds. -/
abbrev Time := Nat

/-- Forty lowercase hex digits (`ValidSHA1`). -/
abbrev Sha1 := BitVec 160

/-- Sixty-four lowercase hex digits (`ValidSHA256`). -/
abbrev Sha256 := BitVec 256

abbrev UserId := Nat

abbrev ExecutionId := Nat

abbrev MessageId := Nat

def second : Time := 1000000

def minute : Time := 60 * second

-- =================================================================== states

/-- `State`. -/
inductive State
  | stateLocal
  | handingOff
  | cloudIdle
  | cloudRunning
  | reclaiming
deriving DecidableEq, Repr

/-- `State.Cloud`: the cloud executor owns the thread. -/
def State.cloud : State → Bool
  | .cloudIdle | .cloudRunning => true
  | _ => false

/-- The errors of the package `workspacehandoff` that the repository
returns. -/
inductive HandoffError
  | notFound
  | notLocalWork
  | staleEpoch
  | inProgress
  | executorIsCloud
  | localTurnInProgress
  | quotaExceeded
  | refsMissing
  | erased
deriving DecidableEq, Repr

/-- A row of `workspace_handoffs`. -/
structure Row where
  handoffId : Nat
  state : State
  epoch : Nat
  reclaimPending : Bool := false
  reclaimRequestedAt : Option Time := none
  ownerUserId : UserId
  deviceId : String := ""
  hasUpstream : Bool := false
  baseSha : Option Sha1 := none
  upstreamSha : Option Sha1 := none
  handoffSha : Option Sha1 := none
  cloudSha : Option Sha1 := none
  envNames : List String := []
  envSecretName : Option String := none
  lastSeq : Nat := 0
  runningExecutionId : Option ExecutionId := none
  runningResponseMessageId : Option MessageId := none
  expiresAt : Option Time := none
  stateChangedAt : Time
  updatedAt : Time
  deleteAfter : Option Time := none
  deletedAt : Option Time := none
  released : Bool := false
  restPending : Bool := false
  takeBackWhenDone : Bool := false
deriving DecidableEq, Repr

-- =============================================================== transition

/-- The `set` of a transition. The two markers stand apart because
`transition` looks for them in its text: a set without them clears them.
`columns` is the rest, computed from the row before the update. -/
structure Assignments where
  released : Bool := false
  restPending : Option Bool := none
  columns : Row → Row := id

/-- The row a transition leaves. -/
def Row.moved (row : Row) (now : Time) (target : State) (bump : Nat)
    (set : Assignments) : Row :=
  { set.columns row with
    state := target
    epoch := row.epoch + bump
    stateChangedAt :=
      if 0 < bump ∨ row.state ≠ target then now else row.stateChangedAt
    updatedAt := now
    released := set.released
    restPending := set.restPending.getD false
    takeBackWhenDone :=
      if target = .reclaiming ∨ target = .stateLocal then false
      else (set.columns row).takeBackWhenDone }

/-- `transition`: the one compare-and-set every ownership change goes
through. No row that matches is a stale epoch. -/
def transition (now : Time) (sources : List State) (epoch : Nat)
    (target : State) (bump : Nat) (set : Assignments) :
    Option Row → Except HandoffError Row
  | none => .error .staleEpoch
  | some row =>
      if row.state ∈ sources ∧ row.epoch = epoch then
        .ok (row.moved now target bump set)
      else .error .staleEpoch

/-- The device that takes the thread back; an empty id keeps the last. -/
def Row.onDevice (row : Row) (deviceId : String) : Row :=
  { row with deviceId := if deviceId = "" then row.deviceId else deviceId }

/-- A take back asked for while a cloud turn runs. -/
def Row.asked (row : Row) (now : Time) (deviceId : String) : Row :=
  { row.onDevice deviceId with
    reclaimPending := true
    reclaimRequestedAt := some (row.reclaimRequestedAt.getD now) }

/-- A release starts the return grace; that of a rest take back keeps the
one it has. -/
def Row.returned (row : Row) (now grace : Time) : Row :=
  { row with
    deleteAfter :=
      if row.restPending ∧ row.deleteAfter.isSome then row.deleteAfter
      else some (now + grace) }

/-- A cloud turn that starts. -/
def Row.running (row : Row) (executionId : ExecutionId)
    (responseMessageId : MessageId) : Row :=
  { row with
    runningExecutionId := some executionId
    runningResponseMessageId := some responseMessageId }

/-- The end of a cloud turn, as three transitions assign it. -/
def Row.turnEnded (row : Row) : Row :=
  { row with
    runningExecutionId := none
    runningResponseMessageId := none
    reclaimPending := false
    reclaimRequestedAt := none }

/-- `eraseSet`. -/
def eraseSet (now : Time) : Assignments :=
  { columns := fun row =>
      { row.turnEnded with deleteAfter := some now, expiresAt := none } }

-- ========================================================= the desktop's own

/-- `TransitionResult`. -/
structure TransitionResult where
  handoff : Row
  changed : Bool
deriving DecidableEq, Repr

/-- `Reclaim`: the take back. During a cloud turn it only asks. -/
def reclaim (now : Time) (actor : UserId) (epoch : Nat) (deviceId : String)
    (row : Option Row) : Except HandoffError TransitionResult :=
  match row with
  | none => .error .notFound
  | some current =>
      if current.ownerUserId ≠ actor then .error .notFound
      else if current.state = .cloudIdle ∧ current.epoch = epoch then do
        let row ← transition now [.cloudIdle] epoch .reclaiming 1
          { columns := fun row => row.onDevice deviceId } (some current)
        .ok ⟨row, true⟩
      else if current.state = .cloudRunning ∧ current.epoch = epoch then do
        let row ← transition now [.cloudRunning] epoch .cloudRunning 0
          { columns := fun row => row.asked now deviceId } (some current)
        .ok ⟨row, !current.reclaimPending⟩
      else if current.state = .reclaiming ∧ current.epoch = epoch + 1 then
        -- A retried take back.
        .ok ⟨current, false⟩
      else .error .staleEpoch

/-- `ReclaimRest`: the remaining turns of a release that left some, within
its return grace. `pending` is whether a local turn of the thread is open. -/
def reclaimRest (now : Time) (actor : UserId) (epoch : Nat)
    (deviceId : String) (pending : Bool) (row : Option Row) :
    Except HandoffError TransitionResult :=
  match row with
  | none => .error .notFound
  | some current =>
      if current.ownerUserId ≠ actor then .error .notFound
      else if current.state = .reclaiming ∧ current.epoch = epoch + 1
          ∧ current.restPending then
        .ok ⟨current, false⟩
      else if current.state ≠ .stateLocal ∨ current.epoch ≠ epoch then
        .error .staleEpoch
      else if ¬ (current.deletedAt = none
          ∧ ∃ t ∈ current.deleteAfter, now < t) then
        .error .erased
      else if ¬ (current.released ∧ current.restPending) then
        .error .staleEpoch
      else if pending then .error .localTurnInProgress
      else do
        let row ← transition now [.stateLocal] epoch .reclaiming 1
          { restPending := some true
            columns := fun row => row.onDevice deviceId }
          (some current)
        .ok ⟨row, true⟩

/-- `Release`: the desktop has taken the turns. -/
def release (now : Time) (actor : UserId) (epoch : Nat) (grace : Time)
    (restPending : Bool) (row : Option Row) :
    Except HandoffError TransitionResult :=
  match row with
  | none => .error .notFound
  | some current =>
      if current.ownerUserId ≠ actor then .error .notFound
      else if current.state = .stateLocal ∧ current.epoch = epoch + 1 then
        if ¬ current.released then .error .erased
        else if current.restPending ∧ ¬ restPending then .error .staleEpoch
        else .ok ⟨current, false⟩
      else if current.state = .stateLocal ∧ ¬ current.released
          ∧ epoch < current.epoch then .error .erased
      else if current.state ≠ .reclaiming ∨ current.epoch ≠ epoch then
        .error .staleEpoch
      else do
        let row ← transition now [.reclaiming] epoch .stateLocal 1
          { released := true
            restPending := some restPending
            columns := fun row => row.returned now grace }
          (some current)
        .ok ⟨row, true⟩

/-- `endedStates`. -/
def endedStates : List State :=
  [.handingOff, .cloudIdle, .cloudRunning, .reclaiming]

/-- `EraseResult`; `previous` and `handoff` are `none` for a thread that
has no row. -/
structure EraseResult where
  previous : Option Row
  handoff : Option Row
  changed : Bool
deriving DecidableEq, Repr

/-- A released row within its return grace, made due to be erased. It
keeps its epoch. -/
def Row.dueNow (row : Row) (now : Time) : Row :=
  { row with deleteAfter := some now, updatedAt := now, restPending := false }

/-- `Erase`. -/
def erase (now wall : Time) (actor : UserId) (manager : Bool)
    (row : Option Row) : Except HandoffError EraseResult :=
  match row with
  | none => .ok ⟨none, none, false⟩
  | some current =>
      if current.ownerUserId ≠ actor ∧ ¬ manager then .error .notFound
      else if current.state = .stateLocal then
        if current.deletedAt.isSome
            ∨ ∃ t ∈ current.deleteAfter, t ≤ wall then
          .ok ⟨some current, some current, false⟩
        else
          .ok ⟨some current, some (current.dueNow now), true⟩
      else do
        let row ← transition now endedStates current.epoch .stateLocal 1
          (eraseSet now) (some current)
        .ok ⟨some current, some row, true⟩

-- ============================================================== cloud turns

/-- `startCloudTurnTx`, as far as the row goes. -/
def startCloudTurn (now : Time) (epoch : Nat) (executionId : ExecutionId)
    (responseMessageId : MessageId) (row : Option Row) :
    Except HandoffError TransitionResult :=
  match row with
  | none => .error .notFound
  | some current =>
      if current.state = .cloudRunning ∧ current.epoch = epoch
          ∧ current.runningExecutionId = some executionId then
        -- A retried start of the same turn.
        .ok ⟨current, false⟩
      else if current.state = .cloudRunning ∧ current.epoch = epoch then
        .error .inProgress
      else do
        let row ← transition now [.cloudIdle] epoch .cloudRunning 0
          { columns := fun row => row.running executionId responseMessageId }
          (some current)
        .ok ⟨row, true⟩

/-- `FinishCloudTurn`: back to `CLOUD_IDLE`, or to `RECLAIMING` with a new
epoch when a take back waits. -/
def finishCloudTurn (now : Time) (epoch : Nat) (executionId : ExecutionId)
    (row : Option Row) : Except HandoffError Row :=
  match row with
  | none => .error .notFound
  | some current =>
      if current.state ≠ .cloudRunning ∨ current.epoch ≠ epoch
          ∨ current.runningExecutionId ≠ some executionId then
        .error .staleEpoch
      else if current.reclaimPending then
        transition now [.cloudRunning] epoch .reclaiming 1
          { columns := Row.turnEnded } (some current)
      else
        transition now [.cloudRunning] epoch .cloudIdle 0
          { columns := Row.turnEnded } (some current)

-- =================================================== the timed transitions

/-- The transitions of the sweeper. -/
inductive Timed
  | expireHandingOff
  | forceReclaim
  | abandonReclaim
  | abandonRestReclaim
  | expireRestReclaim
  | idleErase
  | orphanErase
deriving DecidableEq, Repr

def Timed.source : Timed → List State
  | .expireHandingOff => [.handingOff]
  | .forceReclaim => [.cloudRunning]
  | .abandonReclaim | .abandonRestReclaim | .expireRestReclaim =>
      [.reclaiming]
  | .idleErase => [.cloudIdle]
  | .orphanErase => .stateLocal :: endedStates

def Timed.target : Timed → State
  | .forceReclaim => .reclaiming
  | .abandonReclaim => .cloudIdle
  | .expireHandingOff | .abandonRestReclaim | .expireRestReclaim
  | .idleErase | .orphanErase => .stateLocal

def Timed.assignments (now : Time) : Timed → Assignments
  | .expireHandingOff | .idleErase | .orphanErase => eraseSet now
  | .forceReclaim => { columns := Row.turnEnded }
  | .abandonReclaim => {}
  | .abandonRestReclaim => { released := true, restPending := some true }
  | .expireRestReclaim => { released := true, restPending := some false }

/-- `timed`: a transition with a new epoch, of the row that still has the
epoch the sweeper read. -/
def timed (now : Time) (kind : Timed) (epoch : Nat) (row : Option Row) :
    Except HandoffError Row :=
  transition now kind.source epoch kind.target 1 (kind.assignments now) row

-- ================================================================= erasures

/-- Whether `ClaimErasures` may take the row: its erasure is due and its
lease, which is `updated_at`, is over a minute old. -/
def Row.claimable (row : Row) (now : Time) : Prop :=
  row.state = .stateLocal ∧ row.deletedAt = none
    ∧ (∃ t ∈ row.deleteAfter, t ≤ now) ∧ row.updatedAt + minute < now

instance (row : Row) (now : Time) : Decidable (row.claimable now) := by
  unfold Row.claimable
  infer_instance

/-- `MarkErased`: the row of that epoch, still due. -/
def markErased (now : Time) (epoch : Nat) (row : Row) : Row :=
  if row.state = .stateLocal ∧ row.epoch = epoch ∧ row.deletedAt = none
      ∧ ∃ t ∈ row.deleteAfter, t ≤ now then
    { row with
      deletedAt := some now
      updatedAt := now
      envSecretName := none
      envNames := [] }
  else row

-- ================================================================ the specs

/-- A transition that went through found its state and its epoch. -/
theorem transition_eq_ok {now : Time} {sources : List State} {epoch : Nat}
    {target : State} {bump : Nat} {set : Assignments} {row after : Row} :
    transition now sources epoch target bump set (some row) = .ok after
      ↔ row.state ∈ sources ∧ row.epoch = epoch
        ∧ after = row.moved now target bump set := by
  by_cases h : row.state ∈ sources ∧ row.epoch = epoch
  · rw [transition, if_pos h]
    constructor
    · intro hafter
      exact ⟨h.1, h.2, (Except.ok.inj hafter).symm⟩
    · intro ⟨_, _, hafter⟩
      rw [hafter]
  · rw [transition, if_neg h]
    constructor
    · intro hafter
      cases hafter
    · intro ⟨hstate, hepoch, _⟩
      exact absurd ⟨hstate, hepoch⟩ h

end Elitea.Handoff
