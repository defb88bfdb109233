/-
The tables of one thread and the transactions on them (services/
elitea-main/internal/infra/db/repos/workspace_handoffs.go and
workspace_store.go).

A transaction takes the tables to what it committed, or is refused and
leaves them alone. The operations on the ownership row are those of
`Elitea.Handoff.Row`; `begin`, `complete`, `publish` and
`retireThreadSegments` read or write the other tables too. `Op` is one
transaction with everything its statements read besides these tables: the
clocks, the conversation, and the bytes the project's other threads use.
-/
import Elitea.Handoff.LocalTurn
import Elitea.Handoff.Store
import Elitea.Lib.Runs
import Mathlib.Algebra.BigOperators.Group.List.Basic
import Mathlib.Algebra.GroupWithZero.Nat

namespace Elitea.Handoff


/-- The rows of one thread. -/
structure Thread where
  row : Option Row := none
  refs : Refs := []
  segments : List SegmentRow := []
  turns : List LocalTurn := []
deriving DecidableEq, Repr

def Thread.live (t : Thread) : List SegmentRow := liveSegments t.segments

/-- Whether a local turn is open. -/
def Thread.pending (t : Thread) (now : Time) : Bool :=
  t.turns.any fun turn => turn.pending now

/-- Every live segment superseded. -/
def Thread.superseded (t : Thread) (now : Time) : Thread :=
  { t with segments := t.segments.map (SegmentRow.superseded now) }

-- ===================================================================== send

/-- `EnvChange`. -/
structure EnvChange where
  keep : Bool
  secretName : Option String
  names : List String
deriving DecidableEq, Repr

/-- `BeginRecord`, with the id of the new handoff. -/
structure BeginRecord where
  handoffId : Nat
  actorUserId : UserId
  deviceId : String
  hasUpstream : Bool
  ttl : Time
  maxProjectWorkspaceBytes : Nat
  declaredBytes : Nat
  env : EnvChange
deriving DecidableEq, Repr

/-- A row of `chat_conversations`. -/
structure Conversation where
  localWork : Bool
  authorId : UserId
deriving DecidableEq, Repr

/-- The row a send makes of the one it found. -/
def Row.sent (row : Row) (now : Time) (record : BeginRecord) : Row :=
  { row with
    handoffId := record.handoffId
    ownerUserId := record.actorUserId
    deviceId := record.deviceId
    hasUpstream := record.hasUpstream
    expiresAt := some (now + record.ttl)
    baseSha := none
    upstreamSha := none
    handoffSha := none
    cloudSha := none
    reclaimPending := false
    reclaimRequestedAt := none
    deleteAfter := none
    deletedAt := none
    envNames := if record.env.keep then row.envNames else record.env.names
    envSecretName :=
      if record.env.keep then row.envSecretName.or record.env.secretName
      else record.env.secretName }

/-- The row of a thread's first send. -/
def Row.first (now : Time) (record : BeginRecord) : Row :=
  { handoffId := record.handoffId
    state := .handingOff
    epoch := 1
    ownerUserId := record.actorUserId
    deviceId := record.deviceId
    hasUpstream := record.hasUpstream
    envNames := record.env.names
    envSecretName := record.env.secretName
    expiresAt := some (now + record.ttl)
    stateChangedAt := now
    updatedAt := now }

/-- What `Begin` refuses of the row it locked. A cloud copy that is due to
be erased owns the thread's prefix until it is gone. -/
def sendable (now : Time) (row : Option Row) : Except HandoffError Unit :=
  match row with
  | none => .ok ()
  | some existing =>
      if existing.state.cloud then .error .executorIsCloud
      else if existing.state ≠ .stateLocal then .error .inProgress
      else if existing.deletedAt = none
          ∧ ∃ t ∈ existing.deleteAfter, t ≤ now then .error .inProgress
      else .ok ()

/-- The row after the insert or the transition of a send. -/
def sentRow (now : Time) (record : BeginRecord) (row : Option Row) :
    Except HandoffError Row :=
  match row with
  | none => .ok (Row.first now record)
  | some existing =>
      transition now [.stateLocal] existing.epoch .handingOff 1
        { columns := fun row => row.sent now record } (some existing)

/-- `Begin`: the send. It starts with no refs and nothing live. `used` is
what the project's other threads store. -/
def begin (now : Time) (conversation : Option Conversation) (used : Nat)
    (record : BeginRecord) (t : Thread) : Except HandoffError Thread :=
  match conversation with
  | none => .error .notFound
  | some conversation =>
      if conversation.authorId ≠ record.actorUserId then .error .notFound
      else if ¬ conversation.localWork then .error .notLocalWork
      else do
        sendable now t.row
        if t.pending now then .error .localTurnInProgress
        else if record.maxProjectWorkspaceBytes
            < used + record.declaredBytes then .error .quotaExceeded
        else
          let row ← sentRow now record t.row
          .ok { t.superseded now with row := some row, refs := [] }

/-- `CompleteRecord`. -/
structure CompleteRecord where
  handoffId : Nat
  actorUserId : UserId
  epoch : Nat
  handoffRef : RefName
  sha : Sha1
  takeBackWhenDone : Bool
deriving DecidableEq, Repr

/-- A completed send. -/
def Row.completed (row : Row) (takeBackWhenDone : Bool) : Row :=
  { row with
    expiresAt := none
    cloudSha := none
    takeBackWhenDone := takeBackWhenDone }

/-- `completeHandoffTx`: the snapshot's refs are stored, so the cloud owns
the thread. -/
def complete (now wall : Time) (record : CompleteRecord) (refs : Refs)
    (row : Option Row) : Except HandoffError Row :=
  match row with
  | none => .error .notFound
  | some current =>
      if current.ownerUserId ≠ record.actorUserId
          ∨ current.handoffId ≠ record.handoffId then .error .notFound
      else if current.state ≠ .handingOff ∨ current.epoch ≠ record.epoch
          ∨ ∃ t ∈ current.expiresAt, t ≤ wall then .error .staleEpoch
      else if refs.get record.handoffRef ≠ some record.sha
          ∨ refs.get .base = none
          ∨ current.hasUpstream ∧ refs.get .upstream = none then
        .error .refsMissing
      else
        transition now [.handingOff] record.epoch .cloudIdle 1
          { columns := fun row => row.completed record.takeBackWhenDone }
          (some current)

-- ================================================================== publish

/-- The writer's fence of `Publish`, over the row it locked. -/
def writerFence (caller : Caller) (epoch : Nat) (row : Row) :
    Except PublishError Unit :=
  match caller with
  | .desktop user =>
      if row.ownerUserId ≠ user then .error .notFound
      else if row.state ≠ caller.writerState ∨ row.epoch ≠ epoch then
        .error .staleEpoch
      else .ok ()
  | .cloudExecutor execution =>
      if row.state ≠ caller.writerState ∨ row.epoch ≠ epoch
          ∨ row.runningExecutionId ≠ some execution then
        .error .staleEpoch
      else .ok ()

/-- `PublishResult`. -/
structure PublishResult where
  seq : Nat
  refs : Refs
  superseded : List Nat
  replayed : Bool
deriving DecidableEq, Repr

/-- The newest live segment with these bytes, published in this epoch. -/
def replaySeq (live : List SegmentRow) (sha256 : Sha256) (epoch : Nat) :
    Option Nat :=
  ((live.filter fun s => s.sha256 = sha256 ∧ s.epoch = epoch).map
    SegmentRow.seq).max?

/-- The seq of a publish that was already applied: its segment is live in
this epoch and every ref holds what the publish moves it to. -/
def Thread.applied (t : Thread) (record : PublishRecord) : Option Nat :=
  match replaySeq t.live record.sha256 record.epoch with
  | none => none
  | some seq =>
      if record.refs.all fun ref => t.refs.get ref.name = some ref.new then
        some seq
      else none

/-- The row of the segment a publish writes. -/
def PublishRecord.segment (record : PublishRecord) (seq : Nat)
    (refs : Refs) : SegmentRow :=
  { seq := seq
    epoch := record.epoch
    kind := record.kind
    sha256 := record.sha256
    bytes := record.bytes
    prerequisites := record.prerequisites
    refs := refs
    writer := record.caller
    physicalBucket := record.physicalBucket }

/-- The thread's row after a publish: a ref the publish does not move
keeps its column. -/
def Row.published (row : Row) (now : Time) (seq : Nat)
    (refs : List RefUpdate) : Row :=
  { row with
    lastSeq := seq
    baseSha := (refValue refs .base).or row.baseSha
    upstreamSha := (refValue refs .upstream).or row.upstreamSha
    handoffSha := (refValue refs .handoff1).or row.handoffSha
    cloudSha := (refValue refs .cloud).or row.cloudSha
    updatedAt := now }

/-- The writes of a publish: a `COMPACT` supersedes what is live, the
segment is logged under the next seq with the refs it leaves, and the refs
are moved. -/
def Thread.published (t : Thread) (now : Time) (record : PublishRecord)
    (row : Row) : Thread :=
  let refs := t.refs.updated record.refs
  let seq := row.lastSeq + 1
  let earlier :=
    if record.kind = .compact then t.superseded now else t
  { t with
    row := some (row.published now seq record.refs)
    refs := refs
    segments := earlier.segments ++ [record.segment seq refs] }

/-- The bytes of the live segments. -/
def Thread.liveBytes (t : Thread) : Nat :=
  (t.live.map SegmentRow.bytes).sum

/-- What a publish checks before its writes, and the seq of one already
applied. -/
def publishCheck (record : PublishRecord) (row : Row) (t : Thread) :
    Except PublishError (Option Nat) := do
  writerFence record.caller record.epoch row
  if ¬ record.refs.all (fun ref => ref.name
      ∈ allowedRefs record.caller row.state row.hasUpstream) then
    .error .refNotAllowed
  else
    match t.applied record with
    | some seq => .ok (some seq)
    | none => do
        refConflict record.refs t.refs
        if record.kind = .push then
          pushAllowed record t.refs
            (t.live.countP fun s => s.kind = .compact)
            (t.live.countP fun s => s.kind = .push)
          .ok none
        else .ok none

/-- The transaction `Publish`. `used` is what the project's other threads
store. -/
def publish (now : Time) (used : Nat) (record : PublishRecord)
    (t : Thread) : Except PublishError (Thread × PublishResult) :=
  match t.row with
  | none => .error .notFound
  | some row => do
      match ← publishCheck record row t with
      | some seq => .ok (t, ⟨seq, t.refs, [], true⟩)
      | none =>
          let after := t.published now record row
          if 0 < record.maxProjectBytes
              ∧ record.maxProjectBytes < used + after.liveBytes then
            .error .quotaExceeded
          else
            let superseded :=
              if record.kind = .compact then t.live.map SegmentRow.seq
              else []
            .ok (after, ⟨row.lastSeq + 1, after.refs, superseded, false⟩)

/-- `RetireThreadSegments`. -/
def retireThreadSegments (now : Time) (t : Thread) : Thread :=
  { t with
    refs := []
    segments := t.segments.map fun s =>
      { s.superseded now with
        objectDeletedAt := some (s.objectDeletedAt.getD now) } }

-- ==================================================================== plans

/-- One transaction, with what it reads besides the thread's tables. -/
inductive Op
  | begin (conversation : Option Conversation) (used : Nat)
      (record : BeginRecord)
  | complete (record : CompleteRecord)
  | reclaim (actor : UserId) (epoch : Nat) (deviceId : String)
  | reclaimRest (actor : UserId) (epoch : Nat) (deviceId : String)
  | release (actor : UserId) (epoch : Nat) (grace : Time)
      (restPending : Bool)
  | erase (actor : UserId) (manager : Bool)
  | startCloudTurn (epoch : Nat) (executionId : ExecutionId)
      (responseMessageId : MessageId)
  | finishCloudTurn (epoch : Nat) (executionId : ExecutionId)
  | timed (kind : Timed) (epoch : Nat)
  | claimErasure
  | markErased (epoch : Nat)
  | publish (used : Nat) (maxProjectBytes : Int) (physicalBucket : String)
      (request : PublishRequest)
  | retireThreadSegments
deriving DecidableEq, Repr

/-- The operations that take the thread's advisory lock exclusively. -/
def Op.locksThread : Op → Bool
  | .begin .. | .reclaimRest .. => true
  | _ => false

/-- The transaction of a request that `validatePublish` let through. -/
def PublishRequest.record (request : PublishRequest) (kind : SegmentKind)
    (maxPushChain maxProjectBytes : Int) (physicalBucket : String) :
    PublishRecord :=
  { caller := request.caller
    epoch := request.epoch
    kind := kind
    sha256 := request.sha256
    bytes := request.bytes
    prerequisites := request.prerequisites
    refs := request.refs
    physicalBucket := physicalBucket
    maxPushChain := maxPushChain
    maxProjectBytes := maxProjectBytes }

/-- `Service.Publish`: the request is checked, then the transaction runs. -/
def publishRequest (now : Time) (used : Nat)
    (maxPushChain maxProjectBytes : Int) (physicalBucket : String)
    (request : PublishRequest) (t : Thread) :
    Except PublishError (Thread × PublishResult) := do
  let kind ← validatePublish request
  publish now used
    (request.record kind maxPushChain maxProjectBytes physicalBucket) t

/-- The row written back. -/
def Thread.withRow (t : Thread) (row : Row) : Thread :=
  { t with row := some row }

/-- What a transaction commits; `none` when it is refused. -/
def Op.exec (maxPushChain : Int) (now wall : Time) (t : Thread) :
    Op → Option Thread
  | .begin conversation used record =>
      (Handoff.begin now conversation used record t).toOption
  | .complete record =>
      (Handoff.complete now wall record t.refs t.row).toOption.map t.withRow
  | .reclaim actor epoch deviceId =>
      (Handoff.reclaim now actor epoch deviceId t.row).toOption.map
        fun r => t.withRow r.handoff
  | .reclaimRest actor epoch deviceId =>
      (Handoff.reclaimRest now actor epoch deviceId (t.pending now)
        t.row).toOption.map fun r => t.withRow r.handoff
  | .release actor epoch grace restPending =>
      (Handoff.release now actor epoch grace restPending
        t.row).toOption.map fun r => t.withRow r.handoff
  | .erase actor manager =>
      (Handoff.erase now wall actor manager t.row).toOption.map
        fun r => { t with row := r.handoff }
  | .startCloudTurn epoch executionId responseMessageId =>
      (Handoff.startCloudTurn now epoch executionId responseMessageId
        t.row).toOption.map fun r => t.withRow r.handoff
  | .finishCloudTurn epoch executionId =>
      (Handoff.finishCloudTurn now epoch executionId t.row).toOption.map
        t.withRow
  | .timed kind epoch =>
      (Handoff.timed now kind epoch t.row).toOption.map t.withRow
  | .claimErasure =>
      t.row.bind fun row =>
        if row.claimable now then some (t.withRow { row with updatedAt := now })
        else none
  | .markErased epoch =>
      some { t with row := t.row.map (Handoff.markErased now epoch) }
  | .publish used maxProjectBytes physicalBucket request =>
      (publishRequest now used maxPushChain maxProjectBytes physicalBucket
        request t).toOption.map Prod.fst
  | .retireThreadSegments => some (Handoff.retireThreadSegments now t)

/-- A transaction as it is scheduled: when the clocks show what. -/
structure Txn where
  now : Time
  wall : Time
  op : Op
deriving DecidableEq, Repr

/-- The thread after one transaction; a refused one leaves it alone. -/
def Thread.after (maxPushChain : Int) (t : Thread) (x : Txn) : Thread :=
  (x.op.exec maxPushChain x.now x.wall t).getD t

/-- The thread after a sequence of transactions. -/
def Thread.run (maxPushChain : Int) (t : Thread) (xs : List Txn) :
    Thread :=
  xs.foldl (Thread.after maxPushChain) t

end Elitea.Handoff
