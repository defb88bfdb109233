/-
What a worker sends under its fence, from `node_events.go`,
`output_inbox.go`, `replay_retention.go` and the terminal projections
(`configuration_validation_results.go`, `index_ingest_results.go`,
`agent_execution_results.go` and the toolkit results): node events, which
are appended to the replay log and pruned from it, and the terminal
output.

# Two looks at one authority

`ProjectNodeEvent` and `insertOutputInbox` lock the job, the outbox row
and the claim in a statement of its own and then decide in a second one,
which reads the clock again. So both take the time of the lock
(`lockedAt`) and the time of the decision (`now`).

# One data-modifying statement

The append of a node event is one statement whose parts share a snapshot:
it deletes what the retention bounds leave no room for, inserts the event
and updates the state row. The parts are guarded separately, and the
model keeps them so: deletion asks for the authority and for no terminal
output, insertion for a free event id as well, and the state row is
updated only if a row was inserted.
-/
import Elitea.Executions.Claims
import Mathlib.Algebra.BigOperators.Group.List.Basic
import Mathlib.Algebra.GroupWithZero.Nat

namespace Elitea.Executions

-- ================================================================= records

/-- The outcomes a payload type may settle with. -/
def PayloadType.settlesWith : PayloadType → SettlementOutcome → Bool
  | configurationValidation, .succeeded => true
  | indexIngestResult, .succeeded => true
  | indexIngestResult, .failed => true
  | indexIngestResult, .cancelled => true
  | agentExecutionResult, .succeeded => true
  | toolkitExecuteReadResult, .succeeded => true
  | toolkitAvailableToolsResult, .succeeded => true
  | toolkitCallToolResult, .succeeded => true
  | toolkitCallToolResult, .failed => true
  | runtimeFailure, .failed => true
  | runtimeFailure, .cancelled => true
  | _, _ => false

/-- `outputRecord.validate`. -/
def OutputRecord.validate (r : OutputRecord) : Bool :=
  !r.logicalOutputId.isEmpty && !r.scope.tenantId.isEmpty
    && decide (0 < r.scope.resourceProjectId)
    && decide (0 < r.scope.projectionProjectId)
    && r.fence.validate && !r.streamId.isEmpty && r.sequence != 0
    && !r.payloadDigest.isEmpty && !r.payloadBytes.isEmpty
    && !r.settlementProposalId.isEmpty && r.settlementDigest.isSome
    && !r.settlementKey.isEmpty && r.occurredAt.isSome
    && r.payloadType.settlesWith r.settlementOutcome
    && r.payloadDigest == r.payloadBytes
    && r.settlementDigest == some r.settlementBytes

/-- The deterministic encoding of a `RuntimeErrorV1`. -/
def runtimeErrorBytes (code : UInt8) (safeMessage : String)
    (retryable : Bool) : Bytes :=
  let message := textBytes safeMessage
  [0x08, code, 0x12, message.length.toUInt8] ++ message
    ++ (if retryable then [0x18, 0x01] else [])

/-- The one failure payload a passed deadline still admits. -/
def deadlineExceededBytes : Bytes :=
  runtimeErrorBytes 12 "The execution deadline was exceeded." true

/-- The payload of the canonical cancellation. -/
def cancelledBytes : Bytes :=
  runtimeErrorBytes 9 "Execution was cancelled." false

/-- `isCanonicalDeadlineOutput`. -/
def isCanonicalDeadlineOutput (r : OutputRecord) : Bool :=
  r.payloadType == .runtimeFailure && r.settlementOutcome == .failed
    && r.payloadBytes == deadlineExceededBytes
    && r.payloadDigest == deadlineExceededBytes

-- ================================================================ authority

/-- The row `lockOutputInboxAuthority` and `lockNodeEventAuthority` lock
and the second statement reads again: the fence's claim, unreleased and
unexpired, with the watermark the frame carries, of a command with
authority. -/
def outputAuthority (t : Tables) (now : Nat) (scope : Scope) (fence : Fence)
    (watermark : Nat) : Bool :=
  t.job.scope == scope
    && (match t.claim fence with
      | none => false
      | some c => c.initialOutputWatermark == watermark && c.released.isNone
          && decide (now < c.leaseExpiresAt))
    && t.outbox.retired.isNone && t.outbox.authorityGranted

-- ======================================================== terminal outputs

structure OutputInsertResult where
  inserted : Bool
  cancellationRejected : Bool
  deadlineRejected : Bool
  deriving DecidableEq, Repr

/-- `previous_sequence`: the state row stands right before the record. -/
def previousSequence (t : Tables) (r : OutputRecord) : Bool :=
  match t.replay with
  | none => false
  | some s => s.lastNodeSequence + 1 == r.sequence
      && s.lastNode.any fun node =>
          node.eventId == .output s.lastNodeSequence

/-- `conflicting_output`. -/
def conflictingOutput (t : Tables) (r : OutputRecord) : Bool :=
  t.inbox.any fun row => row.record.eventId == r.eventId
    || row.record.logicalOutputId == r.logicalOutputId
    || (row.record.fence.worker.producerId == r.fence.worker.producerId
        && row.record.sequence == r.sequence)

/-- `sequence_conflict`: the event id is taken in the replay log, or the
record does not follow the last node event. The last test is made of a
sequence above one only. -/
def sequenceConflict (t : Tables) (r : OutputRecord) : Bool :=
  (t.events.any fun e => e.eventId == r.eventId)
    || (match t.replay with
      | none => false
      | some s => s.lastNode.any fun node => node.eventId == r.eventId)
    || (decide (1 < r.sequence) && !previousSequence t r)

/-- The rows the insert's condition on the desired state lets through. -/
def admissible (t : Tables) (now : Nat) (r : OutputRecord) : Bool :=
  (t.job.desired == .running
      && (!decide (t.outbox.deadline ≤ now) || isCanonicalDeadlineOutput r))
    || (t.job.desired == .cancelled && r.payloadType == .runtimeFailure
        && r.settlementOutcome == .cancelled)

/-- A terminal that is itself a cancellation, as the classification of a
refused insert sees it. -/
def isCancellation (r : OutputRecord) : Bool :=
  r.settlementOutcome == .cancelled
    && (r.payloadType == .runtimeFailure
      || r.payloadType == .indexIngestResult)

/-- `insertOutputInbox`, holding the job, the outbox row and the claim.
The inserted row is not yet projected. -/
def insertOutputInbox (t : Tables) (lockedAt now : Nat) (r : OutputRecord) :
    Except Failure (OutputInsertResult × Tables) :=
  let authority := fun time =>
    outputAuthority t time r.scope r.fence r.claimHandoffWatermark
  let desired := t.job.desired
  if !r.validate then .error .invalidOutput
  else if !authority lockedAt then .ok (⟨false, false, false⟩, t)
  else if authority now && admissible t now r && !conflictingOutput t r
      && !sequenceConflict t r then
    .ok (⟨true, false, false⟩, { t with inbox := t.inbox ++ [⟨r, false⟩] })
  else if sequenceConflict t r then .error .outputConflict
  else .ok (⟨false,
    authority now && desired == .cancelled && !conflictingOutput t r
      && !isCancellation r,
    authority now && desired == .running
      && decide (t.outbox.deadline ≤ now) && !conflictingOutput t r
      && !isCanonicalDeadlineOutput r⟩, t)

/-- `loadExistingOutput`: the row any of the record's three identities
finds. They may not find different rows. -/
def loadExistingOutput (t : Tables) (r : OutputRecord) :
    Except Failure (Option OutputRecord) :=
  let found := [
    t.inbox.find? fun row => row.record.eventId == r.eventId,
    t.inbox.find? fun row => row.record.logicalOutputId == r.logicalOutputId,
    t.inbox.find? fun row =>
      row.record.fence.worker.producerId == r.fence.worker.producerId
        && row.record.sequence == r.sequence].filterMap id
  match found with
  | [] => .ok none
  | row :: rest =>
      if rest.all fun other => other.record.eventId == row.record.eventId then
        .ok (some row.record)
      else .error .outputConflict

/-- `sameDurableOutput`: every stored column agrees (the scope is not
stored with the output). -/
def sameDurableOutput (existing wanted : OutputRecord) : Bool :=
  { existing with scope := wanted.scope } == wanted

/-- The terminals a canonical cancellation replaces. -/
def OutputRecord.cancellable (r : OutputRecord) : Bool :=
  match r.payloadType, r.settlementOutcome with
  | .configurationValidation, .succeeded => true
  | .indexIngestResult, .succeeded => true
  | .agentExecutionResult, .succeeded => true
  | .toolkitExecuteReadResult, .succeeded => true
  | .runtimeFailure, .failed => true
  | _, _ => false

/-- The proposal of a record's canonical cancellation. -/
def OutputRecord.cancelledWire (r : OutputRecord) : WireProposal :=
  ⟨r.settlementProposalId, .cancelled, r.logicalOutputId, r.eventId,
    r.sequence, cancelledBytes, r.settlementKey⟩

/-- `canonicalCancellationOutput`. -/
def canonicalCancellationOutput (r : OutputRecord) :
    Except Failure OutputRecord :=
  if !r.validate || !r.cancellable then .error .invalidOutput
  else .ok { r with
    payloadType := .runtimeFailure
    payloadDigest := cancelledBytes
    payloadBytes := cancelledBytes
    settlementOutcome := .cancelled
    settlementBytes := r.cancelledWire
    settlementDigest := some r.cancelledWire }

/-- `sameCanonicalCancellation`. -/
def sameCanonicalCancellation (existing source : OutputRecord) : Bool :=
  match canonicalCancellationOutput source with
  | .ok cancelled => sameDurableOutput existing cancelled
  | .error _ => false

/-- `markOutputProjected`. -/
def markOutputProjected (t : Tables) (eventId : EventId) : Tables :=
  { t with inbox := t.inbox.map fun row =>
      if row.record.eventId = eventId then { row with projected := true }
      else row }

/-- The payload types whose terminal appends a replay event of its own.
An agent result is shown by its last node event, and two toolkit results
by their inbox row only. -/
def PayloadType.replayed : PayloadType → Bool
  | agentExecutionResult | toolkitCallToolResult
  | toolkitAvailableToolsResult => false
  | _ => true

/-- The projections that answer a cancellation with the canonical
cancellation; the two inbox-only ones do not. -/
def PayloadType.cancelsCanonically : PayloadType → Bool
  | toolkitCallToolResult | toolkitAvailableToolsResult => false
  | _ => true

inductive TerminalOutcome where
  | inserted
  | duplicate
  | cancelled
  deriving DecidableEq, Repr

/-- The size bounds the replay log puts on a row. -/
def BrowserData.storable (data : BrowserData) : Bool :=
  data.size != 0 && decide (data.size ≤ 65536)

/-- Project an inserted terminal: its replay event, if it has one, and
the mark. -/
def projectInserted (t : Tables) (now gap : Nat) (r : OutputRecord)
    (data : BrowserData) : Except Failure Tables :=
  if !r.payloadType.replayed then .ok (markOutputProjected t r.eventId)
  else if !data.storable then .error .inconsistent
  else .ok (markOutputProjected
    (t.appendEvent now gap r.eventId (.terminal r.payloadType) data)
    r.eventId)

/-- The last node event an agent result is shown by: it directly precedes
the result, and is of one of the three kinds that wait for it. -/
def agentTerminal (t : Tables) (r : OutputRecord) : Bool :=
  match t.replay with
  | none => false
  | some s => s.lastNodeSequence + 1 == r.sequence
      && s.lastNode.any fun node => node.data.kind != .progress

/-- What an existing row means to a record that meets it. -/
def classifyExisting (existing r : OutputRecord) :
    Except Failure TerminalOutcome :=
  if sameDurableOutput existing r then .ok .duplicate
  else if r.payloadType.cancelsCanonically
      && sameCanonicalCancellation existing r then .ok .cancelled
  else .error .outputConflict

/-- `materializeCanonicalCancellation`, in the same transaction. -/
def materializeCanonicalCancellation (t : Tables) (lockedAt now gap : Nat)
    (r : OutputRecord) (data : BrowserData) :
    Except Failure (TerminalOutcome × Tables) := do
  let cancelled ← canonicalCancellationOutput r
  let (result, t') ← insertOutputInbox t lockedAt now cancelled
  if result.inserted then
    return (.cancelled, ← projectInserted t' now gap cancelled data)
  else match ← loadExistingOutput t' cancelled with
    | none => throw .staleFence
    | some existing =>
        if sameDurableOutput existing cancelled then return (.cancelled, t')
        else throw .outputConflict

/-- The projection of a terminal once no row of it was found: insert it,
or say why it was refused. -/
def projectNewTerminal (t : Tables) (lockedAt now gap : Nat)
    (r : OutputRecord) (data : BrowserData) :
    Except Failure (TerminalOutcome × Tables) := do
  let (result, t') ← insertOutputInbox t lockedAt now r
  if result.inserted then
    return (.inserted, ← projectInserted t' now gap r data)
  else match ← loadExistingOutput t' r with
    | some existing => return (← classifyExisting existing r, t')
    | none =>
        if result.cancellationRejected && r.payloadType.cancelsCanonically then
          materializeCanonicalCancellation t' lockedAt now gap r data
        else if result.deadlineRejected then throw .deadlineExceeded
        else throw .staleFence

/-- The identity checks the output services make of a terminal frame: the
canonical event id and the execution's one logical output, and settlement
bytes that encode the frame's own proposal. -/
def canonicalTerminal (logicalOutputId : String) (r : OutputRecord) : Bool :=
  r.eventId == .output r.sequence && r.logicalOutputId == logicalOutputId
    && r.settlementBytes == r.wire

/-- A terminal projection. It first looks, without a lock, whether the
output is there already (`seen`); an agent result locks the replay state
before that, and has to find its last node event there. -/
def projectTerminal (seen t : Tables) (lockedAt now gap : Nat)
    (logicalOutputId : String) (r : OutputRecord) (data : BrowserData) :
    Except Failure (TerminalOutcome × Tables) := do
  if !r.validate || !canonicalTerminal logicalOutputId r then
    throw .invalidOutput
  else if r.payloadType == .agentExecutionResult && !agentTerminal t r then
    throw .resultMismatch
  else match ← loadExistingOutput seen r with
    | some existing => return (← classifyExisting existing r, t)
    | none => projectNewTerminal t lockedAt now gap r data

-- ============================================================== node events

/-- `replayRetentionPolicy`, with what its `validate` asks for. -/
structure RetentionPolicy where
  maxProgressEvents : Nat
  maxProgressBytes : Nat
  maxProgressAge : Nat
  events_pos : 0 < maxProgressEvents
  bytes_pos : 0 < maxProgressBytes
  age_pos : 0 < maxProgressAge

/-- `defaultReplayRetentionPolicy`, ages in milliseconds. -/
def defaultReplayRetentionPolicy : RetentionPolicy :=
  ⟨2048, 8 * 1024 * 1024, 5 * 60 * 1000, by decide, by decide, by decide⟩

def maxNodeEventOutputBytes : Nat := 64 * 1024

/-- A node event as a worker sends it. Its event id is the canonical one
of its sequence. -/
structure NodeEventFrame where
  scope : Scope
  fence : Fence
  sequence : Nat
  claimHandoffWatermark : Nat
  data : BrowserData
  deriving DecidableEq, Repr

/-- `NodeEventFrame.Validate`. -/
def NodeEventFrame.validate (f : NodeEventFrame) : Bool :=
  f.fence.validate && f.sequence != 0
    && decide (f.claimHandoffWatermark < f.sequence)
    && !f.data.bytes.isEmpty
    && decide (f.data.size ≤ maxNodeEventOutputBytes)

def NodeEventFrame.eventId (f : NodeEventFrame) : EventId :=
  .output f.sequence

/-- The retained node events. -/
def Tables.progress (t : Tables) : List ReplayEvent :=
  t.events.filter fun e => e.type == .nodeEvent

/-- Total size of a list of events. -/
def totalSize (events : List ReplayEvent) : Nat :=
  (events.map fun e => e.data.size).sum

/-- The largest cursor of a list of events, zero for none. -/
def maxCursor (events : List ReplayEvent) : Nat :=
  (events.map fun e => e.cursor).foldr max 0

/-- A node event the append of a frame of `size` bytes leaves no room
for: too old, or with too many events or bytes from it on. -/
def overRetention (policy : RetentionPolicy) (t : Tables) (now size : Nat)
    (e : ReplayEvent) : Bool :=
  let newer := t.progress.filter fun other =>
    decide (e.cursor ≤ other.cursor)
  e.type == .nodeEvent
    && (decide (e.createdAt + policy.maxProgressAge < now)
      || decide (policy.maxProgressEvents ≤ newer.length)
      || decide (policy.maxProgressBytes < totalSize newer + size))

/-- `loadDurableNodeEvent`: the row of an event id, or the receipt the
state row keeps of it. -/
def loadDurableNodeEvent (t : Tables) (eventId : EventId) :
    Option (Nat × ReplayType × BrowserData) :=
  match t.events.find? fun e => e.eventId == eventId with
  | some e => some (e.cursor, e.type, e.data)
  | none =>
      match t.replay with
      | none => none
      | some s =>
          match s.lastNode with
          | none => none
          | some node =>
              if node.eventId = eventId then
                some (node.cursor, .nodeEvent, node.data)
              else none

inductive NodeEventOutcome where
  | inserted (cursor : Nat)
  | duplicate (cursor : Nat)
  deriving DecidableEq, Repr

/-- What an event id that is taken means to a frame: `sameDurableNodeEvent`
or a conflict. A row was stored under the job's projection project. -/
def classifyDurable (t : Tables) (existing : Nat × ReplayType × BrowserData)
    (f : NodeEventFrame) : Except Failure NodeEventOutcome :=
  if t.job.scope.projectionProjectId = f.scope.projectionProjectId
      ∧ existing.2.1 = .nodeEvent ∧ existing.2.2 = f.data then
    .ok (.duplicate existing.1)
  else .error .outputConflict

/-- The row `initializeReplayExecutionState` inserts. -/
def ReplayState.initial : ReplayState := ⟨0, none, 0, 0, 0⟩

/-- The consistency `lockReplayExecutionState` asks of the row. -/
def ReplayState.consistent (s : ReplayState) : Bool :=
  (match s.lastNode with
    | none => s.lastNodeSequence == 0
    | some node => s.lastNodeSequence != 0 && node.cursor != 0
        && decide (s.prunedThroughCursor ≤ node.cursor))
    && decide (0 ≤ s.retainedProgressEvents)
    && decide (0 ≤ s.retainedProgressBytes)

/-- Delete the rows a predicate names. -/
def Tables.deleteEvents (t : Tables) (gone : ReplayEvent → Bool) : Tables :=
  { t with events := t.events.filter fun e => !gone e }

/-- The state row after an append: `deleted` went, the frame came. -/
def ReplayState.appended (s : ReplayState) (f : NodeEventFrame)
    (cursor : Nat) (deleted : List ReplayEvent) : ReplayState where
  lastNodeSequence := f.sequence
  lastNode := some ⟨f.eventId, f.data, cursor⟩
  prunedThroughCursor := max s.prunedThroughCursor (maxCursor deleted)
  retainedProgressEvents := s.retainedProgressEvents - deleted.length + 1
  retainedProgressBytes :=
    s.retainedProgressBytes - totalSize deleted + f.data.size

/-- Why an append inserted nothing, after the row was looked for again. -/
def refuseAppend (t : Tables) (now : Nat) (f : NodeEventFrame) :
    Except Failure (NodeEventOutcome × Tables) :=
  match loadDurableNodeEvent t f.eventId with
  | some existing => (classifyDurable t existing f).map fun o => (o, t)
  | none =>
      if !t.inbox.isEmpty then .error .outputConflict
      else if !(t.job.capability.nodeEvent && outputAuthority t now f.scope
          f.fence f.claimHandoffWatermark) then .error .staleFence
      else if t.job.desired = .cancelled then .error .outputCancelled
      else if t.outbox.deadline ≤ now then .error .deadlineExceeded
      else .error .staleFence

/-- The append statement, for a frame whose sequence is next; `s` is the
state row. -/
def appendNodeEvent (policy : RetentionPolicy) (t : Tables) (now gap : Nat)
    (s : ReplayState) (f : NodeEventFrame) :
    Except Failure (NodeEventOutcome × Tables) :=
  let authority := t.job.capability.nodeEvent
    && outputAuthority t now f.scope f.fence f.claimHandoffWatermark
  if authority && t.job.desired == .running
      && !decide (t.outbox.deadline ≤ now) && t.inbox.isEmpty then
    let gone := overRetention policy t now f.data.size
    let pruned := t.deleteEvents gone
    if t.events.any fun e => e.eventId == f.eventId then
      refuseAppend pruned now f
    else
      let cursor := t.nextCursor + gap
      .ok (.inserted cursor, { pruned.appendEvent now gap f.eventId
          .nodeEvent f.data with
        replay := some (s.appended f cursor (t.events.filter gone)) })
  else refuseAppend t now f

/-- The part of `ProjectNodeEvent` that runs under the locks. -/
def projectNewNodeEvent (policy : RetentionPolicy) (t : Tables)
    (lockedAt now gap : Nat) (f : NodeEventFrame) :
    Except Failure (NodeEventOutcome × Tables) :=
  if !(t.job.capability.nodeEvent && outputAuthority t lockedAt f.scope
      f.fence f.claimHandoffWatermark) then .error .staleFence
  else
    let s := t.replay.getD .initial
    let t := { t with replay := some s }
    if !s.consistent then .error .inconsistent
    else if f.sequence = s.lastNodeSequence then
      match s.lastNode with
      | none => .error .outputConflict
      | some node =>
          if node.eventId = f.eventId ∧ node.data = f.data then
            .ok (.duplicate node.cursor, t)
          else .error .outputConflict
    else if f.sequence ≠ s.lastNodeSequence + 1 then .error .outputConflict
    else appendNodeEvent policy t now gap s f

/-- `ProjectNodeEvent`. The first look for the event takes no lock
(`seen`). -/
def projectNodeEvent (policy : RetentionPolicy) (seen t : Tables)
    (lockedAt now gap : Nat) (f : NodeEventFrame) :
    Except Failure (NodeEventOutcome × Tables) :=
  if !f.validate || decide (policy.maxProgressBytes < f.data.size) then
    .error .invalidOutput
  else match loadDurableNodeEvent seen f.eventId with
    | some existing => (classifyDurable seen existing f).map fun o => (o, t)
    | none => projectNewNodeEvent policy t lockedAt now gap f

-- ================================================================= janitor

def replayJanitorMaxEventsPerExecution : Nat := 64

def replayJanitorMaxBytesPerExecution : Nat := 1024 * 1024

/-- The longest prefix whose sizes stay within a budget. -/
def withinBytes : Nat → List ReplayEvent → List ReplayEvent
  | _, [] => []
  | budget, e :: rest =>
      if e.data.size ≤ budget then
        e :: withinBytes (budget - e.data.size) rest
      else []

/-- The expired node events one pass of the janitor takes. -/
def expiredProgress (policy : RetentionPolicy) (t : Tables) (now : Nat) :
    List ReplayEvent :=
  withinBytes replayJanitorMaxBytesPerExecution
    ((t.progress.filter fun e =>
      decide (e.createdAt + policy.maxProgressAge < now)).take
        replayJanitorMaxEventsPerExecution)

/-- One execution's share of `PruneExpiredReplayProgress`. -/
def pruneExpiredReplayProgress (policy : RetentionPolicy) (t : Tables)
    (now : Nat) : Except Failure (Nat × Tables) :=
  match t.replay with
  | none => .error .staleFence
  | some s =>
      if !s.consistent then .error .inconsistent
      else
        let deleted := expiredProgress policy t now
        .ok (deleted.length, { t.deleteEvents (deleted.contains ·) with
          replay := some { s with
            prunedThroughCursor :=
              max s.prunedThroughCursor (maxCursor deleted)
            retainedProgressEvents :=
              s.retainedProgressEvents - deleted.length
            retainedProgressBytes :=
              s.retainedProgressBytes - totalSize deleted } })

end Elitea.Executions
