/-
The runtime tables of one execution and generation, as the repositories
under `internal/infra/db/repos` read and write them: the job, its command
outbox row, its claims, its terminal outputs, its settlement, and the
replay log with its state row.

# What stands for what

The execution, generation and command are fixed, so the columns that
repeat them are left out, and a claim is named by its attempt, which is
unique within them. A canonical event id is the command with a sequence
(`canonicalOutputEventID`), so it is that sequence here. A SHA-256 digest
is represented by what was hashed, the empty text standing for the zero
digest. A released claim keeps the reason; the time of the release is
read nowhere.
-/
import Mathlib.Data.List.Basic

namespace Elitea.Executions

abbrev Bytes := List UInt8

/-- A digest, by its preimage; the empty text is the zero digest. -/
abbrev Digest := Bytes

-- ============================================================ enumerations

inductive Capability where
  | configurationValidate
  | indexIngest
  | agentApplication
  | agentAdhoc
  | toolkitExecuteRead
  | toolkitCallTool
  | toolkitAvailableTools
  deriving DecidableEq, Repr

/-- `NodeEventCapability`. -/
def Capability.nodeEvent : Capability → Bool
  | indexIngest | agentApplication | agentAdhoc => true
  | _ => false

def Capability.agent : Capability → Bool
  | agentApplication | agentAdhoc => true
  | _ => false

def Capability.toolkit : Capability → Bool
  | toolkitExecuteRead | toolkitCallTool | toolkitAvailableTools => true
  | _ => false

inductive JobState where
  | pending
  | dispatched
  | claimed
  | running
  | settling
  | succeeded
  | failed
  | cancelled
  | quarantined
  deriving DecidableEq, Repr

/-- The states in which no worker has begun. -/
def JobState.unbegun : JobState → Bool
  | pending | dispatched | claimed => true
  | _ => false

/-- The states a settlement leaves. -/
def JobState.settled : JobState → Bool
  | settling | succeeded | failed | cancelled => true
  | _ => false

inductive DesiredState where
  | running
  | cancelled
  | draining
  | suspended
  deriving DecidableEq, Repr

inductive InvocationState where
  | notStarted
  | preparing
  | mayHaveStarted
  deriving DecidableEq, Repr

/-- How far the invocation has come. -/
def InvocationState.rank : InvocationState → Nat
  | notStarted => 0
  | preparing => 1
  | mayHaveStarted => 2

inductive RetirementCode where
  | deadlineExceeded
  | cancelled
  deriving DecidableEq, Repr

inductive ClaimAbortDisposition where
  | inputResolutionRetry
  | inputResolutionExhausted
  | inputManifestInvalid
  deriving DecidableEq, Repr

inductive ReleaseReason where
  | leaseExpired
  | workerReleased
  | settled
  | aborted (disposition : ClaimAbortDisposition)
  deriving DecidableEq, Repr

inductive RecoveryMode where
  | none
  | nodeRecovery
  | agentModelCheckpoint
  deriving DecidableEq, Repr

inductive SettlementOutcome where
  | succeeded
  | failed
  | cancelled
  | outcomeUnknown
  deriving DecidableEq, Repr

/-- `settlementJobState`. -/
def SettlementOutcome.jobState : SettlementOutcome → JobState
  | succeeded => .succeeded
  | failed => .failed
  | cancelled => .cancelled
  | outcomeUnknown => .settling

inductive PayloadType where
  | configurationValidation
  | runtimeFailure
  | indexIngestResult
  | agentExecutionResult
  | toolkitExecuteReadResult
  | toolkitAvailableToolsResult
  | toolkitCallToolResult
  deriving DecidableEq, Repr

/-- An event id: the canonical one of an output of this command, or the
one a retirement of its outbox row writes. -/
inductive EventId where
  | output (sequence : Nat)
  | retirement
  deriving DecidableEq, Repr

-- ============================================================== authority

/-- The authenticated identity of a worker. -/
structure Worker where
  workloadIdentity : String
  workloadSessionId : String
  producerId : String
  deriving DecidableEq, Repr

/-- What a worker presents with every call after its claim. -/
structure Fence where
  worker : Worker
  claimAttempt : Nat
  leaseEpoch : Nat
  token : Nat
  deriving DecidableEq, Repr

def Worker.validate (w : Worker) : Bool :=
  !w.workloadIdentity.isEmpty && !w.workloadSessionId.isEmpty
    && !w.producerId.isEmpty

/-- `Fence.Validate`. -/
def Fence.validate (f : Fence) : Bool :=
  f.worker.validate && f.claimAttempt != 0 && f.leaseEpoch != 0
    && f.token != 0

/-- The tenant and projects an execution is admitted for. -/
structure Scope where
  tenantId : String
  resourceProjectId : Int
  projectionProjectId : Int
  deriving DecidableEq, Repr

/-- A row of `execution_claims`. -/
structure Claim where
  fence : Fence
  leaseExpiresAt : Nat
  initialOutputWatermark : Nat
  recoveryMode : RecoveryMode
  released : Option ReleaseReason
  deriving DecidableEq, Repr

/-- The row of `execution_jobs`. -/
structure Job where
  scope : Scope
  capability : Capability
  state : JobState
  desired : DesiredState
  invocation : InvocationState
  terminalErrorCode : Option RetirementCode
  deriving DecidableEq, Repr

/-- The row of `command_outbox`. -/
structure Outbox where
  prepared : Option Digest
  published : Option Digest
  retired : Option RetirementCode
  authorityGranted : Bool
  deadline : Nat
  deriving DecidableEq, Repr

-- ================================================================ outputs

/-- What a settlement proposal encodes on the wire. -/
structure WireProposal where
  proposalId : String
  outcome : SettlementOutcome
  terminalLogicalOutputId : String
  terminalEventId : EventId
  terminalSequence : Nat
  terminalPayloadDigest : Digest
  idempotencyKey : String
  deriving DecidableEq, Repr

/-- A settlement proposal. Its digest is the digest of its encoding. -/
structure SettlementProposal where
  fence : Fence
  wire : WireProposal
  deriving DecidableEq, Repr

/-- A terminal output, as `outputRecord` carries it. `settlementDigest`
is `none` for the zero digest, and `occurredAt` for the zero time. -/
structure OutputRecord where
  eventId : EventId
  logicalOutputId : String
  scope : Scope
  fence : Fence
  streamId : String
  sequence : Nat
  claimHandoffWatermark : Nat
  payloadType : PayloadType
  payloadDigest : Digest
  payloadBytes : Bytes
  settlementProposalId : String
  settlementOutcome : SettlementOutcome
  settlementBytes : WireProposal
  settlementDigest : Option WireProposal
  settlementKey : String
  occurredAt : Option Nat
  deriving DecidableEq, Repr

/-- A row of `output_inbox`. The claim it came under is the one its fence
names. -/
structure OutputRow where
  record : OutputRecord
  projected : Bool
  deriving DecidableEq, Repr

/-- The row of `execution_settlements`. -/
structure Settlement where
  fence : Fence
  receiptId : String
  wire : WireProposal
  deriving DecidableEq, Repr

-- ============================================================ replay log

/-- The `type` member of a browser frame, as far as it is read. -/
inductive FrameKind where
  | fullMessage
  | hitlInterrupt
  | authorizationRequired
  | progress
  deriving DecidableEq, Repr

/-- A frame of the browser stream. -/
structure BrowserData where
  kind : FrameKind
  bytes : Bytes
  deriving DecidableEq, Repr

def BrowserData.size (data : BrowserData) : Nat := data.bytes.length

/-- `event_type` of a replay row: a node event, or what a terminal of the
payload type appends (`execution.failed` for a failure or a
retirement). -/
inductive ReplayType where
  | nodeEvent
  | terminal (payload : PayloadType)
  deriving DecidableEq, Repr

/-- A row of `execution_replay_events`. -/
structure ReplayEvent where
  cursor : Nat
  eventId : EventId
  type : ReplayType
  data : BrowserData
  createdAt : Nat
  deriving DecidableEq, Repr

/-- The latest node event, as the state row keeps it. -/
structure NodeReceipt where
  eventId : EventId
  data : BrowserData
  cursor : Nat
  deriving DecidableEq, Repr

/-- The row of `execution_replay_state`. The counters are the signed
columns they are. -/
structure ReplayState where
  lastNodeSequence : Nat
  lastNode : Option NodeReceipt
  prunedThroughCursor : Nat
  retainedProgressEvents : Int
  retainedProgressBytes : Int
  deriving DecidableEq, Repr

/-- The tables of one execution and generation. Claims are kept with the
newest first, replay events in cursor order. `nextCursor` is the identity
sequence of the replay log, which other executions draw from too. -/
structure Tables where
  job : Job
  outbox : Outbox
  claims : List Claim
  inbox : List OutputRow
  settlement : Option Settlement
  replay : Option ReplayState
  events : List ReplayEvent
  nextCursor : Nat
  deriving DecidableEq, Repr

-- ================================================================= lookups

/-- The claim a fence names: every column of the fence matches. -/
def Tables.claim (t : Tables) (fence : Fence) : Option Claim :=
  t.claims.find? fun c => c.fence == fence

/-- The unreleased claim. -/
def Tables.activeClaim (t : Tables) : Option Claim :=
  t.claims.find? fun c => c.released.isNone

/-- Update the claim of one attempt. -/
def Tables.updateClaim (t : Tables) (attempt : Nat)
    (update : Claim → Claim) : Tables :=
  { t with claims := t.claims.map fun c =>
      if c.fence.claimAttempt = attempt then update c else c }

def Claim.release (c : Claim) (reason : ReleaseReason) : Claim :=
  { c with released := some reason }

def Claim.inMode (c : Claim) (mode : RecoveryMode) : Claim :=
  { c with recoveryMode := mode }

/-- `COALESCE(MAX(claim_attempt), 0) + 1`. -/
def Tables.nextAttempt (t : Tables) : Nat :=
  (t.claims.map fun c => c.fence.claimAttempt).foldr max 0 + 1

/-- `last_node_sequence`, zero while the state row is missing. -/
def Tables.lastNodeSequence (t : Tables) : Nat :=
  match t.replay with
  | none => 0
  | some r => r.lastNodeSequence

/-- A job admitted and not yet published. -/
def admitted (scope : Scope) (capability : Capability)
    (prepared : Option Digest) (deadline : Nat) : Tables where
  job := ⟨scope, capability, .pending, .running, .notStarted, none⟩
  outbox := ⟨prepared, none, none, false, deadline⟩
  claims := []
  inbox := []
  settlement := none
  replay := none
  events := []
  nextCursor := 1

end Elitea.Executions
