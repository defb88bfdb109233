/-
The authority of an execution, from `claims.go`, `settlements.go`,
`node_recovery_claim.go` and the no-authority retirement of
`command_outbox.go`: who may claim the job, begin it, invoke it, keep or
give back the claim, and settle it.

# How a statement is modelled

Each function is what the transaction does once it holds its rows: the
tables it is given are the committed ones, and a failure rolls back, so
it returns no tables. Where a statement evaluates a condition before it
waits for a row (`RenewLease`, `ReleaseClaim`, `AbortClaim` are single
statements that join the job without locking it), the function is given
what the statement saw as well (`seen`), and the times of its two looks
at the claim: PostgreSQL re-evaluates the condition only on a row that
was changed while the statement waited.

# What is taken from outside

`ClaimEnv` holds what `ClaimValidation` reads from the tables of other
components (the interrupt wakes, the node-recovery visits, the workload
session) and the fence token it draws.
-/
import Mathlib.Data.List.MinMax
import Elitea.Executions.Tables

namespace Elitea.Executions

/-- What a call can fail with. `inconsistent` is an internal error, which
the repositories wrap as an unavailable dependency. -/
inductive Failure where
  | invalidClaim
  | invalidFence
  | staleFence
  | leaseExpired
  | invalidSettlement
  | settlementConflict
  | terminalOutputNotReady
  | invalidOutput
  | outputConflict
  | outputCancelled
  | resultMismatch
  | deadlineExceeded
  | invalidEventStream
  | inconsistent
  deriving DecidableEq, Repr

-- ================================================================= requests

structure ClaimRequest where
  nodeRecovery : Bool
  agentModelCheckpointRecovery : Bool
  fanoutInterruptDecisions : Bool
  fanoutDelegatedCredentials : Bool
  capability : Capability
  signedEnvelopeDigest : Digest
  worker : Worker
  deriving DecidableEq, Repr

/-- The argument check `ClaimValidation` starts with. -/
def ClaimRequest.validate (r : ClaimRequest) : Bool :=
  !(r.nodeRecovery
      && (r.agentModelCheckpointRecovery || !r.capability.agent))
    && !r.signedEnvelopeDigest.isEmpty && r.worker.validate

/-- `status` of a node-recovery visit. -/
inductive VisitStatus where
  | suspended
  | authorized
  | stopped
  | resumed
  deriving DecidableEq, Repr

/-- `nodeRecoveryClaimVisit.matches`. -/
def VisitStatus.matches (v : VisitStatus) (desired : DesiredState) : Bool :=
  (desired == .suspended && (v == .suspended || v == .authorized))
    || (desired == .running && v == .stopped)

/-- What a claim reads from outside these tables, and its token. -/
structure ClaimEnv where
  wakeCredentials : Bool
  fanoutWake : Bool
  visit : Option VisitStatus
  sessionLive : Bool
  token : Nat
  leaseTtl : Nat
  deriving DecidableEq, Repr

inductive ClaimDisposition where
  | recoverNodeVisit
  | recoverAgentModelCheckpoint
  | accepted
  | recoverTerminalAck
  | recoverSettlement
  | obsoleteAck
  | activeLeaseNoAck
  | retryLaterNoAck
  | retiredAck
  | recoverRunningNoAck
  | recoverAmbiguousInvocationNoAck
  deriving DecidableEq, Repr

structure SettlementReceipt where
  id : String
  outcome : SettlementOutcome
  deriving DecidableEq, Repr

inductive SettlementRecovery where
  | proposal (p : SettlementProposal)
  | receipt (r : SettlementReceipt)
  deriving DecidableEq, Repr

/-- The lease a decision names. -/
structure Lease where
  fence : Fence
  expiresAt : Nat
  deriving DecidableEq, Repr

structure ClaimDecision where
  disposition : ClaimDisposition
  desired : DesiredState
  lease : Option Lease
  watermark : Nat
  recovery : Option SettlementRecovery
  deriving DecidableEq, Repr

/-- A decision that names no lease. -/
def ClaimDecision.leaseless (disposition : ClaimDisposition)
    (desired : DesiredState) : ClaimDecision :=
  ⟨disposition, desired, none, 0, none⟩

-- =============================================================== retirement

/-- The bytes of a text. -/
def textBytes (s : String) : Bytes := s.toUTF8.toList

/-- The replay event a retirement appends. -/
def retirementData : RetirementCode → BrowserData
  | .deadlineExceeded => ⟨.progress, textBytes
      "\x7b\"code\":\"DEADLINE_EXCEEDED\",\"safe_message\":\"The execution deadline was exceeded before worker authority was granted.\",\"retryable\":true\x7d"⟩
  | .cancelled => ⟨.progress, textBytes
      "\x7b\"code\":\"CANCELLED\",\"safe_message\":\"Execution was cancelled.\",\"retryable\":false\x7d"⟩

/-- Append a row to the replay log. The identity sequence may have moved
on by `gap` rows of other executions. -/
def Tables.appendEvent (t : Tables) (now gap : Nat) (eventId : EventId)
    (type : ReplayType) (data : BrowserData) : Tables :=
  { t with
    events := t.events ++ [⟨t.nextCursor + gap, eventId, type, data, now⟩]
    nextCursor := t.nextCursor + gap + 1 }

/-- `retireLockedNoAuthorityValidation`: retire a command no worker was
ever given, cancelled or past its deadline. -/
def retireLockedNoAuthorityValidation (t : Tables) (now gap : Nat) :
    Option Tables :=
  let code : RetirementCode :=
    if t.job.desired = .cancelled then .cancelled else .deadlineExceeded
  if t.outbox.retired.isNone && !t.outbox.authorityGranted
      && (t.job.state == .pending || t.job.state == .dispatched)
      && (t.job.desired == .cancelled || decide (t.outbox.deadline ≤ now))
      && t.claims.isEmpty then
    let job := match code with
      | .cancelled =>
          { t.job with state := .cancelled, terminalErrorCode := none }
      | .deadlineExceeded =>
          { t.job with state := .failed,
                       terminalErrorCode := some .deadlineExceeded }
    some (({ t with
      outbox := { t.outbox with retired := some code }, job }).appendEvent
        now gap .retirement (.terminal .runtimeFailure)
        (retirementData code))
  else none

/-- `retiredClaimDecision`. -/
def retiredClaimDecision (job : Job) (code : RetirementCode)
    (authorityGranted preparedMatches publishedMatches : Bool) :
    Except Failure ClaimDecision :=
  if authorityGranted || !preparedMatches || !publishedMatches then
    .error .invalidClaim
  else match code with
    | .deadlineExceeded =>
        if job.state ≠ .failed
            || job.terminalErrorCode ≠ some .deadlineExceeded then
          .error .invalidClaim
        else .ok (.leaseless .retiredAck job.desired)
    | .cancelled =>
        if job.desired ≠ .cancelled || job.state ≠ .cancelled
            || job.terminalErrorCode.isSome then .error .invalidClaim
        else .ok (.leaseless .obsoleteAck .cancelled)

-- ======================================================== terminal recovery

/-- The proposal the columns of a terminal row encode. -/
def OutputRecord.wire (r : OutputRecord) : WireProposal :=
  ⟨r.settlementProposalId, r.settlementOutcome, r.logicalOutputId,
    r.eventId, r.sequence, r.payloadDigest, r.settlementKey⟩

/-- `SettlementProposal.Validate`, the fence apart. -/
def WireProposal.validate (w : WireProposal) : Bool :=
  !w.proposalId.isEmpty && !w.terminalLogicalOutputId.isEmpty
    && w.terminalSequence != 0 && !w.terminalPayloadDigest.isEmpty
    && !w.idempotencyKey.isEmpty

/-- The claim a terminal row came under. -/
def Tables.sourceClaim (t : Tables) (row : OutputRow) : Option Claim :=
  t.claims.find? fun c =>
    c.fence.claimAttempt == row.record.fence.claimAttempt

/-- The claim a terminal row came under ended by expiry. -/
def Tables.sourceExpired (t : Tables) (row : OutputRow) : Bool :=
  match t.sourceClaim row with
  | some c => c.released == some .leaseExpired
  | none => false

/-- A holder of `fence` may settle the terminal row: it produced it, or
an earlier claim did whose lease expired. -/
def Tables.handedTo (t : Tables) (fence : Fence) (row : OutputRow) : Bool :=
  ((t.sourceClaim row).isSome && row.record.fence == fence)
    || (decide (row.record.fence.claimAttempt < fence.claimAttempt)
        && t.sourceExpired row)

/-- `loadTerminalSettlementRecovery`: the latest projected terminal the
holder may settle, as a proposal under its own fence. -/
def loadTerminalSettlementRecovery (t : Tables) (fence : Fence) :
    Except Failure (Option (SettlementProposal × Nat)) :=
  match (t.inbox.filter fun row => row.projected && t.handedTo fence row).argmax
      (fun row => row.record.sequence) with
  | none => .ok none
  | some row =>
      if row.record.sequence ≠ 0 && fence.validate && row.record.wire.validate
          && row.record.settlementBytes == row.record.wire
          && row.record.settlementDigest == some row.record.wire then
        .ok (some (⟨fence, row.record.wire⟩,
          row.record.claimHandoffWatermark))
      else .error .invalidClaim

/-- `hasDurableTerminalOutput`. -/
def hasDurableTerminalOutput (t : Tables) : Bool :=
  t.inbox.any fun row => row.projected

/-- `hasExpiredPredecessorTerminalOutput`. -/
def hasExpiredPredecessorTerminalOutput (t : Tables) : Bool :=
  t.inbox.any fun row => row.projected && t.sourceExpired row

/-- `hasExpiredPredecessorClaim`. -/
def hasExpiredPredecessorClaim (t : Tables) : Bool :=
  t.claims.any fun c => c.released == some .leaseExpired

/-- The payload types `completeToolkitInboxProjection` marks. -/
def inboxOnlyPayload : Capability → Option PayloadType
  | .toolkitCallTool => some .toolkitCallToolResult
  | .toolkitAvailableTools => some .toolkitAvailableToolsResult
  | _ => none

/-- `completeToolkitInboxProjection`. -/
def completeToolkitInboxProjection (t : Tables) (capability : Capability) :
    Tables :=
  match inboxOnlyPayload capability with
  | none => t
  | some payload =>
      { t with inbox := t.inbox.map fun row =>
          if row.record.payloadType = payload then
            { row with projected := true }
          else row }

-- ============================================================ node recovery

/-- `setNodeRecoveryClaimMode`: put the lease's claim into a recovery
mode, under every condition of the statement. -/
def setNodeRecoveryClaimMode (t : Tables) (now : Nat) (env : ClaimEnv)
    (lease : Lease) (desired : DesiredState) (mode : RecoveryMode) :
    Except Failure Tables :=
  match t.claim lease.fence with
  | none => .error .staleFence
  | some c =>
      if c.released.isNone && decide (now < c.leaseExpiresAt)
          && (c.recoveryMode == .none || c.recoveryMode == .nodeRecovery
            || (mode == .agentModelCheckpoint
                && c.recoveryMode == .agentModelCheckpoint)
            || (mode == .nodeRecovery && desired == .suspended
                && c.recoveryMode == .agentModelCheckpoint))
          && t.job.state == .running && t.job.desired == desired
          && t.job.capability.agent
          && (mode == .nodeRecovery || t.job.invocation == .mayHaveStarted)
          && t.outbox.retired.isNone && t.outbox.authorityGranted
          && decide (now < t.outbox.deadline) && env.sessionLive
          && t.inbox.isEmpty then
        .ok (t.updateClaim c.fence.claimAttempt
          (·.inMode mode))
      else .error .staleFence

/-- `nodeCheckpointInspectionEligible`. -/
def nodeCheckpointInspectionEligible (desired : DesiredState)
    (invocation : InvocationState) (disposition : ClaimDisposition) : Bool :=
  desired == .running && invocation == .mayHaveStarted
    && (disposition == .recoverAmbiguousInvocationNoAck
      || disposition == .recoverRunningNoAck)

/-- `selectNodeCheckpointInspection`. -/
def selectNodeCheckpointInspection (t : Tables) (now : Nat) (env : ClaimEnv)
    (lease : Lease) (decision : ClaimDecision) :
    Except Failure (ClaimDecision × Tables) := do
  let t ← setNodeRecoveryClaimMode t now env lease decision.desired
    .agentModelCheckpoint
  return ({ decision with disposition := .recoverAgentModelCheckpoint }, t)

/-- `selectNodeRecoveryClaim`. -/
def selectNodeRecoveryClaim (t : Tables) (now : Nat)
    (request : ClaimRequest) (env : ClaimEnv) (lease : Lease)
    (decision : ClaimDecision) : Except Failure (ClaimDecision × Tables) :=
  let eligible := nodeCheckpointInspectionEligible decision.desired
    t.job.invocation decision.disposition
  if !request.capability.agent then .error .invalidClaim
  else match env.visit with
    | none =>
        if eligible then
          selectNodeCheckpointInspection t now env lease decision
        else .ok (decision, t)
    | some visit =>
        if visit == .resumed && eligible then
          selectNodeCheckpointInspection t now env lease decision
        else if !visit.matches decision.desired then .error .invalidClaim
        else do
          let t ← setNodeRecoveryClaimMode t now env lease decision.desired
            .nodeRecovery
          return ({ decision with disposition := .recoverNodeVisit }, t)

-- ================================================================== claiming

/-- The answer to the worker whose own claim is live. -/
def claimHeld (t : Tables) (now : Nat) (request : ClaimRequest)
    (env : ClaimEnv) (c : Claim) :
    Except Failure (ClaimDecision × Tables) := do
  let lease : Lease := ⟨c.fence, c.leaseExpiresAt⟩
  let desired := t.job.desired
  match ← loadTerminalSettlementRecovery t c.fence with
  | some (proposal, watermark) =>
      return (⟨.recoverTerminalAck, desired, some lease, watermark,
        some (.proposal proposal)⟩, t)
  | none =>
      if request.capability.nodeEvent then
        let running := t.job.state == .running
        let decision : ClaimDecision :=
          ⟨if running then .recoverRunningNoAck else .activeLeaseNoAck,
            desired, some lease, c.initialOutputWatermark, none⟩
        if request.nodeRecovery && running
            && (desired == .running || desired == .suspended) then
          selectNodeRecoveryClaim t now request env lease decision
        else return (decision, t)
      else
        return (⟨.activeLeaseNoAck, desired, some lease, 0, none⟩, t)

/-- Why a claim without a live predecessor may be granted although it may
not run: the switches `terminalRecoveryOnly`, `runningRecoveryOnly` and
`nodeRecoveryOnly`. -/
structure RecoveryOnly where
  terminal : Bool
  running : Bool
  node : Bool
  deriving DecidableEq, Repr

def RecoveryOnly.any (o : RecoveryOnly) : Bool :=
  o.terminal || o.running || o.node

/-- The three switches. A receipt of a suspended job that does not match
is an error. -/
def recoveryOnly (t : Tables) (request : ClaimRequest) (env : ClaimEnv) :
    Except Failure RecoveryOnly :=
  let cancelled := t.job.desired == .cancelled
  let terminal := cancelled && hasExpiredPredecessorTerminalOutput t
  let running := cancelled && !terminal && request.capability.nodeEvent
    && t.job.state == .running && hasExpiredPredecessorClaim t
  if request.nodeRecovery && t.job.desired == .suspended
      && t.job.state == .running && request.capability.agent then
    match env.visit with
    | none => .ok ⟨terminal, running, false⟩
    | some visit =>
        if visit.matches .suspended then .ok ⟨terminal, running, true⟩
        else .error .invalidClaim
  else .ok ⟨terminal, running, false⟩

/-- The claim a grant inserts. -/
def newClaim (t : Tables) (now : Nat) (request : ClaimRequest)
    (env : ClaimEnv) : Claim :=
  ⟨⟨request.worker, t.nextAttempt, t.nextAttempt, env.token⟩,
    now + env.leaseTtl, t.lastNodeSequence, .none, none⟩

/-- Insert the new claim and mark a waiting job claimed. -/
def insertClaim (t : Tables) (now : Nat) (request : ClaimRequest)
    (env : ClaimEnv) : Tables :=
  { t with
    claims := newClaim t now request env :: t.claims
    job := { t.job with state :=
      if t.job.state == .pending || t.job.state == .dispatched then .claimed
      else t.job.state } }

/-- What a new claim is told, `state` and `invocation` being those the
job was locked with. -/
def grantDisposition (t : Tables) (request : ClaimRequest)
    (state : JobState) (invocation : InvocationState) (only : RecoveryOnly)
    (c : Claim) : Except Failure (ClaimDecision × Tables) := do
  let desired := t.job.desired
  let told (disposition : ClaimDisposition) (watermark : Nat)
      (recovery : Option SettlementRecovery) : ClaimDecision :=
    ⟨disposition, desired, some ⟨c.fence, c.leaseExpiresAt⟩, watermark,
      recovery⟩
  if state.settled then
    match t.settlement with
    | some s =>
        return (told .recoverSettlement c.initialOutputWatermark
          (some (.receipt ⟨s.receiptId, s.wire.outcome⟩)), t)
    | none => return (told .activeLeaseNoAck c.initialOutputWatermark none, t)
  else
    match ← loadTerminalSettlementRecovery t c.fence with
    | some (proposal, watermark) =>
        return (told .recoverTerminalAck watermark
          (some (.proposal proposal)), t)
    | none =>
        if only.terminal then throw .inconsistent
        else if only.running then
          return (told .recoverRunningNoAck c.initialOutputWatermark none, t)
        else if hasDurableTerminalOutput t then
          return (told .retryLaterNoAck c.initialOutputWatermark none, t)
        else if (request.capability.nodeEvent || request.capability.toolkit)
            && state == .running && invocation != .preparing then
          if request.agentModelCheckpointRecovery
              && request.capability.agent
              && invocation == .mayHaveStarted then
            return (told .recoverAgentModelCheckpoint
                c.initialOutputWatermark none,
              t.updateClaim c.fence.claimAttempt
                (·.inMode .agentModelCheckpoint))
          else
            return (told .recoverAmbiguousInvocationNoAck
              c.initialOutputWatermark none, t)
        else return (told .accepted c.initialOutputWatermark none, t)

/-- The node-recovery selection a new claim ends with. -/
def selectAfterGrant (now : Nat) (request : ClaimRequest) (env : ClaimEnv)
    (state : JobState) (c : Claim) (granted : ClaimDecision × Tables) :
    Except Failure (ClaimDecision × Tables) :=
  let (decision, t) := granted
  if request.nodeRecovery && state == .running
      && (decision.desired == .suspended || decision.desired == .running)
      && (decision.disposition == .accepted
        || decision.disposition == .recoverAmbiguousInvocationNoAck) then
    selectNodeRecoveryClaim t now request env
      ⟨c.fence, c.leaseExpiresAt⟩ decision
  else .ok (decision, t)

/-- Grant the command's authority if it has none, insert the claim and
decide what its holder is told. -/
def grantClaim (t : Tables) (now gap : Nat) (request : ClaimRequest)
    (env : ClaimEnv) (only : RecoveryOnly) :
    Except Failure (ClaimDecision × Tables) :=
  if !t.outbox.authorityGranted && !decide (now < t.outbox.deadline) then
    match retireLockedNoAuthorityValidation t now gap with
    | some t' => .ok (.leaseless .retiredAck t.job.desired, t')
    | none => .error .invalidClaim
  else if env.token = 0 then .error .inconsistent
  else
    let c := newClaim t now request env
    grantDisposition
        (insertClaim { t with
          outbox := { t.outbox with authorityGranted := true } }
          now request env)
        request t.job.state t.job.invocation only c
      >>= selectAfterGrant now request env t.job.state c

/-- The claim of a job no unexpired claim holds. -/
def claimFree (t : Tables) (now gap : Nat) (request : ClaimRequest)
    (env : ClaimEnv) : Except Failure (ClaimDecision × Tables) :=
  let retry : ClaimDecision := .leaseless .retryLaterNoAck t.job.desired
  if t.job.desired == .cancelled
      && (t.job.state == .pending || t.job.state == .dispatched) then
    .ok (retry, t)
  else do
    let only ← recoveryOnly t request env
    if t.job.desired != .running && !only.any then return (retry, t)
    else if !request.fanoutInterruptDecisions && !request.nodeRecovery
        && !request.agentModelCheckpointRecovery && !only.any
        && request.capability.agent && env.fanoutWake then
      return (retry, t)
    else grantClaim t now gap request env only

/-- The claim of a published, unretired command, once it has looked at
the unreleased claim (at `observedAt`). -/
def claimPublished (t : Tables) (now observedAt gap : Nat)
    (request : ClaimRequest) (env : ClaimEnv) :
    Except Failure (ClaimDecision × Tables) :=
  match t.activeClaim with
  | none => claimFree t now gap request env
  | some c =>
      if observedAt < c.leaseExpiresAt then
        if c.fence.worker ≠ request.worker then
          .ok (.leaseless .retryLaterNoAck t.job.desired, t)
        else claimHeld t now request env c
      else claimFree
        (t.updateClaim c.fence.claimAttempt fun c => c.release .leaseExpired)
        now gap request env

/-- What `ClaimValidation` answers from the job and its outbox row alone,
if it answers before it looks for a claim. -/
def claimEarly (t : Tables) (now gap : Nat) (request : ClaimRequest)
    (env : ClaimEnv) : Option (Except Failure (ClaimDecision × Tables)) :=
  let job := t.job
  let outbox := t.outbox
  let retry : ClaimDecision := .leaseless .retryLaterNoAck job.desired
  let preparedMatches := outbox.prepared == some request.signedEnvelopeDigest
  let publishedMatches :=
    outbox.published.isNone || outbox.published == outbox.prepared
  if !request.validate || request.capability ≠ job.capability then
    some (.error .invalidClaim)
  else match outbox.retired with
    | some code =>
        some ((retiredClaimDecision job code outbox.authorityGranted
          preparedMatches publishedMatches).map fun d => (d, t))
    | none =>
        if outbox.prepared.isNone then some (.ok (retry, t))
        else if !preparedMatches || !publishedMatches then
          some (.error .invalidClaim)
        else if !outbox.authorityGranted
            && (job.state == .pending || job.state == .dispatched)
            && (job.desired == .cancelled
              || decide (outbox.deadline ≤ now)) then
          match retireLockedNoAuthorityValidation t now gap with
          | some t' =>
              if job.desired = .cancelled then
                some (.ok (.leaseless .obsoleteAck .cancelled, t'))
              else some (.ok (.leaseless .retiredAck job.desired, t'))
          | none => some (.ok (retry, t))
        else if outbox.published.isNone then some (.ok (retry, t))
        else if job.state = .quarantined then some (.ok (retry, t))
        else if job.desired = .cancelled ∧ job.state = .cancelled then
          some (.ok (.leaseless .obsoleteAck .cancelled, t))
        else if env.wakeCredentials && !request.fanoutDelegatedCredentials then
          some (.ok (retry, completeToolkitInboxProjection t
            request.capability))
        else none

/-- `ClaimValidation`, holding the job, its outbox row and, where it gets
that far, the unreleased claim. -/
def claimValidation (t : Tables) (now observedAt gap : Nat)
    (request : ClaimRequest) (env : ClaimEnv) :
    Except Failure (ClaimDecision × Tables) :=
  match claimEarly t now gap request env with
  | some answer => answer
  | none => claimPublished
      (completeToolkitInboxProjection t request.capability)
      now observedAt gap request env

-- ===================================================== beginning, invoking

inductive BeginDisposition where
  | startedNow
  | alreadyStarted
  deriving DecidableEq, Repr

inductive AuthorizeDisposition where
  | authorizedNow
  | alreadyAuthorized
  deriving DecidableEq, Repr

/-- The authority `BeginExecution` and `AuthorizeInvocation` lock: the
fence's claim, unreleased, not held by node recovery, and live at the
statement's own time. -/
def startAuthority (t : Tables) (since : Nat) (fence : Fence) :
    Except Failure Unit :=
  if !fence.validate then .error .invalidFence
  else match t.claim fence with
    | none => .error .staleFence
    | some c =>
        if c.released.isSome || c.recoveryMode == .nodeRecovery then
          .error .staleFence
        else if c.leaseExpiresAt ≤ since then .error .leaseExpired
        else .ok ()

/-- `BeginExecution`. -/
def beginExecution (t : Tables) (since : Nat) (fence : Fence) :
    Except Failure (BeginDisposition × Tables) := do
  startAuthority t since fence
  if t.job.desired ≠ .running then throw .staleFence
  else match t.job.state, t.job.invocation with
    | .running, .preparing => return (.startedNow, t)
    | .running, .mayHaveStarted => return (.alreadyStarted, t)
    | .claimed, .notStarted =>
        return (.startedNow, { t with
          job := { t.job with state := .running, invocation := .preparing } })
    | _, _ => throw .staleFence

/-- `AuthorizeInvocation`. -/
def authorizeInvocation (t : Tables) (since : Nat) (fence : Fence) :
    Except Failure (AuthorizeDisposition × Tables) := do
  startAuthority t since fence
  if t.job.state ≠ .running || t.job.desired ≠ .running then
    throw .staleFence
  else match t.job.invocation with
    | .mayHaveStarted => return (.alreadyAuthorized, t)
    | .preparing =>
        return (.authorizedNow, { t with
          job := { t.job with invocation := .mayHaveStarted } })
    | .notStarted => throw .staleFence

-- ============================================== keeping, giving back, aborting

/-- The claim a single statement under a fence updates. It matched when
the statement began (`seen`, at `since`); if the row was changed while
the statement waited for it, it is matched again, at `again`. -/
def fencedClaim (seen t : Tables) (since again : Nat) (fence : Fence) :
    Option Claim :=
  match seen.claim fence with
  | none => none
  | some c₀ =>
      if c₀.released.isNone && decide (since < c₀.leaseExpiresAt) then
        match t.claim fence with
        | none => none
        | some c =>
            if c = c₀ ∨ (c.released.isNone = true
                ∧ again < c.leaseExpiresAt) then some c
            else none
      else none

/-- `RenewLease`: the clock is read once, in a materialised subquery. -/
def renewLease (seen t : Tables) (since : Nat) (fence : Fence)
    (leaseTtl : Nat) : Except Failure Tables :=
  if !fence.validate then .error .invalidFence
  else match fencedClaim seen t since since fence with
    | none => .error .staleFence
    | some c => .ok (t.updateClaim c.fence.claimAttempt
        fun c => { c with leaseExpiresAt := since + leaseTtl })

/-- `ReleaseClaim`. -/
def releaseClaim (seen t : Tables) (since again : Nat) (fence : Fence) :
    Except Failure Tables :=
  if !fence.validate then .error .invalidFence
  else match fencedClaim seen t since again fence with
    | none => .error .staleFence
    | some c => .ok (t.updateClaim c.fence.claimAttempt
        fun c => c.release .workerReleased)

/-- The state an aborted job goes to. -/
def ClaimAbortDisposition.nextState : ClaimAbortDisposition → JobState
  | inputResolutionRetry => .dispatched
  | inputResolutionExhausted | inputManifestInvalid => .quarantined

/-- `AbortClaim`. The job is joined, not locked, so that it is CLAIMED is
read from what the statement saw; the update of the job that follows
names the job only, and is applied to whatever it has become. -/
def abortClaim (seen t : Tables) (since again : Nat) (fence : Fence)
    (disposition : ClaimAbortDisposition) : Except Failure Tables :=
  if !fence.validate then .error .invalidFence
  else if seen.job.state ≠ .claimed then .error .staleFence
  else match fencedClaim seen t since again fence with
    | none => .error .staleFence
    | some c =>
        let released := t.updateClaim c.fence.claimAttempt
          fun c => c.release (.aborted disposition)
        .ok { released with
          job := { released.job with state := disposition.nextState } }

-- ================================================================= settling

/-- `loadSettlement`: the settlement with the claim that made it, which
has to have been released by it. -/
def loadSettlement (t : Tables) : Except Failure (Option Settlement) :=
  match t.settlement with
  | none => .ok none
  | some s =>
      match t.claim s.fence with
      | none => .ok none
      | some c =>
          if c.released == some .settled then .ok (some s)
          else .error .inconsistent

/-- The terminal row a proposal names: every column agrees, it is
projected, and the proposal's claim may settle it. -/
def settledRow (t : Tables) (p : SettlementProposal) : Option OutputRow :=
  t.inbox.find? fun row =>
    row.record.wire == p.wire && row.record.settlementBytes == p.wire
      && row.record.settlementDigest == some p.wire
      && row.projected && t.handedTo p.fence row

/-- `PrepareSettlement`, holding the job and the fence's claim. -/
def prepareSettlement (t : Tables) (observedAt : Nat)
    (p : SettlementProposal) (receiptId : String) :
    Except Failure (SettlementReceipt × Tables) :=
  if !(p.fence.validate && p.wire.validate) then .error .invalidSettlement
  else match loadSettlement t with
    | .error e => .error e
    | .ok (some s) =>
        if s.fence ≠ p.fence then .error .staleFence
        else if s.wire ≠ p.wire then .error .settlementConflict
        else .ok (⟨s.receiptId, s.wire.outcome⟩, t)
    | .ok none =>
        match t.claim p.fence with
        | none => .error .staleFence
        | some c =>
            if c.released.isSome || decide (c.leaseExpiresAt ≤ observedAt) then
              .error .staleFence
            else match settledRow t p with
              | none => .error .terminalOutputNotReady
              | some _ =>
                  if receiptId.isEmpty then .error .inconsistent
                  else
                    let released := t.updateClaim c.fence.claimAttempt
                      fun c => c.release .settled
                    .ok (⟨receiptId, p.wire.outcome⟩, { released with
                      settlement := some ⟨p.fence, receiptId, p.wire⟩
                      job := { released.job with
                        state := p.wire.outcome.jobState } })

-- ================================================== publication and control

/-- Publication of the prepared command: `markPublished` of a pending
job. -/
def publishCommand (t : Tables) (now : Nat) : Option Tables :=
  if t.outbox.prepared.isSome && t.outbox.published.isNone
      && t.outbox.retired.isNone && !t.outbox.authorityGranted
      && decide (now < t.outbox.deadline) && t.job.state == .pending then
    some { t with
      outbox := { t.outbox with published := t.outbox.prepared }
      job := { t.job with state := .dispatched } }
  else none

/-- A change of the desired state, from anywhere to anywhere. -/
def changeDesired (t : Tables) (desired : DesiredState) : Tables :=
  { t with job := { t.job with desired } }

end Elitea.Executions
