/-
The repositories of one execution run together: any number of calls of
any worker, interleaved statement by statement, with a non-decreasing
database clock and a client that reads the event stream.

# Rows and locks

`Row` names what a statement can lock: the job with its outbox row (no
statement of the modelled calls locks one of the two and leaves the other
to a concurrent writer), a claim, the replay state. `wants` says what
each call holds when it commits. `RenewLease` and `ReleaseClaim` hold
their claim only; `AbortClaim` its claim and then the job it joined
without a lock; `ProjectNodeEvent` everything a reader of its rows could
need; a janitor pass the replay state only, and a reader nothing.

# Ghost state

`log` keeps every replay event that was ever appended, `given` every
cursor a client was ever given. Neither is read by any call, except that
a client may attach at a cursor it was given. A client asks from the last
cursor it received, when it asks and still when it is answered.
-/
import Elitea.Lib.Sessions
import Elitea.Executions.Replay

namespace Elitea.Executions

open Elitea.Lib

inductive Row where
  | job
  | claim (attempt : Nat)
  | replay
  deriving DecidableEq, Repr

inductive Op where
  | claim (request : ClaimRequest)
  | beginExecution (fence : Fence)
  | authorizeInvocation (fence : Fence)
  | renewLease (fence : Fence) (leaseTtl : Nat)
  | releaseClaim (fence : Fence)
  | abortClaim (fence : Fence) (disposition : ClaimAbortDisposition)
  | prepareSettlement (proposal : SettlementProposal)
  | changeDesired (desired : DesiredState)
  | publish
  | nodeEvent (frame : NodeEventFrame)
  | terminal (record : OutputRecord) (data : BrowserData)
  | prune
  | replay (after limit : Nat)
  | attach (cursor : Nat)
  deriving DecidableEq, Repr

inductive Answer where
  | claimed (decision : ClaimDecision)
  | begun (disposition : BeginDisposition)
  | authorized (disposition : AuthorizeDisposition)
  | settled (receipt : SettlementReceipt)
  | nodeEvent (outcome : NodeEventOutcome)
  | terminal (outcome : TerminalOutcome)
  | delivered (events : List DurableEvent)
  | done
  | failed (failure : Failure)
  deriving DecidableEq, Repr

/-- What a call takes from outside: the time of a look before its commit,
the rows other executions appended, what a claim reads elsewhere, and the
receipt id a settlement draws. -/
structure Choice where
  observedAt : Nat
  gap : Nat
  env : ClaimEnv
  receiptId : String
  deriving DecidableEq, Repr

structure World where
  tables : Tables
  log : List ReplayEvent
  given : List Nat
  client : Client
  deriving DecidableEq, Repr

/-- Commit new tables: the log keeps what they appended. -/
def World.commit (w : World) (t : Tables) : World :=
  { w with
    tables := t
    log := w.log ++ t.events.filter fun e =>
      decide (w.tables.nextCursor ≤ e.cursor) }

abbrev Call := Sessions.Call Op Row World
abbrev State := Sessions.State Op Row World Answer
abbrev Label := Sessions.Label Op Row Choice

/-- The retention policy and the one logical output id of the
execution. -/
structure Config where
  policy : RetentionPolicy
  logicalOutputId : String

/-- The rows a call holds when it commits. -/
def wants (w : World) (now : Nat) (call : Call) (choice : Choice) :
    List Row :=
  match call.op with
  | .claim request =>
      match claimEarly w.tables now choice.gap request choice.env,
          w.tables.activeClaim with
      | none, some c => [.job, .claim c.fence.claimAttempt]
      | _, _ => [.job]
  | .beginExecution fence => [.job, .claim fence.claimAttempt]
  | .authorizeInvocation fence => [.job, .claim fence.claimAttempt]
  | .renewLease fence _ => [.claim fence.claimAttempt]
  | .releaseClaim fence => [.claim fence.claimAttempt]
  | .abortClaim fence _ => [.claim fence.claimAttempt, .job]
  | .prepareSettlement proposal =>
      if w.tables.settlement.isSome then [.job]
      else [.job, .claim proposal.fence.claimAttempt]
  | .changeDesired _ => [.job]
  | .publish => [.job]
  | .nodeEvent frame =>
      if (loadDurableNodeEvent call.seen.tables frame.eventId).isSome then []
      else [.job, .claim frame.fence.claimAttempt, .replay]
  | .terminal record _ =>
      let agent : List Row :=
        if record.payloadType = .agentExecutionResult then [.replay] else []
      match loadExistingOutput call.seen.tables record with
      | .ok none => agent ++ [.job, .claim record.fence.claimAttempt]
      | _ => agent
  | .prune => [.replay]
  | .replay _ _ => []
  | .attach _ => []

/-- A call that failed changed nothing. -/
def World.settle {α : Type} (w : World) (answer : α → Answer)
    (r : Except Failure (α × Tables)) : Answer × World :=
  match r with
  | .ok (a, t) => (answer a, w.commit t)
  | .error e => (.failed e, w)

/-- A call that answers nothing but that it was done. -/
def World.settle' (w : World) (r : Except Failure Tables) :
    Answer × World :=
  match r with
  | .ok t => (.done, w.commit t)
  | .error e => (.failed e, w)

/-- The commit of a call. -/
def exec (cfg : Config) (w : World) (now : Nat) (call : Call)
    (choice : Choice) : Option (Answer × World) :=
  let t := w.tables
  let seen := call.seen.tables
  if choice.observedAt < call.since ∨ now < choice.observedAt then none
  else match call.op with
    | .claim request => some (w.settle .claimed
        (claimValidation t now choice.observedAt choice.gap request
          choice.env))
    | .beginExecution fence =>
        some (w.settle .begun (beginExecution t call.since fence))
    | .authorizeInvocation fence =>
        some (w.settle .authorized (authorizeInvocation t call.since fence))
    | .renewLease fence leaseTtl =>
        some (w.settle' (renewLease seen t call.since fence leaseTtl))
    | .releaseClaim fence =>
        some (w.settle'
          (releaseClaim seen t call.since choice.observedAt fence))
    | .abortClaim fence disposition =>
        some (w.settle' (abortClaim seen t call.since choice.observedAt
          fence disposition))
    | .prepareSettlement proposal => some (w.settle .settled
        (prepareSettlement t choice.observedAt proposal choice.receiptId))
    | .changeDesired desired =>
        some (.done, w.commit (changeDesired t desired))
    | .publish => (publishCommand t now).map fun t => (.done, w.commit t)
    | .nodeEvent frame => some (w.settle .nodeEvent
        (projectNodeEvent cfg.policy seen t choice.observedAt now choice.gap
          frame))
    | .terminal record data => some (w.settle .terminal
        (projectTerminal seen t choice.observedAt now choice.gap
          cfg.logicalOutputId record data))
    | .prune => some (w.settle (fun _ => .done)
        (pruneExpiredReplayProgress cfg.policy t now))
    | .replay after limit =>
        if call.seen.client.cursor ≠ after ∨ w.client.cursor ≠ after then
          none
        else match replay seen t after limit with
          | .error e => some (.failed e, w)
          | .ok events => some (.delivered events, { w with
              given := w.given ++ events.map DurableEvent.cursor
              client := w.client.receive events })
    | .attach cursor =>
        if cursor = 0 ∨ cursor ∈ w.given then
          some (.done, { w with client := ⟨cursor, cursor, []⟩ })
        else none

def machine (cfg : Config) : Sessions.Machine Op Row World Choice Answer :=
  ⟨wants, exec cfg⟩

abbrev step (cfg : Config) : State → Label → Option State :=
  Sessions.step (machine cfg)

/-- A job just admitted, with nothing in its tables yet and a client at
the start of its stream. -/
def World.admitted (scope : Scope) (capability : Capability)
    (prepared : Option Digest) (deadline : Nat) : World :=
  ⟨Executions.admitted scope capability prepared deadline, [], [],
    ⟨0, 0, []⟩⟩

/-- The start of every run. -/
def start (scope : Scope) (capability : Capability)
    (prepared : Option Digest) (deadline clock : Nat) : State :=
  Sessions.begin (.admitted scope capability prepared deadline) clock

end Elitea.Executions
