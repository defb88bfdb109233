/-
The local turns of a thread (services/elitea-main/internal/infra/db/repos/
local_turns.go).

A desktop turn is opened by `StartLocalTurn` and written by
`CommitLocalTurn`, each one transaction. Both pass the handoff fence,
which reads the ownership row under the thread's shared lock; the
functions here are what the two transactions do before and after it.

The participants, the messages and the trace a commit writes are left
out, and so are the unattended chain, which only refuses more starts, and
a question already asked in another conversation, which is a conflict.
-/
import Elitea.Handoff.Row

namespace Elitea.Handoff

/-- `Credential`: the token family that started the turn. -/
structure Credential where
  tokenId : Nat
  nativeClientId : Nat
deriving DecidableEq, Repr

/-- A row of `local_turn_executions`. -/
structure LocalTurn where
  executionId : ExecutionId
  actorId : UserId
  credential : Credential
  questionId : MessageId
  responseMessageId : MessageId
  targetParticipantId : Nat
  memoriesUsed : Nat
  expiresAt : Time
  committedAt : Option Time := none
  commitDigest : Option Nat := none
deriving DecidableEq, Repr

inductive LocalTurnError
  | notFound
  | threadExecutorIsCloud
  | conflict
  | alreadyCommitted
  | expired
deriving DecidableEq, Repr

/-- Neither committed nor expired: what a send waits for. -/
def LocalTurn.pending (now : Time) (turn : LocalTurn) : Prop :=
  turn.committedAt = none ∧ now < turn.expiresAt

instance (now : Time) (turn : LocalTurn) : Decidable (turn.pending now) :=
  inferInstanceAs (Decidable (_ ∧ _))

/-- `refuseLocalTurnWhileHandedOff`, by the row it reads. -/
def refuseLocalTurnWhileHandedOff (row : Option Row) :
    Except LocalTurnError Unit :=
  match row with
  | none => .ok ()
  | some row =>
      if row.state ≠ .stateLocal then .error .threadExecutorIsCloud
      else .ok ()

-- ==================================================================== start

/-- `StartRecord`, with the participant the turn answers as. -/
structure StartRecord where
  executionId : ExecutionId
  actorUserId : UserId
  credential : Credential
  questionId : MessageId
  responseMessageId : MessageId
  targetParticipantId : Nat
  memoriesUsed : Nat
  ttl : Time
deriving DecidableEq, Repr

/-- `replayLocalTurnStart`: the turn stays bound to what started it. -/
def replayLocalTurnStart (now : Time) (record : StartRecord)
    (turn : LocalTurn) : Except LocalTurnError LocalTurn :=
  if turn.targetParticipantId ≠ record.targetParticipantId
      ∨ turn.credential ≠ record.credential then .error .conflict
  else if turn.committedAt.isSome then .error .alreadyCommitted
  else if turn.expiresAt ≤ now then .error .expired
  else .ok { turn with memoriesUsed := record.memoriesUsed }

def LocalTurn.opened (now : Time) (record : StartRecord) : LocalTurn :=
  { executionId := record.executionId
    actorId := record.actorUserId
    credential := record.credential
    questionId := record.questionId
    responseMessageId := record.responseMessageId
    targetParticipantId := record.targetParticipantId
    memoriesUsed := record.memoriesUsed
    expiresAt := now + record.ttl }

/-- The table after the insert of `StartLocalTurn`: a new turn, or the one
this caller already opened for the question. -/
def openTurn (now : Time) (record : StartRecord) (turns : List LocalTurn) :
    Except LocalTurnError (List LocalTurn) :=
  match turns.find? fun turn => turn.actorId = record.actorUserId
      ∧ turn.questionId = record.questionId with
  | none => .ok (turns ++ [LocalTurn.opened now record])
  | some _ =>
      turns.mapM fun turn =>
        if turn.actorId = record.actorUserId
            ∧ turn.questionId = record.questionId then
          replayLocalTurnStart now record turn
        else .ok turn

-- =================================================================== commit

/-- `CommitRecord`. -/
structure CommitRecord where
  executionId : ExecutionId
  actorUserId : UserId
  credential : Credential
  digest : Nat
deriving DecidableEq, Repr

/-- What a commit finds of its turn: written already by the same body, or
still to write. -/
inductive CommitFound
  | replayed
  | uncommitted
deriving DecidableEq, Repr

/-- The locked read at the start of `CommitLocalTurn`. -/
def lockExecution (now : Time) (record : CommitRecord)
    (turns : List LocalTurn) : Except LocalTurnError CommitFound :=
  match turns.find? fun turn => turn.executionId = record.executionId
      ∧ turn.actorId = record.actorUserId with
  | none => .error .notFound
  | some turn =>
      if turn.credential ≠ record.credential then .error .notFound
      else if turn.committedAt.isSome then
        if turn.commitDigest ≠ some record.digest then
          .error .alreadyCommitted
        else .ok .replayed
      else if turn.expiresAt ≤ now then .error .expired
      else .ok .uncommitted

/-- The table after the commit of a turn. -/
def commitTurn (now : Time) (record : CommitRecord)
    (turns : List LocalTurn) : List LocalTurn :=
  turns.map fun turn =>
    if turn.executionId = record.executionId then
      { turn with
        committedAt := some now
        commitDigest := some record.digest }
    else turn

end Elitea.Handoff
