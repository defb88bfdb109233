/-
The transactions of one thread side by side, with the locks they take
(services/elitea-main/internal/infra/db/repos/workspace_handoffs.go,
local_turns.go and workspace_store.go).

Two locks order the transactions. The row lock is taken by everything that
writes the ownership row: a transaction reads and checks the row when it
has the lock, and what it writes is seen by others when it commits. The
thread's advisory lock is for the local turns: a send and a rest take back
hold it exclusively, before they lock the row; the start and the commit of
a local turn share it from their fence to their end. The fence reads the
row without locking it.

An action is one of the points at which the transactions can be told
apart: a lock is taken, with the reads made under it, or a transaction
ends. A lock that is held disables the actions that wait for it. Any
transaction may end in a rollback instead.
-/
import Elitea.Handoff.Thread

namespace Elitea.Handoff

/-- A transaction that holds the row lock, and what it will commit. -/
structure Staged where
  op : Op
  after : Thread
deriving DecidableEq, Repr

/-- The start of a local turn behind its fence; the insert, once made,
keeps the clock it read. -/
structure StartTx where
  record : StartRecord
  insertedAt : Option Time := none
deriving DecidableEq, Repr

/-- The commit of a local turn that has locked its turn; `fenced` once it
has passed the fence. -/
structure CommitTx where
  record : CommitRecord
  fenced : Bool := false
deriving DecidableEq, Repr

/-- What is committed, the clock, and who holds which lock. -/
structure System where
  thread : Thread := {}
  clock : Time := 0
  /-- The holder of the exclusive advisory lock. -/
  exclusive : Option Op := none
  /-- The holder of the row lock. -/
  staged : Option Staged := none
  starts : List StartTx := []
  commits : List CommitTx := []
deriving DecidableEq, Repr

/-- The operations that lock the row; the store's retirement of a thread
does not. -/
def Op.locksRow : Op → Bool
  | .retireThreadSegments => false
  | _ => true

/-- No local turn holds the advisory lock. -/
def System.unshared (s : System) : Prop :=
  s.starts = [] ∧ ∀ c ∈ s.commits, ¬ c.fenced

instance (s : System) : Decidable s.unshared :=
  inferInstanceAs (Decidable (_ ∧ _))

/-- The advisory lock after the end of a transaction of `op`. -/
def System.released (s : System) (op : Op) : System :=
  { s with
    exclusive := if op.locksThread then none else s.exclusive
    staged := none }

inductive Act
  /-- Time passes. -/
  | tick (elapsed : Time)
  /-- A send or a rest take back takes the advisory lock. -/
  | lockThread (op : Op)
  /-- It ends before it locked the row. -/
  | unlockThread
  /-- An operation takes the row lock, and reads and checks under it. -/
  | lockRow (op : Op) (wall : Time)
  /-- The holder of the row lock commits. -/
  | commit
  | rollback
  /-- The start of a local turn takes the shared lock and reads the row. -/
  | startFence (record : StartRecord)
  | startInsert (i : Nat)
  | startCommit (i : Nat)
  | startRollback (i : Nat)
  /-- The commit of a local turn locks and reads its turn. -/
  | commitLock (record : CommitRecord)
  /-- It takes the shared lock and reads the row. -/
  | commitFence (i : Nat)
  | commitWrite (i : Nat)
  | commitRollback (i : Nat)
deriving DecidableEq, Repr

/-- One action; `none` when it is not enabled. -/
def System.step (maxPushChain : Int) (s : System) : Act → Option System
  | .tick elapsed => some { s with clock := s.clock + elapsed }
  | .lockThread op =>
      if op.locksThread ∧ s.exclusive = none ∧ s.unshared then
        some { s with exclusive := some op }
      else none
  | .unlockThread =>
      if ∀ x ∈ s.staged, ¬ x.op.locksThread then
        some { s with exclusive := none }
      else none
  | .lockRow op wall =>
      if s.staged = none ∧ op.locksRow
          ∧ (op.locksThread → s.exclusive = some op) then
        match op.exec maxPushChain s.clock wall s.thread with
        | some after => some { s with staged := some ⟨op, after⟩ }
        | none => some (s.released op)
      else none
  | .commit =>
      -- The local turns are not the operation's to write.
      s.staged.map fun x =>
        { s.released x.op with
          thread := { x.after with turns := s.thread.turns } }
  | .rollback => s.staged.map fun x => s.released x.op
  | .startFence record =>
      if s.exclusive = none then
        match refuseLocalTurnWhileHandedOff s.thread.row with
        | .ok () => some { s with starts := s.starts ++ [⟨record, none⟩] }
        | .error _ => some s
      else none
  | .startInsert i =>
      s.starts[i]?.map fun x =>
        { s with
          starts := s.starts.set i { x with insertedAt := some s.clock } }
  | .startCommit i => do
      let x ← s.starts[i]?
      let now ← x.insertedAt
      match openTurn now x.record s.thread.turns with
      | .ok turns => some { s with
          thread := { s.thread with turns := turns }
          starts := s.starts.eraseIdx i }
      | .error _ => some { s with starts := s.starts.eraseIdx i }
  | .startRollback i => some { s with starts := s.starts.eraseIdx i }
  | .commitLock record =>
      if ∀ c ∈ s.commits, c.record.executionId ≠ record.executionId then
        match lockExecution s.clock record s.thread.turns with
        | .ok .uncommitted =>
            some { s with commits := s.commits ++ [⟨record, false⟩] }
        | _ => some s
      else none
  | .commitFence i => do
      let x ← s.commits[i]?
      if s.exclusive = none then
        match refuseLocalTurnWhileHandedOff s.thread.row with
        | .ok () => some { s with
            commits := s.commits.set i { x with fenced := true } }
        | .error _ => some { s with commits := s.commits.eraseIdx i }
      else none
  | .commitWrite i => do
      let x ← s.commits[i]?
      if x.fenced then
        some { s with
          thread := { s.thread with
            turns := commitTurn s.clock x.record s.thread.turns }
          commits := s.commits.eraseIdx i }
      else none
  | .commitRollback i => some { s with commits := s.commits.eraseIdx i }

end Elitea.Handoff
