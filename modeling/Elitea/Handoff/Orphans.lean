/-
The end of a sweep: orphaned threads and due erasures (services/
elitea-main/internal/application/workspacehandoff/sweep.go, `Sweep`, and
internal/infra/db/repos/workspace_handoffs.go, `OrphanErase`,
`OrphanedThreads`, `ClaimErasures`).

A thread whose conversation, project or owner is gone is erased whatever
its state. Each sweep walks one page of the rows that are not yet erased,
in key order from where this replica's last sweep stopped, moves the
orphans it meets to `LOCAL` with an erasure due at once, and then claims
the due erasures. `OrphanErase` takes `LOCAL` rows too, so an orphan that
waits for its erasure is met again on every round of the walk.

The lease of an erasure is the column `updated_at`: `ClaimErasures` takes
the rows that were not stamped in the last minute, and stamps them.

# The table

The rows of all threads, in the order of their keys, which is the order
of the index that `OrphanedThreads` walks. Sweeps run one after another
here, so no row is locked by another when the erasures are claimed.
-/
import Elitea.Handoff.Row
import Mathlib.Data.List.Sort
import Mathlib.Algebra.GroupWithZero.Nat

namespace Elitea.Handoff

-- ================================================================ the table

/-- `(project_id, conversation_uuid)`; a UUID is ordered by its bytes. -/
structure ThreadKey where
  projectId : Nat
  conversation : Nat
deriving DecidableEq, Repr

/-- The order of the keys, as SQL compares the pairs. -/
def ThreadKey.before (a b : ThreadKey) : Prop :=
  a.projectId < b.projectId
    ∨ a.projectId = b.projectId ∧ a.conversation < b.conversation

instance (a b : ThreadKey) : Decidable (a.before b) :=
  inferInstanceAs (Decidable (_ ∨ _))

/-- Where a walk starts. -/
def ThreadKey.start : ThreadKey := ⟨0, 0⟩

structure Entry where
  key : ThreadKey
  row : Row
deriving DecidableEq, Repr

structure Table where
  entries : List Entry
  ordered : entries.Pairwise fun a b => a.key.before b.key

/-- An update of the table, row by row. -/
def Table.update (t : Table) (f : Entry → Row) : Table where
  entries := t.entries.map fun e => { e with row := f e }
  ordered := List.pairwise_map.2 t.ordered

/-- An operation on the row of one thread; refused, it changes nothing. -/
def Table.exec (t : Table) (key : ThreadKey)
    (op : Row → Except HandoffError Row) : Table :=
  t.update fun e =>
    if e.key = key then (op e.row).toOption.getD e.row else e.row

-- ================================================================== orphans

/-- `SweepBatch`. -/
def sweepBatch : Nat := 50

/-- What the queries of `OrphanedThreads` find outside the table. A
database without a users table has no owner to look up. -/
structure Directory where
  usersTable : Bool
  ownerActive : UserId → Bool
  schemaExists : Nat → Bool
  conversationExists : ThreadKey → Bool

/-- `MaxProjectIDDigits`. -/
def maxProjectIdDigits : Nat := 19

/-- `tenantschema.Valid` of the id's decimal digits. -/
def validProject (projectId : Nat) : Bool :=
  decide (0 < projectId) && decide (projectId < 10 ^ maxProjectIdDigits)

/-- The thread's owner, project or conversation is gone. A project id that
names no schema is passed over. -/
def Directory.orphaned (d : Directory) (e : Entry) : Bool :=
  if d.usersTable && !d.ownerActive e.row.ownerUserId then true
  else if !validProject e.key.projectId then false
  else !(d.schemaExists e.key.projectId && d.conversationExists e.key)

/-- The page of the walk: the rows not yet erased after the cursor. -/
def Table.page (t : Table) (after : ThreadKey) (limit : Nat) :
    List Entry :=
  (t.entries.filter fun e =>
    e.row.deletedAt.isNone && decide (after.before e.key)).take limit

/-- `OrphanedThreads`: the orphans of the page, and the next cursor. A page
that is not full ends the walk. -/
def orphanedThreads (d : Directory) (after : ThreadKey) (limit : Nat)
    (t : Table) : List Entry × ThreadKey :=
  let rows := t.page after limit
  let next :=
    match rows.getLast? with
    | some last => if rows.length = limit then last.key else .start
    | none => .start
  (rows.filter d.orphaned, next)

/-- `OrphanErase` of the orphans the sweep read. -/
def Table.orphanErase (clock : Time) (t : Table) (orphans : List Entry) :
    Table :=
  orphans.foldl (fun t e =>
    t.exec e.key fun row =>
      timed clock .orphanErase e.row.epoch (some row)) t

-- ================================================================= erasures

/-- The batch of `ClaimErasures`: the claimable rows, those that are due
the longest first. -/
def Table.erasures (t : Table) (now : Time) (limit : Nat) : List Entry :=
  ((t.entries.filter fun e => decide (e.row.claimable now)).insertionSort
    fun a b => a.row.deleteAfter.getD 0 ≤ b.row.deleteAfter.getD 0).take
      limit

/-- `ClaimErasures`: the batch as it is returned, and the table, stamped. -/
def claimErasures (now : Time) (limit : Nat) (t : Table) :
    List Entry × Table :=
  let batch := t.erasures now limit
  let stamped (row : Row) : Row := { row with updatedAt := now }
  (batch.map fun e => { e with row := stamped e.row },
    t.update fun e =>
      if e.key ∈ batch.map Entry.key then stamped e.row else e.row)

-- =================================================================== sweeps

/-- One sweep: the replica that runs it, its clock, the database's clock,
what is gone, and for which of the claimed threads the erasure ends with
`MarkErased`. -/
structure Sweep where
  replica : Nat
  now : Time
  clock : Time
  directory : Directory
  erases : ThreadKey → Bool

/-- The table, and the cursor of each replica. -/
structure Sweeper where
  table : Table
  orphanAt : Nat → ThreadKey := fun _ => .start

/-- The orphans that the sweep meets. -/
def Sweeper.orphans (s : Sweeper) (x : Sweep) : List Entry :=
  (orphanedThreads x.directory (s.orphanAt x.replica) sweepBatch s.table).1

/-- The table after the orphan step. -/
def Sweeper.orphansErased (s : Sweeper) (x : Sweep) : Table :=
  s.table.orphanErase x.clock (s.orphans x)

/-- What the sweep's `ClaimErasures` returns. -/
def Sweeper.returned (s : Sweeper) (x : Sweep) : List Entry :=
  (claimErasures x.now sweepBatch (s.orphansErased x)).1

/-- The sweep, from the orphan step to its end. -/
def Sweeper.sweep (s : Sweeper) (x : Sweep) : Sweeper :=
  let claims := claimErasures x.now sweepBatch (s.orphansErased x)
  { table := claims.1.foldl (fun t e =>
      if x.erases e.key then
        t.exec e.key fun row => .ok (markErased x.clock e.row.epoch row)
      else t) claims.2
    orphanAt := fun replica =>
      if replica = x.replica then
        (orphanedThreads x.directory (s.orphanAt x.replica) sweepBatch
          s.table).2
      else s.orphanAt replica }

def Sweeper.run (s : Sweeper) (xs : List Sweep) : Sweeper :=
  xs.foldl Sweeper.sweep s

end Elitea.Handoff
