/-
When the erasure of an orphan is claimed.

`OrphanErase` stamps every orphan that a sweep meets, also one that waits
in `LOCAL` for its erasure, and the stamp is the lease that `ClaimErasures`
respects. So what decides is when the orphan step last met the row
(`orphan_returned_iff`): the erasure is claimed by a sweep with room in its
batch exactly when no sweep of the minute before has met the row, the
claiming sweep itself included.

A sweep meets every orphan that is not erased whenever the rows fit one
page, and then claims none of them: with fewer than fifty rows in the table
no orphan is ever erased (`orphans_starve`), at whatever interval the
sweeps run.
-/
import Elitea.Handoff.Orphans
import Elitea.Lib.Runs

namespace Elitea.Handoff

open Elitea.Lib

-- ================================================================ the table

section Rows

variable {t : Table} {key : ThreadKey} {row : Row}

theorem ThreadKey.before_irrefl (key : ThreadKey) : ¬ key.before key := by
  intro h
  rcases h with h | h
  · exact Nat.lt_irrefl _ h
  · exact Nat.lt_irrefl _ h.2

theorem Table.nodup_keys (t : Table) : (t.entries.map Entry.key).Nodup := by
  refine List.pairwise_map.2 (t.ordered.imp ?_)
  intro a b hbefore heq
  rw [heq] at hbefore
  exact b.key.before_irrefl hbefore

/-- A thread has one row. -/
theorem Table.row_unique {a b : Entry} (ha : a ∈ t.entries)
    (hb : b ∈ t.entries) (hkey : a.key = b.key) : a = b :=
  List.inj_on_of_nodup_map t.nodup_keys ha hb hkey

theorem Table.mem_update (f : Entry → Row) (h : ⟨key, row⟩ ∈ t.entries) :
    ⟨key, f ⟨key, row⟩⟩ ∈ (t.update f).entries :=
  List.mem_map.2 ⟨⟨key, row⟩, h, rfl⟩

theorem Table.mem_exec_self (op : Row → Except HandoffError Row)
    {after : Row} (hop : op row = .ok after)
    (h : ⟨key, row⟩ ∈ t.entries) : ⟨key, after⟩ ∈ (t.exec key op).entries := by
  have hmem := mem_update (fun e =>
    if e.key = key then (op e.row).toOption.getD e.row else e.row) h
  rw [if_pos rfl, hop] at hmem
  exact hmem

theorem Table.mem_exec_other {op : Row → Except HandoffError Row}
    {other : ThreadKey} (hne : key ≠ other)
    (h : ⟨key, row⟩ ∈ t.entries) :
    ⟨key, row⟩ ∈ (t.exec other op).entries := by
  have hmem := mem_update (fun e =>
    if e.key = other then (op e.row).toOption.getD e.row else e.row) h
  rw [if_neg hne] at hmem
  exact hmem

/-- A loop that changes the rows of its list leaves the others alone. -/
theorem Table.mem_foldl_other {f : Table → Entry → Table}
    (hf : ∀ t e, key ≠ e.key → ⟨key, row⟩ ∈ t.entries →
      ⟨key, row⟩ ∈ (f t e).entries)
    {es : List Entry} (hnot : key ∉ es.map Entry.key)
    (h : ⟨key, row⟩ ∈ t.entries) :
    ⟨key, row⟩ ∈ (es.foldl f t).entries := by
  induction es generalizing t with
  | nil => exact h
  | cons e rest ih =>
      rw [List.map_cons, List.mem_cons, not_or] at hnot
      exact ih hnot.2 (hf t e hnot.1 h)

end Rows

-- ================================================================ one sweep

/-- The row waits for its erasure. -/
structure Row.Waiting (row : Row) : Prop where
  state : row.state = .stateLocal
  deletedAt : row.deletedAt = none
  due : ∃ t ∈ row.deleteAfter, t ≤ row.updatedAt

/-- The row as `OrphanErase` leaves it. -/
def Row.orphanErased (row : Row) (clock : Time) : Row :=
  row.moved clock .stateLocal 1 (eraseSet clock)

theorem Row.orphanErased_waiting {row : Row} (clock : Time)
    (h : row.deletedAt = none) : (row.orphanErased clock).Waiting where
  state := rfl
  deletedAt := h
  due := ⟨clock, rfl, Nat.le_refl _⟩

/-- `OrphanErase` takes a row in every state. -/
theorem timed_orphanErase (clock : Time) (row : Row) :
    timed clock .orphanErase row.epoch (some row)
      = .ok (row.orphanErased clock) := by
  refine transition_eq_ok.2 ⟨?_, rfl, rfl⟩
  cases row.state <;> decide

section OneSweep

variable {t : Table} {key : ThreadKey} {row : Row} {orphans : List Entry}
  {clock : Time}

theorem Table.mem_orphanErase_other (hnot : key ∉ orphans.map Entry.key)
    (h : ⟨key, row⟩ ∈ t.entries) :
    ⟨key, row⟩ ∈ (t.orphanErase clock orphans).entries :=
  mem_foldl_other (fun _ _ hne hmem => mem_exec_other hne hmem) hnot h

theorem Table.mem_orphanErase_self
    (hnodup : (orphans.map Entry.key).Nodup)
    (hmem : ⟨key, row⟩ ∈ orphans) (h : ⟨key, row⟩ ∈ t.entries) :
    ⟨key, row.orphanErased clock⟩
      ∈ (t.orphanErase clock orphans).entries := by
  induction orphans generalizing t with
  | nil => cases hmem
  | cons e rest ih =>
      rw [List.map_cons, List.nodup_cons] at hnodup
      rcases List.mem_cons.1 hmem with rfl | hmem
      · -- the rest of the page are other threads
        have herased := mem_exec_self
          (fun current => timed clock .orphanErase row.epoch (some current))
          (timed_orphanErase clock row) h
        rw [orphanErase, List.foldl_cons]
        exact mem_orphanErase_other hnodup.1 herased
      · have hne : key ≠ e.key := by
          intro heq
          exact hnodup.1 (List.mem_map.2 ⟨⟨key, row⟩, hmem, heq⟩)
        exact ih hnodup.2 hmem (mem_exec_other hne h)

variable {s : Sweeper} {x : Sweep}

/-- The sweep's orphan step meets the thread. -/
def Sweeper.met (s : Sweeper) (x : Sweep) (key : ThreadKey) : Prop :=
  key ∈ (s.orphans x).map Entry.key

instance (s : Sweeper) (x : Sweep) (key : ThreadKey) :
    Decidable (s.met x key) :=
  inferInstanceAs (Decidable (_ ∈ _))

theorem Sweeper.orphans_sublist :
    (s.orphans x).Sublist s.table.entries :=
  List.filter_sublist.trans
    ((List.take_sublist _ _).trans List.filter_sublist)

theorem Sweeper.mem_orphansErased_other (hnot : ¬ s.met x key)
    (h : ⟨key, row⟩ ∈ s.table.entries) :
    ⟨key, row⟩ ∈ (s.orphansErased x).entries :=
  Table.mem_orphanErase_other hnot h

theorem Sweeper.mem_orphansErased_met (hmet : s.met x key)
    (h : ⟨key, row⟩ ∈ s.table.entries) :
    ⟨key, row.orphanErased x.clock⟩ ∈ (s.orphansErased x).entries := by
  obtain ⟨e, he, hkey⟩ := List.mem_map.1 hmet
  have hsame : e = ⟨key, row⟩ :=
    s.table.row_unique (orphans_sublist.subset he) h hkey
  rw [hsame] at he
  refine Table.mem_orphanErase_self ?_ he h
  exact (orphans_sublist.map Entry.key).nodup s.table.nodup_keys

-- ================================================================= erasures

theorem Row.Waiting.claimable_iff (h : row.Waiting) (now : Time) :
    row.claimable now ↔ row.updatedAt + minute < now := by
  constructor
  · intro hclaim
    exact hclaim.2.2.2
  · intro hstale
    obtain ⟨d, hd, hle⟩ := h.due
    have hbefore : row.updatedAt ≤ now :=
      (Nat.le_add_right _ minute).trans (Nat.le_of_lt hstale)
    exact ⟨h.state, h.deletedAt, ⟨d, hd, hle.trans hbefore⟩, hstale⟩

theorem Table.claimable_of_mem_erasures {now : Time} {limit : Nat}
    {e : Entry} (h : e ∈ t.erasures now limit) :
    e ∈ t.entries ∧ e.row.claimable now := by
  have hsorted := List.mem_of_mem_take h
  rw [List.mem_insertionSort, List.mem_filter] at hsorted
  exact ⟨hsorted.1, of_decide_eq_true hsorted.2⟩

/-- A batch with room holds every claimable row. -/
theorem Table.mem_erasures_of_room {now : Time} {limit : Nat} {e : Entry}
    (hroom : (t.erasures now limit).length < limit) (he : e ∈ t.entries)
    (hclaim : e.row.claimable now) : e ∈ t.erasures now limit := by
  rw [erasures, List.length_take] at hroom
  rw [erasures, List.take_of_length_le (by omega), List.mem_insertionSort,
    List.mem_filter]
  exact ⟨he, decide_eq_true hclaim⟩

theorem Sweeper.returned_keys :
    (s.returned x).map Entry.key
      = ((s.orphansErased x).erasures x.now sweepBatch).map Entry.key := by
  rw [returned, claimErasures, List.map_map]
  rfl

/-- The row is returned only if it is claimable after the orphan step. -/
theorem Sweeper.claimable_of_returned
    (h : ⟨key, row⟩ ∈ (s.orphansErased x).entries)
    (hreturned : key ∈ (s.returned x).map Entry.key) :
    row.claimable x.now := by
  rw [returned_keys] at hreturned
  obtain ⟨e, he, hkey⟩ := List.mem_map.1 hreturned
  obtain ⟨hmem, hclaim⟩ := Table.claimable_of_mem_erasures he
  rw [Table.row_unique hmem h hkey] at hclaim
  exact hclaim

/-- With room in the batch, it is returned if it is claimable. -/
theorem Sweeper.returned_of_claimable
    (h : ⟨key, row⟩ ∈ (s.orphansErased x).entries)
    (hroom : (s.returned x).length < sweepBatch)
    (hclaim : row.claimable x.now) :
    key ∈ (s.returned x).map Entry.key := by
  have hlength := congrArg List.length (returned_keys (s := s) (x := x))
  rw [List.length_map, List.length_map] at hlength
  rw [returned_keys]
  refine List.mem_map.2 ⟨⟨key, row⟩, ?_, rfl⟩
  refine Table.mem_erasures_of_room ?_ h hclaim
  rw [← hlength]
  exact hroom

/-- What the sweep does not claim, it leaves as the orphan step did. -/
theorem Sweeper.mem_sweep_of_not_returned
    (hnot : key ∉ (s.returned x).map Entry.key)
    (h : ⟨key, row⟩ ∈ (s.orphansErased x).entries) :
    ⟨key, row⟩ ∈ (s.sweep x).table.entries := by
  have hstamped : ⟨key, row⟩
      ∈ (claimErasures x.now sweepBatch (s.orphansErased x)).2.entries := by
    have hmem := Table.mem_update (fun e =>
      if e.key ∈ ((s.orphansErased x).erasures x.now sweepBatch).map Entry.key
      then { e.row with updatedAt := x.now } else e.row) h
    rw [returned_keys] at hnot
    rw [if_neg hnot] at hmem
    exact hmem
  -- `MarkErased` runs for the claimed threads only
  refine Table.mem_foldl_other ?_ hnot hstamped
  intro t e hne hmem
  split
  · exact Table.mem_exec_other hne hmem
  · exact hmem

end OneSweep

-- =================================================================== sweeps

/-- The clocks at which the orphan step met the thread, sweep by sweep. -/
def Sweeper.metClocks (key : ThreadKey) : Sweeper → List Sweep → List Time
  | _, [] => []
  | s, x :: xs =>
      if s.met x key then x.clock :: metClocks key (s.sweep x) xs
      else metClocks key (s.sweep x) xs

/-- One of the sweeps claimed the erasure of the thread. -/
def Sweeper.Returned (key : ThreadKey) : Sweeper → List Sweep → Prop
  | _, [] => False
  | s, x :: xs =>
      key ∈ (s.returned x).map Entry.key ∨ Returned key (s.sweep x) xs

section Sweeps

variable {key : ThreadKey}

theorem Sweeper.metClocks_append (s : Sweeper) (xs ys : List Sweep) :
    s.metClocks key (xs ++ ys)
      = s.metClocks key xs ++ (s.run xs).metClocks key ys := by
  induction xs generalizing s with
  | nil => rfl
  | cons x xs ih =>
      simp only [List.cons_append, metClocks, ih]
      split <;> rfl

theorem Sweeper.metClocks_subset (s : Sweeper) (xs : List Sweep) :
    s.metClocks key xs ⊆ xs.map Sweep.clock := by
  induction xs generalizing s with
  | nil => exact List.Subset.refl _
  | cons x xs ih =>
      rw [metClocks, List.map_cons]
      split
      · exact List.cons_subset_cons _ (ih _)
      · exact List.subset_cons_of_subset _ (ih _)

/-- The row was last stamped before `time`, by more than a minute. -/
def Row.stale (row : Row) (time : Time) : Prop :=
  row.updatedAt + minute < time

/-- A waiting row goes on waiting, stamped if it was met. -/
theorem Sweeper.orphansErased_waiting {s : Sweeper} {x : Sweep} {row : Row}
    (h : ⟨key, row⟩ ∈ s.table.entries) (hwaits : row.Waiting)
    (hclock : row.updatedAt ≤ x.clock) :
    ∃ after, ⟨key, after⟩ ∈ (s.orphansErased x).entries ∧ after.Waiting
      ∧ after.updatedAt ≤ x.clock
      ∧ ∀ time, after.stale time ↔ row.stale time
        ∧ ∀ clock ∈ s.metClocks key [x], clock + minute < time := by
  by_cases hmet : s.met x key
  · refine ⟨_, mem_orphansErased_met hmet h,
      row.orphanErased_waiting x.clock hwaits.deletedAt, Nat.le_refl _, ?_⟩
    intro time
    rw [metClocks, if_pos hmet, metClocks, List.forall_mem_singleton]
    constructor
    · intro hstale
      exact ⟨(Nat.add_le_add_right hclock minute).trans_lt hstale, hstale⟩
    · exact And.right
  · refine ⟨row, mem_orphansErased_other hmet h, hwaits, hclock, ?_⟩
    intro time
    rw [metClocks, if_neg hmet, metClocks]
    simp

/-- While the erasure is not claimed, the row waits, and it was last
stamped when it was last met: the clock never goes back, so the row is
stale iff it was and no meeting since is newer. -/
theorem Sweeper.run_waiting {s : Sweeper} {row : Row} {xs : List Sweep}
    (h : ⟨key, row⟩ ∈ s.table.entries) (hwaits : row.Waiting)
    (hclocks : (row.updatedAt :: xs.map Sweep.clock).Pairwise (· ≤ ·))
    (hnot : ¬ s.Returned key xs) :
    ∃ after, ⟨key, after⟩ ∈ (s.run xs).table.entries ∧ after.Waiting
      ∧ ∀ time, after.stale time ↔ row.stale time
        ∧ ∀ clock ∈ s.metClocks key xs, clock + minute < time := by
  induction xs generalizing s row with
  | nil =>
      refine ⟨row, h, hwaits, ?_⟩
      intro time
      rw [metClocks]
      simp
  | cons x xs ih =>
      rw [List.map_cons, List.pairwise_cons, List.pairwise_cons] at hclocks
      obtain ⟨hfirst, hnext, hrest⟩ := hclocks
      rw [Returned, not_or] at hnot
      obtain ⟨middle, hmiddle, hmwaits, hmclock, hmstale⟩ :=
        orphansErased_waiting h hwaits (hfirst _ List.mem_cons_self)
      obtain ⟨after, hafter, hawaits, hastale⟩ :=
        ih (mem_sweep_of_not_returned hnot.1 hmiddle) hmwaits
          (List.pairwise_cons.2
            ⟨fun c hc => hmclock.trans (hnext c hc), hrest⟩) hnot.2
      refine ⟨after, hafter, hawaits, ?_⟩
      intro time
      have hclocks : s.metClocks key (x :: xs)
          = s.metClocks key [x] ++ (s.sweep x).metClocks key xs :=
        metClocks_append s [x] xs
      rw [hastale, hmstale, and_assoc, hclocks, List.forall_mem_append]

end Sweeps

/-- A thread waits for its erasure, its last stamp more than a minute
before the clock of a sweep that has room in its batch, and no sweep before
it has claimed the erasure. The sweep claims it if and only if no orphan
step of the last minute has met the thread, its own included. -/
theorem orphan_returned_iff (s : Sweeper) (key : ThreadKey) (row : Row)
    (hrow : ⟨key, row⟩ ∈ s.table.entries) (hwaits : row.Waiting)
    (sweeps : List Sweep) (last : Sweep)
    (hclocks : (row.updatedAt :: (sweeps ++ [last]).map Sweep.clock).Pairwise
      (· ≤ ·))
    (hlate : row.updatedAt + minute < last.now)
    (hnot : ¬ s.Returned key sweeps)
    (hroom : ((s.run sweeps).returned last).length < sweepBatch) :
    key ∈ ((s.run sweeps).returned last).map Entry.key
      ↔ ∀ clock ∈ s.metClocks key (sweeps ++ [last]),
        clock + minute < last.now := by
  rw [List.map_append, ← List.cons_append, List.pairwise_append] at hclocks
  obtain ⟨hbefore, -, hlast⟩ := hclocks
  obtain ⟨middle, hmiddle, hmwaits, hmstale⟩ :=
    Sweeper.run_waiting hrow hwaits hbefore hnot
  have hmclock : middle.updatedAt ≤ last.clock := by
    have hmet : middle.stale (last.clock + minute + 1) := by
      refine (hmstale _).2 ⟨?_, ?_⟩
      · have hle := hlast row.updatedAt List.mem_cons_self last.clock
          List.mem_cons_self
        exact Nat.lt_succ_of_le (Nat.add_le_add_right hle minute)
      · intro clock hclock
        have hle := hlast clock
          (List.mem_cons_of_mem _ (s.metClocks_subset sweeps hclock))
          last.clock List.mem_cons_self
        exact Nat.lt_succ_of_le (Nat.add_le_add_right hle minute)
    exact Nat.le_of_add_le_add_right (Nat.le_of_lt_succ hmet)
  obtain ⟨after, hafter, hawaits, -, hastale⟩ :=
    Sweeper.orphansErased_waiting hmiddle hmwaits hmclock
  have hiff : key ∈ ((s.run sweeps).returned last).map Entry.key
      ↔ after.stale last.now := by
    rw [Row.stale, ← hawaits.claimable_iff]
    exact ⟨Sweeper.claimable_of_returned hafter,
      Sweeper.returned_of_claimable hafter hroom⟩
  rw [hiff, hastale, hmstale, Sweeper.metClocks_append,
    List.forall_mem_append]
  constructor
  · intro ⟨⟨_, hearlier⟩, hown⟩
    exact ⟨hearlier, hown⟩
  · intro ⟨hearlier, hown⟩
    exact ⟨⟨hlate, hearlier⟩, hown⟩

-- =============================================================== starvation

section Starvation

variable {s : Sweeper} {x : Sweep}

theorem Table.length_exec (t : Table) (key : ThreadKey)
    (op : Row → Except HandoffError Row) :
    (t.exec key op).entries.length = t.entries.length :=
  List.length_map _

theorem Sweeper.length_sweep :
    (s.sweep x).table.entries.length = s.table.entries.length := by
  have hloop : ∀ (f : Table → Entry → Table) (es : List Entry) (t : Table),
      (∀ t e, (f t e).entries.length = t.entries.length) →
      (es.foldl f t).entries.length = t.entries.length := by
    intro f es t hf
    exact @foldl_inv _ _ f
      (fun u : Table => u.entries.length = t.entries.length)
      (fun u e hu => (hf u e).trans hu) es t rfl
  rw [sweep]
  refine (hloop _ _ _ ?_).trans ((List.length_map _).trans (hloop _ _ _ ?_))
  · intro t e
    split
    · exact t.length_exec _ _
    · rfl
  · intro t e
    exact t.length_exec _ _

/-- The rows fit one page, and every walk starts from the first one. -/
structure Sweeper.OnePage (s : Sweeper) : Prop where
  few : s.table.entries.length < sweepBatch
  cursors : ∀ replica, s.orphanAt replica = .start

theorem Table.length_page (t : Table) (after : ThreadKey) (limit : Nat) :
    (t.page after limit).length ≤ t.entries.length :=
  (List.take_sublist _ _).length_le.trans (List.length_filter_le _ _)

theorem Sweeper.OnePage.sweep (h : s.OnePage) (x : Sweep) :
    (s.sweep x).OnePage where
  few := by
    rw [length_sweep]
    exact h.few
  cursors := by
    intro replica
    have hpage : ∀ after,
        (s.table.page after sweepBatch).length ≠ sweepBatch := by
      intro after hfull
      have hle := s.table.length_page after sweepBatch
      have hfew := h.few
      omega
    simp only [Sweeper.sweep, orphanedThreads]
    split
    · split
      · rw [if_neg (hpage _)]
      · rfl
    · exact h.cursors replica

/-- A walk of one page meets every orphan. -/
theorem Sweeper.OnePage.met (h : s.OnePage) {key : ThreadKey} {row : Row}
    (hrow : ⟨key, row⟩ ∈ s.table.entries) (hkept : row.deletedAt = none)
    (hkey : ThreadKey.start.before key)
    (hgone : x.directory.orphaned ⟨key, row⟩ = true) : s.met x key := by
  refine List.mem_map.2 ⟨⟨key, row⟩, ?_, rfl⟩
  rw [orphans, orphanedThreads, h.cursors]
  refine List.mem_filter.2 ⟨?_, hgone⟩
  rw [Table.page, List.take_of_length_le
    ((List.length_filter_le _ _).trans (Nat.le_of_lt h.few))]
  refine List.mem_filter.2 ⟨hrow, ?_⟩
  simp [hkept, hkey]

/-- While the rows of the table fit one page, no erasure of an orphan is
ever claimed: every sweep stamps the row before it looks for erasures. -/
theorem orphans_starve {key : ThreadKey} {row : Row} {xs : List Sweep}
    (hpage : s.OnePage) (hrow : ⟨key, row⟩ ∈ s.table.entries)
    (hkept : row.deletedAt = none) (hkey : ThreadKey.start.before key)
    (hgone : ∀ x ∈ xs, x.directory.orphaned ⟨key, row⟩ = true)
    (hclocks : ∀ x ∈ xs, x.now ≤ x.clock + minute) :
    ¬ s.Returned key xs := by
  induction xs generalizing s row with
  | nil => exact id
  | cons x xs ih =>
      rw [List.forall_mem_cons] at hgone hclocks
      have herased := Sweeper.mem_orphansErased_met
        (hpage.met hrow hkept hkey hgone.1) hrow
      have hnot : key ∉ (s.returned x).map Entry.key := by
        intro hreturned
        have hclaim := Sweeper.claimable_of_returned herased hreturned
        exact Nat.not_lt.2 hclocks.1 hclaim.2.2.2
      rw [Sweeper.Returned, not_or]
      refine ⟨hnot, ?_⟩
      exact ih (hpage.sweep x)
        (Sweeper.mem_sweep_of_not_returned hnot herased) hkept hgone.2
        hclocks.2

end Starvation

-- ============================================================== one orphan

def orphanKey : ThreadKey := ⟨3, 14⟩

/-- A database without a users table, all of whose conversations are
gone. -/
def goneDirectory : Directory where
  usersTable := false
  ownerActive := fun _ => true
  schemaExists := fun _ => true
  conversationExists := fun _ => false

def sweepAt (time : Time) : Sweep where
  replica := 0
  now := time
  clock := time
  directory := goneDirectory
  erases := fun _ => true

/-- One thread, whose cloud copy is idle. -/
def orphanTable : Table where
  entries :=
    [⟨orphanKey,
      { handoffId := 1
        state := .cloudIdle
        epoch := 2
        ownerUserId := 7
        stateChangedAt := 0
        updatedAt := 0 }⟩]
  ordered := List.pairwise_singleton _ _

/-- The thread was met at zero. The walk of the second replica starts in
front of it, that of the first stands behind it. -/
def metOnce : Sweeper where
  table := Sweeper.orphansErased ⟨orphanTable, fun _ => .start⟩ (sweepAt 0)
  orphanAt := fun replica => if replica = 0 then orphanKey else .start

/-- The second replica meets the thread again at thirty seconds. At two
minutes the first passes it over, and its erasure is claimed. -/
theorem orphan_returned_iff_behind :
    let again : Sweep := { sweepAt (30 * second) with replica := 1 }
    let last := sweepAt (2 * minute)
    metOnce.metClocks orphanKey [again, last] = [30 * second]
      ∧ (orphanKey ∈ ((metOnce.run [again]).returned last).map Entry.key
        ↔ ∀ clock ∈ metOnce.metClocks orphanKey [again, last],
          clock + minute < last.now)
      ∧ orphanKey ∈ ((metOnce.run [again]).returned last).map Entry.key :=
  have hiff := orphan_returned_iff metOnce orphanKey _ List.mem_cons_self
    ⟨rfl, rfl, 0, rfl, Nat.le_refl _⟩
    [{ sweepAt (30 * second) with replica := 1 }] (sweepAt (2 * minute))
    (by decide) (by decide) (not_or.2 ⟨by decide, id⟩) (by decide)
  ⟨rfl, hiff, hiff.2 (by decide)⟩

/-- Sweeps every thirty seconds. -/
def halfMinutes (n : Nat) : List Sweep :=
  (List.range n).map fun i => sweepAt (i * 30 * second)

/-- The only thread of the table is an orphan. The sweep at ninety seconds,
more than a minute after `OrphanErase` first met it, returns an empty
batch, and no later sweep ever claims its erasure. -/
theorem orphan_postponed :
    (Sweeper.run ⟨orphanTable, fun _ => .start⟩
        (halfMinutes 3)).returned (sweepAt (90 * second)) = []
      ∧ ∀ n, ¬ Sweeper.Returned orphanKey
        ⟨orphanTable, fun _ => .start⟩ (halfMinutes n) := by
  refine ⟨rfl, ?_⟩
  intro n
  refine orphans_starve ⟨by decide, fun _ => rfl⟩ List.mem_cons_self rfl
    (by decide) ?_ ?_
  · intro x hx
    obtain ⟨i, -, rfl⟩ := List.mem_map.1 hx
    rfl
  · intro x hx
    obtain ⟨i, -, rfl⟩ := List.mem_map.1 hx
    exact Nat.le_add_right _ _

end Elitea.Handoff
