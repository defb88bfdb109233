/-
One owner per thread.

# The argument

The desktop writes the thread in local turns, the cloud while the row is
not `LOCAL`. The two never meet: only a send and a rest take back leave
`LOCAL` (`Op.exec_local`), both hold the advisory lock exclusively from
before they look for open local turns until they commit, and a local turn
is opened or committed only under the shared lock, behind a fence that read
`LOCAL`. So what a fence read stays true until its transaction ends
(`OwnerInv.fenced`), and a transaction that will commit a row that is not
`LOCAL` has no open turn beside it (`OwnerInv.stagedQuiet`).

The columns of the row need no locks: `RowOk` is kept by each of the
changes a row can undergo (`Row.Step`), and so is the order of the epochs.
-/
import Elitea.Handoff.Owner
import Elitea.Handoff.Proofs.Steps

namespace Elitea.Handoff

open Elitea.Lib

variable {now : Time} {op : Op} {row : Row} {after : Option Row} {x : Staged}

-- ================================================================== the row

/-- The columns of a row agree with its state. -/
structure RowOk (row : Row) : Prop where
  execution : row.runningExecutionId.isSome ↔ row.state = .cloudRunning
  response : row.runningResponseMessageId.isSome
    ↔ row.state = .cloudRunning
  reclaimPending : row.reclaimPending → row.state = .cloudRunning
  takeBack : row.takeBackWhenDone → row.state.cloud
  restPending : row.restPending →
    row.state = .reclaiming ∨ row.state = .stateLocal ∧ row.released

/-- No turn runs. -/
structure Row.NoTurn (row : Row) : Prop where
  execution : row.runningExecutionId = none
  response : row.runningResponseMessageId = none
  reclaimPending : row.reclaimPending = false

theorem RowOk.noTurn (h : RowOk row) (hstate : row.state ≠ .cloudRunning) :
    row.NoTurn where
  execution := Option.not_isSome_iff_eq_none.1 fun hsome =>
    hstate (h.execution.1 hsome)
  response := Option.not_isSome_iff_eq_none.1 fun hsome =>
    hstate (h.response.1 hsome)
  reclaimPending := Bool.eq_false_of_not_eq_true fun hpending =>
    hstate (h.reclaimPending hpending)

theorem turnEnded_noTurn (row : Row) : row.turnEnded.NoTurn :=
  ⟨rfl, rfl, rfl⟩

theorem eraseSet_noTurn (now : Time) (row : Row) :
    ((eraseSet now).columns row).NoTurn :=
  ⟨rfl, rfl, rfl⟩

/-- A transition out of every turn. What is left to see is the two markers
that the target state may not allow. -/
theorem RowOk.moved {target : State} {bump : Nat} {set : Assignments}
    (hturn : (set.columns row).NoTurn) (htarget : target ≠ .cloudRunning)
    (htakeBack : target = .handingOff →
      (set.columns row).takeBackWhenDone = false)
    (hrest : set.restPending = some true →
      target = .reclaiming ∨ target = .stateLocal ∧ set.released) :
    RowOk (row.moved now target bump set) where
  execution := by
    show (set.columns row).runningExecutionId.isSome ↔ _
    rw [hturn.execution]
    exact ⟨fun h => (nomatch h), fun h => absurd h htarget⟩
  response := by
    show (set.columns row).runningResponseMessageId.isSome ↔ _
    rw [hturn.response]
    exact ⟨fun h => (nomatch h), fun h => absurd h htarget⟩
  reclaimPending := by
    show (set.columns row).reclaimPending = true → _
    rw [hturn.reclaimPending]
    exact fun h => (nomatch h)
  takeBack := by
    show (if target = .reclaiming ∨ target = .stateLocal then false
      else (set.columns row).takeBackWhenDone) = true → target.cloud = true
    cases target with
    | cloudIdle | cloudRunning => exact fun _ => rfl
    | stateLocal | reclaiming => exact fun h => (nomatch h)
    | handingOff =>
        rw [htakeBack rfl]
        exact fun h => (nomatch h)
  restPending := by
    show set.restPending.getD false = true → _
    intro h
    apply hrest
    cases hset : set.restPending with
    | none =>
        rw [hset] at h
        cases h
    | some marker =>
        rw [hset] at h
        exact congrArg some h

theorem RowOk.timed (h : RowOk row) {kind : Timed}
    (hstate : row.state ∈ kind.source) :
    RowOk (row.moved now kind.target 1 (kind.assignments now)) := by
  have hidle : kind = .abandonReclaim ∨ kind = .abandonRestReclaim
      ∨ kind = .expireRestReclaim → row.NoTurn := by
    intro hkind
    apply h.noTurn
    have hreclaiming : row.state = .reclaiming := by
      rcases hkind with rfl | rfl | rfl <;> exact List.mem_singleton.1 hstate
    rw [hreclaiming]
    exact fun h => (nomatch h)
  cases kind with
  | expireHandingOff | idleErase | orphanErase =>
      exact .moved (eraseSet_noTurn now row) (fun h => nomatch h)
        (fun h => nomatch h) (fun h => nomatch h)
  | forceReclaim =>
      exact .moved (turnEnded_noTurn row) (fun h => nomatch h)
        (fun h => nomatch h) (fun h => nomatch h)
  | abandonReclaim =>
      exact .moved (hidle (.inl rfl)) (fun h => nomatch h)
        (fun h => nomatch h) (fun h => nomatch h)
  | abandonRestReclaim =>
      exact .moved (hidle (.inr (.inl rfl))) (fun h => nomatch h)
        (fun h => nomatch h) (fun _ => .inr ⟨rfl, rfl⟩)
  | expireRestReclaim =>
      exact .moved (hidle (.inr (.inr rfl))) (fun h => nomatch h)
        (fun h => nomatch h) (fun h => nomatch h)

theorem RowOk.step {after : Row} (h : RowOk row)
    (hstep : Row.Step now op row after) : RowOk after := by
  have hidle : ∀ {state}, row.state = state → state ≠ .cloudRunning →
      row.NoTurn := fun hstate hne => h.noTurn (hstate ▸ hne)
  cases hstep with
  | kept => exact h
  | sent record hheld hstate =>
      have hturn := hidle hstate (fun h => nomatch h)
      refine .moved ⟨hturn.execution, hturn.response, rfl⟩
        (fun h => nomatch h) (fun _ => ?_) (fun h => nomatch h)
      -- The marker was cleared when the row came to `LOCAL`.
      show row.takeBackWhenDone = false
      apply Bool.eq_false_of_not_eq_true
      intro hmarked
      have hcloud := h.takeBack hmarked
      rw [hstate] at hcloud
      cases hcloud
  | completed takeBack hstate =>
      have hturn := hidle hstate (fun h => nomatch h)
      exact .moved ⟨hturn.execution, hturn.response, hturn.reclaimPending⟩
        (fun h => nomatch h) (fun h => nomatch h) (fun h => nomatch h)
  | reclaimed deviceId hstate =>
      have hturn := hidle hstate (fun h => nomatch h)
      exact .moved ⟨hturn.execution, hturn.response, hturn.reclaimPending⟩
        (fun h => nomatch h) (fun h => nomatch h) (fun h => nomatch h)
  | asked deviceId hstate =>
      exact
        { execution := iff_of_true (h.execution.2 hstate) rfl
          response := iff_of_true (h.response.2 hstate) rfl
          reclaimPending := fun _ => rfl
          takeBack := fun _ => rfl
          restPending := fun h => nomatch h }
  | restReclaimed deviceId hheld hstate =>
      have hturn := hidle hstate (fun h => nomatch h)
      exact .moved ⟨hturn.execution, hturn.response, hturn.reclaimPending⟩
        (fun h => nomatch h) (fun h => nomatch h) (fun _ => .inl rfl)
  | released grace restPending hstate =>
      have hturn := hidle hstate (fun h => nomatch h)
      exact .moved ⟨hturn.execution, hturn.response, hturn.reclaimPending⟩
        (fun h => nomatch h) (fun h => nomatch h) (fun _ => .inr ⟨rfl, rfl⟩)
  | dueNow hstate =>
      exact
        { execution := h.execution
          response := h.response
          reclaimPending := h.reclaimPending
          takeBack := h.takeBack
          restPending := fun h => nomatch h }
  | erased hstate =>
      exact .moved (eraseSet_noTurn now row) (fun h => nomatch h)
        (fun h => nomatch h) (fun h => nomatch h)
  | turnStarted executionId responseMessageId hstarts hstate =>
      have hturn := hidle hstate (fun h => nomatch h)
      exact
        { execution := iff_of_true rfl rfl
          response := iff_of_true rfl rfl
          reclaimPending := fun _ => rfl
          takeBack := fun _ => rfl
          restPending := fun h => nomatch h }
  | turnEnded hstate hpending =>
      exact .moved (turnEnded_noTurn row) (fun h => nomatch h)
        (fun h => nomatch h) (fun h => nomatch h)
  | turnReclaimed hstate =>
      exact .moved (turnEnded_noTurn row) (fun h => nomatch h)
        (fun h => nomatch h) (fun h => nomatch h)
  | timed kind hstate => exact h.timed hstate
  | claimed hstate =>
      exact ⟨h.execution, h.response, h.reclaimPending, h.takeBack,
        h.restPending⟩
  | markedErased epoch =>
      rw [markErased]
      split
      · exact ⟨h.execution, h.response, h.reclaimPending, h.takeBack,
          h.restPending⟩
      · exact h

theorem RowOk.steps {row : Option Row} (h : ∀ r, row = some r → RowOk r)
    (hsteps : Row.Steps now op row after) : ∀ r, after = some r → RowOk r := by
  intro r hr
  cases hsteps with
  | absent => cases hr
  | first record hheld =>
      cases hr
      exact ⟨⟨fun h => (nomatch h), fun h => (nomatch h)⟩,
        ⟨fun h => (nomatch h), fun h => (nomatch h)⟩,
        fun h => (nomatch h), fun h => (nomatch h), fun h => (nomatch h)⟩
  | step hstep =>
      cases hr
      exact (h _ rfl).step hstep
  | published row refs hstate =>
      cases hr
      have hrow := h row rfl
      exact ⟨hrow.execution, hrow.response, hrow.reclaimPending,
        hrow.takeBack, hrow.restPending⟩

-- =============================================================== the epochs

/-- Who owns the thread: the two cloud states are one owner. -/
def State.owner : State → State
  | .cloudRunning => .cloudIdle
  | state => state

/-- A thread that was never sent is `LOCAL`. -/
def ownerOf : Option Row → State
  | none => .stateLocal
  | some row => row.state.owner

def epochOf : Option Row → Nat
  | none => 0
  | some row => row.epoch

theorem Row.Step.epoch {after : Row} (h : Row.Step now op row after) :
    row.epoch ≤ after.epoch
      ∧ (row.state.owner ≠ after.state.owner → row.epoch < after.epoch) := by
  have hnext : row.epoch < row.epoch + 1 := Nat.lt_succ_self _
  cases h with
  | kept => exact ⟨Nat.le_refl _, fun h => absurd rfl h⟩
  | asked deviceId hstate =>
      refine ⟨Nat.le_refl _, fun h => absurd ?_ h⟩
      rw [hstate]
      rfl
  | turnStarted executionId responseMessageId hstarts hstate =>
      refine ⟨Nat.le_refl _, fun h => absurd ?_ h⟩
      rw [hstate]
      rfl
  | turnEnded hstate hpending =>
      refine ⟨Nat.le_refl _, fun h => absurd ?_ h⟩
      rw [hstate]
      rfl
  | dueNow hstate | claimed hstate =>
      exact ⟨Nat.le_refl _, fun h => absurd rfl h⟩
  | markedErased epoch =>
      rw [markErased]
      split <;> exact ⟨Nat.le_refl _, fun h => absurd rfl h⟩
  | _ => exact ⟨Nat.le_of_lt hnext, fun _ => hnext⟩

theorem Row.Steps.epoch {row : Option Row} (h : Row.Steps now op row after) :
    epochOf row ≤ epochOf after
      ∧ (ownerOf row ≠ ownerOf after → epochOf row < epochOf after) := by
  cases h with
  | absent => exact ⟨Nat.le_refl _, fun h => absurd rfl h⟩
  | first record hheld => exact ⟨Nat.zero_le _, fun _ => Nat.zero_lt_one⟩
  | step hstep => exact hstep.epoch
  | published row refs hstate =>
      exact ⟨Nat.le_refl _, fun h => absurd rfl h⟩

-- ============================================================ leaving LOCAL

/-- The row is `LOCAL`, or the thread was never sent. -/
def RowLocal (row : Option Row) : Prop :=
  ∀ r, row = some r → r.state = .stateLocal

theorem refuseLocalTurn_eq_ok {row : Option Row} {u : Unit} :
    refuseLocalTurnWhileHandedOff row = .ok u ↔ RowLocal row := by
  cases row with
  | none => exact ⟨fun _ _ h => (nomatch h), fun _ => rfl⟩
  | some r =>
      simp only [refuseLocalTurnWhileHandedOff, ite_error_eq_ok, ne_eq,
        not_not, and_true]
      exact ⟨fun h _ hr => Option.some.inj hr ▸ h, fun h => h r rfl⟩

/-- Without the advisory lock no change of the row leaves `LOCAL`. -/
theorem Row.Steps.local {row : Option Row} (h : Row.Steps now op row after)
    (hop : op.locksThread = false) (hlocal : RowLocal row) :
    RowLocal after := by
  intro r hr
  cases h with
  | absent => cases hr
  | first record hheld => exact absurd (hop.symm.trans hheld) (by decide)
  | published row refs hstate =>
      rw [hlocal row rfl] at hstate
      rcases hstate with hstate | hstate <;> cases hstate
  | @step row after hstep =>
      cases hr
      have hrow := hlocal row rfl
      cases hstep with
      | kept => exact hrow
      | sent record hheld | restReclaimed deviceId hheld =>
          exact absurd (hop.symm.trans hheld) (by decide)
      | dueNow | claimed => exact hrow
      | released | erased => rfl
      | markedErased epoch =>
          rw [markErased]
          split <;> exact hrow
      | timed kind hstate =>
          rw [hrow] at hstate
          cases kind with
          | orphanErase => rfl
          | _ => exact absurd hstate (by decide)
      | completed takeBack hstate | reclaimed deviceId hstate
      | asked deviceId hstate
      | turnStarted executionId responseMessageId hstarts hstate
      | turnEnded hstate hpending | turnReclaimed hstate =>
          rw [hrow] at hstate
          cases hstate

-- ============================================================= the invariant

/-- No local turn is open. -/
def System.Quiet (s : System) : Prop :=
  ∀ turn ∈ s.thread.turns, ¬ turn.pending s.clock

structure OwnerInv (maxPushChain : Int) (s : System) : Prop where
  rowOk : ∀ row, s.thread.row = some row → RowOk row
  quiet : ¬ RowLocal s.thread.row → s.Quiet
  /-- The advisory lock is held exclusively or shared. -/
  alone : ∀ op, s.exclusive = some op → s.unshared
  holds : ∀ x, s.staged = some x → x.op.locksThread →
    s.exclusive = some x.op
  /-- What a fence read stays true while the lock is shared. -/
  fenced : ¬ s.unshared → RowLocal s.thread.row
  /-- The row is as the holder of its lock read it. -/
  staged : ∀ x, s.staged = some x → ∃ now wall t, t.row = s.thread.row
    ∧ x.op.exec maxPushChain now wall t = some x.after
  stagedQuiet : ∀ x, s.staged = some x → ¬ RowLocal x.after.row → s.Quiet

section Steps

variable {maxPushChain : Int} {s : System}

theorem ownerInv_init : OwnerInv maxPushChain {} where
  rowOk := fun _ h => nomatch h
  quiet := fun _ _ h => absurd h List.not_mem_nil
  alone := fun _ h => nomatch h
  holds := fun _ h => nomatch h
  fenced := fun _ _ h => nomatch h
  staged := fun _ h => nomatch h
  stagedQuiet := fun _ h => nomatch h

/-- The change the holder of the row lock will commit. -/
theorem OwnerInv.steps (h : OwnerInv maxPushChain s)
    (hstaged : s.staged = some x) :
    ∃ now, Row.Steps now x.op s.thread.row x.after.row := by
  obtain ⟨now, wall, t, hrow, hexec⟩ := h.staged x hstaged
  exact ⟨now, hrow ▸ Op.exec_row hexec⟩

/-- While the advisory lock is shared, what is staged stays `LOCAL`. -/
theorem OwnerInv.stagedLocal (h : OwnerInv maxPushChain s)
    (hshared : ¬ s.unshared) (hstaged : s.staged = some x) :
    RowLocal x.after.row := by
  obtain ⟨now, hsteps⟩ := h.steps hstaged
  cases hlocks : x.op.locksThread with
  | true => exact absurd (h.alone _ (h.holds x hstaged hlocks)) hshared
  | false =>
      exact hsteps.local hlocks (h.fenced hshared)

theorem LocalTurn.pending_mono {turn : LocalTurn} {later : Time}
    (hle : now ≤ later) (h : turn.pending later) : turn.pending now :=
  ⟨h.1, Nat.lt_of_le_of_lt hle h.2⟩

theorem OwnerInv.tick (h : OwnerInv maxPushChain s) (elapsed : Time) :
    OwnerInv maxPushChain { s with clock := s.clock + elapsed } := by
  have hquiet : s.Quiet →
      System.Quiet { s with clock := s.clock + elapsed } :=
    fun hquiet turn hturn hpending => hquiet turn hturn
      (LocalTurn.pending_mono (Nat.le_add_right _ _) hpending)
  exact { h with
    quiet := fun hrow => hquiet (h.quiet hrow)
    stagedQuiet := fun x hx hrow => hquiet (h.stagedQuiet x hx hrow) }

/-- The local turns that hold the advisory lock change. -/
theorem OwnerInv.shares (h : OwnerInv maxPushChain s)
    {starts : List StartTx} {commits : List CommitTx}
    (halone : ∀ op, s.exclusive = some op →
      System.unshared { s with starts := starts, commits := commits })
    (hfenced : ¬ System.unshared
        { s with starts := starts, commits := commits } →
      RowLocal s.thread.row) :
    OwnerInv maxPushChain
      { s with starts := starts, commits := commits } where
  rowOk := h.rowOk
  quiet := h.quiet
  alone := halone
  holds := h.holds
  fenced := hfenced
  staged := h.staged
  stagedQuiet := h.stagedQuiet

/-- The local turns change, behind a fence. -/
theorem OwnerInv.turns (h : OwnerInv maxPushChain s)
    (hshared : ¬ s.unshared) (turns : List LocalTurn) :
    OwnerInv maxPushChain
      { s with thread := { s.thread with turns := turns } } where
  rowOk := h.rowOk
  quiet := fun hrow => absurd (h.fenced hshared) hrow
  alone := h.alone
  holds := h.holds
  fenced := fun _ => h.fenced hshared
  staged := h.staged
  stagedQuiet := fun _ hx hrow => absurd (h.stagedLocal hshared hx) hrow

/-- The holder of the row lock gives its locks back. -/
theorem OwnerInv.released (h : OwnerInv maxPushChain s) (op : Op) :
    OwnerInv maxPushChain (s.released op) := by
  refine ⟨h.rowOk, h.quiet, ?_, fun _ hx => (nomatch hx), h.fenced,
    fun _ hx => (nomatch hx), fun _ hx => (nomatch hx)⟩
  intro other hother
  have hother : (if op.locksThread then none else s.exclusive)
      = some other := hother
  split at hother
  · cases hother
  · exact h.alone other hother

theorem quiet_of_pending {s : System} (h : s.thread.pending s.clock = false) :
    s.Quiet := by
  intro turn hturn hpending
  have hnone := List.any_eq_false.1 h turn hturn
  exact hnone (decide_eq_true hpending)

/-- What an operation stages is `LOCAL`, or no local turn is open. -/
theorem OwnerInv.exec_quiet (h : OwnerInv maxPushChain s) {wall : Time}
    {after : Thread}
    (hexec : op.exec maxPushChain s.clock wall s.thread = some after)
    (hrow : ¬ RowLocal after.row) : s.Quiet := by
  cases hlocks : op.locksThread with
  | false =>
      have hsteps := Op.exec_row hexec
      exact h.quiet fun hlocal => hrow (hsteps.local hlocks hlocal)
  | true =>
      cases op with
      | begin conversation used record =>
          obtain ⟨hpending, -⟩ := begin_cases (toOption_eq_some.1 hexec)
          exact quiet_of_pending hpending
      | reclaimRest actor epoch deviceId =>
          obtain ⟨r, hreclaim, rfl⟩ := toOption_map_eq_some.1 hexec
          obtain ⟨current, hcurrent, hkept | ⟨hpending, -⟩⟩ :=
            reclaimRest_cases hreclaim
          · -- A retried take back: the row has left `LOCAL` before.
            apply h.quiet
            intro hlocal
            apply hrow
            intro moved hmoved
            have hmoved : some r.handoff = some moved := hmoved
            rw [hkept] at hmoved
            exact hlocal moved (hcurrent.trans hmoved)
          · exact quiet_of_pending hpending
      | _ => cases hlocks

theorem OwnerInv.lockRow (h : OwnerInv maxPushChain s) {wall : Time}
    {after : Thread} (hheld : op.locksThread → s.exclusive = some op)
    (hexec : op.exec maxPushChain s.clock wall s.thread = some after) :
    OwnerInv maxPushChain { s with staged := some ⟨op, after⟩ } := by
  refine { h with holds := ?_, staged := ?_, stagedQuiet := ?_ }
  · intro x hx hlocks
    cases hx
    exact hheld hlocks
  · intro x hx
    cases hx
    exact ⟨s.clock, wall, s.thread, rfl, hexec⟩
  · intro x hx hrow
    cases hx
    exact h.exec_quiet hexec hrow

theorem OwnerInv.commit (h : OwnerInv maxPushChain s)
    (hstaged : s.staged = some x) :
    OwnerInv maxPushChain { s.released x.op with
      thread := { x.after with turns := s.thread.turns } } := by
  obtain ⟨now, hsteps⟩ := h.steps hstaged
  have hreleased := h.released x.op
  refine { hreleased with
    rowOk := RowOk.steps h.rowOk hsteps
    quiet := h.stagedQuiet x hstaged
    fenced := fun hshared => h.stagedLocal hshared hstaged
    staged := fun _ hx => (nomatch hx)
    stagedQuiet := fun _ hx => (nomatch hx) }

-- ------------------------------------------------------------ local turns

/-- A start that is under way shares the lock. -/
theorem shared_of_start {i : Nat} {x : StartTx} (h : s.starts[i]? = some x) :
    ¬ s.unshared := by
  intro hunshared
  rw [hunshared.1] at h
  cases h

theorem shared_of_commit {i : Nat} {x : CommitTx}
    (h : s.commits[i]? = some x) (hfenced : x.fenced) : ¬ s.unshared :=
  fun hunshared => hunshared.2 x (List.mem_of_getElem? h) hfenced

theorem OwnerInv.eraseStart (h : OwnerInv maxPushChain s) (i : Nat) :
    OwnerInv maxPushChain { s with starts := s.starts.eraseIdx i } := by
  have hunshared : s.unshared →
      System.unshared { s with starts := s.starts.eraseIdx i } := by
    intro hunshared
    refine ⟨?_, hunshared.2⟩
    show s.starts.eraseIdx i = []
    rw [hunshared.1]
    rfl
  exact h.shares (fun op hop => hunshared (h.alone op hop))
    (fun hshared => h.fenced fun hs => hshared (hunshared hs))

theorem OwnerInv.eraseCommit (h : OwnerInv maxPushChain s) (i : Nat) :
    OwnerInv maxPushChain { s with commits := s.commits.eraseIdx i } := by
  have hunshared : s.unshared →
      System.unshared { s with commits := s.commits.eraseIdx i } :=
    fun hunshared => ⟨hunshared.1,
      fun c hc => hunshared.2 c (List.mem_of_mem_eraseIdx hc)⟩
  exact h.shares (fun op hop => hunshared (h.alone op hop))
    (fun hshared => h.fenced fun hs => hshared (hunshared hs))

/-- A transaction passes the fence: nobody holds the lock exclusively, and
the row it read is `LOCAL`. -/
theorem OwnerInv.passed (h : OwnerInv maxPushChain s)
    (hfree : s.exclusive = none) (hlocal : RowLocal s.thread.row)
    (starts : List StartTx) (commits : List CommitTx) :
    OwnerInv maxPushChain
      { s with starts := starts, commits := commits } := by
  refine h.shares ?_ fun _ => hlocal
  intro op hop
  rw [hfree] at hop
  cases hop

theorem OwnerInv.step (h : OwnerInv maxPushChain s) {a : Act} {s' : System}
    (hstep : s.step maxPushChain a = some s') :
    OwnerInv maxPushChain s' := by
  cases a with
  | tick elapsed =>
      cases hstep
      exact h.tick elapsed
  | lockThread op =>
      simp only [System.step] at hstep
      split at hstep
      case isFalse => cases hstep
      case isTrue hfree =>
        cases hstep
        refine { h with alone := fun _ _ => hfree.2.2, holds := ?_ }
        intro x hx hlocks
        have hheld := h.holds x hx hlocks
        rw [hfree.2.1] at hheld
        cases hheld
  | unlockThread =>
      simp only [System.step] at hstep
      split at hstep
      case isFalse => cases hstep
      case isTrue hother =>
        cases hstep
        exact { h with
          alone := fun _ hop => (nomatch hop)
          holds := fun x hx hlocks => absurd hlocks (hother x hx) }
  | lockRow op wall =>
      simp only [System.step] at hstep
      split at hstep
      case isFalse => cases hstep
      case isTrue hfree =>
        cases hexec : op.exec maxPushChain s.clock wall s.thread with
        | none =>
            rw [hexec] at hstep
            cases hstep
            exact h.released op
        | some after =>
            rw [hexec] at hstep
            cases hstep
            exact h.lockRow hfree.2.2 hexec
  | commit =>
      obtain ⟨x, hx, rfl⟩ := Option.map_eq_some_iff.1 hstep
      exact h.commit hx
  | rollback =>
      obtain ⟨x, hx, rfl⟩ := Option.map_eq_some_iff.1 hstep
      exact h.released x.op
  | startFence record =>
      simp only [System.step] at hstep
      split at hstep
      case isFalse => cases hstep
      case isTrue hfree =>
        cases hfence : refuseLocalTurnWhileHandedOff s.thread.row with
        | error e =>
            rw [hfence] at hstep
            cases hstep
            exact h
        | ok u =>
            rw [hfence] at hstep
            cases hstep
            exact h.passed hfree (refuseLocalTurn_eq_ok.1 hfence) _ _
  | startInsert i =>
      obtain ⟨x, hx, rfl⟩ := Option.map_eq_some_iff.1 hstep
      have hshared := shared_of_start hx
      exact h.shares (fun op hop => absurd (h.alone op hop) hshared)
        (fun _ => h.fenced hshared)
  | startCommit i =>
      obtain ⟨x, hx, hstep⟩ := Option.bind_eq_some_iff.1 hstep
      obtain ⟨now, -, hstep⟩ := Option.bind_eq_some_iff.1 hstep
      split at hstep
      case h_1 turns hopen =>
        cases hstep
        exact (h.turns (shared_of_start hx) turns).eraseStart i
      case h_2 =>
        cases hstep
        exact h.eraseStart i
  | startRollback i =>
      cases hstep
      exact h.eraseStart i
  | commitLock record =>
      simp only [System.step] at hstep
      split at hstep
      case isFalse => cases hstep
      case isTrue =>
        split at hstep
        case h_2 =>
          cases hstep
          exact h
        case h_1 =>
          cases hstep
          have hunshared : s.unshared → System.unshared
              { s with commits := s.commits ++ [⟨record, false⟩] } := by
            intro hunshared
            refine ⟨hunshared.1, ?_⟩
            intro c hc
            rcases List.mem_append.1 hc with hc | hc
            · exact hunshared.2 c hc
            · rw [List.mem_singleton.1 hc]
              exact fun h => (nomatch h)
          exact h.shares (fun op hop => hunshared (h.alone op hop))
            (fun hshared => h.fenced fun hs => hshared (hunshared hs))
  | commitFence i =>
      obtain ⟨x, hx, hstep⟩ := Option.bind_eq_some_iff.1 hstep
      split at hstep
      case isFalse => cases hstep
      case isTrue hfree =>
        split at hstep
        case h_1 hfence =>
          cases hstep
          exact h.passed hfree (refuseLocalTurn_eq_ok.1 hfence) _ _
        case h_2 =>
          cases hstep
          exact h.eraseCommit i
  | commitWrite i =>
      obtain ⟨x, hx, hstep⟩ := Option.bind_eq_some_iff.1 hstep
      split at hstep
      case isFalse => cases hstep
      case isTrue hfenced =>
        cases hstep
        exact (h.turns (shared_of_commit hx hfenced) _).eraseCommit i
  | commitRollback i =>
      cases hstep
      exact h.eraseCommit i

end Steps

-- ================================================================== results

/-- A state of the thread has one owner. -/
structure OneOwner (s : System) : Prop where
  /-- While the row is not `LOCAL` no local turn is open. -/
  quiet : ∀ row, s.thread.row = some row → row.state ≠ .stateLocal →
    ∀ turn ∈ s.thread.turns, ¬ turn.pending s.clock
  rowOk : ∀ row, s.thread.row = some row → RowOk row

/-- An action changes the owner under a new epoch, and writes as an owner
only. -/
structure OwnerStep (s : System) (a : Act) (s' : System) : Prop where
  epoch_le : epochOf s.thread.row ≤ epochOf s'.thread.row
  epoch_lt : ownerOf s.thread.row ≠ ownerOf s'.thread.row →
    epochOf s.thread.row < epochOf s'.thread.row
  /-- A local turn is opened and committed while the row is `LOCAL`. -/
  localTurns : s'.thread.turns ≠ s.thread.turns →
    RowLocal s.thread.row ∧ RowLocal s'.thread.row
  /-- A publish commits in its writer's state, at its epoch, and that of a
  worker while its execution is the running one. -/
  publish : ∀ used maxProjectBytes physicalBucket request after,
    a = .commit →
    s.staged = some
      ⟨.publish used maxProjectBytes physicalBucket request, after⟩ →
    ∃ row, s.thread.row = some row
      ∧ row.state = request.caller.writerState
      ∧ row.epoch = request.epoch
      ∧ ∀ execution, request.caller = .cloudExecutor execution →
        row.runningExecutionId = some execution

section Results

variable {maxPushChain : Int} {s s' : System} {a : Act}

theorem OwnerInv.oneOwner (h : OwnerInv maxPushChain s) : OneOwner s where
  quiet := fun row hrow hstate =>
    h.quiet fun hlocal => hstate (hlocal row hrow)
  rowOk := h.rowOk

/-- What an action does to the tables: nothing, the commit of what was
staged, or a change of the local turns behind a fence. -/
theorem System.step_thread (hstep : s.step maxPushChain a = some s') :
    s'.thread = s.thread
      ∨ (a = .commit ∧ ∃ x, s.staged = some x
        ∧ s'.thread = { x.after with turns := s.thread.turns })
      ∨ ¬ s.unshared
        ∧ ∃ turns, s'.thread = { s.thread with turns := turns } := by
  cases a with
  | tick | startRollback | commitRollback =>
      cases hstep
      exact .inl rfl
  | lockThread op =>
      simp only [System.step] at hstep
      split at hstep <;> cases hstep
      exact .inl rfl
  | unlockThread =>
      simp only [System.step] at hstep
      split at hstep <;> cases hstep
      exact .inl rfl
  | lockRow op wall =>
      simp only [System.step] at hstep
      split at hstep
      case isFalse => cases hstep
      case isTrue =>
        split at hstep <;> cases hstep <;> exact .inl rfl
  | commit =>
      obtain ⟨x, hx, rfl⟩ := Option.map_eq_some_iff.1 hstep
      exact .inr (.inl ⟨rfl, x, hx, rfl⟩)
  | rollback | startInsert =>
      obtain ⟨x, hx, rfl⟩ := Option.map_eq_some_iff.1 hstep
      exact .inl rfl
  | startFence record =>
      simp only [System.step] at hstep
      split at hstep
      case isFalse => cases hstep
      case isTrue =>
        split at hstep <;> cases hstep <;> exact .inl rfl
  | startCommit i =>
      obtain ⟨x, hx, hstep⟩ := Option.bind_eq_some_iff.1 hstep
      obtain ⟨now, -, hstep⟩ := Option.bind_eq_some_iff.1 hstep
      split at hstep
      case h_1 turns hopen =>
        cases hstep
        exact .inr (.inr ⟨shared_of_start hx, turns, rfl⟩)
      case h_2 =>
        cases hstep
        exact .inl rfl
  | commitLock record =>
      simp only [System.step] at hstep
      split at hstep
      case isFalse => cases hstep
      case isTrue =>
        split at hstep <;> cases hstep <;> exact .inl rfl
  | commitFence i =>
      obtain ⟨x, hx, hstep⟩ := Option.bind_eq_some_iff.1 hstep
      split at hstep
      case isFalse => cases hstep
      case isTrue =>
        split at hstep <;> cases hstep <;> exact .inl rfl
  | commitWrite i =>
      obtain ⟨x, hx, hstep⟩ := Option.bind_eq_some_iff.1 hstep
      split at hstep
      case isFalse => cases hstep
      case isTrue hfenced =>
        cases hstep
        exact .inr (.inr ⟨shared_of_commit hx hfenced, _, rfl⟩)

/-- A publish that holds the row lock passed the writer's fence. -/
theorem OwnerInv.publish_fence (h : OwnerInv maxPushChain s) {used : Nat}
    {maxProjectBytes : Int} {physicalBucket : String}
    {request : PublishRequest} {after : Thread}
    (hstaged : s.staged = some
      ⟨.publish used maxProjectBytes physicalBucket request, after⟩) :
    ∃ row, s.thread.row = some row
      ∧ writerFence request.caller request.epoch row = .ok () := by
  obtain ⟨now, wall, t, hrow, hexec⟩ := h.staged _ hstaged
  obtain ⟨⟨_, result⟩, hpublish, -⟩ := toOption_map_eq_some.1 hexec
  obtain ⟨-, row, htrow, hfence, -⟩ := publishRequest_cases hpublish
  exact ⟨row, hrow.symm.trans htrow, hfence⟩

theorem OwnerInv.ownerStep (h : OwnerInv maxPushChain s)
    (hstep : s.step maxPushChain a = some s') : OwnerStep s a s' := by
  have hepoch : epochOf s.thread.row ≤ epochOf s'.thread.row
      ∧ (ownerOf s.thread.row ≠ ownerOf s'.thread.row →
        epochOf s.thread.row < epochOf s'.thread.row) := by
    rcases System.step_thread hstep with
      hsame | ⟨-, x, hx, hthread⟩ | ⟨-, turns, hthread⟩
    · rw [hsame]
      exact ⟨Nat.le_refl _, fun h => absurd rfl h⟩
    · obtain ⟨now, hsteps⟩ := h.steps hx
      rw [hthread]
      exact hsteps.epoch
    · rw [hthread]
      exact ⟨Nat.le_refl _, fun h => absurd rfl h⟩
  refine ⟨hepoch.1, hepoch.2, ?_, ?_⟩
  · intro hturns
    rcases System.step_thread hstep with
      hsame | ⟨-, x, -, hthread⟩ | ⟨hshared, turns, hthread⟩
    · rw [hsame] at hturns
      exact absurd rfl hturns
    · rw [hthread] at hturns
      exact absurd rfl hturns
    · rw [hthread]
      exact ⟨h.fenced hshared, h.fenced hshared⟩
  · intro used maxProjectBytes physicalBucket request after _ hstaged
    obtain ⟨row, hrow, hfence⟩ := h.publish_fence hstaged
    obtain ⟨hstate, hrowEpoch, hcaller⟩ := writerFence_eq_ok.1 hfence
    refine ⟨row, hrow, hstate, hrowEpoch, ?_⟩
    intro execution hexecution
    rw [hexecution] at hcaller
    exact hcaller

end Results

/-- In every state that the interleaved transactions of a thread reach, the
thread has one owner; every action from there keeps the order of the
epochs, and a local turn or a publish is written by the owner only. -/
theorem one_owner (maxPushChain : Int) (as : List Act) (s : System)
    (hrun : run (System.step maxPushChain) {} as = some s) :
    OneOwner s
      ∧ ∀ a s', s.step maxPushChain a = some s' → OwnerStep s a s' := by
  have h : OwnerInv maxPushChain s :=
    run_inv' (fun _ _ _ h hstep => h.step hstep) as {} s ownerInv_init hrun
  exact ⟨h.oneOwner, fun a s' hstep => h.ownerStep hstep⟩

-- ------------------------------------------------------------- one such run

def smallTurn : StartRecord :=
  { executionId := 40
    actorUserId := 7
    credential := ⟨1, 1⟩
    questionId := 50
    responseMessageId := 51
    targetParticipantId := 3
    memoriesUsed := 0
    ttl := minute }

def smallSend : CompleteRecord :=
  { handoffId := 1
    actorUserId := 7
    epoch := 1
    handoffRef := .handoff1
    sha := 1
    takeBackWhenDone := true }

/-- A local turn, a send that waits for it, and the first cloud turn, to
the worker's publish. -/
def ownedRun : List Act :=
  let begun := Op.begin (some ⟨true, 7⟩) 0 sendRecord
  [.startFence smallTurn, .startInsert 0, .startCommit 0,
    .commitLock ⟨40, 7, ⟨1, 1⟩, 9⟩, .commitFence 0, .commitWrite 0,
    .lockThread begun, .lockRow begun 0, .commit,
    .lockRow (.publish 0 1000 "workspaces"
      (sendRequest .compact [] none 1 100)) 0, .commit,
    .lockRow (.complete smallSend) 0, .commit, .tick 5,
    .lockRow (.startCloudTurn 2 60 61) 0, .commit,
    .lockRow (.publish 0 1000 "workspaces"
      { caller := .cloudExecutor 60, epoch := 2, kind := some .push
        sha256 := 101, bytes := 10, prerequisites := [1]
        refs := [⟨.cloud, none, 2⟩], objectFormat := "sha1" }) 0]

theorem one_owner_ownedRun :
    ∃ s row, run (System.step 0) {} ownedRun = some s
      ∧ s.thread.row = some row ∧ row.state = .cloudRunning
      ∧ s.thread.turns ≠ [] ∧ OneOwner s
      ∧ ∃ s', s.step 0 .commit = some s' ∧ OwnerStep s .commit s' :=
  ⟨_, _, rfl, rfl, rfl, List.cons_ne_nil _ _, (one_owner 0 ownedRun _ rfl).1,
    _, rfl, (one_owner 0 ownedRun _ rfl).2 _ _ rfl⟩

end Elitea.Handoff
