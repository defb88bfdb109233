/-
When a timed transition moves a row that is due.

A selection is bound to its row by the state and the epoch alone. That is
enough where everything that would make the row not due takes a new epoch:
the expiry of a send, the forced, the abandoned and the expired take backs.
It is not enough for two. A cloud turn leaves `CLOUD_IDLE` and comes back
under one epoch, so a thread that has just been used can be erased as idle
(`revivedRun`); and a new claim of the running execution does
not touch the row at all, so the turn of a live worker can be reaped.

`Undisturbed` names the events that do this. In a run without them every
transition that commits finds its row due (`timed_only_while_due`): a
selection that the epoch still admits `Holds`, and each step of the row
under one epoch keeps it (`Selection.Holds.step`).
-/
import Elitea.Handoff.Proofs.Owner
import Elitea.Handoff.Sweep

namespace Elitea.Handoff

open Elitea.Lib

variable {now wall : Time} {op : Op}

-- ======================================================== under one epoch

/-- The columns that the selections read are the same. -/
structure Row.Same (row after : Row) : Prop where
  state : after.state = row.state
  expiresAt : after.expiresAt = row.expiresAt
  reclaimPending : after.reclaimPending = row.reclaimPending
  reclaimRequestedAt : after.reclaimRequestedAt = row.reclaimRequestedAt
  runningExecutionId : after.runningExecutionId = row.runningExecutionId
  stateChangedAt : after.stateChangedAt = row.stateChangedAt
  restPending : after.restPending = row.restPending
  deleteAfter : after.deleteAfter = row.deleteAfter
  deletedAt : after.deletedAt = row.deletedAt

theorem Row.Same.refl (row : Row) : row.Same row :=
  ⟨rfl, rfl, rfl, rfl, rfl, rfl, rfl, rfl, rfl⟩

/-- The changes that keep the epoch. -/
inductive Row.Still (now : Time) (op : Op) (row : Row) : Row → Prop
  | same {after : Row} : row.Same after → Still now op row after
  /-- The erasure of a `LOCAL` row. -/
  | erasing {after : Row} : row.state = .stateLocal →
      after.state = .stateLocal → Still now op row after
  | asked (deviceId : String) : row.state = .cloudRunning →
      Still now op row (row.moved now .cloudRunning 0
        { columns := fun row => row.asked now deviceId })
  | started (executionId : ExecutionId) (responseMessageId : MessageId) :
      op = .startCloudTurn row.epoch executionId responseMessageId →
      row.state = .cloudIdle →
      Still now op row (row.moved now .cloudRunning 0
        { columns := fun row => row.running executionId responseMessageId })
  | ended : row.state = .cloudRunning → row.reclaimPending = false →
      Still now op row
        (row.moved now .cloudIdle 0 { columns := Row.turnEnded })

theorem Row.Step.still {row after : Row} (h : Row.Step now op row after)
    (hepoch : after.epoch = row.epoch) : Row.Still now op row after := by
  have hbump : row.epoch + 1 ≠ row.epoch := Nat.succ_ne_self _
  cases h with
  | kept => exact .same (.refl row)
  | asked deviceId hstate => exact .asked deviceId hstate
  | dueNow hstate => exact .erasing hstate hstate
  | turnStarted executionId responseMessageId hstarts hstate =>
      exact .started executionId responseMessageId hstarts hstate
  | turnEnded hstate hpending => exact .ended hstate hpending
  | claimed hstate => exact .erasing hstate hstate
  | markedErased epoch =>
      rw [markErased]
      split
      case isTrue hcond => exact .erasing hcond.1 hcond.1
      case isFalse => exact .same (.refl row)
  | _ => exact absurd hepoch hbump

-- ================================================================ selections

/-- A selection that its transaction would still go through for: that of a
dead turn compares the running execution too. -/
def Selection.Holds (x : Selection) (executions : List Execution)
    (row : Row) : Prop :=
  (x.what = .reap → row.state = .cloudRunning
    ∧ row.runningExecutionId = some x.executionId) →
  x.due executions row

/-- Starting a turn does not disturb the selection. -/
def Selection.Admits (x : Selection) (executionId : ExecutionId) : Prop :=
  x.what ≠ .idleErase ∧ (x.what = .reap → x.executionId ≠ executionId)

instance (x : Selection) (executionId : ExecutionId) :
    Decidable (x.Admits executionId) :=
  inferInstanceAs (Decidable (_ ∧ _))

section Selections

variable {x : Selection} {executions : List Execution} {row after : Row}

theorem Selection.due_same (h : row.Same after)
    (hdue : x.due executions row) : x.due executions after := by
  rw [due] at hdue ⊢
  rw [h.state, h.expiresAt, h.reclaimPending, h.reclaimRequestedAt,
    h.runningExecutionId, h.stateChangedAt, h.restPending, h.deleteAfter,
    h.deletedAt]
  exact hdue

/-- No selection is of a `LOCAL` row. -/
theorem Selection.due_local (hdue : x.due executions row) :
    row.state ≠ .stateLocal := by
  intro hstate
  rw [due, hstate] at hdue
  cases hwhat : x.what <;> rw [hwhat] at hdue <;> cases hdue.1

/-- Only the idle erasure is selected of an idle row. -/
theorem Selection.due_idle (hstate : row.state = .cloudIdle)
    (hdue : x.due executions row) : x.what = .idleErase := by
  rw [due, hstate] at hdue
  cases hwhat : x.what with
  | idleErase => rfl
  | _ =>
      rw [hwhat] at hdue
      cases hdue.1

/-- Only the forced take back and the reaping are selected of a running
row. -/
theorem Selection.due_running (hstate : row.state = .cloudRunning)
    (hdue : x.due executions row) :
    x.what = .forceReclaim ∨ x.what = .reap := by
  rw [due, hstate] at hdue
  cases hwhat : x.what with
  | forceReclaim => exact .inl rfl
  | reap => exact .inr rfl
  | _ =>
      rw [hwhat] at hdue
      cases hdue.1

theorem Selection.due_pending (hwhat : x.what = .forceReclaim)
    (hdue : x.due executions row) : row.reclaimPending = true := by
  rw [due, hwhat] at hdue
  exact hdue.2.1

/-- Asking again for a running thread keeps the first request's time. -/
theorem Selection.due_asked {deviceId : String}
    (hstate : row.state = .cloudRunning) (hdue : x.due executions row) :
    x.due executions (row.moved now .cloudRunning 0
      { columns := fun row => row.asked now deviceId }) := by
  have hkinds := due_running hstate hdue
  rw [due] at hdue ⊢
  rcases hkinds with hwhat | hwhat
  · rw [hwhat] at hdue ⊢
    obtain ⟨-, -, t, ht, hgrace⟩ := hdue
    refine ⟨rfl, rfl, t, ?_, hgrace⟩
    show t ∈ some (row.reclaimRequestedAt.getD now)
    rw [Option.mem_def] at ht ⊢
    rw [ht]
    rfl
  · rw [hwhat] at hdue ⊢
    obtain ⟨-, hchanged, hdead⟩ := hdue
    have hsince : (row.moved now .cloudRunning 0
        { columns := fun row => row.asked now deviceId }).stateChangedAt
        = row.stateChangedAt := by
      simp [Row.moved, hstate]
    refine ⟨rfl, ?_, hdead⟩
    rw [hsince]
    exact hchanged

theorem Selection.Holds.still (h : x.Holds executions row)
    (hstill : Row.Still now op row after)
    (hadmits : ∀ executionId responseMessageId,
      op = .startCloudTurn row.epoch executionId responseMessageId →
      x.Admits executionId) : x.Holds executions after := by
  intro hreap
  cases hstill with
  | same hsame =>
      refine due_same hsame (h ?_)
      rw [← hsame.state, ← hsame.runningExecutionId]
      exact hreap
  | erasing hstate hafter =>
      have hnot : x.what ≠ .reap := by
        intro hwhat
        have hrunning := (hreap hwhat).1
        rw [hafter] at hrunning
        cases hrunning
      exact absurd hstate (due_local (h fun hwhat => absurd hwhat hnot))
  | asked deviceId hstate =>
      exact due_asked hstate (h fun hwhat => ⟨hstate, (hreap hwhat).2⟩)
  | started executionId responseMessageId hstarts hstate =>
      obtain ⟨hidle, hother⟩ := hadmits _ _ hstarts
      have hnot : x.what ≠ .reap := by
        intro hwhat
        have hruns : some executionId = some x.executionId :=
          (hreap hwhat).2
        exact hother hwhat (Option.some.inj hruns).symm
      have hdue := h fun hwhat => absurd hwhat hnot
      exact absurd (due_idle hstate hdue) hidle
  | ended hstate hpending =>
      have hnot : x.what ≠ .reap := by
        intro hwhat
        cases (hreap hwhat).1
      have hdue := h fun hwhat => absurd hwhat hnot
      -- the only other selection of a running thread is a forced take back
      rcases due_running hstate hdue with hwhat | hwhat
      · exact absurd (due_pending hwhat hdue) (by rw [hpending]; decide)
      · exact absurd hwhat hnot

/-- A selection survives a change of the executions that leaves a dead
worker of the selected one. -/
theorem Selection.Holds.changed {executions' : List Execution}
    (h : x.Holds executions row)
    (hdead : x.what = .reap → ∀ e ∈ executions, e.id = x.executionId →
      e.dead x.clock →
      ∃ e' ∈ executions', e'.id = x.executionId ∧ e'.dead x.clock) :
    x.Holds executions' row := by
  intro hreap
  have hdue := h hreap
  rw [due] at hdue ⊢
  cases hwhat : x.what with
  | reap =>
      rw [hwhat] at hdue
      obtain ⟨hstate, hsince, e, he, hruns, hgone⟩ := hdue
      have hid : row.runningExecutionId = some x.executionId :=
        (hreap hwhat).2
      rw [hid] at hruns
      obtain ⟨e', he', hid', hgone'⟩ :=
        hdead hwhat e he (Option.some.inj hruns).symm hgone
      refine ⟨hstate, hsince, e', he', ?_, hgone'⟩
      rw [hid, hid']
  | _ =>
      rw [hwhat] at hdue
      exact hdue

end Selections

/-- The transaction of a selection goes through only at the epoch it was
read at, and that of a dead turn only for its execution. -/
theorem Selection.op_commits {x : Selection} {maxPushChain : Int}
    {t after : Thread} (h : x.op.exec maxPushChain now wall t = some after) :
    ∃ row, t.row = some row ∧ row.epoch = x.epoch
      ∧ (x.what = .reap → row.state = .cloudRunning
        ∧ row.runningExecutionId = some x.executionId) := by
  have htimed : ∀ kind, x.op = .timed kind x.epoch →
      ∃ row, t.row = some row ∧ row.epoch = x.epoch := by
    intro kind hop
    rw [hop, Op.exec] at h
    obtain ⟨moved, hmoved, -⟩ := toOption_map_eq_some.1 h
    cases hrow : t.row with
    | none =>
        rw [hrow] at hmoved
        cases hmoved
    | some row =>
        rw [hrow, timed] at hmoved
        exact ⟨row, rfl, (transition_eq_ok.1 hmoved).2.1⟩
  cases hwhat : x.what with
  | reap =>
      rw [op, hwhat, Op.exec] at h
      obtain ⟨moved, hmoved, -⟩ := toOption_map_eq_some.1 h
      cases hrow : t.row with
      | none =>
          rw [hrow] at hmoved
          cases hmoved
      | some row =>
          rw [hrow, finishCloudTurn, ite_error_eq_ok] at hmoved
          obtain ⟨hcurrent, -⟩ := hmoved
          push Not at hcurrent
          exact ⟨row, rfl, hcurrent.2.1, fun _ => ⟨hcurrent.1, hcurrent.2.2⟩⟩
  | _ =>
      obtain ⟨row, hrow, hepoch⟩ := htimed _ (by rw [op, hwhat])
      exact ⟨row, hrow, hepoch, fun h => by cases h⟩

theorem Selection.op_ne_start (x : Selection) {epoch : Nat}
    {executionId : ExecutionId} {responseMessageId : MessageId} :
    x.op ≠ .startCloudTurn epoch executionId responseMessageId := by
  intro hop
  rw [op] at hop
  split at hop <;> cases hop

-- ================================================================ executions

/-- A dead worker cannot renew its lease, nor hand its claim back. -/
theorem Execution.dead.refused {clock : Time} {e : Execution}
    (h : e.dead clock) (hclock : clock ≤ now) (ttl : Time) :
    e.renew now ttl = none ∧ e.release now = none := by
  obtain ⟨-, c, hc, -, hlease⟩ := h
  rw [renew, release]
  cases hclaims : e.claims with
  | nil =>
      rw [hclaims] at hc
      cases hc
  | cons d rest =>
      rw [hclaims] at hc
      obtain rfl : d = c := Option.some.inj hc
      have hexpired : ¬ d.live now := by
        intro ⟨_, hlive⟩
        have hbefore : d.leaseExpiresAt < clock :=
          Nat.lt_of_le_of_lt (Nat.le_add_right _ _) hlease
        exact Nat.not_lt.2 hclock (hlive.trans hbefore)
      exact ⟨if_neg hexpired, if_neg hexpired⟩

/-- The executions a change does not reach, or refuses, stay. -/
theorem mem_changeExecution {id : ExecutionId}
    {change : Execution → Option Execution} {table : List Execution}
    {e : Execution} (he : e ∈ table)
    (hkept : e.id = id → change e = none) :
    e ∈ changeExecution id change table := by
  refine List.mem_map.2 ⟨e, he, ?_⟩
  split
  case isTrue hid =>
    rw [hkept hid]
    rfl
  case isFalse => rfl

-- =================================================================== the run

/-- The event disturbs no selection: a cloud turn is not started where an
idle row of that epoch is selected, and the execution of a selected dead
turn is not started, claimed or settled again. -/
def World.Undisturbed (w : World) : Event → Prop
  | .txn (.startCloudTurn epoch executionId _) _ =>
      ∀ x ∈ w.selections, x.epoch = epoch → x.Admits executionId
  | .claim id _ _ | .settle id =>
      ∀ x ∈ w.selections, x.what = .reap → x.executionId ≠ id
  | _ => True

instance (w : World) : ∀ a, Decidable (w.Undisturbed a) := by
  intro a
  unfold World.Undisturbed
  split <;> infer_instance

structure SweepInv (w : World) : Prop where
  /-- The reads are in the past. -/
  past : ∀ x ∈ w.selections, x.clock ≤ w.clock
  /-- The row has not gone back behind them. -/
  epoch : ∀ x ∈ w.selections, x.epoch ≤ epochOf w.thread.row
  /-- What the epoch still admits is still due. -/
  holds : ∀ x ∈ w.selections, ∀ row, w.thread.row = some row →
    row.epoch = x.epoch → x.Holds w.executions row

section Run

variable {maxPushChain : Int} {w w' : World}

theorem sweepInv_init : SweepInv {} where
  past := fun _ hx => nomatch hx
  epoch := fun _ hx => nomatch hx
  holds := fun _ hx => nomatch hx

/-- A committed transaction keeps what is selected, unless it is the start
of a turn that disturbs it. -/
theorem SweepInv.exec (h : SweepInv w) {after : Thread}
    (hexec : op.exec maxPushChain w.clock wall w.thread = some after)
    (hadmits : ∀ epoch executionId responseMessageId,
      op = .startCloudTurn epoch executionId responseMessageId →
      ∀ x ∈ w.selections, x.epoch = epoch → x.Admits executionId) :
    SweepInv { w with thread := after } := by
  have hsteps := Op.exec_row hexec
  have hmono := hsteps.epoch.1
  refine { h with epoch := ?_, holds := ?_ }
  · intro x hx
    exact (h.epoch x hx).trans hmono
  · intro x hx row' hrow' hepoch
    have hafter : after.row = some row' := hrow'
    rw [hafter] at hsteps
    -- the epoch stood still since the read, so this step kept it too
    have hstood := h.epoch x hx
    generalize hrow : w.thread.row = current at hsteps hstood
    cases hsteps with
    | first record hheld =>
        have hzero : x.epoch ≤ 0 := hstood
        have hone : 1 = x.epoch := hepoch
        omega
    | @step row _ hstep =>
        have hle : row.epoch ≤ row'.epoch := hstep.epoch.1
        have hge : x.epoch ≤ row.epoch := hstood
        have hsame : row.epoch = x.epoch := by omega
        refine (h.holds x hx row hrow hsame).still
          (hstep.still (by omega)) ?_
        intro executionId responseMessageId hop
        exact hadmits _ _ _ hop x hx hsame.symm
    | published row refs hstate =>
        have hstill : Row.Still w.clock op row
            (row.published w.clock (row.lastSeq + 1) refs) :=
          .same ⟨rfl, rfl, rfl, rfl, rfl, rfl, rfl, rfl, rfl⟩
        refine (h.holds x hx row hrow hepoch).still hstill ?_
        intro executionId responseMessageId hop
        exact hadmits _ _ _ hop x hx hepoch.symm

/-- What no transaction ran on, and no event selected, is left alone. -/
theorem SweepInv.ran (h : SweepInv w)
    (hadmits : ∀ epoch executionId responseMessageId,
      op = .startCloudTurn epoch executionId responseMessageId →
      ∀ x ∈ w.selections, x.epoch = epoch → x.Admits executionId) :
    SweepInv (w.ran maxPushChain op wall) := by
  rw [World.ran]
  cases hexec : op.exec maxPushChain w.clock wall w.thread with
  | none => exact h
  | some after => exact h.exec hexec hadmits

/-- A change of the executions keeps what is selected when a dead turn
that is selected stays dead. -/
theorem SweepInv.changed (h : SweepInv w) {executions : List Execution}
    (hdead : ∀ x ∈ w.selections, x.what = .reap → ∀ e ∈ w.executions,
      e.id = x.executionId → e.dead x.clock → e ∈ executions) :
    SweepInv { w with executions := executions } := by
  refine { h with holds := ?_ }
  intro x hx row hrow hepoch
  refine (h.holds x hx row hrow hepoch).changed ?_
  intro hwhat e he hid hgone
  exact ⟨e, hdead x hx hwhat e he hid hgone, hid, hgone⟩

theorem SweepInv.fewer (h : SweepInv w) {selections : List Selection}
    (hsub : ∀ x ∈ selections, x ∈ w.selections) :
    SweepInv { w with selections := selections } where
  past := fun x hx => h.past x (hsub x hx)
  epoch := fun x hx => h.epoch x (hsub x hx)
  holds := fun x hx => h.holds x (hsub x hx)

theorem SweepInv.step (h : SweepInv w) {a : Event}
    (hok : w.Undisturbed a) (hstep : w.step maxPushChain a = some w') :
    SweepInv w' := by
  cases a with
  | tick elapsed =>
      cases hstep
      refine { h with past := ?_ }
      intro x hx
      exact (h.past x hx).trans (Nat.le_add_right _ _)
  | txn op wall =>
      rw [World.step] at hstep
      split at hstep
      case isTrue => cases hstep
      case isFalse =>
        cases hstep
        refine h.ran ?_
        intro epoch executionId responseMessageId hop
        rw [hop] at hok
        exact hok
  | admission id =>
      rw [World.step] at hstep
      split at hstep
      case isTrue => cases hstep
      case isFalse =>
        cases hstep
        refine h.changed ?_
        intro x _ _ e he _ _
        exact List.mem_append_left _ he
  | claim id _ _ | settle id =>
      cases hstep
      refine h.changed ?_
      intro x hx hwhat e he hid _
      refine mem_changeExecution he ?_
      intro hchanged
      exact absurd (hid.symm.trans hchanged) (hok x hx hwhat)
  | renew id ttl =>
      cases hstep
      refine h.changed ?_
      intro x hx _ e he _ hgone
      refine mem_changeExecution he ?_
      intro _
      exact (hgone.refused (h.past x hx) ttl).1
  | releaseClaim id =>
      cases hstep
      refine h.changed ?_
      intro x hx _ e he _ hgone
      refine mem_changeExecution he ?_
      intro _
      exact (hgone.refused (h.past x hx) 0).2
  | select what now idleRetention =>
      simp only [World.step, Option.bind_eq_some_iff] at hstep
      obtain ⟨row, hrow, hstep⟩ := hstep
      split at hstep
      case isFalse => cases hstep
      case isTrue hdue =>
        cases hstep
        constructor
        · intro x hx
          rcases List.mem_append.1 hx with hx | hx
          · exact h.past x hx
          · rw [List.mem_singleton.1 hx]
        · intro x hx
          rcases List.mem_append.1 hx with hx | hx
          · exact h.epoch x hx
          · rw [List.mem_singleton.1 hx]
            show row.epoch ≤ epochOf w.thread.row
            rw [hrow]
            exact Nat.le_refl _
        · intro x hx row' hrow' hepoch
          rcases List.mem_append.1 hx with hx | hx
          · exact h.holds x hx row' hrow' hepoch
          · rw [List.mem_singleton.1 hx]
            obtain rfl : row = row' := Option.some.inj (hrow.symm.trans hrow')
            exact fun _ => hdue
  | fire i =>
      simp only [World.step, Option.map_eq_some_iff] at hstep
      obtain ⟨x, hx, rfl⟩ := hstep
      have hran : SweepInv (w.ran maxPushChain x.op w.clock) := by
        refine h.ran ?_
        intro epoch executionId responseMessageId hop
        exact absurd hop x.op_ne_start
      exact hran.fewer fun y hy => List.mem_of_mem_eraseIdx hy

theorem SweepInv.commits_due (h : SweepInv w) {x : Selection}
    (hx : x ∈ w.selections) {after : Thread}
    (hexec : x.op.exec maxPushChain w.clock w.clock w.thread = some after) :
    ∃ row, w.thread.row = some row ∧ x.due w.executions row := by
  obtain ⟨row, hrow, hepoch, hreap⟩ := Selection.op_commits hexec
  exact ⟨row, hrow, h.holds x hx row hrow hepoch hreap⟩

end Run

/-- In every run none of whose events disturbs a selection, a transition
that commits finds its row due by the condition it was selected by. -/
theorem timed_only_while_due (maxPushChain : Int) (as : List Event)
    (w : World) (hmeets : Meets (World.step maxPushChain)
      World.Undisturbed {} as)
    (hrun : run (World.step maxPushChain) {} as = some w)
    (x : Selection) (hx : x ∈ w.selections) (after : Thread)
    (hexec : x.op.exec maxPushChain w.clock w.clock w.thread = some after) :
    ∃ row, w.thread.row = some row ∧ x.due w.executions row := by
  have hinv : SweepInv w :=
    run_inv (fun _ _ _ hi hok hstep => SweepInv.step hi hok hstep)
      as {} w sweepInv_init hmeets hrun
  exact hinv.commits_due hx hexec

-- ============================================================ disturbances

/-- A thread is sent, and its owner forgets it. -/
def forgottenRun : List Event :=
  [.txn (.begin (some ⟨true, 7⟩) 0 sendRecord) 0,
    .txn (.publish 0 1000 "workspaces"
      (sendRequest .compact [] none 1 100)) 0,
    .txn (.complete smallSend) 0, .tick (25 * hour)]

/-- Two replicas read the row as idle, and the first of them erases it. -/
theorem timed_only_while_due_forgotten :
    ∃ w x row after,
      run (World.step 0) {} (forgottenRun
        ++ [.select .idleErase (25 * hour) 0,
          .select .idleErase (25 * hour) 0]) = some w
      ∧ x ∈ w.selections
      ∧ x.op.exec 0 w.clock w.clock w.thread = some after
      ∧ w.thread.row = some row ∧ x.due w.executions row :=
  have hrow := timed_only_while_due 0 (forgottenRun
    ++ [.select .idleErase (25 * hour) 0,
      .select .idleErase (25 * hour) 0]) _ (by decide) rfl _
    List.mem_cons_self _ rfl
  ⟨_, _, hrow.choose, _, rfl, List.mem_cons_self, rfl, hrow.choose_spec⟩

/-- After the run, the transaction of a selection commits although the row
is not due. -/
def FiresNotDue (as : List Event) (what : Swept) : Prop :=
  ∃ w x row after, run (World.step 0) {} as = some w
    ∧ x ∈ w.selections ∧ x.what = what
    ∧ w.thread.row = some row ∧ ¬ x.due w.executions row
    ∧ x.op.exec 0 w.clock w.clock w.thread = some after

/-- A cloud turn runs between the read of an idle row and its erasure. -/
def revivedRun : List Event :=
  forgottenRun
    ++ [.select .idleErase (25 * hour) 0, .txn (.startCloudTurn 2 60 61) 0,
      .tick minute, .txn (.finishCloudTurn 2 60) 0]

/-- A new worker claims the execution between the read of a dead turn and
its reaping. -/
def reclaimedRun : List Event :=
  forgottenRun
    ++ [.admission 60, .txn (.startCloudTurn 2 60 61) 0,
      .claim 60 minute true, .tick (2 * minute), .select .reap 0 0,
      .claim 60 minute true]

/-- The thread that was just used is erased, and the turn that a live
worker runs is ended. -/
theorem timed_while_not_due :
    FiresNotDue revivedRun .idleErase ∧ FiresNotDue reclaimedRun .reap :=
  ⟨⟨_, _, _, _, rfl, List.mem_cons_self, rfl, rfl, by decide, rfl⟩,
    ⟨_, _, _, _, rfl, List.mem_cons_self, rfl, rfl, by decide, rfl⟩⟩

end Elitea.Handoff
