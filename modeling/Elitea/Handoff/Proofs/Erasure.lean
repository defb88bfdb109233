/-
An erasure and the handoffs after it.

`eraseThread` is started for a row at one epoch, and only its last step,
`MarkErased`, compares the epoch again. The steps before it retire every
segment and delete every object under the thread's prefix, whatever epoch
they are of: an eraser that was slow deletes what the person has sent since
(`slowErasure`).

What holds: nothing of the tables or the storage is of an epoch past the
row's (`EpochInv`), so a step of an eraser that runs while the row is still
at its epoch meets nothing newer, and `MarkErased` touches no other row
(`erasure_spares_newer`).
-/
import Elitea.Handoff.Proofs.Storage

namespace Elitea.Handoff

open Elitea.Lib

variable {p : Proc} {epoch : Nat}

/-- The epoch that an upload in flight was admitted in. -/
def Proc.uploadEpoch : Proc → Option Nat
  | .putSegment _ _ _ epoch | .lookSegment _ _ epoch
  | .hashSegment _ _ epoch | .putUpload _ _ epoch | .lookAgain _ _ epoch
  | .copyUpload _ _ epoch | .writeSegment _ _ epoch _
  | .completeMultipart _ _ epoch => some epoch
  | _ => none

/-- Nothing is of an epoch past the row's. -/
structure EpochInv (s : Storage) : Prop where
  segments : ∀ seg ∈ s.thread.segments, seg.epoch ≤ epochOf s.thread.row
  objects : ∀ o ∈ s.objects, o.epoch ≤ epochOf s.thread.row
  moved : ∀ m ∈ s.movedAt, m.2 ≤ epochOf s.thread.row
  uploads : ∀ p ∈ s.procs, ∀ epoch ∈ p.uploadEpoch,
    epoch ≤ epochOf s.thread.row

section Steps

variable {length : Sha256 → Nat} {maxPushChain : Int} {s s' : Storage}
  {x : Answer}

theorem epochInv_init : EpochInv {} where
  segments := fun _ h => nomatch h
  objects := fun _ h => nomatch h
  moved := fun _ h => nomatch h
  uploads := fun _ h => nomatch h

theorem Proc.Puts.uploadEpoch {bucket : String} {key : ObjectKey}
    {content : Sha256} (h : p.Puts s x bucket key content epoch) :
    p.uploadEpoch = some epoch := by
  cases h <;> rfl

theorem Proc.uploadEpoch_eraser (h : p.eraser ≠ none) :
    p.uploadEpoch = none := by
  cases p with
  | retire _ _ | eraseList _ _ _ | eraseBatch _ _ _ _ _
    | eraseRelist _ _ _ _ | deleteEnv _ | markErased _ => rfl
  | _ => exact absurd rfl h

/-- A request that goes on as an upload was one. -/
theorem Proc.Resumes.uploadEpoch {p' : Proc} (h : p.Resumes length s x p')
    (hepoch : p'.uploadEpoch = some epoch) : p.uploadEpoch = some epoch := by
  cases h with
  | missing hp hp' =>
      rcases hp with rfl | rfl <;> rcases hp' with rfl | rfl <;> exact hepoch
  | received _ _ _ _ | promotes _ _ _ | readBack _ _ _ => exact hepoch
  | erases heraser hsame =>
      rw [uploadEpoch_eraser (hsame ▸ heraser)] at hepoch
      cases hepoch
  | _ => cases hepoch

/-- What a transaction has to keep: the epoch does not go back, and the
segments and the refs are of epochs up to it. -/
structure Storage.Ages (s s' : Storage) : Prop where
  mono : epochOf s.thread.row ≤ epochOf s'.thread.row
  segments : ∀ seg ∈ s'.thread.segments, seg.epoch ≤ epochOf s'.thread.row
  moved : ∀ m ∈ s'.movedAt, m.2 ≤ epochOf s'.thread.row

/-- The stamps of a segment say nothing of its epoch. -/
theorem EpochInv.restamped (h : EpochInv s) {f : SegmentRow → SegmentRow}
    {seg : SegmentRow} (hseg : seg ∈ s.thread.segments.map f)
    (hf : ∀ seg, (f seg).epoch = seg.epoch) :
    seg.epoch ≤ epochOf s.thread.row := by
  obtain ⟨old, hold, rfl⟩ := List.mem_map.1 hseg
  rw [hf]
  exact h.segments old hold

/-- A transaction that leaves the row and restamps the segments. -/
theorem EpochInv.ages_restamped (h : EpochInv s)
    {f : SegmentRow → SegmentRow}
    (hrow : epochOf s'.thread.row = epochOf s.thread.row)
    (hsegments : s'.thread.segments = s.thread.segments.map f)
    (hmoved : s'.movedAt = s.movedAt)
    (hf : ∀ seg, (f seg).epoch = seg.epoch) : s.Ages s' := by
  constructor
  · exact Nat.le_of_eq hrow.symm
  · intro seg hseg
    rw [hsegments] at hseg
    rw [hrow]
    exact h.restamped hseg hf
  · rw [hrow, hmoved]
    exact h.moved

theorem EpochInv.ages_txn (h : EpochInv s) {op : Op} {wall : Time}
    {after : Thread} (hop : op.requested = false)
    (hexec : op.exec maxPushChain s.clock wall s.thread = some after) :
    s.Ages { s with thread := after } := by
  have hmono := (Op.exec_row hexec).epoch.1
  refine ⟨hmono, ?_, fun m hm => (h.moved m hm).trans hmono⟩
  intro seg hseg
  refine Nat.le_trans ?_ hmono
  rcases Op.exec_segments hop hexec with hsame | hsuperseded
  · exact h.segments seg (hsame ▸ hseg)
  · have hseg' : seg ∈ after.segments := hseg
    rw [hsuperseded] at hseg'
    exact h.restamped hseg' fun _ => rfl

theorem EpochInv.ages_published (h : EpochInv s) {used : Nat}
    {limits : Limits} {bucket : String} {request : PublishRequest}
    {after : Thread} {result : PublishResult}
    (hpublish : publishRequest s.clock used maxPushChain
      limits.maxProjectWorkspaceBytes bucket request s.thread
        = .ok (after, result)) :
    s.Ages (s.published request after result) := by
  obtain ⟨row, hrow, hepoch, ⟨hsame, hreplayed⟩ | ⟨hfresh, kind, hafter⟩⟩ :=
    publishRequest_result hpublish
  · rw [Storage.published, if_pos hreplayed, hsame]
    exact ⟨Nat.le_refl _, h.segments, h.moved⟩
  · rw [Storage.published, if_neg (by rw [hfresh]; decide)]
    have hat : epochOf s.thread.row = request.epoch := by
      rw [hrow]
      exact hepoch
    have hstands : epochOf after.row = epochOf s.thread.row := by
      rw [hafter, hrow]
      rfl
    refine ⟨Nat.le_of_eq hstands.symm, ?_, ?_⟩
    · intro seg hseg
      rw [hstands]
      rw [hafter] at hseg
      rcases List.mem_append.1 hseg with hseg | hseg
      · split at hseg
        · exact h.restamped hseg fun _ => rfl
        · exact h.segments seg hseg
      · rw [List.mem_singleton.1 hseg, hat]
        exact Nat.le_refl _
    · intro m hm
      rw [hstands]
      rcases List.mem_append.1 hm with hm | hm
      · obtain ⟨ref, -, rfl⟩ := List.mem_map.1 hm
        exact Nat.le_of_eq hat.symm
      · exact h.moved m hm

theorem epochOf_markErased (now : Time) (epoch : Nat) (row : Option Row) :
    epochOf (row.map (markErased now epoch)) = epochOf row := by
  cases row with
  | none => rfl
  | some row =>
      show (markErased now epoch row).epoch = row.epoch
      rw [markErased]
      split <;> rfl

theorem EpochInv.ages_call (h : EpochInv s)
    (hwrites : p.Writes maxPushChain s x s') : s.Ages s' := by
  cases hwrites with
  | kept hthread hgrants hmoved =>
      constructor
      · rw [hthread]
      · rw [hthread]
        exact h.segments
      · rw [hthread, hmoved]
        exact h.moved
  | published hpublish => exact h.ages_published hpublish
  | released buckets failed =>
      refine h.ages_restamped rfl rfl rfl ?_
      intro seg
      split <;> rfl
  | retired epoch buckets => exact h.ages_restamped rfl rfl rfl fun _ => rfl
  | markedErased epoch =>
      exact h.ages_restamped (epochOf_markErased _ _ _)
        (List.map_id _).symm rfl fun _ => rfl

/-- The objects after a call are of epochs up to the row's. -/
theorem EpochInv.touched (h : EpochInv s) (hp : p ∈ s.procs)
    {objects : Objects} (htouch : p.Touches s x objects) :
    ∀ o ∈ objects, o.epoch ≤ epochOf s.thread.row := by
  intro o ho
  cases htouch with
  | kept => exact h.objects o ho
  | deleted _ => exact h.objects o (Objects.mem_deleteBatch.1 ho).1
  | put reported hputs =>
      rcases List.mem_cons.1 ho with rfl | ho
      · exact h.uploads p hp _ hputs.uploadEpoch
      · exact h.objects o (Objects.mem_deleteBatch.1 ho).1

theorem EpochInv.next (h : EpochInv s) {i : Nat} (hp : s.procs[i]? = some p) :
    EpochInv (((p.next length maxPushChain s x).1).resume i
      (p.next length maxPushChain s x).2) := by
  have hmem : p ∈ s.procs := List.mem_of_getElem? hp
  obtain ⟨hwrites, -, hprocs⟩ := p.next_tables length maxPushChain s x
  have hages := h.ages_call hwrites
  constructor
  · exact hages.segments
  · intro o ho
    exact (h.touched hmem (p.next_objects length maxPushChain s x) o ho).trans
      hages.mono
  · exact hages.moved
  · intro p' hp' epoch hepoch
    refine Nat.le_trans ?_ hages.mono
    have hfrom := Storage.mem_resume hp'
    rw [hprocs] at hfrom
    rcases hfrom with hp' | hnext
    · exact h.uploads p' hp' epoch hepoch
    · exact h.uploads p hmem epoch
        ((Proc.next_resumes hnext).uploadEpoch hepoch)

theorem EpochInv.spawn (h : EpochInv s)
    (hp : ∀ epoch ∈ p.uploadEpoch, epoch ≤ epochOf s.thread.row) :
    EpochInv (s.spawn p) where
  segments := h.segments
  objects := h.objects
  moved := h.moved
  uploads := by
    intro q hq epoch hepoch
    rcases List.mem_append.1 hq with hq | hq
    · exact h.uploads q hq epoch hepoch
    · rw [List.mem_singleton.1 hq] at hepoch
      exact hp epoch hepoch

/-- A request that starts on the current row. -/
theorem EpochInv.started (h : EpochInv s) {start : Row → Option Proc}
    (hstart : ∀ row p, s.thread.row = some row → start row = some p →
      ∀ epoch ∈ p.uploadEpoch, epoch = row.epoch)
    (hstep : (s.thread.row.bind start).map s.spawn = some s') :
    EpochInv s' := by
  obtain ⟨p, hp, rfl⟩ := Option.map_eq_some_iff.1 hstep
  obtain ⟨row, hrow, hp⟩ := Option.bind_eq_some_iff.1 hp
  refine h.spawn ?_
  intro epoch hepoch
  rw [hstart row p hrow hp epoch hepoch, hrow]
  exact Nat.le_refl _

theorem Storage.startPublish_uploadEpoch {buckets : Buckets} {limits : Limits}
    {used : Nat} {request : PublishRequest} {row : Row}
    (h : s.startPublish buckets limits used request row = some p) :
    p.uploadEpoch = none := by
  rw [startPublish] at h
  split at h
  · cases h
  · dsimp only at h
    repeat' split at h
    all_goals cases h
    all_goals rfl

theorem EpochInv.step (h : EpochInv s) {a : StoreEvent}
    (hstep : s.step length maxPushChain a = some s') : EpochInv s' := by
  cases a with
  | tick elapsed | grant g =>
      cases hstep
      exact ⟨h.segments, h.objects, h.moved, h.uploads⟩
  | txn op wall =>
      rw [Storage.step] at hstep
      split at hstep
      · cases hstep
      · next hop =>
        obtain ⟨after, hexec, rfl⟩ := Option.map_eq_some_iff.1 hstep
        have hages := h.ages_txn (Bool.eq_false_of_not_eq_true hop) hexec
        exact ⟨hages.segments, fun o ho => (h.objects o ho).trans hages.mono,
          hages.moved, fun p hp epoch hepoch =>
            (h.uploads p hp epoch hepoch).trans hages.mono⟩
  | publish buckets limits used request =>
      refine h.started ?_ hstep
      intro row p _ hp epoch hepoch
      rw [Storage.startPublish_uploadEpoch hp] at hepoch
      cases hepoch
  | uploadSegment buckets limits used caller epoch sha256 size =>
      refine h.started ?_ hstep
      intro row p _ hp e he
      rw [Storage.startUpload] at hp
      split at hp
      · cases hp
      · next hchecks =>
        cases hp
        cases he
        push Not at hchecks
        cases hfence : writerFence caller epoch row with
        | error e =>
            rw [hfence] at hchecks
            exact absurd rfl hchecks.2.2.1
        | ok u => exact (writerFence_eq_ok.1 hfence).2.1.symm
  | putObject buckets caller sha256 wall =>
      refine h.started ?_ hstep
      intro row p _ hp epoch hepoch
      rw [Storage.startPut] at hp
      split at hp
      · cases hp
      · obtain ⟨g, -, hp⟩ := Option.bind_eq_some_iff.1 hp
        split at hp
        · cases hp
        · cases hp
          exact (Option.some.inj hepoch).symm
  | completeUpload buckets caller grantId wall =>
      refine h.started ?_ hstep
      intro row p _ hp epoch hepoch
      rw [Storage.startComplete] at hp
      split at hp
      · cases hp
      · obtain ⟨g, -, hp⟩ := Option.bind_eq_some_iff.1 hp
        split at hp
        · cases hp
        · cases hp
          exact (Option.some.inj hepoch).symm
  | sweepObjects buckets now batch =>
      cases hstep
      have hages : s.Ages { s with thread := (claimSupersededObjects s.clock
          now batch s.grants s.thread).1 } := by
        refine h.ages_restamped rfl rfl rfl ?_
        intro seg
        split <;> rfl
      refine EpochInv.spawn ⟨hages.segments, h.objects, h.moved, h.uploads⟩ ?_
      intro epoch hepoch
      cases hepoch
  | sweepOrphans bucket now page =>
      cases hstep
      refine h.spawn ?_
      intro epoch hepoch
      cases hepoch
  | eraseThread buckets =>
      obtain ⟨row, -, hstep⟩ := Option.bind_eq_some_iff.1 hstep
      split at hstep
      · cases hstep
        refine h.spawn ?_
        intro epoch hepoch
        cases hepoch
      · cases hstep
  | next i x =>
      obtain ⟨p, hp, rfl⟩ := Option.map_eq_some_iff.1 hstep
      exact h.next hp

end Steps

-- =============================================================== the theorem

/-- Nothing that was published or uploaded past the epoch is touched. -/
structure SparesNewer (epoch : Nat) (s s' : Storage) : Prop where
  segments : ∀ seg ∈ s.thread.segments, epoch < seg.epoch →
    seg ∈ s'.thread.segments
  refs : ∀ name moved, (name, moved) ∈ s.movedAt → epoch < moved →
    s'.thread.refs.get name = s.thread.refs.get name
  objects : ∀ o ∈ s.objects, epoch < o.epoch → o ∈ s'.objects

/-- A row at another epoch is not marked. -/
def SparesRow (epoch : Nat) (s s' : Storage) : Prop :=
  ∀ row, s.thread.row = some row → row.epoch ≠ epoch →
    s'.thread.row = some row

/-- At the epoch of the row there is nothing newer. -/
theorem EpochInv.sparesNewer {s s' : Storage} (h : EpochInv s)
    (hepoch : epochOf s.thread.row = epoch) : SparesNewer epoch s s' where
  segments := fun seg hseg hnewer =>
    absurd (hepoch ▸ h.segments seg hseg) (Nat.not_le.2 hnewer)
  refs := fun name moved hmoved hnewer =>
    absurd (hepoch ▸ h.moved (name, moved) hmoved) (Nat.not_le.2 hnewer)
  objects := fun o ho hnewer =>
    absurd (hepoch ▸ h.objects o ho) (Nat.not_le.2 hnewer)

/-- The calls of an erasure leave the row of another epoch alone. -/
theorem Proc.Writes.sparesRow {maxPushChain : Int} {s s' : Storage}
    {x : Answer} (hp : p.eraser = some epoch)
    (h : p.Writes maxPushChain s x s') : SparesRow epoch s s' := by
  intro row hrow hother
  cases h with
  | kept hthread _ _ => rw [hthread, hrow]
  | published _ => cases hp
  | released _ _ => cases hp
  | retired _ _ => exact hrow
  | markedErased marked =>
      obtain rfl : marked = epoch := Option.some.inj hp
      show s.thread.row.map _ = some row
      rw [hrow, Option.map_some, Handoff.markErased, if_neg]
      intro hcond
      exact hother hcond.2.1

/-- In every run, a step of an erasure that was started for the row at
`epoch` touches no row of another epoch; and while the row is still at
`epoch`, nothing that was published or uploaded past it. -/
theorem erasure_spares_newer (length : Sha256 → Nat) (maxPushChain : Int)
    (as : List StoreEvent) (s : Storage)
    (hrun : run (Storage.step length maxPushChain) {} as = some s)
    (i : Nat) (p : Proc) (epoch : Nat) (hp : s.procs[i]? = some p)
    (heraser : p.eraser = some epoch) (x : Answer) (s' : Storage)
    (hstep : s.step length maxPushChain (.next i x) = some s') :
    SparesRow epoch s s'
      ∧ (epochOf s.thread.row = epoch → SparesNewer epoch s s') := by
  have hinv : EpochInv s :=
    run_inv' (fun _ _ _ hi h => EpochInv.step hi h) as {} s epochInv_init hrun
  refine ⟨?_, fun hepoch => hinv.sparesNewer hepoch⟩
  obtain ⟨q, hq, rfl⟩ := Option.map_eq_some_iff.1 hstep
  obtain rfl : p = q := Option.some.inj (hp.symm.trans hq)
  have hspares : SparesRow epoch s (p.next length maxPushChain s x).1 :=
    (p.next_tables length maxPushChain s x).1.sparesRow heraser
  exact hspares

-- ============================================================= slow erasures

def oneBucket : Buckets := ⟨"workspaces", none⟩

def roomyLimits : Limits := ⟨1000, 1000⟩

/-- A send up to its first publish, in the epoch it begins, while `i` other
requests are in flight. -/
def sendAt (i epoch : Nat) (sha256 : Sha256) : List StoreEvent :=
  [.txn (.begin (some ⟨true, 7⟩) 0 sendRecord) 0,
    .uploadSegment oneBucket roomyLimits 0 (.desktop 7) epoch sha256 10,
    .next i { content := sha256, reported := true },
    .publish oneBucket roomyLimits 0
      { sendRequest .compact [] none 1 sha256 with epoch := epoch },
    .next i {}, .next i {}]

/-- The thread is sent and erased. The request's erasure is slow, and two
minutes later a sweep claims the erasure and begins it too. -/
def erasedRun : List StoreEvent :=
  sendAt 0 1 100
    ++ [.txn (.erase 7 false) 0, .eraseThread oneBucket, .tick (2 * minute),
      .txn .claimErasure 0, .eraseThread oneBucket]

/-- A step of an erasure at epoch two, in time. -/
theorem erasure_spares_newer_erasedRun :
    ∃ s s', run (Storage.step (fun _ => 10) 0) {} erasedRun = some s
      ∧ s.step (fun _ => 10) 0 (.next 0 {}) = some s'
      ∧ s.thread.segments ≠ [] ∧ epochOf s.thread.row = 2
      ∧ SparesRow 2 s s' ∧ SparesNewer 2 s s' :=
  have h := erasure_spares_newer (fun _ => 10) 0 erasedRun _ rfl 0 _ 2 rfl rfl
    {} _ rfl
  ⟨_, _, rfl, rfl, List.cons_ne_nil _ _, rfl, h.1, h.2 rfl⟩

/-- The sweep finishes the erasure, and the person sends the thread again,
before the request's own erasure goes on. -/
def slowErasure : List StoreEvent :=
  erasedRun
    ++ [.next 1 {}, .next 1 { page := [.segment 100] }, .next 1 {},
      .next 1 {}, .next 1 {}, .next 1 {}, .next 1 {}]
    ++ sendAt 1 3 101

/-- After the run, a step of the erasure at `epoch` that is the first
request in flight touches something newer. -/
def TouchesNewer (as : List StoreEvent) (epoch : Nat) : Prop :=
  ∃ s p s', run (Storage.step (fun _ => 10) 0) {} as = some s
    ∧ s.procs[0]? = some p ∧ p.eraser = some epoch
    ∧ s.step (fun _ => 10) 0 (.next 0 {}) = some s'
    ∧ ¬ SparesNewer epoch s s'

/-- The request's erasure, started at epoch two, retires the segment that
was published at epoch three, and then deletes its object. -/
theorem slow_erasure_touches_newer :
    TouchesNewer slowErasure 2
      ∧ TouchesNewer (slowErasure
        ++ [.next 0 {}, .next 0 { page := [.segment 101] }]) 2 := by
  constructor
  · refine ⟨_, _, _, rfl, rfl, rfl, rfl, ?_⟩
    intro h
    have hkept := h.segments _ (List.mem_of_getElem? (i := 1) rfl) (by decide)
    revert hkept
    decide
  · refine ⟨_, _, _, rfl, rfl, rfl, rfl, ?_⟩
    intro h
    have hkept := h.objects _ (List.mem_of_getElem? (i := 0) rfl) (by decide)
    revert hkept
    decide

end Elitea.Handoff
