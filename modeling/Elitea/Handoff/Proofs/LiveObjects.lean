/-
When the object of a live segment is stored.

The check of an object, the decision to delete it and the deletion are
calls of different requests. A request `Threatens` an object from the
moment it has decided, or is about to write bytes nobody has checked; a
publish `Relies` on one from its check to its transaction. The code looks
at the live rows when it decides, and at nothing when it acts: an upload
that found no live segment overwrites one published since
(`overwrittenRun`), and a sweep deletes an object that was published again
after its row was claimed (`sweptRun`).

`Apart` says that these two do not overlap. In a run that keeps to it, an
object that is `Needed`, by a live row or by a publish that relies on it,
holds its bytes and is threatened by nobody (`StoredInv`), so every live
segment's object is stored (`live_objects_stored`). What the code's own
checks give is used where a request turns into a threat: no live segment
for an upload, no other row and no grant for a sweep, an unspent grant for
a multipart upload, wrong bytes for a publish that drops them.
-/
import Elitea.Handoff.Proofs.Erasure
import Elitea.Handoff.Proofs.HeadChain

namespace Elitea.Handoff

open Elitea.Lib

variable {seg : SegmentRow} {objects : Objects} {o : Stored} {grantId : Nat}
  {buckets : Buckets} {row : Row}

-- ================================================================= the guard

/-- The request may delete or overwrite the object. A publish that declares
another size than its digest has drops the object when it reads it. -/
def Proc.Threatens (length : Sha256 → Nat) (bucket : String)
    (sha256 : Sha256) : Proc → Prop
  | .putSegment b k _ _ | .undoSegment b k | .dropSegment b k =>
      b = bucket ∧ k = sha256
  | .getSegment b _ request =>
      b = bucket ∧ request.sha256 = sha256
        ∧ request.bytes ≠ length sha256
  | .completeMultipart b grant _ => b = bucket ∧ grant.sha256 = sha256
  | .sweep _ pending _ =>
      ∃ y ∈ pending, y.shared = false ∧ y.physicalBucket = bucket
        ∧ y.sha256 = sha256
  | .orphans b _ _ refs => b = bucket ∧ .segment sha256 ∈ refs
  | _ => False

/-- The publish has checked the object, and not yet committed. -/
def Proc.Relies (bucket : String) (sha256 : Sha256) : Proc → Prop
  | .publishTx b _ request => b = bucket ∧ request.sha256 = sha256
  | _ => False

/-- The upload has checked its temporary object, and not yet copied it. -/
def Proc.Holding (bucket : String) (key : ObjectKey) : Proc → Prop
  | .lookAgain b grant _ | .copyUpload b grant _ =>
      b = bucket ∧ key = .upload grant.sha256 grant.id
  | _ => False

instance (length : Sha256 → Nat) (bucket : String) (sha256 : Sha256)
    (p : Proc) : Decidable (p.Threatens length bucket sha256) := by
  unfold Proc.Threatens
  split <;> infer_instance

instance (bucket : String) (sha256 : Sha256) (p : Proc) :
    Decidable (p.Relies bucket sha256) := by
  unfold Proc.Relies
  split <;> infer_instance

instance (bucket : String) (key : ObjectKey) (p : Proc) :
    Decidable (p.Holding bucket key) := by
  unfold Proc.Holding
  split <;> infer_instance

/-- No publish relies on the object. -/
def Storage.Unrelied (s : Storage) (bucket : String) (sha256 : Sha256) :
    Prop :=
  ∀ p ∈ s.procs, ¬ p.Relies bucket sha256

instance (s : Storage) (bucket : String) (sha256 : Sha256) :
    Decidable (s.Unrelied bucket sha256) :=
  inferInstanceAs (Decidable (∀ _ ∈ _, _))

section Guard

variable (length : Sha256 → Nat) (maxPushChain : Int)

/-- What a call must not overlap with. -/
def Storage.CallApart (s : Storage) (x : Answer) (p : Proc) : Prop :=
  match p with
  | .statSegment bucket limits request
  | .getSegment bucket limits request =>
      -- a check succeeds only while nobody threatens the object
      (p.next length maxPushChain s x).2
        = some (.publishTx bucket limits request) →
      ∀ q ∈ s.procs, ¬ q.Threatens length bucket request.sha256
  | .orphans bucket _ (o :: _) _ =>
      match o.key with
      | .segment sha256 => s.Unrelied bucket sha256
      | .upload _ _ => True
  | .putUpload bucket grant _ =>
      ∀ q ∈ s.procs, ¬ q.Holding bucket (.upload grant.sha256 grant.id)
  | _ => True

/-- The event does not overlap with what it could disturb. Erasures are not
part of these runs. -/
def Storage.Apart (s : Storage) : StoreEvent → Prop
  | .grant g => ∀ seg ∈ s.thread.live, seg.sha256 ≠ g.sha256
  | .uploadSegment buckets _ _ _ _ sha256 _ =>
      s.Unrelied buckets.write sha256
  | .completeUpload buckets _ grantId _ =>
      ∀ g ∈ s.grants, g.id = grantId → s.Unrelied buckets.write g.sha256
  | .sweepObjects _ now batch =>
      ∀ y ∈ (claimSupersededObjects s.clock now batch s.grants s.thread).2,
        y.shared = false → s.Unrelied y.physicalBucket y.sha256
  | .eraseThread _ => False
  | .next i x => ∀ p ∈ s.procs[i]?, s.CallApart length maxPushChain x p
  | _ => True

instance (s : Storage) (x : Answer) (p : Proc) :
    Decidable (s.CallApart length maxPushChain x p) := by
  unfold Storage.CallApart
  split
  case h_3 => split <;> infer_instance
  all_goals infer_instance

instance (s : Storage) (a : StoreEvent) :
    Decidable (s.Apart length maxPushChain a) := by
  unfold Storage.Apart
  split <;> infer_instance

end Guard

-- ============================================================ the invariant

/-- The object is stored under its key. -/
def Objects.holds (objects : Objects) (bucket : String)
    (sha256 : Sha256) : Prop :=
  ∃ o, objects.stat bucket (.segment sha256) = some o ∧ o.content = sha256

/-- A live segment has the object, or a publish relies on it. -/
def Storage.Needed (s : Storage) (bucket : String) (sha256 : Sha256) :
    Prop :=
  (∃ seg ∈ s.thread.live, seg.physicalBucket = bucket
    ∧ seg.sha256 = sha256)
  ∨ ∃ p ∈ s.procs, p.Relies bucket sha256

/-- The seqs of the log are distinct, and none is past the row's. -/
structure Numbered (t : Thread) : Prop where
  ascending : (t.segments.map SegmentRow.seq).Pairwise (· < ·)
  bounded : ∀ seq ∈ t.segments.map SegmentRow.seq, seq ≤ t.headSeq

structure StoredInv (length : Sha256 → Nat) (s : Storage) : Prop where
  numbered : Numbered s.thread
  /-- A live segment's grants are spent. -/
  spent : ∀ seg ∈ s.thread.live, ∀ g ∈ s.grants, g.sha256 = seg.sha256 →
    g.consumed = true
  /-- Only a superseded segment's object is stamped as deleted. -/
  kept : ∀ seg ∈ s.thread.live, seg.objectDeletedAt = none
  /-- What is needed is stored. -/
  stored : ∀ bucket sha256, s.Needed bucket sha256 →
    s.objects.holds bucket sha256
  /-- What is needed is not threatened. -/
  safe : ∀ bucket sha256, s.Needed bucket sha256 →
    ∀ p ∈ s.procs, ¬ p.Threatens length bucket sha256
  /-- A temporary object that was checked still has its bytes. -/
  holding : ∀ p ∈ s.procs, ∀ bucket sha256 grantId,
    p.Holding bucket (.upload sha256 grantId) →
    ∀ o, s.objects.stat bucket (.upload sha256 grantId) = some o →
      o.content = sha256
  /-- What was read back of it is the segment. -/
  readBack : ∀ p ∈ s.procs, ∀ bucket grant epoch content,
    p = .writeSegment bucket grant epoch content → content = grant.sha256
  erasers : ∀ p ∈ s.procs, p.eraser = none

theorem storedInv_init (length : Sha256 → Nat) : StoredInv length {} where
  numbered := ⟨.nil, fun _ h => nomatch h⟩
  spent := fun _ h => nomatch h
  kept := fun _ h => nomatch h
  stored := by
    intro bucket sha256 h
    rcases h with ⟨_, h, _⟩ | ⟨_, h, _⟩ <;> cases h
  safe := fun _ _ _ _ h => nomatch h
  holding := fun _ h => nomatch h
  readBack := fun _ h => nomatch h
  erasers := fun _ h => nomatch h

-- =============================================================== the tables

section Tables

variable {maxPushChain : Int} {now : Time} {t after : Thread}

theorem Numbered.change (h : Numbered t)
    (hchange : Thread.Change maxPushChain now t after) : Numbered after := by
  cases hchange with
  | kept _ hsegments hhead =>
      constructor
      · rw [hsegments]
        exact h.ascending
      · rw [hsegments, hhead]
        exact h.bounded
  | reset _ _ hseqs hhead =>
      constructor
      · rw [hseqs]
        exact h.ascending
      · rw [hseqs, hhead]
        exact h.bounded
  | published record row hrow _ _ _ =>
      have hlast : t.headSeq = row.lastSeq := by
        rw [Thread.headSeq, hrow]
      have hbounded := h.bounded
      rw [hlast] at hbounded
      constructor
      · rw [seqs_published, List.pairwise_append]
        refine ⟨h.ascending, List.pairwise_singleton _ _, ?_⟩
        intro a ha b hb
        rw [List.mem_singleton.1 hb]
        exact Nat.lt_succ_of_le (hbounded a ha)
      · rw [seqs_published]
        intro seq hseq
        show seq ≤ row.lastSeq + 1
        rcases List.mem_append.1 hseq with hseq | hseq
        · exact Nat.le_succ_of_le (hbounded seq hseq)
        · rw [List.mem_singleton.1 hseq]

theorem Numbered.restamped (h : Numbered t) {f : SegmentRow → SegmentRow}
    (hf : ∀ seg, (f seg).seq = seg.seq) :
    Numbered { t with segments := t.segments.map f } := by
  have hseqs : (t.segments.map f).map SegmentRow.seq
      = t.segments.map SegmentRow.seq := by
    rw [List.map_map]
    exact List.map_congr_left fun seg _ => hf seg
  constructor
  · show ((t.segments.map f).map SegmentRow.seq).Pairwise _
    rw [hseqs]
    exact h.ascending
  · show ∀ seq ∈ (t.segments.map f).map SegmentRow.seq, _
    rw [hseqs]
    exact h.bounded

/-- Two rows of the log with one seq are the same row. -/
theorem Numbered.unique (h : Numbered t) {a b : SegmentRow}
    (ha : a ∈ t.segments) (hb : b ∈ t.segments) (hseq : a.seq = b.seq) :
    a = b := by
  have hnodup : (t.segments.map SegmentRow.seq).Nodup :=
    h.ascending.imp fun hlt => Nat.ne_of_lt hlt
  exact List.inj_on_of_nodup_map hnodup ha hb hseq

theorem Thread.mem_live :
    seg ∈ t.live ↔ seg ∈ t.segments ∧ seg.supersededAt = none := by
  rw [Thread.live, liveSegments, List.mem_filter, decide_eq_true_iff]
  rfl

/-- `LiveSegment` finds a live segment of the digest, if there is one. -/
theorem Thread.liveSegment_some {sha256 : Sha256}
    (h : t.liveSegment sha256 = some seg) :
    seg ∈ t.live ∧ seg.sha256 = sha256 := by
  have hmem := List.mem_of_mem_head? (Option.mem_def.2 h)
  rw [List.mem_insertionSort, List.mem_filter] at hmem
  exact ⟨hmem.1, of_decide_eq_true hmem.2⟩

theorem Thread.liveSegment_none {sha256 : Sha256}
    (h : t.liveSegment sha256 = none) :
    ∀ seg ∈ t.live, seg.sha256 ≠ sha256 := by
  intro seg hseg hsha
  rw [Thread.liveSegment, List.head?_eq_none_iff] at h
  have hmem : seg ∈ (t.live.filter fun s => s.sha256 = sha256).insertionSort
      fun a b => b.seq ≤ a.seq := by
    rw [List.mem_insertionSort, List.mem_filter]
    exact ⟨hseg, decide_eq_true hsha⟩
  rw [h] at hmem
  cases hmem

end Tables

-- ==================================================================== calls

section Calls

variable {length : Sha256 → Nat} {maxPushChain : Int} {s s' : Storage}
  {x : Answer} {p p' : Proc} {bucket : String} {sha256 : Sha256}

/-- What a call deletes, it threatens. -/
theorem Proc.Deletes.threatens {keys : List ObjectKey}
    (h : p.Deletes bucket keys) (hkey : .segment sha256 ∈ keys)
    (heraser : p.eraser = none) : p.Threatens length bucket sha256 := by
  cases h with
  | dropSegment b k =>
      cases List.mem_singleton.1 hkey
      exact ⟨rfl, rfl⟩
  | undoSegment b k =>
      cases List.mem_singleton.1 hkey
      exact ⟨rfl, rfl⟩
  | dropUpload b g => cases List.mem_singleton.1 hkey
  | sweep buckets rest failed hshared =>
      cases List.mem_singleton.1 hkey
      exact ⟨_, List.mem_cons_self, hshared, rfl, rfl⟩
  | orphans b now refs => exact ⟨rfl, hkey⟩
  | eraseBatch epoch empty b refs buckets => cases heraser

/-- A call that writes a segment threatens it, or writes its bytes. -/
theorem StoredInv.puts (h : StoredInv length s) (hp : p ∈ s.procs)
    {content : Sha256} {epoch : Nat}
    (hputs : p.Puts s x bucket (.segment sha256) content epoch) :
    p.Threatens length bucket sha256 ∨ content = sha256 := by
  cases hputs with
  | putSegment b k size e => exact .inl ⟨rfl, rfl⟩
  | completeMultipart b g e => exact .inl ⟨rfl, rfl⟩
  | copyUpload b g e hstat =>
      exact .inr (h.holding _ hp _ _ _ ⟨rfl, rfl⟩ _ hstat)
  | writeSegment b g e c => exact .inr (h.readBack _ hp _ _ _ _ rfl)

/-- A call keeps the objects that are needed. -/
theorem StoredInv.holds_touched (h : StoredInv length s) (hp : p ∈ s.procs)
    (htouch : p.Touches s x objects) (hneeded : s.Needed bucket sha256) :
    objects.holds bucket sha256 := by
  obtain ⟨o, hstat, hcontent⟩ := h.stored bucket sha256 hneeded
  have hsafe := h.safe bucket sha256 hneeded p hp
  cases htouch with
  | kept => exact ⟨o, hstat, hcontent⟩
  | @deleted b keys hdeletes =>
      refine ⟨o, ?_, hcontent⟩
      rw [Objects.stat_deleteBatch, hstat]
      intro ⟨hbucket, hkey⟩
      rw [hbucket] at hsafe
      exact hsafe (hdeletes.threatens hkey (h.erasers p hp))
  | @put b key content epoch reported hputs =>
      by_cases hat : b = bucket ∧ key = .segment sha256
      · obtain ⟨rfl, rfl⟩ := hat
        rcases h.puts hp hputs with hthreat | hsame
        · exact absurd hthreat hsafe
        · exact ⟨_, Objects.stat_put_self _ _, hsame⟩
      · refine ⟨o, ?_, hcontent⟩
        rw [Storage.put, Objects.stat_put_other hat, hstat]

/-- A call that finds a needed object does not turn into a threat to it. -/
theorem StoredInv.resumes_safe (h : StoredInv length s) (hp : p ∈ s.procs)
    (hresumes : p.Resumes length s x p')
    (happart : s.CallApart length maxPushChain x p)
    (hneeded : s.Needed bucket sha256) :
    ¬ p'.Threatens length bucket sha256 := by
  intro hthreat
  obtain ⟨o, hstat, hcontent⟩ := h.stored bucket sha256 hneeded
  have hsafe := h.safe bucket sha256 hneeded p hp
  cases hresumes with
  | @dropped b limits request _ o' hfrom hfound hbad =>
      obtain ⟨rfl, rfl⟩ : b = bucket ∧ request.sha256 = sha256 := hthreat
      obtain rfl : o = o' := Option.some.inj (hstat.symm.trans hfound)
      rcases hbad with hother | ⟨rfl, hsize⟩
      · exact hother hcontent
      · rw [hcontent] at hsize
        exact hsafe ⟨rfl, rfl, fun heq => hsize heq.symm⟩
  | @sized b limits request o' hfound hsize =>
      obtain ⟨rfl, rfl, hother⟩ := hthreat
      obtain rfl : o = o' := Option.some.inj (hstat.symm.trans hfound)
      rw [hcontent] at hsize
      exact hother hsize.symm
  | undone b k size epoch => exact hsafe hthreat
  | swept buckets y rest failed failed' =>
      obtain ⟨z, hz, hshared, hbucket, hsha⟩ := hthreat
      exact hsafe ⟨z, List.mem_cons_of_mem _ hz, hshared, hbucket, hsha⟩
  | spared b now o' rest refs => exact hsafe hthreat
  | @orphaned b now o' rest refs hlive =>
      obtain ⟨rfl, hkey⟩ := hthreat
      rcases List.mem_append.1 hkey with hkey | hkey
      · exact hsafe ⟨rfl, hkey⟩
      · -- the key was just found without a live object
        have hkey' : o'.key = .segment sha256 :=
          (List.mem_singleton.1 hkey).symm
        rw [Storage.CallApart, hkey'] at happart
        rw [hkey', keyHasLiveObject, Bool.or_eq_false_iff] at hlive
        rcases hneeded with ⟨seg, hseg, -, hsha⟩ | ⟨q, hq, hrelies⟩
        · exact of_decide_eq_false hlive.1
            ⟨seg, (Thread.mem_live.1 hseg).1, hsha, h.kept seg hseg⟩
        · exact happart q hq hrelies
  | missing hfrom hto =>
      rcases hto with rfl | rfl <;> exact hthreat
  | erases heraser _ => exact heraser (h.erasers p hp)
  | _ => exact hthreat

/-- The segments that are live after a call were live, with the object they
had, or are the ones it publishes. -/
theorem StoredInv.live_writes (h : StoredInv length s) (hp : p ∈ s.procs)
    (hwrites : p.Writes maxPushChain s x s') (hseg : seg ∈ s'.thread.live) :
    seg.objectDeletedAt = none
      ∧ ((∃ old ∈ s.thread.live, old.physicalBucket = seg.physicalBucket
            ∧ old.sha256 = seg.sha256)
          ∨ p.Relies seg.physicalBucket seg.sha256) := by
  have hkept : ∀ old ∈ s.thread.live, old.objectDeletedAt = none
      ∧ ((∃ old' ∈ s.thread.live, old'.physicalBucket = old.physicalBucket
            ∧ old'.sha256 = old.sha256)
          ∨ p.Relies old.physicalBucket old.sha256) :=
    fun old hold => ⟨h.kept old hold, .inl ⟨old, hold, rfl, rfl⟩⟩
  cases hwrites with
  | kept hthread _ _ =>
      rw [hthread] at hseg
      exact hkept seg hseg
  | @published b limits request after result hpublish =>
      obtain ⟨row, -, -, ⟨rfl, hreplayed⟩ | ⟨hfresh, kind, rfl⟩⟩ :=
        publishRequest_result hpublish
      · rw [Storage.published, if_pos hreplayed] at hseg
        exact hkept seg hseg
      · rw [Storage.published, if_neg (by rw [hfresh]; decide)] at hseg
        replace hseg : seg ∈ (s.thread.published s.clock
            (request.record kind maxPushChain
              limits.maxProjectWorkspaceBytes b) row).live := hseg
        rw [live_published] at hseg
        rcases List.mem_append.1 hseg with hseg | hseg
        · split at hseg
          · cases hseg
          · exact hkept seg hseg
        · rw [List.mem_singleton.1 hseg]
          exact ⟨rfl, .inr ⟨rfl, rfl⟩⟩
  | released buckets failed =>
      obtain ⟨hmem, hlive⟩ := Thread.mem_live.1 hseg
      obtain ⟨old, hold, rfl⟩ := List.mem_map.1 hmem
      split at hlive
      · next hreleased =>
        have hold' : old ∈ s.thread.live := Thread.mem_live.2 ⟨hold, hlive⟩
        rw [if_pos hreleased]
        exact ⟨rfl, .inl ⟨old, hold', rfl, rfl⟩⟩
      · next hother =>
        rw [if_neg hother]
        exact hkept old (Thread.mem_live.2 ⟨hold, hlive⟩)
  | retired _ _ => cases h.erasers _ hp
  | markedErased _ => cases h.erasers _ hp

/-- A publish spends the grants of its digest. -/
theorem StoredInv.spent_writes (h : StoredInv length s) (hp : p ∈ s.procs)
    (hwrites : p.Writes maxPushChain s x s') :
    ∀ seg ∈ s'.thread.live, ∀ g ∈ s'.grants, g.sha256 = seg.sha256 →
      g.consumed = true := by
  intro seg hseg g hg hsha
  obtain ⟨-, hfrom⟩ := h.live_writes hp hwrites hseg
  cases hwrites with
  | kept hthread hgrants _ =>
      rw [hthread] at hseg
      rw [hgrants] at hg
      exact h.spent seg hseg g hg hsha
  | @published b limits request after result hpublish =>
      rw [Storage.published] at hg hseg
      split at hg
      · next hreplayed =>
        rw [if_pos hreplayed] at hseg
        obtain ⟨row, -, -, ⟨rfl, -⟩ | ⟨hfresh, -⟩⟩ :=
          publishRequest_result hpublish
        · exact h.spent seg hseg g hg hsha
        · rw [hfresh] at hreplayed
          cases hreplayed
      · obtain ⟨g', hg', rfl⟩ := List.mem_map.1 hg
        show (g'.consumed || decide (g'.sha256 = request.sha256)) = true
        rw [Bool.or_eq_true]
        rcases hfrom with ⟨old, hold, -, hold'⟩ | ⟨-, hrequest⟩
        · exact .inl (h.spent old hold g' hg' (hsha.trans hold'.symm))
        · exact .inr (decide_eq_true (hsha.trans hrequest.symm))
  | released buckets failed =>
      rcases hfrom with ⟨old, hold, -, hold'⟩ | hrelies
      · exact h.spent old hold g hg (hsha.trans hold'.symm)
      · exact absurd hrelies id
  | retired _ _ => cases h.erasers _ hp
  | markedErased _ => cases h.erasers _ hp

theorem StoredInv.numbered_writes (h : StoredInv length s)
    (hp : p ∈ s.procs) (hwrites : p.Writes maxPushChain s x s') :
    Numbered s'.thread := by
  cases hwrites with
  | kept hthread _ _ =>
      rw [hthread]
      exact h.numbered
  | @published b limits request after result hpublish =>
      have hexec : (Op.publish x.used limits.maxProjectWorkspaceBytes b
          request).exec maxPushChain s.clock s.clock s.thread
            = some after := by
        rw [Op.exec, hpublish]
        rfl
      have hafter : (s.published request after result).thread = after := by
        rw [Storage.published]
        split <;> rfl
      rw [hafter]
      exact h.numbered.change (Op.exec_tables hexec)
  | released buckets failed =>
      refine h.numbered.restamped ?_
      intro seg
      split <;> rfl
  | retired _ _ => cases h.erasers _ hp
  | markedErased _ => cases h.erasers _ hp

/-- A deletion brings no object back. -/
theorem Objects.stat_of_deleteBatch {b : String} {key : ObjectKey}
    {keys : List ObjectKey}
    (h : (objects.deleteBatch b keys).stat bucket key = some o) :
    objects.stat bucket key = some o := by
  by_cases hat : bucket = b ∧ key ∈ keys
  · obtain ⟨hmem, hbucket, hkey⟩ := Objects.stat_mem h
    refine absurd ⟨hbucket.trans hat.1, ?_⟩ (Objects.mem_deleteBatch.1 hmem).2
    rw [hkey]
    exact hat.2
  · rw [Objects.stat_deleteBatch hat] at h
    exact h

/-- A temporary object that another upload has checked is not written
again. -/
theorem StoredInv.stat_touched (hp : p ∈ s.procs)
    (happart : s.CallApart length maxPushChain x p)
    (htouch : p.Touches s x objects) {q : Proc} (hq : q ∈ s.procs)
    (hholding : q.Holding bucket (.upload sha256 grantId))
    (hstat : objects.stat bucket (.upload sha256 grantId) = some o) :
    s.objects.stat bucket (.upload sha256 grantId) = some o := by
  cases htouch with
  | kept => exact hstat
  | deleted hdeletes => exact Objects.stat_of_deleteBatch hstat
  | @put b key content epoch reported hputs =>
      by_cases hat : b = bucket ∧ key = .upload sha256 grantId
      · obtain ⟨rfl, rfl⟩ := hat
        cases hputs with
        | putUpload _ g e => exact absurd hholding (happart q hq)
      · rw [Storage.put, Objects.stat_put_other hat] at hstat
        exact hstat

/-- What a request holds as it goes on. -/
theorem StoredInv.resumes_holding (h : StoredInv length s) (hp : p ∈ s.procs)
    (happart : s.CallApart length maxPushChain x p)
    (hnext : (p.next length maxPushChain s x).2 = some p')
    (hholding : p'.Holding bucket (.upload sha256 grantId))
    (hstat : (p.next length maxPushChain s x).1.objects.stat bucket
      (.upload sha256 grantId) = some o) : o.content = sha256 := by
  cases Proc.next_resumes hnext with
  | @received b grant epoch hok hcontent =>
      obtain ⟨rfl, hkey⟩ := hholding
      cases hkey
      have hput : ((Proc.putUpload b grant epoch).next length maxPushChain
          s x).1.objects = (s.put b (.upload grant.sha256 grant.id)
            x.content x.reported epoch).objects := by
        rw [Proc.next, if_pos hok]
        dsimp only
        split <;> rfl
      rw [hput, Storage.put] at hstat
      have hself := Objects.stat_put_self s.objects
        { bucket := b, key := .upload grant.sha256 grant.id
          content := x.content, reported := x.reported
          lastModified := s.clock, epoch := epoch }
      obtain rfl := Option.some.inj (hself.symm.trans hstat)
      exact hcontent
  | promotes b grant epoch =>
      have hsame := StoredInv.stat_touched hp happart
        (Proc.next_objects length maxPushChain s x _) hp hholding hstat
      exact h.holding _ hp _ _ _ hholding o hsame
  | missing _ hto => rcases hto with rfl | rfl <;> exact absurd hholding id
  | erases heraser hsame => exact absurd (h.erasers p hp) heraser
  | _ => exact absurd hholding id

/-- What is needed after a call was needed, or is what the request has just
checked. -/
theorem StoredInv.needed_next (h : StoredInv length s) (hp : p ∈ s.procs)
    {i : Nat}
    (hneeded : ((p.next length maxPushChain s x).1.resume i
      (p.next length maxPushChain s x).2).Needed bucket sha256) :
    s.Needed bucket sha256
      ∨ ∃ p', (p.next length maxPushChain s x).2 = some p'
        ∧ p'.Relies bucket sha256 := by
  obtain ⟨hwrites, -, hprocs⟩ := p.next_tables length maxPushChain s x
  rcases hneeded with ⟨seg, hseg, rfl, rfl⟩ | ⟨q, hq, hrelies⟩
  · left
    rcases (h.live_writes hp hwrites hseg).2 with hold | hrelies
    · exact .inl hold
    · exact .inr ⟨p, hp, hrelies⟩
  · rcases Storage.mem_resume hq with hq | hq
    · rw [hprocs] at hq
      exact .inl (.inr ⟨q, hq, hrelies⟩)
    · exact .inr ⟨q, hq, hrelies⟩

/-- The object that a publish has just checked. -/
theorem Proc.Resumes.checked_stored (h : p.Resumes length s x p')
    (hrelies : p'.Relies bucket sha256) :
    ∃ limits request, request.sha256 = sha256
      ∧ p' = .publishTx bucket limits request
      ∧ (p = .statSegment bucket limits request
        ∨ p = .getSegment bucket limits request)
      ∧ s.objects.holds bucket sha256 := by
  cases h with
  | @checked b limits request _ o hfrom hstat hcontent =>
      obtain ⟨rfl, rfl⟩ := hrelies
      exact ⟨limits, request, rfl, rfl, hfrom, o, hstat, hcontent⟩
  | missing _ hto => rcases hto with rfl | rfl <;> exact absurd hrelies id
  | erases heraser hsame =>
      cases p' with
      | publishTx _ _ _ => exact absurd hsame.symm heraser
      | _ => exact absurd hrelies id
  | _ => exact absurd hrelies id

/-- A check that succeeds while nobody threatens the object. -/
theorem StoredInv.checked_safe
    (happart : s.CallApart length maxPushChain x p)
    (hnext : (p.next length maxPushChain s x).2 = some p')
    (hrelies : p'.Relies bucket sha256) :
    (p.next length maxPushChain s x).1.objects.holds bucket sha256
      ∧ (∀ q ∈ s.procs, ¬ q.Threatens length bucket sha256)
      ∧ ¬ p'.Threatens length bucket sha256 := by
  obtain ⟨limits, request, rfl, rfl, hfrom, hholds⟩ :=
    (Proc.next_resumes hnext).checked_stored hrelies
  have hkept : (p.next length maxPushChain s x).1.objects = s.objects := by
    have htouch := p.next_objects length maxPushChain s x
    generalize (p.next length maxPushChain s x).1.objects = objects at htouch
    cases htouch with
    | kept => rfl
    | deleted hdeletes => rcases hfrom with rfl | rfl <;> cases hdeletes
    | put _ hputs => rcases hfrom with rfl | rfl <;> cases hputs
  refine ⟨hkept ▸ hholds, ?_, id⟩
  rcases hfrom with rfl | rfl
  · exact happart hnext
  · exact happart hnext

theorem StoredInv.next (h : StoredInv length s) {i : Nat}
    (hp : s.procs[i]? = some p)
    (happart : s.CallApart length maxPushChain x p) :
    StoredInv length ((p.next length maxPushChain s x).1.resume i
      (p.next length maxPushChain s x).2) := by
  have hmem : p ∈ s.procs := List.mem_of_getElem? hp
  obtain ⟨hwrites, -, hprocs⟩ := p.next_tables length maxPushChain s x
  have hfrom : ∀ q ∈ ((p.next length maxPushChain s x).1.resume i
      (p.next length maxPushChain s x).2).procs,
      q ∈ s.procs ∨ (p.next length maxPushChain s x).2 = some q := by
    intro q hq
    have hq' := Storage.mem_resume hq
    rw [hprocs] at hq'
    exact hq'
  have hnumbered := h.numbered_writes hmem hwrites
  have hspent := h.spent_writes hmem hwrites
  have htouch := p.next_objects length maxPushChain s x
  constructor
  · exact hnumbered
  · exact hspent
  · intro seg hseg
    exact (h.live_writes hmem hwrites hseg).1
  · intro bucket sha256 hneeded
    rcases h.needed_next hmem hneeded with hneeded | ⟨p', hnext, hrelies⟩
    · exact h.holds_touched hmem htouch hneeded
    · exact (StoredInv.checked_safe happart hnext hrelies).1
  · intro bucket sha256 hneeded q hq
    rcases h.needed_next hmem hneeded with hneeded | ⟨p', hnext, hrelies⟩
    · rcases hfrom q hq with hq | hq
      · exact h.safe bucket sha256 hneeded q hq
      · exact h.resumes_safe hmem (Proc.next_resumes hq) happart hneeded
    · obtain ⟨-, hothers, hown⟩ :=
        StoredInv.checked_safe happart hnext hrelies
      rcases hfrom q hq with hq | hq
      · exact hothers q hq
      · rw [hnext] at hq
        cases hq
        exact hown
  · intro q hq bucket sha256 grantId hholding o hstat
    rcases hfrom q hq with hq | hq
    · exact h.holding q hq bucket sha256 grantId hholding o
        (StoredInv.stat_touched hmem happart htouch hq hholding hstat)
    · exact h.resumes_holding hmem happart hq hholding hstat
  · intro q hq bucket grant epoch content hwrite
    rcases hfrom q hq with hq | hq
    · exact h.readBack q hq bucket grant epoch content hwrite
    · rw [hwrite] at hq
      cases Proc.next_resumes hq with
      | readBack _ _ hstat => exact h.holding _ hmem _ _ _ ⟨rfl, rfl⟩ _ hstat
      | missing _ hto => rcases hto with hto | hto <;> cases hto
      | erases heraser _ => exact absurd (h.erasers p hmem) heraser
  · intro q hq
    rcases hfrom q hq with hq | hq
    · exact h.erasers q hq
    · cases Proc.next_resumes hq with
      | missing _ hto => rcases hto with rfl | rfl <;> rfl
      | erases heraser _ => exact absurd (h.erasers p hmem) heraser
      | _ => rfl

end Calls

-- =================================================================== events

section Events

variable {length : Sha256 → Nat} {maxPushChain : Int} {s s' : Storage}

/-- A transaction that makes no segment live. -/
theorem StoredInv.fewer (h : StoredInv length s) {after : Thread}
    (hnumbered : Numbered after)
    (hlive : ∀ seg ∈ after.live, seg.objectDeletedAt = none
      ∧ ∃ old ∈ s.thread.live, old.physicalBucket = seg.physicalBucket
        ∧ old.sha256 = seg.sha256) :
    StoredInv length { s with thread := after } := by
  have hneeded : ∀ bucket sha256,
      Storage.Needed { s with thread := after } bucket sha256 →
      s.Needed bucket sha256 := by
    intro bucket sha256 hneeded
    rcases hneeded with ⟨seg, hseg, rfl, rfl⟩ | hrelies
    · exact .inl (hlive seg hseg).2
    · exact .inr hrelies
  refine { h with
    numbered := hnumbered
    spent := ?_
    kept := fun seg hseg => (hlive seg hseg).1
    stored := fun bucket sha256 hn =>
      h.stored bucket sha256 (hneeded bucket sha256 hn)
    safe := fun bucket sha256 hn =>
      h.safe bucket sha256 (hneeded bucket sha256 hn) }
  intro seg hseg g hg hsha
  obtain ⟨old, hold, -, hold'⟩ := (hlive seg hseg).2
  exact h.spent old hold g hg (hsha.trans hold'.symm)

theorem StoredInv.txn (h : StoredInv length s) {op : Op} {wall : Time}
    {after : Thread} (hop : op.requested = false)
    (hexec : op.exec maxPushChain s.clock wall s.thread = some after) :
    StoredInv length { s with thread := after } := by
  refine h.fewer (h.numbered.change (Op.exec_tables hexec)) ?_
  intro seg hseg
  rcases Op.exec_segments hop hexec with hsame | hsuperseded
  · have hlive : after.live = s.thread.live := congrArg liveSegments hsame
    rw [hlive] at hseg
    exact ⟨h.kept seg hseg, seg, hseg, rfl, rfl⟩
  · have hnone : after.live = [] := by
      rw [Thread.live, hsuperseded]
      exact live_superseded
    rw [hnone] at hseg
    cases hseg

/-- A request as it starts: it has checked no temporary object yet. -/
structure Proc.Fresh (p : Proc) : Prop where
  holding : ∀ bucket key, ¬ p.Holding bucket key
  readBack : ∀ bucket grant epoch content,
    p ≠ .writeSegment bucket grant epoch content
  eraser : p.eraser = none

theorem StoredInv.spawn (h : StoredInv length s) {p : Proc}
    (hfresh : p.Fresh)
    (hrelies : ∀ bucket sha256, p.Relies bucket sha256 →
      s.Needed bucket sha256)
    (hthreat : ∀ bucket sha256, s.Needed bucket sha256 →
      ¬ p.Threatens length bucket sha256) :
    StoredInv length (s.spawn p) := by
  have hneeded : ∀ bucket sha256, (s.spawn p).Needed bucket sha256 →
      s.Needed bucket sha256 := by
    intro bucket sha256 hneeded
    rcases hneeded with hlive | ⟨q, hq, hrely⟩
    · exact .inl hlive
    · rcases List.mem_append.1 hq with hq | hq
      · exact .inr ⟨q, hq, hrely⟩
      · rw [List.mem_singleton.1 hq] at hrely
        exact hrelies bucket sha256 hrely
  have hfrom : ∀ q ∈ (s.spawn p).procs, q ∈ s.procs ∨ q = p := by
    intro q hq
    rcases List.mem_append.1 hq with hq | hq
    · exact .inl hq
    · exact .inr (List.mem_singleton.1 hq)
  refine { h with
    stored := fun bucket sha256 hn =>
      h.stored bucket sha256 (hneeded bucket sha256 hn)
    safe := ?_, holding := ?_, readBack := ?_, erasers := ?_ }
  · intro bucket sha256 hn q hq
    rcases hfrom q hq with hq | rfl
    · exact h.safe bucket sha256 (hneeded bucket sha256 hn) q hq
    · exact hthreat bucket sha256 (hneeded bucket sha256 hn)
  · intro q hq bucket sha256 grantId hholding
    rcases hfrom q hq with hq | rfl
    · exact h.holding q hq bucket sha256 grantId hholding
    · exact absurd hholding (hfresh.holding bucket _)
  · intro q hq bucket grant epoch content hwrite
    rcases hfrom q hq with hq | rfl
    · exact h.readBack q hq bucket grant epoch content hwrite
    · exact absurd hwrite (hfresh.readBack bucket grant epoch content)
  · intro q hq
    rcases hfrom q hq with hq | rfl
    · exact h.erasers q hq
    · exact hfresh.eraser

/-- A publish starts with a check of the object, or relies on a live
segment. -/
theorem StoredInv.startPublish (h : StoredInv length s) {limits : Limits}
    {used : Nat} {request : PublishRequest} {p : Proc}
    (hstart : s.startPublish buckets limits used request row = some p) :
    StoredInv length (s.spawn p) := by
  have hstat : StoredInv length
      (s.spawn (.statSegment buckets.write limits request)) :=
    h.spawn ⟨fun _ _ => id, fun _ _ _ _ hr => (by cases hr), rfl⟩
      (fun _ _ hr => absurd hr id) (fun _ _ _ => id)
  rw [Storage.startPublish] at hstart
  obtain ⟨-, hstart⟩ := Option.ite_none_left_eq_some.1 hstart
  dsimp only at hstart
  generalize (if request.kind = some .push then 0
    else s.thread.liveBytes) = own at hstart
  split at hstart
  · next existing hfound =>
    split at hstart
    · cases hstart
      obtain ⟨hlive, hsha⟩ := Thread.liveSegment_some hfound
      refine h.spawn ⟨fun _ _ => id, fun _ _ _ _ hr => (by cases hr), rfl⟩ ?_
        (fun _ _ _ => id)
      intro bucket sha256 hrelies
      obtain ⟨rfl, rfl⟩ := hrelies
      exact .inl ⟨existing, hlive, rfl, hsha⟩
    · split at hstart
      · cases hstart
        exact hstat
      · cases hstart
  · split at hstart
    · cases hstart
      exact hstat
    · cases hstart

/-- No segment of a digest that is live, or that a publish relies on, is in
the way. -/
theorem Storage.not_needed {bucket : String} {sha256 : Sha256}
    (hlive : ∀ seg ∈ s.thread.live, seg.sha256 ≠ sha256)
    (hunrelied : s.Unrelied bucket sha256) :
    ¬ s.Needed bucket sha256 := by
  intro hneeded
  rcases hneeded with ⟨seg, hseg, -, hsha⟩ | ⟨q, hq, hrelies⟩
  · exact hlive seg hseg hsha
  · exact hunrelied q hq hrelies

theorem StoredInv.startUpload (h : StoredInv length s) {limits : Limits}
    {used : Nat} {caller : Caller} {epoch size : Nat} {sha256 : Sha256}
    {p : Proc}
    (hstart : s.startUpload buckets limits used caller epoch sha256 size row
      = some p) (happart : s.Unrelied buckets.write sha256) :
    StoredInv length (s.spawn p) := by
  rw [Storage.startUpload] at hstart
  obtain ⟨hchecks, hstart⟩ := Option.ite_none_left_eq_some.1 hstart
  cases hstart
  push Not at hchecks
  have hnone : s.thread.liveSegment sha256 = none := by
    have hsome := hchecks.2.2.2.2.1
    cases hfound : s.thread.liveSegment sha256 with
    | none => rfl
    | some seg =>
        rw [hfound] at hsome
        exact absurd rfl hsome
  refine h.spawn ⟨fun _ _ => id, fun _ _ _ _ hr => (by cases hr), rfl⟩
    (fun _ _ hr => absurd hr id) ?_
  intro bucket sha hneeded hthreat
  obtain ⟨rfl, rfl⟩ := hthreat
  exact Storage.not_needed (Thread.liveSegment_none hnone) happart hneeded

theorem StoredInv.startComplete (h : StoredInv length s) {caller : Caller}
    {wall : Time} {p : Proc}
    (hstart : s.startComplete buckets caller grantId wall row = some p)
    (happart : ∀ g ∈ s.grants, g.id = grantId →
      s.Unrelied buckets.write g.sha256) : StoredInv length (s.spawn p) := by
  rw [Storage.startComplete] at hstart
  split at hstart
  · cases hstart
  · obtain ⟨g, hg, hstart⟩ := Option.bind_eq_some_iff.1 hstart
    obtain ⟨hchecks, hstart⟩ := Option.ite_none_left_eq_some.1 hstart
    cases hstart
    push Not at hchecks
    have hmem := List.mem_of_find?_eq_some hg
    have hfound := List.find?_some hg
    have hid : g.id = grantId := of_decide_eq_true hfound
    refine h.spawn ⟨fun _ _ => id, fun _ _ _ _ hr => (by cases hr), rfl⟩
      (fun _ _ hr => absurd hr id) ?_
    intro bucket sha256 hneeded hthreat
    obtain ⟨rfl, rfl⟩ := hthreat
    refine Storage.not_needed ?_ (happart g hmem hid) hneeded
    -- the grant is not spent, so no segment of its digest is live
    intro seg hseg hsha
    exact hchecks.2.1 (h.spent seg hseg g hmem hsha.symm)

/-- The claimed segments are superseded rows of the log. -/
theorem Thread.mem_sweepable {t : Thread} {now : Time} {limit : Nat}
    (h : seg ∈ t.sweepable now limit) :
    seg ∈ t.segments ∧ seg.supersededAt ≠ none := by
  have hsorted := List.mem_of_mem_take h
  rw [List.mem_insertionSort, List.mem_filter] at hsorted
  obtain ⟨-, since, hsince, -⟩ := of_decide_eq_true hsorted.2
  refine ⟨hsorted.1, ?_⟩
  rw [Option.mem_def] at hsince
  rw [hsince]
  exact Option.some_ne_none _

theorem StoredInv.sweepObjects (h : StoredInv length s) (buckets : Buckets)
    {now : Time} {batch : Nat}
    (happart : ∀ y ∈ (claimSupersededObjects s.clock now batch s.grants
      s.thread).2, y.shared = false →
        s.Unrelied y.physicalBucket y.sha256) :
    StoredInv length (Storage.spawn
      { s with thread := (claimSupersededObjects s.clock now batch s.grants
          s.thread).1 }
      (.sweep buckets (claimSupersededObjects s.clock now batch s.grants
        s.thread).2 [])) := by
  -- a live row has another seq than the superseded rows that are claimed
  have hunclaimed : ∀ seg ∈ s.thread.segments, seg.supersededAt = none →
      seg.seq ∉ (s.thread.sweepable now batch).map SegmentRow.seq := by
    intro seg hseg hlive hclaimed
    obtain ⟨old, hold, hseq⟩ := List.mem_map.1 hclaimed
    obtain ⟨hmem, hsuperseded⟩ := Thread.mem_sweepable hold
    rw [h.numbered.unique hmem hseg hseq] at hsuperseded
    exact hsuperseded hlive
  have hthread : StoredInv length { s with
      thread := (claimSupersededObjects s.clock now batch s.grants
        s.thread).1 } := by
    refine h.fewer (h.numbered.restamped ?_) ?_
    · intro seg
      split <;> rfl
    · intro seg hseg
      obtain ⟨hmem, hlive⟩ := Thread.mem_live.1 hseg
      obtain ⟨old, hold, rfl⟩ := List.mem_map.1 hmem
      have hlive' : old.supersededAt = none := by
        split at hlive <;> exact hlive
      have hold' : old ∈ s.thread.live := Thread.mem_live.2 ⟨hold, hlive'⟩
      rw [if_neg (hunclaimed old hold hlive')]
      exact ⟨h.kept old hold', old, hold', rfl, rfl⟩
  refine hthread.spawn ⟨fun _ _ => id, fun _ _ _ _ hr => (by cases hr), rfl⟩
    (fun _ _ hr => absurd hr id) ?_
  intro bucket sha256 hneeded hthreat
  obtain ⟨y, hy, hshared, rfl, rfl⟩ := hthreat
  rcases hneeded with ⟨seg, hseg, -, hsha⟩ | ⟨q, hq, hrelies⟩
  · obtain ⟨claimed, hclaimed, rfl⟩ := List.mem_map.1 hy
    obtain ⟨hmem, hlive⟩ := Thread.mem_live.1 hseg
    obtain ⟨old, hold, rfl⟩ := List.mem_map.1 hmem
    have hlive' : old.supersededAt = none := by
      split at hlive <;> exact hlive
    have hseq := hunclaimed old hold hlive'
    rw [if_neg hseq] at hsha
    replace hshared : s.thread.shared s.clock s.grants claimed = false :=
      hshared
    rw [Thread.shared, Bool.or_eq_false_iff] at hshared
    refine of_decide_eq_false hshared.1 ⟨old, hold, hsha, ?_,
      h.kept old (Thread.mem_live.2 ⟨hold, hlive'⟩)⟩
    intro heq
    rw [heq] at hseq
    exact hseq (List.mem_map_of_mem hclaimed)
  · exact happart y hy hshared q hq hrelies

theorem StoredInv.step (h : StoredInv length s) {a : StoreEvent}
    (happart : s.Apart length maxPushChain a)
    (hstep : s.step length maxPushChain a = some s') :
    StoredInv length s' := by
  cases a with
  | tick elapsed =>
      cases hstep
      exact { h with }
  | grant g =>
      cases hstep
      refine { h with spent := ?_ }
      intro seg hseg g' hg' hsha
      rcases List.mem_append.1 hg' with hg' | hg'
      · exact h.spent seg hseg g' hg' hsha
      · rw [List.mem_singleton.1 hg'] at hsha
        exact absurd hsha.symm (happart seg hseg)
  | txn op wall =>
      rw [Storage.step] at hstep
      split at hstep
      · cases hstep
      · next hop =>
        obtain ⟨after, hexec, rfl⟩ := Option.map_eq_some_iff.1 hstep
        exact h.txn (Bool.eq_false_of_not_eq_true hop) hexec
  | publish buckets limits used request =>
      obtain ⟨p, hp, rfl⟩ := Option.map_eq_some_iff.1 hstep
      obtain ⟨row, -, hp⟩ := Option.bind_eq_some_iff.1 hp
      exact h.startPublish hp
  | uploadSegment buckets limits used caller epoch sha256 size =>
      obtain ⟨p, hp, rfl⟩ := Option.map_eq_some_iff.1 hstep
      obtain ⟨row, -, hp⟩ := Option.bind_eq_some_iff.1 hp
      exact h.startUpload hp happart
  | putObject buckets caller sha256 wall =>
      obtain ⟨p, hp, rfl⟩ := Option.map_eq_some_iff.1 hstep
      obtain ⟨row, -, hp⟩ := Option.bind_eq_some_iff.1 hp
      rw [Storage.startPut] at hp
      split at hp
      · cases hp
      · obtain ⟨g, -, hp⟩ := Option.bind_eq_some_iff.1 hp
        split at hp
        · cases hp
        · cases hp
          exact h.spawn ⟨fun _ _ => id, fun _ _ _ _ hr => (by cases hr), rfl⟩
            (fun _ _ hr => absurd hr id) (fun _ _ _ => id)
  | completeUpload buckets caller grantId wall =>
      obtain ⟨p, hp, rfl⟩ := Option.map_eq_some_iff.1 hstep
      obtain ⟨row, -, hp⟩ := Option.bind_eq_some_iff.1 hp
      exact h.startComplete hp happart
  | sweepObjects buckets now batch =>
      cases hstep
      exact h.sweepObjects buckets happart
  | sweepOrphans bucket now page =>
      cases hstep
      refine h.spawn ⟨fun _ _ => id, fun _ _ _ _ hr => (by cases hr), rfl⟩
        (fun _ _ hr => absurd hr id) ?_
      intro _ _ _ hthreat
      cases hthreat.2
  | eraseThread buckets => exact absurd happart id
  | next i x =>
      obtain ⟨p, hp, rfl⟩ := Option.map_eq_some_iff.1 hstep
      exact h.next hp (happart p hp)

end Events

/-- In every run whose events keep apart, the object of every live segment
is stored in the segment's bucket, with the segment's bytes. -/
theorem live_objects_stored (length : Sha256 → Nat) (maxPushChain : Int)
    (as : List StoreEvent) (s : Storage)
    (hmeets : Meets (Storage.step length maxPushChain)
      (Storage.Apart length maxPushChain) {} as)
    (hrun : run (Storage.step length maxPushChain) {} as = some s) :
    ∀ seg ∈ s.thread.segments, seg.supersededAt = none →
      seg.objectDeletedAt = none →
      ∃ o, s.objects.stat seg.physicalBucket (.segment seg.sha256) = some o
        ∧ o.content = seg.sha256 := by
  have hinv : StoredInv length s :=
    run_inv (fun _ _ _ hi hok hstep => StoredInv.step hi hok hstep)
      as {} s (storedInv_init length) hmeets hrun
  intro seg hseg hlive _
  exact hinv.stored _ _
    (.inl ⟨seg, Thread.mem_live.2 ⟨hseg, hlive⟩, rfl, rfl⟩)

-- ================================================================== overlaps

/-- A send through the facade, and the start of a cloud turn. -/
def turnRun : List StoreEvent :=
  [.txn (.begin (some ⟨true, 7⟩) 0 sendRecord) 0,
    .grant ⟨5, 100, 10, false, 60 * minute, false⟩,
    .putObject oneBucket (.desktop 7) 100 0,
    .next 0 {}, .next 0 { content := 100 }, .next 0 {}, .next 0 {},
    .next 0 {},
    .publish oneBucket roomyLimits 0 (sendRequest .compact [] none 1 100),
    .next 0 {}, .next 0 {}, .next 0 {},
    .txn (.complete smallSend) 0, .txn (.startCloudTurn 2 60 61) 0]

/-- An upload of the worker. -/
def upload (sha256 : Sha256) : StoreEvent :=
  .uploadSegment oneBucket roomyLimits 0 (.cloudExecutor 60) 2 sha256 10

/-- A publish of the worker, which moves the cloud ref. -/
def publishCloud (kind : SegmentKind) (prerequisites : List Sha1)
    (old : Option Sha1) (new : Sha1) (sha256 : Sha256) : StoreEvent :=
  .publish oneBucket roomyLimits 0
    { caller := .cloudExecutor 60, epoch := 2, kind := some kind
      sha256 := sha256, bytes := 10, prerequisites := prerequisites
      refs := [⟨.cloud, old, new⟩], objectFormat := "sha1" }

/-- The turn's first push, with a sweep after it. -/
def pushRun : List StoreEvent :=
  turnRun
    ++ [upload 101, .next 0 { content := 101, reported := true },
      publishCloud .push [1] none 2 101, .next 0 {}, .next 0 {},
      .tick (25 * 60 * minute), .sweepObjects oneBucket (25 * 60 * minute) 10,
      .next 0 {},
      .sweepOrphans "workspaces" (25 * 60 * minute)
        [.segment 100, .segment 101],
      .next 0 {}, .next 0 {}, .next 0 {}]

theorem live_objects_stored_pushRun :
    ∃ s, run (Storage.step (fun _ => 10) 0) {} pushRun = some s
      ∧ s.thread.live.map SegmentRow.sha256 = [100, 101]
      ∧ ∀ seg ∈ s.thread.segments, seg.supersededAt = none →
        seg.objectDeletedAt = none →
        ∃ o, s.objects.stat seg.physicalBucket (.segment seg.sha256) = some o
          ∧ o.content = seg.sha256 :=
  ⟨_, rfl, rfl, live_objects_stored (fun _ => 10) 0 pushRun _ (by decide) rfl⟩

/-- Two uploads of one segment: the second is published before the first
has sent its bytes, which are others. -/
def overwrittenRun : List StoreEvent :=
  turnRun
    ++ [upload 101, upload 101,
      .next 1 { content := 101, reported := true },
      publishCloud .push [1] none 2 101, .next 1 {}, .next 1 {},
      .next 0 { content := 999 }]

/-- A segment is superseded, and a day later its row is claimed by a sweep.
The worker uploads and publishes the same bytes again before the sweep
deletes the objects. -/
def sweptRun : List StoreEvent :=
  turnRun
    ++ [upload 101, .next 0 { content := 101, reported := true },
      publishCloud .push [1] none 2 101, .next 0 {}, .next 0 {},
      upload 102, .next 0 { content := 102, reported := true },
      publishCloud .compact [] (some 2) 3 102, .next 0 {}, .next 0 {},
      .tick (25 * 60 * minute), .sweepObjects oneBucket (25 * 60 * minute) 10,
      upload 101, .next 1 { content := 101, reported := true },
      publishCloud .push [3] (some 3) 2 101, .next 1 {}, .next 1 {},
      .next 0 {}, .next 0 {}]

/-- After the run, a live segment's object is missing or has other bytes. -/
def LosesObject (as : List StoreEvent) : Prop :=
  ∃ s seg, run (Storage.step (fun _ => 10) 0) {} as = some s
    ∧ seg ∈ s.thread.segments ∧ seg.supersededAt = none
    ∧ seg.objectDeletedAt = none
    ∧ ∀ o, s.objects.stat seg.physicalBucket (.segment seg.sha256) = some o →
      o.content ≠ seg.sha256

theorem live_object_lost :
    LosesObject overwrittenRun ∧ LosesObject sweptRun := by
  constructor
  · refine ⟨_, _, rfl, List.mem_of_getElem? (i := 1) rfl, rfl, rfl, ?_⟩
    intro o ho
    cases ho
    decide
  · refine ⟨_, _, rfl, List.mem_of_getElem? (i := 3) rfl, rfl, rfl, ?_⟩
    intro o ho
    cases ho

end Elitea.Handoff
