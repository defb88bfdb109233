/-
What one call of a request does.

A call changes the objects by one deletion or one write, the tables by one
transaction, or neither (`Proc.next_objects`, `Proc.next_tables`), and says
how the request goes on (`Proc.next_resumes`). The invariants of the runs
are proved from these and from the effect of a deletion and a write on one
key; none of them opens `Proc.next` again.
-/
import Elitea.Handoff.Proofs.Owner
import Elitea.Handoff.Storage

namespace Elitea.Handoff

open Elitea.Lib

-- ================================================================== objects

section Objects

variable {objects : Objects} {bucket : String} {key : ObjectKey}
  {keys : List ObjectKey} {o : Stored}

theorem Objects.mem_deleteBatch :
    o ∈ objects.deleteBatch bucket keys
      ↔ o ∈ objects ∧ ¬ (o.bucket = bucket ∧ o.key ∈ keys) := by
  rw [deleteBatch, List.mem_filter, decide_eq_true_iff]

theorem Objects.stat_mem (h : objects.stat bucket key = some o) :
    o ∈ objects ∧ o.bucket = bucket ∧ o.key = key := by
  have hfound := List.find?_some h
  exact ⟨List.mem_of_find?_eq_some h, of_decide_eq_true hfound⟩

/-- A deletion of other keys leaves the object. -/
theorem Objects.stat_deleteBatch {bucket' : String}
    (hother : ¬ (bucket = bucket' ∧ key ∈ keys)) :
    (objects.deleteBatch bucket' keys).stat bucket key
      = objects.stat bucket key := by
  rw [stat, stat, deleteBatch, List.find?_filter]
  congr 1
  funext o
  by_cases hat : o.bucket = bucket ∧ o.key = key
  · simp only [hat, hother, and_self, not_false_eq_true, decide_true]
  · simp [hat]

theorem Objects.stat_put_self (objects : Objects) (o : Stored) :
    (objects.put o).stat o.bucket o.key = some o := by
  simp [put, stat]

theorem Objects.stat_put_other
    (hother : ¬ (o.bucket = bucket ∧ o.key = key)) :
    (objects.put o).stat bucket key = objects.stat bucket key := by
  rw [put, stat, List.find?_cons_of_neg (by simpa using hother)]
  apply stat_deleteBatch
  intro hin
  exact hother ⟨hin.1.symm, (List.mem_singleton.1 hin.2).symm⟩

end Objects

-- ==================================================================== calls

/-- The epoch of the row that an erasure was started for. -/
def Proc.eraser : Proc → Option Nat
  | .retire epoch _ | .eraseList epoch _ _ | .eraseBatch epoch _ _ _ _
  | .eraseRelist epoch _ _ _ | .deleteEnv epoch | .markErased epoch =>
      some epoch
  | _ => none

/-- What a call deletes. -/
inductive Proc.Deletes : Proc → String → List ObjectKey → Prop
  | dropSegment (bucket : String) (sha256 : Sha256) :
      Deletes (.dropSegment bucket sha256) bucket [.segment sha256]
  | undoSegment (bucket : String) (sha256 : Sha256) :
      Deletes (.undoSegment bucket sha256) bucket [.segment sha256]
  | dropUpload (bucket : String) (grant : Grant) :
      Deletes (.dropUpload bucket grant) bucket
        [.upload grant.sha256 grant.id]
  | sweep (buckets : Buckets) {y : ObjectSweep} (rest : List ObjectSweep)
      (failed : List Nat) : y.shared = false →
      Deletes (.sweep buckets (y :: rest) failed) y.physicalBucket
        [.segment y.sha256]
  | orphans (bucket : String) (now : Time) (refs : List ObjectKey) :
      Deletes (.orphans bucket now [] refs) bucket refs
  | eraseBatch (epoch : Nat) (empty : Bool) (bucket : String)
      (refs : List ObjectKey) (buckets : List String) :
      Deletes (.eraseBatch epoch empty bucket refs buckets) bucket refs

/-- What a call writes: the content under the key, by an upload admitted in
the epoch. -/
inductive Proc.Puts (s : Storage) (x : Answer) :
    Proc → String → ObjectKey → Sha256 → Nat → Prop
  | putSegment (bucket : String) (sha256 : Sha256) (size epoch : Nat) :
      Puts s x (.putSegment bucket sha256 size epoch) bucket
        (.segment sha256) x.content epoch
  | putUpload (bucket : String) (grant : Grant) (epoch : Nat) :
      Puts s x (.putUpload bucket grant epoch) bucket
        (.upload grant.sha256 grant.id) x.content epoch
  | copyUpload (bucket : String) (grant : Grant) (epoch : Nat)
      {o : Stored} :
      s.objects.stat bucket (.upload grant.sha256 grant.id) = some o →
      Puts s x (.copyUpload bucket grant epoch) bucket
        (.segment grant.sha256) o.content epoch
  | writeSegment (bucket : String) (grant : Grant) (epoch : Nat)
      (content : Sha256) :
      Puts s x (.writeSegment bucket grant epoch content) bucket
        (.segment grant.sha256) content epoch
  | completeMultipart (bucket : String) (grant : Grant) (epoch : Nat) :
      Puts s x (.completeMultipart bucket grant epoch) bucket
        (.segment grant.sha256) x.content epoch

/-- The objects after a call: untouched, one deletion, or one write. -/
inductive Proc.Touches (s : Storage) (x : Answer) (p : Proc) :
    Objects → Prop
  | kept : Touches s x p s.objects
  | deleted {bucket : String} {keys : List ObjectKey} :
      p.Deletes bucket keys →
      Touches s x p (s.objects.deleteBatch bucket keys)
  | put {bucket : String} {key : ObjectKey} {content : Sha256}
      {epoch : Nat} (reported : Bool) :
      p.Puts s x bucket key content epoch →
      Touches s x p (s.put bucket key content reported epoch).objects

section Calls

variable {length : Sha256 → Nat} {maxPushChain : Int} {s : Storage}
  {x : Answer}

theorem Storage.read_eq_some {bucket : String} {key : ObjectKey}
    {o : Stored} (h : s.read x bucket key = some o) :
    s.objects.stat bucket key = some o := by
  rw [read] at h
  split at h
  · exact h
  · cases h

theorem Proc.Touches.delete {p : Proc} {bucket : String}
    {keys : List ObjectKey} (h : p.Deletes bucket keys) :
    p.Touches s x (s.delete x bucket keys).objects := by
  rw [Storage.delete]
  split
  · exact .deleted h
  · exact .kept

variable (length maxPushChain s x) in
theorem Proc.next_objects (p : Proc) :
    p.Touches s x (p.next length maxPushChain s x).1.objects := by
  cases p with
  | dropSegment bucket sha256 => exact .delete (.dropSegment bucket sha256)
  | undoSegment bucket sha256 => exact .delete (.undoSegment bucket sha256)
  | dropUpload bucket grant => exact .delete (.dropUpload bucket grant)
  | putSegment bucket sha256 size epoch =>
      rw [next]
      split
      · dsimp only
        split <;> exact .put _ (.putSegment bucket sha256 size epoch)
      · exact .kept
  | putUpload bucket grant epoch =>
      rw [next]
      split
      · dsimp only
        split <;> exact .put _ (.putUpload bucket grant epoch)
      · exact .kept
  | copyUpload bucket grant epoch =>
      rw [next]
      split
      · exact .kept
      · next hread =>
        split
        · exact .put _ (.copyUpload bucket grant epoch
            (Storage.read_eq_some hread))
        · exact .kept
  | writeSegment bucket grant epoch content =>
      rw [next]
      dsimp only
      split
      · exact .put _ (.writeSegment bucket grant epoch content)
      · exact .kept
  | completeMultipart bucket grant epoch =>
      rw [next]
      dsimp only
      split
      · exact .put _ (.completeMultipart bucket grant epoch)
      · exact .kept
  | sweep buckets pending failed =>
      cases pending with
      | nil => exact .kept
      | cons y rest =>
          rw [next]
          split
          · exact .kept
          · next hshared =>
            split
            · exact .delete (.sweep buckets rest failed
                (Bool.eq_false_of_not_eq_true hshared))
            · exact .kept
  | orphans bucket now listed refs =>
      cases listed with
      | nil => exact .delete (.orphans bucket now refs)
      | cons o rest =>
          rw [next]
          split <;> exact .kept
  | eraseBatch epoch empty bucket refs buckets =>
      rw [next]
      split
      · exact .delete (.eraseBatch epoch empty bucket refs buckets)
      · exact .kept
  | eraseList epoch empty buckets =>
      cases buckets <;> exact .kept
  | publishTx bucket limits request =>
      rw [next]
      split
      · exact .kept
      · rw [Storage.published]
        split <;> exact .kept
  | statSegment _ _ _ | getSegment _ _ _ | lookSegment _ _ _
    | hashSegment _ _ _ | lookAgain _ _ _ =>
      -- these only read
      rw [next]
      repeat' split
      all_goals exact .kept
  | retire epoch buckets => exact .kept
  | eraseRelist epoch empty bucket buckets => exact .kept
  | deleteEnv epoch => exact .kept
  | markErased epoch => exact .kept

/-- The tables after a call: untouched, or one transaction. -/
inductive Proc.Writes (maxPushChain : Int) (s : Storage) (x : Answer) :
    Proc → Storage → Prop
  | kept {p : Proc} {s' : Storage} : s'.thread = s.thread →
      s'.grants = s.grants → s'.movedAt = s.movedAt →
      Writes maxPushChain s x p s'
  | published {bucket : String} {limits : Limits}
      {request : PublishRequest} {after : Thread} {result : PublishResult} :
      publishRequest s.clock x.used maxPushChain
        limits.maxProjectWorkspaceBytes bucket request s.thread
          = .ok (after, result) →
      Writes maxPushChain s x (.publishTx bucket limits request)
        (s.published request after result)
  | released (buckets : Buckets) (failed : List Nat) :
      Writes maxPushChain s x (.sweep buckets [] failed)
        { s with thread := releaseObjectSweep failed s.thread }
  | retired (epoch : Nat) (buckets : List String) :
      Writes maxPushChain s x (.retire epoch buckets)
        { s with thread := retireThreadSegments s.clock s.thread }
  | markedErased (epoch : Nat) :
      Writes maxPushChain s x (.markErased epoch)
        { s with thread := { s.thread with
            row := s.thread.row.map (Handoff.markErased s.clock epoch) } }

theorem Storage.delete_tables {p : Proc} {bucket : String}
    {keys : List ObjectKey} :
    p.Writes maxPushChain s x (s.delete x bucket keys)
      ∧ (s.delete x bucket keys).clock = s.clock
      ∧ (s.delete x bucket keys).procs = s.procs := by
  rw [delete]
  split <;> exact ⟨.kept rfl rfl rfl, rfl, rfl⟩

variable (length maxPushChain s x) in
/-- A call moves neither the clock nor the other requests. -/
theorem Proc.next_tables (p : Proc) :
    p.Writes maxPushChain s x (p.next length maxPushChain s x).1
      ∧ (p.next length maxPushChain s x).1.clock = s.clock
      ∧ (p.next length maxPushChain s x).1.procs = s.procs := by
  cases p with
  | publishTx bucket limits request =>
      rw [next]
      split
      · exact ⟨.kept rfl rfl rfl, rfl, rfl⟩
      · next hpublish =>
        refine ⟨.published hpublish, ?_⟩
        rw [Storage.published]
        split <;> exact ⟨rfl, rfl⟩
  | sweep buckets pending failed =>
      cases pending with
      | nil => exact ⟨.released buckets failed, rfl, rfl⟩
      | cons y rest =>
          rw [next]
          split
          · exact ⟨.kept rfl rfl rfl, rfl, rfl⟩
          · split
            · exact Storage.delete_tables
            · exact ⟨.kept rfl rfl rfl, rfl, rfl⟩
  | retire epoch buckets => exact ⟨.retired epoch buckets, rfl, rfl⟩
  | markErased epoch => exact ⟨.markedErased epoch, rfl, rfl⟩
  | dropSegment _ _ | undoSegment _ _ | dropUpload _ _ =>
      exact Storage.delete_tables
  | orphans bucket now listed refs =>
      cases listed with
      | nil => exact Storage.delete_tables
      | cons o rest =>
          rw [next]
          split <;> exact ⟨.kept rfl rfl rfl, rfl, rfl⟩
  | eraseBatch epoch empty bucket refs buckets =>
      rw [next]
      split
      · exact Storage.delete_tables
      · exact ⟨.kept rfl rfl rfl, rfl, rfl⟩
  | eraseList epoch empty buckets =>
      cases buckets <;> exact ⟨.kept rfl rfl rfl, rfl, rfl⟩
  | eraseRelist _ _ _ _ | deleteEnv _ =>
      exact ⟨.kept rfl rfl rfl, rfl, rfl⟩
  | _ =>
      -- the uploads and the checks of a publish
      rw [next]
      repeat' split
      all_goals exact ⟨.kept rfl rfl rfl, rfl, rfl⟩

/-- How a request goes on. -/
inductive Proc.Resumes (length : Sha256 → Nat) (s : Storage) (x : Answer) :
    Proc → Proc → Prop
  /-- The object is not what its key says, or not of the size that the
  request declares. -/
  | dropped {bucket : String} {limits : Limits} {request : PublishRequest}
      {p : Proc} {o : Stored} : p = .statSegment bucket limits request
        ∨ p = .getSegment bucket limits request →
      s.objects.stat bucket (.segment request.sha256) = some o →
      o.content ≠ request.sha256 ∨ p = .getSegment bucket limits request
        ∧ length o.content ≠ request.bytes →
      Resumes length s x p (.dropSegment bucket request.sha256)
  /-- The check of a publish succeeds. -/
  | checked {bucket : String} {limits : Limits} {request : PublishRequest}
      {p : Proc} {o : Stored} : p = .statSegment bucket limits request
        ∨ p = .getSegment bucket limits request →
      s.objects.stat bucket (.segment request.sha256) = some o →
      o.content = request.sha256 →
      Resumes length s x p (.publishTx bucket limits request)
  | sized {bucket : String} {limits : Limits} {request : PublishRequest}
      {o : Stored} :
      s.objects.stat bucket (.segment request.sha256) = some o →
      length o.content = request.bytes →
      Resumes length s x (.statSegment bucket limits request)
        (.getSegment bucket limits request)
  | undone (bucket : String) (sha256 : Sha256) (size epoch : Nat) :
      Resumes length s x (.putSegment bucket sha256 size epoch)
        (.undoSegment bucket sha256)
  /-- The segment is not there. -/
  | missing {bucket : String} {grant : Grant} {epoch : Nat} {p p' : Proc} :
      p = .lookSegment bucket grant epoch
        ∨ p = .hashSegment bucket grant epoch →
      p' = .hashSegment bucket grant epoch
        ∨ p' = .putUpload bucket grant epoch →
      Resumes length s x p p'
  /-- The bytes that arrived are the ones of the grant. -/
  | received (bucket : String) {grant : Grant} (epoch : Nat) :
      x.ok = true → x.content = grant.sha256 →
      Resumes length s x (.putUpload bucket grant epoch)
        (.lookAgain bucket grant epoch)
  | promotes (bucket : String) (grant : Grant) (epoch : Nat) :
      Resumes length s x (.lookAgain bucket grant epoch)
        (.copyUpload bucket grant epoch)
  | readBack (bucket : String) {grant : Grant} (epoch : Nat) {o : Stored} :
      s.objects.stat bucket (.upload grant.sha256 grant.id) = some o →
      Resumes length s x (.copyUpload bucket grant epoch)
        (.writeSegment bucket grant epoch o.content)
  | cleared {p : Proc} (bucket : String) (grant : Grant) :
      Resumes length s x p (.dropUpload bucket grant)
  | swept (buckets : Buckets) (y : ObjectSweep) (rest : List ObjectSweep)
      (failed failed' : List Nat) :
      Resumes length s x (.sweep buckets (y :: rest) failed)
        (.sweep buckets rest failed')
  | spared (bucket : String) (now : Time) (o : Stored) (rest : List Stored)
      (refs : List ObjectKey) :
      Resumes length s x (.orphans bucket now (o :: rest) refs)
        (.orphans bucket now rest refs)
  | orphaned (bucket : String) (now : Time) {o : Stored}
      (rest : List Stored) (refs : List ObjectKey) :
      keyHasLiveObject s.clock s.grants s.thread o.key = false →
      Resumes length s x (.orphans bucket now (o :: rest) refs)
        (.orphans bucket now rest (refs ++ [o.key]))
  | erases {p p' : Proc} : p.eraser ≠ none → p'.eraser = p.eraser →
      Resumes length s x p p'

theorem Proc.next_resumes {p p' : Proc}
    (h : (p.next length maxPushChain s x).2 = some p') :
    p.Resumes length s x p' := by
  cases p with
  | statSegment bucket limits request =>
      rw [next] at h
      split at h
      · cases h
      · next hread =>
        have hstat := Storage.read_eq_some hread
        split at h
        · cases h
        · next hsize =>
          split at h
          · split at h
            · next hother =>
              cases h
              exact .dropped (.inl rfl) hstat (.inl hother)
            · next hsame =>
              cases h
              exact .checked (.inl rfl) hstat (not_not.1 hsame)
          · cases h
            exact .sized hstat (not_not.1 hsize)
  | getSegment bucket limits request =>
      rw [next] at h
      split at h
      · cases h
      · next hread =>
        have hstat := Storage.read_eq_some hread
        split at h
        · next hother =>
          cases h
          refine .dropped (.inr rfl) hstat ?_
          rcases hother with hsize | hother
          · exact .inr ⟨rfl, hsize⟩
          · exact .inl hother
        · next hsame =>
          cases h
          rw [not_or, not_not, not_not] at hsame
          exact .checked (.inr rfl) hstat hsame.2
  | publishTx bucket limits request =>
      rw [next] at h
      split at h <;> cases h
  | putSegment bucket sha256 size epoch =>
      rw [next] at h
      split at h
      · split at h
        · cases h
          exact .undone bucket sha256 size epoch
        · cases h
      · cases h
  | lookSegment bucket grant epoch =>
      rw [next] at h
      repeat' split at h
      all_goals
        cases h
        try exact .missing (.inl rfl) (.inl rfl)
      all_goals exact .missing (.inl rfl) (.inr rfl)
  | hashSegment bucket grant epoch =>
      rw [next] at h
      repeat' split at h
      all_goals
        cases h
      all_goals exact .missing (.inr rfl) (.inr rfl)
  | putUpload bucket grant epoch =>
      rw [next] at h
      split at h
      · next hok =>
        split at h
        · cases h
          exact .cleared bucket grant
        · next hsame =>
          cases h
          rw [not_or, not_not, not_not] at hsame
          exact .received bucket epoch hok hsame.2
      · cases h
        exact .cleared bucket grant
  | lookAgain bucket grant epoch =>
      rw [next] at h
      split at h
      · cases h
        exact .promotes bucket grant epoch
      · split at h
        · cases h
          exact .cleared bucket grant
        · cases h
          exact .promotes bucket grant epoch
  | copyUpload bucket grant epoch =>
      rw [next] at h
      split at h
      · cases h
        exact .cleared bucket grant
      · next hread =>
        split at h
        · cases h
          exact .cleared bucket grant
        · cases h
          exact .readBack bucket epoch (Storage.read_eq_some hread)
  | writeSegment bucket grant epoch content =>
      cases h
      exact .cleared bucket grant
  | sweep buckets pending failed =>
      cases pending with
      | nil => cases h
      | cons y rest =>
          rw [next] at h
          split at h
          · cases h
            exact .swept buckets y rest failed failed
          · split at h
            · cases h
              exact .swept buckets y rest failed failed
            · cases h
              exact .swept buckets y rest failed _
  | orphans bucket now listed refs =>
      cases listed with
      | nil => cases h
      | cons o rest =>
          rw [next] at h
          split at h
          · cases h
            exact .spared bucket now o rest refs
          · next hkeep =>
            cases h
            rw [not_or] at hkeep
            exact .orphaned bucket now rest refs
              (Bool.eq_false_of_not_eq_true hkeep.2)
  | eraseList epoch empty buckets =>
      refine .erases (Option.some_ne_none _) ?_
      cases buckets with
      | nil =>
          rw [next] at h
          dsimp only at h
          split at h
          · cases h
            rfl
          · cases h
      | cons bucket rest =>
          cases h
          rfl
  | eraseBatch epoch empty bucket refs buckets =>
      refine .erases (Option.some_ne_none _) ?_
      rw [next] at h
      split at h
      · cases h
        split <;> rfl
      · cases h
  | deleteEnv epoch =>
      refine .erases (Option.some_ne_none _) ?_
      rw [next] at h
      dsimp only at h
      split at h
      · cases h
        rfl
      · cases h
  | retire epoch buckets | eraseRelist epoch empty bucket buckets =>
      cases h
      exact .erases (Option.some_ne_none _) rfl
  | dropSegment _ _ | undoSegment _ _ | dropUpload _ _
    | completeMultipart _ _ _ | markErased _ => cases h

theorem Storage.mem_resume {i : Nat} {p : Option Proc} {q : Proc}
    (h : q ∈ (s.resume i p).procs) : q ∈ s.procs ∨ p = some q := by
  cases p with
  | none => exact .inl (List.mem_of_mem_eraseIdx h)
  | some resumed =>
      rcases List.mem_or_eq_of_mem_set h with h | rfl
      · exact .inl h
      · exact .inr rfl

end Calls

-- =============================================================== the tables

section Tables

variable {maxPushChain : Int} {now wall : Time} {t after : Thread}

/-- A publish replays, or logs the request's segment in the row's epoch. -/
theorem publishRequest_result {used : Nat} {maxProjectBytes : Int}
    {bucket : String} {request : PublishRequest} {result : PublishResult}
    (h : publishRequest now used maxPushChain maxProjectBytes bucket request
      t = .ok (after, result)) :
    ∃ row, t.row = some row ∧ row.epoch = request.epoch
      ∧ (after = t ∧ result.replayed = true
        ∨ result.replayed = false
          ∧ ∃ kind, after = t.published now (request.record kind maxPushChain
            maxProjectBytes bucket) row) := by
  obtain ⟨kind, -, hpublish⟩ := bind_eq_ok.1 h
  obtain ⟨row, hrow, hfence, hcases⟩ := publish_cases hpublish
  refine ⟨row, hrow, (writerFence_eq_ok.1 hfence).2.1, ?_⟩
  rcases hcases with hreplayed | ⟨-, hafter, hfresh⟩
  · exact .inl hreplayed
  · exact .inr ⟨hfresh, kind, hafter⟩

/-- The transactions that no request makes leave the segments, or
supersede them all. -/
theorem Op.exec_segments {op : Op} (hop : op.requested = false)
    (h : op.exec maxPushChain now wall t = some after) :
    after.segments = t.segments
      ∨ after.segments = (t.superseded now).segments := by
  cases op with
  | begin conversation used record =>
      obtain ⟨-, -, row, -, rfl⟩ := begin_cases (toOption_eq_some.1 h)
      exact .inr rfl
  | claimErasure =>
      obtain ⟨row, -, hclaim⟩ := Option.bind_eq_some_iff.1 h
      split at hclaim
      · cases hclaim
        exact .inl rfl
      · cases hclaim
  | publish _ _ _ _ | retireThreadSegments | markErased _ => cases hop
  | _ =>
      obtain ⟨r, -, rfl⟩ := toOption_map_eq_some.1 h
      exact .inl rfl

end Tables

end Elitea.Handoff
