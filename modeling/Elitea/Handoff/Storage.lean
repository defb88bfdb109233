/-
The objects of a thread beside its tables (services/elitea-main/internal/
application/workspacestore/service.go: `PutObject`, `CompleteUpload`,
`publishOnce`, `UploadSegment`, `SweepObjects`, `EraseThreadObjects`;
internal/application/workspacehandoff/service.go: `eraseThread`;
internal/infra/db/repos/workspace_store.go).

A request is a sequence of storage calls and transactions, and anything may
happen between two of them. A `Proc` is a request in flight: it is named
after the call it makes next, and holds what it has read so far. `next` is
that call, with the answer of the storage.

# Contents

A stored object is known by the SHA-256 of its bytes: bodies with the same
digest are taken to be the same bytes, so the length is a function of the
digest (`length`). A body that is longer than a reader's limit arrives cut
off, as another content. A backend may report the digest of an object, and
then reports the digest it has.

# What is left out

The objects of other threads, whose keys have another prefix; the name of
the project's bucket, which never changes; audit events and presigned URLs.
A grant may appear at any time: `RequestUpload` is not modelled further.
The environment secret that `eraseThread` deletes is not part of the state.
-/
import Elitea.Handoff.Thread

namespace Elitea.Handoff

-- ================================================================== objects

/-- A key under the thread's prefix: a segment, or the temporary object of
an upload through the facade. -/
inductive ObjectKey
  | segment (sha256 : Sha256)
  | upload (sha256 : Sha256) (grantId : Nat)
deriving DecidableEq, Repr

/-- A stored object. `epoch` is the thread's epoch that its upload was
admitted in. -/
structure Stored where
  bucket : String
  key : ObjectKey
  content : Sha256
  reported : Bool
  lastModified : Time
  epoch : Nat
deriving DecidableEq, Repr

abbrev Objects := List Stored

def Objects.stat (objects : Objects) (bucket : String) (key : ObjectKey) :
    Option Stored :=
  objects.find? fun o => o.bucket = bucket ∧ o.key = key

def Objects.deleteBatch (objects : Objects) (bucket : String)
    (keys : List ObjectKey) : Objects :=
  objects.filter fun o => ¬ (o.bucket = bucket ∧ o.key ∈ keys)

def Objects.put (objects : Objects) (o : Stored) : Objects :=
  o :: objects.deleteBatch o.bucket [o.key]

/-- `Buckets`: the deployment's bucket, and the dedicated one. -/
structure Buckets where
  default : String
  dedicated : Option String := none
deriving DecidableEq, Repr

def Buckets.write (b : Buckets) : String := b.dedicated.getD b.default

/-- The bucket can be opened. -/
def Buckets.open (b : Buckets) (name : String) : Bool :=
  b.dedicated = some name || b.default = name

def Buckets.all (b : Buckets) : List String :=
  b.default :: b.dedicated.toList.filter fun name => name ≠ b.default

-- =================================================================== grants

/-- A row of `transfer_grants` for a segment's key; `multipart` when it has
an upload id. -/
structure Grant where
  id : Nat
  sha256 : Sha256
  maxBytes : Nat
  multipart : Bool
  expiresAt : Time
  consumed : Bool := false
deriving DecidableEq, Repr

/-- Neither consumed nor expired. -/
def Grant.open (now : Time) (g : Grant) : Bool :=
  !g.consumed && decide (now < g.expiresAt)

/-- `OpenGrant`: the newest open grant of a segment's key. -/
def openGrant (now : Time) (sha256 : Sha256) (grants : List Grant) :
    Option Grant :=
  (grants.filter fun g => g.sha256 = sha256 && g.open now).getLast?

/-- A publish spends the grants of its key. -/
def consumeGrants (sha256 : Sha256) (grants : List Grant) : List Grant :=
  grants.map fun g => { g with consumed := g.consumed || g.sha256 = sha256 }

-- ================================================================== the row

/-- `LiveSegment`: the newest live segment with these bytes. -/
def Thread.liveSegment (t : Thread) (sha256 : Sha256) :
    Option SegmentRow :=
  ((t.live.filter fun s => s.sha256 = sha256).insertionSort
    fun a b => b.seq ≤ a.seq).head?

/-- The caller may upload in this state, whatever the epoch. -/
def Row.uploader (row : Row) (caller : Caller) : Bool :=
  (match caller with
    | .desktop user => row.ownerUserId = user
    | .cloudExecutor _ => true)
  && row.state = caller.writerState

/-- The two caps of `Limits` that the store reads. -/
structure Limits where
  maxSegmentBytes : Nat
  maxProjectWorkspaceBytes : Int
deriving DecidableEq, Repr

/-- `quotaAllows`. -/
def quotaAllows (project own bytes : Nat) (limits : Limits) : Bool :=
  (project : Int) - own + bytes ≤ limits.maxProjectWorkspaceBytes

-- ============================================================ the sweep's rows

/-- `SupersededGrace`. -/
def supersededGrace : Time := 24 * 60 * minute

/-- `OrphanGrace`. -/
def orphanGrace : Time := 24 * 60 * minute

/-- `ObjectSweep`; the segment's id is its seq. -/
structure ObjectSweep where
  seq : Nat
  sha256 : Sha256
  physicalBucket : String
  shared : Bool
deriving DecidableEq, Repr

/-- The superseded segments past their grace, the oldest first. -/
def Thread.sweepable (t : Thread) (now : Time) (limit : Nat) :
    List SegmentRow :=
  ((t.segments.filter fun s => s.objectDeletedAt = none
      ∧ ∃ since ∈ s.supersededAt, since + supersededGrace < now).insertionSort
    fun a b => a.supersededAt.getD 0 ≤ b.supersededAt.getD 0).take limit

/-- The object of the segment is still needed: another row of its key has
its object, or a grant is open. -/
def Thread.shared (t : Thread) (now : Time) (grants : List Grant)
    (s : SegmentRow) : Bool :=
  decide (∃ other ∈ t.segments, other.sha256 = s.sha256
    ∧ other.seq ≠ s.seq ∧ other.objectDeletedAt = none)
  || (openGrant now s.sha256 grants).isSome

/-- `ClaimSupersededObjects`. -/
def claimSupersededObjects (clock now : Time) (limit : Nat)
    (grants : List Grant) (t : Thread) : Thread × List ObjectSweep :=
  let claimed := t.sweepable now limit
  ({ t with segments := t.segments.map fun s =>
      if s.seq ∈ claimed.map SegmentRow.seq then
        { s with objectDeletedAt := some clock }
      else s },
    claimed.map fun s =>
      { seq := s.seq
        sha256 := s.sha256
        physicalBucket := s.physicalBucket
        shared := t.shared clock grants s })

/-- `ReleaseObjectSweep`. -/
def releaseObjectSweep (ids : List Nat) (t : Thread) : Thread :=
  { t with segments := t.segments.map fun s =>
      if s.seq ∈ ids then { s with objectDeletedAt := none } else s }

/-- `KeyHasLiveObject`. -/
def keyHasLiveObject (clock : Time) (grants : List Grant) (t : Thread) :
    ObjectKey → Bool
  | .segment sha256 =>
      decide (∃ s ∈ t.segments, s.sha256 = sha256
        ∧ s.objectDeletedAt = none)
      || (openGrant clock sha256 grants).isSome
  | .upload _ _ => false

-- ================================================================= requests

/-- A request in flight, by the call it makes next. -/
inductive Proc
  -- `publishOnce`
  | statSegment (bucket : String) (limits : Limits)
      (request : PublishRequest)
  | getSegment (bucket : String) (limits : Limits)
      (request : PublishRequest)
  | dropSegment (bucket : String) (sha256 : Sha256)
  | publishTx (bucket : String) (limits : Limits)
      (request : PublishRequest)
  -- `UploadSegment`
  | putSegment (bucket : String) (sha256 : Sha256) (size epoch : Nat)
  | undoSegment (bucket : String) (sha256 : Sha256)
  -- `PutObject`
  | lookSegment (bucket : String) (grant : Grant) (epoch : Nat)
  | hashSegment (bucket : String) (grant : Grant) (epoch : Nat)
  | putUpload (bucket : String) (grant : Grant) (epoch : Nat)
  | lookAgain (bucket : String) (grant : Grant) (epoch : Nat)
  | copyUpload (bucket : String) (grant : Grant) (epoch : Nat)
  | writeSegment (bucket : String) (grant : Grant) (epoch : Nat)
      (content : Sha256)
  | dropUpload (bucket : String) (grant : Grant)
  -- `CompleteUpload`
  | completeMultipart (bucket : String) (grant : Grant) (epoch : Nat)
  -- `SweepObjects`
  | sweep (buckets : Buckets) (pending : List ObjectSweep)
      (failed : List Nat)
  | orphans (bucket : String) (now : Time) (listed : List Stored)
      (refs : List ObjectKey)
  -- `eraseThread`
  | retire (epoch : Nat) (buckets : List String)
  | eraseList (epoch : Nat) (empty : Bool) (buckets : List String)
  | eraseBatch (epoch : Nat) (empty : Bool) (bucket : String)
      (refs : List ObjectKey) (buckets : List String)
  | eraseRelist (epoch : Nat) (empty : Bool) (bucket : String)
      (buckets : List String)
  | deleteEnv (epoch : Nat)
  | markErased (epoch : Nat)
deriving DecidableEq, Repr

/-- What a call answers: whether it goes through, the body that arrives,
whether the backend reports the digest of what it stores, whether it has a
copy, the page of a listing and whether there is another, and what the
project's other threads store. -/
structure Answer where
  ok : Bool := true
  content : Sha256 := 0
  reported : Bool := false
  copies : Bool := true
  page : List ObjectKey := []
  more : Bool := false
  used : Nat := 0
deriving DecidableEq, Repr

/-- The tables, the objects and the requests in flight. `movedAt` is the
epoch of the publish that last moved a ref. -/
structure Storage where
  thread : Thread := {}
  grants : List Grant := []
  objects : Objects := []
  clock : Time := 0
  procs : List Proc := []
  movedAt : List (RefName × Nat) := []

def Storage.put (s : Storage) (bucket : String) (key : ObjectKey)
    (content : Sha256) (reported : Bool) (epoch : Nat) : Storage :=
  let o : Stored :=
    { bucket := bucket, key := key, content := content
      reported := reported, lastModified := s.clock, epoch := epoch }
  { s with objects := s.objects.put o }

/-- A deletion that may fail. -/
def Storage.delete (s : Storage) (x : Answer) (bucket : String)
    (keys : List ObjectKey) : Storage :=
  if x.ok then { s with objects := s.objects.deleteBatch bucket keys }
  else s

/-- What a successful `Stat` or `Get` finds. -/
def Storage.read (s : Storage) (x : Answer) (bucket : String)
    (key : ObjectKey) : Option Stored :=
  if x.ok then s.objects.stat bucket key else none

/-- A publish that is not a replay spends the grants and moves the refs. -/
def Storage.published (s : Storage) (request : PublishRequest)
    (after : Thread) (result : PublishResult) : Storage :=
  if result.replayed then { s with thread := after }
  else
    { s with
      thread := after
      grants := consumeGrants request.sha256 s.grants
      movedAt := request.refs.map (fun ref => (ref.name, request.epoch))
        ++ s.movedAt }

section Calls

variable (length : Sha256 → Nat) (maxPushChain : Int)

/-- The next call of a request: the state it leaves, and the request as it
goes on, if it does. -/
def Proc.next (s : Storage) (x : Answer) : Proc → Storage × Option Proc
  | .statSegment bucket limits request =>
      match s.read x bucket (.segment request.sha256) with
      | none => (s, none)
      | some o =>
          if length o.content ≠ request.bytes then (s, none)
          else if o.reported then
            if o.content ≠ request.sha256 then
              (s, some (.dropSegment bucket request.sha256))
            else (s, some (.publishTx bucket limits request))
          else (s, some (.getSegment bucket limits request))
  | .getSegment bucket limits request =>
      match s.read x bucket (.segment request.sha256) with
      | none => (s, none)
      | some o =>
          if length o.content ≠ request.bytes
              ∨ o.content ≠ request.sha256 then
            (s, some (.dropSegment bucket request.sha256))
          else (s, some (.publishTx bucket limits request))
  | .dropSegment bucket sha256 =>
      (s.delete x bucket [.segment sha256], none)
  | .publishTx bucket limits request =>
      match publishRequest s.clock x.used maxPushChain
          limits.maxProjectWorkspaceBytes bucket request s.thread with
      | .error _ => (s, none)
      | .ok (after, result) => (s.published request after result, none)
  | .putSegment bucket sha256 size epoch =>
      if x.ok then
        let stored := s.put bucket (.segment sha256) x.content x.reported epoch
        if length x.content ≠ size ∨ x.content ≠ sha256 then
          (stored, some (.undoSegment bucket sha256))
        else (stored, none)
      else (s, none)
  | .undoSegment bucket sha256 =>
      (s.delete x bucket [.segment sha256], none)
  | .lookSegment bucket grant epoch =>
      match s.read x bucket (.segment grant.sha256) with
      | none => (s, some (.putUpload bucket grant epoch))
      | some o =>
          if length o.content ≠ grant.maxBytes then
            (s, some (.putUpload bucket grant epoch))
          else if o.reported then
            if o.content = grant.sha256 then (s, none)
            else (s, some (.putUpload bucket grant epoch))
          else (s, some (.hashSegment bucket grant epoch))
  | .hashSegment bucket grant epoch =>
      match s.read x bucket (.segment grant.sha256) with
      | none => (s, some (.putUpload bucket grant epoch))
      | some o =>
          if length o.content = grant.maxBytes
              ∧ o.content = grant.sha256 then (s, none)
          else (s, some (.putUpload bucket grant epoch))
  | .putUpload bucket grant epoch =>
      if x.ok then
        let stored := s.put bucket (.upload grant.sha256 grant.id)
          x.content x.reported epoch
        if length x.content ≠ grant.maxBytes
            ∨ x.content ≠ grant.sha256 then
          (stored, some (.dropUpload bucket grant))
        else (stored, some (.lookAgain bucket grant epoch))
      else (s, some (.dropUpload bucket grant))
  | .lookAgain bucket grant epoch =>
      match s.read x bucket (.segment grant.sha256) with
      | none => (s, some (.copyUpload bucket grant epoch))
      | some o =>
          if length o.content = grant.maxBytes ∧ o.reported
              ∧ o.content = grant.sha256 then
            (s, some (.dropUpload bucket grant))
          else (s, some (.copyUpload bucket grant epoch))
  | .copyUpload bucket grant epoch =>
      match s.read x bucket (.upload grant.sha256 grant.id) with
      | none => (s, some (.dropUpload bucket grant))
      | some o =>
          if x.copies then
            (s.put bucket (.segment grant.sha256) o.content x.reported
              epoch, some (.dropUpload bucket grant))
          else (s, some (.writeSegment bucket grant epoch o.content))
  | .writeSegment bucket grant epoch content =>
      (if x.ok then
          s.put bucket (.segment grant.sha256) content x.reported epoch
        else s, some (.dropUpload bucket grant))
  | .dropUpload bucket grant =>
      (s.delete x bucket [.upload grant.sha256 grant.id], none)
  | .completeMultipart bucket grant epoch =>
      (if x.ok then
          s.put bucket (.segment grant.sha256) x.content x.reported epoch
        else s, none)
  | .sweep buckets pending failed =>
      match pending with
      | [] => ({ s with thread := releaseObjectSweep failed s.thread }, none)
      | y :: rest =>
          if y.shared then (s, some (.sweep buckets rest failed))
          else if buckets.open y.physicalBucket ∧ x.ok then
            (s.delete x y.physicalBucket [.segment y.sha256],
              some (.sweep buckets rest failed))
          else (s, some (.sweep buckets rest (failed ++ [y.seq])))
  | .orphans bucket now listed refs =>
      match listed with
      | [] => (s.delete x bucket refs, none)
      | o :: rest =>
          if now < o.lastModified + orphanGrace
              ∨ keyHasLiveObject s.clock s.grants s.thread o.key then
            (s, some (.orphans bucket now rest refs))
          else (s, some (.orphans bucket now rest (refs ++ [o.key])))
  | .retire epoch buckets =>
      ({ s with thread := retireThreadSegments s.clock s.thread },
        some (.eraseList epoch true buckets))
  | .eraseList epoch empty buckets =>
      match buckets with
      | [] => (s, if empty then some (.deleteEnv epoch) else none)
      | bucket :: rest =>
          (s, some (.eraseBatch epoch empty bucket
            (x.page.filter fun key => (s.objects.stat bucket key).isSome)
            rest))
  | .eraseBatch epoch empty bucket refs buckets =>
      if x.ok then
        (s.delete x bucket refs,
          some (if x.more then .eraseList epoch empty (bucket :: buckets)
            else .eraseRelist epoch empty bucket buckets))
      else (s, none)
  | .eraseRelist epoch empty bucket buckets =>
      (s, some (.eraseList epoch
        (empty && s.objects.all fun o => o.bucket ≠ bucket) buckets))
  | .deleteEnv epoch => (s, if x.ok then some (.markErased epoch) else none)
  | .markErased epoch =>
      ({ s with thread := { s.thread with
          row := s.thread.row.map (Handoff.markErased s.clock epoch) } },
        none)

-- =================================================================== the run

inductive StoreEvent
  | tick (elapsed : Time)
  /-- A transaction of the thread that no request below makes. -/
  | txn (op : Op) (wall : Time)
  | grant (g : Grant)
  | publish (buckets : Buckets) (limits : Limits) (used : Nat)
      (request : PublishRequest)
  | uploadSegment (buckets : Buckets) (limits : Limits) (used : Nat)
      (caller : Caller) (epoch : Nat) (sha256 : Sha256) (size : Nat)
  | putObject (buckets : Buckets) (caller : Caller) (sha256 : Sha256)
      (wall : Time)
  | completeUpload (buckets : Buckets) (caller : Caller) (grantId : Nat)
      (wall : Time)
  | sweepObjects (buckets : Buckets) (now : Time) (batch : Nat)
  | sweepOrphans (bucket : String) (now : Time) (page : List ObjectKey)
  | eraseThread (buckets : Buckets)
  /-- The next call of a request in flight. -/
  | next (i : Nat) (x : Answer)
deriving DecidableEq, Repr

/-- The transactions that the requests make are not run on their own. -/
def Op.requested : Op → Bool
  | .publish .. | .retireThreadSegments | .markErased _ => true
  | _ => false

def Storage.spawn (s : Storage) (p : Proc) : Storage :=
  { s with procs := s.procs ++ [p] }

/-- What a request goes on as, in its place. -/
def Storage.resume (s : Storage) (i : Nat) (p : Option Proc) : Storage :=
  { s with procs := match p with
      | some p => s.procs.set i p
      | none => s.procs.eraseIdx i }

/-- `publishOnce` up to its first storage call. A publish that finds its
segment live in this epoch goes to the transaction at once. -/
def Storage.startPublish (s : Storage) (buckets : Buckets) (limits : Limits)
    (used : Nat) (request : PublishRequest) (row : Row) : Option Proc :=
  if (validatePublish request).toOption = none
      ∨ (writerFence request.caller request.epoch row).toOption = none
      ∨ limits.maxSegmentBytes < request.bytes then none
  else
    let own := if request.kind = some .push then 0 else s.thread.liveBytes
    match s.thread.liveSegment request.sha256 with
    | some existing =>
        if existing.epoch = request.epoch ∧ existing.bytes = request.bytes then
          some (.publishTx existing.physicalBucket limits request)
        else if quotaAllows (used + s.thread.liveBytes) own request.bytes
            limits then
          some (.statSegment buckets.write limits request)
        else none
    | none =>
        if quotaAllows (used + s.thread.liveBytes) own request.bytes limits
        then some (.statSegment buckets.write limits request)
        else none

/-- `UploadSegment` up to its first storage call. -/
def Storage.startUpload (s : Storage) (buckets : Buckets) (limits : Limits)
    (used : Nat) (caller : Caller) (epoch : Nat) (sha256 : Sha256)
    (size : Nat) (row : Row) : Option Proc :=
  if epoch = 0 ∨ size = 0
      ∨ (writerFence caller epoch row).toOption = none
      ∨ limits.maxSegmentBytes < size
      ∨ (s.thread.liveSegment sha256).isSome
      ∨ ¬ quotaAllows (used + s.thread.liveBytes) s.thread.liveBytes size
        limits then none
  else some (.putSegment buckets.write sha256 size epoch)

/-- `PutObject` up to its first storage call. -/
def Storage.startPut (s : Storage) (buckets : Buckets) (caller : Caller)
    (sha256 : Sha256) (wall : Time) (row : Row) : Option Proc :=
  if ¬ row.uploader caller then none
  else
    (openGrant s.clock sha256 s.grants).bind fun g =>
      if g.multipart ∨ g.expiresAt ≤ wall then none
      else some (.lookSegment buckets.write g row.epoch)

/-- `CompleteUpload` up to its storage call. -/
def Storage.startComplete (s : Storage) (buckets : Buckets)
    (caller : Caller) (grantId : Nat) (wall : Time) (row : Row) :
    Option Proc :=
  if ¬ row.uploader caller then none
  else
    (s.grants.find? fun g => g.id = grantId).bind fun g =>
      if ¬ g.multipart ∨ g.consumed ∨ g.expiresAt ≤ wall then none
      else some (.completeMultipart buckets.write g row.epoch)

/-- One event; `none` when it is not enabled. -/
def Storage.step (s : Storage) : StoreEvent → Option Storage
  | .tick elapsed => some { s with clock := s.clock + elapsed }
  | .txn op wall =>
      if op.requested then none
      else (op.exec maxPushChain s.clock wall s.thread).map
        fun after => { s with thread := after }
  | .grant g => some { s with grants := s.grants ++ [g] }
  | .publish buckets limits used request =>
      (s.thread.row.bind (s.startPublish buckets limits used request)).map
        s.spawn
  | .uploadSegment buckets limits used caller epoch sha256 size =>
      (s.thread.row.bind
        (s.startUpload buckets limits used caller epoch sha256 size)).map
        s.spawn
  | .putObject buckets caller sha256 wall =>
      (s.thread.row.bind (s.startPut buckets caller sha256 wall)).map s.spawn
  | .completeUpload buckets caller grantId wall =>
      (s.thread.row.bind
        (s.startComplete buckets caller grantId wall)).map s.spawn
  | .sweepObjects buckets now batch =>
      let claims := claimSupersededObjects s.clock now batch s.grants s.thread
      some ({ s with thread := claims.1 }.spawn
        (.sweep buckets claims.2 []))
  | .sweepOrphans bucket now page =>
      some (s.spawn (.orphans bucket now
        (page.filterMap fun key => s.objects.stat bucket key) []))
  | .eraseThread buckets =>
      s.thread.row.bind fun row =>
        if row.state = .stateLocal then
          some (s.spawn (.retire row.epoch buckets.all))
        else none
  | .next i x =>
      s.procs[i]?.map fun p =>
        let (after, p') := p.next length maxPushChain s x
        after.resume i p'

end Calls

end Elitea.Handoff
