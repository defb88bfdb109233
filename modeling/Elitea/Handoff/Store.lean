/-
The workspace store's rows and the fetch plan (services/elitea-main/
internal/application/workspacestore, libs/rust/workspace-store/src/
chain.rs).

A thread's refs and its log of segments are two tables beside the
ownership row. A segment is a `COMPACT`, which carries everything and
supersedes what was live, or a `PUSH`, which builds on what is live. A
reader is answered the live chain (`selectChain`) and checks the shape of
that plan (`checkPlan`) before it fetches a byte.

A map of refs is the list of its pairs; two maps are compared by what
they hold. A digest that passed `ValidSHA1` or `ValidSHA256` is its number,
so the checks of their text are the types `Sha1` and `Sha256`. The key of
a segment's object is its digest under the thread's prefix, and is not
stored apart. The URLs of a plan are left out.
-/
import Elitea.Handoff.Row
import Mathlib.Data.List.Sort

namespace Elitea.Handoff

-- ===================================================================== refs

/-- A ref's name; `other` is a text outside the thread's namespace. -/
inductive RefName
  | base
  | upstream
  | cloud
  | handoff (n : Nat)
  | other (text : String)
deriving DecidableEq, Repr

/-- `ValidRefName`: a handoff's number has one to nine digits and no
leading zero. -/
def RefName.valid : RefName → Bool
  | .handoff n => 1 ≤ n ∧ n < 1000000000
  | .other _ => false
  | _ => true

/-- `RefHandoff1`. -/
def RefName.handoff1 : RefName := .handoff 1

abbrev Refs := List (RefName × Sha1)

def Refs.get (refs : Refs) (name : RefName) : Option Sha1 :=
  (refs.find? fun ref => ref.1 = name).map Prod.snd

def Refs.set (name : RefName) (sha : Sha1) : Refs → Refs
  | [] => [(name, sha)]
  | ref :: rest =>
      if ref.1 = name then (name, sha) :: rest
      else ref :: Refs.set name sha rest

/-- Two maps that hold the same. -/
def Refs.same (refs others : Refs) : Bool :=
  (refs ++ others).all fun ref => refs.get ref.1 = others.get ref.1

/-- `RefUpdate`. Without an old value the ref must not exist yet. -/
structure RefUpdate where
  name : RefName
  old : Option Sha1
  new : Sha1
deriving DecidableEq, Repr

/-- The refs after every update. -/
def Refs.updated (refs : Refs) (updates : List RefUpdate) : Refs :=
  updates.foldl (fun refs u => refs.set u.name u.new) refs

-- ================================================================== writers

/-- `Caller`: the thread owner's desktop, or the worker of a cloud turn. -/
inductive Caller
  | desktop (userId : UserId)
  | cloudExecutor (executionId : ExecutionId)
deriving DecidableEq, Repr

/-- `WriterState`. -/
def Caller.writerState : Caller → State
  | .desktop _ => .handingOff
  | .cloudExecutor _ => .cloudRunning

/-- `AllowedRefs`. -/
def allowedRefs (caller : Caller) (state : State) (hasUpstream : Bool) :
    List RefName :=
  match caller, state with
  | .desktop _, .handingOff =>
      if hasUpstream then [.base, .upstream, .handoff1]
      else [.base, .handoff1]
  | .cloudExecutor _, .cloudRunning => [.cloud]
  | _, _ => []

-- ================================================================= segments

inductive SegmentKind
  | compact
  | push
deriving DecidableEq, Repr

/-- A row of `workspace_segments`. -/
structure SegmentRow where
  seq : Nat
  epoch : Nat
  kind : SegmentKind
  sha256 : Sha256
  bytes : Nat
  prerequisites : List Sha1
  refs : Refs
  writer : Caller
  physicalBucket : String
  supersededAt : Option Time := none
  objectDeletedAt : Option Time := none
deriving DecidableEq, Repr

/-- Not superseded. -/
def SegmentRow.live (s : SegmentRow) : Prop := s.supersededAt = none

instance (s : SegmentRow) : Decidable s.live :=
  inferInstanceAs (Decidable (_ = _))

/-- The segments that are not superseded, in the order of the log. -/
def liveSegments (segments : List SegmentRow) : List SegmentRow :=
  segments.filter fun s => s.live

def SegmentRow.superseded (now : Time) (s : SegmentRow) : SegmentRow :=
  { s with supersededAt := some (s.supersededAt.getD now) }

-- ================================================================= requests

/-- The errors of the package `workspacestore` that a publish returns. -/
inductive PublishError
  | invalid
  | unsupportedObjectFormat
  | notFound
  | staleEpoch
  | refNotAllowed
  /-- `RefConflictError`: the stored value of every ref the publish
  names. -/
  | refConflict (current : List (RefName × Option Sha1))
  | prerequisiteUnknown
  | chainTooLong
  | quotaExceeded
deriving DecidableEq, Repr

/-- `PublishRequest`; a `kind` of `none` is a text that is neither. -/
structure PublishRequest where
  caller : Caller
  epoch : Nat
  kind : Option SegmentKind
  sha256 : Sha256
  bytes : Nat
  prerequisites : List Sha1
  refs : List RefUpdate
  objectFormat : String
deriving DecidableEq, Repr

/-- `PublishRecord`. -/
structure PublishRecord where
  caller : Caller
  epoch : Nat
  kind : SegmentKind
  sha256 : Sha256
  bytes : Nat
  prerequisites : List Sha1
  refs : List RefUpdate
  physicalBucket : String
  maxPushChain : Int
  maxProjectBytes : Int
deriving DecidableEq, Repr

/-- `MaxPrerequisites`. -/
def maxPrerequisites : Nat := 8

/-- `DefaultMaxPushChain`. -/
def defaultMaxPushChain : Int := 32

/-- `ValidPrerequisites`. -/
def validPrerequisites (kind : Option SegmentKind)
    (prerequisites : List Sha1) : Bool :=
  match kind with
  | some .compact => prerequisites.isEmpty
  | some .push =>
      !prerequisites.isEmpty && prerequisites.length ≤ maxPrerequisites
        && decide prerequisites.Nodup
  | none => false

/-- `validateKind`, which answers the kind it found. -/
def validateKind (kind : Option SegmentKind) (prerequisites : List Sha1) :
    Except PublishError SegmentKind :=
  if validPrerequisites kind prerequisites then
    match kind with
    | some kind => .ok kind
    | none => .error .invalid
  else .error .invalid

/-- `validatePublish`. -/
def validatePublish (request : PublishRequest) :
    Except PublishError SegmentKind :=
  if request.epoch = 0 ∨ request.bytes = 0 ∨ request.refs = []
      ∨ 8 < request.refs.length then .error .invalid
  else if request.objectFormat ≠ "sha1" then
    if request.objectFormat = "sha256" then .error .unsupportedObjectFormat
    else .error .invalid
  else do
    let kind ← validateKind request.kind request.prerequisites
    if ¬ request.refs.all (fun ref => ref.name.valid)
        ∨ ¬ (request.refs.map RefUpdate.name).Nodup then .error .invalid
    else .ok kind

/-- The most live `PUSH` segments: a value below one keeps the default. -/
def pushLimit (maxPushChain : Int) : Int :=
  if maxPushChain ≤ 0 then defaultMaxPushChain else maxPushChain

/-- `pushAllowed`: a live `COMPACT` to build on, every prerequisite the
current value of a ref, and room in the chain. -/
def pushAllowed (record : PublishRecord) (current : Refs)
    (liveCompact livePush : Nat) : Except PublishError Unit :=
  if liveCompact = 0 then .error .prerequisiteUnknown
  else if ¬ record.prerequisites.all
      (fun p => p ∈ current.map Prod.snd) then .error .prerequisiteUnknown
  else if pushLimit record.maxPushChain ≤ livePush then
    .error .chainTooLong
  else .ok ()

/-- `refConflict`: what the publish expected of a ref is not what is
stored. -/
def refConflict (refs : List RefUpdate) (current : Refs) :
    Except PublishError Unit :=
  if refs.any (fun ref => ref.old ≠ current.get ref.name) then
    .error (.refConflict
      (refs.map fun ref => (ref.name, current.get ref.name)))
  else .ok ()

/-- `refValue`. -/
def refValue (refs : List RefUpdate) (name : RefName) : Option Sha1 :=
  (refs.find? fun ref => ref.name = name).map RefUpdate.new

-- =============================================================== fetch plan

end Elitea.Handoff
