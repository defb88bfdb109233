/-
Rate-limit admission (`internal/policy/ratelimit.go`): the bucket keys
and `Limiter.AdmitAll` with its compensating decrements.

# What is modelled

`AdmitAll(ctx, defs, sub, countRequest = true)` as any number of
concurrent calls run it against one shared counter, in one window. The
counter is atomic per operation, so a call is a program of single
counter operations (`Phase`) and `advance` is the next one; between any
two of them any other call may move. The three loops of the source are
the three phases: the token reads, the request increments, and the
compensation of a refused call.

Increments never fail here. A token read may: its limit is then skipped
for the rest of the call (`failed[i]` in the source). What a token read
returns is an input of the step, since the token buckets are filled by
`RecordTokens`, which this window's admissions do not touch.

A bucket is named by its key: the counter subject is the key between a
fixed prefix and the window, so two keys are the same bucket exactly
when they are equal.
-/
import Mathlib.Data.List.Basic
import Mathlib.Logic.Function.Basic

namespace Elitea.Policy

-- ============================================================== the rules

/-- What a rate limit counts (`RateClass`). -/
inductive RateClass
  | project
  | agent
  | user
deriving DecidableEq, Repr

/-- The part of a definition's scope the keys read (`Scope`). -/
structure Scope where
  userIDs : List Int := []
deriving DecidableEq, Repr

/-- An authored per-minute ceiling (`RateLimitDef`); 0 is no limit. -/
structure RateLimitDef where
  name : String
  scope : Scope := {}
  tokensPerMin : Int := 0
  requestsPerMin : Int := 0
  cls : RateClass := .project
deriving DecidableEq, Repr

/-- `RateLimitDef.Limited`. -/
def RateLimitDef.limited (d : RateLimitDef) : Bool :=
  decide (d.tokensPerMin > 0) || decide (d.requestsPerMin > 0)

/-- The agent a request was made from (`AgentRef`). -/
structure AgentRef where
  projectID : Int := 0
  applicationID : Int := 0
deriving DecidableEq, Repr

/-- The request a rule governs (`Subject`), as far as the keys read
it. -/
structure Subject where
  projectID : Int := 0
  userID : Int := 0
  agent : AgentRef := {}
deriving DecidableEq, Repr

-- =============================================================== the keys

/-- A character of the NATS token charset. -/
def tokenChar (c : Char) : Bool :=
  ('a' ≤ c && c ≤ 'z') || ('A' ≤ c && c ≤ 'Z') || ('0' ≤ c && c ≤ '9')
    || c == '_' || c == '-'

/-- `sanitiseToken`: a rule name mapped onto the token charset, bounded
to 64 characters (the mapped name is ASCII, so characters are bytes). -/
def sanitiseToken (s : String) : String :=
  if s = "" then "unnamed"
  else
    let out := s.toList.map fun c => if tokenChar c then c else '_'
    if out.all (· == '_') then "unnamed"
    else String.ofList (out.take 64)

/-- `RateLimitKey`: per rule and project. -/
def rateLimitKey (rule : String) (projectID : Int) : String :=
  sanitiseToken rule ++ "-" ++ toString projectID

/-- `BucketKey`: per rule and counted principal. -/
def bucketKey (d : RateLimitDef) (sub : Subject) : String :=
  match d.cls with
  | .agent =>
      let key := sanitiseToken d.name ++ "-a" ++ toString sub.agent.projectID
        ++ "_" ++ toString sub.agent.applicationID
      if d.scope.userIDs.length > 0 then key ++ "-u" ++ toString sub.userID
      else key
  | .user => sanitiseToken d.name ++ "-u" ++ toString sub.userID
  | .project => rateLimitKey d.name sub.projectID

-- ========================================================== the admission

/-- `admitRank`: agent, then user, then project. -/
def admitRank : RateClass → Nat
  | .agent => 0
  | .user => 1
  | .project => 2

/-- The limits `AdmitAll` applies, narrowest first. A stable sort on
three ranks is the three classes one after another. -/
def limitedInOrder (defs : List RateLimitDef) : List RateLimitDef :=
  let limited := defs.filter RateLimitDef.limited
  [0, 1, 2].flatMap fun r => limited.filter fun d => admitRank d.cls == r

/-- Which bucket refused (`RateDecision.Bucket`). -/
inductive BucketKind
  | requests
  | tokens
deriving DecidableEq, Repr

/-- The answer of `AdmitAll` (`RateDecision`). -/
structure RateDecision where
  allowed : Bool
  rule : String := ""
  cls : RateClass := .project
  bucket : Option BucketKind := none
  limit : Int := 0
  observed : Int := 0
  retryAfter : Int := 0
deriving DecidableEq, Repr

/-- How a call returned: admitted, with the limits it counted, or
refused by one limit's token or request bucket. -/
inductive Outcome
  | admitted (counted : List RateLimitDef)
  | refusedTokens (d : RateLimitDef) (observed : Int)
  | refusedRequests (d : RateLimitDef) (observed : Int)
deriving DecidableEq, Repr

/-- The value `AdmitAll` returns for an outcome; `retry` is what is left
of the window. -/
def Outcome.decision (retry : Int) : Outcome → RateDecision
  | .admitted _ => { allowed := true }
  | .refusedTokens d observed =>
      { allowed := false, rule := d.name, cls := d.cls
        bucket := some .tokens, limit := d.tokensPerMin
        observed := observed, retryAfter := retry }
  | .refusedRequests d observed =>
      { allowed := false, rule := d.name, cls := d.cls
        bucket := some .requests, limit := d.requestsPerMin
        observed := observed, retryAfter := retry }

/-- Where a call of `AdmitAll` is. -/
inductive Phase
  /-- Reading token buckets: those left, and the limits kept so far. -/
  | tokens (rest kept : List RateLimitDef)
  /-- Incrementing request buckets: those left, and those counted. -/
  | requests (rest counted : List RateLimitDef)
  /-- Giving slots back after a refusal by `refuser`. -/
  | compensate (rest : List RateLimitDef) (refuser : RateLimitDef)
      (observed : Int)
  | returned (out : Outcome)
deriving DecidableEq, Repr

/-- One call: the subject, the limits it was made with, and where it
is. -/
structure Call where
  sub : Subject
  limits : List RateLimitDef
  phase : Phase
deriving DecidableEq, Repr

/-- The call as `AdmitAll` enters its first loop. -/
def Call.enter (defs : List RateLimitDef) (sub : Subject) : Call :=
  { sub := sub, limits := limitedInOrder defs
    phase := .tokens (limitedInOrder defs) [] }

/-- The request buckets of the window. -/
abbrev Buckets := String → Int

/-- `IncrRateLimit`: add `delta` and read the new total. -/
def incr (b : Buckets) (key : String) (delta : Int) : Buckets × Int :=
  (Function.update b key (b key + delta), b key + delta)

/-- The next counter operation of a call (or the next loop iteration
that needs none). `tokenTotal` is what a token read returns, `none` for
a failed read. A returned call has no next operation. -/
def advance (b : Buckets) (c : Call) (tokenTotal : Option Int) :
    Option (Buckets × Call) :=
  match c.phase with
  | .tokens (d :: rest) kept =>
      if d.tokensPerMin ≤ 0 then
        some (b, { c with phase := .tokens rest (kept ++ [d]) })
      else
        match tokenTotal with
        | none => some (b, { c with phase := .tokens rest kept })
        | some total =>
            if total ≥ d.tokensPerMin then
              some (b, { c with phase := .returned (.refusedTokens d total) })
            else some (b, { c with phase := .tokens rest (kept ++ [d]) })
  | .tokens [] kept => some (b, { c with phase := .requests kept [] })
  | .requests (d :: rest) counted =>
      if d.requestsPerMin ≤ 0 then
        some (b, { c with phase := .requests rest counted })
      else
        let r := incr b (bucketKey d c.sub) 1
        if r.2 > d.requestsPerMin then
          some (r.1, { c with phase := .compensate counted d r.2 })
        else some (r.1, { c with phase := .requests rest (counted ++ [d]) })
  | .requests [] counted =>
      some (b, { c with phase := .returned (.admitted counted) })
  | .compensate (d :: rest) refuser observed =>
      some ((incr b (bucketKey d c.sub) (-1)).1,
        { c with phase := .compensate rest refuser observed })
  | .compensate [] refuser observed =>
      some (b, { c with phase := .returned (.refusedRequests refuser observed) })
  | .returned _ => none

-- ================================================================ the runs

/-- The shared buckets and every call made in the window. -/
structure Window where
  buckets : Buckets
  calls : List Call

/-- A fresh window. -/
def Window.fresh : Window := { buckets := fun _ => 0, calls := [] }

/-- A call arrives, or one call moves. -/
inductive AdmitOp
  | arrive (defs : List RateLimitDef) (sub : Subject)
  | move (call : Nat) (tokenTotal : Option Int)
deriving DecidableEq, Repr

/-- One step of the window. -/
def admitStep (w : Window) : AdmitOp → Option Window
  | .arrive defs sub =>
      some { w with calls := w.calls ++ [Call.enter defs sub] }
  | .move i tokenTotal =>
      match w.calls[i]? with
      | none => none
      | some c =>
          match advance w.buckets c tokenTotal with
          | none => none
          | some (b, c') =>
              some { buckets := b, calls := w.calls.set i c' }

-- ======================================================= the observations

/-- The call was admitted and counted in bucket `key`. -/
def Call.admittedIn (c : Call) (key : String) : Bool :=
  match c.phase with
  | .returned (.admitted counted) =>
      counted.any fun d => bucketKey d c.sub == key
  | _ => false

/-- The call was refused by the request bucket `key`. -/
def Call.refusedIn (c : Call) (key : String) : Bool :=
  match c.phase with
  | .returned (.refusedRequests d _) => bucketKey d c.sub == key
  | _ => false

/-- `AdmitAll` has returned. -/
def Call.done (c : Call) : Bool :=
  match c.phase with
  | .returned _ => true
  | _ => false

/-- How many calls were admitted and counted in bucket `key`. -/
def Window.admitted (w : Window) (key : String) : Nat :=
  w.calls.countP fun c => c.admittedIn key

/-- How many calls bucket `key` itself refused. -/
def Window.refused (w : Window) (key : String) : Nat :=
  w.calls.countP fun c => c.refusedIn key

end Elitea.Policy
