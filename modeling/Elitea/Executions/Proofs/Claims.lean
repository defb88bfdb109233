/-
What each call does to the claims and to the job, said once: the
inversion lemmas every result about the authority of an execution uses.

# Claims

A call changes the claims in one way only: it may update claims without
changing their fence or giving a released one back (`Evolves`), and it
may then put one new claim before them, all of them being released
(`ClaimsMove`).

# The job

`JobMove` lists the changes of the job. `AbortClaim` does not look at the
state it leaves again, so it leaves CLAIMED unless what it saw is stale.
-/
import Mathlib.Data.List.MinMax
import Mathlib.Data.List.Nodup
import Mathlib.Order.Nat
import Elitea.Lib.Pairs
import Elitea.Lib.Fallible
import Elitea.Executions.System

namespace Elitea.Executions

open Elitea.Lib

variable {t t' : Tables} {c : Claim} {gap now : Nat} {env : ClaimEnv}
  {request : ClaimRequest} {d : ClaimDecision} {claims claims' : List Claim}
  {lease : Lease} {d' : ClaimDecision}

-- =========================================================== the claims list

/-- Attempts go up with every claim; the newest is first. -/
abbrev Attempts (claims : List Claim) : Prop :=
  claims.Pairwise fun newer older =>
    older.fence.claimAttempt < newer.fence.claimAttempt

/-- A claim after an update: the same fence and watermark, and what was
released stays released as it was. -/
structure Evolves (c c' : Claim) : Prop where
  fence : c'.fence = c.fence
  watermark : c'.initialOutputWatermark = c.initialOutputWatermark
  released : c.released.isSome → c'.released = c.released

theorem Evolves.refl (c : Claim) : Evolves c c := ⟨rfl, rfl, fun _ => rfl⟩

theorem Evolves.trans {c₁ c₂ c₃ : Claim} (h : Evolves c₁ c₂)
    (h' : Evolves c₂ c₃) : Evolves c₁ c₃ where
  fence := h'.fence.trans h.fence
  watermark := h'.watermark.trans h.watermark
  released hr := by
    have h₂ := h.released hr
    exact (h'.released (h₂ ▸ hr)).trans h₂

abbrev AllEvolve (claims claims' : List Claim) : Prop :=
  List.Forall₂ Evolves claims claims'

theorem AllEvolve.refl (claims : List Claim) : AllEvolve claims claims :=
  List.forall₂_same.2 fun c _ => Evolves.refl c

theorem AllEvolve.trans {a b c : List Claim} (h : AllEvolve a b)
    (h' : AllEvolve b c) : AllEvolve a c := by
  induction h generalizing c with
  | nil => cases h'; exact .nil
  | cons hx _ ih =>
      cases h' with
      | cons hy hrest => exact .cons (hx.trans hy) (ih hrest)

/-- Evolution keeps the order of the attempts. -/
theorem AllEvolve.attempts (h : AllEvolve claims claims')
    (ha : Attempts claims) : Attempts claims' := by
  induction h with
  | nil => exact .nil
  | cons hx hrest ih =>
      obtain ⟨hall, ha⟩ := List.pairwise_cons.1 ha
      refine List.pairwise_cons.2 ⟨fun c' hc' => ?_, ih ha⟩
      obtain ⟨c, hc, he⟩ := forall₂_mem_right hrest hc'
      rw [he.fence, hx.fence]
      exact hall c hc

/-- Two claims of one attempt are one claim. -/
theorem eq_of_attempt_eq (ha : Attempts claims) {d : Claim} (hc : c ∈ claims)
    (hd : d ∈ claims) (h : c.fence.claimAttempt = d.fence.claimAttempt) :
    c = d := by
  have nodup : (claims.map (·.fence.claimAttempt)).Nodup :=
    List.pairwise_map.2 (ha.imp Nat.ne_of_gt)
  exact List.inj_on_of_nodup_map nodup hc hd h

/-- Updating one claim evolves the claims if it evolves that claim. -/
theorem updateClaim_evolve (ha : Attempts t.claims) (hc : c ∈ t.claims)
    {f : Claim → Claim} (hf : Evolves c (f c)) :
    AllEvolve t.claims (t.updateClaim c.fence.claimAttempt f).claims := by
  refine List.forall₂_map_right_iff.2 (List.forall₂_same.2 fun d hd => ?_)
  split
  next h =>
    cases eq_of_attempt_eq ha hd hc h
    exact hf
  next => exact Evolves.refl d

theorem claim_eq_some {fence : Fence} (h : t.claim fence = some c) :
    c ∈ t.claims ∧ c.fence = fence :=
  ⟨List.mem_of_find?_eq_some h,
    by simpa only [beq_iff_eq] using List.find?_some h⟩

theorem activeClaim_eq_some (h : t.activeClaim = some c) :
    c ∈ t.claims ∧ c.released = none :=
  ⟨List.mem_of_find?_eq_some h,
    by simpa only [Option.isNone_iff_eq_none] using List.find?_some h⟩

theorem activeClaim_eq_none (h : t.activeClaim = none) :
    ∀ c ∈ t.claims, c.released.isSome = true := by
  intro c hc
  have := List.find?_eq_none.1 h c hc
  rwa [Bool.not_eq_true, Option.isNone_eq_false_iff] at this

theorem lt_nextAttempt (hc : c ∈ t.claims) :
    c.fence.claimAttempt < t.nextAttempt :=
  Nat.lt_succ_of_le
    (List.le_max_of_le (List.mem_map_of_mem hc) (Nat.le_refl _))

-- ==================================================== what a call can change

/-- The changes of the claims. -/
def ClaimsMove (claims claims' : List Claim) : Prop :=
  ∃ mid, AllEvolve claims mid ∧ (claims' = mid
    ∨ ∃ c, claims' = c :: mid ∧ c.released = none
        ∧ c.fence.validate = true
        ∧ ∀ d ∈ mid, d.released.isSome = true
            ∧ d.fence.claimAttempt < c.fence.claimAttempt)

theorem ClaimsMove.refl (claims : List Claim) : ClaimsMove claims claims :=
  ⟨claims, AllEvolve.refl claims, .inl rfl⟩

theorem ClaimsMove.evolve (h : AllEvolve claims claims') :
    ClaimsMove claims claims' :=
  ⟨claims', h, .inl rfl⟩

/-- The changes of the job; `stale` says that the call is an abort that
decides on an outdated state. -/
inductive JobMove (stale : Prop) (j j' : Job) : Prop where
  | same (state : j'.state = j.state) (invocation : j'.invocation = j.invocation)
  | publish (before : j.state = .pending) (after : j'.state = .dispatched)
      (invocation : j'.invocation = j.invocation)
  | claim (before : j.state = .pending ∨ j.state = .dispatched)
      (after : j'.state = .claimed) (invocation : j'.invocation = j.invocation)
  | retire (before : j.state = .pending ∨ j.state = .dispatched)
      (after : j'.state = .cancelled ∨ j'.state = .failed)
      (invocation : j'.invocation = j.invocation)
  | begin (before : j.state = .claimed) (waiting : j.invocation = .notStarted)
      (after : j'.state = .running) (invocation : j'.invocation = .preparing)
  | authorize (before : j.state = .running) (waiting : j.invocation = .preparing)
      (after : j'.state = .running) (invocation : j'.invocation = .mayHaveStarted)
  | abort (before : j.state = .claimed ∨ stale)
      (after : j'.state = .dispatched ∨ j'.state = .quarantined)
      (invocation : j'.invocation = j.invocation)
  | settle (after : j'.state.settled = true)
      (invocation : j'.invocation = j.invocation)

theorem JobMove.refl {stale : Prop} (j : Job) : JobMove stale j j :=
  .same rfl rfl

-- ============================================================ node recovery

/-- Setting a recovery mode found the lease's claim unreleased, the job
running and no terminal output. -/
theorem setNodeRecoveryClaimMode_ok {desired : DesiredState}
    {mode : RecoveryMode}
    (h : setNodeRecoveryClaimMode t now env lease desired mode = .ok t') :
    ∃ c, t.claim lease.fence = some c ∧ c.released = none
      ∧ t.job.state = .running ∧ t.inbox = []
      ∧ t' = t.updateClaim c.fence.claimAttempt
          (·.inMode mode) := by
  unfold setNodeRecoveryClaimMode at h
  split at h
  next => cases h
  next c hc =>
    split at h
    next hcond =>
      simp only [Bool.and_eq_true, beq_iff_eq, Option.isNone_iff_eq_none,
        List.isEmpty_iff] at hcond
      exact ⟨c, hc, hcond.1.1.1.1.1.1.1.1.1.1.1, hcond.1.1.1.1.1.1.1.1.2,
        hcond.2, (Except.ok.inj h).symm⟩
    next => cases h

/-- The lease's claim was put into a recovery mode, and the answer says
so. -/
def Recovered (t : Tables) (lease : Lease) (d d' : ClaimDecision)
    (t' : Tables) : Prop :=
  ∃ c mode x, t.claim lease.fence = some c ∧ c.released = none
    ∧ t.inbox = [] ∧ (x = .recoverAgentModelCheckpoint ∨ x = .recoverNodeVisit)
    ∧ d' = { d with disposition := x }
    ∧ t' = t.updateClaim c.fence.claimAttempt (·.inMode mode)

theorem selectNodeCheckpointInspection_ok
    (h : selectNodeCheckpointInspection t now env lease d = .ok (d', t')) :
    Recovered t lease d d' t' := by
  obtain ⟨u, hu, hr⟩ := bind_eq_ok.1 h
  obtain ⟨c, hc, hrel, -, hin, rfl⟩ := setNodeRecoveryClaimMode_ok hu
  cases hr
  exact ⟨c, _, _, hc, hrel, hin, .inl rfl, rfl, rfl⟩

/-- The node-recovery selection leaves everything as it is, or recovers. -/
theorem selectNodeRecoveryClaim_ok
    (h : selectNodeRecoveryClaim t now request env lease d = .ok (d', t')) :
    (d' = d ∧ t' = t) ∨ Recovered t lease d d' t' := by
  unfold selectNodeRecoveryClaim at h
  dsimp only at h
  obtain ⟨-, h⟩ := ite_error_eq_ok.1 h
  split at h
  next =>
    split at h
    next => exact .inr (selectNodeCheckpointInspection_ok h)
    next =>
      cases h
      exact .inl ⟨rfl, rfl⟩
  next visit _ =>
    split at h
    next => exact .inr (selectNodeCheckpointInspection_ok h)
    next =>
      obtain ⟨-, h⟩ := ite_error_eq_ok.1 h
      obtain ⟨u, hu, h⟩ := bind_eq_ok.1 h
      obtain ⟨c, hc, hrel, -, hin, rfl⟩ := setNodeRecoveryClaimMode_ok hu
      cases h
      exact .inr ⟨c, _, _, hc, hrel, hin, .inr rfl, rfl, rfl⟩

/-- A change of mode evolves a claim. -/
theorem evolves_mode (c : Claim) (mode : RecoveryMode) :
    Evolves c (c.inMode mode) := ⟨rfl, rfl, fun _ => rfl⟩

-- ================================================================= claiming

/-- Only the newest claim may be unreleased. -/
abbrev Single (claims : List Claim) : Prop :=
  ∀ c ∈ claims.tail, c.released.isSome = true

/-- A claim that was answered without a new one: some claims were
released as expired or put into a recovery mode, a toolkit result was
marked projected, and nothing else happened. -/
structure Told (t t' : Tables) : Prop where
  claims : AllEvolve t.claims t'.claims
  job : t'.job = t.job
  outbox : t'.outbox = t.outbox
  inbox : t'.inbox = t.inbox
    ∨ ∃ capability, t'.inbox
        = (completeToolkitInboxProjection t capability).inbox
  settlement : t'.settlement = t.settlement
  replay : t'.replay = t.replay
  events : t'.events = t.events
  nextCursor : t'.nextCursor = t.nextCursor

theorem Told.refl (t : Tables) : Told t t :=
  ⟨AllEvolve.refl _, rfl, rfl, .inl rfl, rfl, rfl, rfl, rfl⟩

/-- The conditions under which a new claim is told ACCEPTED. -/
structure MayRun (t t' : Tables) : Prop where
  unsettled : t.job.state.settled = false
  noOutput : hasDurableTerminalOutput t' = false
  notInvoked : t.job.capability = .configurationValidate
    ∨ t.job.state ≠ .running ∨ t.job.invocation = .preparing

/-- The tables after a grant: the new claim, in some recovery mode,
before the others, the command's authority granted, a waiting job
claimed. -/
def Tables.granted (t : Tables) (now : Nat) (request : ClaimRequest)
    (env : ClaimEnv) (mode : RecoveryMode) : Tables :=
  { t with
    claims := (newClaim t now request env).inMode mode :: t.claims
    outbox := { t.outbox with authorityGranted := true }
    job := { t.job with state :=
      if t.job.state == .pending || t.job.state == .dispatched then .claimed
      else t.job.state } }

/-- The command is published and open, and the request is for it. -/
structure OpenCommand (t : Tables) (request : ClaimRequest) : Prop where
  valid : request.validate = true
  capability : request.capability = t.job.capability
  unretired : t.outbox.retired = none
  prepared : t.outbox.prepared = some request.signedEnvelopeDigest
  published : t.outbox.published = t.outbox.prepared

/-- A claim that was granted, over claims that are all released. -/
structure Granted (t : Tables) (now : Nat) (request : ClaimRequest)
    (env : ClaimEnv) (d : ClaimDecision) (u t' : Tables) : Prop where
  command : OpenCommand t request
  token : env.token ≠ 0
  told : Told t u
  free : ∀ c ∈ u.claims, c.released.isSome = true
  granted : ∃ mode, t' = u.granted now request env mode
  lease : d.lease = some ⟨(newClaim u now request env).fence,
    (newClaim u now request env).leaseExpiresAt⟩
  accepted : d.disposition = .accepted → MayRun t t'

/-- What `ClaimValidation` does. -/
inductive ClaimEffect (t : Tables) (now gap : Nat) (request : ClaimRequest)
    (env : ClaimEnv) (d : ClaimDecision) (t' : Tables) : Prop where
  | told (h : Told t t') (hd : d.disposition ≠ .accepted)
  | retired (u : Tables) (hu : Told t u)
      (h : retireLockedNoAuthorityValidation u now gap = some t')
      (hd : d.disposition ≠ .accepted)
  | granted (u : Tables) (h : Granted t now request env d u t')

/-- What ACCEPTED says of a new claim. -/
structure Runnable (t : Tables) (request : ClaimRequest) (state : JobState)
    (invocation : InvocationState) : Prop where
  unsettled : state.settled = false
  noOutput : hasDurableTerminalOutput t = false
  notInvoked : ¬ ((request.capability.nodeEvent || request.capability.toolkit)
    = true ∧ state = .running ∧ invocation ≠ .preparing)

/-- A new claim's disposition: the tables as they are, or the claim put
into the checkpoint mode. -/
theorem grantDisposition_ok {state : JobState} {invocation : InvocationState}
    {only : RecoveryOnly}
    (h : grantDisposition t request state invocation only c = .ok (d, t')) :
    d.lease = some ⟨c.fence, c.leaseExpiresAt⟩
      ∧ (t' = t ∨ t' = t.updateClaim c.fence.claimAttempt
          (·.inMode .agentModelCheckpoint))
      ∧ (d.disposition = .accepted →
          t' = t ∧ Runnable t request state invocation) := by
  unfold grantDisposition at h
  dsimp only at h
  split at h
  next =>
    split at h <;> cases h <;> exact ⟨rfl, .inl rfl, nofun⟩
  next hset =>
    obtain ⟨found, -, h⟩ := bind_eq_ok.1 h
    split at h
    next =>
      cases h
      exact ⟨rfl, .inl rfl, nofun⟩
    next =>
      obtain ⟨-, h⟩ := ite_error_eq_ok.1 h
      split at h
      next =>
        cases h
        exact ⟨rfl, .inl rfl, nofun⟩
      next =>
        split at h
        next =>
          cases h
          exact ⟨rfl, .inl rfl, nofun⟩
        next hdur =>
          split at h
          next =>
            split at h <;> cases h
            · exact ⟨rfl, .inr rfl, nofun⟩
            · exact ⟨rfl, .inl rfl, nofun⟩
          next hrun =>
            cases h
            refine ⟨rfl, .inl rfl, fun _ => ⟨rfl, ?_, ?_, ?_⟩⟩
            · exact Bool.eq_false_iff.2 hset
            · exact Bool.eq_false_iff.2 hdur
            · simpa only [Bool.and_eq_true, beq_iff_eq, bne_iff_ne,
                and_assoc] using hrun

/-- A change of the new claim's mode reaches no older claim. -/
theorem granted_updateClaim (t : Tables) (now : Nat)
    (request : ClaimRequest) (env : ClaimEnv) (mode mode' : RecoveryMode) :
    (t.granted now request env mode).updateClaim t.nextAttempt
        (·.inMode mode') = t.granted now request env mode' := by
  have older : t.claims.map (fun c =>
      if c.fence.claimAttempt = t.nextAttempt then c.inMode mode' else c)
      = t.claims := by
    refine (List.map_congr_left fun c hc => ?_).trans (List.map_id _)
    exact if_neg (Nat.ne_of_lt (lt_nextAttempt hc))
  unfold Tables.updateClaim Tables.granted
  dsimp only
  rw [List.map_cons, older]
  congr 2
  exact if_pos rfl

/-- The selection after a grant ends in a grant, and accepts only what
was accepted. -/
theorem selectAfterGrant_ok {state : JobState} {mode : RecoveryMode}
    (h : selectAfterGrant now request env state
      (newClaim t now request env)
      (d, t.granted now request env mode) = .ok (d', t')) :
    (∃ mode', t' = t.granted now request env mode') ∧ d'.lease = d.lease
      ∧ (d'.disposition = .accepted → d.disposition = .accepted) := by
  unfold selectAfterGrant at h
  dsimp only at h
  split at h
  next =>
    rcases selectNodeRecoveryClaim_ok h with
      ⟨rfl, rfl⟩ | ⟨c, mode', x, hc, -, -, hx, rfl, rfl⟩
    · exact ⟨⟨mode, rfl⟩, rfl, id⟩
    · have attempt : c.fence.claimAttempt = t.nextAttempt :=
        congrArg Fence.claimAttempt (claim_eq_some hc).2
      refine ⟨⟨mode', ?_⟩, rfl, fun ha => ?_⟩
      · rw [attempt]
        exact granted_updateClaim t now request env mode mode'
      · rcases hx with rfl | rfl <;> cases ha
  next =>
    cases h
    exact ⟨⟨mode, rfl⟩, rfl, id⟩

/-- A grant retires a command whose deadline passed before it was given
to anyone, or inserts the new claim. -/
theorem grantClaim_ok {only : RecoveryOnly}
    (h : grantClaim t now gap request env only = .ok (d, t')) :
    (retireLockedNoAuthorityValidation t now gap = some t'
        ∧ d.disposition ≠ .accepted)
      ∨ (env.token ≠ 0 ∧ (∃ mode, t' = t.granted now request env mode)
        ∧ d.lease = some ⟨(newClaim t now request env).fence,
            (newClaim t now request env).leaseExpiresAt⟩
        ∧ (d.disposition = .accepted →
          Runnable t request t.job.state t.job.invocation)) := by
  unfold grantClaim at h
  split at h
  next =>
    split at h
    next t'' ht =>
      cases h
      exact .inl ⟨ht, nofun⟩
    next => cases h
  next =>
    obtain ⟨htoken, h⟩ := ite_error_eq_ok.1 h
    obtain ⟨⟨d₁, t₁⟩, h₁, h₂⟩ := bind_eq_ok.1 h
    obtain ⟨hl, ht, ha⟩ := grantDisposition_ok h₁
    obtain ⟨mode, rfl⟩ : ∃ mode, t₁ = t.granted now request env mode := by
      rcases ht with rfl | rfl
      · exact ⟨.none, rfl⟩
      · exact ⟨.agentModelCheckpoint,
          granted_updateClaim t now request env .none _⟩
    obtain ⟨hm, hl', ha'⟩ := selectAfterGrant_ok h₂
    refine .inr ⟨htoken, hm, hl'.trans hl, fun hd => ?_⟩
    obtain ⟨-, hset, hdur, hrun⟩ := ha (ha' hd)
    exact ⟨hset, hdur, hrun⟩

/-- The claim of a free job: it is told to come back, or granted. -/
theorem claimFree_ok (h : claimFree t now gap request env = .ok (d, t')) :
    (t' = t ∧ d.disposition ≠ .accepted)
      ∨ ∃ only, grantClaim t now gap request env only = .ok (d, t') := by
  unfold claimFree at h
  dsimp only at h
  split at h
  next =>
    cases h
    exact .inl ⟨rfl, nofun⟩
  next =>
    obtain ⟨only, -, h⟩ := bind_eq_ok.1 h
    split at h
    next =>
      cases h
      exact .inl ⟨rfl, nofun⟩
    next =>
      split at h
      next =>
        cases h
        exact .inl ⟨rfl, nofun⟩
      next => exact .inr ⟨only, h⟩

/-- The holder of the live claim is told, and at most its claim changes
its mode. -/
theorem claimHeld_ok (h : claimHeld t now request env c = .ok (d, t')) :
    d.disposition ≠ .accepted
      ∧ (t' = t ∨ ∃ x mode, t.claim c.fence = some x
          ∧ t' = t.updateClaim x.fence.claimAttempt (·.inMode mode)) := by
  unfold claimHeld at h
  obtain ⟨found, -, h⟩ := bind_eq_ok.1 h
  dsimp only at h
  split at h
  next =>
    cases h
    exact ⟨nofun, .inl rfl⟩
  next =>
    have shown : ∀ b : Bool, (if b = true then
        ClaimDisposition.recoverRunningNoAck else .activeLeaseNoAck)
        ≠ .accepted := by decide
    split at h
    next =>
      split at h
      next =>
        rcases selectNodeRecoveryClaim_ok h with
          ⟨rfl, rfl⟩ | ⟨x, mode, y, hx, -, -, hy, rfl, rfl⟩
        · exact ⟨shown _, .inl rfl⟩
        · refine ⟨?_, .inr ⟨x, mode, hx, rfl⟩⟩
          rcases hy with rfl | rfl <;> nofun
      next =>
        cases h
        exact ⟨shown _, .inl rfl⟩
    next =>
      cases h
      exact ⟨nofun, .inl rfl⟩

/-- There is one unreleased claim at most. -/
theorem Single.eq (hs : Single claims) {d : Claim} (hc : c ∈ claims)
    (hd : d ∈ claims) (hc' : c.released = none) (hd' : d.released = none) :
    c = d := by
  cases claims with
  | nil => exact absurd hc List.not_mem_nil
  | cons x rest =>
      have head : ∀ e ∈ x :: rest, e.released = none → e = x := by
        intro e he hr
        rcases List.mem_cons.1 he with rfl | he
        · rfl
        · have := hs e he
          rw [hr] at this
          cases this
      rw [head c hc hc', head d hd hd']

/-- Releasing the unreleased claim leaves none. -/
theorem released_of_release (hs : Single t.claims) (hc : c ∈ t.claims)
    (hr : c.released = none) (reason : ReleaseReason) :
    ∀ d ∈ (t.updateClaim c.fence.claimAttempt
      fun c => c.release reason).claims, d.released.isSome = true := by
  intro d hd
  obtain ⟨e, he, rfl⟩ := List.mem_map.1 hd
  split
  next => rfl
  next hne =>
    cases her : e.released with
    | some r => rfl
    | none => exact absurd (hs.eq he hc her hr ▸ rfl) hne

theorem evolves_release (h : c.released = none) (reason : ReleaseReason) :
    Evolves c (c.release reason) :=
  ⟨rfl, rfl, fun hr => by rw [h] at hr; cases hr⟩

/-- A claim that got as far as the unreleased claim: claims evolved, and
then it was told, or granted over released claims. -/
theorem claimPublished_ok (ha : Attempts t.claims) (hs : Single t.claims)
    {observedAt : Nat}
    (h : claimPublished t now observedAt gap request env = .ok (d, t')) :
    ∃ claims, AllEvolve t.claims claims
      ∧ ((t' = { t with claims } ∧ d.disposition ≠ .accepted)
        ∨ ((∀ c ∈ claims, c.released.isSome = true)
          ∧ ∃ only, grantClaim { t with claims } now gap request env only
              = .ok (d, t'))) := by
  unfold claimPublished at h
  split at h
  next hn =>
    refine ⟨t.claims, AllEvolve.refl _, ?_⟩
    rcases claimFree_ok h with ⟨rfl, hd⟩ | ⟨only, ho⟩
    · exact .inl ⟨rfl, hd⟩
    · exact .inr ⟨activeClaim_eq_none hn, only, ho⟩
  next c hc =>
    obtain ⟨hmem, hrel⟩ := activeClaim_eq_some hc
    split at h
    next =>
      split at h
      next =>
        cases h
        exact ⟨t.claims, AllEvolve.refl _, .inl ⟨rfl, nofun⟩⟩
      next =>
        obtain ⟨hd, rfl | ⟨x, mode, hx, rfl⟩⟩ := claimHeld_ok h
        · exact ⟨t'.claims, AllEvolve.refl _, .inl ⟨rfl, hd⟩⟩
        · exact ⟨_, updateClaim_evolve ha (claim_eq_some hx).1
            (evolves_mode x mode), .inl ⟨rfl, hd⟩⟩
    next =>
      have evolved := updateClaim_evolve ha hmem
        (f := fun c => c.release .leaseExpired)
        (evolves_release hrel .leaseExpired)
      refine ⟨_, evolved, ?_⟩
      rcases claimFree_ok h with ⟨rfl, hd⟩ | ⟨only, ho⟩
      · exact .inl ⟨rfl, hd⟩
      · exact .inr ⟨released_of_release hs hmem hrel .leaseExpired,
          only, ho⟩

/-- A toolkit projection is completed, nothing else. -/
theorem told_complete (t : Tables) (capability : Capability) :
    Told t (completeToolkitInboxProjection t capability) := by
  have inbox : (completeToolkitInboxProjection t capability).inbox = t.inbox
      ∨ ∃ capability', (completeToolkitInboxProjection t capability).inbox
        = (completeToolkitInboxProjection t capability').inbox :=
    .inr ⟨capability, rfl⟩
  revert inbox
  cases hp : inboxOnlyPayload capability with
  | none =>
      simp only [completeToolkitInboxProjection, hp]
      exact fun _ => Told.refl t
  | some payload =>
      intro inbox
      refine ⟨?_, ?_, ?_, inbox, ?_, ?_, ?_, ?_⟩ <;>
        simp only [completeToolkitInboxProjection, hp]
      exact AllEvolve.refl _

theorem Told.withClaims {u : Tables} (h : Told t u)
    (hc : AllEvolve u.claims claims) : Told t { u with claims } :=
  ⟨h.claims.trans hc, h.job, h.outbox, h.inbox, h.settlement, h.replay,
    h.events, h.nextCursor⟩

/-- A claim that gets to the unreleased claim asks for a command that is
published and open. -/
theorem claimEarly_none (h : claimEarly t now gap request env = none) :
    OpenCommand t request := by
  unfold claimEarly at h
  dsimp only at h
  split at h
  next => cases h
  next hc =>
    simp only [Bool.or_eq_true, Bool.not_eq_true', decide_eq_true_eq, not_or,
      Bool.not_eq_false, ne_eq, Decidable.not_not] at hc
    split at h
    next => cases h
    next hret =>
      split at h
      next => cases h
      next =>
        split at h
        next => cases h
        next hmatch =>
          simp only [Bool.or_eq_true, Bool.not_eq_true', not_or,
            Bool.not_eq_false, beq_iff_eq] at hmatch
          split at h
          next =>
            split at h
            next => split at h <;> cases h
            next => cases h
          next =>
            split at h
            next => cases h
            next hpub =>
              exact ⟨hc.1, hc.2, hret, hmatch.1,
                hmatch.2.resolve_left hpub⟩

/-- An early answer changes nothing but a toolkit projection, or retires
the command. -/
theorem claimEarly_ok
    (h : claimEarly t now gap request env = some (.ok (d, t'))) :
    d.disposition ≠ .accepted
      ∧ (Told t t' ∨ retireLockedNoAuthorityValidation t now gap
          = some t') := by
  unfold claimEarly at h
  dsimp only at h
  split at h
  next => cases h
  next =>
    split at h
    next code _ =>
      cases hr : retiredClaimDecision t.job code t.outbox.authorityGranted
          (t.outbox.prepared == some request.signedEnvelopeDigest)
          (t.outbox.published.isNone
            || t.outbox.published == t.outbox.prepared) with
      | error e => rw [hr] at h; cases h
      | ok d₀ =>
          rw [hr] at h
          cases h
          refine ⟨?_, .inl (Told.refl t)⟩
          unfold retiredClaimDecision at hr
          obtain ⟨-, hr⟩ := ite_error_eq_ok.1 hr
          split at hr
          all_goals
            split at hr
            · cases hr
            · cases hr; nofun
    next =>
      split at h
      next => cases h; exact ⟨nofun, .inl (Told.refl t)⟩
      next =>
        split at h
        next => cases h
        next =>
          split at h
          next =>
            split at h
            next t'' ht =>
              split at h <;> cases h <;> exact ⟨nofun, .inr ht⟩
            next => cases h; exact ⟨nofun, .inl (Told.refl t)⟩
          next =>
            split at h
            next => cases h; exact ⟨nofun, .inl (Told.refl t)⟩
            next =>
              split at h
              next => cases h; exact ⟨nofun, .inl (Told.refl t)⟩
              next =>
                split at h
                next => cases h; exact ⟨nofun, .inl (Told.refl t)⟩
                next =>
                  split at h
                  next => cases h; exact ⟨nofun, .inl (told_complete t _)⟩
                  next => cases h

/-- What `ClaimValidation` does, in one lemma. -/
theorem claimValidation_ok (ha : Attempts t.claims) (hs : Single t.claims)
    {observedAt : Nat}
    (h : claimValidation t now observedAt gap request env = .ok (d, t')) :
    ClaimEffect t now gap request env d t' := by
  unfold claimValidation at h
  split at h
  next answer he =>
    subst h
    obtain ⟨hd, ht | hr⟩ := claimEarly_ok he
    · exact .told ht hd
    · exact .retired t (Told.refl t) hr hd
  next hn =>
    have hopen := claimEarly_none hn
    have told := told_complete t request.capability
    have hclaims : (completeToolkitInboxProjection t
        request.capability).claims = t.claims := by
      unfold completeToolkitInboxProjection
      split <;> rfl
    obtain ⟨claims, hev, ⟨rfl, hd⟩ | ⟨hfree, only, hg⟩⟩ :=
      claimPublished_ok (hclaims ▸ ha) (hclaims ▸ hs) h
    · exact .told (told.withClaims hev) hd
    · rcases grantClaim_ok hg with
        ⟨hr, hd⟩ | ⟨htoken, ⟨mode, rfl⟩, hl, hacc⟩
      · exact .retired _ (told.withClaims hev) hr hd
      · refine .granted _ ⟨hopen, htoken, told.withClaims hev, hfree,
          ⟨mode, rfl⟩, hl, fun hd => ?_⟩
        obtain ⟨hset, hdur, hrun⟩ := hacc hd
        simp only [told.job] at hset hrun
        refine ⟨hset, hdur, ?_⟩
        by_contra hcon
        simp only [not_or, ne_eq, Decidable.not_not] at hcon
        refine hrun ⟨?_, hcon.2.1, hcon.2.2⟩
        rw [hopen.capability]
        cases hk : t.job.capability <;>
          first | rfl | exact absurd hk hcon.1

end Elitea.Executions
