/-
Settlement is exactly once and faithful to the accepted output.

# The moves of the job state

`StateMove` puts the commits into five classes by what they do to the
settlement and to whether the job is settled. The one that needs an
argument is the abort: it does not look at the job again, so that the job
it puts back was not settled has to come from the claim. `Since` is that
argument: a claim that a statement saw and that is still unreleased has
held the execution all the time, and only its own settlement, which
releases it, could have settled the job.

# The result

`settled_once`: a settlement is stored by one commit, for a projected
terminal output the settling claim produced or took over from an expired
one, together with the job state and the release; after it, in every
continuation, the settlement and the job state stay, the same proposal
gets the same receipt, and everything else is refused.
-/
import Elitea.Executions.Proofs.OutputLog

namespace Elitea.Executions

open Elitea.Lib

variable {t t' : Tables}

-- ============================================================ the invariant

/-- The job is settled as the settlement says, and the settling claim was
released by it. -/
structure SettledAs (t : Tables) (st : Settlement) : Prop where
  state : t.job.state = st.wire.outcome.jobState
  claim : ∃ c ∈ t.claims, c.fence = st.fence ∧ c.released = some .settled
  fence : st.fence.validate = true
  wire : st.wire.validate = true

/-- The command of claims: granted, open and published. -/
structure GrantedCommand (t : Tables) : Prop where
  authority : t.outbox.authorityGranted = true
  unretired : t.outbox.retired = none
  prepared : t.outbox.prepared.isSome = true
  published : t.outbox.published = t.outbox.prepared

structure SettleInv (t : Tables) : Prop where
  fences : ∀ c ∈ t.claims, c.fence.validate = true
  command : t.claims ≠ [] → GrantedCommand t
  unsettled : t.outbox.retired = none → t.settlement = none →
    t.job.state.settled = false
  settlement : ∀ st, t.settlement = some st → SettledAs t st

theorem settleInv_admitted (scope : Scope) (capability : Capability)
    (prepared : Option Digest) (deadline : Nat) :
    SettleInv (admitted scope capability prepared deadline) :=
  ⟨fun _ h => absurd h List.not_mem_nil, absurd rfl, fun _ _ => rfl, nofun⟩

theorem SettlementOutcome.jobState_settled (o : SettlementOutcome) :
    o.jobState.settled = true := by
  cases o <;> rfl

/-- While the job is not settled there is no settlement. -/
theorem SettleInv.noSettlement (h : SettleInv t)
    (hs : t.job.state.settled = false) : t.settlement = none := by
  cases hst : t.settlement with
  | none => rfl
  | some st =>
      rw [(h.settlement st hst).state,
        SettlementOutcome.jobState_settled] at hs
      cases hs

-- ================================================================= the moves

/-- The settlement of a terminal output by a claim. -/
structure SettlesBy (t : Tables) (p : SettlementProposal)
    (receiptId : String) (c : Claim) (row : OutputRow) (t' : Tables) :
    Prop where
  valid : p.fence.validate = true ∧ p.wire.validate = true
  claim : c ∈ t.claims ∧ c.fence = p.fence ∧ c.released = none
  row : settledRow t p = some row
  tables : t' = { t.updateClaim c.fence.claimAttempt
      (fun c => c.release .settled) with
    settlement := some ⟨p.fence, receiptId, p.wire⟩
    job := { t.job with state := p.wire.outcome.jobState } }

/-- What a commit can do to the settlement and to the job's being
settled. -/
inductive StateMove (call : Call) (t t' : Tables) : Prop where
  | kept (settlement : t'.settlement = t.settlement)
      (state : t'.job.state = t.job.state)
  | opened (settlement : t'.settlement = t.settlement)
      (before : t.job.state.settled = false)
      (after : t'.job.state.settled = false)
  | retired (settlement : t'.settlement = t.settlement)
      (claims : t.claims = []) (claims' : t'.claims = [])
      (outbox : t'.outbox.retired ≠ none)
  | aborted (settlement : t'.settlement = t.settlement) (c : Claim)
      (mem : c ∈ t.claims) (unreleased : c.released = none)
      (seen : ∃ c₀ ∈ call.seen.tables.claims, c₀.fence = c.fence)
      (before : call.seen.tables.job.state = .claimed)
      (after : t'.job.state.settled = false)
  | settled (p : SettlementProposal) (receiptId : String) (c : Claim)
      (row : OutputRow) (op : call.op = .prepareSettlement p)
      (before : loadSettlement t = .ok none)
      (h : SettlesBy t p receiptId c row t')

section Moves

variable {cfg : Config} {w w' : World} {now : Nat} {call : Call}
  {choice : Choice} {a : Answer}

theorem settled_of_waiting {s : JobState}
    (h : s = .pending ∨ s = .dispatched) : s.settled = false := by
  rcases h with rfl | rfl <;> rfl

theorem ClaimEffect.stateMove {now gap : Nat} {request : ClaimRequest}
    {env : ClaimEnv} {d : ClaimDecision}
    (h : ClaimEffect t now gap request env d t') : StateMove call t t' := by
  cases h with
  | told h _ => exact .kept h.settlement (congrArg Job.state h.job)
  | retired u hu h _ =>
      obtain ⟨hempty, -, code, job, -, -, -, rfl⟩ :=
        retireLockedNoAuthorityValidation_ok h
      refine .retired hu.settlement ?_ hempty nofun
      have := hu.claims
      rw [hempty] at this
      exact List.forall₂_nil_right_iff.1 this
  | granted u h =>
      obtain ⟨mode, rfl⟩ := h.granted
      by_cases hw : u.job.state = .pending ∨ u.job.state = .dispatched
      · refine .opened h.told.settlement
          (h.told.job ▸ settled_of_waiting hw) ?_
        rw [show (u.granted now request env mode).job.state = .claimed from
          if_pos (by rwa [Bool.or_eq_true, beq_iff_eq, beq_iff_eq])]
        rfl
      · refine .kept h.told.settlement ((if_neg ?_).trans
          (congrArg Job.state h.told.job))
        rwa [Bool.or_eq_true, beq_iff_eq, beq_iff_eq]

theorem prepareSettlement_valid {observedAt : Nat} {p : SettlementProposal}
    {receiptId : String} {receipt : SettlementReceipt}
    (h : prepareSettlement t observedAt p receiptId = .ok (receipt, t')) :
    p.fence.validate = true ∧ p.wire.validate = true := by
  unfold prepareSettlement at h
  split at h
  next => cases h
  next hv =>
    simpa only [Bool.not_eq_true', Bool.not_eq_false,
      Bool.and_eq_true] using hv

theorem SameAuthority.stateMove (h : SameAuthority t t') :
    StateMove call t t' :=
  .kept h.settlement (congrArg Job.state h.job)

theorem Commits.stateMove (hok : ClaimsOk w.tables)
    (h : Commits cfg w now call choice a w') :
    StateMove call w.tables w'.tables := by
  cases h with
  | refused e => exact .kept rfl rfl
  | claim _ h =>
      exact (claimValidation_ok hok.attempts hok.single h).stateMove
  | begun _ h =>
      obtain ⟨-, rfl | ⟨hs, -, rfl⟩⟩ := beginExecution_ok h
      · exact .kept rfl rfl
      · exact .opened rfl (by rw [hs]; rfl) rfl
  | authorized _ h =>
      obtain ⟨-, ⟨-, rfl⟩ | ⟨-, -, -, rfl⟩⟩ := authorizeInvocation_ok h
      · exact .kept rfl rfl
      · exact .kept rfl rfl
  | renewed _ h =>
      obtain ⟨c, -, rfl⟩ := renewLease_ok h
      exact .kept rfl rfl
  | released _ h =>
      obtain ⟨c, -, rfl⟩ := releaseClaim_ok h
      exact .kept rfl rfl
  | @aborted fence disposition _ _ h =>
      obtain ⟨hseen, c, hc, rfl⟩ := abortClaim_ok h
      obtain ⟨hmem, hfence, hrel, -, c₀, hc₀, hf₀⟩ := fencedClaim_ok hc
      refine .aborted rfl c hmem hrel ⟨c₀, hc₀, hf₀.trans hfence.symm⟩
        hseen ?_
      cases disposition <;> rfl
  | settled op h =>
      have hvalid := prepareSettlement_valid h
      rcases prepareSettlement_ok h with
        rfl | ⟨c, hc, row, hload, hf, hr, -, hrow, rfl⟩
      · exact .kept rfl rfl
      · exact .settled _ _ c row op hload ⟨hvalid, ⟨hc, hf, hr⟩, hrow, rfl⟩
  | desired _ => exact .kept rfl rfl
  | published _ h =>
      obtain ⟨hs, -, -, rfl⟩ := publishCommand_ok h
      exact .opened rfl (by rw [hs]; rfl) rfl
  | nodeEvent _ h => exact (projectNodeEvent_ok h).authority.1.stateMove
  | terminal _ h => exact (projectTerminal_ok h).2.2.authority.stateMove
  | pruned _ h => exact (pruneExpiredReplayProgress_authority h).1.stateMove
  | replayed _ _ _ _ => exact .kept rfl rfl
  | attached _ _ => exact .kept rfl rfl

/-- What a commit can do to the command's outbox row. -/
inductive OutboxMove (t t' : Tables) : Prop where
  | same (outbox : t'.outbox = t.outbox)
      (claims : t'.claims ≠ [] → t.claims ≠ [])
  | published (ungranted : t.outbox.authorityGranted = false)
      (outbox : t'.outbox
        = { t.outbox with published := t.outbox.prepared })
      (claims : t'.claims = t.claims)
  | retired (outbox : t'.outbox.retired ≠ none) (claims : t'.claims = [])
  | granted (request : ClaimRequest) (command : OpenCommand t request)
      (outbox : t'.outbox = { t.outbox with authorityGranted := true })

theorem ClaimEffect.outboxMove {now gap : Nat} {request : ClaimRequest}
    {env : ClaimEnv} {d : ClaimDecision}
    (h : ClaimEffect t now gap request env d t') : OutboxMove t t' := by
  cases h with
  | told h _ =>
      refine .same h.outbox fun hne he => hne ?_
      have := h.claims
      rw [he] at this
      exact List.forall₂_nil_left_iff.1 this
  | retired u hu h _ =>
      obtain ⟨hempty, -, code, job, -, -, -, rfl⟩ :=
        retireLockedNoAuthorityValidation_ok h
      exact .retired nofun hempty
  | granted u h =>
      obtain ⟨mode, rfl⟩ := h.granted
      refine .granted request h.command ?_
      change { u.outbox with authorityGranted := true } = _
      rw [h.told.outbox]

theorem SameAuthority.outboxMove (h : SameAuthority t t') : OutboxMove t t' :=
  .same h.outbox fun hne => h.claims ▸ hne

theorem updateClaim_ne_nil {n : Nat} {f : Claim → Claim}
    (h : (t.updateClaim n f).claims ≠ []) : t.claims ≠ [] :=
  fun he => h (by unfold Tables.updateClaim; rw [he]; rfl)

theorem Commits.outboxMove (hok : ClaimsOk w.tables)
    (h : Commits cfg w now call choice a w') :
    OutboxMove w.tables w'.tables := by
  cases h with
  | refused e => exact .same rfl id
  | claim _ h =>
      exact (claimValidation_ok hok.attempts hok.single h).outboxMove
  | begun _ h =>
      obtain ⟨-, rfl | ⟨-, -, rfl⟩⟩ := beginExecution_ok h <;>
        exact .same rfl id
  | authorized _ h =>
      obtain ⟨-, ⟨-, rfl⟩ | ⟨-, -, -, rfl⟩⟩ := authorizeInvocation_ok h <;>
        exact .same rfl id
  | renewed _ h =>
      obtain ⟨c, -, rfl⟩ := renewLease_ok h
      exact .same rfl updateClaim_ne_nil
  | released _ h =>
      obtain ⟨c, -, rfl⟩ := releaseClaim_ok h
      exact .same rfl updateClaim_ne_nil
  | aborted _ h =>
      obtain ⟨-, c, -, rfl⟩ := abortClaim_ok h
      exact .same rfl updateClaim_ne_nil
  | settled _ h =>
      rcases prepareSettlement_ok h with
        rfl | ⟨c, -, row, -, -, -, -, -, rfl⟩
      · exact .same rfl id
      · exact .same rfl updateClaim_ne_nil
  | desired _ => exact .same rfl id
  | published _ h =>
      obtain ⟨-, -, hauth, rfl⟩ := publishCommand_ok h
      exact .published hauth rfl rfl
  | nodeEvent _ h => exact (projectNodeEvent_ok h).authority.1.outboxMove
  | terminal _ h => exact (projectTerminal_ok h).2.2.authority.outboxMove
  | pruned _ h => exact (pruneExpiredReplayProgress_authority h).1.outboxMove
  | replayed _ _ _ _ => exact .same rfl id
  | attached _ _ => exact .same rfl id

/-- A command that was granted stays granted, open and published. -/
theorem OutboxMove.command (h : OutboxMove t t')
    (hinv : t.claims ≠ [] → GrantedCommand t) (hne : t'.claims ≠ []) :
    GrantedCommand t' := by
  cases h with
  | same outbox claims =>
      obtain ⟨h₁, h₂, h₃, h₄⟩ := hinv (claims hne)
      exact ⟨outbox ▸ h₁, outbox ▸ h₂, outbox ▸ h₃, outbox ▸ h₄⟩
  | published ungranted _ claims =>
      have := (hinv (claims ▸ hne)).authority
      rw [ungranted] at this
      cases this
  | retired _ claims => exact absurd claims hne
  | granted request command outbox =>
      refine ⟨?_, ?_, ?_, ?_⟩ <;> rw [outbox]
      · exact command.unretired
      · dsimp only
        rw [command.prepared]
        rfl
      · exact command.published

/-- A retirement is for ever. -/
theorem OutboxMove.unretired (h : OutboxMove t t')
    (hr : t'.outbox.retired = none) : t.outbox.retired = none := by
  cases h with
  | same outbox _ => exact outbox ▸ hr
  | published _ outbox _ => rw [outbox] at hr; exact hr
  | retired outbox _ => exact absurd hr outbox
  | granted _ _ outbox => rw [outbox] at hr; exact hr

theorem Commits.fences (hok : ClaimsOk w.tables)
    (hf : ∀ c ∈ w.tables.claims, c.fence.validate = true)
    (h : Commits cfg w now call choice a w') :
    ∀ c ∈ w'.tables.claims, c.fence.validate = true := by
  obtain ⟨mid, hev, he | ⟨new, he, -, hvalid, -⟩⟩ := (h.moves hok).1
  · intro c hc
    obtain ⟨c₀, hc₀, hev₀⟩ := forall₂_mem_right hev (he ▸ hc)
    rw [hev₀.fence]
    exact hf c₀ hc₀
  · intro c hc
    rw [he] at hc
    rcases List.mem_cons.1 hc with rfl | hc
    · exact hvalid
    · obtain ⟨c₀, hc₀, hev₀⟩ := forall₂_mem_right hev hc
      rw [hev₀.fence]
      exact hf c₀ hc₀

-- ======================================================= what a call still sees

/-- An unreleased claim keeps the job from being settled. -/
theorem Commits.unsettled (hok : ClaimsOk w.tables)
    (h : Commits cfg w now call choice a w')
    (hbefore : w.tables.job.state.settled = false) {fence : Fence}
    (hheld : Unreleased w'.tables fence) :
    w'.tables.job.state.settled = false := by
  obtain ⟨c, hc, -, hr⟩ := hheld
  cases h.stateMove hok with
  | kept _ hst => rw [hst]; exact hbefore
  | opened _ _ hafter => exact hafter
  | retired _ _ hempty _ =>
      rw [hempty] at hc
      exact absurd hc List.not_mem_nil
  | aborted _ _ _ _ _ _ hafter => exact hafter
  | settled p receiptId x row _ _ hsettle =>
      -- the settlement released the one claim that could be unreleased
      obtain ⟨hx, -, hxr⟩ := hsettle.claim
      rw [hsettle.tables] at hc
      have := released_of_release hok.single hx hxr .settled c hc
      rw [hr] at this
      cases this

/-- As long as a claim that was there is unreleased the job was not
settled in between. -/
def Unsettled (_ : Op) (a b : World) : Prop :=
  ∀ fence, Since (fun state => state.settled = false) fence a b

theorem loadSettlement_none (hinv : SettleInv t)
    (h : loadSettlement t = .ok none) : t.settlement = none := by
  unfold loadSettlement at h
  split at h
  next hn => exact hn
  next st hst =>
    obtain ⟨c, hc, hf, -⟩ := (hinv.settlement st hst).claim
    split at h
    next hnone =>
      have := List.find?_eq_none.1 hnone c hc
      exact absurd hf (by simpa only [beq_iff_eq] using this)
    next =>
      split at h
      next => cases h
      next => cases h

/-- Every commit keeps the invariant. -/
theorem SettleInv.commit (hok : ClaimsOk w.tables)
    (hinv : SettleInv w.tables) (hseen : Unsettled call.op call.seen w)
    (h : Commits cfg w now call choice a w') : SettleInv w'.tables := by
  have hmove := (h.moves hok).1
  have persists : ∀ {st : Settlement},
      (∃ c ∈ w.tables.claims, c.fence = st.fence
        ∧ c.released = some .settled) →
      ∃ c ∈ w'.tables.claims, c.fence = st.fence
        ∧ c.released = some .settled := by
    rintro st ⟨c, hc, hf, hr⟩
    obtain ⟨c', hc', he⟩ := hmove.fences hc
    exact ⟨c', hc', he.fence.trans hf,
      (he.released (by rw [hr]; rfl)).trans hr⟩
  have hout := h.outboxMove hok
  -- no settlement before and the job not settled after
  have opens : w'.tables.settlement = w.tables.settlement →
      w.tables.settlement = none → w'.tables.job.state.settled = false →
      SettleInv w'.tables := by
    intro hsame hnone hafter
    refine ⟨h.fences hok hinv.fences, hout.command hinv.command,
      fun _ _ => hafter, fun st hst => ?_⟩
    rw [hsame, hnone] at hst
    cases hst
  cases h.stateMove hok with
  | kept hsame hstate =>
      refine ⟨h.fences hok hinv.fences, hout.command hinv.command,
        fun hr hnone => ?_, fun st hst => ?_⟩
      · rw [hstate]
        exact hinv.unsettled (hout.unretired hr) (hsame ▸ hnone)
      · rw [hsame] at hst
        have := hinv.settlement st hst
        exact ⟨hstate.trans this.state, persists this.claim, this.fence,
          this.wire⟩
  | opened hsame hbefore hafter =>
      exact opens hsame (hinv.noSettlement hbefore) hafter
  | retired hsame hempty hempty' hretired =>
      refine ⟨h.fences hok hinv.fences, fun hne => absurd hempty' hne,
        fun hr => absurd hr hretired, fun st hst => ?_⟩
      rw [hsame] at hst
      obtain ⟨c, hc, -⟩ := (hinv.settlement st hst).claim
      rw [hempty] at hc
      exact absurd hc List.not_mem_nil
  | aborted hsame c hc hr hold hclaimed hafter =>
      have hbefore := (hseen c.fence).kept hold (by rw [hclaimed]; rfl)
        ⟨c, hc, rfl, hr⟩
      exact opens hsame (hinv.noSettlement hbefore) hafter
  | settled p receiptId c row _ _ hsettle =>
      refine ⟨h.fences hok hinv.fences, hout.command hinv.command,
        fun _ hnone => ?_, fun st hst => ?_⟩
      · rw [hsettle.tables] at hnone
        cases hnone
      · obtain ⟨hc, hf, hr⟩ := hsettle.claim
        rw [hsettle.tables] at hst ⊢
        obtain rfl := Option.some.inj hst
        refine ⟨rfl, ⟨c.release .settled, ?_, hf, rfl⟩, hsettle.valid.1,
          hsettle.valid.2⟩
        exact List.mem_map.2 ⟨c, hc, if_pos rfl⟩

end Moves

-- ====================================================================== runs

/-- What holds in every state of every run. -/
structure Settling (cfg : Config) (s : State) : Prop where
  throughout : Sessions.Throughout
    (fun w => Sound cfg w ∧ SettleInv w.tables) s
  since : Sessions.Follows Unsettled s

section Runs

variable {cfg : Config} {s s' : State} {l : Label}

theorem settling_step (hs : Settling cfg s) (h : step cfg s l = some s') :
    Settling cfg s' := by
  obtain ⟨hsound, hinv⟩ := hs.throughout.now
  refine ⟨hs.throughout.step h fun i choice call a w' _ hc he => ?_,
    hs.since.step (fun _ fence => Since.refl _ fence _) h
      fun i choice call a w' _ hc he other _ hrel fence =>
        have hcom := (exec_commits he).2.2
        (hrel fence).commit hsound.claims hcom
          fun hbefore => hcom.unsettled hsound.claims hbefore⟩
  have hcom := (exec_commits he).2.2
  exact ⟨hsound.commit hcom, hinv.commit hsound.claims
    (hs.since call (List.mem_of_getElem? hc)) hcom⟩

theorem settling_run {scope : Scope} {capability : Capability}
    {prepared : Option Digest} {deadline clock : Nat} {labels : List Label}
    (hrun : run (step cfg) (start scope capability prepared deadline clock)
      labels = some s) : Settling cfg s := by
  refine run_inv' (fun _ _ _ hu h => settling_step hu h) labels _ s ?_ hrun
  refine ⟨Sessions.Throughout.begin clock ⟨?_, ?_⟩,
    Sessions.Follows.begin _ clock⟩
  · exact (@sound_run cfg _ scope capability prepared deadline clock []
      rfl).now
  · exact settleInv_admitted scope capability prepared deadline

/-- A settlement and the job state it left stay. -/
theorem settlement_stays (hs : Settling cfg s)
    (h : step cfg s l = some s') {st : Settlement}
    (hst : s.world.tables.settlement = some st) :
    s'.world.tables.settlement = some st
      ∧ s'.world.tables.job.state = s.world.tables.job.state := by
  obtain ⟨hsound, hinv⟩ := hs.throughout.now
  have settled : s.world.tables.job.state.settled = true := by
    rw [(hinv.settlement st hst).state]
    exact SettlementOutcome.jobState_settled _
  rcases quiet_or_finish h with
    ⟨-, hw, -⟩ | ⟨i, choice, call, a, w', rfl, hc, -, -, hcom, hw, -⟩
  · rw [hw]
    exact ⟨hst, rfl⟩
  · rw [hw]
    cases hcom.stateMove hsound.claims with
    | kept hsame hstate => exact ⟨hsame.trans hst, hstate⟩
    | opened _ hbefore _ =>
        rw [settled] at hbefore
        cases hbefore
    | retired _ hempty _ _ =>
        obtain ⟨c, hm, -⟩ := (hinv.settlement st hst).claim
        rw [hempty] at hm
        exact absurd hm List.not_mem_nil
    | aborted _ c hm hr hold hclaimed _ =>
        have := (hs.since call (List.mem_of_getElem? hc) c.fence).kept hold
          (by rw [hclaimed]; rfl) ⟨c, hm, rfl, hr⟩
        rw [settled] at this
        cases this
    | settled _ _ _ _ _ hload _ =>
        rw [loadSettlement_none hinv hload] at hst
        cases hst

/-- A claim is found by its fence. -/
theorem ClaimsOk.claim_eq (hok : ClaimsOk t) {c : Claim} (hc : c ∈ t.claims)
    {fence : Fence} (hf : c.fence = fence) : t.claim fence = some c := by
  cases hx : t.claim fence with
  | none =>
      have := List.find?_eq_none.1 hx c hc
      exact absurd (beq_iff_eq.2 hf) this
  | some x =>
      obtain ⟨hxm, hxf⟩ := claim_eq_some hx
      rw [eq_of_attempt_eq hok.attempts hxm hc (by rw [hxf, hf])]

/-- The receipt a proposal gets once there is a settlement. -/
theorem prepareSettlement_again (hok : ClaimsOk t) (hinv : SettleInv t)
    {st : Settlement} (hst : t.settlement = some st) (observedAt : Nat)
    (p : SettlementProposal) (receiptId : String) :
    (p = ⟨st.fence, st.wire⟩ →
        prepareSettlement t observedAt p receiptId
          = .ok (⟨st.receiptId, st.wire.outcome⟩, t))
      ∧ (p ≠ ⟨st.fence, st.wire⟩ →
        ∃ e, prepareSettlement t observedAt p receiptId = .error e) := by
  obtain ⟨-, ⟨c, hc, hf, hr⟩, hfence, hwire⟩ := hinv.settlement st hst
  have hfind := hok.claim_eq hc hf
  have hload : loadSettlement t = .ok (some st) := by
    unfold loadSettlement
    rw [hst]
    dsimp only
    rw [hfind]
    dsimp only
    rw [hr]
    rfl
  constructor
  · rintro rfl
    unfold prepareSettlement
    dsimp only
    rw [hfence, hwire, if_neg (by decide), hload]
    dsimp only
    rw [if_neg (fun hne => hne rfl), if_neg (fun hne => hne rfl)]
  · intro hne
    unfold prepareSettlement
    split
    next => exact ⟨_, rfl⟩
    next =>
      rw [hload]
      dsimp only
      split
      next => exact ⟨_, rfl⟩
      next hsame =>
        rw [ne_eq, Decidable.not_not] at hsame
        split
        next => exact ⟨_, rfl⟩
        next hsame' =>
          rw [ne_eq, Decidable.not_not] at hsame'
          refine absurd ?_ hne
          cases p
          cases hsame
          cases hsame'
          rfl

/-- The output that a settlement settles, and by which claim. -/
structure Faithful (t : Tables) (p : SettlementProposal)
    (row : OutputRow) : Prop where
  stored : row ∈ t.inbox ∧ row.projected = true
  proposal : row.record.settlementProposalId = p.wire.proposalId
  digest : row.record.settlementDigest = some p.wire
  outcome : row.record.settlementOutcome = p.wire.outcome
  producer : row.record.fence = p.fence
    ∨ ∃ c ∈ t.claims, c.fence = row.record.fence
        ∧ c.fence.claimAttempt < p.fence.claimAttempt
        ∧ c.released = some .leaseExpired

/-- The claim a row came under, found by its attempt. -/
theorem sourceClaim_eq (hok : ClaimsOk t) {row : OutputRow} {c : Claim}
    (hc : c ∈ t.claims) (hf : c.fence = row.record.fence) :
    t.sourceClaim row = some c := by
  unfold Tables.sourceClaim
  cases hx : t.claims.find? fun c =>
      c.fence.claimAttempt == row.record.fence.claimAttempt with
  | none =>
      have := List.find?_eq_none.1 hx c hc
      exact absurd (congrArg Fence.claimAttempt hf)
        (by simpa only [beq_iff_eq] using this)
  | some x =>
      have hxa := List.find?_some hx
      rw [beq_iff_eq, ← hf] at hxa
      rw [eq_of_attempt_eq hok.attempts (List.mem_of_find?_eq_some hx) hc hxa]

theorem settledRow_faithful {logical : String} (hok : ClaimsOk t)
    (hin : InboxOk logical t) {p : SettlementProposal} {row : OutputRow}
    (h : settledRow t p = some row) : Faithful t p row := by
  have hmem := List.mem_of_find?_eq_some h
  have hcond := List.find?_some h
  simp only [Bool.and_eq_true, beq_iff_eq] at hcond
  obtain ⟨⟨⟨⟨hwire, -⟩, hdigest⟩, hproj⟩, hhand⟩ := hcond
  obtain ⟨c, hc, hf⟩ := (hin.rows row hmem).source
  refine ⟨⟨hmem, hproj⟩, congrArg WireProposal.proposalId hwire, hdigest,
    congrArg WireProposal.outcome hwire, ?_⟩
  unfold Tables.handedTo Tables.sourceExpired at hhand
  rw [sourceClaim_eq hok hc hf] at hhand
  simp only [Bool.or_eq_true, Bool.and_eq_true, beq_iff_eq,
    decide_eq_true_eq] at hhand
  rcases hhand with ⟨-, he⟩ | ⟨hlt, hexp⟩
  · exact .inl he
  · exact .inr ⟨c, hc, hf, hf ▸ hlt, hexp⟩

/-- The step stores a settlement: of a faithful output, with the job state
of its outcome and the release of the settling claim. -/
def Stores (s s' : State) (l : Label) : Prop :=
  ∃ call ∈ Sessions.finishing s l, ∃ p receiptId row,
    call.op = .prepareSettlement p ∧ Faithful s.world.tables p row
      ∧ s'.world.tables.settlement = some ⟨p.fence, receiptId, p.wire⟩
      ∧ s'.world.tables.job.state = p.wire.outcome.jobState
      ∧ ∃ c ∈ s'.world.tables.claims, c.fence = p.fence
          ∧ c.released = some .settled

theorem stores_step (hs : Settling cfg s) (h : step cfg s l = some s')
    (hnone : s.world.tables.settlement = none) :
    s'.world.tables.settlement = none ∨ Stores s s' l := by
  obtain ⟨hsound, hinv⟩ := hs.throughout.now
  rcases quiet_or_finish h with
    ⟨-, hw, -⟩ | ⟨i, choice, call, a, w', rfl, hc, -, -, hcom, hw, -⟩
  · rw [hw]
    exact .inl hnone
  · rw [hw]
    cases hcom.stateMove hsound.claims with
    | kept hsame _ => exact .inl (hsame.trans hnone)
    | opened hsame _ _ => exact .inl (hsame.trans hnone)
    | retired hsame _ _ _ => exact .inl (hsame.trans hnone)
    | aborted hsame _ _ _ _ _ _ => exact .inl (hsame.trans hnone)
    | settled p receiptId c row op _ hsettle =>
        refine .inr ⟨call, hc, p, receiptId, row, op,
          settledRow_faithful hsound.claims hsound.inbox hsettle.row, ?_⟩
        obtain ⟨hm, hf, -⟩ := hsettle.claim
        rw [hw, hsettle.tables]
        exact ⟨rfl, rfl, c.release .settled,
          List.mem_map.2 ⟨c, hm, if_pos rfl⟩, hf, rfl⟩

/-- In every run: a step stores no settlement, or one that is faithful to
an accepted output, with its job state and its release. Once there is a
settlement it is the job's, and in every continuation of the run it and
the job state stay, the same proposal under the same fence gets the same
receipt and changes nothing, and every other proposal is refused. -/
theorem settled_once (scope : Scope) (capability : Capability)
    (prepared : Option Digest) (deadline clock : Nat)
    (labels : List Label)
    (hrun : run (step cfg) (start scope capability prepared deadline clock)
      labels = some s) :
    (s.world.tables.settlement = none → ∀ l s', step cfg s l = some s' →
        s'.world.tables.settlement = none ∨ Stores s s' l)
      ∧ ∀ st, s.world.tables.settlement = some st →
          SettledAs s.world.tables st
          ∧ ∀ more s', run (step cfg) s more = some s' →
              s'.world.tables.settlement = some st
              ∧ s'.world.tables.job.state = s.world.tables.job.state
              ∧ ∀ observedAt p receiptId,
                (p = ⟨st.fence, st.wire⟩ →
                  prepareSettlement s'.world.tables observedAt p receiptId
                    = .ok (⟨st.receiptId, st.wire.outcome⟩,
                        s'.world.tables))
                ∧ (p ≠ ⟨st.fence, st.wire⟩ → ∃ e,
                  prepareSettlement s'.world.tables observedAt p receiptId
                    = .error e) := by
  have hs := settling_run hrun
  refine ⟨fun hnone l s' h => stores_step hs h hnone, fun st hst =>
    ⟨hs.throughout.now.2.settlement st hst, fun more s' hmore => ?_⟩⟩
  have keeps : ∀ u l u', (Settling cfg u
        ∧ u.world.tables.settlement = some st
        ∧ u.world.tables.job.state = s.world.tables.job.state) →
      step cfg u l = some u' → Settling cfg u'
        ∧ u'.world.tables.settlement = some st
        ∧ u'.world.tables.job.state = s.world.tables.job.state := by
    intro u l u' hu h
    obtain ⟨hst', hstate⟩ := settlement_stays hu.1 h hu.2.1
    exact ⟨settling_step hu.1 h, hst', hstate.trans hu.2.2⟩
  obtain ⟨hs', hst', hstate⟩ := run_inv' keeps more s s' ⟨hs, hst, rfl⟩ hmore
  obtain ⟨hsound, hinv⟩ := hs'.throughout.now
  exact ⟨hst', hstate, fun observedAt p receiptId =>
    prepareSettlement_again hsound.claims hinv hst' observedAt p receiptId⟩

/-- The proposal of the sample failure of sequence one. -/
def sampleProposal : SettlementProposal :=
  ⟨sampleFence 1, (sampleFailure 1).wire⟩

/-- The sample worker fails at once and settles. -/
def sampleSettled : List Label :=
  sampleClaimed .agentApplication ++ sampleTerminal 1 0
    ++ alone (.prepareSettlement sampleProposal) [.job, .claim 1] 0

theorem settled_once_failure :
    ∃ s, run (step sampleConfig) (sampleStart .agentApplication)
        sampleSettled = some s
      ∧ s.world.tables.job.state = .failed
      ∧ ∃ st, s.world.tables.settlement = some st
        ∧ SettledAs s.world.tables st := by
  have evaluated : (run (step sampleConfig) (sampleStart .agentApplication)
      sampleSettled).map (fun s => (s.world.tables.job.state,
        s.world.tables.settlement.isSome)) = some (.failed, true) := by
    decide +kernel
  obtain ⟨s, hs, he⟩ := Option.map_eq_some_iff.1 evaluated
  obtain ⟨hstate, hsome⟩ := Prod.mk.inj he
  obtain ⟨st, hst⟩ := Option.isSome_iff_exists.1 hsome
  have h := settled_once sampleScope .agentApplication (some [1]) 1000000 0
    sampleSettled hs
  exact ⟨s, hs, hstate, st, hst, (h.2 st hst).1⟩

end Runs

end Elitea.Executions
