/-
What one commit does, whatever the call: the case list every invariant of
the running system goes through, and what each case says about the
authority of the execution.

`Commits` is `exec` as a case list. For the authority (the job, the
claims, the settlement) most cases say that nothing changed; `AuthorityMove`
puts the rest into the two vocabularies of `Proofs.Claims`, together with
the one fact that every call under a fence establishes: its claim was
unreleased at the commit and unexpired at a time the call looked
(`HeldAt`).
-/
import Elitea.Executions.Proofs.Claims
import Elitea.Executions.Proofs.Outputs

namespace Elitea.Executions

open Elitea.Lib

-- ============================================================= the case list

inductive Commits (cfg : Config) (w : World) (now : Nat) (call : Call)
    (choice : Choice) : Answer → World → Prop where
  | refused (e : Failure) : Commits cfg w now call choice (.failed e) w
  | claim {request d t'} (op : call.op = .claim request)
      (h : claimValidation w.tables now choice.observedAt choice.gap
        request choice.env = .ok (d, t')) :
      Commits cfg w now call choice (.claimed d) (w.commit t')
  | begun {fence d t'} (op : call.op = .beginExecution fence)
      (h : beginExecution w.tables call.since fence = .ok (d, t')) :
      Commits cfg w now call choice (.begun d) (w.commit t')
  | authorized {fence d t'} (op : call.op = .authorizeInvocation fence)
      (h : authorizeInvocation w.tables call.since fence = .ok (d, t')) :
      Commits cfg w now call choice (.authorized d) (w.commit t')
  | renewed {fence ttl t'} (op : call.op = .renewLease fence ttl)
      (h : renewLease call.seen.tables w.tables call.since fence ttl
        = .ok t') :
      Commits cfg w now call choice .done (w.commit t')
  | released {fence t'} (op : call.op = .releaseClaim fence)
      (h : releaseClaim call.seen.tables w.tables call.since
        choice.observedAt fence = .ok t') :
      Commits cfg w now call choice .done (w.commit t')
  | aborted {fence disposition t'} (op : call.op = .abortClaim fence disposition)
      (h : abortClaim call.seen.tables w.tables call.since
        choice.observedAt fence disposition = .ok t') :
      Commits cfg w now call choice .done (w.commit t')
  | settled {proposal receipt t'} (op : call.op = .prepareSettlement proposal)
      (h : prepareSettlement w.tables choice.observedAt proposal
        choice.receiptId = .ok (receipt, t')) :
      Commits cfg w now call choice (.settled receipt) (w.commit t')
  | desired {desired} (op : call.op = .changeDesired desired) :
      Commits cfg w now call choice .done
        (w.commit (changeDesired w.tables desired))
  | published {t'} (op : call.op = .publish)
      (h : publishCommand w.tables now = some t') :
      Commits cfg w now call choice .done (w.commit t')
  | nodeEvent {frame o t'} (op : call.op = .nodeEvent frame)
      (h : projectNodeEvent cfg.policy call.seen.tables w.tables
        choice.observedAt now choice.gap frame = .ok (o, t')) :
      Commits cfg w now call choice (.nodeEvent o) (w.commit t')
  | terminal {record data o t'} (op : call.op = .terminal record data)
      (h : projectTerminal call.seen.tables w.tables choice.observedAt now
        choice.gap cfg.logicalOutputId record data = .ok (o, t')) :
      Commits cfg w now call choice (.terminal o) (w.commit t')
  | pruned {n t'} (op : call.op = .prune)
      (h : pruneExpiredReplayProgress cfg.policy w.tables now
        = .ok (n, t')) :
      Commits cfg w now call choice .done (w.commit t')
  | replayed {after limit events} (op : call.op = .replay after limit)
      (hasked : call.seen.client.cursor = after)
      (hat : w.client.cursor = after)
      (h : replay call.seen.tables w.tables after limit = .ok events) :
      Commits cfg w now call choice (.delivered events)
        { w with given := w.given ++ events.map DurableEvent.cursor
                 client := w.client.receive events }
  | attached {cursor} (op : call.op = .attach cursor)
      (h : cursor = 0 ∨ cursor ∈ w.given) :
      Commits cfg w now call choice .done
        { w with client := ⟨cursor, cursor, []⟩ }

section Cases

variable {cfg : Config} {w w' : World} {now : Nat} {call : Call}
  {choice : Choice} {a : Answer}

theorem Commits.settle {α : Type} {f : α → Answer}
    {r : Except Failure (α × Tables)} (h : some (w.settle f r) = some (a, w'))
    (hr : ∀ x t', r = .ok (x, t') →
      Commits cfg w now call choice (f x) (w.commit t')) :
    Commits cfg w now call choice a w' := by
  unfold World.settle at h
  split at h <;> cases h
  next x t' => exact hr x t' rfl
  next e => exact .refused e

theorem Commits.settle' {r : Except Failure Tables}
    (h : some (w.settle' r) = some (a, w'))
    (hr : ∀ t', r = .ok t' →
      Commits cfg w now call choice .done (w.commit t')) :
    Commits cfg w now call choice a w' := by
  unfold World.settle' at h
  split at h <;> cases h
  next t' => exact hr t' rfl
  next e => exact .refused e

/-- Every commit is one of the list, and its look lies between its start
and its end. -/
theorem exec_commits (h : exec cfg w now call choice = some (a, w')) :
    call.since ≤ choice.observedAt ∧ choice.observedAt ≤ now
      ∧ Commits cfg w now call choice a w' := by
  obtain ⟨ht, h⟩ := Option.ite_none_left_eq_some.1 h
  rw [not_or, Nat.not_lt, Nat.not_lt] at ht
  refine ⟨ht.1, ht.2, ?_⟩
  split at h
  next op => exact .settle h fun _ _ => .claim op
  next op => exact .settle h fun _ _ => .begun op
  next op => exact .settle h fun _ _ => .authorized op
  next op => exact .settle' h fun _ => .renewed op
  next op => exact .settle' h fun _ => .released op
  next op => exact .settle' h fun _ => .aborted op
  next op => exact .settle h fun _ _ => .settled op
  next op =>
    cases h
    exact .desired op
  next op =>
    obtain ⟨t', ht', he⟩ := Option.map_eq_some_iff.1 h
    cases he
    exact .published op ht'
  next op => exact .settle h fun _ _ => .nodeEvent op
  next op => exact .settle h fun _ _ => .terminal op
  next op => exact .settle h fun _ _ => .pruned op
  next op =>
    obtain ⟨hat, h⟩ := Option.ite_none_left_eq_some.1 h
    simp only [not_or, ne_eq, Decidable.not_not] at hat
    split at h <;> cases h
    next e _ _ => exact .refused e
    next events he _ => exact .replayed op hat.1 hat.2 he
  next op =>
    obtain ⟨hc, h⟩ := Option.ite_none_right_eq_some.1 h
    cases h
    exact .attached op hc

end Cases

-- ====================================================== calls under a fence

variable {seen t t' : Tables} {fence : Fence} {again since : Nat} {c : Claim}
  {claims claims' : List Claim} {request : ClaimRequest} {env : ClaimEnv}

/-- The fence's claim is unreleased, and unexpired at `time`. -/
def HeldAt (t : Tables) (time : Nat) (fence : Fence) : Prop :=
  ∃ c ∈ t.claims, c.fence = fence ∧ c.released = none
    ∧ time < c.leaseExpiresAt

theorem startAuthority_ok (h : startAuthority t since fence = .ok ()) :
    HeldAt t since fence := by
  obtain ⟨-, h⟩ := ite_error_eq_ok.1 h
  split at h
  next => cases h
  next c hc =>
    obtain ⟨hrel, h⟩ := ite_error_eq_ok.1 h
    obtain ⟨hexp, -⟩ := ite_error_eq_ok.1 h
    simp only [Bool.or_eq_true, not_or, Bool.not_eq_true,
      Option.isSome_eq_false_iff, Option.isNone_iff_eq_none] at hrel
    obtain ⟨hmem, hfence⟩ := claim_eq_some hc
    exact ⟨c, hmem, hfence, hrel.1, Nat.lt_of_not_le hexp⟩

/-- `BeginExecution`, opened. -/
theorem beginExecution_ok {d : BeginDisposition}
    (h : beginExecution t since fence = .ok (d, t')) :
    HeldAt t since fence ∧ (t' = t
      ∨ (t.job.state = .claimed ∧ t.job.invocation = .notStarted
        ∧ t' = { t with job := { t.job with
            state := .running, invocation := .preparing } })) := by
  obtain ⟨⟨⟩, hauth, h₁⟩ := bind_eq_ok.1 h
  refine ⟨startAuthority_ok hauth, ?_⟩
  obtain ⟨-, h₁⟩ := ite_error_eq_ok.1 h₁
  split at h₁ <;> cases h₁
  next => exact .inl rfl
  next => exact .inl rfl
  next hstate hinv => exact .inr ⟨hstate, hinv, rfl⟩

/-- `AuthorizeInvocation`, opened. -/
theorem authorizeInvocation_ok {d : AuthorizeDisposition}
    (h : authorizeInvocation t since fence = .ok (d, t')) :
    HeldAt t since fence ∧ ((d = .alreadyAuthorized ∧ t' = t)
      ∨ (d = .authorizedNow ∧ t.job.state = .running
        ∧ t.job.invocation = .preparing
        ∧ t' = { t with job := { t.job with
            invocation := .mayHaveStarted } })) := by
  obtain ⟨⟨⟩, hauth, h₁⟩ := bind_eq_ok.1 h
  refine ⟨startAuthority_ok hauth, ?_⟩
  obtain ⟨hrun, h₁⟩ := ite_error_eq_ok.1 h₁
  simp only [Bool.or_eq_true, decide_eq_true_eq, not_or, ne_eq,
    Decidable.not_not] at hrun
  split at h₁ <;> cases h₁
  next => exact .inl ⟨rfl, rfl⟩
  next hinv => exact .inr ⟨rfl, hrun.1, hinv, rfl⟩

/-- The claim a single statement updates: the fence's, unreleased now as
when the statement began, and unexpired at one of its two looks. -/
theorem fencedClaim_ok (h : fencedClaim seen t since again fence = some c) :
    c ∈ t.claims ∧ c.fence = fence ∧ c.released = none
      ∧ (since < c.leaseExpiresAt ∨ again < c.leaseExpiresAt)
      ∧ ∃ c₀ ∈ seen.claims, c₀.fence = fence := by
  unfold fencedClaim at h
  split at h
  next => cases h
  next c₀ hc₀ =>
    obtain ⟨hlive, h⟩ := Option.ite_none_right_eq_some.1 h
    rw [Bool.and_eq_true, Option.isNone_iff_eq_none,
      decide_eq_true_eq] at hlive
    split at h
    next => cases h
    next c' hc' =>
      obtain ⟨hmatch, h⟩ := Option.ite_none_right_eq_some.1 h
      obtain rfl := Option.some.inj h
      obtain ⟨hmem, hfence⟩ := claim_eq_some hc'
      refine ⟨hmem, hfence, ?_, ?_, c₀, claim_eq_some hc₀⟩
      · rcases hmatch with rfl | ⟨hrel, -⟩
        · exact hlive.1
        · exact Option.isNone_iff_eq_none.1 hrel
      · rcases hmatch with rfl | ⟨-, hexp⟩
        · exact .inl hlive.2
        · exact .inr hexp

theorem renewLease_ok {ttl : Nat}
    (h : renewLease seen t since fence ttl = .ok t') :
    ∃ c, fencedClaim seen t since since fence = some c
      ∧ t' = t.updateClaim c.fence.claimAttempt
          fun c => { c with leaseExpiresAt := since + ttl } := by
  obtain ⟨-, h⟩ := ite_error_eq_ok.1 h
  split at h
  next => cases h
  next c hc => exact ⟨c, hc, (Except.ok.inj h).symm⟩

theorem releaseClaim_ok (h : releaseClaim seen t since again fence = .ok t') :
    ∃ c, fencedClaim seen t since again fence = some c
      ∧ t' = t.updateClaim c.fence.claimAttempt
          fun c => c.release .workerReleased := by
  obtain ⟨-, h⟩ := ite_error_eq_ok.1 h
  split at h
  next => cases h
  next c hc => exact ⟨c, hc, (Except.ok.inj h).symm⟩

/-- `AbortClaim`, opened: that the job is CLAIMED holds of what the
statement saw. -/
theorem abortClaim_ok {disposition : ClaimAbortDisposition}
    (h : abortClaim seen t since again fence disposition = .ok t') :
    seen.job.state = .claimed
      ∧ ∃ c, fencedClaim seen t since again fence = some c
        ∧ t' = { t.updateClaim c.fence.claimAttempt
            (fun c => c.release (.aborted disposition)) with
          job := { t.job with state := disposition.nextState } } := by
  obtain ⟨hseen, h⟩ := ite_error_eq_ok.1 (ite_error_eq_ok.1 h).2
  split at h
  next => cases h
  next c hc =>
    exact ⟨Decidable.not_not.1 hseen, c, hc, (Except.ok.inj h).symm⟩

/-- `PrepareSettlement`, opened: the receipt that exists, or a new
settlement of a terminal row by a claim it was handed to. -/
theorem prepareSettlement_ok {observedAt : Nat} {p : SettlementProposal}
    {receiptId : String} {receipt : SettlementReceipt}
    (h : prepareSettlement t observedAt p receiptId = .ok (receipt, t')) :
    t' = t ∨ ∃ c ∈ t.claims, ∃ row, loadSettlement t = .ok none
      ∧ c.fence = p.fence ∧ c.released = none
      ∧ observedAt < c.leaseExpiresAt ∧ settledRow t p = some row
      ∧ t' = { t.updateClaim c.fence.claimAttempt
          (fun c => c.release .settled) with
        settlement := some ⟨p.fence, receiptId, p.wire⟩
        job := { t.job with state := p.wire.outcome.jobState } } := by
  obtain ⟨-, h⟩ := ite_error_eq_ok.1 h
  split at h
  next => cases h
  next =>
    obtain ⟨-, h⟩ := ite_error_eq_ok.1 (ite_error_eq_ok.1 h).2
    exact .inl (Prod.mk.inj (Except.ok.inj h)).2.symm
  next hload =>
    split at h
    next => cases h
    next c hc =>
      obtain ⟨hlive, h⟩ := ite_error_eq_ok.1 h
      simp only [Bool.or_eq_true, not_or, Bool.not_eq_true,
        Option.isSome_eq_false_iff, Option.isNone_iff_eq_none,
        decide_eq_true_eq, Nat.not_le] at hlive
      split at h
      next => cases h
      next row hrow =>
        obtain ⟨-, h⟩ := ite_error_eq_ok.1 h
        obtain ⟨hmem, hfence⟩ := claim_eq_some hc
        exact .inr ⟨c, hmem, row, hload, hfence, hlive.1, hlive.2, hrow,
          (Prod.mk.inj (Except.ok.inj h)).2.symm⟩

/-- A retirement, opened: nobody ever had the command. -/
theorem retireLockedNoAuthorityValidation_ok {now gap : Nat}
    (h : retireLockedNoAuthorityValidation t now gap = some t') :
    t.claims = [] ∧ (t.job.state = .pending ∨ t.job.state = .dispatched)
      ∧ ∃ code job, (job.state = .cancelled ∨ job.state = .failed)
        ∧ job.invocation = t.job.invocation
        ∧ job.capability = t.job.capability
        ∧ t' = ({ t with
            outbox := { t.outbox with retired := some code }
            job }).appendEvent now gap .retirement
              (.terminal .runtimeFailure) (retirementData code) := by
  obtain ⟨hc, h⟩ := Option.ite_none_right_eq_some.1 h
  simp only [Bool.and_eq_true, Bool.or_eq_true, beq_iff_eq,
    List.isEmpty_iff] at hc
  refine ⟨hc.2, hc.1.1.2, ?_⟩
  obtain rfl := Option.some.inj h
  split
  next =>
    exact ⟨_, { t.job with state := .cancelled, terminalErrorCode := none },
      .inl rfl, rfl, rfl, rfl⟩
  next =>
    exact ⟨_, { t.job with
        state := .failed
        terminalErrorCode := some .deadlineExceeded },
      .inr rfl, rfl, rfl, rfl⟩

theorem publishCommand_ok {now : Nat} (h : publishCommand t now = some t') :
    t.job.state = .pending ∧ t.outbox.prepared.isSome = true
      ∧ t.outbox.authorityGranted = false
      ∧ t' = { t with
          outbox := { t.outbox with published := t.outbox.prepared }
          job := { t.job with state := .dispatched } } := by
  obtain ⟨hc, h⟩ := Option.ite_none_right_eq_some.1 h
  simp only [Bool.and_eq_true, beq_iff_eq, Bool.not_eq_true'] at hc
  exact ⟨hc.2, hc.1.1.1.1.1, hc.1.1.2, (Option.some.inj h).symm⟩

-- ========================================================= what moves when

/-- Evolution keeps every older claim released. -/
theorem AllEvolve.single (h : AllEvolve claims claims') (hs : Single claims) :
    Single claims' := by
  cases h with
  | nil => exact hs
  | cons _ hrest =>
      intro c' hc'
      obtain ⟨c, hc, he⟩ := forall₂_mem_right hrest hc'
      have hr := hs c hc
      rw [he.released hr]
      exact hr

/-- The two facts about the claims that no call breaks. -/
structure ClaimsOk (t : Tables) : Prop where
  attempts : Attempts t.claims
  single : Single t.claims

theorem ClaimsOk.move (h : ClaimsOk t) (hm : ClaimsMove t.claims t'.claims) :
    ClaimsOk t' := by
  obtain ⟨mid, hev, he | ⟨c, he, -, -, hmid⟩⟩ := hm
  · rw [← he] at hev
    exact ⟨hev.attempts h.attempts, hev.single h.single⟩
  · refine ⟨?_, ?_⟩
    · rw [he]
      exact List.pairwise_cons.2 ⟨fun d hd => (hmid d hd).2,
        hev.attempts h.attempts⟩
    · rw [he]
      exact fun d hd => (hmid d hd).1

/-- A new claim has a valid fence. -/
theorem newClaim_fence (t : Tables) (now : Nat)
    (hvalid : request.validate = true) (htoken : env.token ≠ 0) :
    (newClaim t now request env).fence.validate = true := by
  unfold ClaimRequest.validate at hvalid
  rw [Bool.and_eq_true, Bool.and_eq_true] at hvalid
  simp only [newClaim, Fence.validate, Bool.and_eq_true, bne_iff_ne]
  exact ⟨⟨⟨hvalid.2, Nat.succ_ne_zero _⟩, Nat.succ_ne_zero _⟩, htoken⟩

/-- The tables a claim that was answered left. -/
theorem Granted.moves {stale : Prop} {u : Tables} {now : Nat}
    {d : ClaimDecision} (h : Granted t now request env d u t') :
    ClaimsMove t.claims t'.claims ∧ JobMove stale t.job t'.job := by
  obtain ⟨mode, rfl⟩ := h.granted
  refine ⟨⟨u.claims, h.told.claims, .inr ⟨_, rfl, rfl,
    newClaim_fence u now h.command.valid h.token,
    fun c hc => ⟨h.free c hc, lt_nextAttempt hc⟩⟩⟩, ?_⟩
  have hjob : u.job.invocation = t.job.invocation :=
    congrArg Job.invocation h.told.job
  by_cases hw : u.job.state = .pending ∨ u.job.state = .dispatched
  · refine .claim (h.told.job ▸ hw) (if_pos ?_) hjob
    rwa [Bool.or_eq_true, beq_iff_eq, beq_iff_eq]
  · refine .same ((if_neg ?_).trans (congrArg Job.state h.told.job)) hjob
    rwa [Bool.or_eq_true, beq_iff_eq, beq_iff_eq]

theorem ClaimEffect.moves {stale : Prop} {now gap : Nat} {d : ClaimDecision}
    (h : ClaimEffect t now gap request env d t') :
    ClaimsMove t.claims t'.claims ∧ JobMove stale t.job t'.job := by
  cases h with
  | told h _ =>
      exact ⟨.evolve h.claims, h.job ▸ JobMove.refl _⟩
  | retired u hu h _ =>
      obtain ⟨-, hw, code, job, hstate, hinv, -, rfl⟩ :=
        retireLockedNoAuthorityValidation_ok h
      exact ⟨.evolve hu.claims, .retire (hu.job ▸ hw) hstate
        (hu.job ▸ hinv)⟩
  | granted u h => exact h.moves

/-- Updating the fence's claim evolves the claims. -/
theorem fencedClaim_evolve (ha : Attempts t.claims) {f : Claim → Claim}
    (h : fencedClaim seen t since again fence = some c)
    (hf : c.released = none → Evolves c (f c)) :
    ClaimsMove t.claims (t.updateClaim c.fence.claimAttempt f).claims := by
  obtain ⟨hmem, -, hrel, -⟩ := fencedClaim_ok h
  exact .evolve (updateClaim_evolve ha hmem (hf hrel))

theorem SameAuthority.moves {stale : Prop} (h : SameAuthority t t') :
    ClaimsMove t.claims t'.claims ∧ JobMove stale t.job t'.job :=
  ⟨h.claims ▸ ClaimsMove.refl _, h.job ▸ JobMove.refl _⟩

/-- The fence's claim is there. -/
def HasClaim (t : Tables) (fence : Fence) : Prop :=
  ∃ c ∈ t.claims, c.fence = fence

/-- The fence's claim is unreleased. -/
def Unreleased (t : Tables) (fence : Fence) : Prop :=
  ∃ c ∈ t.claims, c.fence = fence ∧ c.released = none

/-- The fence a call aborts. -/
def Op.aborting : Op → Option Fence
  | .abortClaim fence _ => some fence
  | _ => none

/-- An abort whose claim is there as it was, and which saw the job
CLAIMED, finds that the job has moved on. -/
def StaleAbort (w : World) (call : Call) : Prop :=
  ∃ fence, call.op.aborting = some fence
    ∧ HasClaim call.seen.tables fence ∧ Unreleased w.tables fence
    ∧ call.seen.tables.job.state = .claimed
    ∧ w.tables.job.state ≠ .claimed

section Moves

variable {cfg : Config} {w w' : World} {now : Nat} {call : Call}
  {choice : Choice} {a : Answer}

/-- Every commit changes the claims and the job in one of the listed
ways. -/
theorem Commits.moves (hok : ClaimsOk w.tables)
    (h : Commits cfg w now call choice a w') :
    ClaimsMove w.tables.claims w'.tables.claims
      ∧ JobMove (StaleAbort w call) w.tables.job w'.tables.job := by
  have still : ClaimsMove w.tables.claims w.tables.claims
      ∧ JobMove (StaleAbort w call) w.tables.job w.tables.job :=
    (SameAuthority.refl _).moves
  cases h with
  | refused e => exact still
  | claim _ h => exact (claimValidation_ok hok.attempts hok.single h).moves
  | begun _ h =>
      obtain ⟨-, rfl | ⟨hs, hi, rfl⟩⟩ := beginExecution_ok h
      · exact still
      · exact ⟨.refl _, .begin hs hi rfl rfl⟩
  | authorized _ h =>
      obtain ⟨-, ⟨-, rfl⟩ | ⟨-, hs, hi, rfl⟩⟩ := authorizeInvocation_ok h
      · exact still
      · exact ⟨.refl _, .authorize hs hi hs rfl⟩
  | renewed _ h =>
      obtain ⟨c, hc, rfl⟩ := renewLease_ok h
      exact ⟨fencedClaim_evolve hok.attempts hc
        fun _ => ⟨rfl, rfl, fun _ => rfl⟩, .refl _⟩
  | released _ h =>
      obtain ⟨c, hc, rfl⟩ := releaseClaim_ok h
      exact ⟨fencedClaim_evolve hok.attempts hc
        fun hr => evolves_release hr _, .refl _⟩
  | @aborted fence disposition _ op h =>
      obtain ⟨hseen, c, hc, rfl⟩ := abortClaim_ok h
      refine ⟨fencedClaim_evolve hok.attempts hc
        fun hr => evolves_release hr _, .abort ?_ ?_ rfl⟩
      · by_cases hnow : w.tables.job.state = .claimed
        · exact .inl hnow
        · obtain ⟨hmem, hf, hr, -, hknown⟩ := fencedClaim_ok hc
          exact .inr ⟨fence, by rw [op]; rfl, hknown, ⟨c, hmem, hf, hr⟩,
            hseen, hnow⟩
      · cases disposition
        · exact .inl rfl
        · exact .inr rfl
        · exact .inr rfl
  | @settled proposal _ _ _ h =>
      rcases prepareSettlement_ok h with
        rfl | ⟨c, hc, row, -, -, hr, -, -, rfl⟩
      · exact still
      · refine ⟨.evolve (updateClaim_evolve hok.attempts hc
          (evolves_release hr _)), .settle ?_ rfl⟩
        change proposal.wire.outcome.jobState.settled = true
        cases proposal.wire.outcome <;> rfl
  | desired _ => exact ⟨.refl _, .same rfl rfl⟩
  | published _ h =>
      obtain ⟨hs, -, -, rfl⟩ := publishCommand_ok h
      exact ⟨.refl _, .publish hs rfl rfl⟩
  | nodeEvent _ h => exact (projectNodeEvent_ok h).authority.1.moves
  | terminal _ h => exact (projectTerminal_ok h).2.2.authority.moves
  | pruned _ h => exact (pruneExpiredReplayProgress_authority h).1.moves
  | replayed _ _ _ _ => exact still
  | attached _ _ => exact still

theorem Commits.claimsOk (hok : ClaimsOk w.tables)
    (h : Commits cfg w now call choice a w') : ClaimsOk w'.tables :=
  hok.move (h.moves hok).1

-- ===================================================== what a call still sees

/-- A claim's fence stays with it. -/
theorem ClaimsMove.fences (h : ClaimsMove claims claims') (hc : c ∈ claims) :
    ∃ c' ∈ claims', Evolves c c' := by
  obtain ⟨mid, hev, rfl | ⟨new, rfl, -⟩⟩ := h
  · exact forall₂_mem_left hev hc
  · obtain ⟨c', hm, he⟩ := forall₂_mem_left hev hc
    exact ⟨c', List.mem_cons_of_mem _ hm, he⟩

/-- An unreleased claim that was there before was unreleased before. -/
theorem ClaimsMove.unreleased (hm : ClaimsMove claims claims')
    (hc : c ∈ claims') (hr : c.released = none)
    (hold : ∃ c₀ ∈ claims, c₀.fence = c.fence) :
    ∃ c₁ ∈ claims, c₁.fence = c.fence ∧ c₁.released = none := by
  have back : ∀ {c₁ : Claim}, Evolves c₁ c → c₁.released = none := by
    intro c₁ he
    cases h₁ : c₁.released with
    | none => rfl
    | some reason =>
        have := he.released (by rw [h₁]; rfl)
        rw [hr, h₁] at this
        cases this
  obtain ⟨mid, hev, rfl | ⟨new, rfl, -, -, hlt⟩⟩ := hm
  · obtain ⟨c₁, hc₁, he⟩ := forall₂_mem_right hev hc
    exact ⟨c₁, hc₁, he.fence.symm, back he⟩
  · rcases List.mem_cons.1 hc with rfl | hc
    · -- a new claim's attempt is new
      obtain ⟨c₀, hc₀, hf⟩ := hold
      obtain ⟨c₂, hc₂, he⟩ := forall₂_mem_left hev hc₀
      have := (hlt c₂ hc₂).2
      rw [he.fence, hf] at this
      exact absurd this (Nat.lt_irrefl _)
    · obtain ⟨c₁, hc₁, he⟩ := forall₂_mem_right hev hc
      exact ⟨c₁, hc₁, he.fence.symm, back he⟩

/-- What a state says about one it followed: the fence's claim is still
there, and while it is unreleased the job is as `P` says if it was. -/
structure Since (P : JobState → Prop) (fence : Fence) (a b : World) :
    Prop where
  known : HasClaim a.tables fence → HasClaim b.tables fence
  kept : HasClaim a.tables fence → P a.tables.job.state →
    Unreleased b.tables fence → P b.tables.job.state

theorem Since.refl (P : JobState → Prop) (fence : Fence) (w : World) :
    Since P fence w w :=
  ⟨id, fun _ h _ => h⟩

/-- A commit that keeps `P` of the job as long as the claim is unreleased
keeps it over the whole time. -/
theorem Since.commit {P : JobState → Prop} {seen : World}
    (hs : Since P fence seen w) (hok : ClaimsOk w.tables)
    (h : Commits cfg w now call choice a w')
    (hkeep : P w.tables.job.state → Unreleased w'.tables fence →
      P w'.tables.job.state) : Since P fence seen w' := by
  have hmove := (h.moves hok).1
  refine ⟨fun hknown => ?_, fun hknown hp hheld => hkeep ?_ hheld⟩
  · obtain ⟨c, hc, hf⟩ := hs.known hknown
    obtain ⟨c', hc', he⟩ := hmove.fences hc
    exact ⟨c', hc', he.fence.trans hf⟩
  · obtain ⟨c, hc, hf, hr⟩ := hheld
    obtain ⟨c', hc', hf', hr'⟩ := hmove.unreleased hc hr
      (hf ▸ hs.known hknown)
    exact hs.kept hknown hp ⟨c', hc', hf'.trans hf, hr'⟩

end Moves

theorem claimsOk_admitted (scope : Scope) (capability : Capability)
    (prepared : Option Digest) (deadline : Nat) :
    ClaimsOk (admitted scope capability prepared deadline) :=
  ⟨.nil, fun _ h => absurd h List.not_mem_nil⟩

-- ===================================================================== steps

/-- A step that finishes nothing leaves the tables alone. -/
theorem quiet_or_finish {cfg : Config} {s s' : State} {l : Label}
    (h : step cfg s l = some s') :
    (Sessions.finishing s l = none ∧ s'.world = s.world
        ∧ s'.answers = s.answers)
      ∨ ∃ i choice call a w', l = .finish i choice
          ∧ s.calls[i]? = some call
          ∧ call.since ≤ choice.observedAt
          ∧ choice.observedAt ≤ s.clock
          ∧ Commits cfg s.world s.clock call choice a w'
          ∧ s'.world = w' ∧ s'.answers = s.answers ++ [(call.op, a)] := by
  rcases Sessions.step_cases h with
    ⟨i, choice, call, a, w', rfl, hc, -, he, rfl⟩ | ⟨hl, hw, ha, -, -⟩
  · obtain ⟨h₁, h₂, h₃⟩ := exec_commits he
    exact .inr ⟨i, choice, call, a, w', rfl, hc, h₁, h₂, h₃, rfl, rfl⟩
  · exact .inl ⟨hl, hw, ha⟩

-- ======================================================= a sample execution

def sampleScope : Scope := ⟨"tenant", 1, 1⟩

def sampleWorker : Worker := ⟨"worker", "session", "producer"⟩

/-- The fence of the sample worker's n-th claim. -/
def sampleFence (n : Nat) : Fence := ⟨sampleWorker, n, n, 7⟩

def sampleRequest (capability : Capability) : ClaimRequest :=
  ⟨false, false, true, true, capability, [1], sampleWorker⟩

/-- Times in milliseconds, a lease of ten minutes. -/
def sampleChoice (observedAt : Nat) : Choice :=
  ⟨observedAt, 0, ⟨false, false, none, true, 7, 600000⟩, "receipt"⟩

def sampleConfig : Config := ⟨defaultReplayRetentionPolicy, "output"⟩

def sampleStart (capability : Capability) : State :=
  start sampleScope capability (some [1]) 1000000 0

/-- A call that runs alone. -/
def alone (op : Op) (rows : List Row) (observedAt : Nat) : List Label :=
  .start op :: rows.map (.acquire 0)
    ++ [.finish 0 (sampleChoice observedAt)]

/-- The command is published and claimed. -/
def sampleClaimed (capability : Capability) : List Label :=
  alone .publish [.job] 0
    ++ alone (.claim (sampleRequest capability)) [.job] 0

end Elitea.Executions
