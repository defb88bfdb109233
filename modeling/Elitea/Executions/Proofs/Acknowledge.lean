/-
Whether a finished run can be settled and acknowledged: what
`ClaimValidation` answers to a redelivered command once a terminal output
is durable.

The answer depends on four things that change independently after the
output was accepted: the desired state, the job state, how the producing
claim ended and whether the settlement exists. `Recoverable` lists the
combinations in which the answer lets the worker settle or acknowledge,
and `acknowledges_iff` says that these are all. The rest is answered
RETRY_LATER_NOACK or ACTIVE_LEASE_NOACK on every redelivery, among it a
producing claim that gave its lease back (`released_producer`).
-/
import Elitea.Executions.Proofs.Settlement

namespace Elitea.Executions

open Elitea.Lib

variable {c : Claim} {d : ClaimDecision} {only : RecoveryOnly}

-- ============================================================ the statement

/-- A redelivery of the published command, by a worker that takes fan-out
decisions and delegated credentials, while no other worker holds an
unexpired claim. -/
structure Redelivered (t : Tables) (observedAt : Nat)
    (request : ClaimRequest) (env : ClaimEnv) : Prop where
  valid : request.validate = true
  capability : request.capability = t.job.capability
  digest : t.outbox.prepared = some request.signedEnvelopeDigest
  interrupts : request.fanoutInterruptDecisions = true
  credentials : request.fanoutDelegatedCredentials = true
  token : env.token ≠ 0
  unheld : ∀ c ∈ t.claims, c.released = none →
    observedAt < c.leaseExpiresAt → c.fence.worker = request.worker

/-- RECOVER_TERMINAL_ACK with a proposal that can be settled under the
returned fence for as long as its lease lasts. -/
structure HandsProposal (d : ClaimDecision) (t' : Tables) : Prop where
  disposition : d.disposition = .recoverTerminalAck
  settles : ∃ p lease, d.recovery = some (.proposal p)
    ∧ d.lease = some lease ∧ p.fence = lease.fence
    ∧ ∀ time receiptId, time < lease.expiresAt →
        receiptId.isEmpty = false →
        ∃ r, prepareSettlement t' time p receiptId = .ok r

/-- The worker can settle or acknowledge. -/
def ClaimDecision.final (d : ClaimDecision) (t' : Tables) : Prop :=
  d.disposition = .recoverSettlement ∨ d.disposition = .obsoleteAck
    ∨ d.disposition = .retiredAck ∨ HandsProposal d t'

def Acknowledges (t : Tables) (now observedAt gap : Nat)
    (request : ClaimRequest) (env : ClaimEnv) : Prop :=
  ∃ d t', claimValidation t now observedAt gap request env = .ok (d, t')
    ∧ d.final t'

/-- The claim that produced the output ended by expiry, or has expired. -/
def SourceEnded (t : Tables) (observedAt : Nat) (row : OutputRow) : Prop :=
  ∃ c ∈ t.claims, c.fence = row.record.fence
    ∧ (c.released = some .leaseExpired
      ∨ (c.released = none ∧ c.leaseExpiresAt ≤ observedAt))

/-- A claim nobody holds may be granted to settle. -/
def FreeToSettle (t : Tables) (request : ClaimRequest) (env : ClaimEnv)
    (ended : Prop) : Prop :=
  (t.job.desired = .running ∧ (t.job.state.settled = true ∨ ended))
    ∨ (t.job.desired = .cancelled ∧ ended ∧ t.job.state ≠ .pending
        ∧ t.job.state ≠ .dispatched)
    ∨ (t.job.desired = .suspended ∧ ended ∧ request.nodeRecovery = true
        ∧ t.job.state = .running ∧ t.job.capability.agent = true
        ∧ ∃ visit, env.visit = some visit
            ∧ visit.matches .suspended = true)

/-- The combinations in which a redelivery ends. -/
def Recoverable (t : Tables) (observedAt : Nat) (request : ClaimRequest)
    (env : ClaimEnv) (row : OutputRow) : Prop :=
  t.job.state ≠ .quarantined
    ∧ ((t.job.desired = .cancelled ∧ t.job.state = .cancelled)
      ∨ (∃ c ∈ t.claims, c.released = none
          ∧ observedAt < c.leaseExpiresAt ∧ t.settlement = none
          ∧ (row.record.fence = c.fence
            ∨ SourceEnded t observedAt row))
      ∨ ((∀ c ∈ t.claims, c.released = none →
            c.leaseExpiresAt ≤ observedAt)
          ∧ FreeToSettle t request env (SourceEnded t observedAt row)))

-- ============================================================ loading the row

section Load

variable {logical : String} {t : Tables} {row : OutputRow}

theorem FinalRow.wire (h : FinalRow logical t row) :
    row.record.sequence ≠ 0 ∧ row.record.wire.validate = true
      ∧ row.record.settlementBytes = row.record.wire
      ∧ row.record.settlementDigest = some row.record.wire := by
  have hv := h.valid
  have hbytes := (canonicalTerminal_iff.1 h.canonical).2.2
  simp only [OutputRecord.validate, Bool.and_eq_true, bne_iff_ne,
    beq_iff_eq] at hv
  refine ⟨hv.1.1.1.1.1.1.1.1.1.2, ?_, hbytes, hbytes ▸ hv.2⟩
  simp only [WireProposal.validate, OutputRecord.wire, Bool.and_eq_true,
    bne_iff_ne]
  exact ⟨⟨⟨⟨hv.1.1.1.1.1.1.2, hv.1.1.1.1.1.1.1.1.1.1.1.1.1.1.1⟩,
    hv.1.1.1.1.1.1.1.1.1.2⟩, hv.1.1.1.1.1.1.1.1.2⟩, hv.1.1.1.1.2⟩

/-- The one row is loaded by exactly those it was handed to. -/
theorem loadTerminalSettlementRecovery_eq (hrow : t.inbox = [row])
    (h : FinalRow logical t row) {fence : Fence}
    (hf : fence.validate = true) :
    loadTerminalSettlementRecovery t fence
      = .ok (if t.handedTo fence row = true then
          some (⟨fence, row.record.wire⟩,
            row.record.claimHandoffWatermark)
        else none) := by
  obtain ⟨hseq, hwire, hbytes, hdigest⟩ := h.wire
  unfold loadTerminalSettlementRecovery
  rw [hrow]
  by_cases hh : t.handedTo fence row = true
  · have hfilter : [row].filter (fun row =>
        row.projected && t.handedTo fence row) = [row] :=
      List.filter_eq_self.2 fun x hx => by
        rw [List.mem_singleton.1 hx, h.projected, hh]
        rfl
    rw [hfilter, List.argmax_singleton, if_pos hh]
    dsimp only
    refine if_pos ?_
    simp only [Bool.and_eq_true, decide_eq_true_eq, beq_iff_eq]
    exact ⟨⟨⟨⟨hseq, hf⟩, hwire⟩, hbytes⟩, hdigest⟩
  · have hfilter : [row].filter (fun row =>
        row.projected && t.handedTo fence row) = [] :=
      List.filter_eq_nil_iff.2 fun x hx => by
        rw [List.mem_singleton.1 hx, h.projected, Bool.true_and]
        exact hh
    rw [hfilter, if_neg hh]
    rfl

theorem handedTo_iff (hok : ClaimsOk t) {src : Claim}
    (hsrc : src ∈ t.claims) (hf : src.fence = row.record.fence)
    {fence : Fence} :
    t.handedTo fence row = true ↔ row.record.fence = fence
      ∨ (src.fence.claimAttempt < fence.claimAttempt
        ∧ src.released = some .leaseExpired) := by
  unfold Tables.handedTo Tables.sourceExpired
  rw [sourceClaim_eq hok hsrc hf]
  simp only [Bool.or_eq_true, Bool.and_eq_true, beq_iff_eq,
    decide_eq_true_eq, Option.isSome_some, true_and, ← hf]

/-- The proposal of a row can be settled by an unreleased claim it was
handed to, while there is no settlement. -/
theorem handed_final (hok : ClaimsOk t) (hrow : t.inbox = [row])
    (h : FinalRow logical t row) (hnone : t.settlement = none)
    (hc : c ∈ t.claims) (hr : c.released = none) (hf : c.fence.validate = true)
    (hh : t.handedTo c.fence row = true) {desired : DesiredState}
    {watermark : Nat} :
    ClaimDecision.final ⟨.recoverTerminalAck, desired,
      some ⟨c.fence, c.leaseExpiresAt⟩, watermark,
      some (.proposal ⟨c.fence, row.record.wire⟩)⟩ t := by
  refine .inr (.inr (.inr ⟨rfl, _, _, rfl, rfl, rfl, ?_⟩))
  intro time receiptId htime hid
  obtain ⟨-, hwire, hbytes, hdigest⟩ := h.wire
  have hfind := hok.claim_eq hc rfl
  have hsettled : settledRow t ⟨c.fence, row.record.wire⟩ = some row := by
    unfold settledRow
    rw [hrow]
    refine List.find?_cons_of_pos ?_
    simp only [Bool.and_eq_true, beq_iff_eq]
    exact ⟨⟨⟨⟨trivial, hbytes⟩, hdigest⟩, h.projected⟩, hh⟩
  unfold prepareSettlement
  dsimp only
  rw [hf, hwire, if_neg (by decide)]
  unfold loadSettlement
  rw [hnone]
  dsimp only
  rw [hfind]
  dsimp only
  rw [hr, if_neg (by simpa using htime), hsettled]
  dsimp only
  rw [hid, if_neg (by decide)]
  exact ⟨_, rfl⟩

end Load

-- ========================================================= the held claim

/-- What is known of the tables when a command is redelivered. -/
structure Known (logical : String) (t : Tables) (row : OutputRow)
    (src : Claim) : Prop where
  claims : ClaimsOk t
  settle : SettleInv t
  inbox : t.inbox = [row]
  final : FinalRow logical t row
  source : src ∈ t.claims ∧ src.fence = row.record.fence

section Answers

variable {logical : String} {t : Tables} {row : OutputRow} {src : Claim}
  {now gap observedAt : Nat} {request : ClaimRequest} {env : ClaimEnv}

theorem Known.command (h : Known logical t row src) : GrantedCommand t :=
  h.settle.command fun he => absurd h.source.1 (he ▸ List.not_mem_nil)

/-- The job is settled exactly if there is a settlement. -/
theorem Known.settled_iff (h : Known logical t row src) :
    t.job.state.settled = true ↔ ∃ st, t.settlement = some st := by
  constructor
  · intro hs
    cases hst : t.settlement with
    | none =>
        rw [h.settle.unsettled h.command.unretired hst] at hs
        cases hs
    | some st => exact ⟨st, rfl⟩
  · rintro ⟨st, hst⟩
    rw [(h.settle.settlement st hst).state]
    exact SettlementOutcome.jobState_settled _

/-- Node recovery finds the terminal output in its way. -/
theorem selectNodeRecoveryClaim_blocked (hin : t.inbox ≠ []) {lease : Lease}
    {d' : ClaimDecision} {t' : Tables}
    (h : selectNodeRecoveryClaim t now request env lease d = .ok (d', t')) :
    d' = d := by
  rcases selectNodeRecoveryClaim_ok h with
    ⟨rfl, -⟩ | ⟨c, mode, x, -, -, hempty, -⟩
  · rfl
  · exact absurd hempty hin

/-- The dispositions a redelivery may end with. -/
def finalDispositions : List ClaimDisposition :=
  [.recoverSettlement, .obsoleteAck, .retiredAck, .recoverTerminalAck]

theorem not_final {t' : Tables} {x : ClaimDisposition} (hd : d.disposition = x)
    (hx : x ∉ finalDispositions) : ¬ d.final t' := by
  subst hd
  rintro (h | h | h | h)
  · exact hx (by rw [h]; decide)
  · exact hx (by rw [h]; decide)
  · exact hx (by rw [h]; decide)
  · exact hx (by rw [h.disposition]; decide)

/-- The answer lets the worker settle or acknowledge. -/
def Ends (r : Except Failure (ClaimDecision × Tables)) : Prop :=
  ∃ d t', r = .ok (d, t') ∧ d.final t'

theorem ends_ok {u : Tables} : Ends (.ok (d, u)) ↔ d.final u := by
  refine ⟨?_, fun hf => ⟨d, u, rfl, hf⟩⟩
  rintro ⟨d', u', h, hf⟩
  cases h
  exact hf

/-- A claim that was told to come back. -/
theorem not_ends_retry {desired : DesiredState} {u : Tables} :
    ¬ Ends (.ok (.leaseless .retryLaterNoAck desired, u)) :=
  ends_ok.not.2 (not_final (x := .retryLaterNoAck) rfl (by decide))

/-- The holder of the live claim is handed the output if it is its own or
an expired predecessor's, and is otherwise told to go on. -/
theorem claimHeld_final (h : Known logical t row src) (hc : c ∈ t.claims)
    (hr : c.released = none) (hlive : observedAt < c.leaseExpiresAt) :
    Ends (claimHeld t now request env c)
      ↔ t.settlement = none ∧ t.handedTo c.fence row = true := by
  have hload := loadTerminalSettlementRecovery_eq h.inbox h.final
    (h.settle.fences c hc)
  by_cases hh : t.handedTo c.fence row = true
  · rw [if_pos hh] at hload
    have heq : claimHeld t now request env c
        = .ok (⟨.recoverTerminalAck, t.job.desired,
          some ⟨c.fence, c.leaseExpiresAt⟩,
          row.record.claimHandoffWatermark,
          some (.proposal ⟨c.fence, row.record.wire⟩)⟩, t) := by
      unfold claimHeld
      rw [hload]
      rfl
    rw [heq, ends_ok]
    constructor
    · intro hfin
      refine ⟨?_, hh⟩
      obtain hd | hd | hd | hp := hfin
      · cases hd
      · cases hd
      · cases hd
      · -- a settlement is another claim's, and refuses this one
        obtain ⟨p, lease, hp₁, hp₂, -, hset⟩ := hp.settles
        cases hst : t.settlement with
        | none => rfl
        | some st =>
            exfalso
            cases hp₁
            cases hp₂
            obtain ⟨x, hx, hxf, hxr⟩ := (h.settle.settlement st hst).claim
            obtain ⟨e, he'⟩ := (prepareSettlement_again h.claims h.settle hst
              observedAt ⟨c.fence, row.record.wire⟩ "receipt").2 fun heq => by
                have hcx : c = x := eq_of_attempt_eq h.claims.attempts hc hx
                  ((congrArg (fun p => p.fence.claimAttempt) heq).trans
                    (congrArg Fence.claimAttempt hxf).symm)
                rw [← hcx, hr] at hxr
                cases hxr
            obtain ⟨r, hr'⟩ := hset observedAt "receipt" hlive rfl
            rw [he'] at hr'
            cases hr'
    · rintro ⟨hnone, -⟩
      exact handed_final h.claims h.inbox h.final hnone hc hr
        (h.settle.fences c hc) hh
  · rw [if_neg hh] at hload
    constructor
    · rintro ⟨d, t', he, hfin⟩
      exfalso
      have goes : ∀ b : Bool, (if b = true then
          ClaimDisposition.recoverRunningNoAck else .activeLeaseNoAck)
            ∉ finalDispositions := by decide
      have hin : t.inbox ≠ [] := h.inbox ▸ List.cons_ne_nil _ _
      unfold claimHeld at he
      obtain ⟨found, hfound, he⟩ := bind_eq_ok.1 he
      obtain rfl := Except.ok.inj (hload.symm.trans hfound)
      dsimp only at he
      split at he
      next =>
        split at he
        next =>
          obtain rfl := selectNodeRecoveryClaim_blocked hin he
          exact not_final rfl (goes _) hfin
        next =>
          cases he
          exact not_final rfl (goes _) hfin
      next =>
        cases he
        exact not_final (x := .activeLeaseNoAck) rfl (by decide) hfin
    · rintro ⟨-, hh'⟩
      exact absurd hh' hh

-- ============================================================ a new claim

/-- The tables once a new claim is inserted still say the same about the
output, and the new claim follows the producing one. -/
theorem Known.insert (h : Known logical t row src) (now : Nat)
    (hvalid : request.validate = true) (htoken : env.token ≠ 0)
    (hfree : ∀ c ∈ t.claims, c.released.isSome = true) :
    let u := insertClaim
      { t with outbox := { t.outbox with authorityGranted := true } } now
      request env
    ClaimsOk u ∧ FinalRow logical u row ∧ src ∈ u.claims
      ∧ (newClaim t now request env).fence.validate = true
      ∧ src.fence.claimAttempt
        < (newClaim t now request env).fence.claimAttempt := by
  intro u
  refine ⟨⟨List.pairwise_cons.2 ⟨fun c hc => lt_nextAttempt hc,
    h.claims.attempts⟩, hfree⟩, ?_, List.mem_cons_of_mem _ h.source.1,
    newClaim_fence t now hvalid htoken, lt_nextAttempt h.source.1⟩
  obtain ⟨c, hc, hf⟩ := h.final.source
  exact ⟨h.final.projected, h.final.valid, h.final.canonical, c,
    List.mem_cons_of_mem _ hc, hf⟩

/-- A new claim is handed the settlement or the output of an expired
predecessor, and is otherwise told to come back. -/
theorem grantClaim_final (h : Known logical t row src)
    (hvalid : request.validate = true) (htoken : env.token ≠ 0)
    (hfree : ∀ c ∈ t.claims, c.released.isSome = true) :
    Ends (grantClaim t now gap request env only)
      ↔ t.job.state.settled = true
        ∨ src.released = some .leaseExpired := by
  obtain ⟨hok, hfinal, hsrc, hfence, hlt⟩ := h.insert now hvalid htoken
    hfree
  generalize hu : insertClaim
    { t with outbox := { t.outbox with authorityGranted := true } } now
    request env = u at hok hfinal hsrc
  have hgrant : grantClaim t now gap request env only
      = (grantDisposition u request t.job.state t.job.invocation only
          (newClaim t now request env) >>= selectAfterGrant now request env
            t.job.state (newClaim t now request env)) := by
    unfold grantClaim
    rw [h.command.authority, if_neg (by simp), if_neg htoken]
    dsimp only
    rw [hu]
  have hinbox : u.inbox = [row] := by rw [← hu]; exact h.inbox
  have hsettlement : u.settlement = t.settlement := by rw [← hu]; rfl
  have hload := loadTerminalSettlementRecovery_eq hinbox hfinal hfence
  have hhand : u.handedTo (newClaim t now request env).fence row = true
      ↔ src.released = some .leaseExpired := by
    rw [handedTo_iff hok hsrc h.source.2]
    refine ⟨fun hh => ?_, fun he => .inr ⟨hlt, he⟩⟩
    rcases hh with hh | hh
    · rw [← h.source.2] at hh
      exact absurd hlt (hh ▸ Nat.lt_irrefl _)
    · exact hh.2
  -- nothing but ACCEPTED and an ambiguous invocation are looked at again
  have stays : ∀ {d : ClaimDecision} {v : Tables},
      d.disposition ≠ .accepted →
      d.disposition ≠ .recoverAmbiguousInvocationNoAck →
      selectAfterGrant now request env t.job.state
        (newClaim t now request env) (d, v) = .ok (d, v) := by
    intro d v h₁ h₂
    unfold selectAfterGrant
    dsimp only
    refine if_neg ?_
    simp only [Bool.and_eq_true, Bool.or_eq_true, beq_iff_eq, not_and,
      not_or]
    exact fun _ => ⟨h₁, h₂⟩
  rw [hgrant]
  by_cases hset : t.job.state.settled = true
  · refine ⟨fun _ => .inl hset, fun _ => ?_⟩
    obtain ⟨st, hst⟩ := h.settled_iff.1 hset
    have heq : grantDisposition u request t.job.state t.job.invocation only
        (newClaim t now request env)
        = .ok (⟨.recoverSettlement, u.job.desired,
            some ⟨(newClaim t now request env).fence,
              (newClaim t now request env).leaseExpiresAt⟩,
            (newClaim t now request env).initialOutputWatermark,
            some (.receipt ⟨st.receiptId, st.wire.outcome⟩)⟩, u) := by
      unfold grantDisposition
      rw [if_pos hset, hsettlement, hst]
      rfl
    rw [heq]
    exact ⟨_, _, stays nofun nofun, .inl rfl⟩
  · have hnone : t.settlement = none := by
      cases hst : t.settlement with
      | none => rfl
      | some st => exact absurd (h.settled_iff.2 ⟨st, hst⟩) hset
    by_cases hexp : src.released = some .leaseExpired
    · refine ⟨fun _ => .inr hexp, fun _ => ?_⟩
      rw [if_pos (hhand.2 hexp)] at hload
      have heq : grantDisposition u request t.job.state t.job.invocation
          only (newClaim t now request env)
          = .ok (⟨.recoverTerminalAck, u.job.desired,
              some ⟨(newClaim t now request env).fence,
                (newClaim t now request env).leaseExpiresAt⟩,
              row.record.claimHandoffWatermark,
              some (.proposal ⟨(newClaim t now request env).fence,
                row.record.wire⟩)⟩, u) := by
        unfold grantDisposition
        rw [if_neg hset, hload]
        rfl
      rw [heq]
      refine ⟨_, _, stays nofun nofun, handed_final hok hinbox hfinal
        (hsettlement.trans hnone) ?_ rfl hfence (hhand.2 hexp)⟩
      rw [← hu]
      exact List.mem_cons_self
    · refine ⟨?_, fun hor => (hor.elim hset hexp).elim⟩
      rintro ⟨d, t', he, hfin⟩
      exfalso
      rw [if_neg fun hh => hexp (hhand.1 hh)] at hload
      have hdur : hasDurableTerminalOutput u = true := by
        unfold hasDurableTerminalOutput
        rw [hinbox, List.any_cons, hfinal.projected]
        rfl
      obtain ⟨⟨d₁, t₁⟩, hd₁, he⟩ := bind_eq_ok.1 he
      have waits : d₁.disposition = .recoverRunningNoAck
          ∨ d₁.disposition = .retryLaterNoAck := by
        unfold grantDisposition at hd₁
        rw [if_neg hset, hload, ok_bind] at hd₁
        obtain ⟨-, hd₁⟩ := ite_error_eq_ok.1 hd₁
        rw [if_pos hdur] at hd₁
        split at hd₁ <;> cases hd₁
        · exact .inl rfl
        · exact .inr rfl
      rcases waits with hx | hx
      all_goals
        rw [stays (by rw [hx]; nofun) (by rw [hx]; nofun)] at he
        cases he
        exact not_final hx (by decide) hfin

-- =========================================================== a free claim

theorem Known.expired (h : Known logical t row src) :
    hasExpiredPredecessorTerminalOutput t
      = decide (src.released = some .leaseExpired) := by
  unfold hasExpiredPredecessorTerminalOutput Tables.sourceExpired
  rw [h.inbox, List.any_cons, List.any_nil, Bool.or_false,
    h.final.projected, Bool.true_and,
    sourceClaim_eq h.claims h.source.1 h.source.2]
  exact Bool.eq_iff_iff.2 (by rw [beq_iff_eq, decide_eq_true_eq])

/-- Once the switches are known: a claim that may run, or that one of
them lets in, is granted. -/
theorem claimFree_eq (hinterrupts : request.fanoutInterruptDecisions = true)
    (hwait : ¬ (t.job.desired = .cancelled
      ∧ (t.job.state = .pending ∨ t.job.state = .dispatched)))
    (honly : recoveryOnly t request env = .ok only) :
    claimFree t now gap request env
      = if t.job.desired ≠ .running ∧ only.any = false then
          .ok (.leaseless .retryLaterNoAck t.job.desired, t)
        else grantClaim t now gap request env only := by
  unfold claimFree
  dsimp only
  rw [if_neg (by
    rw [Bool.and_eq_true, Bool.or_eq_true, beq_iff_eq, beq_iff_eq,
      beq_iff_eq]
    exact hwait), honly, ok_bind, hinterrupts]
  by_cases hc : t.job.desired ≠ .running ∧ only.any = false
  · rw [if_pos hc, if_pos]
    · rfl
    · rw [Bool.and_eq_true, bne_iff_ne, Bool.not_eq_true']
      exact hc
  · rw [if_neg hc, if_neg]
    · rw [if_neg (by simp)]
    · rw [Bool.and_eq_true, bne_iff_ne, Bool.not_eq_true']
      exact hc

/-- A free claim, decided: the switches say whether it is granted. -/
theorem claimFree_final_of_only (h : Known logical t row src)
    (hinterrupts : request.fanoutInterruptDecisions = true)
    (hvalid : request.validate = true) (htoken : env.token ≠ 0)
    (hfree : ∀ c ∈ t.claims, c.released.isSome = true)
    (hwait : ¬ (t.job.desired = .cancelled
      ∧ (t.job.state = .pending ∨ t.job.state = .dispatched)))
    (honly : recoveryOnly t request env = .ok only) :
    Ends (claimFree t now gap request env)
      ↔ (t.job.desired = .running ∨ only.any = true)
        ∧ (t.job.state.settled = true
          ∨ src.released = some .leaseExpired) := by
  rw [claimFree_eq hinterrupts hwait honly]
  by_cases hc : t.job.desired ≠ .running ∧ only.any = false
  · rw [if_pos hc]
    constructor
    · exact fun he => absurd he not_ends_retry
    · rintro ⟨hor, -⟩
      rw [hc.2] at hor
      exact absurd (hor.resolve_right (by decide)) hc.1
  · rw [if_neg hc, grantClaim_final h hvalid htoken hfree]
    rw [not_and_or, ne_eq, Decidable.not_not, Bool.not_eq_false] at hc
    exact ⟨fun hor => ⟨hc, hor⟩, fun hand => hand.2⟩

/-- No switch is on without a cancellation or a suspended visit. -/
theorem recoveryOnly_none (hcancel : t.job.desired ≠ .cancelled)
    (hno : ¬ (request.nodeRecovery = true ∧ t.job.desired = .suspended
      ∧ t.job.state = .running ∧ request.capability.agent = true
      ∧ ∃ visit, env.visit = some visit)) :
    recoveryOnly t request env = .ok ⟨false, false, false⟩ := by
  unfold recoveryOnly
  rw [beq_false_of_ne hcancel]
  dsimp only [Bool.false_and]
  split
  next hc =>
    simp only [Bool.and_eq_true, beq_iff_eq] at hc
    cases hv : env.visit with
    | none => rfl
    | some visit =>
        exact absurd ⟨hc.1.1.1, hc.1.1.2, hc.1.2, hc.2, visit, hv⟩ hno
  next => rfl

theorem claimFree_final (h : Known logical t row src)
    (hcap : request.capability = t.job.capability)
    (hinterrupts : request.fanoutInterruptDecisions = true)
    (hvalid : request.validate = true) (htoken : env.token ≠ 0)
    (hfree : ∀ c ∈ t.claims, c.released.isSome = true) :
    Ends (claimFree t now gap request env)
      ↔ FreeToSettle t request env (src.released = some .leaseExpired) := by
  have decided only := @claimFree_final_of_only only logical t row src now gap
    request env h hinterrupts hvalid htoken hfree
  unfold FreeToSettle
  cases hdes : t.job.desired with
  | running =>
      rw [decided _ (by rw [hdes]; nofun) (recoveryOnly_none
        (by rw [hdes]; nofun) (by rw [hdes]; nofun)), hdes]
      simp only [true_or, true_and, reduceCtorEq, false_and, or_false]
  | draining =>
      rw [decided _ (by rw [hdes]; nofun) (recoveryOnly_none
        (by rw [hdes]; nofun) (by rw [hdes]; nofun)), hdes]
      simp [RecoveryOnly.any]
  | cancelled =>
      by_cases hwait : t.job.state = .pending ∨ t.job.state = .dispatched
      · have heq : claimFree t now gap request env
            = .ok (.leaseless .retryLaterNoAck t.job.desired, t) := by
          unfold claimFree
          refine if_pos ?_
          rw [Bool.and_eq_true, Bool.or_eq_true, beq_iff_eq, beq_iff_eq,
            beq_iff_eq]
          exact ⟨hdes, hwait⟩
        rw [heq]
        refine ⟨fun he => absurd he not_ends_retry, ?_⟩
        rintro (⟨hd, -⟩ | ⟨-, -, h₁, h₂⟩ | ⟨hd, -⟩)
        · cases hd
        · exact (hwait.elim h₁ h₂).elim
        · cases hd
      · obtain ⟨only, honly, hany⟩ : ∃ only : RecoveryOnly,
            recoveryOnly t request env = .ok only
            ∧ (only.any = true ∧ (t.job.state.settled = true
                ∨ src.released = some .leaseExpired)
              ↔ src.released = some .leaseExpired) := by
          refine ⟨⟨decide (src.released = some .leaseExpired),
            !decide (src.released = some .leaseExpired)
              && request.capability.nodeEvent && t.job.state == .running
              && hasExpiredPredecessorClaim t, false⟩, ?_, ?_⟩
          · simp [recoveryOnly, hdes, h.expired]
          · by_cases hexp : src.released = some .leaseExpired
            · simp [RecoveryOnly.any, hexp]
            · cases hst : t.job.state <;>
                simp [RecoveryOnly.any, hexp, JobState.settled]
        rw [decided _ (fun hw => hwait hw.2) honly, hdes]
        simp only [reduceCtorEq, false_or, false_and, or_false, true_and]
        rw [hany]
        rw [not_or] at hwait
        exact ⟨fun he => ⟨he, hwait⟩, fun he => he.1⟩
  | suspended =>
      have notWaiting : ¬ (t.job.desired = .cancelled
          ∧ (t.job.state = .pending ∨ t.job.state = .dispatched)) := by
        rw [hdes]
        nofun
      by_cases hnode : request.nodeRecovery = true
          ∧ t.job.state = .running ∧ t.job.capability.agent = true
          ∧ ∃ visit, env.visit = some visit
      · obtain ⟨h₁, h₂, h₃, visit, hvisit⟩ := hnode
        by_cases hmatch : visit.matches .suspended = true
        · have honly : recoveryOnly t request env
              = .ok ⟨false, false, true⟩ := by
            simp [recoveryOnly, hdes, hvisit, h₁, h₂, hcap, h₃, hmatch]
          rw [decided _ notWaiting honly, hdes]
          simp [RecoveryOnly.any, h₁, h₂, h₃, hvisit, hmatch,
            JobState.settled]
        · have honly : recoveryOnly t request env
              = .error .invalidClaim := by
            simp [recoveryOnly, hdes, hvisit, h₁, h₂, hcap, h₃, hmatch]
          unfold claimFree
          rw [hdes, honly]
          simp [Ends, hvisit, hmatch, bind, Except.bind]
      · rw [decided _ notWaiting (recoveryOnly_none (by rw [hdes]; nofun)
          fun hn => hnode ⟨hn.1, hn.2.2.1, hcap ▸ hn.2.2.2.1,
            hn.2.2.2.2⟩), hdes]
        have : ¬ (src.released = some .leaseExpired
            ∧ request.nodeRecovery = true ∧ t.job.state = .running
            ∧ t.job.capability.agent = true
            ∧ ∃ visit, env.visit = some visit
                ∧ visit.matches .suspended = true) :=
          fun ⟨_, hn, hs, ha, visit, hv, _⟩ =>
            hnode ⟨hn, hs, ha, visit, hv⟩
        simp [RecoveryOnly.any, this]

-- ======================================================= the whole answer

/-- What is answered from the job alone. -/
theorem claimEarly_known (h : Known logical t row src) (now gap : Nat)
    (hr : Redelivered t observedAt request env) :
    claimEarly t now gap request env
      = if t.job.state = .quarantined then
          some (.ok (.leaseless .retryLaterNoAck t.job.desired, t))
        else if t.job.desired = .cancelled ∧ t.job.state = .cancelled then
          some (.ok (.leaseless .obsoleteAck .cancelled, t))
        else none := by
  have hcmd := h.command
  unfold claimEarly
  dsimp only
  rw [if_neg (by simp [hr.valid, hr.capability]), hcmd.unretired]
  dsimp only
  rw [if_neg (by simp [hr.digest]), if_neg (by
      simp [hr.digest, hcmd.published]), hcmd.authority,
    if_neg (by simp), hcmd.published, if_neg (by simp [hr.digest])]
  split
  next => rfl
  next =>
    split
    next => rfl
    next => rw [hr.credentials, if_neg (by simp)]

theorem InboxOk.complete_eq (h : InboxOk logical t)
    (capability : Capability) :
    completeToolkitInboxProjection t capability = t := by
  have hin := h.complete capability
  unfold completeToolkitInboxProjection at hin ⊢
  split
  next => rfl
  next payload hp =>
    rw [hp] at hin
    dsimp only at hin
    rw [hin]

/-- An older claim has a smaller attempt than the unreleased one. -/
theorem ClaimsOk.lt_unreleased (h : ClaimsOk t) {d : Claim} (hc : c ∈ t.claims)
    (hr : c.released = none) (hd : d ∈ t.claims) (hne : d ≠ c) :
    d.fence.claimAttempt < c.fence.claimAttempt := by
  have ha := h.attempts
  have hs := h.single
  revert ha hs hc hd
  cases t.claims with
  | nil => exact fun hc => absurd hc List.not_mem_nil
  | cons head rest =>
      intro hc hd ha hs
      rcases List.mem_cons.1 hc with rfl | hc
      · rcases List.mem_cons.1 hd with rfl | hd
        · exact absurd rfl hne
        · exact (List.pairwise_cons.1 ha).1 d hd
      · have := hs c hc
        rw [hr] at this
        cases this

/-- The source of the output is the one claim of its fence. -/
theorem Known.sourceEnded_iff (h : Known logical t row src)
    (observedAt : Nat) :
    SourceEnded t observedAt row ↔ src.released = some .leaseExpired
      ∨ (src.released = none ∧ src.leaseExpiresAt ≤ observedAt) := by
  constructor
  · rintro ⟨c, hc, hf, hend⟩
    obtain rfl := eq_of_attempt_eq h.claims.attempts hc h.source.1
      (by rw [hf, h.source.2])
    exact hend
  · exact fun hend => ⟨src, h.source.1, h.source.2, hend⟩

/-- Releasing the expired claim leaves the rest known, with the source
released if it was that claim. -/
theorem Known.release (h : Known logical t row src) (hc : c ∈ t.claims)
    (hr : c.released = none) :
    Known logical (t.updateClaim c.fence.claimAttempt
        fun c => c.release .leaseExpired) row
      (if src = c then c.release .leaseExpired else src) := by
  have hev := updateClaim_evolve h.claims.attempts hc
    (f := fun c => c.release .leaseExpired) (evolves_release hr _)
  have mem : ∀ d ∈ t.claims, (if d = c then c.release .leaseExpired else d)
      ∈ (t.updateClaim c.fence.claimAttempt
        fun c => c.release .leaseExpired).claims := by
    intro d hd
    refine List.mem_map.2 ⟨d, hd, ?_⟩
    by_cases hdc : d = c
    · rw [if_pos hdc, if_pos (hdc ▸ rfl), hdc]
    · rw [if_neg hdc, if_neg fun ha =>
        hdc (eq_of_attempt_eq h.claims.attempts hd hc ha)]
  refine ⟨⟨hev.attempts h.claims.attempts, hev.single h.claims.single⟩,
    ⟨?_, fun _ => ?_, h.settle.unsettled, fun st hst => ?_⟩, h.inbox, ?_,
    mem src h.source.1, ?_⟩
  · intro d hd
    obtain ⟨d₀, hd₀, he⟩ := forall₂_mem_right hev hd
    rw [he.fence]
    exact h.settle.fences d₀ hd₀
  · obtain ⟨h₁, h₂, h₃, h₄⟩ := h.command
    exact ⟨h₁, h₂, h₃, h₄⟩
  · obtain ⟨h₁, ⟨d, hd, hf, hdr⟩, h₃, h₄⟩ := h.settle.settlement st hst
    refine ⟨h₁, ⟨d, ?_, hf, hdr⟩, h₃, h₄⟩
    have := mem d hd
    rwa [if_neg fun hdc => by rw [hdc, hr] at hdr; cases hdr] at this
  · obtain ⟨d, hd, hf⟩ := h.final.source
    obtain ⟨d', hd', he⟩ := forall₂_mem_left hev hd
    exact ⟨h.final.projected, h.final.valid, h.final.canonical, d', hd',
      he.fence.trans hf⟩
  · split
    next heq => exact (congrArg Claim.fence heq).symm.trans h.source.2
    next => exact h.source.2

/-- What `ClaimValidation` answers is final exactly in the listed
combinations. -/
theorem Known.acknowledges_iff (h : Known logical t row src)
    (hin : InboxOk logical t) (hr : Redelivered t observedAt request env) :
    Acknowledges t now observedAt gap request env
      ↔ Recoverable t observedAt request env row := by
  change Ends (claimValidation t now observedAt gap request env) ↔ _
  unfold Recoverable claimValidation
  rw [claimEarly_known h now gap hr]
  by_cases hq : t.job.state = .quarantined
  · rw [if_pos hq]
    exact ⟨fun he => absurd he not_ends_retry, fun hand => absurd hq hand.1⟩
  rw [if_neg hq]
  by_cases hobs : t.job.desired = .cancelled ∧ t.job.state = .cancelled
  · rw [if_pos hobs]
    exact ⟨fun _ => ⟨hq, .inl hobs⟩,
      fun _ => ⟨_, _, rfl, .inr (.inl rfl)⟩⟩
  rw [if_neg hobs]
  dsimp only
  rw [hin.complete_eq]
  unfold claimPublished
  cases hactive : t.activeClaim with
  | none =>
      have hfree := activeClaim_eq_none hactive
      have hnever : ∀ c ∈ t.claims, c.released ≠ none := fun c hc he => by
        have := hfree c hc
        rw [he] at this
        cases this
      rw [claimFree_final h hr.capability hr.interrupts hr.valid hr.token
        hfree, h.sourceEnded_iff]
      have hsrc : (src.released = some .leaseExpired
          ∨ (src.released = none ∧ src.leaseExpiresAt ≤ observedAt))
          ↔ src.released = some .leaseExpired :=
        or_iff_left fun he => hnever src h.source.1 he.1
      rw [hsrc]
      constructor
      · exact fun hf => ⟨hq, .inr (.inr
          ⟨fun c hc he => absurd he (hnever c hc), hf⟩)⟩
      · rintro ⟨-, hc | ⟨c, hc, he, -⟩ | ⟨-, hf⟩⟩
        · exact absurd hc hobs
        · exact absurd he (hnever c hc)
        · exact hf
  | some c =>
      obtain ⟨hc, hrel⟩ := activeClaim_eq_some hactive
      have only : ∀ d ∈ t.claims, d.released = none → d = c :=
        fun d hd hdr => h.claims.single.eq hd hc hdr hrel
      dsimp only
      by_cases hlive : observedAt < c.leaseExpiresAt
      · rw [if_pos hlive, if_neg (not_not.2 (hr.unheld c hc hrel hlive)),
          claimHeld_final h hc hrel hlive,
          handedTo_iff h.claims h.source.1 h.source.2]
        have hended : SourceEnded t observedAt row
            ↔ src.released = some .leaseExpired := by
          rw [h.sourceEnded_iff]
          refine or_iff_left fun he => ?_
          rw [only src h.source.1 he.1] at he
          exact absurd hlive (Nat.not_lt_of_le he.2)
        have hlt : src.released = some .leaseExpired →
            src.fence.claimAttempt < c.fence.claimAttempt := fun he =>
          h.claims.lt_unreleased hc hrel h.source.1 fun heq => by
            rw [heq, hrel] at he
            cases he
        constructor
        · rintro ⟨hnone, hand⟩
          exact ⟨hq, .inr (.inl ⟨c, hc, hrel, hlive, hnone,
            hand.imp_right fun he => hended.2 he.2⟩)⟩
        · rintro ⟨-, hx | ⟨d, hd, hdr, -, hnone, hand⟩ | ⟨hall, -⟩⟩
          · exact absurd hx hobs
          · rw [only d hd hdr] at hand
            exact ⟨hnone, hand.imp_right fun he =>
              ⟨hlt (hended.1 he), hended.1 he⟩⟩
          · exact absurd hlive (Nat.not_lt_of_le (hall c hc hrel))
      · have hexp := Nat.le_of_not_lt hlive
        rw [if_neg hlive, claimFree_final (h.release hc hrel) hr.capability
          hr.interrupts hr.valid hr.token
          (released_of_release h.claims.single hc hrel .leaseExpired)]
        have hended : (if src = c then c.release .leaseExpired
              else src).released = some .leaseExpired
            ↔ SourceEnded t observedAt row := by
          rw [h.sourceEnded_iff]
          by_cases heq : src = c
          · rw [if_pos heq]
            refine ⟨fun _ => .inr ?_, fun _ => rfl⟩
            rw [heq]
            exact ⟨hrel, hexp⟩
          · rw [if_neg heq]
            exact (or_iff_left fun he =>
              heq (only src h.source.1 he.1)).symm
        rw [propext hended]
        constructor
        · refine fun hf => ⟨hq, .inr (.inr ⟨fun d hd hdr => ?_, hf⟩)⟩
          rw [only d hd hdr]
          exact hexp
        · rintro ⟨-, hx | ⟨d, hd, hdr, hdl, -⟩ | ⟨-, hf⟩⟩
          · exact absurd hx hobs
          · rw [only d hd hdr] at hdl
            exact absurd hdl hlive
          · exact hf

end Answers

/-- In every state of every run with a projected terminal output, a
redelivery of the published command is answered so that the worker can
settle or acknowledge exactly in the listed combinations. -/
theorem redelivery_ends_iff {cfg : Config} {s : State} (scope : Scope)
    (capability : Capability) (prepared : Option Digest)
    (deadline clock : Nat) (labels : List Label)
    (hrun : run (step cfg) (start scope capability prepared deadline clock)
      labels = some s)
    {row : OutputRow} (hrow : row ∈ s.world.tables.inbox)
    {now observedAt gap : Nat} {request : ClaimRequest} {env : ClaimEnv}
    (hr : Redelivered s.world.tables observedAt request env) :
    Acknowledges s.world.tables now observedAt gap request env
      ↔ Recoverable s.world.tables observedAt request env row := by
  obtain ⟨hsound, hinv⟩ := (settling_run hrun).throughout.now
  have hone : s.world.tables.inbox = [row] := by
    have := hsound.inbox.one
    revert this hrow
    cases s.world.tables.inbox with
    | nil => exact fun h => absurd h List.not_mem_nil
    | cons x rest =>
        intro hm hlen
        obtain rfl : rest = [] := List.length_eq_zero_iff.1
          (Nat.le_zero.1 (Nat.le_of_succ_le_succ hlen))
        rw [List.mem_singleton.1 hm]
  have hfinal := hsound.inbox.rows row hrow
  obtain ⟨src, hsrc⟩ := hfinal.source
  exact Known.acknowledges_iff ⟨hsound.claims, hinv, hone, hfinal, hsrc⟩
    hsound.inbox hr

/-- After the sample settlement the command can be acknowledged. -/
theorem redelivery_ends_settled :
    ∃ s, run (step sampleConfig) (sampleStart .agentApplication)
        sampleSettled = some s
      ∧ Acknowledges s.world.tables 0 0 0 (sampleRequest .agentApplication)
          (sampleChoice 0).env := by
  have evaluated : (run (step sampleConfig) (sampleStart .agentApplication)
      sampleSettled).map (fun s => decide
        (s.world.tables.job.capability = .agentApplication
          ∧ s.world.tables.outbox.prepared = some [1]
          ∧ s.world.tables.job.state = .failed
          ∧ s.world.tables.job.desired = .running
          ∧ (∀ c ∈ s.world.tables.claims, c.released.isSome = true)
          ∧ s.world.tables.inbox.isEmpty = false)) = some true := by
    decide +kernel
  obtain ⟨s, hs, he⟩ := Option.map_eq_some_iff.1 evaluated
  obtain ⟨hcap, hprep, hstate, hdes, hrel, hin⟩ := of_decide_eq_true he
  have never : ∀ c ∈ s.world.tables.claims, c.released ≠ none := by
    intro c hc hn
    have := hrel c hc
    rw [hn] at this
    cases this
  obtain ⟨row, hrow⟩ := List.exists_mem_of_ne_nil _
    (List.isEmpty_eq_false_iff.1 hin)
  refine ⟨s, hs, (redelivery_ends_iff sampleScope .agentApplication
    (some [1]) 1000000 0 sampleSettled hs hrow ?_).2 ?_⟩
  · exact ⟨by decide +kernel, hcap.symm, hprep, rfl, rfl, by decide,
      fun c hc hn => absurd hn (never c hc)⟩
  · rw [Recoverable, hstate]
    refine ⟨nofun, .inr (.inr ⟨fun c hc hn => absurd hn (never c hc), ?_⟩)⟩
    exact .inl ⟨hdes, .inl (by rw [hstate]; rfl)⟩

/-- A worker that gives its lease back after its output is accepted: the
redelivered command is told to come back later, for ever. -/
theorem released_producer :
    (run (step sampleConfig) (sampleStart .agentApplication)
      (sampleClaimed .agentApplication ++ sampleTerminal 1 0
        ++ alone (.releaseClaim (sampleFence 1)) [.claim 1] 0
        ++ alone (.claim (sampleRequest .agentApplication)) [.job] 0)).map
      (fun s => (hasDurableTerminalOutput s.world.tables,
        s.answers.getLast?.map fun answer => match answer.2 with
          | .claimed d => some d.disposition
          | _ => none))
      = some (true, some (some .retryLaterNoAck)) := by
  decide +kernel

end Elitea.Executions
