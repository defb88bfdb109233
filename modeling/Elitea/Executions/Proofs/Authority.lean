/-
One authority and one invocation per execution: what holds of the claims
and the job in every run in which no begin overtakes an abort of its
fence, and how one that does breaks it.

# The order of an execution

A job waits, is claimed, begins (PREPARING), is authorized
(MAY_HAVE_STARTED) and settles. `Authority` is what that order leaves in
the tables: a waiting job was never begun, and an authorized one is
running or settled. Every job move except a stale abort keeps it
(`Authority.move`).

# Why no abort is stale

An abort does not look at the job again. While its claim is unreleased
only a begin of the same fence takes the job out of CLAIMED
(`Commits.leaves`), so if none commits while the abort is open, the job
is still as the abort saw it (`abortsFresh_step`).

# What a stale abort does

`AbortClaim` finds the job CLAIMED in its snapshot, waits for the claim
row that `BeginExecution` of the same fence has locked, and goes on: the
row was locked and not changed, so nothing is evaluated again. The job is
put back to DISPATCHED although it is being prepared (`abort_overtaken`).
-/
import Elitea.Executions.Proofs.Commits

namespace Elitea.Executions

open Elitea.Lib

variable {t t' : Tables}

-- ============================================================ the invariant

/-- What the order of an execution leaves in its tables. -/
structure Authority (t : Tables) : Prop extends ClaimsOk t where
  waiting : t.job.state.unbegun = true → t.job.invocation = .notStarted
  started : t.job.invocation = .mayHaveStarted →
    t.job.state = .running ∨ t.job.state.settled = true

theorem authority_admitted (scope : Scope) (capability : Capability)
    (prepared : Option Digest) (deadline : Nat) :
    Authority (admitted scope capability prepared deadline) :=
  ⟨claimsOk_admitted scope capability prepared deadline, fun _ => rfl,
    nofun⟩

/-- A job that has left the waiting states by one of the moves. -/
theorem JobMove.order {stale : Prop} {j j' : Job} (h : JobMove stale j j')
    (hfresh : ¬ stale)
    (hwait : j.state.unbegun = true → j.invocation = .notStarted)
    (hstart : j.invocation = .mayHaveStarted →
      j.state = .running ∨ j.state.settled = true) :
    (j'.state.unbegun = true → j'.invocation = .notStarted)
      ∧ (j'.invocation = .mayHaveStarted →
        j'.state = .running ∨ j'.state.settled = true) := by
  -- a move out of a waiting state that keeps the invocation keeps it unbegun
  have waited : j.state.unbegun = true → j'.invocation = j.invocation →
      (j'.state.unbegun = true → j'.invocation = .notStarted)
        ∧ (j'.invocation = .mayHaveStarted →
          j'.state = .running ∨ j'.state.settled = true) := by
    intro hu hi
    rw [hi, hwait hu]
    exact ⟨fun _ => rfl, nofun⟩
  cases h with
  | same hs hi =>
      rw [hs, hi]
      exact ⟨hwait, hstart⟩
  | publish hb _ hi => exact waited (by rw [hb]; rfl) hi
  | claim hb _ hi =>
      exact waited (by rcases hb with hb | hb <;> rw [hb] <;> rfl) hi
  | retire hb _ hi =>
      exact waited (by rcases hb with hb | hb <;> rw [hb] <;> rfl) hi
  | begin _ _ ha hi =>
      rw [ha, hi]
      exact ⟨nofun, nofun⟩
  | authorize _ _ ha _ =>
      rw [ha]
      exact ⟨nofun, fun _ => .inl rfl⟩
  | abort hb _ hi =>
      exact waited (by rw [hb.resolve_right hfresh]; rfl) hi
  | settle ha _ =>
      refine ⟨fun hu => ?_, fun _ => .inr ha⟩
      cases hs : j'.state <;> rw [hs] at ha hu <;> cases ha <;> cases hu

theorem Authority.move {stale : Prop} (h : Authority t) (hfresh : ¬ stale)
    (hc : ClaimsMove t.claims t'.claims) (hj : JobMove stale t.job t'.job) :
    Authority t' :=
  have order := hj.order hfresh h.waiting h.started
  ⟨h.toClaimsOk.move hc, order.1, order.2⟩

/-- No move takes the invocation back, or forward by two. -/
theorem JobMove.rank {stale : Prop} {j j' : Job} (h : JobMove stale j j') :
    j.invocation.rank ≤ j'.invocation.rank
      ∧ j'.invocation.rank ≤ j.invocation.rank + 1 := by
  have kept : j'.invocation = j.invocation →
      j.invocation.rank ≤ j'.invocation.rank
        ∧ j'.invocation.rank ≤ j.invocation.rank + 1 :=
    fun hi => hi ▸ ⟨Nat.le_refl _, Nat.le_succ _⟩
  cases h with
  | same _ hi => exact kept hi
  | publish _ _ hi => exact kept hi
  | claim _ _ hi => exact kept hi
  | retire _ _ hi => exact kept hi
  | begin _ hw _ hi => rw [hw, hi]; decide
  | authorize _ hw _ hi => rw [hw, hi]; decide
  | abort _ _ hi => exact kept hi
  | settle _ hi => exact kept hi

-- ============================================================ single commits

/-- The fence a call commits under. -/
def Op.fence : Op → Option Fence
  | .beginExecution fence | .authorizeInvocation fence
  | .renewLease fence _ | .releaseClaim fence | .abortClaim fence _ =>
      some fence
  | .prepareSettlement proposal => some proposal.fence
  | _ => none

/-- The fence a call begins under. -/
def Op.beginning : Op → Option Fence
  | .beginExecution fence => some fence
  | _ => none

/-- The invocation may have run to an effect: it was authorized, for a
capability that is not simply repeated, or a terminal output is
durable. -/
def MustNotRun (t : Tables) : Prop :=
  (t.job.invocation = .mayHaveStarted
      ∧ t.job.capability ≠ .configurationValidate)
    ∨ hasDurableTerminalOutput t = true

section Commit

variable {cfg : Config} {w w' : World} {now : Nat} {call : Call}
  {choice : Choice} {a : Answer}

theorem fencedClaim_held {seen : Tables} {since again : Nat} {fence : Fence}
    {c : Claim} (hsince : since ≤ again) (hnow : again ≤ now)
    (h : fencedClaim seen t since again fence = some c) :
    ∃ time, since ≤ time ∧ time ≤ now ∧ HeldAt t time fence := by
  obtain ⟨hmem, hfence, hrel, hlive | hlive, -⟩ := fencedClaim_ok h
  · exact ⟨since, Nat.le_refl _, Nat.le_trans hsince hnow, c, hmem, hfence,
      hrel, hlive⟩
  · exact ⟨again, hsince, hnow, c, hmem, hfence, hrel, hlive⟩

/-- A call under a fence that changes anything found its claim unreleased,
and unexpired at a time at which it looked. -/
theorem Commits.held (hlook : call.since ≤ choice.observedAt)
    (hnow : choice.observedAt ≤ now)
    (h : Commits cfg w now call choice a w')
    (hchange : w'.tables ≠ w.tables) {fence : Fence}
    (hfence : call.op.fence = some fence) :
    ∃ time, call.since ≤ time ∧ time ≤ now ∧ HeldAt w.tables time fence := by
  have hstart := Nat.le_trans hlook hnow
  cases h with
  | refused e => exact absurd rfl hchange
  | begun op h =>
      rw [op] at hfence
      obtain rfl := Option.some.inj hfence
      exact ⟨_, Nat.le_refl _, hstart, (beginExecution_ok h).1⟩
  | authorized op h =>
      rw [op] at hfence
      obtain rfl := Option.some.inj hfence
      exact ⟨_, Nat.le_refl _, hstart, (authorizeInvocation_ok h).1⟩
  | renewed op h =>
      rw [op] at hfence
      obtain rfl := Option.some.inj hfence
      obtain ⟨c, hc, -⟩ := renewLease_ok h
      exact fencedClaim_held (Nat.le_refl _) hstart hc
  | released op h =>
      rw [op] at hfence
      obtain rfl := Option.some.inj hfence
      obtain ⟨c, hc, -⟩ := releaseClaim_ok h
      exact fencedClaim_held hlook hnow hc
  | aborted op h =>
      rw [op] at hfence
      obtain rfl := Option.some.inj hfence
      obtain ⟨-, c, hc, -⟩ := abortClaim_ok h
      exact fencedClaim_held hlook hnow hc
  | settled op h =>
      rw [op] at hfence
      obtain rfl := Option.some.inj hfence
      rcases prepareSettlement_ok h with
        rfl | ⟨c, hc, -, -, hf, hr, hlive, -, -⟩
      · exact absurd rfl hchange
      · exact ⟨_, hlook, hnow, c, hc, hf, hr, hlive⟩
  | claim op _ => rw [op] at hfence; cases hfence
  | desired op => rw [op] at hfence; cases hfence
  | published op _ => rw [op] at hfence; cases hfence
  | nodeEvent op _ => rw [op] at hfence; cases hfence
  | terminal op _ => rw [op] at hfence; cases hfence
  | pruned op _ => rw [op] at hfence; cases hfence
  | replayed op _ _ _ => exact absurd rfl hchange
  | attached op _ => exact absurd rfl hchange

/-- A durable terminal output stays one while a claim is answered. -/
theorem Told.durable (h : Told t t') (hd : hasDurableTerminalOutput t = true) :
    hasDurableTerminalOutput t' = true := by
  rcases h.inbox with he | ⟨capability, he⟩
  · rwa [hasDurableTerminalOutput, he]
  · rw [hasDurableTerminalOutput, he]
    unfold completeToolkitInboxProjection
    split
    next => exact hd
    next payload _ =>
      obtain ⟨row, hrow, hp⟩ := List.any_eq_true.1 hd
      refine List.any_eq_true.2 ⟨_, List.mem_map_of_mem hrow, ?_⟩
      split
      next => rfl
      next => exact hp

/-- A claim that is ACCEPTED finds an invocation that has not run. -/
theorem Commits.mayRun (hauth : Authority w.tables)
    (h : Commits cfg w now call choice a w') {d : ClaimDecision}
    (ha : a = .claimed d) (hd : d.disposition = .accepted) :
    ¬ MustNotRun w.tables := by
  cases h with
  | claim _ h =>
      obtain rfl : d = _ := (Answer.claimed.inj ha).symm
      cases claimValidation_ok hauth.attempts hauth.single h with
      | told _ hne => exact absurd hd hne
      | retired _ _ _ hne => exact absurd hd hne
      | granted u hg =>
          have may := hg.accepted hd
          rintro (⟨hinv, hcap⟩ | hdur)
          · rcases hauth.started hinv with hrun | hset
            · rcases may.notInvoked with hc | hs | hp
              · exact hcap hc
              · exact hs hrun
              · rw [hinv] at hp
                cases hp
            · rw [may.unsettled] at hset
              cases hset
          · obtain ⟨mode, rfl⟩ := hg.granted
            have kept : hasDurableTerminalOutput u = true :=
              hg.told.durable hdur
            have none := may.noOutput
            exact absurd (kept.symm.trans none) nofun
  | _ => cases ha

/-- AUTHORIZED_NOW is answered on the way to MAY_HAVE_STARTED. -/
theorem Commits.authorizedNow (h : Commits cfg w now call choice a w')
    (ha : a = .authorized .authorizedNow) :
    w.tables.job.invocation = .preparing
      ∧ w'.tables.job.invocation = .mayHaveStarted := by
  cases h with
  | authorized _ h =>
      obtain rfl := Answer.authorized.inj ha
      obtain ⟨-, ⟨he, -⟩ | ⟨-, -, hp, rfl⟩⟩ := authorizeInvocation_ok h
      · cases he
      · exact ⟨hp, rfl⟩
  | _ => cases ha

/-- Answering a claim leaves a CLAIMED job as it is. -/
theorem ClaimEffect.claimed {now gap : Nat} {request : ClaimRequest}
    {env : ClaimEnv} {d : ClaimDecision}
    (h : ClaimEffect t now gap request env d t') (hs : t.job.state = .claimed)
    : t'.job.state = .claimed := by
  cases h with
  | told h _ => rw [h.job, hs]
  | retired u hu h _ =>
      obtain ⟨-, hw, -⟩ := retireLockedNoAuthorityValidation_ok h
      rw [hu.job, hs] at hw
      rcases hw with hw | hw <;> cases hw
  | granted u h =>
      obtain ⟨mode, rfl⟩ := h.granted
      have hu : u.job.state = .claimed := by rw [h.told.job, hs]
      refine (if_neg ?_).trans hu
      rw [hu]
      decide

/-- A commit that takes the job out of CLAIMED and leaves a claim
unreleased is a begin of that claim. -/
theorem Commits.leaves (hok : ClaimsOk w.tables)
    (h : Commits cfg w now call choice a w')
    (hbefore : w.tables.job.state = .claimed)
    (hafter : w'.tables.job.state ≠ .claimed) {fence : Fence}
    (hheld : Unreleased w'.tables fence) :
    call.op.beginning = some fence
      ∧ (beginExecution w.tables call.since fence).isOk = true := by
  obtain ⟨c, hc, hf, hr⟩ := hheld
  -- a commit that releases the one unreleased claim leaves none
  have spent : ∀ {x : Claim} {reason : ReleaseReason}, x ∈ w.tables.claims →
      x.released = none → c ∈ (w.tables.updateClaim x.fence.claimAttempt
        fun c => c.release reason).claims → False := by
    intro x reason hx hxr hm
    have := released_of_release hok.single hx hxr reason c hm
    rw [hr] at this
    cases this
  cases h with
  | begun op h =>
      obtain ⟨⟨x, hx, hxf, hxr, -⟩, rfl | ⟨-, -, rfl⟩⟩ :=
        beginExecution_ok h
      · exact absurd hbefore hafter
      · obtain rfl := hok.single.eq hx hc hxr hr
        rw [← hf, hxf, op, h]
        exact ⟨rfl, rfl⟩
  | claim _ h =>
      exact absurd ((claimValidation_ok hok.attempts hok.single h).claimed
        hbefore) hafter
  | authorized _ h =>
      obtain ⟨-, ⟨-, rfl⟩ | ⟨-, hs, -, rfl⟩⟩ := authorizeInvocation_ok h
      · exact absurd hbefore hafter
      · exact absurd hbefore hafter
  | renewed _ h =>
      obtain ⟨x, -, rfl⟩ := renewLease_ok h
      exact absurd hbefore hafter
  | released _ h =>
      obtain ⟨x, -, rfl⟩ := releaseClaim_ok h
      exact absurd hbefore hafter
  | aborted _ h =>
      obtain ⟨-, x, hx, rfl⟩ := abortClaim_ok h
      obtain ⟨hmem, -, hrel, -⟩ := fencedClaim_ok hx
      exact (spent hmem hrel hc).elim
  | settled _ h =>
      rcases prepareSettlement_ok h with
        rfl | ⟨x, hx, row, -, -, hxr, -, -, rfl⟩
      · exact absurd hbefore hafter
      · exact (spent hx hxr hc).elim
  | published _ h =>
      rw [(publishCommand_ok h).1] at hbefore
      cases hbefore
  | nodeEvent _ h =>
      have hjob := (projectNodeEvent_ok h).authority.1.job
      exact absurd (hjob ▸ hbefore) hafter
  | terminal _ h =>
      have hjob := (projectTerminal_ok h).2.2.authority.job
      exact absurd (hjob ▸ hbefore) hafter
  | pruned _ h =>
      have hjob := (pruneExpiredReplayProgress_authority h).1.job
      exact absurd (hjob ▸ hbefore) hafter
  | _ => exact absurd hbefore hafter

/-- What an open abort saw of the job still holds while its claim is
unreleased. -/
def Fresh (op : Op) (seen w : World) : Prop :=
  ∀ fence ∈ op.aborting, seen.tables.job.state = .claimed →
    Since (· = .claimed) fence seen w

theorem Fresh.not_stale (h : Fresh call.op call.seen w) :
    ¬ StaleAbort w call := by
  rintro ⟨fence, hop, hknown, hheld, hseen, hnow⟩
  exact hnow ((h fence hop hseen).kept hknown hseen hheld)

end Commit

-- ===================================================================== runs

/-- No begin of a fence commits while an abort of that fence is open that
saw the job CLAIMED. -/
def BeginsAlone (s : State) (l : Label) : Prop :=
  ∀ call ∈ Sessions.finishing s l, ∀ fence ∈ call.op.beginning,
    (beginExecution s.world.tables call.since fence).isOk = true →
    ∀ other ∈ s.calls, other.op.aborting = some fence →
      other.seen.tables.job.state ≠ .claimed

instance (s : State) (l : Label) : Decidable (BeginsAlone s l) :=
  inferInstanceAs (Decidable (∀ call ∈ Sessions.finishing s l,
    ∀ fence ∈ call.op.beginning, _ → ∀ other ∈ s.calls, _ → _))

/-- How often AUTHORIZED_NOW was answered. -/
def authorizations (s : State) : Nat :=
  s.answers.countP fun answer =>
    answer.2 == .authorized .authorizedNow

/-- AUTHORIZED_NOW was answered once at most, and if it was the
invocation may have started. -/
def AuthorizedOnce (s : State) : Prop :=
  authorizations s = 0
    ∨ (authorizations s = 1
      ∧ s.world.tables.job.invocation = .mayHaveStarted)

/-- What one step does to the authority. -/
structure Orderly (s s' : State) (l : Label) : Prop where
  /-- Older claims keep their fences and stay released; a new claim has a
  larger attempt and finds all others released. -/
  claims : ClaimsMove s.world.tables.claims s'.world.tables.claims
  invocation : s.world.tables.job.invocation.rank
      ≤ s'.world.tables.job.invocation.rank
    ∧ s'.world.tables.job.invocation.rank
      ≤ s.world.tables.job.invocation.rank + 1
  fenced : ∀ call ∈ Sessions.finishing s l, ∀ fence ∈ call.op.fence,
    s'.world.tables ≠ s.world.tables →
    ∃ time, call.since ≤ time ∧ time ≤ s.clock
      ∧ HeldAt s.world.tables time fence
  aborts : ∀ call ∈ Sessions.finishing s l, call.op.aborting.isSome →
    s'.world.tables ≠ s.world.tables →
    s.world.tables.job.state = .claimed
  accepts : MustNotRun s.world.tables → ∀ op d,
    s'.answers = s.answers ++ [(op, .claimed d)] →
    d.disposition ≠ .accepted

section Runs

variable {cfg : Config} {s s' : State} {l : Label}

theorem authority_step (hs : Authority s.world.tables)
    (hfresh : Sessions.Follows Fresh s) (h : step cfg s l = some s') :
    Authority s'.world.tables := by
  rcases quiet_or_finish h with
    ⟨-, hw, -⟩ | ⟨i, choice, call, a, w', rfl, hc, -, -, hcom, hw, -⟩
  · exact hw ▸ hs
  · have hmove := hcom.moves hs.toClaimsOk
    have hcall := hfresh call (List.mem_of_getElem? hc)
    rw [hw]
    exact hs.move hcall.not_stale hmove.1 hmove.2

/-- No begin overtakes an abort, so every abort stays fresh. -/
theorem abortsFresh_step (hok : ClaimsOk s.world.tables)
    (hs : Sessions.Follows Fresh s) (halone : BeginsAlone s l)
    (h : step cfg s l = some s') : Sessions.Follows Fresh s' := by
  refine hs.step (fun op fence _ _ => Since.refl _ fence _) h ?_
  intro i choice call a w' hl hc he other ho hother fence hf hseen
  have hcom := (exec_commits he).2.2
  refine (hother fence hf hseen).commit hok hcom fun hbefore hheld => ?_
  by_contra hafter
  obtain ⟨hop, hbegins⟩ := hcom.leaves hok hbefore hafter hheld
  subst hl
  exact halone call hc fence hop hbegins other ho hf hseen

theorem authorizedOnce_step (hok : ClaimsOk s.world.tables)
    (hs : AuthorizedOnce s) (h : step cfg s l = some s') :
    AuthorizedOnce s' := by
  rcases quiet_or_finish h with
    ⟨-, hw, ha⟩ | ⟨i, choice, call, a, w', rfl, hc, -, -, hcom, hw, ha⟩
  · unfold AuthorizedOnce authorizations at hs ⊢
    rwa [hw, ha]
  · have count : authorizations s' = authorizations s
        + if a = .authorized .authorizedNow then 1 else 0 := by
      unfold authorizations
      rw [ha, List.countP_append, List.countP_singleton]
      simp only [beq_iff_eq]
    unfold AuthorizedOnce
    rw [count, hw]
    by_cases hnow : a = .authorized .authorizedNow
    · obtain ⟨hbefore, hafter⟩ := hcom.authorizedNow hnow
      rw [if_pos hnow]
      rcases hs with hs | ⟨-, hs⟩
      · exact .inr ⟨by rw [hs], hafter⟩
      · rw [hbefore] at hs
        cases hs
    · rw [if_neg hnow, Nat.add_zero]
      refine hs.imp_right fun ⟨h₁, h₂⟩ => ⟨h₁, ?_⟩
      have hrank := (hcom.moves hok).2.rank.1
      rw [h₂] at hrank
      cases hi : w'.tables.job.invocation with
      | mayHaveStarted => rfl
      | notStarted => rw [hi] at hrank; exact absurd hrank (by decide)
      | preparing => rw [hi] at hrank; exact absurd hrank (by decide)

theorem orderly_step (hs : Authority s.world.tables)
    (hfresh : Sessions.Follows Fresh s) (h : step cfg s l = some s') :
    Orderly s s' l := by
  rcases quiet_or_finish h with
    ⟨hn, hw, ha⟩ | ⟨i, choice, call, a, w', rfl, hc, h₁, h₂, hcom, hw, ha⟩
  · refine ⟨hw ▸ .refl _, hw ▸ ⟨Nat.le_refl _, Nat.le_succ _⟩, ?_, ?_, ?_⟩
    · exact fun _ _ _ _ hne => absurd (congrArg World.tables hw) hne
    · exact fun _ _ _ hne => absurd (congrArg World.tables hw) hne
    · intro _ op d he
      rw [ha] at he
      exact absurd (List.self_eq_append_right.1 he) (List.cons_ne_nil _ _)
  · have hmove := hcom.moves hs.toClaimsOk
    have only : ∀ c ∈ Sessions.finishing s (.finish i choice), c = call :=
      fun c hm => Option.some.inj (hm.symm.trans hc)
    refine ⟨hw ▸ hmove.1, hw ▸ hmove.2.rank, ?_, ?_, ?_⟩
    · intro c hm fence hf hne
      rw [only c hm] at hf ⊢
      exact hcom.held h₁ h₂ (hw ▸ hne) hf
    · intro c hm hab hne
      rw [only c hm] at hab
      -- an abort that changes anything went through on what it saw
      cases hcom with
      | aborted op habort =>
          obtain ⟨hseen, x, hx, -⟩ := abortClaim_ok habort
          obtain ⟨hmem, hf, hr, -, hknown⟩ := fencedClaim_ok hx
          have hcall := hfresh call (List.mem_of_getElem? hc) _
            (by rw [op]; rfl) hseen
          exact hcall.kept hknown hseen ⟨x, hmem, hf, hr⟩
      | refused e => exact absurd (congrArg World.tables hw) hne
      | claim op _ => rw [op] at hab; cases hab
      | begun op _ => rw [op] at hab; cases hab
      | authorized op _ => rw [op] at hab; cases hab
      | renewed op _ => rw [op] at hab; cases hab
      | released op _ => rw [op] at hab; cases hab
      | settled op _ => rw [op] at hab; cases hab
      | desired op => rw [op] at hab; cases hab
      | published op _ => rw [op] at hab; cases hab
      | nodeEvent op _ => rw [op] at hab; cases hab
      | terminal op _ => rw [op] at hab; cases hab
      | pruned op _ => rw [op] at hab; cases hab
      | replayed op _ _ _ => rw [op] at hab; cases hab
      | attached op _ => rw [op] at hab; cases hab
    · intro hmust op d he hacc
      rw [ha] at he
      have := List.append_cancel_left he
      obtain ⟨-, hans⟩ := Prod.mk.inj (List.cons.inj this).1
      exact hcom.mayRun hs hans hacc hmust

/-- In every run in which no begin of a fence commits while an abort of it
that saw the job CLAIMED is open: one claim at most is unreleased and
attempts increase, AUTHORIZED_NOW is answered once at most, a waiting job
has not begun, and every further step is orderly. -/
theorem one_authority (scope : Scope) (capability : Capability)
    (prepared : Option Digest) (deadline clock : Nat)
    (labels : List Label)
    (halone : Meets (step cfg) BeginsAlone
      (start scope capability prepared deadline clock) labels)
    (hrun : run (step cfg) (start scope capability prepared deadline clock)
      labels = some s) :
    Authority s.world.tables ∧ authorizations s ≤ 1
      ∧ ∀ l s', step cfg s l = some s' → Orderly s s' l := by
  have keeps : ∀ u l u', (Authority u.world.tables ∧ AuthorizedOnce u
        ∧ Sessions.Follows Fresh u) →
      BeginsAlone u l → step cfg u l = some u' →
      Authority u'.world.tables ∧ AuthorizedOnce u'
        ∧ Sessions.Follows Fresh u' := by
    intro u l u' ⟨hauth, honce, hfresh⟩ hl h
    exact ⟨authority_step hauth hfresh h,
      authorizedOnce_step hauth.toClaimsOk honce h,
      abortsFresh_step hauth.toClaimsOk hfresh hl h⟩
  obtain ⟨hauth, honce, hfresh⟩ := run_inv keeps labels _ s
    ⟨authority_admitted scope capability prepared deadline, .inl rfl,
      Sessions.Follows.begin _ clock⟩ halone hrun
  refine ⟨hauth, ?_, fun l s' h => orderly_step hauth hfresh h⟩
  rcases honce with h | ⟨h, -⟩
  · rw [h]
    exact Nat.zero_le 1
  · rw [h]

/-- A claim that begins and is authorized. -/
def sampleAuthorized : List Label :=
  sampleClaimed .agentApplication
    ++ alone (.beginExecution (sampleFence 1)) [.job, .claim 1] 0
    ++ alone (.authorizeInvocation (sampleFence 1)) [.job, .claim 1] 0

theorem one_authority_authorized :
    ∃ s, run (step sampleConfig) (sampleStart .agentApplication)
        sampleAuthorized = some s
      ∧ s.world.tables.job.invocation = .mayHaveStarted
      ∧ Authority s.world.tables ∧ authorizations s ≤ 1
      ∧ ∀ l s', step sampleConfig s l = some s' → Orderly s s' l := by
  have evaluated : (run (step sampleConfig) (sampleStart .agentApplication)
      sampleAuthorized).map (fun s => s.world.tables.job.invocation)
      = some .mayHaveStarted := by decide +kernel
  obtain ⟨s, hs, hinv⟩ := Option.map_eq_some_iff.1 evaluated
  exact ⟨s, hs, hinv, one_authority sampleScope .agentApplication (some [1])
    1000000 0 sampleAuthorized (by decide +kernel) hs⟩

end Runs

-- ============================================================ a stale abort

/-- An abort and a begin of one fence: the abort's statement starts first,
the begin takes the rows first. -/
def overtaken : List Label :=
  sampleClaimed .agentApplication
    ++ [.start (.abortClaim (sampleFence 1) .inputResolutionRetry),
      .start (.beginExecution (sampleFence 1)), .acquire 1 .job,
      .acquire 1 (.claim 1), .finish 1 (sampleChoice 0),
      .acquire 0 (.claim 1), .acquire 0 .job]

/-- The abort takes the job out of RUNNING and leaves it DISPATCHED and
PREPARING. -/
theorem abort_overtaken :
    (run (step sampleConfig) (sampleStart .agentApplication)
        overtaken).map (fun s => (s.world.tables.job.state,
          s.world.tables.job.invocation)) = some (.running, .preparing)
      ∧ (run (step sampleConfig) (sampleStart .agentApplication)
          (overtaken ++ [.finish 0 (sampleChoice 0)])).map
            (fun s => (s.world.tables.job.state,
              s.world.tables.job.invocation))
          = some (.dispatched, .preparing) := by
  decide +kernel

end Elitea.Executions
