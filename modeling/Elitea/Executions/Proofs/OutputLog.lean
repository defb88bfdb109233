/-
The output log along whole runs: the terminal output, the moves of every
commit, retries, and where a terminal is taken out of sequence.

# The terminal output

A row of the inbox is the execution's one output (`FinalRow`): valid,
canonical, projected, and sent under a claim that exists. There is at most
one, since every terminal carries the same logical output id
(`InboxOk`).

# Out of sequence

`FirstKept` is the condition under which a terminal follows the last node
event: a terminal of sequence one that is taken meets the first node
event, in the log or as the last one. Everything else in `output_log`
holds in every run.
-/
import Mathlib.Data.List.Nodup
import Elitea.Executions.Proofs.Log

namespace Elitea.Executions

open Elitea.Lib Elitea.Lib.PrunedLog

variable {r : OutputRecord} {policy : RetentionPolicy} {log : List ReplayEvent}
  {gap lockedAt : Nat} {data : BrowserData} {f : NodeEventFrame}
  {node : NodeReceipt}

-- ========================================================== effects on the log

/-- What a commit can do to the inbox and the replay log. -/
inductive LogEffect (cfg : Config) (op : Op) (t t' : Tables) : Prop where
  | same (inbox : t'.inbox = t.inbox) (replay : t'.replay = t.replay)
      (events : t'.events = t.events)
      (nextCursor : t'.nextCursor = t.nextCursor)
  | claim {now gap : Nat} {request : ClaimRequest} {env : ClaimEnv}
      {d : ClaimDecision} (h : ClaimEffect t now gap request env d t')
  | node {now gap : Nat} {f : NodeEventFrame} {o : NodeEventOutcome}
      (h : NodeEffect cfg.policy t now gap f o t')
  | terminal {lockedAt now gap : Nat} {r : OutputRecord}
      {data : BrowserData} (op : op = .terminal r data)
      (canonical : canonicalTerminal cfg.logicalOutputId r = true)
      (h : TerminalEffect t lockedAt now gap r data t')
  | prune {now n : Nat}
      (h : pruneExpiredReplayProgress cfg.policy t now = .ok (n, t'))

theorem Commits.logEffect {cfg : Config} {w w' : World} {now : Nat}
    {call : Call} {choice : Choice} {a : Answer}
    (hok : ClaimsOk w.tables) (h : Commits cfg w now call choice a w') :
    LogEffect cfg call.op w.tables w'.tables := by
  cases h with
  | refused e => exact .same rfl rfl rfl rfl
  | claim _ h => exact .claim (claimValidation_ok hok.attempts hok.single h)
  | begun _ h =>
      obtain ⟨-, rfl | ⟨-, -, rfl⟩⟩ := beginExecution_ok h <;>
        exact .same rfl rfl rfl rfl
  | authorized _ h =>
      obtain ⟨-, ⟨-, rfl⟩ | ⟨-, -, -, rfl⟩⟩ := authorizeInvocation_ok h <;>
        exact .same rfl rfl rfl rfl
  | renewed _ h =>
      obtain ⟨c, -, rfl⟩ := renewLease_ok h
      exact .same rfl rfl rfl rfl
  | released _ h =>
      obtain ⟨c, -, rfl⟩ := releaseClaim_ok h
      exact .same rfl rfl rfl rfl
  | aborted _ h =>
      obtain ⟨-, c, -, rfl⟩ := abortClaim_ok h
      exact .same rfl rfl rfl rfl
  | settled _ h =>
      rcases prepareSettlement_ok h with
        rfl | ⟨c, -, row, -, -, -, -, -, rfl⟩ <;>
        exact .same rfl rfl rfl rfl
  | desired _ => exact .same rfl rfl rfl rfl
  | published _ h =>
      obtain ⟨-, -, -, rfl⟩ := publishCommand_ok h
      exact .same rfl rfl rfl rfl
  | nodeEvent _ h => exact .node (projectNodeEvent_ok h)
  | terminal op h =>
      obtain ⟨hcanon, -, heff⟩ := projectTerminal_ok h
      exact .terminal op hcanon heff
  | pruned _ h => exact .prune h
  | replayed _ _ _ _ => exact .same rfl rfl rfl rfl
  | attached _ _ => exact .same rfl rfl rfl rfl

-- ======================================================= the terminal output

/-- A row of the inbox, as every commit leaves it. -/
structure FinalRow (logical : String) (t : Tables) (row : OutputRow) :
    Prop where
  projected : row.projected = true
  valid : row.record.validate = true
  canonical : canonicalTerminal logical row.record = true
  source : ∃ c ∈ t.claims, c.fence = row.record.fence

structure InboxOk (logical : String) (t : Tables) : Prop where
  rows : ∀ row ∈ t.inbox, FinalRow logical t row
  one : t.inbox.length ≤ 1

/-- The sequence of a terminal. -/
def Op.terminalSequence : Op → Option Nat
  | .terminal record _ => some record.sequence
  | _ => none

/-- What a commit can do to the inbox: nothing, or put the first row into
it. -/
inductive InboxMove (logical : String) (op : Op) (t t' : Tables) :
    Prop where
  | same (h : t'.inbox = t.inbox)
  | accepted (r : OutputRecord) (lockedAt now : Nat)
      (admission : Admission t lockedAt now r)
      (canonical : canonicalTerminal logical r = true)
      (op : op.terminalSequence = some r.sequence)
      (empty : t.inbox = []) (h : t'.inbox = [⟨r, true⟩])

section Inbox

variable {logical : String} {t t' : Tables}

/-- A toolkit projection has nothing left to mark. -/
theorem InboxOk.complete (h : InboxOk logical t) (capability : Capability) :
    (completeToolkitInboxProjection t capability).inbox = t.inbox := by
  unfold completeToolkitInboxProjection
  split
  next => rfl
  next payload _ =>
    refine (List.map_congr_left fun row hrow => ?_).trans (List.map_id _)
    split
    next =>
      have hp := (h.rows row hrow).projected
      cases row
      cases hp
      rfl
    next => rfl

theorem Told.inbox_eq (h : Told t t') (hin : InboxOk logical t) :
    t'.inbox = t.inbox := by
  rcases h.inbox with he | ⟨capability, he⟩
  · exact he
  · exact he.trans (hin.complete capability)

/-- The canonical cancellation has the identities of its source. -/
theorem canonicalCancellationOutput_ok {r' : OutputRecord}
    (h : canonicalCancellationOutput r = .ok r') :
    r'.sequence = r.sequence ∧ r'.eventId = r.eventId
      ∧ r'.logicalOutputId = r.logicalOutputId ∧ r'.fence = r.fence
      ∧ r'.settlementBytes = r'.wire := by
  unfold canonicalCancellationOutput at h
  split at h
  next => cases h
  next =>
    cases Except.ok.inj h
    exact ⟨rfl, rfl, rfl, rfl, rfl⟩

theorem canonicalTerminal_iff :
    canonicalTerminal logical r = true ↔ r.eventId = .output r.sequence
      ∧ r.logicalOutputId = logical ∧ r.settlementBytes = r.wire := by
  unfold canonicalTerminal
  rw [Bool.and_eq_true, Bool.and_eq_true, beq_iff_eq, beq_iff_eq,
    beq_iff_eq, and_assoc]

/-- An admitted terminal is the first. -/
theorem Admission.inbox_nil {now : Nat} (h : Admission t lockedAt now r)
    (hin : InboxOk logical t) (hcanon : canonicalTerminal logical r = true) :
    t.inbox = [] := by
  refine List.eq_nil_iff_forall_not_mem.2 fun row hrow => ?_
  have hconf := h.noOutput
  unfold conflictingOutput at hconf
  have hne := List.any_eq_false.1 hconf row hrow
  refine hne ?_
  rw [(canonicalTerminal_iff.1 (hin.rows row hrow).canonical).2.1,
    (canonicalTerminal_iff.1 hcanon).2.1]
  simp only [beq_self_eq_true, Bool.or_true, Bool.true_or]

/-- The claim an admitted terminal was sent under. -/
theorem Admission.source {now : Nat} (h : Admission t lockedAt now r) :
    ∃ c ∈ t.claims, c.fence = r.fence ∧ c.released = none := by
  have hauth := h.authority
  unfold outputAuthority at hauth
  simp only [Bool.and_eq_true] at hauth
  have hclaim := hauth.1.1.2
  split at hclaim
  next => cases hclaim
  next c hc =>
    simp only [Bool.and_eq_true, Option.isNone_iff_eq_none] at hclaim
    obtain ⟨hmem, hfence⟩ := claim_eq_some hc
    exact ⟨c, hmem, hfence, hclaim.1.2⟩

/-- The inserted row is marked. -/
theorem projectInserted_inbox {now : Nat} (hempty : t.inbox = [])
    (h : projectInserted { t with inbox := t.inbox ++ [⟨r, false⟩] } now gap
      r data = .ok t') : t'.inbox = [⟨r, true⟩] := by
  have marked : ∀ u : Tables, u.inbox = [⟨r, false⟩] →
      (markOutputProjected u r.eventId).inbox = [⟨r, true⟩] := by
    intro u hu
    unfold markOutputProjected
    dsimp only
    rw [hu]
    exact congrArg (· :: []) (if_pos rfl)
  rw [hempty, List.nil_append] at h
  unfold projectInserted at h
  split at h
  next =>
    cases h
    exact marked _ rfl
  next =>
    split at h
    next => cases h
    next =>
      cases h
      exact marked _ rfl

theorem TerminalEffect.inbox {now : Nat} (hin : InboxOk logical t)
    (hcanon : canonicalTerminal logical r = true)
    (h : TerminalEffect t lockedAt now gap r data t') :
    InboxMove logical (.terminal r data) t t' := by
  rcases h with rfl | ⟨r', hr, hp⟩
  · exact .same rfl
  · have hcanon' : canonicalTerminal logical r' = true
        ∧ r'.sequence = r.sequence := by
      rcases hr with rfl | hr
      · exact ⟨hcanon, rfl⟩
      · obtain ⟨hseq, hid, hlog, -, hbytes⟩ :=
          canonicalCancellationOutput_ok hr
        have hc := canonicalTerminal_iff.1 hcanon
        exact ⟨canonicalTerminal_iff.2 ⟨by rw [hid, hseq]; exact hc.1,
          hlog.trans hc.2.1, hbytes⟩, hseq⟩
    have hempty := hp.admission.inbox_nil hin hcanon'.1
    exact .accepted r' lockedAt now hp.admission hcanon'.1
      (congrArg some hcanon'.2.symm) hempty
      (projectInserted_inbox hempty hp.tables)

end Inbox

section Commit

variable {cfg : Config} {w w' : World} {now : Nat} {call : Call}
  {choice : Choice} {a : Answer}

theorem ClaimEffect.inbox {logical : String} {t t' : Tables} {now : Nat}
    {request : ClaimRequest} {env : ClaimEnv} {d : ClaimDecision}
    (hin : InboxOk logical t) (h : ClaimEffect t now gap request env d t') :
    t'.inbox = t.inbox := by
  cases h with
  | told h _ => exact h.inbox_eq hin
  | retired u hu h _ =>
      obtain ⟨-, -, code, job, -, -, -, rfl⟩ :=
        retireLockedNoAuthorityValidation_ok h
      exact hu.inbox_eq hin
  | granted u h =>
      obtain ⟨mode, rfl⟩ := h.granted
      exact h.told.inbox_eq hin

theorem LogEffect.inbox {op : Op} {t t' : Tables}
    (hin : InboxOk cfg.logicalOutputId t) (h : LogEffect cfg op t t') :
    InboxMove cfg.logicalOutputId op t t' := by
  cases h with
  | same he _ _ _ => exact .same he
  | claim h => exact .same (h.inbox hin)
  | node h => exact .same h.authority.2
  | terminal op hcanon h => exact op ▸ h.inbox hin hcanon
  | prune h => exact .same (pruneExpiredReplayProgress_authority h).2

theorem InboxOk.commit (hok : ClaimsOk w.tables)
    (hin : InboxOk cfg.logicalOutputId w.tables)
    (h : Commits cfg w now call choice a w') :
    InboxOk cfg.logicalOutputId w'.tables := by
  have hclaims := (h.moves hok).1
  have source : ∀ fence, (∃ c ∈ w.tables.claims, c.fence = fence) →
      ∃ c ∈ w'.tables.claims, c.fence = fence := by
    rintro fence ⟨c, hc, rfl⟩
    obtain ⟨c', hm, he⟩ := hclaims.fences hc
    exact ⟨c', hm, he.fence⟩
  cases (h.logEffect hok).inbox hin with
  | same he =>
      refine ⟨fun row hrow => ?_, he ▸ hin.one⟩
      have hr := hin.rows row (he ▸ hrow)
      exact ⟨hr.projected, hr.valid, hr.canonical, source _ hr.source⟩
  | accepted r lockedAt now' hadm hcanon _ _ he =>
      refine ⟨fun row hrow => ?_, by rw [he]; exact Nat.le_refl 1⟩
      rw [he] at hrow
      rw [List.mem_singleton.1 hrow]
      obtain ⟨c, hc, hf, -⟩ := hadm.source
      exact ⟨rfl, hadm.valid, hcanon, source _ ⟨c, hc, hf⟩⟩

end Commit

-- ================================================================= sequences

/-- The three parts of the sequence test. -/
theorem sequenceConflict_eq_false {t : Tables} :
    sequenceConflict t r = false ↔ (∀ e ∈ t.events, e.eventId ≠ r.eventId)
      ∧ (∀ node ∈ t.replayState.lastNode, node.eventId ≠ r.eventId)
      ∧ (1 < r.sequence → previousSequence t r = true) := by
  unfold sequenceConflict
  rw [Bool.or_eq_false_iff, Bool.or_eq_false_iff, and_assoc]
  refine and_congr ?_ (and_congr ?_ ?_)
  · rw [List.any_eq_false]
    simp only [beq_iff_eq]
  · unfold Tables.replayState
    cases t.replay with
    | none => exact ⟨fun _ _ h => (Option.not_mem_none _ h).elim, fun _ => rfl⟩
    | some s =>
        change (s.lastNode.any fun node => node.eventId == r.eventId) = false
          ↔ ∀ node ∈ s.lastNode, node.eventId ≠ r.eventId
        rw [Option.any_eq_false]
        simp only [beq_eq_false_iff_ne, Option.mem_def]
  · rw [Bool.and_eq_false_iff, decide_eq_false_iff_not,
      Bool.not_eq_false', imp_iff_not_or]

/-- The sequence a terminal has to follow. -/
theorem previousSequence_eq {t : Tables} (h : previousSequence t r = true) :
    r.sequence = t.replayState.lastNodeSequence + 1 := by
  unfold previousSequence at h
  unfold Tables.replayState
  cases hr : t.replay with
  | none => rw [hr] at h; cases h
  | some s =>
      rw [hr] at h
      simp only [Bool.and_eq_true, beq_iff_eq] at h
      exact h.1.symm

-- =================================================================== commits

theorem retirementData_storable (code : RetirementCode) :
    (retirementData code).storable = true := by
  cases code <;> decide +kernel

theorem Told.logMove {t t' : Tables} {logical : String} (h : Told t t')
    (hin : InboxOk logical t) : LogMove policy t t' :=
  .quiet (by unfold Tables.replayState; rw [h.replay]) h.events
    h.nextCursor fun he => (h.inbox_eq hin).symm.trans he

theorem ClaimEffect.logMove {t t' : Tables} {logical : String} {now : Nat}
    {request : ClaimRequest} {env : ClaimEnv} {d : ClaimDecision}
    (hlog : LogInv policy t log) (hin : InboxOk logical t)
    (h : ClaimEffect t now gap request env d t') : LogMove policy t t' := by
  cases h with
  | told h _ => exact h.logMove hin
  | retired u hu h _ =>
      obtain ⟨-, -, code, job, -, -, -, rfl⟩ :=
        retireLockedNoAuthorityValidation_ok h
      have hstate : u.replayState = t.replayState := by
        unfold Tables.replayState
        rw [hu.replay]
      refine .closed ⟨u.nextCursor + gap, .retirement,
        .terminal .runtimeFailure, retirementData code, now⟩ hstate ?_ ?_
        rfl nofun (retirementData_storable code) (absurd rfl) ?_ ?_
      · exact congrArg (· ++ [_]) hu.events
      · exact hu.nextCursor ▸ Nat.le_add_right _ _
      · intro node hnode hid
        rw [(hlog.lastId hnode).1] at hid
        cases hid
      · exact fun he => ⟨(hu.inbox_eq hin).symm.trans he, rfl⟩
  | granted u h =>
      obtain ⟨mode, rfl⟩ := h.granted
      refine .quiet ?_ h.told.events h.told.nextCursor
        fun he => (h.told.inbox_eq hin).symm.trans he
      change u.replayState = _
      unfold Tables.replayState
      rw [h.told.replay]

theorem NodeEffect.logMove {t t' : Tables} {now : Nat} {o : NodeEventOutcome}
    (hlog : LogInv policy t log) (h : NodeEffect policy t now gap f o t') :
    LogMove policy t t' := by
  cases h with
  | kept h => exact .quiet (h ▸ rfl) (h ▸ rfl) (h ▸ rfl) fun he => h ▸ he
  | created h => cases h; exact .quiet rfl rfl rfl id
  | appended frame h _ => exact .appended now gap f frame h
  | taken frame used _ =>
      obtain ⟨e, he, hid⟩ := used
      exact absurd hid (hlog.fresh frame.noOutput (by
        have := frame.next
        unfold Tables.replayState
        omega) e he)

theorem TerminalEffect.logMove {t t' : Tables} {now : Nat}
    (h : TerminalEffect t lockedAt now gap r data t') :
    LogMove policy t t' := by
  rcases h with rfl | ⟨r', -, hp⟩
  · exact .quiet rfl rfl rfl id
  · have inserted : ∀ f : OutputRow → OutputRow,
        (t.inbox ++ [(⟨r', false⟩ : OutputRow)]).map f ≠ [] := fun f he =>
      List.cons_ne_nil _ _ (List.append_eq_nil_iff.1
        (List.map_eq_nil_iff.1 he)).2
    obtain ⟨hids, hlast, -⟩ :=
      sequenceConflict_eq_false.1 hp.admission.follows
    have htables := hp.tables
    unfold projectInserted at htables
    split at htables
    next =>
      cases htables
      exact .quiet rfl rfl rfl fun he => absurd he (inserted _)
    next =>
      split at htables
      next => cases htables
      next hs =>
        cases htables
        refine .closed ⟨t.nextCursor + gap, r'.eventId,
          .terminal r'.payloadType, data, now⟩ rfl rfl
          (Nat.le_add_right _ _) rfl nofun ?_ (fun _ => hids) ?_
          fun he => absurd he (inserted _)
        · simpa only [Bool.not_eq_true', Bool.not_eq_false] using hs
        · exact fun node hn he => hlast node hn he.symm

theorem LogEffect.logMove {cfg : Config} {op : Op} {t t' : Tables}
    (hin : InboxOk cfg.logicalOutputId t) (hlog : LogInv cfg.policy t log)
    (h : LogEffect cfg op t t') : LogMove cfg.policy t t' := by
  cases h with
  | same inbox replay events next =>
      refine .quiet ?_ events next fun he => inbox.symm.trans he
      unfold Tables.replayState
      rw [replay]
  | claim h => exact h.logMove hlog hin
  | node h => exact h.logMove hlog
  | terminal _ _ h => exact h.logMove
  | prune h => exact .pruned _ _ h

/-- The ghost log takes the new rows of every commit. -/
theorem Commits.log_eq {cfg : Config} {w w' : World} {now : Nat} {call : Call}
    {choice : Choice} {a : Answer}
    (hlog : LogInv cfg.policy w.tables w.log)
    (h : Commits cfg w now call choice a w') :
    w'.log = w.log ++ newRows w.tables w'.tables := by
  have still : w.log = w.log ++ newRows w.tables w.tables :=
    (hlog.newRows_nil (List.filter_true _).symm).symm
  cases h with
  | refused e => exact still
  | replayed _ _ _ _ => exact still
  | attached _ _ => exact still
  | _ => rfl

-- ====================================================================== runs

/-- What holds of the tables and the log in every run. -/
structure Sound (cfg : Config) (w : World) : Prop where
  claims : ClaimsOk w.tables
  inbox : InboxOk cfg.logicalOutputId w.tables
  log : LogInv cfg.policy w.tables w.log

theorem Sound.commit {cfg : Config} {w w' : World} {now : Nat} {call : Call}
    {choice : Choice} {a : Answer} (h : Sound cfg w)
    (hc : Commits cfg w now call choice a w') : Sound cfg w' := by
  have hmove := (hc.logEffect h.claims).logMove h.inbox h.log
  refine ⟨hc.claimsOk h.claims, h.inbox.commit h.claims hc, ?_⟩
  rw [hc.log_eq h.log]
  exact h.log.move hmove

section Runs

variable {cfg : Config} {s s' : State} {l : Label}

theorem sound_step (hs : Sessions.Throughout (Sound cfg) s)
    (h : step cfg s l = some s') : Sessions.Throughout (Sound cfg) s' :=
  hs.step h fun _ _ _ _ _ _ _ he => hs.now.commit (exec_commits he).2.2

/-- Every state of every run is sound, and so is what every open call
saw. -/
theorem sound_run {scope : Scope} {capability : Capability}
    {prepared : Option Digest} {deadline clock : Nat} {labels : List Label}
    (hrun : run (step cfg) (start scope capability prepared deadline clock)
      labels = some s) : Sessions.Throughout (Sound cfg) s := by
  refine run_inv' (fun _ _ _ hu h => sound_step hu h) labels _ s ?_ hrun
  refine Sessions.Throughout.begin clock ⟨?_, ?_, ?_⟩
  · exact claimsOk_admitted scope capability prepared deadline
  · exact ⟨fun _ h => absurd h List.not_mem_nil, Nat.zero_le 1⟩
  · exact logInv_admitted cfg.policy scope capability prepared deadline

-- =============================================================== the sequence

/-- A terminal of sequence one that is taken meets the first node event,
in the log or as the last one. -/
def FirstKept (cfg : Config) (s : State) (l : Label) : Prop :=
  ∀ call ∈ Sessions.finishing s l, call.op.terminalSequence = some 1 →
    s.world.tables.inbox = [] →
    (∀ s' ∈ step cfg s l, s'.world.tables.inbox ≠ [] →
      s.world.tables.lastNodeSequence ≤ 1
        ∨ ∃ e ∈ s.world.tables.events, e.eventId = .output 1)

instance (cfg : Config) (s : State) (l : Label) :
    Decidable (FirstKept cfg s l) :=
  inferInstanceAs (Decidable (∀ call ∈ Sessions.finishing s l, _))

/-- The terminal output follows the last node event. -/
def Followed (t : Tables) : Prop :=
  ∀ row ∈ t.inbox, row.record.sequence = t.lastNodeSequence + 1

theorem lastNodeSequence_eq (t : Tables) :
    t.lastNodeSequence = t.replayState.lastNodeSequence := by
  unfold Tables.lastNodeSequence Tables.replayState
  cases t.replay <;> rfl

/-- No node event is taken in a commit that leaves a terminal output. -/
theorem LogInv.frozen {t t' : Tables} (h : LogInv policy t log)
    (hm : LogMove policy t t') (hin : t'.inbox ≠ []) :
    t'.replayState.lastNodeSequence = t.replayState.lastNodeSequence
      ∧ nodes (log ++ newRows t t') = nodes log := by
  have after := h.move hm
  have hseq : t'.replayState.lastNodeSequence
      = t.replayState.lastNodeSequence := by
    cases hm with
    | quiet state _ _ _ => rw [state]
    | closed e state _ _ _ _ _ _ _ _ => rw [state]
    | appended now gap f frame he =>
        rw [he] at hin
        exact absurd frame.noOutput hin
    | pruned now n hp => rw [h.pruned_eq hp]; rfl
  refine ⟨hseq, ?_⟩
  have hids := after.ids
  rw [hseq, ← h.ids, nodes_append, List.map_append] at hids
  rw [nodes_append, List.map_eq_nil_iff.1
    (List.append_right_eq_self.1 hids), List.append_nil]

/-- An admitted terminal of sequence one found no node event, if the
first one is kept; any other follows the last. -/
theorem Admission.sequence {t : Tables} {logical : String} {now : Nat}
    (h : Admission t lockedAt now r) (hlog : LogInv policy t log)
    (hcanon : canonicalTerminal logical r = true)
    (hfirst : r.sequence = 1 → t.lastNodeSequence ≤ 1
      ∨ ∃ e ∈ t.events, e.eventId = .output 1) :
    r.sequence = t.lastNodeSequence + 1 := by
  obtain ⟨hids, hlast, hprev⟩ := sequenceConflict_eq_false.1 h.follows
  have hid := (canonicalTerminal_iff.1 hcanon).1
  have hpos : r.sequence ≠ 0 := by
    have hv := h.valid
    simp only [OutputRecord.validate, Bool.and_eq_true, bne_iff_ne] at hv
    exact hv.1.1.1.1.1.1.1.1.1.2
  rw [lastNodeSequence_eq] at hfirst ⊢
  by_cases hone : r.sequence = 1
  · rw [hone] at hid ⊢
    rcases hfirst hone with hle | ⟨e, he, heid⟩
    · -- the one node event there could be has the terminal's id
      have hne : t.replayState.lastNodeSequence ≠ 1 := by
        intro heq
        cases hn : t.replayState.lastNode with
        | none =>
            rw [hlog.last_none.1 hn] at heq
            cases heq
        | some node =>
            refine hlast node hn ?_
            rw [(hlog.lastId hn).1, heq, hid]
      omega
    · exact absurd (heid.trans hid.symm) (hids e he)
  · exact previousSequence_eq (hprev (by omega))

theorem followed_step (hs : Sound cfg s.world)
    (hf : Followed s.world.tables) (hfirst : FirstKept cfg s l)
    (h : step cfg s l = some s') : Followed s'.world.tables := by
  rcases quiet_or_finish h with
    ⟨-, hw, -⟩ | ⟨i, choice, call, a, w', rfl, hc, -, -, hcom, hw, -⟩
  · exact hw ▸ hf
  · have heff := hcom.logEffect hs.claims
    have hmove := heff.logMove hs.inbox hs.log
    rw [hw]
    intro row hrow
    have hin : w'.tables.inbox ≠ [] := fun he =>
      absurd hrow (he ▸ List.not_mem_nil)
    rw [lastNodeSequence_eq, (hs.log.frozen hmove hin).1,
      ← lastNodeSequence_eq]
    cases heff.inbox hs.inbox with
    | same he => exact hf row (he ▸ hrow)
    | accepted r lockedAt now hadm hcanon hop hempty he =>
        rw [he] at hrow
        rw [List.mem_singleton.1 hrow]
        refine hadm.sequence hs.log hcanon fun hone => ?_
        exact hfirst call hc (hone ▸ hop) hempty s' h (hw ▸ hin)

/-- Once there is a terminal output, a step accepts nothing. -/
theorem final_step (hs : Sound cfg s.world)
    (hin : s.world.tables.inbox ≠ []) (h : step cfg s l = some s') :
    s'.world.tables.inbox = s.world.tables.inbox
      ∧ nodes s'.world.log = nodes s.world.log := by
  rcases quiet_or_finish h with
    ⟨-, hw, -⟩ | ⟨i, choice, call, a, w', rfl, hc, -, -, hcom, hw, -⟩
  · rw [hw]
    exact ⟨rfl, rfl⟩
  · have heff := hcom.logEffect hs.claims
    rw [hw]
    cases heff.inbox hs.inbox with
    | same he =>
        refine ⟨he, ?_⟩
        rw [hcom.log_eq hs.log]
        exact (hs.log.frozen (heff.logMove hs.inbox hs.log)
          (he.symm ▸ hin)).2
    | accepted _ _ _ _ _ _ hempty _ => exact absurd hempty hin

/-- The log only grows, and so does what was pruned of it. -/
theorem grows_step (hs : Sound cfg s.world) (h : step cfg s l = some s') :
    (∃ new, s'.world.log = s.world.log ++ new)
      ∧ s.world.tables.replayState.prunedThroughCursor
        ≤ s'.world.tables.replayState.prunedThroughCursor := by
  rcases quiet_or_finish h with
    ⟨-, hw, -⟩ | ⟨i, choice, call, a, w', rfl, hc, -, -, hcom, hw, -⟩
  · rw [hw]
    exact ⟨⟨[], (List.append_nil _).symm⟩, Nat.le_refl _⟩
  · rw [hw]
    refine ⟨⟨_, hcom.log_eq hs.log⟩, ?_⟩
    cases (hcom.logEffect hs.claims).logMove hs.inbox hs.log with
    | quiet state _ _ _ => rw [state]
    | closed e state _ _ _ _ _ _ _ _ => rw [state]
    | appended now gap f frame he =>
        rw [he]
        exact Nat.le_max_left _ _
    | pruned now n hp =>
        rw [hs.log.pruned_eq hp]
        exact Nat.le_max_left _ _

-- ==================================================================== retries

/-- The event is retained, or it is the last one. -/
def Remembered (t : Tables) (node : NodeReceipt) : Prop :=
  (∃ e ∈ nodes t.events, e.receipt = node)
    ∨ t.replayState.lastNode = some node

theorem LogInv.node_id {t : Tables} (h : LogInv policy t log) {e : ReplayEvent}
    (he : e ∈ nodes log) : e.eventId ≠ .retirement := by
  have hid : e.eventId ∈ (nodes log).map (·.eventId) :=
    List.mem_map_of_mem he
  rw [h.ids, mem_firstIds] at hid
  obtain ⟨k, -, hk⟩ := hid
  rw [hk]
  nofun

theorem firstIds_nodup (n : Nat) : (firstIds n).Nodup :=
  List.nodup_range.map fun _ _ h => Nat.succ.inj (EventId.output.inj h)

/-- A remembered event is found by its id. -/
theorem LogInv.load {t : Tables} (h : LogInv policy t log)
    (hr : Remembered t node) :
    loadDurableNodeEvent t node.eventId
      = some (node.cursor, .nodeEvent, node.data) := by
  have hsub : ∀ e ∈ nodes t.events, e ∈ nodes log := fun e he =>
    mem_nodes.2 ⟨h.kept.sub.subset (mem_nodes.1 he).1, (mem_nodes.1 he).2⟩
  unfold loadDurableNodeEvent
  split
  next e hfind =>
    have hmem := List.mem_of_find?_eq_some hfind
    have hid : e.eventId = node.eventId := by
      simpa only [beq_iff_eq] using List.find?_some hfind
    rcases hr with ⟨x, hx, rfl⟩ | hlast
    · obtain rfl : e = x := by
        refine h.unique e hmem x (mem_nodes.1 hx).1 hid ?_
        rw [hid]
        exact h.node_id (hsub x hx)
      rw [(mem_nodes.1 hx).2]
      rfl
    · -- a row with the last event's id is that event
      have hnode : e.type = .nodeEvent := by
        by_contra hne
        exact h.apart e (h.kept.sub.subset hmem) hne node hlast hid
      rw [h.last] at hlast
      obtain ⟨x, hx, rfl⟩ := Option.map_eq_some_iff.1 hlast
      have hnodup : ((nodes log).map (·.eventId)).Nodup :=
        h.ids ▸ firstIds_nodup _
      obtain rfl : e = x := List.inj_on_of_nodup_map hnodup
        (hsub e (mem_nodes.2 ⟨hmem, hnode⟩)) (List.mem_of_getLast? hx) hid
      rw [hnode]
      rfl
  next hfind =>
    rcases hr with ⟨x, hx, rfl⟩ | hlast
    · have := List.find?_eq_none.1 hfind x (mem_nodes.1 hx).1
      exact absurd rfl (beq_eq_false_iff_ne.1 (Bool.eq_false_iff.2 this))
    · unfold Tables.replayState at hlast
      cases hrow : t.replay with
      | none => rw [hrow] at hlast; cases hlast
      | some st =>
          rw [hrow] at hlast
          dsimp only [Option.getD_some] at hlast ⊢
          rw [hlast]
          exact if_pos rfl

/-- A frame whose event was remembered when it was sent: the same frame
changes nothing and is answered with the event's cursor, another one is a
conflict. -/
theorem LogInv.retry {seen : Tables} (h : LogInv policy seen log)
    (hr : Remembered seen node) (hvalid : f.validate = true)
    (hsize : f.data.size ≤ policy.maxProgressBytes)
    (hid : f.eventId = node.eventId) (t : Tables) (lockedAt now gap : Nat) :
    projectNodeEvent policy seen t lockedAt now gap f
      = if seen.job.scope.projectionProjectId = f.scope.projectionProjectId
            ∧ node.data = f.data then
          .ok (.duplicate node.cursor, t)
        else .error .outputConflict := by
  unfold projectNodeEvent
  rw [hvalid, if_neg (by simpa using hsize), hid, h.load hr]
  simp only [classifyDurable, true_and]
  split
  next => rfl
  next => rfl

/-- A frame whose event was committed after its first look, and is still
the last: the same frame changes nothing and is answered with the event's
cursor, another one is a conflict. -/
theorem LogInv.overtaken {seen t : Tables} (h : LogInv policy t log)
    (hlast : t.replayState.lastNode = some node) (hvalid : f.validate = true)
    (hsize : f.data.size ≤ policy.maxProgressBytes)
    (hid : f.eventId = node.eventId)
    (hnone : loadDurableNodeEvent seen f.eventId = none)
    (hcap : t.job.capability.nodeEvent = true)
    (hauth : outputAuthority t lockedAt f.scope f.fence
      f.claimHandoffWatermark = true) (now gap : Nat) :
    projectNodeEvent policy seen t lockedAt now gap f
      = if node.data = f.data then .ok (.duplicate node.cursor, t)
        else .error .outputConflict := by
  have hseq : f.sequence = t.replayState.lastNodeSequence :=
    EventId.output.inj (hid.trans (h.lastId hlast).1)
  have hrow : { t with replay := some t.replayState } = t := by
    unfold Tables.replayState at hlast ⊢
    cases hreplay : t.replay with
    | none => rw [hreplay] at hlast; cases hlast
    | some row => rw [Option.getD_some, ← hreplay]
  unfold projectNodeEvent projectNewNodeEvent
  rw [hvalid, if_neg (by simpa using hsize), hnone]
  dsimp only
  rw [hcap, hauth, if_neg (by decide),
    show t.replay.getD .initial = t.replayState from rfl, h.consistent,
    if_neg (by decide), if_pos hseq, hlast, hrow]
  simp only [hid, true_and]

/-- The second look says why nothing was inserted, and blames no row. -/
theorem refuseAppend_error (t : Tables) (now : Nat) (f : NodeEventFrame) :
    refuseAppend t now f ≠ .error .inconsistent := by
  unfold refuseAppend classifyDurable
  repeat' split
  all_goals rintro ⟨⟩

theorem appendNodeEvent_error (policy : RetentionPolicy) (t : Tables)
    (now gap : Nat) (row : ReplayState) (f : NodeEventFrame) :
    appendNodeEvent policy t now gap row f ≠ .error .inconsistent := by
  unfold appendNodeEvent
  dsimp only
  repeat' split
  all_goals first | exact refuseAppend_error _ _ _ | rintro ⟨⟩

-- ================================================================== the result

/-- What one step does to the output log. -/
structure LogStep (s s' : State) : Prop where
  log : ∃ new, s'.world.log = s.world.log ++ new
  pruned : s.world.tables.replayState.prunedThroughCursor
    ≤ s'.world.tables.replayState.prunedThroughCursor
  final : s.world.tables.inbox ≠ [] →
    s'.world.tables.inbox = s.world.tables.inbox
      ∧ nodes s'.world.log = nodes s.world.log

/-- In every run: the node events are exactly the first ones, once each;
the state row describes the last one, counts what is retained and stays
within the bounds; what is missing lies at or below
`pruned_through_cursor`, which is the largest such cursor; there is one
terminal output at most. It follows the last node event if no terminal of
sequence one was taken without the first node event. Every further step
keeps what is in the log and accepts nothing after a terminal output. A
retry of a remembered event is answered with its cursor, and so is a
duplicate of the last one that looked before it was committed. -/
theorem output_log (scope : Scope) (capability : Capability)
    (prepared : Option Digest) (deadline clock : Nat)
    (labels : List Label)
    (hrun : run (step cfg) (start scope capability prepared deadline clock)
      labels = some s) :
    LogInv cfg.policy s.world.tables s.world.log
      ∧ (∀ node, s.world.tables.replayState.lastNode = some node →
          s.world.tables.replayState.prunedThroughCursor ≤ node.cursor)
      ∧ InboxOk cfg.logicalOutputId s.world.tables
      ∧ (Meets (step cfg) (FirstKept cfg)
            (start scope capability prepared deadline clock) labels →
          Followed s.world.tables)
      ∧ (∀ l s', step cfg s l = some s' → LogStep s s')
      ∧ (∀ node, Remembered s.world.tables node → ∀ f : NodeEventFrame,
          f.validate = true → f.data.size ≤ cfg.policy.maxProgressBytes →
          f.eventId = node.eventId → ∀ t lockedAt now gap,
          projectNodeEvent cfg.policy s.world.tables t lockedAt now gap f
            = if s.world.tables.job.scope.projectionProjectId
                  = f.scope.projectionProjectId ∧ node.data = f.data then
                .ok (.duplicate node.cursor, t)
              else .error .outputConflict)
      ∧ ∀ node, s.world.tables.replayState.lastNode = some node →
          ∀ f : NodeEventFrame, f.validate = true →
          f.data.size ≤ cfg.policy.maxProgressBytes →
          f.eventId = node.eventId → ∀ seen lockedAt now gap,
          loadDurableNodeEvent seen f.eventId = none →
          s.world.tables.job.capability.nodeEvent = true →
          outputAuthority s.world.tables lockedAt f.scope f.fence
            f.claimHandoffWatermark = true →
          projectNodeEvent cfg.policy seen s.world.tables lockedAt now gap f
            = if node.data = f.data then
                .ok (.duplicate node.cursor, s.world.tables)
              else .error .outputConflict := by
  have hs := (sound_run hrun).now
  refine ⟨hs.log, fun node hn => hs.log.pruned_le hn, hs.inbox,
    fun hfirst => ?_, fun l s' h => ?_, ?_, ?_⟩
  · have keeps : ∀ u l u',
        Sessions.Throughout (Sound cfg) u ∧ Followed u.world.tables →
        FirstKept cfg u l → step cfg u l = some u' →
        Sessions.Throughout (Sound cfg) u' ∧ Followed u'.world.tables :=
      fun u l u' hu hl h =>
        ⟨sound_step hu.1 h, followed_step hu.1.now hu.2 hl h⟩
    have begins := @sound_run cfg _ scope capability prepared deadline clock
      [] rfl
    exact (run_inv keeps labels _ s
      ⟨begins, fun _ h => absurd h List.not_mem_nil⟩ hfirst hrun).2
  · have grows := grows_step hs h
    exact ⟨grows.1, grows.2, fun hin => final_step hs hin h⟩
  · intro node hr f hvalid hsize hid t lockedAt now gap
    exact hs.log.retry hr hvalid hsize hid t lockedAt now gap
  · intro node hlast f hvalid hsize hid seen lockedAt now gap hnone hcap
      hauth
    exact hs.log.overtaken hlast hvalid hsize hid hnone hcap hauth now gap

/-- The row's consistency check is a guard that no run trips: whatever the
replicas, workers and janitors do and in whatever order, neither the
janitor nor the locked part of `ProjectNodeEvent` ever ends in the
internal error. -/
theorem replay_row_never_inconsistent {scope : Scope}
    {capability : Capability} {prepared : Option Digest}
    {deadline clock : Nat} {labels : List Label}
    (hrun : run (step cfg) (start scope capability prepared deadline clock)
      labels = some s) :
    (∀ now, pruneExpiredReplayProgress cfg.policy s.world.tables now
        ≠ .error .inconsistent)
      ∧ ∀ lockedAt now gap f,
        projectNewNodeEvent cfg.policy s.world.tables lockedAt now gap f
          ≠ .error .inconsistent := by
  have hrow := (sound_run hrun).now.log.consistent
  refine ⟨fun now => ?_, fun lockedAt now gap f => ?_⟩
  · unfold pruneExpiredReplayProgress
    cases hreplay : s.world.tables.replay with
    | none => rintro ⟨⟩
    | some row =>
        rw [Tables.replayState, hreplay] at hrow
        dsimp only [Option.getD_some] at hrow ⊢
        rw [hrow]
        rintro ⟨⟩
  · unfold projectNewNodeEvent
    dsimp only
    rw [show (s.world.tables.replay.getD .initial).consistent = true
      from hrow, Bool.not_true, if_neg Bool.false_ne_true]
    repeat' split
    all_goals first | apply appendNodeEvent_error | rintro ⟨⟩

end Runs

-- ========================================================== out of sequence

/-- The sample worker's node event of a sequence. -/
def sampleFrame (sequence : Nat) : NodeEventFrame :=
  ⟨sampleScope, sampleFence 1, sequence, 0, ⟨.progress, [1]⟩⟩

/-- A failure the sample worker ends with, under a sequence. -/
def sampleFailure (sequence : Nat) : OutputRecord :=
  let wire : WireProposal := ⟨"proposal", .failed, "output",
    .output sequence, sequence, [2], "key"⟩
  ⟨.output sequence, "output", sampleScope, sampleFence 1, "stream",
    sequence, 0, .runtimeFailure, [2], [2], "proposal", .failed, wire,
    some wire, "key", some 0⟩

def sampleNodeEvent (sequence observedAt : Nat) : List Label :=
  alone (.nodeEvent (sampleFrame sequence)) [.job, .claim 1, .replay]
    observedAt

def sampleTerminal (sequence observedAt : Nat) : List Label :=
  alone (.terminal (sampleFailure sequence) ⟨.progress, [2]⟩)
    [.job, .claim 1] observedAt

/-- Two node events and the terminal that follows them. -/
theorem output_log_three :
    ∃ s, run (step sampleConfig) (sampleStart .agentApplication)
        (sampleClaimed .agentApplication ++ sampleNodeEvent 1 0
          ++ sampleNodeEvent 2 0 ++ sampleTerminal 3 0) = some s
      ∧ s.world.tables.inbox.length = 1
      ∧ LogInv sampleConfig.policy s.world.tables s.world.log
      ∧ Followed s.world.tables := by
  have evaluated : (run (step sampleConfig) (sampleStart .agentApplication)
      (sampleClaimed .agentApplication ++ sampleNodeEvent 1 0
        ++ sampleNodeEvent 2 0 ++ sampleTerminal 3 0)).map
        (fun s => s.world.tables.inbox.length) = some 1 := by
    decide +kernel
  obtain ⟨s, hs, hone⟩ := Option.map_eq_some_iff.1 evaluated
  have h := output_log sampleScope .agentApplication (some [1]) 1000000 0
    _ hs
  exact ⟨s, hs, hone, h.1, h.2.2.2.1 (by decide +kernel)⟩

/-- Two node events, the first deleted by age with the append of the
second: neither a janitor nor a node event finds the row inconsistent. -/
theorem replay_row_never_inconsistent_two :
    ∃ s, run (step sampleConfig) (sampleStart .agentApplication)
        (sampleClaimed .agentApplication ++ sampleNodeEvent 1 0
          ++ .tick 300001 :: sampleNodeEvent 2 300001) = some s
      ∧ s.world.tables.prunedThrough ≠ 0
      ∧ (∀ now, pruneExpiredReplayProgress sampleConfig.policy s.world.tables
          now ≠ .error .inconsistent)
      ∧ ∀ lockedAt now gap f,
        projectNewNodeEvent sampleConfig.policy s.world.tables lockedAt now
          gap f ≠ .error .inconsistent := by
  have evaluated : ((run (step sampleConfig) (sampleStart .agentApplication)
      (sampleClaimed .agentApplication ++ sampleNodeEvent 1 0
        ++ .tick 300001 :: sampleNodeEvent 2 300001)).map
        fun s => decide (s.world.tables.prunedThrough ≠ 0)) = some true := by
    decide +kernel
  obtain ⟨s, hs, hpruned⟩ := Option.map_eq_some_iff.1 evaluated
  exact ⟨s, hs, of_decide_eq_true hpruned, replay_row_never_inconsistent hs⟩

/-- The first node event is deleted by age with the append of the second;
a terminal of sequence one is then taken although the last node event is
the second. -/
theorem terminal_after_pruning :
    (run (step sampleConfig) (sampleStart .agentApplication)
      (sampleClaimed .agentApplication ++ sampleNodeEvent 1 0
        ++ .tick 300001 :: sampleNodeEvent 2 300001
        ++ sampleTerminal 1 300001)).map
      (fun s => (s.world.tables.inbox.map (·.record.sequence),
        s.world.tables.lastNodeSequence)) = some ([1], 2) := by
  decide +kernel

end Elitea.Executions
