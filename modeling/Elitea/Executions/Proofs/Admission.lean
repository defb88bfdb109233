/-
What a valid terminal sent under a live fence is answered.

`insertOutputInbox` decides admission inside one statement and works out
the reason of a refusal afterwards, from the columns the statement
returns. `insertOutputInbox_eq` is the two together, once the fence is
live, the sequence next and no terminal there. They are complementary
except in one place: under a cancel, a CANCELLED index result is not
admitted, since the statement admits a CANCELLED runtime failure only,
and is not reported as refused by the cancel either, since the
classification counts it among the cancellations. What is none of the
three the callers take for a stale fence (`stale_answer`).
-/
import Elitea.Executions.Proofs.Settlement

namespace Elitea.Executions

open Elitea.Lib

variable {gap : Nat} {data : BrowserData}

/-- The record's claim, unreleased and unexpired at both looks, with the
scope and watermark the record carries. -/
structure LiveFence (t : Tables) (lockedAt now : Nat) (r : OutputRecord) :
    Prop where
  scope : t.job.scope = r.scope
  claim : ∃ c ∈ t.claims, c.fence = r.fence
    ∧ c.initialOutputWatermark = r.claimHandoffWatermark
    ∧ c.released = none ∧ lockedAt < c.leaseExpiresAt
    ∧ now < c.leaseExpiresAt

/-- The record's sequence is the next one and its event id unused. -/
structure NextTerminal (t : Tables) (r : OutputRecord) : Prop where
  sequence : r.sequence = t.lastNodeSequence + 1
  events : ∀ e ∈ t.events, e.eventId ≠ r.eventId
  last : ∀ node ∈ t.replayState.lastNode, node.eventId ≠ r.eventId

instance (t : Tables) (lockedAt now : Nat) (r : OutputRecord) :
    Decidable (LiveFence t lockedAt now r) :=
  decidable_of_iff (t.job.scope = r.scope
    ∧ ∃ c ∈ t.claims, c.fence = r.fence
      ∧ c.initialOutputWatermark = r.claimHandoffWatermark
      ∧ c.released = none ∧ lockedAt < c.leaseExpiresAt
      ∧ now < c.leaseExpiresAt)
    ⟨fun h => ⟨h.1, h.2⟩, fun h => ⟨h.scope, h.claim⟩⟩

instance (t : Tables) (r : OutputRecord) : Decidable (NextTerminal t r) :=
  decidable_of_iff (r.sequence = t.lastNodeSequence + 1
    ∧ (∀ e ∈ t.events, e.eventId ≠ r.eventId)
    ∧ ∀ node ∈ t.replayState.lastNode, node.eventId ≠ r.eventId)
    ⟨fun h => ⟨h.1, h.2.1, h.2.2⟩, fun h => ⟨h.sequence, h.events, h.last⟩⟩

/-- The answer that is asked for. -/
structure Definite (t : Tables) (now : Nat) (r : OutputRecord)
    (result : OutputInsertResult) : Prop where
  some : result.inserted = true ∨ result.cancellationRejected = true
    ∨ result.deadlineRejected = true
  running : t.job.desired = .running → now < t.outbox.deadline →
    result.inserted = true
  cancelled : t.job.desired = .cancelled →
    (result.inserted = true ↔ isCancellation r = true)
      ∧ (isCancellation r = false → result.cancellationRejected = true)

section Insert

variable {t : Tables} {lockedAt now : Nat} {r : OutputRecord}

theorem LiveFence.authority (h : LiveFence t lockedAt now r)
    (hok : ClaimsOk t) (hinv : SettleInv t) :
    outputAuthority t lockedAt r.scope r.fence r.claimHandoffWatermark
        = true
      ∧ outputAuthority t now r.scope r.fence r.claimHandoffWatermark
        = true := by
  obtain ⟨c, hc, hf, hw, hr, hl, hn⟩ := h.claim
  have hcmd := hinv.command fun he => absurd hc (he ▸ List.not_mem_nil)
  constructor <;>
    simp [outputAuthority, h.scope, hok.claim_eq hc hf, hw, hr, hl, hn,
      hcmd.unretired, hcmd.authority]

theorem NextTerminal.follows {policy : RetentionPolicy}
    {log : List ReplayEvent} (h : NextTerminal t r)
    (hlog : LogInv policy t log) : sequenceConflict t r = false := by
  refine sequenceConflict_eq_false.2 ⟨h.events, h.last, fun hgt => ?_⟩
  have hseq := h.sequence
  rw [lastNodeSequence_eq] at hseq
  -- a sequence above one follows a node event, which the state row names
  cases hn : t.replayState.lastNode with
  | none =>
      rw [hlog.last_none.1 hn] at hseq
      omega
  | some node =>
      have hid := (hlog.lastId hn).1
      unfold previousSequence
      unfold Tables.replayState at hn hid hseq
      cases hrow : t.replay with
      | none => rw [hrow] at hn; cases hn
      | some s =>
          rw [hrow] at hn hid hseq
          dsimp only [Option.getD_some] at hn hid hseq ⊢
          rw [hn, hseq, Option.any_some, hid]
          simp only [beq_self_eq_true, Bool.and_self]

/-- The insert of a valid record that has authority and no conflict. -/
theorem insertOutputInbox_eq (hvalid : r.validate = true)
    (hauth : outputAuthority t lockedAt r.scope r.fence
          r.claimHandoffWatermark = true
        ∧ outputAuthority t now r.scope r.fence r.claimHandoffWatermark
          = true)
    (hin : t.inbox = []) (hseq : sequenceConflict t r = false) :
    insertOutputInbox t lockedAt now r
      = if admissible t now r = true then
          .ok (⟨true, false, false⟩,
            { t with inbox := t.inbox ++ [⟨r, false⟩] })
        else .ok (⟨false,
          t.job.desired == .cancelled && !isCancellation r,
          t.job.desired == .running && decide (t.outbox.deadline ≤ now)
            && !isCanonicalDeadlineOutput r⟩, t) := by
  have hconf : conflictingOutput t r = false := by
    unfold conflictingOutput
    rw [hin]
    rfl
  unfold insertOutputInbox
  dsimp only
  simp only [hvalid, hauth.1, hauth.2, hconf, hseq, Bool.not_true,
    Bool.not_false, Bool.true_and, Bool.and_true, Bool.false_eq_true,
    if_false]

/-- A CANCELLED index result under a cancel. -/
def CancelledIndexResult (t : Tables) (r : OutputRecord) : Prop :=
  t.job.desired = .cancelled ∧ r.payloadType = .indexIngestResult
    ∧ r.settlementOutcome = .cancelled

theorem admissible_running (hd : t.job.desired = .running) :
    admissible t now r = true
      ↔ now < t.outbox.deadline ∨ isCanonicalDeadlineOutput r = true := by
  simp [admissible, hd]

theorem admissible_cancelled (hd : t.job.desired = .cancelled) :
    admissible t now r = true
      ↔ r.payloadType = .runtimeFailure
        ∧ r.settlementOutcome = .cancelled := by
  simp [admissible, hd]

theorem isCancellation_iff :
    isCancellation r = true ↔ r.settlementOutcome = .cancelled
      ∧ (r.payloadType = .runtimeFailure
        ∨ r.payloadType = .indexIngestResult) := by
  simp [isCancellation]

/-- The answer is the one asked for exactly if the record is no CANCELLED
index result under a cancel. -/
theorem insert_definite (hvalid : r.validate = true)
    (hauth : outputAuthority t lockedAt r.scope r.fence
          r.claimHandoffWatermark = true
        ∧ outputAuthority t now r.scope r.fence r.claimHandoffWatermark
          = true)
    (hin : t.inbox = []) (hseq : sequenceConflict t r = false)
    (hdes : t.job.desired = .running ∨ t.job.desired = .cancelled) :
    (∃ result t', insertOutputInbox t lockedAt now r = .ok (result, t')
        ∧ Definite t now r result) ↔ ¬ CancelledIndexResult t r := by
  rw [insertOutputInbox_eq hvalid hauth hin hseq]
  rcases hdes with hd | hd
  · refine ⟨fun _ hc => ?_, fun _ => ?_⟩
    · cases hd.symm.trans hc.1
    · by_cases hadm : admissible t now r = true
      · rw [if_pos hadm]
        refine ⟨_, _, rfl, .inl rfl, fun _ _ => rfl, fun hc => ?_⟩
        cases hd.symm.trans hc
      · rw [if_neg hadm]
        rw [admissible_running hd, not_or, Nat.not_lt,
          Bool.not_eq_true] at hadm
        refine ⟨_, _, rfl, .inr (.inr ?_), fun _ hlt => ?_, fun hc => ?_⟩
        · simp [hd, hadm]
        · exact absurd hlt (Nat.not_lt_of_le hadm.1)
        · cases hd.symm.trans hc
  · by_cases hadm : admissible t now r = true
    · rw [if_pos hadm]
      have hr := (admissible_cancelled hd).1 hadm
      refine ⟨fun _ hc => ?_, fun _ => ⟨_, _, rfl, .inl rfl,
        fun hc => ?_, fun _ => ?_⟩⟩
      · cases hr.1.symm.trans hc.2.1
      · cases hd.symm.trans hc
      · have hcan := isCancellation_iff.2 ⟨hr.2, .inl hr.1⟩
        exact ⟨⟨fun _ => hcan, fun _ => rfl⟩, fun hf => by
          rw [hcan] at hf
          cases hf⟩
    · rw [if_neg hadm]
      rw [admissible_cancelled hd] at hadm
      by_cases hcan : isCancellation r = true
      · -- refused, and not reported: the one hole
        have hidx : CancelledIndexResult t r := by
          obtain ⟨ho, hp⟩ := isCancellation_iff.1 hcan
          exact ⟨hd, hp.resolve_left fun hrt => hadm ⟨hrt, ho⟩, ho⟩
        refine ⟨?_, fun hn => absurd hidx hn⟩
        rintro ⟨result, t', he, hdef⟩
        obtain ⟨rfl, -⟩ := Prod.mk.inj (Except.ok.inj he)
        exact absurd (((hdef.cancelled hd).1).2 hcan) Bool.false_ne_true
      · refine ⟨fun _ hc => hcan (isCancellation_iff.2
          ⟨hc.2.2, .inr hc.2.1⟩), fun _ => ⟨_, _, rfl, .inr (.inl ?_),
          fun hc => ?_, fun _ => ⟨⟨nofun, fun hc => absurd hc hcan⟩,
            fun _ => ?_⟩⟩⟩
        · simp [hd, hcan]
        · cases hd.symm.trans hc
        · simp [hd, hcan]

theorem loadExistingOutput_empty (hin : t.inbox = []) :
    loadExistingOutput t r = .ok none := by
  unfold loadExistingOutput
  rw [hin]
  rfl

theorem projectInserted_ne_stale :
    projectInserted t now gap r data ≠ .error .staleFence := by
  unfold projectInserted
  split
  · exact nofun
  · split
    · exact nofun
    · exact nofun

theorem insertOutputInbox_ne_stale :
    insertOutputInbox t lockedAt now r ≠ .error .staleFence := by
  unfold insertOutputInbox
  dsimp only
  split
  · exact nofun
  · split
    · exact nofun
    · split
      · exact nofun
      · split
        · exact nofun
        · exact nofun

/-- Under a cancel, the canonical cancellation of a record that may be
inserted is inserted. -/
theorem materialize_ne_stale
    (hauth : outputAuthority t lockedAt r.scope r.fence
          r.claimHandoffWatermark = true
        ∧ outputAuthority t now r.scope r.fence r.claimHandoffWatermark
          = true) (hin : t.inbox = []) (hseq : sequenceConflict t r = false)
    (hd : t.job.desired = .cancelled) :
    materializeCanonicalCancellation t lockedAt now gap r data
      ≠ .error .staleFence := by
  intro h
  rcases bind_eq_error.1 h with hc | ⟨cancelled, hc, h₁⟩
  · unfold canonicalCancellationOutput at hc
    split at hc
    all_goals cases hc
  rcases bind_eq_error.1 h₁ with hi | ⟨⟨result, t'⟩, hi, h₂⟩
  · exact insertOutputInbox_ne_stale hi
  -- the cancellation has the identity of the record, so what let the
  -- record in lets it in
  have hinserted : result.inserted = true := by
    unfold canonicalCancellationOutput at hc
    split at hc
    next => cases hc
    next =>
      obtain rfl := Except.ok.inj hc
      cases hv : OutputRecord.validate _ with
      | false =>
          unfold insertOutputInbox at hi
          dsimp only at hi
          rw [hv] at hi
          cases hi
      | true =>
          rw [insertOutputInbox_eq hv hauth hin hseq,
            if_pos ((admissible_cancelled hd).2 ⟨rfl, rfl⟩)] at hi
          obtain ⟨rfl, -⟩ := Prod.mk.inj (Except.ok.inj hi)
          rfl
  dsimp only at h₂
  rw [if_pos hinserted] at h₂
  rcases bind_eq_error.1 h₂ with hp | ⟨u, -, hp⟩
  · exact projectInserted_ne_stale hp
  · cases hp

/-- A terminal whose refusal under a cancel is answered with a stale
fence: a CANCELLED index result, or one the projections do not turn into
the canonical cancellation. -/
def Misreported (t : Tables) (r : OutputRecord) : Prop :=
  t.job.desired = .cancelled
    ∧ ((r.payloadType = .indexIngestResult
        ∧ r.settlementOutcome = .cancelled)
      ∨ r.payloadType.cancelsCanonically = false)

/-- A payload that is never cancelled canonically settles with no
cancellation. -/
theorem not_cancelled_of_inboxOnly (hvalid : r.validate = true)
    (hp : r.payloadType.cancelsCanonically = false) :
    r.settlementOutcome ≠ .cancelled
      ∧ r.payloadType ≠ .runtimeFailure := by
  have hs : r.payloadType.settlesWith r.settlementOutcome = true := by
    simp only [OutputRecord.validate, Bool.and_eq_true] at hvalid
    exact hvalid.1.1.2
  constructor
  · intro ho
    rw [ho] at hs
    cases hpt : r.payloadType
    all_goals rw [hpt] at hs hp
    all_goals first | exact absurd hp (by decide)
                    | exact absurd hs (by decide)
  · intro hpt
    rw [hpt] at hp
    exact absurd hp (by decide)

/-- The answer of a stale fence to a terminal whose fence is live. -/
theorem stale_answer (hvalid : r.validate = true)
    (hauth : outputAuthority t lockedAt r.scope r.fence
          r.claimHandoffWatermark = true
        ∧ outputAuthority t now r.scope r.fence r.claimHandoffWatermark
          = true) (hin : t.inbox = []) (hseq : sequenceConflict t r = false)
    (hdes : t.job.desired = .running ∨ t.job.desired = .cancelled) :
    projectNewTerminal t lockedAt now gap r data = .error .staleFence
      ↔ Misreported t r := by
  unfold projectNewTerminal
  rw [insertOutputInbox_eq hvalid hauth hin hseq]
  by_cases hadm : admissible t now r = true
  · rw [if_pos hadm, ok_bind]
    dsimp only
    rw [if_pos rfl]
    constructor
    · intro h
      rcases bind_eq_error.1 h with hp | ⟨u, -, hp⟩
      · exact absurd hp projectInserted_ne_stale
      · cases hp
    · rintro ⟨hd, hm⟩
      obtain ⟨hp, ho⟩ := (admissible_cancelled hd).1 hadm
      rcases hm with hm | hm
      · cases hp.symm.trans hm.1
      · exact absurd hp (not_cancelled_of_inboxOnly hvalid hm).2
  · rw [if_neg hadm, ok_bind]
    dsimp only
    rw [if_neg Bool.false_ne_true, loadExistingOutput_empty hin, ok_bind]
    dsimp only
    rcases hdes with hd | hd
    · -- past the deadline: the refusal is reported
      rw [admissible_running hd, not_or, Nat.not_lt,
        Bool.not_eq_true] at hadm
      simp only [hd, hadm]
      exact ⟨nofun, fun hm => by cases hd.symm.trans hm.1⟩
    · rw [admissible_cancelled hd] at hadm
      by_cases hcan : isCancellation r = true
      · obtain ⟨ho, hp⟩ := isCancellation_iff.1 hcan
        simp only [hd, hcan]
        exact ⟨fun _ => ⟨hd, .inl ⟨hp.resolve_left fun hrt =>
          hadm ⟨hrt, ho⟩, ho⟩⟩, fun _ => rfl⟩
      · rw [Bool.not_eq_true] at hcan
        simp only [hd, hcan]
        cases hp : r.payloadType.cancelsCanonically with
        | true =>
            refine ⟨fun h => absurd h
              (materialize_ne_stale hauth hin hseq hd), fun hm => ?_⟩
            rcases hm.2 with hm | hm
            · rw [isCancellation_iff.2 ⟨hm.2, .inr hm.1⟩] at hcan
              cases hcan
            · rw [hp] at hm
              cases hm
        | false => exact ⟨fun _ => ⟨hd, .inr hp⟩, fun _ => rfl⟩

/-- The record gets one of the three answers, the right one, and no
caller takes a refusal for a stale fence. -/
def Answered (t : Tables) (lockedAt now : Nat) (r : OutputRecord) : Prop :=
  (∃ result t', insertOutputInbox t lockedAt now r = .ok (result, t')
      ∧ Definite t now r result)
    ∧ ∀ gap data, projectNewTerminal t lockedAt now gap r data
      ≠ .error .staleFence

end Insert

/-- In every state of every run, for every valid record under a live
fence, next in sequence, with no terminal there: the answer is as asked
for exactly if the record is not one of those a cancel misreports. -/
theorem definite_iff {cfg : Config} {s : State} (scope : Scope)
    (capability : Capability) (prepared : Option Digest)
    (deadline clock : Nat) (labels : List Label)
    (hrun : run (step cfg) (start scope capability prepared deadline clock)
      labels = some s)
    {lockedAt now : Nat} {r : OutputRecord} (hvalid : r.validate = true)
    (hdes : s.world.tables.job.desired = .running
      ∨ s.world.tables.job.desired = .cancelled)
    (hlive : LiveFence s.world.tables lockedAt now r)
    (hnext : NextTerminal s.world.tables r)
    (hin : s.world.tables.inbox = []) :
    Answered s.world.tables lockedAt now r
      ↔ ¬ Misreported s.world.tables r := by
  obtain ⟨hsound, hinv⟩ := (settling_run hrun).throughout.now
  have hauth := hlive.authority hsound.claims hinv
  have hseq := hnext.follows hsound.log
  constructor
  · intro h hm
    exact h.2 0 ⟨.progress, []⟩
      ((stale_answer hvalid hauth hin hseq hdes).2 hm)
  · intro hm
    refine ⟨(insert_definite hvalid hauth hin hseq hdes).2 fun hc =>
      hm ⟨hc.1, .inl hc.2⟩, fun gap data he => ?_⟩
    exact hm ((stale_answer hvalid hauth hin hseq hdes).1 he)

-- ============================================================ a sample cancel

/-- The sample command is claimed and then cancelled. -/
def sampleCancelled : List Label :=
  sampleClaimed .indexIngest ++ alone (.changeDesired .cancelled) [.job] 0

/-- The sample worker's index result that reports the cancellation. -/
def sampleCancelledIndex : OutputRecord :=
  let wire : WireProposal := ⟨"proposal", .cancelled, "output",
    .output 1, 1, [2], "key"⟩
  ⟨.output 1, "output", sampleScope, sampleFence 1, "stream", 1, 0,
    .indexIngestResult, [2], [2], "proposal", .cancelled, wire, some wire,
    "key", some 0⟩

/-- A FAILED runtime failure under the cancel is answered definitely. -/
theorem definite_iff_failure :
    ∃ s, run (step sampleConfig) (sampleStart .indexIngest)
        sampleCancelled = some s
      ∧ s.world.tables.job.desired = .cancelled
      ∧ Answered s.world.tables 0 0 (sampleFailure 1) := by
  have evaluated : (run (step sampleConfig) (sampleStart .indexIngest)
      sampleCancelled).map (fun s => decide
        (s.world.tables.job.desired = .cancelled
          ∧ LiveFence s.world.tables 0 0 (sampleFailure 1)
          ∧ NextTerminal s.world.tables (sampleFailure 1)
          ∧ s.world.tables.inbox = [])) = some true := by
    decide +kernel
  obtain ⟨s, hs, he⟩ := Option.map_eq_some_iff.1 evaluated
  obtain ⟨hd, hlive, hnext, hin⟩ := of_decide_eq_true he
  have h := definite_iff sampleScope .indexIngest (some [1]) 1000000 0
    sampleCancelled hs (by decide +kernel) (.inr hd) hlive hnext hin
  refine ⟨s, hs, hd, h.2 ?_⟩
  rintro ⟨-, hm | hm⟩
  · exact absurd hm.1 (by decide)
  · exact absurd hm (by decide)

/-- The CANCELLED index result under the cancel, its fence live, is
neither inserted nor reported, and answered with a stale fence. -/
theorem cancelled_index_stale :
    ∃ s, run (step sampleConfig) (sampleStart .indexIngest)
        sampleCancelled = some s
      ∧ sampleCancelledIndex.validate = true
      ∧ s.world.tables.job.desired = .cancelled
      ∧ LiveFence s.world.tables 0 0 sampleCancelledIndex
      ∧ NextTerminal s.world.tables sampleCancelledIndex
      ∧ s.world.tables.inbox = []
      ∧ (insertOutputInbox s.world.tables 0 0 sampleCancelledIndex).map
          (·.1) = .ok ⟨false, false, false⟩
      ∧ (projectNewTerminal s.world.tables 0 0 0 sampleCancelledIndex
          ⟨.progress, [2]⟩).map (·.1) = .error .staleFence := by
  have evaluated : (run (step sampleConfig) (sampleStart .indexIngest)
      sampleCancelled).map (fun s => decide
        (sampleCancelledIndex.validate = true
          ∧ s.world.tables.job.desired = .cancelled
          ∧ LiveFence s.world.tables 0 0 sampleCancelledIndex
          ∧ NextTerminal s.world.tables sampleCancelledIndex
          ∧ s.world.tables.inbox = []
          ∧ (insertOutputInbox s.world.tables 0 0
              sampleCancelledIndex).map (·.1) = .ok ⟨false, false, false⟩
          ∧ (projectNewTerminal s.world.tables 0 0 0 sampleCancelledIndex
              ⟨.progress, [2]⟩).map (·.1) = .error .staleFence))
      = some true := by
    decide +kernel
  obtain ⟨s, hs, he⟩ := Option.map_eq_some_iff.1 evaluated
  exact ⟨s, hs, of_decide_eq_true he⟩

end Elitea.Executions
