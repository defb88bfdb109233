/-
What a terminal projection, a node event and a janitor pass do to the
tables.

# Terminals

A terminal either changes nothing or inserts exactly one row, its own or
the canonical cancellation in its place (`TerminalEffect`). Everything
that is asked of the inserted row is in that one structure.

# Node events

A node event changes nothing, creates the state row or is appended
(`NodeEffect`). The append statement deletes what the retention bounds
leave no room for, also when the frame's event id is taken and nothing is
inserted.
-/
import Elitea.Lib.Fallible
import Elitea.Executions.System

namespace Elitea.Executions

open Elitea.Lib

variable {t t' : Tables} {gap lockedAt now : Nat} {r : OutputRecord}
  {o : NodeEventOutcome} {data : BrowserData} {f : NodeEventFrame}
  {policy : RetentionPolicy}

/-- The call left the job, the outbox row, the claims and the settlement
alone. -/
structure SameAuthority (t t' : Tables) : Prop where
  job : t'.job = t.job
  outbox : t'.outbox = t.outbox
  claims : t'.claims = t.claims
  settlement : t'.settlement = t.settlement

theorem SameAuthority.refl (t : Tables) : SameAuthority t t :=
  ⟨rfl, rfl, rfl, rfl⟩

-- ======================================================== terminal inserts

/-- What an inserted terminal met. -/
structure Admission (t : Tables) (lockedAt now : Nat) (r : OutputRecord) :
    Prop where
  valid : r.validate = true
  locked : outputAuthority t lockedAt r.scope r.fence
    r.claimHandoffWatermark = true
  authority : outputAuthority t now r.scope r.fence
    r.claimHandoffWatermark = true
  admissible : admissible t now r = true
  noOutput : conflictingOutput t r = false
  follows : sequenceConflict t r = false

/-- The insert of a terminal, opened. -/
theorem insertOutputInbox_ok {result : OutputInsertResult}
    (h : insertOutputInbox t lockedAt now r = .ok (result, t')) :
    (result.inserted = true ∧ Admission t lockedAt now r
        ∧ t' = { t with inbox := t.inbox ++ [⟨r, false⟩] })
      ∨ (result.inserted = false ∧ t' = t) := by
  obtain ⟨hv, h⟩ := ite_error_eq_ok.1 h
  split at h
  next =>
    cases h
    exact .inr ⟨rfl, rfl⟩
  next hl =>
    split at h
    next hc =>
      cases h
      simp only [Bool.and_eq_true, Bool.not_eq_true'] at hc
      refine .inl ⟨rfl, ⟨?_, ?_, hc.1.1.1, hc.1.1.2, hc.1.2, hc.2⟩, rfl⟩
      · simpa only [Bool.not_eq_true', Bool.not_eq_false] using hv
      · simpa only [Bool.not_eq_true', Bool.not_eq_false] using hl
    next =>
      obtain ⟨-, h⟩ := ite_error_eq_ok.1 h
      cases h
      exact .inr ⟨rfl, rfl⟩

/-- A terminal that was inserted and projected. -/
structure Projected (t : Tables) (lockedAt now gap : Nat) (r : OutputRecord)
    (data : BrowserData) (t' : Tables) : Prop where
  admission : Admission t lockedAt now r
  tables : projectInserted { t with inbox := t.inbox ++ [⟨r, false⟩] }
    now gap r data = .ok t'

/-- What a terminal does: nothing, or one insert, of itself or of its
canonical cancellation. -/
def TerminalEffect (t : Tables) (lockedAt now gap : Nat) (r : OutputRecord)
    (data : BrowserData) (t' : Tables) : Prop :=
  t' = t ∨ ∃ r', (r' = r ∨ canonicalCancellationOutput r = .ok r')
    ∧ Projected t lockedAt now gap r' data t'

theorem materializeCanonicalCancellation_ok {o : TerminalOutcome}
    (h : materializeCanonicalCancellation t lockedAt now gap r data
      = .ok (o, t')) : TerminalEffect t lockedAt now gap r data t' := by
  obtain ⟨cancelled, hc, h₁⟩ := bind_eq_ok.1 h
  obtain ⟨⟨result, u⟩, hi, h₂⟩ := bind_eq_ok.1 h₁
  dsimp only at h₂
  rcases insertOutputInbox_ok hi with ⟨hin, hadm, rfl⟩ | ⟨hin, rfl⟩
  · rw [if_pos hin] at h₂
    obtain ⟨v, hv, h₃⟩ := bind_eq_ok.1 h₂
    cases h₃
    exact .inr ⟨cancelled, .inr hc, hadm, hv⟩
  · rw [hin, if_neg (by decide)] at h₂
    obtain ⟨existing, -, h₃⟩ := bind_eq_ok.1 h₂
    split at h₃
    next => cases h₃
    next =>
      split at h₃ <;> cases h₃
      exact .inl rfl

theorem projectNewTerminal_ok {o : TerminalOutcome}
    (h : projectNewTerminal t lockedAt now gap r data = .ok (o, t')) :
    TerminalEffect t lockedAt now gap r data t' := by
  obtain ⟨⟨result, u⟩, hi, h₁⟩ := bind_eq_ok.1 h
  dsimp only at h₁
  rcases insertOutputInbox_ok hi with ⟨hin, hadm, rfl⟩ | ⟨hin, rfl⟩
  · rw [if_pos hin] at h₁
    obtain ⟨v, hv, h₂⟩ := bind_eq_ok.1 h₁
    cases h₂
    exact .inr ⟨r, .inl rfl, hadm, hv⟩
  · rw [hin, if_neg (by decide)] at h₁
    obtain ⟨existing, -, h₂⟩ := bind_eq_ok.1 h₁
    split at h₂
    next =>
      obtain ⟨o', -, h₃⟩ := bind_eq_ok.1 h₂
      cases h₃
      exact .inl rfl
    next =>
      split at h₂
      next => exact materializeCanonicalCancellation_ok h₂
      next => split at h₂ <;> cases h₂

/-- A terminal projection, opened. -/
theorem projectTerminal_ok {seen : Tables} {logical : String}
    {o : TerminalOutcome}
    (h : projectTerminal seen t lockedAt now gap logical r data = .ok (o, t'))
    : canonicalTerminal logical r = true
      ∧ (r.payloadType = .agentExecutionResult → agentTerminal t r = true)
      ∧ TerminalEffect t lockedAt now gap r data t' := by
  obtain ⟨hv, h⟩ := ite_error_eq_ok.1 h
  obtain ⟨ha, h⟩ := ite_error_eq_ok.1 h
  simp only [Bool.or_eq_true, Bool.not_eq_true', not_or,
    Bool.not_eq_false] at hv
  simp only [Bool.and_eq_true, beq_iff_eq, Bool.not_eq_true', not_and,
    Bool.not_eq_false] at ha
  refine ⟨hv.2, ha, ?_⟩
  obtain ⟨existing, -, h⟩ := bind_eq_ok.1 h
  split at h
  next =>
    obtain ⟨o', -, h⟩ := bind_eq_ok.1 h
    cases h
    exact .inl rfl
  next => exact projectNewTerminal_ok h

theorem projectInserted_authority
    (h : projectInserted t now gap r data = .ok t') : SameAuthority t t' := by
  unfold projectInserted at h
  split at h
  next => cases h; exact ⟨rfl, rfl, rfl, rfl⟩
  next => split at h <;> cases h; exact ⟨rfl, rfl, rfl, rfl⟩

theorem TerminalEffect.authority
    (h : TerminalEffect t lockedAt now gap r data t') :
    SameAuthority t t' := by
  rcases h with rfl | ⟨r', -, hp⟩
  · exact SameAuthority.refl _
  · have := projectInserted_authority hp.tables
    exact ⟨this.job, this.outbox, this.claims, this.settlement⟩

-- ============================================================== node events

/-- The tables after an append: what the bounds leave no room for is
deleted, the event inserted, the state row updated. -/
def Tables.withNodeEvent (t : Tables) (policy : RetentionPolicy)
    (now gap : Nat) (f : NodeEventFrame) : Tables :=
  { (t.deleteEvents (overRetention policy t now f.data.size)).appendEvent
      now gap f.eventId .nodeEvent f.data with
    replay := some ((t.replay.getD .initial).appended f (t.nextCursor + gap)
      (t.events.filter (overRetention policy t now f.data.size))) }

/-- What a frame that reaches the append statement met. -/
structure NextFrame (policy : RetentionPolicy) (t : Tables)
    (f : NodeEventFrame) : Prop where
  next : f.sequence = (t.replay.getD .initial).lastNodeSequence + 1
  fits : f.data.size ≤ policy.maxProgressBytes
  storable : f.data.storable = true
  noOutput : t.inbox = []

/-- What `ProjectNodeEvent` does: nothing, nothing but create the state
row, or the append. The last case is the append statement of a frame
whose event id is taken, which deletes and inserts nothing. -/
inductive NodeEffect (policy : RetentionPolicy) (t : Tables) (now gap : Nat)
    (f : NodeEventFrame) (o : NodeEventOutcome) (t' : Tables) : Prop where
  | kept (h : t' = t)
  | created (h : t' = { t with replay := some (t.replay.getD .initial) })
  | appended (frame : NextFrame policy t f)
      (h : t' = t.withNodeEvent policy now gap f)
      (ho : o = .inserted (t.nextCursor + gap))
  | taken (frame : NextFrame policy t f)
      (used : ∃ e ∈ t.events, e.eventId = f.eventId)
      (h : t' = { t.deleteEvents (overRetention policy t now f.data.size)
        with replay := some (t.replay.getD .initial) })

theorem classified_ok {r : Except Failure NodeEventOutcome}
    (h : r.map (fun o' => (o', t)) = .ok (o, t')) : t' = t := by
  cases r with
  | error e => cases h
  | ok o' => exact (Prod.mk.inj (Except.ok.inj h)).2.symm

/-- A refused append leaves the tables as they are. -/
theorem refuseAppend_ok (h : refuseAppend t now f = .ok (o, t')) : t' = t := by
  unfold refuseAppend at h
  split at h
  next => exact classified_ok h
  next =>
    repeat' split at h
    all_goals cases h

/-- The append statement, opened. -/
theorem appendNodeEvent_ok (hframe : t.inbox = [] → NextFrame policy t f)
    (h : appendNodeEvent policy
      { t with replay := some (t.replay.getD .initial) } now gap
      (t.replay.getD .initial) f = .ok (o, t')) :
    NodeEffect policy t now gap f o t' := by
  unfold appendNodeEvent at h
  dsimp only at h
  split at h
  next hc =>
    simp only [Bool.and_eq_true, List.isEmpty_iff] at hc
    split at h
    next hany =>
      obtain ⟨e, he, hid⟩ := List.any_eq_true.1 hany
      exact .taken (hframe hc.2) ⟨e, he, beq_iff_eq.1 hid⟩
        (refuseAppend_ok h)
    next =>
      cases h
      exact .appended (hframe hc.2) rfl rfl
  next => exact .created (refuseAppend_ok h)

/-- The part of `ProjectNodeEvent` under the locks, opened. -/
theorem projectNewNodeEvent_ok (hfits : f.data.size ≤ policy.maxProgressBytes)
    (hstorable : f.data.storable = true)
    (h : projectNewNodeEvent policy t lockedAt now gap f = .ok (o, t')) :
    NodeEffect policy t now gap f o t' := by
  obtain ⟨-, h⟩ := ite_error_eq_ok.1 h
  obtain ⟨-, h⟩ := ite_error_eq_ok.1 h
  split at h
  next =>
    split at h
    next => cases h
    next =>
      split at h <;> cases h
      exact .created rfl
  next =>
    obtain ⟨hnext, h⟩ := ite_error_eq_ok.1 h
    exact appendNodeEvent_ok (fun hin =>
      ⟨Decidable.not_not.1 hnext, hfits, hstorable, hin⟩) h

/-- `ProjectNodeEvent`, opened. -/
theorem projectNodeEvent_ok {seen : Tables}
    (h : projectNodeEvent policy seen t lockedAt now gap f = .ok (o, t')) :
    NodeEffect policy t now gap f o t' := by
  obtain ⟨hv, h⟩ := ite_error_eq_ok.1 h
  simp only [Bool.or_eq_true, Bool.not_eq_true', not_or, Bool.not_eq_false,
    decide_eq_true_eq, Nat.not_lt, NodeEventFrame.validate,
    Bool.and_eq_true, List.isEmpty_eq_false_iff] at hv
  obtain ⟨⟨⟨-, hne⟩, hsize⟩, hfits⟩ := hv
  split at h
  next => exact .kept (classified_ok h)
  next =>
    refine projectNewNodeEvent_ok hfits ?_ h
    unfold BrowserData.storable
    rw [Bool.and_eq_true, bne_iff_ne, decide_eq_true_eq]
    exact ⟨fun h0 => hne (List.length_eq_zero_iff.1 h0), hsize⟩

/-- A node event touches the log only. -/
theorem NodeEffect.authority (h : NodeEffect policy t now gap f o t') :
    SameAuthority t t' ∧ t'.inbox = t.inbox := by
  cases h with
  | kept h => cases h; exact ⟨SameAuthority.refl _, rfl⟩
  | created h => cases h; exact ⟨⟨rfl, rfl, rfl, rfl⟩, rfl⟩
  | appended _ h _ => cases h; exact ⟨⟨rfl, rfl, rfl, rfl⟩, rfl⟩
  | taken _ _ h => cases h; exact ⟨⟨rfl, rfl, rfl, rfl⟩, rfl⟩

/-- So does a janitor pass. -/
theorem pruneExpiredReplayProgress_authority {n : Nat}
    (h : pruneExpiredReplayProgress policy t now = .ok (n, t')) :
    SameAuthority t t' ∧ t'.inbox = t.inbox := by
  unfold pruneExpiredReplayProgress at h
  split at h
  next => cases h
  next =>
    obtain ⟨-, h⟩ := ite_error_eq_ok.1 h
    cases h
    exact ⟨⟨rfl, rfl, rfl, rfl⟩, rfl⟩

end Elitea.Executions
