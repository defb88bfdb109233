/-
When recovery does not under-count, and the two ways it does.

# Nothing billed is forgotten

`BookInv` follows a billed delta from its call to the row: it is in a
call, in the stream, in a persist, in the row, or its persist failed.
In a quiescent fleet only the row is left.

# Two orders that under-count

- An event is applied by the consumer although its increment failed,
  before the gateway's outage write of the same event. The row has the
  event and is not outage-owned; the outage write then finds the event
  claimed and does nothing, and no recovery pass ever looks
  (`appliedFirst`).
- An event on the counter has not reached the row when a recovery pass
  reads the counter. It hides as much debt as it costs (`readTooEarly`).

`CountedStep` excludes those two, and a coalesced sum that overflows
int64. Under it the counter of every quiescent state is at least the
billed spend.
-/
import Elitea.Budget.Proofs.Accounting
import Mathlib.Algebra.Order.BigOperators.Group.List

namespace Elitea.Budget

open Lib

variable {bill : String → DeltaKey × Int64} {s s' : Fleet} {i : Nat}
  {d : BudgetDelta} {how : Outcome}

-- ========================================================= the bookkeeping

/-- A billed delta will reach the row, or has, or its persist failed. -/
def Handled (s : Fleet) (d : BudgetDelta) : Prop :=
  d ∈ s.nats.stream ∨ (∃ p ∈ s.persists, p.delta = d) ∨ d ∈ s.failed
    ∨ d.eventID ∈ s.tables.processed

/-- Every billed delta is in a call or handled, and a direct write that
claims to be of a counted event is. -/
structure BookInv (bill : String → DeltaKey × Int64) (s : Fleet) : Prop where
  named : ∀ d ∈ s.billed, d.Named bill
  calls : ∀ c ∈ s.calls, c.delta ∈ s.billed
  persists : ∀ p ∈ s.persists, p.delta ∈ s.billed
  stream : ∀ d ∈ s.nats.stream, d ∈ s.billed
  counted : ∀ c ∈ s.calls, c.phase = .publish true →
    .event c.delta.eventID ∈ s.nats.seen
  healthy : ∀ p ∈ s.persists, p.healthy = true →
    .event p.delta.eventID ∈ s.nats.seen
  failing : ∀ c ∈ s.calls, c.phase = .publish false → Handled s c.delta
  tracked : ∀ d ∈ s.billed, (∃ c ∈ s.calls, c.delta = d) ∨ Handled s d

theorem bookInv_start : BookInv bill .start where
  named d h := by cases h
  calls c h := by cases h
  persists p h := by cases h
  stream d h := by cases h
  counted c h := by cases h
  healthy p h := by cases h
  failing c h := by cases h
  tracked d h := by cases h

theorem Handled.mono (hstream : ∀ x ∈ s.nats.stream, x ∈ s'.nats.stream)
    (hpersists : ∀ p ∈ s.persists, p ∈ s'.persists ∨ Handled s' p.delta)
    (hfailed : ∀ x ∈ s.failed, x ∈ s'.failed)
    (hproc : ∀ id ∈ s.tables.processed, id ∈ s'.tables.processed)
    (hd : Handled s d) : Handled s' d := by
  rcases hd with hd | ⟨p, hp, rfl⟩ | hd | hd
  · exact .inl (hstream d hd)
  · rcases hpersists p hp with hp | hd
    · exact .inr (.inl ⟨p, hp, rfl⟩)
    · exact hd
  · exact .inr (.inr (.inl (hfailed d hd)))
  · exact .inr (.inr (.inr (hproc _ hd)))

/-- A step that bills nothing: what it adds to a list is of a billed
delta, and it loses none. -/
theorem BookInv.next (h : BookInv bill s) (hbilled : s'.billed = s.billed)
    (hcalls : ∀ c ∈ s'.calls, c ∈ s.calls ∨ (c.delta ∈ s.billed
      ∧ (c.phase = .publish true → .event c.delta.eventID ∈ s'.nats.seen)
      ∧ (c.phase = .publish false → Handled s' c.delta)))
    (hpersists : ∀ p ∈ s'.persists, p ∈ s.persists ∨ (p.delta ∈ s.billed
      ∧ (p.healthy = true → .event p.delta.eventID ∈ s'.nats.seen)))
    (hstream : ∀ x ∈ s'.nats.stream, x ∈ s.nats.stream ∨ x ∈ s.billed)
    (hseen : ∀ m ∈ s.nats.seen, m ∈ s'.nats.seen)
    (hhandled : ∀ x, Handled s x → Handled s' x)
    (hkept : ∀ c ∈ s.calls,
      (∃ c' ∈ s'.calls, c'.delta = c.delta) ∨ Handled s' c.delta) :
    BookInv bill s' where
  named := hbilled ▸ h.named
  calls c hc := hbilled ▸ (hcalls c hc).elim (h.calls c) fun hn => hn.1
  persists p hp := hbilled ▸ (hpersists p hp).elim (h.persists p) fun hn => hn.1
  stream x hx := hbilled ▸ (hstream x hx).elim (h.stream x) id
  counted c hc hph := (hcalls c hc).elim
    (fun hc => hseen _ (h.counted c hc hph)) fun hn => hn.2.1 hph
  healthy p hp hh := (hpersists p hp).elim
    (fun hp => hseen _ (h.healthy p hp hh)) fun hn => hn.2 hh
  failing c hc hph := (hcalls c hc).elim
    (fun hc => hhandled _ (h.failing c hc hph)) fun hn => hn.2.2 hph
  tracked x hx := by
    rw [hbilled] at hx
    rcases h.tracked x hx with ⟨c, hc, rfl⟩ | hx
    · exact hkept c hc
    · exact .inr (hhandled x hx)

/-- A step of the consumer or the recovery passes: the gateway's lists
stay, ids are only added. -/
theorem BookInv.of_sub (h : BookInv bill s) (hbilled : s'.billed = s.billed)
    (hcalls : s'.calls = s.calls) (hpersists : s'.persists = s.persists)
    (hfailed : s'.failed = s.failed) (hstream : s'.nats.stream = s.nats.stream)
    (hseen : ∀ m ∈ s.nats.seen, m ∈ s'.nats.seen)
    (hproc : ∀ id ∈ s.tables.processed, id ∈ s'.tables.processed) :
    BookInv bill s' := by
  refine h.next hbilled (fun c hc => .inl (hcalls ▸ hc))
    (fun p hp => .inl (hpersists ▸ hp)) (fun x hx => .inl (hstream ▸ hx))
    hseen (fun x => Handled.mono ?_ ?_ ?_ hproc)
    fun c hc => .inl ⟨c, hcalls ▸ hc, rfl⟩
  · exact fun x hx => hstream ▸ hx
  · exact fun p hp => .inl (hpersists ▸ hp)
  · exact fun x hx => hfailed ▸ hx

/-- Taking one element out of a list leaves the others. -/
theorem mem_or_mem_eraseIdx {α : Type} {l : List α} {a x : α}
    (hi : l[i]? = some a) (hx : x ∈ l) : x = a ∨ x ∈ l.eraseIdx i := by
  obtain ⟨hlt, rfl⟩ := List.getElem?_eq_some_iff.1 hi
  exact List.mem_cons.1 ((List.getElem_cons_eraseIdx_perm hlt).mem_iff.2 hx)

theorem incr_seen (n : Nats) (k : DeltaKey) (id : MsgID) (delta : Int) :
    id ∈ (n.incr k id delta).seen
      ∧ (∀ m ∈ n.seen, m ∈ (n.incr k id delta).seen)
      ∧ (n.incr k id delta).stream = n.stream := by
  unfold Nats.incr
  split
  case isTrue h => exact ⟨h, fun m hm => hm, rfl⟩
  case isFalse =>
    exact ⟨List.mem_cons_self, fun m hm => List.mem_cons_of_mem _ hm, rfl⟩

/-- The increment of a call, whatever becomes of it. -/
theorem incrBudgetIdempotent_seen (n : Nats) (how : Outcome) (k : DeltaKey)
    (id : MsgID) (delta : Int) :
    (how = .ok → id ∈ (n.incrBudgetIdempotent how k id delta).seen)
      ∧ (∀ m ∈ n.seen, m ∈ (n.incrBudgetIdempotent how k id delta).seen)
      ∧ (n.incrBudgetIdempotent how k id delta).stream = n.stream := by
  obtain ⟨hid, hmono, hstream⟩ := incr_seen n k id delta
  cases how with
  | ok => exact ⟨fun _ => hid, hmono, hstream⟩
  | unavailable => exact ⟨fun h => (by cases h), fun m hm => hm, rfl⟩
  | ackLost => exact ⟨fun h => (by cases h), hmono, hstream⟩

theorem BookInv.updateUsage (h : BookInv bill s) (hnamed : d.Named bill) :
    BookInv bill { s with
      calls := s.calls ++ [⟨d, .increment⟩], billed := d :: s.billed } := by
  have hcall : ∀ c ∈ s.calls ++ [⟨d, .increment⟩],
      c ∈ s.calls ∨ c = ⟨d, .increment⟩ := by
    intro c hc
    simpa using hc
  refine ⟨?_, ?_, ?_, ?_, ?_, h.healthy, ?_, ?_⟩
  · intro x hx
    rcases List.mem_cons.1 hx with rfl | hx
    · exact hnamed
    · exact h.named x hx
  · intro c hc
    rcases hcall c hc with hc | rfl
    · exact List.mem_cons_of_mem _ (h.calls c hc)
    · exact List.mem_cons_self
  · exact fun p hp => List.mem_cons_of_mem _ (h.persists p hp)
  · exact fun x hx => List.mem_cons_of_mem _ (h.stream x hx)
  · intro c hc hph
    rcases hcall c hc with hc | rfl
    · exact h.counted c hc hph
    · cases hph
  · intro c hc hph
    rcases hcall c hc with hc | rfl
    · exact h.failing c hc hph
    · cases hph
  · intro x hx
    rcases List.mem_cons.1 hx with rfl | hx
    · exact .inl ⟨_, List.mem_append_right _ (List.mem_singleton.2 rfl), rfl⟩
    · rcases h.tracked x hx with ⟨c, hc, rfl⟩ | hx
      · exact .inl ⟨c, List.mem_append_left _ hc, rfl⟩
      · exact .inr hx

/-- The increment of call `i`: what the code does with its result. -/
theorem BookInv.increment (h : BookInv bill s) (ok : Bool)
    (hi : s.calls[i]? = some ⟨d, .increment⟩)
    (hcalls : s'.calls = s.calls.set i ⟨d, .publish ok⟩)
    (hpersists : s'.persists
      = if ok then s.persists else s.persists ++ [⟨false, d⟩])
    (hbilled : s'.billed = s.billed) (hfailed : s'.failed = s.failed)
    (hstream : s'.nats.stream = s.nats.stream)
    (hproc : s'.tables.processed = s.tables.processed)
    (hok : ok = true → .event d.eventID ∈ s'.nats.seen)
    (hseen : ∀ m ∈ s.nats.seen, m ∈ s'.nats.seen) : BookInv bill s' := by
  have hd : d ∈ s.billed := h.calls _ (List.mem_of_getElem? hi)
  have hlt := (List.getElem?_eq_some_iff.1 hi).1
  refine h.next hbilled ?_ ?_ (fun x hx => .inl (hstream ▸ hx)) hseen
    (fun x => Handled.mono (fun x hx => hstream ▸ hx) (fun p hp => .inl ?_)
      (fun x hx => hfailed ▸ hx) fun id hid => hproc ▸ hid) ?_
  · intro c hc
    rw [hcalls] at hc
    rcases List.mem_or_eq_of_mem_set hc with hc | rfl
    · exact .inl hc
    · refine .inr ⟨hd, fun hph => hok (UsagePhase.publish.inj hph),
        fun hph => .inr (.inl ⟨⟨false, d⟩, ?_, rfl⟩)⟩
      rw [hpersists, UsagePhase.publish.inj hph]
      exact List.mem_append_right _ (List.mem_singleton.2 rfl)
  · intro p hp
    rw [hpersists] at hp
    split at hp
    case isTrue => exact .inl hp
    case isFalse =>
      refine (List.mem_append.1 hp).imp_right fun hp => ?_
      rw [List.mem_singleton.1 hp]
      exact ⟨hd, fun hh => by cases hh⟩
  · rw [hpersists]
    split
    case isTrue => exact hp
    case isFalse => exact List.mem_append_left _ hp
  · intro c hc
    rw [hcalls]
    rcases mem_or_mem_eraseIdx hi hc with rfl | hc
    · -- the call itself is still there, one phase on
      exact .inl ⟨_, List.mem_set hlt _, rfl⟩
    · exact .inl ⟨c, (List.set_perm_cons_eraseIdx hlt _).mem_iff.2
        (List.mem_cons_of_mem _ hc), rfl⟩

/-- The publish of call `i`, which returns: the delta is in the stream,
or a persist has it. -/
theorem BookInv.publish (h : BookInv bill s) {incrOk : Bool}
    (hi : s.calls[i]? = some ⟨d, .publish incrOk⟩)
    (hcalls : s'.calls = s.calls.eraseIdx i) (hpersists : s'.persists
      = if how ≠ .ok ∧ incrOk then s.persists ++ [⟨true, d⟩]
        else s.persists) (hbilled : s'.billed = s.billed)
    (hfailed : s'.failed = s.failed)
    (hnats : s'.nats = s.nats.publishDelta how d)
    (hproc : s'.tables.processed = s.tables.processed) : BookInv bill s' := by
  have hcin : (⟨d, .publish incrOk⟩ : UsageCall) ∈ s.calls :=
    List.mem_of_getElem? hi
  have hd : d ∈ s.billed := h.calls _ hcin
  have hseen : s'.nats.seen = s.nats.seen := by
    rw [hnats]
    cases how <;> rfl
  have hstream : ∀ x, x ∈ s'.nats.stream ↔ x ∈ s.nats.stream
      ∨ (how ≠ .unavailable ∧ x = d) := by
    intro x
    rw [hnats]
    cases how <;> simp [Nats.publishDelta, or_comm]
  have hhandled : ∀ x, Handled s x → Handled s' x := by
    refine fun x => Handled.mono (fun x hx => (hstream x).2 (.inl hx))
      (fun p hp => .inl ?_) (fun x hx => hfailed ▸ hx)
      fun id hid => hproc ▸ hid
    rw [hpersists]
    split
    case isTrue => exact List.mem_append_left _ hp
    case isFalse => exact hp
  refine h.next hbilled (fun c hc => ?_) ?_ (fun x hx => ?_)
    (fun m hm => hseen ▸ hm) hhandled ?_
  · rw [hcalls] at hc
    exact .inl (List.mem_of_mem_eraseIdx hc)
  · intro p hp
    rw [hpersists] at hp
    split at hp
    case isFalse => exact .inl hp
    case isTrue hcond =>
      refine (List.mem_append.1 hp).imp_right fun hp => ?_
      rw [List.mem_singleton.1 hp, hseen]
      exact ⟨hd, fun _ => h.counted _ hcin (congrArg _ hcond.2)⟩
  · rcases (hstream x).1 hx with hx | ⟨-, rfl⟩
    · exact .inl hx
    · exact .inr hd
  · intro c hc
    rw [hcalls]
    rcases mem_or_mem_eraseIdx hi hc with rfl | hc
    · right
      by_cases hhow : how = .unavailable
      · cases incrOk with
        | false => exact hhandled d (h.failing _ hcin rfl)
        | true =>
            refine .inr (.inl ⟨⟨true, d⟩, ?_, rfl⟩)
            rw [hpersists, if_pos ⟨by rw [hhow]; decide, rfl⟩]
            exact List.mem_append_right _ (List.mem_singleton.2 rfl)
      · exact .inl ((hstream d).2 (.inr ⟨hhow, rfl⟩))
    · exact .inl ⟨c, hc, rfl⟩

/-- Persist `i` ends: its delta is claimed, or listed as failed. -/
theorem BookInv.persistDelta (h : BookInv bill s) {p : PersistTask}
    (hi : s.persists[i]? = some p)
    (hpersists : s'.persists = s.persists.eraseIdx i)
    (hbilled : s'.billed = s.billed) (hcalls : s'.calls = s.calls)
    (hnats : s'.nats = s.nats) (hfailed : ∀ x ∈ s.failed, x ∈ s'.failed)
    (hproc : ∀ id ∈ s.tables.processed, id ∈ s'.tables.processed)
    (hself : p.delta ∈ s'.failed ∨ p.delta.eventID ∈ s'.tables.processed) :
    BookInv bill s' := by
  refine h.next hbilled (fun c hc => .inl (hcalls ▸ hc)) (fun q hq => ?_)
    (fun x hx => .inl (hnats ▸ hx)) (fun m hm => hnats ▸ hm)
    (fun x => Handled.mono (fun x hx => hnats ▸ hx) (fun q hq => ?_) hfailed
      hproc) fun c hc => .inl ⟨c, hcalls ▸ hc, rfl⟩
  · rw [hpersists] at hq
    exact .inl (List.mem_of_mem_eraseIdx hq)
  · rw [hpersists]
    rcases mem_or_mem_eraseIdx hi hq with rfl | hq
    · exact .inr (.inr (.inr hself))
    · exact .inl hq

-- ============================================================== the guard

/-- Every delta a step bills is named. -/
def FleetOp.Named (bill : String → DeltaKey × Int64) : FleetOp → Prop
  | .updateUsage d => d.Named bill
  | _ => True

/-- The condition on a step. A group that meets a row no recovery pass
owns brings no event whose increment is not on the counter, and its sum
is an int64; and a recovery pass reads a counter none of whose events is
still on its way to the row. -/
def CountedStep (bill : String → DeltaKey × Int64) (s : Fleet) :
    FleetOp → Prop
  | .apply group _ _ =>
      (∀ d ∈ group, s.tables.outageOwned d.key = false →
          d.eventID ∈ s.tables.processed
            ∨ .event d.eventID ∈ s.nats.seen)
        ∧ sumNano group < 2 ^ 63
  | .readBudget j true => ∀ p ∈ s.scopes[j]?, Caught bill s p.key
  | _ => True

instance (bill : String → DeltaKey × Int64) (s : Fleet) (k : DeltaKey) :
    Decidable (Caught bill s k) := by
  unfold Caught
  infer_instance

instance (bill : String → DeltaKey × Int64) (s : Fleet) (op : FleetOp) :
    Decidable (CountedStep bill s op) := by
  unfold CountedStep
  split <;> infer_instance

instance (bill : String → DeltaKey × Int64) (op : FleetOp) :
    Decidable (op.Named bill) := by
  cases op <;> (unfold FleetOp.Named; infer_instance)

/-- Distinct deltas of a group sum to no more than the group, when
nothing is billed below zero. -/
theorem sumNano_le_of_subset {new group : List BudgetDelta}
    (hpos : ∀ d ∈ group, 0 ≤ d.nano)
    (hnodup : (new.map BudgetDelta.eventID).Nodup)
    (hsub : ∀ d ∈ new, d ∈ group) : sumNano new ≤ sumNano group := by
  obtain ⟨l, hperm, hl⟩ := (List.Nodup.of_map _ hnodup).subperm hsub
  have heq : sumNano new = sumNano l := by
    rw [sumNano, sumNano]
    exact (hperm.symm.map _).sum_eq
  rw [heq, sumNano, sumNano]
  exact List.Sublist.sum_le_sum (hl.map _) (List.forall_mem_map.2 hpos)

theorem sumNano_nonneg {ds : List BudgetDelta}
    (hpos : ∀ d ∈ ds, 0 ≤ d.nano) : 0 ≤ sumNano ds :=
  List.sum_nonneg (List.forall_mem_map.2 hpos)

-- ========================================================== the step lemma

/-- The fleet's money is accounted for and its bookkeeping is right. -/
structure FleetInv (bill : String → DeltaKey × Int64) (s : Fleet) :
    Prop where
  money : MoneyInv bill s
  book : BookInv bill s

theorem named_nano (hpos : ∀ id, 0 ≤ (bill id).2.toInt) (h : d.Named bill) :
    0 ≤ d.nano := by
  have := hpos d.eventID
  rw [h] at this
  exact this

theorem fleetInv_increment (hpos : ∀ id, 0 ≤ (bill id).2.toInt)
    (h : FleetInv bill s) (hstep : fleetStep s (.increment i how) = some s') :
    FleetInv bill s' := by
  simp only [fleetStep] at hstep
  split at hstep
  case h_2 => cases hstep
  case h_1 d hi =>
    have hnamed := h.book.named d (h.book.calls _ (List.mem_of_getElem? hi))
    obtain ⟨hok, hmono, hstream⟩ := incrBudgetIdempotent_seen s.nats how
      d.key (.event d.eventID) d.nano
    split at hstep
    case isTrue hhow =>
      cases hstep
      subst hhow
      refine ⟨h.money.incr_event hpos hnamed rfl rfl rfl rfl, ?_⟩
      exact h.book.increment true hi rfl rfl rfl rfl hstream rfl
        (fun _ => hok rfl) hmono
    case isFalse hhow =>
      cases hstep
      refine ⟨?_, h.book.increment false hi rfl rfl rfl rfl hstream rfl
        (fun hf => by cases hf) hmono⟩
      cases how with
      | ok => exact absurd rfl hhow
      | unavailable => exact h.money.of_eq rfl rfl rfl rfl
      | ackLost => exact h.money.incr_event hpos hnamed rfl rfl rfl rfl

theorem fleetInv_publish (h : FleetInv bill s)
    (hstep : fleetStep s (.publish i how) = some s') : FleetInv bill s' := by
  simp only [fleetStep] at hstep
  split at hstep
  case h_2 => cases hstep
  case h_1 d incrOk hi =>
    have hcounter : (s.nats.publishDelta how d).counter = s.nats.counter := by
      cases how <;> rfl
    have hseen : (s.nats.publishDelta how d).seen = s.nats.seen := by
      cases how <;> rfl
    split at hstep
    case isTrue hcond =>
      cases hstep
      refine ⟨h.money.of_eq rfl hcounter hseen rfl, ?_⟩
      exact h.book.publish hi rfl (by rw [if_pos hcond]) rfl rfl rfl rfl
    case isFalse hcond =>
      cases hstep
      refine ⟨h.money.of_eq rfl hcounter hseen rfl, ?_⟩
      exact h.book.publish hi rfl (by rw [if_neg hcond]) rfl rfl rfl rfl

/-- What a persist does: nothing, or a write that leaves the row to the
recovery pass unless the event is counted. -/
theorem persistTask_run (h : BookInv bill s) {p : PersistTask}
    (hp : p ∈ s.persists) (reasoning : Bool) (f : SqlFault) :
    let r := p.run reasoning f s.tables
    (r.state = s.tables
        ∨ Wrote exactColumn s.tables r.state p.delta.key [p.delta]
          ∧ (r.state.outageOwned p.delta.key = false →
              .event p.delta.eventID ∈ s.nats.seen))
      ∧ (((∃ e, r.result = .error e) ∧ r.committed = false)
        ∨ p.delta.eventID ∈ r.state.processed) := by
  intro r
  have hr : r = p.run reasoning f s.tables := rfl
  unfold PersistTask.run at hr
  split at hr
  case isTrue hh =>
    refine ⟨?_, ?_⟩
    · rcases @persistHealthyDelta_wrote exactColumn reasoning f
        s.tables p.delta with hsame | hw
      · exact .inl (by rw [hr, hsame])
      · exact .inr ⟨by rw [hr]; exact hw, fun _ => h.healthy p hp hh⟩
    · rw [hr]
      exact persist_claims (writeHealthy_rowWrite exactColumn f p.delta)
  case isFalse =>
    refine ⟨?_, ?_⟩
    · rcases @persistOutageDelta_wrote exactColumn reasoning f
        s.tables p.delta with hsame | hw
      · exact .inl (by rw [hr, hsame])
      · rcases @persistOutageDelta_owned exactColumn reasoning f
          s.tables p.delta with hsame | hown
        · exact .inl (by rw [hr, hsame])
        · refine .inr ⟨by rw [hr]; exact hw, fun hfree => ?_⟩
          rw [hr, hown] at hfree
          cases hfree
    · rw [hr]
      exact persist_claims (writeOutage_rowWrite exactColumn f p.delta)

/-- A persist's effect on the money. -/
theorem MoneyInv.persistDelta (h : MoneyInv bill s) {d : OutageDelta}
    (hnamed : d.Named bill) (hw : s'.tables = s.tables
      ∨ Wrote exactColumn s.tables s'.tables d.key [d]
        ∧ (s'.tables.outageOwned d.key = false →
            .event d.eventID ∈ s.nats.seen))
    (hblk : s.blocked s'.tables d.key = false) (hnats : s'.nats = s.nats)
    (hscopes : s'.scopes = s.scopes) : MoneyInv bill s' := by
  rcases hw with hsame | ⟨hw, hcounted⟩
  · exact h.of_eq hsame (by rw [hnats]) (by rw [hnats]) hscopes
  · have hd : ∀ x ∈ [d], x = d := fun x hx => List.mem_singleton.1 hx
    refine h.wrote hw (fun x hx => hd x hx ▸ hnamed) ?_
      (hw.unlocked hblk) (fun hfree x hx => hd x hx ▸ hcounted hfree)
      hnats hscopes
    -- one int64 is in range
    have hone : sumNano [d] = d.deltaNanoUSD.toInt := by
      simp [sumNano, BudgetDelta.nano]
    rw [hone]
    exact ⟨Int64.le_toInt _, Int64.toInt_lt _⟩

theorem fleetInv_persistDelta (h : FleetInv bill s) {reasoning : Bool}
    {f : SqlFault}
    (hstep : fleetStep s (.persistDelta i reasoning f) = some s') :
    FleetInv bill s' := by
  simp only [fleetStep] at hstep
  split at hstep
  case h_1 => cases hstep
  case h_2 p hi =>
    have hp : p ∈ s.persists := List.mem_of_getElem? hi
    obtain ⟨hw, hclaim⟩ := persistTask_run h.book hp reasoning f
    have hnamed := h.book.named _ (h.book.persists p hp)
    obtain ⟨hblk, hstep⟩ := Option.ite_none_left_eq_some.1 hstep
    rw [Bool.not_eq_true] at hblk
    have hmono : ∀ id ∈ s.tables.processed,
        id ∈ (p.run reasoning f s.tables).state.processed := by
      intro id hid
      rcases hw with hsame | ⟨hw, -⟩
      · rw [hsame]
        exact hid
      · rw [hw.processed]
        exact .inl hid
    split at hstep
    case h_1 =>
      cases hstep
      refine ⟨h.money.persistDelta hnamed hw hblk rfl rfl, ?_⟩
      exact h.book.persistDelta hi rfl rfl rfl rfl
        (fun x hx => List.mem_cons_of_mem _ hx) hmono
        (.inl List.mem_cons_self)
    case h_2 hok =>
      cases hstep
      refine ⟨h.money.persistDelta hnamed hw hblk rfl rfl, ?_⟩
      refine h.book.persistDelta hi rfl rfl rfl rfl (fun x hx => hx)
        hmono (.inr ?_)
      rcases hclaim with ⟨⟨e, he⟩, hno⟩ | hin
      · exact absurd hno (hok e he)
      · exact hin

theorem fleetInv_apply (hpos : ∀ id, 0 ≤ (bill id).2.toInt)
    (h : FleetInv bill s) {group : List BudgetDelta} {reasoning : Bool}
    {f : SqlFault} (hok : CountedStep bill s (.apply group reasoning f))
    (hstep : fleetStep s (.apply group reasoning f) = some s') :
    FleetInv bill s' := by
  simp only [fleetStep] at hstep
  split at hstep
  case h_1 => cases hstep
  case h_2 head rest =>
    split at hstep
    case isFalse => cases hstep
    case isTrue hcond =>
      cases hstep
      rw [Bool.and_eq_true, Bool.not_eq_true'] at hcond
      obtain ⟨hdel, hblk⟩ := hcond
      -- what was delivered: published, hence billed, and of one key
      have hall : ∀ d ∈ head :: rest, d ∈ s.nats.stream
          ∧ d.key = head.key := by
        intro d hd
        have hone := List.all_eq_true.1 hdel d hd
        simp only [Bool.and_eq_true, decide_eq_true_eq] at hone
        refine ⟨hone.1.1, ?_⟩
        have := List.all_eq_true.1 hone.2 head List.mem_cons_self
        exact (of_decide_eq_true this).symm
      have hnamed : ∀ d ∈ head :: rest, d.Named bill := fun d hd =>
        h.book.named d (h.book.stream d (hall d hd).1)
      rcases @apply_wrote _ exactColumn reasoning f s.tables _
        (fun d hd => (hall d hd).2) with hsame | ⟨new, -, hsub, hw, hfree⟩
      · rw [hsame]
        exact h
      · have hnano : ∀ d ∈ head :: rest, 0 ≤ d.nano :=
          fun d hd => named_nano hpos (hnamed d hd)
        have hle := sumNano_le_of_subset hnano hw.nodup hsub
        have hge := sumNano_nonneg fun d hd => hnano d (hsub d hd)
        have hlt := hok.2
        refine ⟨?_, ?_⟩
        · refine h.money.wrote hw (fun d hd => hnamed d (hsub d hd))
            ⟨by omega, by omega⟩ (hw.unlocked hblk) ?_ rfl rfl
          intro _ d hd
          have hcase := hok.1 d (hsub d hd)
            (by rw [hw.keyed d hd]; exact hfree)
          exact hcase.resolve_left (hw.fresh d hd)
        · refine h.book.of_sub rfl rfl rfl rfl rfl (fun m hm => hm) ?_
          intro id hid
          rw [hw.processed]
          exact .inl hid

/-- The steps of a recovery pass leave the gateway's books alone. -/
theorem BookInv.recovery (h : BookInv bill s) (hbilled : s'.billed = s.billed)
    (hcalls : s'.calls = s.calls) (hpersists : s'.persists = s.persists)
    (hfailed : s'.failed = s.failed) (hnats : s'.nats = s.nats)
    (hproc : s'.tables.processed = s.tables.processed) : BookInv bill s' :=
  h.of_sub hbilled hcalls hpersists hfailed (by rw [hnats])
    (by rw [hnats]; exact fun _ hm => hm)
    (by rw [hproc]; exact fun _ hid => hid)

theorem fleetInv_replay (h : FleetInv bill s) {j : Nat}
    (hstep : fleetStep s (.replay j how) = some s') : FleetInv bill s' := by
  simp only [fleetStep] at hstep
  split at hstep
  case h_2 => cases hstep
  case h_1 k acc base hj =>
    cases hstep
    unfold replayStep
    simp only
    split
    case isFalse hshort =>
      -- the counter is not short: nothing to replay
      obtain ⟨hown, hread, hrep, -⟩ := h.money.scope _
        (List.mem_of_getElem? hj)
      obtain ⟨-, -, hcov⟩ := hrep base rfl
      refine ⟨h.money.setScope hj rfl
        ⟨hown, hread, fun b hph => (by cases hph), fun _ => ?_⟩,
        h.book.recovery rfl rfl rfl rfl rfl rfl⟩
      simp only at hcov ⊢
      omega
    case isTrue hshort =>
      obtain ⟨-, hmono, hstream⟩ := incrBudgetIdempotent_seen s.nats how k
        (.recovery k base (acc - base)) (acc - base)
      split
      case isTrue hhow =>
        subst hhow
        obtain ⟨hnodup, hmem⟩ := @scopes_set _ _ _ ⟨k, acc, .finalize⟩
          h.money.locks hj rfl
        exact ⟨h.money.replay hj hshort hnodup hmem,
          h.book.of_sub rfl rfl rfl rfl hstream hmono fun _ hid => hid⟩
      case isFalse hhow =>
        refine ⟨?_,
          h.book.of_sub rfl rfl rfl rfl hstream hmono fun _ hid => hid⟩
        cases how with
        | ok => exact absurd rfl hhow
        | unavailable => exact h.money.eraseScope hj
        | ackLost =>
            obtain ⟨hnodup, hmem⟩ := scopes_eraseIdx h.money.locks hj
            exact h.money.replay hj hshort hnodup
              fun q hq => .inr (hmem q hq)

/-- Every step that meets the condition keeps the fleet accounted for. -/
theorem fleetInv_step (hpos : ∀ id, 0 ≤ (bill id).2.toInt) (s : Fleet)
    (op : FleetOp) (s' : Fleet) (h : FleetInv bill s)
    (hok : op.Named bill ∧ CountedStep bill s op)
    (hstep : fleetStep s op = some s') : FleetInv bill s' := by
  cases op with
  | updateUsage d =>
      cases hstep
      exact ⟨h.money.of_eq rfl rfl rfl rfl, h.book.updateUsage hok.1⟩
  | increment i how => exact fleetInv_increment hpos h hstep
  | publish i how => exact fleetInv_publish h hstep
  | persistDelta i reasoning f => exact fleetInv_persistDelta h hstep
  | apply group reasoning f => exact fleetInv_apply hpos h hok.2 hstep
  | lockOutageRows rows =>
      simp only [fleetStep] at hstep
      split at hstep
      case isFalse => cases hstep
      case isTrue =>
        cases hstep
        refine ⟨(h.money.markRows rows).of_eq rfl rfl rfl rfl,
          h.book.recovery rfl rfl rfl rfl rfl ?_⟩
        exact @foldl_inv _ _ markInProgress
          (fun t => t.processed = s.tables.processed)
          (fun t k ht => by
            unfold markInProgress
            split <;> exact ht) rows s.tables rfl
  | relock i =>
      simp only [fleetStep] at hstep
      split at hstep
      case h_3 => cases hstep
      case h_2 =>
        cases hstep
        exact ⟨h.money.of_eq rfl rfl rfl rfl,
          h.book.recovery rfl rfl rfl rfl rfl rfl⟩
      case h_1 k rest hi =>
        obtain ⟨hunlocked, hstep⟩ := Option.ite_none_left_eq_some.1 hstep
        rw [Bool.not_eq_true] at hunlocked
        split at hstep
        case h_2 =>
          cases hstep
          exact ⟨h.money.of_eq rfl rfl rfl rfl,
            h.book.recovery rfl rfl rfl rfl rfl rfl⟩
        case h_1 r hrow =>
          split at hstep
          case isFalse =>
            cases hstep
            exact ⟨h.money.of_eq rfl rfl rfl rfl,
              h.book.recovery rfl rfl rfl rfl rfl rfl⟩
          case isTrue hown =>
            cases hstep
            exact ⟨(h.money.relock hrow hown hunlocked).of_eq
                rfl rfl rfl rfl,
              h.book.recovery rfl rfl rfl rfl rfl rfl⟩
  | readBudget j ok =>
      simp only [fleetStep] at hstep
      split at hstep
      case h_2 => cases hstep
      case h_1 k acc hj =>
        cases ok with
        | false =>
            cases hstep
            exact ⟨h.money.eraseScope hj,
              h.book.recovery rfl rfl rfl rfl rfl rfl⟩
        | true =>
            cases hstep
            exact ⟨h.money.readBudget hj (hok.2 _ hj),
              h.book.recovery rfl rfl rfl rfl rfl rfl⟩
  | replay j how => exact fleetInv_replay h hstep
  | finalize j ok =>
      simp only [fleetStep] at hstep
      split at hstep
      case h_2 => cases hstep
      case h_1 k acc hj =>
        cases ok with
        | false =>
            cases hstep
            exact ⟨h.money.eraseScope hj,
              h.book.recovery rfl rfl rfl rfl rfl rfl⟩
        | true =>
            cases hstep
            refine ⟨h.money.finalize hj,
              h.book.recovery rfl rfl rfl rfl rfl ?_⟩
            unfold finalizeRow
            split <;> rfl

-- ============================================================= the result

/-- In a quiescent fleet every billed event is in the row of its key. -/
theorem FleetInv.billed_durable (h : FleetInv bill s) (hq : s.Quiescent)
    (hd : d ∈ s.billed) : d.eventID ∈ s.tables.processed := by
  rcases h.book.tracked d hd with ⟨c, hc, -⟩ | hd | ⟨p, hp, -⟩ | hd | hd
  · rw [hq.calls] at hc
    cases hc
  · exact hq.applied d hd
  · rw [hq.persists] at hp
    cases hp
  · rw [hq.failed] at hd
    cases hd
  · exact hd

/-- The counter is the counted events and the replays, which together
cover the row. -/
theorem MoneyInv.durable_le_counter (h : MoneyInv bill s)
    (hpos : ∀ id, 0 ≤ (bill id).2.toInt) {k : DeltaKey}
    (hfree : s.tables.outageOwned k = false) :
    money bill (durableEvents s.tables k) ≤ s.nats.counter k := by
  calc money bill (durableEvents s.tables k)
      ≤ money bill (countedEvents bill s.nats.seen k
          ∪ (durableEvents s.tables k
            \ countedEvents bill s.nats.seen k)) := by
        refine money_le_of_subset hpos ?_
        rw [Finset.union_sdiff_self_eq_union]
        exact Finset.subset_union_right
    _ = money bill (countedEvents bill s.nats.seen k) + debt bill s k :=
        Finset.sum_union Finset.disjoint_sdiff
    _ ≤ money bill (countedEvents bill s.nats.seen k)
          + replayed s.nats.seen k :=
        Int.add_le_add_left (h.settled k hfree) _
    _ = s.nats.counter k := (h.counter k).symm

/-- Recovery never under-counts, under the condition. Over any number of
replicas and any interleaving of billing calls, the consumer and the
recovery passes, in which every step meets `CountedStep` and nothing is
billed below zero: in a quiescent state the counter of every key is at
least the spend billed to it, and not below its row. -/
theorem recovery_never_undercounts {bill : String → DeltaKey × Int64}
    {ops : List FleetOp} {s : Fleet}
    (hpos : ∀ id, 0 ≤ (bill id).2.toInt)
    (hnamed : ∀ op ∈ ops, op.Named bill)
    (hcounted : Meets fleetStep (CountedStep bill) .start ops)
    (hrun : run fleetStep .start ops = some s) (hq : s.Quiescent)
    (k : DeltaKey) :
    s.spend bill k ≤ s.nats.counter k
      ∧ s.tables.accumulated k ≤ s.nats.counter k := by
  have hinv : FleetInv bill s :=
    run_inv (fleetInv_step hpos) ops _ s ⟨moneyInv_start, bookInv_start⟩
      ((meets_of_forall ops _ hnamed).and hcounted) hrun
  have hfree : s.tables.outageOwned k = false := by
    have := hq.reconciled k
    rw [Tables.outageOwned]
    split
    case h_1 => rfl
    case h_2 r hrow => simpa [hrow] using this
  have hcover := hinv.money.durable_le_counter hpos hfree
  constructor
  · refine Int.le_trans (money_le_of_subset hpos ?_) hcover
    intro id hid
    obtain ⟨hid, hkey⟩ := Finset.mem_filter.1 hid
    obtain ⟨d, hd, rfl⟩ := List.mem_map.1 (List.mem_toFinset.1 hid)
    have hproc := hinv.billed_durable hq hd
    rw [hinv.money.durable.claimed, hkey] at hproc
    exact mem_durableEvents.2 hproc
  · rw [accumulated_eq_money hinv.money.durable (hinv.money.fits k)]
    exact hcover

/-- An event of project 7 that bills five nano-USD. -/
def fiveNano (id : String) : BudgetDelta :=
  { eventID := id, scope := "project", scopeID := "7", projectID := 7
    periodStart := 100, periodEnd := 200, deltaNanoUSD := 5 }

/-- What those events are billed to. -/
def fiveNanoBill (id : String) : DeltaKey × Int64 := ((fiveNano id).key, 5)

/-- Three events: one healthy, one during an outage, one whose ack is
lost; then a recovery pass. -/
def recoveredRun : List FleetOp :=
  [.updateUsage (fiveNano "e1"), .increment 0 .ok, .publish 0 .ok,
   .updateUsage (fiveNano "e2"), .increment 0 .unavailable,
   .apply [fiveNano "e1"] false .clean, .publish 0 .unavailable,
   .persistDelta 0 false .clean,
   .updateUsage (fiveNano "e3"), .increment 0 .ackLost,
   .persistDelta 0 false .clean, .publish 0 .ok,
   .apply [fiveNano "e3"] false .clean,
   .lockOutageRows [(fiveNano "e1").key], .relock 0, .readBudget 0 true,
   .replay 0 .ok, .finalize 0 true, .relock 0,
   .apply [fiveNano "e3", fiveNano "e3"] false .clean]

/-- A row that was never written is nobody's. -/
theorem reconciled_of_none {o : Option AccRow} (h : o = none) :
    (o.all fun r => !r.outageOwned) = true := by
  rw [h]
  rfl

/-- The run meets the condition and is quiescent; the counter and the
row are the spend. -/
theorem recovery_never_undercounts_recovered :
    ∃ s, run fleetStep .start recoveredRun = some s
      ∧ Meets fleetStep (CountedStep fiveNanoBill) .start recoveredRun
      ∧ s.Quiescent ∧ s.nats.counter (fiveNano "e1").key = 15
      ∧ s.spend fiveNanoBill (fiveNano "e1").key
        ≤ s.nats.counter (fiveNano "e1").key := by
  have hmeets : Meets fleetStep (CountedStep fiveNanoBill) .start
      recoveredRun := by decide
  obtain ⟨s, hrun, hq, hcounter⟩ : ∃ s,
      run fleetStep .start recoveredRun = some s ∧ s.Quiescent
        ∧ s.nats.counter (fiveNano "e1").key = 15 := by
    refine ⟨_, rfl, ⟨rfl, rfl, rfl, by decide, rfl, rfl, fun k => ?_⟩,
      by decide⟩
    by_cases hk : k = (fiveNano "e1").key
    · subst hk
      decide
    · refine reconciled_of_none ?_
      iterate 5 refine (Function.update_of_ne hk _ _).trans ?_
      rfl
  have hpos : ∀ id, 0 ≤ (fiveNanoBill id).2.toInt :=
    fun _ => by simp only [fiveNanoBill]; decide
  exact ⟨s, hrun, hmeets, hq, hcounter, (recovery_never_undercounts hpos
    (by decide) hmeets hrun hq _).1⟩

-- ================================================= two runs that under-count

/-- The increment fails, the publish succeeds, and the consumer is faster
than the outage write: the row is never the recovery pass's. -/
def appliedFirst : List FleetOp :=
  [.updateUsage (fiveNano "e1"), .increment 0 .unavailable,
   .publish 0 .ok, .apply [fiveNano "e1"] false .clean,
   .persistDelta 0 false .clean, .lockOutageRows [], .relock 0]

/-- One event on the counter is still in the stream when the recovery
pass for another reads the counter, which already covers the row. -/
def readTooEarly : List FleetOp :=
  [.updateUsage (fiveNano "e1"), .increment 0 .ok, .publish 0 .ok,
   .updateUsage (fiveNano "e2"), .increment 0 .unavailable,
   .publish 0 .unavailable, .persistDelta 0 false .clean,
   .lockOutageRows [(fiveNano "e2").key], .relock 0, .readBudget 0 true,
   .replay 0 .ok, .finalize 0 true, .relock 0,
   .apply [fiveNano "e1"] false .clean]

/-- Both runs end quiescent, with a recovery pass finished, and the
counter below the billed spend and below the row. -/
theorem recovery_undercounts :
    (∃ s, run fleetStep .start appliedFirst = some s ∧ s.Quiescent
        ∧ s.nats.counter (fiveNano "e1").key = 0
        ∧ s.tables.accumulated (fiveNano "e1").key = 5
        ∧ s.spend fiveNanoBill (fiveNano "e1").key = 5)
      ∧ ∃ s, run fleetStep .start readTooEarly = some s ∧ s.Quiescent
        ∧ s.nats.counter (fiveNano "e1").key = 5
        ∧ s.tables.accumulated (fiveNano "e1").key = 10
        ∧ s.spend fiveNanoBill (fiveNano "e1").key = 10 := by
  constructor
  · refine ⟨_, rfl, ⟨rfl, rfl, rfl, by decide, rfl, rfl, fun k => ?_⟩,
      by decide, by decide, by decide⟩
    by_cases hk : k = (fiveNano "e1").key
    · subst hk
      decide
    · exact reconciled_of_none (Function.update_of_ne hk _ _)
  · refine ⟨_, rfl, ⟨rfl, rfl, rfl, by decide, rfl, rfl, fun k => ?_⟩,
      by decide, by decide, by decide⟩
    by_cases hk : k = (fiveNano "e1").key
    · subst hk
      decide
    · refine reconciled_of_none ?_
      iterate 4 refine (Function.update_of_ne hk _ _).trans ?_
      rfl

end Elitea.Budget
