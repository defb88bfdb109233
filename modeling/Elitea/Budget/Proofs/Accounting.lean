/-
The money of the fleet: the counter, the rows and the recovery passes.

# The accounting

Write `I` for the events of a key whose increment is on the counter and
`D` for the events its row contains. The counter is the money of `I`
plus what recovery passes replayed (`MoneyInv.counter`), the row is the
money of `D`. The debt of a key is the money of `D \ I`, billed events
that only the row knows. A row that no recovery pass owns must have its
debt replayed (`MoneyInv.settled`): nobody will look at it again.

`reconcileScope` replays `accumulated - counter`, which is the debt not
yet replayed exactly when `I ⊆ D` (`MoneyInv.readBudget`). Between the
read and the replay the counter may grow, which only makes the replay
cover more than the debt; the row cannot change, because the transaction
holds it.

The lemmas here are one per effect a step can have, with the condition
under which the effect keeps the accounting. Which steps have which
effect, and when the conditions fail, is for the module above.
-/
import Elitea.Budget.Proofs.ExactlyOnce
import Elitea.Budget.Recovery
import Mathlib.Algebra.BigOperators.Group.Finset.Basic
import Mathlib.Algebra.Order.BigOperators.Group.Finset
import Mathlib.Algebra.Order.Ring.Int
import Mathlib.Data.List.Perm.Basic

namespace Elitea.Budget

open Lib

variable {bill : String → DeltaKey × Int64} {s s' : Fleet} {k : DeltaKey}
  {j : Nat} {id : String} {t : Tables} {new : List BudgetDelta} {p : ScopePass}
  {seen : List MsgID} {col : Column} {scopes : List ScopePass} {acc : Int}

-- ========================================================== the accounting

/-- The event an id names, if it names one. -/
def MsgID.event? : MsgID → Option String
  | .event id => some id
  | .recovery _ _ _ => none

/-- What a message replayed onto the counter of `k`. -/
def MsgID.replayOf (k : DeltaKey) : MsgID → Int
  | .event _ => 0
  | .recovery k' _ delta => if k' = k then delta else 0

/-- The events of `k` on the counter. -/
def countedEvents (bill : String → DeltaKey × Int64) (seen : List MsgID)
    (k : DeltaKey) : Finset String :=
  {id ∈ (seen.filterMap MsgID.event?).toFinset | (bill id).1 = k}

/-- The events the row of `k` contains. -/
def durableEvents (t : Tables) (k : DeltaKey) : Finset String :=
  ((t.deltas k).map BudgetDelta.eventID).toFinset

/-- What some events were billed. -/
def money (bill : String → DeltaKey × Int64) (ids : Finset String) : Int :=
  ∑ id ∈ ids, (bill id).2.toInt

/-- What recovery passes replayed onto the counter of `k`. -/
def replayed (seen : List MsgID) (k : DeltaKey) : Int :=
  (seen.map (MsgID.replayOf k)).sum

/-- Billed events of `k` that only the row knows. -/
def debt (bill : String → DeltaKey × Int64) (s : Fleet) (k : DeltaKey) :
    Int :=
  money bill (durableEvents s.tables k \ countedEvents bill s.nats.seen k)

theorem mem_countedEvents :
    id ∈ countedEvents bill seen k ↔ .event id ∈ seen ∧ (bill id).1 = k := by
  simp only [countedEvents, Finset.mem_filter, List.mem_toFinset,
    List.mem_filterMap]
  refine and_congr_left fun _ => ?_
  constructor
  · rintro ⟨m, hm, heq⟩
    cases m with
    | event id' =>
        simp only [MsgID.event?, Option.some.injEq] at heq
        exact heq ▸ hm
    | recovery => cases heq
  · exact fun h => ⟨_, h, rfl⟩

theorem mem_durableEvents :
    id ∈ durableEvents t k
      ↔ id ∈ (t.deltas k).map BudgetDelta.eventID := by
  rw [durableEvents, List.mem_toFinset]

/-- An event on the counter is counted once, in its own key. -/
theorem countedEvents_cons_event (k : DeltaKey) :
    countedEvents bill (.event id :: seen) k
      = if (bill id).1 = k then insert id (countedEvents bill seen k)
        else countedEvents bill seen k := by
  ext x
  split
  case isTrue hk =>
    simp only [mem_countedEvents, List.mem_cons, MsgID.event.injEq,
      Finset.mem_insert]
    constructor
    · rintro ⟨rfl | h, hx⟩
      · exact .inl rfl
      · exact .inr ⟨h, hx⟩
    · rintro (rfl | ⟨h, hx⟩)
      · exact ⟨.inl rfl, hk⟩
      · exact ⟨.inr h, hx⟩
  case isFalse hk =>
    simp only [mem_countedEvents, List.mem_cons, MsgID.event.injEq]
    constructor
    · rintro ⟨rfl | h, hx⟩
      · exact absurd hx hk
      · exact ⟨h, hx⟩
    · exact fun ⟨h, hx⟩ => ⟨.inr h, hx⟩

/-- A replay counts no event. -/
theorem countedEvents_cons_recovery {k' : DeltaKey} {base delta : Int}
    (k : DeltaKey) :
    countedEvents bill (.recovery k' base delta :: seen) k
      = countedEvents bill seen k := by
  ext x
  simp [mem_countedEvents]

theorem money_insert {ids : Finset String} (h : id ∉ ids) :
    money bill (insert id ids) = (bill id).2.toInt + money bill ids :=
  Finset.sum_insert h

/-- With nothing billed below zero, more events are more money. -/
theorem money_le_of_subset (hpos : ∀ id, 0 ≤ (bill id).2.toInt)
    {ids ids' : Finset String} (h : ids ⊆ ids') :
    money bill ids ≤ money bill ids' :=
  Finset.sum_le_sum_of_subset_of_nonneg h fun id _ _ => hpos id

/-- The row's money is its events' money. -/
theorem accumulated_eq_money (h : DurableInv exactColumn bill t)
    (hfit : ∀ u ∈ t.upserts k, -2 ^ 63 ≤ sumNano u ∧ sumNano u < 2 ^ 63) :
    t.accumulated k = money bill (durableEvents t k) := by
  rw [h.accumulated_eq hfit, money, durableEvents,
    List.sum_toFinset _ (h.nodup k), List.map_map]
  rfl

-- ========================================================= the invariant

/-- A scope's transaction is still right about its row, and what it is
about to do settles the row's debt. -/
structure ScopeOk (bill : String → DeltaKey × Int64) (s : Fleet)
    (p : ScopePass) : Prop where
  owned : s.tables.outageOwned p.key = true
  read : p.accumulatedNano = s.tables.accumulated p.key
  replay : ∀ base, p.phase = .replay base →
    base ≤ s.nats.counter p.key
      ∧ (∀ b d, .recovery p.key b d ∈ s.nats.seen → b < base)
      ∧ debt bill s p.key
          ≤ replayed s.nats.seen p.key
            + max 0 (p.accumulatedNano - base)
  finalize : p.phase = .finalize →
    debt bill s p.key ≤ replayed s.nats.seen p.key

/-- The counter, the rows and the recovery passes account for the
money. -/
structure MoneyInv (bill : String → DeltaKey × Int64) (s : Fleet) :
    Prop where
  durable : DurableInv exactColumn bill s.tables
  fits : ∀ k, ∀ u ∈ s.tables.upserts k,
    -2 ^ 63 ≤ sumNano u ∧ sumNano u < 2 ^ 63
  counter : ∀ k, s.nats.counter k
    = money bill (countedEvents bill s.nats.seen k)
      + replayed s.nats.seen k
  replays : ∀ k b d, .recovery k b d ∈ s.nats.seen →
    0 < d ∧ b + d ≤ s.nats.counter k
  settled : ∀ k, s.tables.outageOwned k = false →
    debt bill s k ≤ replayed s.nats.seen k
  locks : (s.scopes.map ScopePass.key).Nodup
  scope : ∀ p ∈ s.scopes, ScopeOk bill s p

theorem moneyInv_start : MoneyInv bill .start where
  durable := durableInv_empty
  fits k u hu := by cases hu
  counter k := rfl
  replays k b d h := by cases h
  settled k _ := Int.le_refl 0
  locks := List.nodup_nil
  scope p h := by cases h

-- ====================================================== the counter moves

/-- A new event on the counter: no debt grows. -/
theorem debt_cons_event (hpos : ∀ id, 0 ≤ (bill id).2.toInt)
    (ht : s'.tables = s.tables)
    (hseen : s'.nats.seen = .event id :: s.nats.seen) (k : DeltaKey) :
    debt bill s' k ≤ debt bill s k := by
  unfold debt
  rw [ht, hseen, countedEvents_cons_event]
  refine money_le_of_subset hpos (Finset.sdiff_subset_sdiff subset_rfl ?_)
  split
  case isTrue => exact Finset.subset_insert _ _
  case isFalse => exact subset_rfl

/-- The invariant reads the fleet's tables, counter and scopes only. -/
theorem MoneyInv.of_eq (h : MoneyInv bill s) (ht : s'.tables = s.tables)
    (hc : s'.nats.counter = s.nats.counter)
    (hseen : s'.nats.seen = s.nats.seen) (hscopes : s'.scopes = s.scopes) :
    MoneyInv bill s' := by
  have hdebt : ∀ k, debt bill s' k = debt bill s k := by
    intro k
    rw [debt, ht, hseen]
    rfl
  refine ⟨ht ▸ h.durable, ht ▸ h.fits, ?_, ?_, ?_, hscopes ▸ h.locks, ?_⟩
  · rw [hc, hseen]
    exact h.counter
  · rw [hc, hseen]
    exact h.replays
  · intro k
    rw [ht, hdebt, hseen]
    exact h.settled k
  · intro p hp
    rw [hscopes] at hp
    obtain ⟨hown, hread, hrep, hfin⟩ := h.scope p hp
    refine ⟨ht ▸ hown, ht ▸ hread, ?_, ?_⟩
    · rw [hc, hseen, hdebt]
      exact hrep
    · rw [hseen, hdebt]
      exact hfin

/-- An event reaches the counter. -/
theorem MoneyInv.incr_event (hpos : ∀ id, 0 ≤ (bill id).2.toInt)
    (h : MoneyInv bill s) {d : BudgetDelta} (hnamed : d.Named bill)
    (ht : s'.tables = s.tables) (hscopes : s'.scopes = s.scopes)
    (hn : s'.nats.counter = (s.nats.incr d.key (.event d.eventID)
        d.nano).counter)
    (hs : s'.nats.seen = (s.nats.incr d.key (.event d.eventID) d.nano).seen) :
    MoneyInv bill s' := by
  by_cases hin : .event d.eventID ∈ s.nats.seen
  · -- a suppressed duplicate
    rw [Nats.incr, if_pos hin] at hn hs
    exact h.of_eq ht hn hs hscopes
  · rw [Nats.incr, if_neg hin] at hn hs
    simp only at hn hs
    have hamount : (bill d.eventID).2.toInt = d.nano := by
      rw [hnamed]
      rfl
    have hkey : (bill d.eventID).1 = d.key := hnamed.key_eq
    have hdebt := debt_cons_event hpos ht hs
    have hrep : ∀ k, replayed s'.nats.seen k = replayed s.nats.seen k := by
      intro k
      rw [hs, replayed, List.map_cons, List.sum_cons]
      simp [MsgID.replayOf, replayed]
    have hgrow : ∀ k, s.nats.counter k ≤ s'.nats.counter k := by
      intro k
      rw [hn]
      by_cases hk : k = d.key
      · subst hk
        have := hpos d.eventID
        rw [hamount] at this
        rw [Function.update_self]
        omega
      · rw [Function.update_of_ne hk]
    have hold : ∀ k b e, .recovery k b e ∈ s'.nats.seen →
        .recovery k b e ∈ s.nats.seen := by
      intro k b e hmem
      rw [hs] at hmem
      simpa using hmem
    refine ⟨ht ▸ h.durable, ht ▸ h.fits, ?_, ?_, ?_, hscopes ▸ h.locks, ?_⟩
    · intro k
      rw [hrep, hs, countedEvents_cons_event, hn, hkey]
      by_cases hk : d.key = k
      · subst hk
        have hnot : d.eventID ∉ countedEvents bill s.nats.seen d.key :=
          fun hmem => hin (mem_countedEvents.1 hmem).1
        rw [if_pos rfl, money_insert hnot, Function.update_self,
          h.counter, hamount]
        omega
      · rw [if_neg hk, Function.update_of_ne (Ne.symm hk)]
        exact h.counter k
    · intro k b e hmem
      have := h.replays k b e (hold k b e hmem)
      have := hgrow k
      omega
    · intro k hown
      rw [ht] at hown
      rw [hrep]
      exact (hdebt k).trans (h.settled k hown)
    · intro p hp
      rw [hscopes] at hp
      obtain ⟨hown, hread, hreplay, hfin⟩ := h.scope p hp
      refine ⟨ht ▸ hown, ht ▸ hread, ?_, ?_⟩
      · intro base hph
        obtain ⟨hbase, hids, hcov⟩ := hreplay base hph
        refine ⟨hbase.trans (hgrow _), fun b e hmem =>
          hids b e (hold _ b e hmem), ?_⟩
        rw [hrep]
        exact (hdebt _).trans hcov
      · intro hph
        rw [hrep]
        exact (hdebt _).trans (hfin hph)

-- ========================================================= the rows move

theorem locked_iff : s.locked k = true ↔ k ∈ s.scopes.map ScopePass.key := by
  simp [Fleet.locked, List.mem_map, List.any_eq_true]

theorem debt_congr (hhist : s'.tables.upserts k = s.tables.upserts k)
    (hseen : s'.nats.seen = s.nats.seen) : debt bill s' k = debt bill s k := by
  rw [debt, durableEvents, Tables.deltas, hhist, hseen]
  rfl

/-- Rows that change in nothing but their marker. -/
theorem MoneyInv.of_rows (h : MoneyInv bill s)
    (hdur : DurableInv exactColumn bill s'.tables)
    (hacc : ∀ k, s'.tables.accumulated k = s.tables.accumulated k)
    (hhist : ∀ k, s'.tables.upserts k = s.tables.upserts k)
    (hown : ∀ k, s'.tables.outageOwned k = s.tables.outageOwned k)
    (hnats : s'.nats = s.nats) (hscopes : s'.scopes = s.scopes) :
    MoneyInv bill s' := by
  have hdebt : ∀ k, debt bill s' k = debt bill s k :=
    fun k => debt_congr (hhist k) (by rw [hnats])
  refine ⟨hdur, ?_, hnats ▸ h.counter, hnats ▸ h.replays, ?_,
    hscopes ▸ h.locks, ?_⟩
  · intro k
    rw [hhist k]
    exact h.fits k
  · intro k
    rw [hown, hdebt, hnats]
    exact h.settled k
  · intro p hp
    rw [hscopes] at hp
    obtain ⟨howned, hread, hrep, hfin⟩ := h.scope p hp
    refine ⟨?_, ?_, ?_, ?_⟩
    · rw [hown]
      exact howned
    · rw [hacc]
      exact hread
    · rw [hdebt, hnats]
      exact hrep
    · rw [hdebt, hnats]
      exact hfin

/-- Marking a row in progress changes no money and no owner. -/
theorem markInProgress_same (t : Tables) (k k' : DeltaKey) :
    (markInProgress t k).accumulated k' = t.accumulated k'
      ∧ (markInProgress t k).upserts k' = t.upserts k'
      ∧ (markInProgress t k).outageOwned k' = t.outageOwned k' := by
  unfold markInProgress
  split
  case h_1 => exact ⟨rfl, rfl, rfl⟩
  case h_2 r hrow =>
    by_cases hk : k' = k
    · subst hk
      simp [Tables.accumulated, Tables.upserts, Tables.outageOwned,
        AccRow.outageOwned, hrow]
    · simp [Tables.accumulated, Tables.upserts, Tables.outageOwned,
        setRow_rows_ne hk]

theorem MoneyInv.markRows (h : MoneyInv bill s) (rows : List DeltaKey) :
    MoneyInv bill { s with tables := rows.foldl markInProgress s.tables } := by
  refine @foldl_inv _ _ markInProgress
    (fun t => MoneyInv bill { s with tables := t }) ?_ rows s.tables h
  intro t k ht
  have hsame := markInProgress_same t k
  exact ht.of_rows (ht.durable.step (markInProgress_step t k))
    (fun k' => (hsame k').1) (fun k' => (hsame k').2.1)
    (fun k' => (hsame k').2.2) rfl rfl

/-- A write changes its row. -/
theorem Wrote.rows_ne {t' : Tables} (hw : Wrote col t t' k new) :
    t'.rows k ≠ t.rows k := by
  intro heq
  have hhist := hw.history
  rw [Tables.upserts, heq, ← Tables.upserts] at hhist
  simpa using congrArg List.length hhist

/-- A write that was not made to wait met an unlocked row. -/
theorem Wrote.unlocked (hw : Wrote col s.tables t k new)
    (hblk : s.blocked t k = false) : s.locked k = false := by
  rw [Fleet.blocked, Bool.and_eq_false_iff] at hblk
  rcases hblk with h | h
  · exact h
  · exact absurd (by simpa using h) hw.rows_ne

theorem Wrote.durableEvents_same {t' : Tables} (hw : Wrote col t t' k new) :
    durableEvents t' k
      = durableEvents t k ∪ (new.map BudgetDelta.eventID).toFinset := by
  rw [durableEvents, hw.deltas_same, List.map_append, List.toFinset_append]
  rfl

/-- A write to an unlocked row: if no recovery pass owns the row
afterwards, the new events must be on the counter. -/
theorem MoneyInv.wrote (h : MoneyInv bill s)
    (hw : Wrote exactColumn s.tables s'.tables k new)
    (hnamed : ∀ d ∈ new, d.Named bill)
    (hfit : -2 ^ 63 ≤ sumNano new ∧ sumNano new < 2 ^ 63)
    (hunlocked : s.locked k = false)
    (hcounted : s'.tables.outageOwned k = false →
      ∀ d ∈ new, .event d.eventID ∈ s.nats.seen) (hnats : s'.nats = s.nats)
    (hscopes : s'.scopes = s.scopes) : MoneyInv bill s' := by
  have hrows : ∀ k', k' ≠ k →
      s'.tables.accumulated k' = s.tables.accumulated k'
        ∧ s'.tables.upserts k' = s.tables.upserts k'
        ∧ s'.tables.outageOwned k' = s.tables.outageOwned k' := by
    intro k' hk
    have hrow := hw.frame k' hk
    refine ⟨?_, ?_, ?_⟩
    · rw [Tables.accumulated, hrow]
      rfl
    · rw [Tables.upserts, hrow]
      rfl
    · rw [Tables.outageOwned, hrow]
      rfl
  have hdebt : ∀ k', k' ≠ k → debt bill s' k' = debt bill s k' :=
    fun k' hk => debt_congr (hrows k' hk).2.1 (by rw [hnats])
  refine ⟨h.durable.wrote hw hnamed, ?_, hnats ▸ h.counter,
    hnats ▸ h.replays, ?_, hscopes ▸ h.locks, ?_⟩
  · intro k' u hu
    by_cases hk : k' = k
    · subst hk
      rw [hw.history] at hu
      rcases List.mem_append.1 hu with hu | hu
      · exact h.fits k' u hu
      · rw [List.mem_singleton.1 hu]
        exact hfit
    · rw [(hrows k' hk).2.1] at hu
      exact h.fits k' u hu
  · intro k' hown
    rw [hnats]
    by_cases hk : k' = k
    · subst hk
      -- counted events are no debt, whichever row they reach
      have hsub : durableEvents s'.tables k'
            \ countedEvents bill s'.nats.seen k'
          ⊆ durableEvents s.tables k' \ countedEvents bill s.nats.seen k' := by
        intro id hid
        rw [Finset.mem_sdiff, hw.durableEvents_same, hnats,
          Finset.mem_union] at hid
        rw [Finset.mem_sdiff]
        refine ⟨?_, hid.2⟩
        rcases hid.1 with hid' | hid'
        · exact hid'
        · obtain ⟨d, hd, rfl⟩ := List.mem_map.1 (List.mem_toFinset.1 hid')
          refine absurd (mem_countedEvents.2 ⟨hcounted hown d hd, ?_⟩) hid.2
          rw [(hnamed d hd).key_eq, hw.keyed d hd]
      have heq : durableEvents s'.tables k'
            \ countedEvents bill s'.nats.seen k'
          = durableEvents s.tables k' \ countedEvents bill s.nats.seen k' := by
        refine Finset.Subset.antisymm hsub ?_
        rw [hnats, hw.durableEvents_same]
        exact Finset.sdiff_subset_sdiff Finset.subset_union_left subset_rfl
      have hsettled := h.settled k' (hw.owned hown)
      rw [debt, heq]
      exact hsettled
    · rw [hdebt k' hk]
      exact h.settled k' ((hrows k' hk).2.2 ▸ hown)
  · intro p hp
    rw [hscopes] at hp
    have hk : p.key ≠ k := by
      intro hpk
      rw [← Bool.not_eq_true, locked_iff] at hunlocked
      exact hunlocked (hpk ▸ List.mem_map_of_mem hp)
    obtain ⟨howned, hread, hrep, hfin⟩ := h.scope p hp
    obtain ⟨hacc, -, hown⟩ := hrows p.key hk
    refine ⟨?_, ?_, ?_, ?_⟩
    · rw [hown]
      exact howned
    · rw [hacc]
      exact hread
    · rw [hdebt _ hk, hnats]
      exact hrep
    · rw [hdebt _ hk, hnats]
      exact hfin

-- ==================================================== the recovery passes

/-- Taking scope `j` out leaves the others, all of other rows. -/
theorem scopes_eraseIdx (hnodup : (scopes.map ScopePass.key).Nodup)
    (hj : scopes[j]? = some p) :
    ((scopes.eraseIdx j).map ScopePass.key).Nodup
      ∧ ∀ q ∈ scopes.eraseIdx j, q ∈ scopes ∧ q.key ≠ p.key := by
  obtain ⟨hlt, rfl⟩ := List.getElem?_eq_some_iff.1 hj
  have hperm := (List.getElem_cons_eraseIdx_perm hlt).map ScopePass.key
  have hcons := (hperm.nodup_iff).2 hnodup
  rw [List.map_cons, List.nodup_cons] at hcons
  refine ⟨hcons.2, fun q hq => ⟨List.mem_of_mem_eraseIdx hq, ?_⟩⟩
  intro heq
  exact hcons.1 (heq ▸ List.mem_map_of_mem hq)

/-- Replacing scope `j` by one of the same row. -/
theorem scopes_set {p' : ScopePass} (hnodup : (scopes.map ScopePass.key).Nodup)
    (hj : scopes[j]? = some p) (hkey : p'.key = p.key) :
    ((scopes.set j p').map ScopePass.key).Nodup
      ∧ ∀ q ∈ scopes.set j p', q = p' ∨ (q ∈ scopes ∧ q.key ≠ p.key) := by
  obtain ⟨hlt, hget⟩ := List.getElem?_eq_some_iff.1 hj
  have hperm := List.set_perm_cons_eraseIdx hlt p'
  obtain ⟨hrest, hother⟩ := scopes_eraseIdx hnodup hj
  constructor
  · refine ((hperm.map ScopePass.key).nodup_iff).2 ?_
    rw [List.map_cons, List.nodup_cons]
    refine ⟨?_, hrest⟩
    intro hmem
    obtain ⟨q, hq, heq⟩ := List.mem_map.1 hmem
    exact (hother q hq).2 (heq.trans hkey)
  · intro q hq
    rcases List.mem_cons.1 (hperm.mem_iff.1 hq) with rfl | hq
    · exact .inl rfl
    · exact .inr (hother q hq)

/-- A scope's transaction is rolled back. -/
theorem MoneyInv.eraseScope (h : MoneyInv bill s) (hj : s.scopes[j]? = some p)
    : MoneyInv bill { s with scopes := s.scopes.eraseIdx j } := by
  obtain ⟨hnodup, hother⟩ := scopes_eraseIdx h.locks hj
  refine ⟨h.durable, h.fits, h.counter, h.replays, h.settled, hnodup, ?_⟩
  intro q hq
  obtain ⟨hown, hread, hrep, hfin⟩ := h.scope q (hother q hq).1
  exact ⟨hown, hread, hrep, hfin⟩

/-- A scope moves on, and is right about its row. -/
theorem MoneyInv.setScope (h : MoneyInv bill s) {p' : ScopePass}
    (hj : s.scopes[j]? = some p) (hkey : p'.key = p.key)
    (hok : ScopeOk bill s p') :
    MoneyInv bill { s with scopes := s.scopes.set j p' } := by
  obtain ⟨hnodup, hmem⟩ := scopes_set h.locks hj hkey
  refine ⟨h.durable, h.fits, h.counter, h.replays, h.settled, hnodup, ?_⟩
  intro q hq
  rcases hmem q hq with rfl | ⟨hq, -⟩
  · exact ⟨hok.owned, hok.read, hok.replay, hok.finalize⟩
  · obtain ⟨hown, hread, hrep, hfin⟩ := h.scope q hq
    exact ⟨hown, hread, hrep, hfin⟩

/-- A pass relocks an outage-owned row nobody holds. -/
theorem MoneyInv.relock (h : MoneyInv bill s) {r : AccRow}
    (hrow : s.tables.rows k = some r) (hown : r.outageOwned = true)
    (hunlocked : s.locked k = false) :
    MoneyInv bill
      { s with scopes := s.scopes ++ [⟨k, r.accumulated, .read⟩] } := by
  refine ⟨h.durable, h.fits, h.counter, h.replays, h.settled, ?_, ?_⟩
  · rw [List.map_append]
    refine h.locks.append (List.nodup_singleton _) ?_
    rw [← Bool.not_eq_true, locked_iff] at hunlocked
    simpa using hunlocked
  · intro p hp
    rcases List.mem_append.1 hp with hp | hp
    · obtain ⟨hown, hread, hrep, hfin⟩ := h.scope p hp
      exact ⟨hown, hread, hrep, hfin⟩
    · rw [List.mem_singleton.1 hp]
      refine ⟨?_, ?_, ?_, ?_⟩
      · rw [Tables.outageOwned, hrow]
        exact hown
      · rw [Tables.accumulated, hrow]
      · intro base hph
        cases hph
      · intro hph
        cases hph

/-- Every event on the counter of `k` is in the row of `k`. -/
def Caught (bill : String → DeltaKey × Int64) (s : Fleet) (k : DeltaKey) :
    Prop :=
  ∀ m ∈ s.nats.seen, ∀ id ∈ m.event?, (bill id).1 = k →
    id ∈ s.tables.processed

theorem Caught.subset (h : Caught bill s k)
    (hdur : DurableInv exactColumn bill s.tables) :
    countedEvents bill s.nats.seen k ⊆ durableEvents s.tables k := by
  intro id hid
  obtain ⟨hseen, hkey⟩ := mem_countedEvents.1 hid
  have hproc := h _ hseen id rfl hkey
  rw [hdur.claimed, hkey] at hproc
  exact mem_durableEvents.2 hproc

/-- A counter read when the row has caught up covers the debt. -/
theorem MoneyInv.readBudget (h : MoneyInv bill s)
    (hj : s.scopes[j]? = some ⟨k, acc, .read⟩) (hcaught : Caught bill s k) :
    MoneyInv bill { s with
      scopes := s.scopes.set j ⟨k, acc, .replay (s.nats.counter k)⟩ } := by
  obtain ⟨hown, hread, -, -⟩ := h.scope _ (List.mem_of_getElem? hj)
  simp only at hown hread
  refine h.setScope hj rfl ⟨hown, hread, ?_, fun hph => by cases hph⟩
  intro base hph
  cases hph
  refine ⟨Int.le_refl _, ?_, ?_⟩
  · intro b d hmem
    have := h.replays k b d hmem
    omega
  · have hacc := accumulated_eq_money h.durable (h.fits k)
    have hsplit : debt bill s k
        + money bill (countedEvents bill s.nats.seen k)
          = money bill (durableEvents s.tables k) :=
      Finset.sum_sdiff (hcaught.subset h.durable)
    have hcount := h.counter k
    simp only
    omega

/-- A replay reaches the counter: its id is new, and the debt of its row
is covered. -/
theorem MoneyInv.replay (h : MoneyInv bill s) {base : Int}
    (hj : s.scopes[j]? = some ⟨k, acc, .replay base⟩) (hshort : acc - base > 0)
    (hnodup : (scopes.map ScopePass.key).Nodup)
    (hmem : ∀ q ∈ scopes, q = ⟨k, acc, .finalize⟩ ∨ (q ∈ s.scopes ∧ q.key ≠ k))
    : MoneyInv bill { s with
      nats := s.nats.incr k (.recovery k base (acc - base)) (acc - base)
      scopes := scopes } := by
  obtain ⟨hown, hread, hrep, -⟩ := h.scope _ (List.mem_of_getElem? hj)
  obtain ⟨hbase, hids, hcov⟩ := hrep base rfl
  simp only at hown hread hbase hids hcov
  have hnew : .recovery k base (acc - base) ∉ s.nats.seen := by
    intro hin
    have := hids _ _ hin
    omega
  rw [Nats.incr, if_neg hnew]
  have hreplayed : ∀ k', replayed
      (.recovery k base (acc - base) :: s.nats.seen) k'
        = replayed s.nats.seen k' + if k = k' then acc - base else 0 := by
    intro k'
    simp only [replayed, List.map_cons, List.sum_cons, MsgID.replayOf]
    omega
  have hdebt : ∀ k', debt bill { s with
      nats := { s.nats with
        counter := Function.update s.nats.counter k
          (s.nats.counter k + (acc - base))
        seen := .recovery k base (acc - base) :: s.nats.seen }
      scopes := scopes } k' = debt bill s k' := by
    intro k'
    rw [debt, debt]
    simp only [countedEvents_cons_recovery]
  refine ⟨h.durable, h.fits, ?_, ?_, ?_, hnodup, ?_⟩
  · intro k'
    simp only [countedEvents_cons_recovery, hreplayed]
    by_cases hk : k = k'
    · subst hk
      rw [if_pos rfl, Function.update_self, h.counter k]
      omega
    · rw [if_neg hk, Function.update_of_ne (Ne.symm hk), h.counter k']
      omega
  · intro k' b d hin
    simp only [List.mem_cons, MsgID.recovery.injEq] at hin ⊢
    by_cases hk : k' = k
    · subst hk
      rw [Function.update_self]
      rcases hin with ⟨-, rfl, rfl⟩ | hin
      · omega
      · have := h.replays k' b d hin
        omega
    · rw [Function.update_of_ne hk]
      rcases hin with ⟨rfl, -, -⟩ | hin
      · exact absurd rfl hk
      · exact h.replays k' b d hin
  · intro k' hfree
    rw [hdebt]
    simp only [hreplayed]
    have hne : k ≠ k' := by
      rintro rfl
      rw [hown] at hfree
      cases hfree
    rw [if_neg hne, Int.add_zero]
    exact h.settled k' hfree
  · intro q hq
    rcases hmem q hq with rfl | ⟨hq, hne⟩
    · refine ⟨hown, hread, fun b hph => (by cases hph), fun _ => ?_⟩
      rw [hdebt]
      simp only [hreplayed, if_true]
      omega
    · obtain ⟨hown', hread', hrep', hfin'⟩ := h.scope q hq
      refine ⟨hown', hread', ?_, ?_⟩
      · intro b hph
        obtain ⟨hb, hids', hcov'⟩ := hrep' b hph
        rw [hdebt]
        simp only [hreplayed, if_neg (Ne.symm hne), Int.add_zero,
          Function.update_of_ne hne]
        refine ⟨hb, ?_, hcov'⟩
        intro b' d' hin
        simp only [List.mem_cons, MsgID.recovery.injEq] at hin
        rcases hin with ⟨hk, -, -⟩ | hin
        · exact absurd hk hne
        · exact hids' b' d' hin
      · intro hph
        rw [hdebt]
        simp only [hreplayed, if_neg (Ne.symm hne), Int.add_zero]
        exact hfin' hph

/-- Finalizing a row hands it back and touches no other. -/
theorem finalizeRow_same (t : Tables) (k k' : DeltaKey) :
    (finalizeRow t k).accumulated k' = t.accumulated k'
      ∧ (finalizeRow t k).upserts k' = t.upserts k'
      ∧ (k' ≠ k → (finalizeRow t k).outageOwned k' = t.outageOwned k') := by
  unfold finalizeRow
  split
  case h_1 => exact ⟨rfl, rfl, fun _ => rfl⟩
  case h_2 r hrow =>
    by_cases hk : k' = k
    · subst hk
      simp [Tables.accumulated, Tables.upserts, hrow]
    · simp [Tables.accumulated, Tables.upserts, Tables.outageOwned,
        setRow_rows_ne hk]

/-- A scope commits: its row is handed back with its debt settled. -/
theorem MoneyInv.finalize (h : MoneyInv bill s)
    (hj : s.scopes[j]? = some ⟨k, acc, .finalize⟩) :
    MoneyInv bill { s with
      tables := finalizeRow s.tables k
      scopes := s.scopes.eraseIdx j } := by
  obtain ⟨-, -, -, hfin⟩ := h.scope _ (List.mem_of_getElem? hj)
  obtain ⟨hnodup, hother⟩ := scopes_eraseIdx h.locks hj
  have hsame := finalizeRow_same s.tables k
  have hdebt : ∀ k', debt bill { s with
      tables := finalizeRow s.tables k
      scopes := s.scopes.eraseIdx j } k' = debt bill s k' :=
    fun k' => debt_congr (hsame k').2.1 rfl
  refine ⟨h.durable.step (finalizeRow_step s.tables k), ?_, h.counter,
    h.replays, ?_, hnodup, ?_⟩
  · intro k'
    simp only [(hsame k').2.1]
    exact h.fits k'
  · intro k' hfree
    rw [hdebt]
    by_cases hk : k' = k
    · subst hk
      exact hfin rfl
    · simp only [(hsame k').2.2 hk] at hfree
      exact h.settled k' hfree
  · intro q hq
    obtain ⟨hq, hne⟩ := hother q hq
    obtain ⟨hown', hread', hrep', hfin'⟩ := h.scope q hq
    refine ⟨?_, ?_, ?_, ?_⟩
    · simp only [(hsame q.key).2.2 hne]
      exact hown'
    · simp only [(hsame q.key).1]
      exact hread'
    · rw [hdebt]
      exact hrep'
    · rw [hdebt]
      exact hfin'

end Elitea.Budget
