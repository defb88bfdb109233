/-
Durable spend is exactly-once, over every interleaving of its writers.

# The invariant

`DurableInv` ties the three tables together. An event id is claimed
exactly when its delta is in the history of its row, no row's history
holds an event twice, the row's money is the sum of its upserts, and a
ledger row belongs to a claimed event. It says nothing about who wrote
what: it is preserved by any `Wrote`, so it holds under any mix of the
consumer and the gateway's direct writes, and under any pattern of
aborts, since an aborted transaction changes nothing.

`ConsumerInv` adds the consumer: a waiting group has one key, and an
acknowledged message's event is claimed.
-/
import Elitea.Budget.Proofs.Writes
import Elitea.Budget.Writeback
import Mathlib.Algebra.BigOperators.Group.List.Basic

namespace Elitea.Budget

open Lib

variable {col : Column} {bill : String → DeltaKey × Int64} {t t' : Tables}
  {k : DeltaKey} {new : List BudgetDelta}

-- ========================================================= the invariant

/-- The three tables agree. -/
structure DurableInv (col : Column) (bill : String → DeltaKey × Int64)
    (t : Tables) : Prop where
  named : ∀ k, ∀ d ∈ t.deltas k, d.Named bill ∧ d.key = k
  nodup : ∀ k, ((t.deltas k).map BudgetDelta.eventID).Nodup
  claimed : ∀ id, id ∈ t.processed
    ↔ id ∈ (t.deltas (bill id).1).map BudgetDelta.eventID
  stored : ∀ k, col.round (t.accumulated k) = t.accumulated k
  money : ∀ k, t.accumulated k
    = ((t.upserts k).map fun u => col.round (sum64 u).toInt).sum
  ledger : ∀ row ∈ t.usage, row.eventID ∈ t.processed

theorem durableInv_empty : DurableInv col bill .empty where
  named k d hd := by cases hd
  nodup k := List.nodup_nil
  claimed id := by simp [Tables.empty, Tables.deltas, Tables.upserts]
  stored k := col.round_zero
  money k := rfl
  ledger row h := by cases h

theorem BudgetDelta.Named.key_eq {d : BudgetDelta} (h : d.Named bill) :
    (bill d.eventID).1 = d.key := by
  rw [h]

-- =============================================================== one write

theorem Wrote.deltas_same (hw : Wrote col t t' k new) :
    t'.deltas k = t.deltas k ++ new := by
  simp [Tables.deltas, hw.history]

theorem Wrote.deltas_ne {k' : DeltaKey} (hw : Wrote col t t' k new)
    (hk : k' ≠ k) : t'.deltas k' = t.deltas k' := by
  rw [Tables.deltas, Tables.upserts, hw.frame k' hk]
  rfl

/-- A row of the ledger after some deltas was there, or is one of
theirs. -/
theorem mem_ledger_foldl {reasoning : Bool} {usage : List UsageRow}
    {row : UsageRow} (h : row ∈ new.foldl (ledgerAfter col reasoning) usage) :
    row ∈ usage ∨ row.eventID ∈ new.map BudgetDelta.eventID := by
  induction new generalizing usage with
  | nil => exact .inl h
  | cons d new ih =>
      rw [List.foldl_cons] at h
      rcases ih h with h | h
      · unfold ledgerAfter appendUsage at h
        split at h
        case h_1 => exact .inl h
        case h_2 u _ =>
          split at h
          case isTrue => exact .inl h
          case isFalse =>
            rcases List.mem_append.1 h with h | h
            · exact .inl h
            · rw [List.mem_singleton.1 h]
              exact .inr List.mem_cons_self
      · exact .inr (List.mem_cons_of_mem _ h)

/-- A write of named deltas keeps the tables in agreement. -/
theorem DurableInv.wrote (h : DurableInv col bill t)
    (hw : Wrote col t t' k new) (hnamed : ∀ d ∈ new, d.Named bill) :
    DurableInv col bill t' := by
  -- a new id is in no row yet: a contained id is claimed
  have hout : ∀ d ∈ new, d.eventID ∉ (t.deltas k).map BudgetDelta.eventID := by
    intro d hd hin
    have hkey : (bill d.eventID).1 = k := by
      rw [(hnamed d hd).key_eq, hw.keyed d hd]
    exact hw.fresh d hd ((h.claimed d.eventID).2 (by rw [hkey]; exact hin))
  refine ⟨?_, ?_, ?_, ?_, ?_, ?_⟩
  · intro k' d hd
    by_cases hk : k' = k
    · subst hk
      rw [hw.deltas_same] at hd
      rcases List.mem_append.1 hd with hd | hd
      · exact h.named k' d hd
      · exact ⟨hnamed d hd, hw.keyed d hd⟩
    · rw [hw.deltas_ne hk] at hd
      exact h.named k' d hd
  · intro k'
    by_cases hk : k' = k
    · subst hk
      rw [hw.deltas_same, List.map_append]
      refine (h.nodup k').append hw.nodup ?_
      intro id hold hnew
      obtain ⟨d, hd, rfl⟩ := List.mem_map.1 hnew
      exact hout d hd hold
    · rw [hw.deltas_ne hk]
      exact h.nodup k'
  · intro id
    rw [hw.processed]
    by_cases hk : (bill id).1 = k
    · rw [hk, hw.deltas_same, List.map_append, List.mem_append,
        h.claimed, hk]
    · rw [hw.deltas_ne hk, h.claimed]
      refine or_iff_left ?_
      intro hnew
      obtain ⟨d, hd, rfl⟩ := List.mem_map.1 hnew
      exact hk ((hnamed d hd).key_eq.trans (hw.keyed d hd))
  · intro k'
    by_cases hk : k' = k
    · subst hk
      rw [hw.money, col.round_round]
    · rw [Tables.accumulated, hw.frame k' hk]
      exact h.stored k'
  · intro k'
    by_cases hk : k' = k
    · subst hk
      rw [hw.money, hw.history,
        col.round_add _ _ (h.stored k') (col.round_round _), h.money]
      simp
    · rw [Tables.accumulated, Tables.upserts, hw.frame k' hk]
      exact h.money k'
  · intro row hrow
    obtain ⟨reasoning, husage⟩ := hw.usage
    rw [husage] at hrow
    rw [hw.processed]
    rcases mem_ledger_foldl hrow with hrow | hrow
    · exact .inl (h.ledger row hrow)
    · exact .inr hrow

/-- What a step other than the prune can do to the tables: nothing or a
row flag, or a write of named deltas. -/
inductive TablesStep (col : Column) (bill : String → DeltaKey × Int64)
    (t t' : Tables) : Prop
  | flags (processed : t'.processed = t.processed)
      (money : ∀ k, t'.accumulated k = t.accumulated k)
      (history : ∀ k, t'.upserts k = t.upserts k)
      (usage : t'.usage = t.usage)
  | wrote (k : DeltaKey) (new : List BudgetDelta)
      (hw : Wrote col t t' k new) (named : ∀ d ∈ new, d.Named bill)

theorem TablesStep.refl (t : Tables) : TablesStep col bill t t :=
  .flags rfl (fun _ => rfl) (fun _ => rfl) rfl

/-- A flag of a row is no money. -/
theorem TablesStep.setFlags {r r' : AccRow} (hrow : t.rows k = some r)
    (hacc : r'.accumulated = r.accumulated) (hhist : r'.upserts = r.upserts) :
    TablesStep col bill t (t.setRow k r') := by
  refine .flags rfl ?_ ?_ rfl
  · intro k'
    by_cases hk : k' = k
    · subst hk
      simp [Tables.accumulated, hrow, hacc]
    · simp [Tables.accumulated, setRow_rows_ne hk]
  · intro k'
    by_cases hk : k' = k
    · subst hk
      simp [Tables.upserts, hrow, hhist]
    · simp [Tables.upserts, setRow_rows_ne hk]

theorem markInProgress_step (t : Tables) (k : DeltaKey) :
    TablesStep col bill t (markInProgress t k) := by
  unfold markInProgress
  split
  case h_1 => exact .refl t
  case h_2 r hrow => exact .setFlags hrow rfl rfl

theorem finalizeRow_step (t : Tables) (k : DeltaKey) :
    TablesStep col bill t (finalizeRow t k) := by
  unfold finalizeRow
  split
  case h_1 => exact .refl t
  case h_2 r hrow => exact .setFlags hrow rfl rfl

/-- No step forgets a claimed id. -/
theorem TablesStep.mono (h : TablesStep col bill t t') :
    ∀ id ∈ t.processed, id ∈ t'.processed := by
  intro id hid
  cases h with
  | flags hproc _ _ _ =>
      rw [hproc]
      exact hid
  | wrote k new hw _ =>
      rw [hw.processed]
      exact .inl hid

/-- A step that moves no money keeps the tables in agreement. -/
theorem DurableInv.of_same (h : DurableInv col bill t)
    (hproc : t'.processed = t.processed)
    (hacc : ∀ k, t'.accumulated k = t.accumulated k)
    (hhist : ∀ k, t'.upserts k = t.upserts k)
    (husage : ∀ row ∈ t'.usage, row ∈ t.usage) : DurableInv col bill t' := by
  have hdel : ∀ k, t'.deltas k = t.deltas k := by
    intro k
    rw [Tables.deltas, hhist k]
    rfl
  refine ⟨?_, ?_, ?_, ?_, ?_, ?_⟩
  · intro k
    rw [hdel k]
    exact h.named k
  · intro k
    rw [hdel k]
    exact h.nodup k
  · intro id
    rw [hproc, hdel]
    exact h.claimed id
  · intro k
    rw [hacc k]
    exact h.stored k
  · intro k
    rw [hacc k, hhist k]
    exact h.money k
  · intro row hrow
    rw [hproc]
    exact h.ledger row (husage row hrow)

/-- Every step keeps the tables in agreement. -/
theorem DurableInv.step (h : DurableInv col bill t)
    (hstep : TablesStep col bill t t') : DurableInv col bill t' := by
  cases hstep with
  | flags hproc hacc hhist husage =>
      exact h.of_same hproc hacc hhist fun row hrow => husage ▸ hrow
  | wrote k new hw hnamed => exact h.wrote hw hnamed

/-- The prune takes ledger rows only. -/
theorem DurableInv.pruneUsageEvents (h : DurableInv col bill t) (now : Int)
    (picked : List String) :
    DurableInv col bill (pruneUsageEvents t now picked) :=
  h.of_same rfl (fun _ => rfl) (fun _ => rfl)
    fun _ hrow => (List.mem_filter.1 hrow).1

-- =============================================================== the consumer

/-- A waiting delta: named, valid for its message, of the key `k`. -/
def Waits (bill : String → DeltaKey × Int64) (k : DeltaKey)
    (x : Decoded) : Prop :=
  x.delta.key = k ∧ x.delta.Named bill ∧ x.msg.data = some x.delta

theorem waits_addToGroup {groups : List (DeltaKey × List Decoded)}
    {x : Decoded} (hx : Waits bill x.delta.key x)
    (h : ∀ g ∈ groups, ∀ y ∈ g.2, Waits bill g.1 y) :
    ∀ g ∈ addToGroup groups x, ∀ y ∈ g.2, Waits bill g.1 y := by
  induction groups with
  | nil =>
      intro g hg y hy
      simp only [addToGroup, List.mem_singleton] at hg
      subst hg
      rw [List.mem_singleton.1 hy]
      exact hx
  | cons g0 rest ih =>
      obtain ⟨k, items⟩ := g0
      have hrest := ih fun g hg => h g (List.mem_cons_of_mem _ hg)
      have hhead := h (k, items) List.mem_cons_self
      intro g hg y hy
      simp only [addToGroup] at hg
      split at hg
      case isTrue hk =>
        rcases List.mem_cons.1 hg with rfl | hg
        · rcases List.mem_append.1 hy with hy | hy
          · exact hhead y hy
          · rw [List.mem_singleton.1 hy, hk]
            exact hx
        · exact h g (List.mem_cons_of_mem _ hg) y hy
      case isFalse =>
        rcases List.mem_cons.1 hg with rfl | hg
        · exact hhead y hy
        · exact hrest g hg y hy

/-- The groups of a batch of named messages have one key each. -/
theorem waits_coalesce {msgs : List Message}
    (hnamed : ∀ m ∈ msgs, ∀ d ∈ m.data, d.Named bill) :
    ∀ g ∈ coalesce msgs, ∃ k, ∀ x ∈ g, Waits bill k x := by
  have hdec : ∀ x ∈ msgs.filterMap Message.decode,
      Waits bill x.delta.key x := by
    intro x hx
    obtain ⟨m, hm, hdec⟩ := List.mem_filterMap.1 hx
    unfold Message.decode at hdec
    split at hdec
    case h_1 => cases hdec
    case h_2 d hdata =>
      split at hdec
      case isTrue => cases hdec
      case isFalse =>
        cases hdec
        exact ⟨rfl, hnamed m hm d hdata, hdata⟩
  have hfold : ∀ (xs : List Decoded) (groups : List (DeltaKey × List Decoded)),
      (∀ x ∈ xs, Waits bill x.delta.key x) →
      (∀ g ∈ groups, ∀ y ∈ g.2, Waits bill g.1 y) →
      ∀ g ∈ xs.foldl addToGroup groups, ∀ y ∈ g.2, Waits bill g.1 y := by
    intro xs
    induction xs with
    | nil => intro groups _ h; exact h
    | cons x xs ih =>
        intro groups hxs h
        exact ih _ (fun y hy => hxs y (List.mem_cons_of_mem _ hy))
          (waits_addToGroup (hxs x List.mem_cons_self) h)
  intro g hg
  obtain ⟨⟨k, items⟩, hin, rfl⟩ := List.mem_map.1 hg
  exact ⟨k, hfold _ [] hdec (fun _ h => by cases h) _ hin⟩

/-- The consumer and the tables agree. -/
structure ConsumerInv (col : Column) (bill : String → DeltaKey × Int64)
    (s : Durable) : Prop where
  tables : DurableInv col bill s.tables
  waiting : ∀ g ∈ s.groups, ∃ k, ∀ x ∈ g, Waits bill k x
  acked : ∀ m, (m, Settlement.ack) ∈ s.settled →
    ∃ d, m.data = some d ∧ d.eventID ∈ s.tables.processed

theorem consumerInv_start : ConsumerInv col bill .start where
  tables := durableInv_empty
  waiting g h := by cases h
  acked m h := by cases h

/-- `Apply` on a waiting group is a step of the tables. -/
theorem apply_step (reasoning : Bool) (f : SqlFault) (t : Tables)
    {items : List Decoded} (hitems : ∀ x ∈ items, Waits bill k x) :
    TablesStep col bill t
      (apply col reasoning f t (items.map Decoded.delta)).state := by
  have hkey : ∀ d ∈ items.map Decoded.delta, d.key = k := by
    intro d hd
    obtain ⟨x, hx, rfl⟩ := List.mem_map.1 hd
    exact (hitems x hx).1
  rcases @apply_wrote _ col reasoning f t _ hkey with
    hsame | ⟨new, -, hsub, hw, -⟩
  · rw [hsame]
    exact .refl t
  · refine .wrote k new hw fun d hd => ?_
    obtain ⟨x, hx, rfl⟩ := List.mem_map.1 (hsub d hd)
    exact (hitems x hx).2.1

/-- A direct write of a named delta is a step of the tables. -/
theorem TablesStep.of_persist {d : OutageDelta} (hnamed : d.Named bill)
    (h : t' = t ∨ Wrote col t t' d.key [d]) : TablesStep col bill t t' := by
  rcases h with rfl | hw
  · exact .refl t'
  · refine .wrote d.key [d] hw fun x hx => ?_
    rw [List.mem_singleton.1 hx]
    exact hnamed

theorem applyGroup_tables (reasoning : Bool) (f : SqlFault) (s : Durable)
    (items : List Decoded) :
    (applyGroup col reasoning f s items).tables
      = (apply col reasoning f s.tables
          (items.map Decoded.delta)).state := by
  unfold applyGroup
  simp only
  split
  case h_1 => split <;> rfl
  case h_2 => rfl
  case h_3 => rfl
  case h_4 => rfl
  case h_5 => rfl

/-- Every step is a step of the tables, or the prune. -/
theorem storeStep_tables {s s' : Durable} {op : StoreOp}
    (hwait : ∀ g ∈ s.groups, ∃ k, ∀ x ∈ g, Waits bill k x)
    (hnamed : op.Named bill) (hstep : storeStep col s op = some s') :
    TablesStep col bill s.tables s'.tables
      ∨ ∃ now picked, op = .pruneUsageEvents now picked
        ∧ s'.tables = pruneUsageEvents s.tables now picked := by
  cases op with
  | pruneUsageEvents now picked =>
      cases hstep
      exact .inr ⟨now, picked, rfl, rfl⟩
  | processBatch msgs => cases hstep; exact .inl (.refl _)
  | crash => cases hstep; exact .inl (.refl _)
  | applyGroup i reasoning f =>
      simp only [storeStep] at hstep
      split at hstep
      case h_1 => cases hstep
      case h_2 items hi =>
        cases hstep
        obtain ⟨k, hitems⟩ := hwait items (List.mem_of_getElem? hi)
        rw [applyGroup_tables]
        exact .inl (apply_step reasoning f s.tables hitems)
  | persistOutageDelta d reasoning f =>
      cases hstep
      exact .inl (.of_persist hnamed (persistOutageDelta_wrote ..))
  | persistHealthyDelta d reasoning f =>
      cases hstep
      exact .inl (.of_persist hnamed (persistHealthyDelta_wrote ..))
  | markInProgress k =>
      cases hstep
      exact .inl (markInProgress_step s.tables k)
  | finalizeRow k =>
      simp only [storeStep] at hstep
      split at hstep
      case h_2 => cases hstep
      case h_1 =>
        split at hstep
        case isFalse => cases hstep
        case isTrue =>
          cases hstep
          exact .inl (finalizeRow_step s.tables k)

/-- What every step keeps of the tables. -/
theorem DurableInv.storeStep {s s' : Durable} {op : StoreOp}
    (h : DurableInv col bill s.tables)
    (hwait : ∀ g ∈ s.groups, ∃ k, ∀ x ∈ g, Waits bill k x)
    (hnamed : op.Named bill) (hstep : storeStep col s op = some s') :
    DurableInv col bill s'.tables
      ∧ ∀ id ∈ s.tables.processed, id ∈ s'.tables.processed := by
  rcases storeStep_tables hwait hnamed hstep with
    htab | ⟨now, picked, -, heq⟩
  · exact ⟨h.step htab, htab.mono⟩
  · rw [heq]
    exact ⟨h.pruneUsageEvents now picked, fun _ hid => hid⟩

/-- The settlements and the queue after `applyGroup`: single deltas of
the group wait, or its messages are settled, and acknowledged only when
claimed. -/
theorem applyGroup_consumer (reasoning : Bool) (f : SqlFault) (s : Durable)
    {items : List Decoded} (hitems : ∀ x ∈ items, Waits bill k x) :
    (∀ g ∈ (applyGroup col reasoning f s items).groups,
        g ∈ s.groups ∨ ∀ x ∈ g, Waits bill k x)
      ∧ ∀ m, (m, Settlement.ack)
            ∈ (applyGroup col reasoning f s items).settled →
          (m, Settlement.ack) ∈ s.settled
            ∨ ∃ x ∈ items, x.msg = m
              ∧ x.delta.eventID
                ∈ (applyGroup col reasoning f s items).tables.processed := by
  rw [applyGroup_tables]
  -- settling with anything but an ack acknowledges nothing
  have hother : ∀ (how : Settlement), how ≠ .ack → ∀ m,
      (m, Settlement.ack) ∈ s.settled ++ items.map (fun x => (x.msg, how)) →
      (m, Settlement.ack) ∈ s.settled := by
    intro how hne m hm
    rcases List.mem_append.1 hm with hm | hm
    · exact hm
    · obtain ⟨x, -, heq⟩ := List.mem_map.1 hm
      exact absurd (Prod.mk.inj heq).2 hne
  unfold applyGroup
  simp only
  split
  case h_1 =>
    split
    case isTrue =>
      refine ⟨fun g hg => ?_, fun m hm => .inl hm⟩
      rcases List.mem_append.1 hg with hg | hg
      · obtain ⟨x, hx, rfl⟩ := List.mem_map.1 hg
        refine .inr fun y hy => ?_
        rw [List.mem_singleton.1 hy]
        exact hitems x hx
      · exact .inl hg
    case isFalse =>
      exact ⟨fun g hg => .inl hg,
        fun m hm => .inl (hother .term (by decide) m hm)⟩
  case h_2 =>
    exact ⟨fun g hg => .inl hg,
      fun m hm => .inl (hother .nak (by decide) m hm)⟩
  case h_3 =>
    exact ⟨fun g hg => .inl hg,
      fun m hm => .inl (hother .nak (by decide) m hm)⟩
  case h_4 =>
    exact ⟨fun g hg => .inl hg,
      fun m hm => .inl (hother .nak (by decide) m hm)⟩
  case h_5 hok =>
    refine ⟨fun g hg => .inl hg, fun m hm => ?_⟩
    rcases List.mem_append.1 hm with hm | hm
    · exact .inl hm
    · obtain ⟨x, hx, heq⟩ := List.mem_map.1 hm
      exact .inr ⟨x, hx, (Prod.mk.inj heq).1,
        apply_applied hok (List.mem_map_of_mem hx)⟩

/-- Every step of every writer keeps the agreement. -/
theorem consumerInv_step (s : Durable) (op : StoreOp) (s' : Durable)
    (h : ConsumerInv col bill s) (hnamed : op.Named bill)
    (hstep : storeStep col s op = some s') : ConsumerInv col bill s' := by
  obtain ⟨htab, hmono⟩ := h.tables.storeStep h.waiting hnamed hstep
  -- an acknowledgement given before the step
  have hold : ∀ m, (m, Settlement.ack) ∈ s.settled →
      ∃ d, m.data = some d ∧ d.eventID ∈ s'.tables.processed := by
    intro m hm
    obtain ⟨d, hd, hin⟩ := h.acked m hm
    exact ⟨d, hd, hmono _ hin⟩
  refine ⟨htab, ?_, ?_⟩
  · intro g hg
    cases op with
    | processBatch msgs =>
        cases hstep
        rcases List.mem_append.1 hg with hg | hg
        · exact h.waiting g hg
        · exact waits_coalesce hnamed g hg
    | applyGroup i reasoning f =>
        simp only [storeStep] at hstep
        split at hstep
        case h_1 => cases hstep
        case h_2 items hi =>
          cases hstep
          obtain ⟨k, hitems⟩ := h.waiting items (List.mem_of_getElem? hi)
          rcases (applyGroup_consumer reasoning f _ hitems).1 g hg with
            hg | hg
          · exact h.waiting g (List.mem_of_mem_eraseIdx hg)
          · exact ⟨k, hg⟩
    | finalizeRow k =>
        simp only [storeStep] at hstep
        split at hstep
        case h_2 => cases hstep
        case h_1 =>
          split at hstep
          case isFalse => cases hstep
          case isTrue => cases hstep; exact h.waiting g hg
    | crash => cases hstep; cases hg
    | persistOutageDelta | persistHealthyDelta | markInProgress
    | pruneUsageEvents => cases hstep; exact h.waiting g hg
  · intro m hm
    cases op with
    | processBatch msgs =>
        cases hstep
        rcases List.mem_append.1 hm with hm | hm
        · exact hold m hm
        · obtain ⟨m', -, heq⟩ := List.mem_map.1 hm
          cases heq
    | applyGroup i reasoning f =>
        simp only [storeStep] at hstep
        split at hstep
        case h_1 => cases hstep
        case h_2 items hi =>
          cases hstep
          obtain ⟨k, hitems⟩ := h.waiting items (List.mem_of_getElem? hi)
          rcases (applyGroup_consumer reasoning f _ hitems).2 m hm with
            hm | ⟨x, hx, rfl, hin⟩
          · exact hold m hm
          · exact ⟨x.delta, (hitems x hx).2.2, hin⟩
    | finalizeRow k =>
        simp only [storeStep] at hstep
        split at hstep
        case h_2 => cases hstep
        case h_1 =>
          split at hstep
          case isFalse => cases hstep
          case isTrue => cases hstep; exact hold m hm
    | crash | persistOutageDelta | persistHealthyDelta | markInProgress
    | pruneUsageEvents => cases hstep; exact hold m hm

-- ============================================================= the result

/-- How often the row of `k` contains the event `id`. -/
def Tables.contained (t : Tables) (k : DeltaKey) (id : String) : Nat :=
  ((t.deltas k).map BudgetDelta.eventID).count id

/-- Claimed exactly when contained once in the row of its key; never
contained twice, and never elsewhere. -/
theorem DurableInv.contained_iff (h : DurableInv col bill t) (id : String) :
    (id ∈ t.processed ↔ t.contained (bill id).1 id = 1)
      ∧ ∀ k, t.contained k id ≤ if k = (bill id).1 then 1 else 0 := by
  constructor
  · rw [h.claimed]
    constructor
    · exact List.count_eq_one_of_mem (h.nodup _)
    · intro hone
      exact List.count_pos_iff.1 (by rw [Tables.contained] at hone; omega)
  · intro k
    split
    case isTrue => exact List.nodup_iff_count_le_one.1 (h.nodup k) id
    case isFalse hk =>
      refine Nat.le_of_eq (List.count_eq_zero.2 fun hin => hk ?_)
      obtain ⟨d, hd, rfl⟩ := List.mem_map.1 hin
      rw [(h.named k d hd).1.key_eq, (h.named k d hd).2]

/-- The money of a row, when no group's sum left int64: the amounts of
the events it contains. -/
theorem DurableInv.accumulated_eq (h : DurableInv exactColumn bill t)
    (hfit : ∀ u ∈ t.upserts k, -2 ^ 63 ≤ sumNano u ∧ sumNano u < 2 ^ 63) :
    t.accumulated k
      = ((t.deltas k).map fun d => (bill d.eventID).2.toInt).sum := by
  have hsum : (t.upserts k).map (fun u => exactColumn.round (sum64 u).toInt)
      = (t.upserts k).map sumNano := by
    refine List.map_congr_left fun u hu => ?_
    exact sum64_eq_sumNano (hfit u hu).1 (hfit u hu).2
  have hamount : (t.deltas k).map (fun d => (bill d.eventID).2.toInt)
      = (t.deltas k).map BudgetDelta.nano := by
    refine List.map_congr_left fun d hd => ?_
    rw [(h.named k d hd).1]
    rfl
  rw [h.money, hsum, hamount, Tables.deltas, List.map_flatten,
    List.sum_flatten, List.map_map]
  rfl

/-- Durable spend is exactly-once. In every state that any interleaving
of the consumer, the two direct writes, the recovery updates and the
prune reaches, under any aborts: an event is claimed exactly when its
row contains it once, and no row contains it otherwise; a row's money is
the sum of its upserts, and with no int64 overflow in a group the sum of
its events' amounts; a deferred `Apply` and an aborted transaction
change nothing; and an acknowledged message's event is claimed. -/
theorem durable_spend_exactly_once {bill : String → DeltaKey × Int64}
    {ops : List StoreOp} {s : Durable}
    (hnamed : ∀ op ∈ ops, op.Named bill)
    (hrun : run (storeStep exactColumn) .start ops = some s) :
    (∀ id, (id ∈ s.tables.processed
          ↔ s.tables.contained (bill id).1 id = 1)
        ∧ ∀ k, s.tables.contained k id ≤ if k = (bill id).1 then 1 else 0)
      ∧ (∀ k, s.tables.accumulated k
          = ((s.tables.upserts k).map fun u => (sum64 u).toInt).sum)
      ∧ (∀ k, (∀ u ∈ s.tables.upserts k,
            -2 ^ 63 ≤ sumNano u ∧ sumNano u < 2 ^ 63) →
          s.tables.accumulated k
            = ((s.tables.deltas k).map
                fun d => (bill d.eventID).2.toInt).sum)
      ∧ (∀ reasoning f group,
          let r := apply exactColumn reasoning f s.tables group
          (r.result = .ok .deferred ∨ r.committed = false) →
            r.state = s.tables)
      ∧ (∀ reasoning f d,
          let r := persistOutageDelta exactColumn reasoning f s.tables d
          r.committed = false → r.state = s.tables)
      ∧ (∀ reasoning f d,
          let r := persistHealthyDelta exactColumn reasoning f s.tables d
          r.committed = false → r.state = s.tables)
      ∧ (∀ m, (m, Settlement.ack) ∈ s.settled →
          ∃ d, m.data = some d ∧ d.eventID ∈ s.tables.processed) := by
  have hinv : ConsumerInv exactColumn bill s :=
    @run_inv _ _ _ (fun _ op => op.Named bill) _ consumerInv_step ops _ s
      consumerInv_start (meets_of_forall ops _ hnamed) hrun
  refine ⟨hinv.tables.contained_iff, hinv.tables.money,
    fun k => hinv.tables.accumulated_eq, ?_, ?_, ?_, hinv.acked⟩
  · intro reasoning f group r h
    rcases h with h | h
    · exact apply_deferred h
    · exact transact_aborted h
  · intro reasoning f d r h
    exact persist_aborted h
  · intro reasoning f d r h
    exact persist_aborted h

/-- Two events of one project and period. -/
def twoEvents (id : String) : BudgetDelta :=
  { eventID := id, scope := "project", scopeID := "7", projectID := 7
    periodStart := 100, periodEnd := 200
    deltaNanoUSD := if id = "e1" then 3 else 4
    usage := if id = "e1" then none else some { occurredAtUnix := 150 } }

/-- The outage write of `e1` is faster than the consumer, which defers
both events, and after the recovery pass applies only `e2`. -/
def deferredRun : List StoreOp :=
  let batch := [Message.mk 1 (twoEvents "e1"), .mk 2 (twoEvents "e2"),
    .mk 3 none]
  [.processBatch batch, .persistOutageDelta (twoEvents "e1") false .clean,
   .applyGroup 0 false .clean, .processBatch batch,
   .markInProgress (twoEvents "e1").key,
   .applyGroup 0 false (.stmt 2 .transient),
   .finalizeRow (twoEvents "e1").key, .processBatch batch,
   .applyGroup 0 false (.commitLost .transient), .processBatch batch,
   .applyGroup 0 false .clean, .pruneUsageEvents 40000000 ["e2"]]

/-- The run goes through, and the row holds each event once. -/
theorem durable_spend_exactly_once_deferred :
    ∃ s, run (storeStep exactColumn) .start deferredRun = some s
      ∧ (∀ op ∈ deferredRun, op.Named
          fun id => ((twoEvents id).key, (twoEvents id).deltaNanoUSD))
      ∧ s.tables.accumulated (twoEvents "e1").key = 7
      ∧ (∀ id, id ∈ s.tables.processed
          ↔ s.tables.contained (twoEvents id).key id = 1) := by
  have hnamed : ∀ op ∈ deferredRun, op.Named
      fun id => ((twoEvents id).key, (twoEvents id).deltaNanoUSD) := by
    decide
  have hobs : (run (storeStep exactColumn) .start deferredRun).map
      (fun s => s.tables.accumulated (twoEvents "e1").key) = some 7 := by
    decide
  obtain ⟨s, hrun, hacc⟩ := Option.map_eq_some_iff.1 hobs
  exact ⟨s, hrun, hnamed, hacc,
    fun id => ((durable_spend_exactly_once hnamed hrun).1 id).1⟩

end Elitea.Budget
