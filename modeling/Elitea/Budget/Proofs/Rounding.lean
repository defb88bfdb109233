/-
What eight decimals keep of nano-USD, over whole runs.

# Where money is rounded

A delta is a whole number of 1e-9 USD and the columns keep 1e-8. The
accumulator rounds once per upsert, that is once per coalesced group;
the ledger rounds once per event. Two tables that are "the same money
seen two ways" therefore agree only when neither has anything to round,
and how far the accumulator is off depends on how the consumer happened
to group the deltas (`groups_of_three_nano`).

# What holds

The row is the sum of its upserts' rounded int64 sums
(`DurableInv.money`), the ledger the sum of its events' rounded amounts
(`LedgerInv`). Both are exact when every upsert of the row is a multiple
of ten nano-USD inside int64 and every event of it is such a multiple
and has its dimensions. The row is read back as a `bigint`, so its total
must be an int64 too.
-/
import Elitea.Budget.Proofs.ExactlyOnce

namespace Elitea.Budget

open Lib

variable {col : Column} {bill : String → DeltaKey × Int64} {k : DeltaKey}
  {t : Tables}

-- ============================================================= the ledger

/-- The ledger's money for a key: the rows whose event was billed to
it. -/
def ledgerSum (bill : String → DeltaKey × Int64) (usage : List UsageRow)
    (k : DeltaKey) : Int :=
  ((usage.filter fun row => (bill row.eventID).1 = k).map
    UsageRow.cost).sum

/-- What one delta brings to the ledger. -/
def ledgerCost (col : Column) (d : BudgetDelta) : Int :=
  if d.usage.isSome then col.round d.nano else 0

/-- A delta whose event is not in the ledger adds its cost to its
key. -/
theorem ledgerSum_ledgerAfter {reasoning : Bool} {usage : List UsageRow}
    {d : BudgetDelta} (hnamed : d.Named bill)
    (hnew : d.eventID ∉ usage.map UsageRow.eventID) (k : DeltaKey) :
    ledgerSum bill (ledgerAfter col reasoning usage d) k
      = ledgerSum bill usage k + if d.key = k then ledgerCost col d else 0 := by
  unfold ledgerAfter
  cases hu : d.usage with
  | none => simp [ledgerCost, hu]
  | some u =>
      have hrow : appendUsage usage (usageRow col reasoning d u)
          = usage ++ [usageRow col reasoning d u] := if_neg hnew
      have hkey : (bill (usageRow col reasoning d u).eventID).1 = d.key :=
        hnamed.key_eq
      simp only [hrow, ledgerSum, List.filter_append, List.map_append,
        List.sum_append, List.filter_cons, hkey, List.filter_nil]
      by_cases hk : d.key = k
      · simp [hk, ledgerCost, hu, usageRow]
      · simp [hk]

/-- New events of one key bring their costs to it and to no other. -/
theorem ledgerSum_foldl {reasoning : Bool} {new : List BudgetDelta}
    (hnamed : ∀ d ∈ new, d.Named bill) (hkey : ∀ d ∈ new, d.key = k)
    (hnodup : (new.map BudgetDelta.eventID).Nodup) {usage : List UsageRow}
    (hfresh : ∀ d ∈ new, d.eventID ∉ usage.map UsageRow.eventID)
    (k' : DeltaKey) :
    ledgerSum bill (new.foldl (ledgerAfter col reasoning) usage) k'
      = ledgerSum bill usage k'
        + if k = k' then (new.map (ledgerCost col)).sum else 0 := by
  induction new generalizing usage with
  | nil => simp
  | cons d new ih =>
      have hd : ledgerSum bill (ledgerAfter col reasoning usage d) k' = _ :=
        ledgerSum_ledgerAfter (hnamed d List.mem_cons_self)
          (hfresh d List.mem_cons_self) k'
      rw [List.map_cons, List.nodup_cons] at hnodup
      -- the rest is still new after `d`'s row
      have hrest : ∀ x ∈ new, x.eventID
          ∉ (ledgerAfter col reasoning usage d).map UsageRow.eventID := by
        intro x hx hin
        obtain ⟨row, hrow, hid⟩ := List.mem_map.1 hin
        have hfold : row ∈ [d].foldl (ledgerAfter col reasoning) usage := hrow
        rcases mem_ledger_foldl hfold with hrow | hrow
        · exact hfresh x (List.mem_cons_of_mem d hx)
            (List.mem_map.2 ⟨row, hrow, hid⟩)
        · rw [hid] at hrow
          have hxd : x.eventID = d.eventID := by simpa using hrow
          exact hnodup.1 (hxd ▸ List.mem_map_of_mem hx)
      rw [List.foldl_cons,
        ih (fun x hx => hnamed x (List.mem_cons_of_mem d hx))
          (fun x hx => hkey x (List.mem_cons_of_mem d hx)) hnodup.2 hrest,
        hd, hkey d List.mem_cons_self]
      split
      case isTrue => rw [List.map_cons, List.sum_cons]; omega
      case isFalse => omega

/-- The ledger holds the costs of the events in the rows. -/
def LedgerInv (col : Column) (bill : String → DeltaKey × Int64)
    (t : Tables) : Prop :=
  ∀ k, ledgerSum bill t.usage k = ((t.deltas k).map (ledgerCost col)).sum

/-- Every step but a prune keeps the ledger in agreement. -/
theorem LedgerInv.step {t' : Tables} (h : LedgerInv col bill t)
    (hinv : DurableInv col bill t) (hstep : TablesStep col bill t t') :
    LedgerInv col bill t' := by
  intro k
  cases hstep with
  | flags hproc hacc hhist husage =>
      rw [husage, Tables.deltas, hhist k]
      exact h k
  | wrote k' new hw hnamed =>
      obtain ⟨reasoning, husage⟩ := hw.usage
      have hfresh : ∀ d ∈ new, d.eventID ∉ t.usage.map UsageRow.eventID := by
        intro d hd hin
        obtain ⟨row, hrow, hid⟩ := List.mem_map.1 hin
        exact hw.fresh d hd (hid ▸ hinv.ledger row hrow)
      rw [husage, ledgerSum_foldl hnamed hw.keyed hw.nodup hfresh, h k]
      by_cases hk : k' = k
      · subst hk
        rw [if_pos rfl, hw.deltas_same, List.map_append, List.sum_append]
      · rw [if_neg hk, hw.deltas_ne (Ne.symm hk), Int.add_zero]

-- ======================================================== exact upserts

/-- The readers' accumulated amount, 0 without a row; past the range of a
`bigint` the query fails. -/
def Tables.readBack (t : Tables) (k : DeltaKey) : Option Int64 :=
  bigint (t.accumulated k)

/-- An upsert nothing is lost of: its deltas' sum is an int64 and a
multiple of ten nano-USD. -/
def ExactUpsert (u : List BudgetDelta) : Prop :=
  Fits64 (sumNano u) ∧ sumNano u % 10 = 0

/-- An event the ledger keeps whole: it has its dimensions and is a
multiple of ten nano-USD. -/
def ExactEvent (d : BudgetDelta) : Prop :=
  d.usage.isSome = true ∧ d.nano % 10 = 0

instance (u : List BudgetDelta) : Decidable (ExactUpsert u) := by
  unfold ExactUpsert Fits64
  infer_instance

instance (d : BudgetDelta) : Decidable (ExactEvent d) := by
  unfold ExactEvent
  infer_instance

/-- What an upsert adds to the row is its exact sum, exactly when the
upsert is exact. -/
theorem round_sum64_eq_iff (u : List BudgetDelta) :
    numeric20_8.round (sum64 u).toInt = sumNano u ↔ ExactUpsert u := by
  constructor
  · intro h
    have hlo := Int64.le_toInt (sum64 u)
    have hhi := Int64.toInt_lt (sum64 u)
    have hwrap := sum64_toInt u
    have hmod : sumNano u % 10 = 0 := by
      rw [← h]
      exact roundNano_mod _
    -- rounding moves the sum by five at most, an overflow by 2 ^ 64
    have hnear : roundNano (sum64 u).toInt - (sum64 u).toInt ≤ 5
        ∧ (sum64 u).toInt - roundNano (sum64 u).toInt ≤ 5 := by
      unfold roundNano
      split <;> omega
    have hround : roundNano (sum64 u).toInt = sumNano u := h
    have hsame : (sum64 u).toInt % 2 ^ 64 = sumNano u % 2 ^ 64 := by
      rw [hwrap]
      exact_mod_cast Int.bmod_emod
    exact ⟨⟨by omega, by omega⟩, hmod⟩
  · intro ⟨hfit, hmod⟩
    rw [sum64_eq_sumNano hfit.1 hfit.2]
    exact (roundNano_eq_self_iff _).2 hmod

/-- Exact upserts make an exact row. -/
theorem DurableInv.accumulated_eq_sumNano (h : DurableInv numeric20_8 bill t)
    (hexact : ∀ u ∈ t.upserts k, ExactUpsert u) :
    t.accumulated k = sumNano (t.deltas k) := by
  have hsum : (t.upserts k).map
      (fun u => numeric20_8.round (sum64 u).toInt)
        = (t.upserts k).map sumNano :=
    List.map_congr_left fun u hu => (round_sum64_eq_iff u).2 (hexact u hu)
  rw [h.money, hsum, sumNano, Tables.deltas, List.map_flatten,
    List.sum_flatten, List.map_map]
  rfl

/-- Exact events make an exact ledger. -/
theorem LedgerInv.ledgerSum_eq_sumNano (h : LedgerInv numeric20_8 bill t)
    (hexact : ∀ d ∈ t.deltas k, ExactEvent d) :
    ledgerSum bill t.usage k = sumNano (t.deltas k) := by
  rw [h k, sumNano]
  refine congrArg List.sum (List.map_congr_left fun d hd => ?_)
  rw [ledgerCost, if_pos (hexact d hd).1]
  exact (roundNano_eq_self_iff _).2 (hexact d hd).2

-- ============================================================= the result

/-- The steps of the writers; the prune takes rows out of the ledger. -/
def StoreOp.writes : StoreOp → Bool
  | .pruneUsageEvents _ _ => false
  | _ => true

/-- The accumulator and the ledger report the counter's money, while
nothing is rounded. In every state reached by any interleaving of the
writers: a row all of whose upserts are exact reads back the exact sum
of the deltas applied to it, if that is an int64, and else nothing; and
when its events are exact too, the ledger's rows of that scope and period
sum to the same. An upsert that is not exact adds a different amount. -/
theorem durable_money_exact {bill : String → DeltaKey × Int64}
    {ops : List StoreOp} {s : Durable}
    (hnamed : ∀ op ∈ ops, op.Named bill)
    (hwrites : ∀ op ∈ ops, op.writes = true)
    (hrun : run (storeStep numeric20_8) .start ops = some s)
    (k : DeltaKey) :
    ((∀ u ∈ s.tables.upserts k, ExactUpsert u) →
        (s.tables.readBack k).map Int64.toInt
          = if Fits64 (sumNano (s.tables.deltas k)) then
              some (sumNano (s.tables.deltas k)) else none)
      ∧ ((∀ u ∈ s.tables.upserts k, ExactUpsert u) →
        (∀ d ∈ s.tables.deltas k, ExactEvent d) →
        Fits64 (sumNano (s.tables.deltas k)) →
          (s.tables.readBack k).map Int64.toInt
            = some (ledgerSum bill s.tables.usage k))
      ∧ ∀ u, numeric20_8.round (sum64 u).toInt = sumNano u
          ↔ ExactUpsert u := by
  have hinv : ConsumerInv numeric20_8 bill s
      ∧ LedgerInv numeric20_8 bill s.tables := by
    refine @run_inv _ _ _
      (fun _ op => op.Named bill ∧ op.writes = true)
      (fun s => ConsumerInv numeric20_8 bill s
        ∧ LedgerInv numeric20_8 bill s.tables)
      ?_ ops _ s ⟨consumerInv_start, fun _ => rfl⟩
      (meets_of_forall ops _ fun op hop => ⟨hnamed op hop, hwrites op hop⟩)
      hrun
    intro s op s' ⟨hcons, hled⟩ ⟨hop, hw⟩ hstep
    refine ⟨consumerInv_step s op s' hcons hop hstep, ?_⟩
    rcases storeStep_tables hcons.waiting hop hstep with
      htab | ⟨now, picked, rfl, -⟩
    · exact hled.step hcons.tables htab
    · cases hw
  have hread : (∀ u ∈ s.tables.upserts k, ExactUpsert u) →
      (s.tables.readBack k).map Int64.toInt
        = if Fits64 (sumNano (s.tables.deltas k)) then
            some (sumNano (s.tables.deltas k)) else none := by
    intro hup
    rw [Tables.readBack, hinv.1.tables.accumulated_eq_sumNano hup,
      bigint_toInt]
  refine ⟨hread, ?_, round_sum64_eq_iff⟩
  intro hup hev hfits
  rw [hinv.2.ledgerSum_eq_sumNano hev, hread hup, if_pos hfits]

/-- Events of one project and period, each billing `nano`. -/
def billed (nano : Int64) (id : String) : BudgetDelta :=
  { eventID := id, scope := "project", scopeID := "7", projectID := 7
    periodStart := 100, periodEnd := 200, deltaNanoUSD := nano
    usage := some {} }

/-- A consumed group of two events, and a direct write of a third. -/
def groupedRun (nano : Int64) : List StoreOp :=
  [.processBatch [.mk 1 (billed nano "e1"), .mk 2 (billed nano "e2")],
   .applyGroup 0 false .clean,
   .persistHealthyDelta (billed nano "e3") false .clean]

/-- With 20 nano-USD each nothing is rounded, and all three agree. -/
theorem durable_money_exact_twenty :
    ∃ s, run (storeStep numeric20_8) .start (groupedRun 20) = some s
      ∧ sumNano (s.tables.deltas (billed 20 "e1").key) = 60
      ∧ (s.tables.readBack (billed 20 "e1").key).map Int64.toInt = some 60
      ∧ (s.tables.readBack (billed 20 "e1").key).map Int64.toInt
        = some (ledgerSum (fun id => ((billed 20 id).key, 20))
            s.tables.usage (billed 20 "e1").key) := by
  have hobs : (run (storeStep numeric20_8) .start (groupedRun 20)).map
      (fun s => decide (sumNano (s.tables.deltas (billed 20 "e1").key) = 60
        ∧ (∀ u ∈ s.tables.upserts (billed 20 "e1").key, ExactUpsert u)
        ∧ ∀ d ∈ s.tables.deltas (billed 20 "e1").key, ExactEvent d))
        = some true := by decide
  obtain ⟨s, hrun, hs⟩ := Option.map_eq_some_iff.1 hobs
  obtain ⟨hsum, hup, hev⟩ := of_decide_eq_true hs
  have hfits : Fits64 (sumNano (s.tables.deltas (billed 20 "e1").key)) := by
    rw [hsum]
    decide
  have hnamed : ∀ op ∈ groupedRun 20,
      op.Named fun id => ((billed 20 id).key, 20) := by decide
  have hmain := durable_money_exact hnamed (by decide) hrun
    (billed 20 "e1").key
  have hread := hmain.1 hup
  rw [if_pos hfits, hsum] at hread
  exact ⟨s, hrun, hsum, hread, hmain.2.1 hup hev hfits⟩

/-- With 3 nano-USD each, the same run: 9 were billed, the accumulator
reads back 10 (6 rounds up in the group, 3 rounds down alone), and the
ledger 0. -/
theorem groups_of_three_nano :
    (run (storeStep numeric20_8) .start (groupedRun 3)).map
      (fun s => (sumNano (s.tables.deltas (billed 3 "e1").key),
        (s.tables.readBack (billed 3 "e1").key).map Int64.toInt,
        ledgerSum (fun id => ((billed 3 id).key, 3)) s.tables.usage
          (billed 3 "e1").key))
      = some (9, some 10, 0) := by decide

end Elitea.Budget
