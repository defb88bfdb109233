/-
What a committed write of the durable tier does, said once.

# One effect for three writers

`Store.Apply`, `PersistOutageDelta` and `PersistHealthyDelta` reach the
tables through different statements and different guards, but a
committed one does nothing, or it does this: it claims the ids of some
new deltas of one key, adds their int64 sum to the row of that key, and
appends their ledger rows (`Wrote`). Every invariant of the durable
tier is proved from `Wrote` alone; the transactions are opened here and
nowhere else.
-/
import Elitea.Budget.Store
import Elitea.Lib.Runs
import Mathlib.Algebra.BigOperators.Group.List.Basic
import Mathlib.Data.List.Nodup

namespace Elitea.Budget

open Lib

variable {reasoning : Bool} {f : SqlFault} {group new : List BudgetDelta}
  {c : Claims} {nano : Int} {d : BudgetDelta}
  {write : Nat → Tables → Except ErrClass (Nat × Tables)}

-- ============================================================== int64 sums

/-- The int64 sum of a group, in the order the source adds. -/
def sum64 (ds : List BudgetDelta) : Int64 :=
  ds.foldl (fun s d => s + d.deltaNanoUSD) 0

/-- The exact sum of a group. -/
def sumNano (ds : List BudgetDelta) : Int := (ds.map BudgetDelta.nano).sum

theorem foldl_add_toInt (ds : List BudgetDelta) (a : Int64) :
    (ds.foldl (fun s d => s + d.deltaNanoUSD) a).toInt
      = (a.toInt + sumNano ds).bmod (2 ^ 64) := by
  induction ds generalizing a with
  | nil =>
      simp only [sumNano, List.foldl_nil, List.map_nil, List.sum_nil,
        Int.add_zero]
      exact (Int64.toInt_bmod_size a).symm
  | cons d ds ih =>
      rw [List.foldl_cons, ih, Int64.toInt_add, Int.bmod_add_bmod]
      simp only [sumNano, BudgetDelta.nano, List.map_cons, List.sum_cons,
        Int.add_assoc]

/-- Wrapping at every addition is wrapping once. -/
theorem sum64_toInt (ds : List BudgetDelta) :
    (sum64 ds).toInt = (sumNano ds).bmod (2 ^ 64) := by
  have h := foldl_add_toInt ds 0
  rw [Int64.toInt_zero, Int.zero_add] at h
  exact h

/-- A sum that fits is the exact sum. -/
theorem sum64_eq_sumNano {ds : List BudgetDelta}
    (hlo : -2 ^ 63 ≤ sumNano ds) (hhi : sumNano ds < 2 ^ 63) :
    (sum64 ds).toInt = sumNano ds := by
  rw [sum64_toInt]
  exact Int.bmod_eq_of_le (by omega) (by omega)

@[simp] theorem sum64_singleton (d : BudgetDelta) :
    sum64 [d] = d.deltaNanoUSD := by
  simp [sum64]

-- ============================================================= the effect

/-- The money of a row, nothing for a row that does not exist. -/
def Tables.accumulated (t : Tables) (k : DeltaKey) : Int :=
  match t.rows k with
  | none => 0
  | some r => r.accumulated

/-- The deltas of a row, upsert by upsert. -/
def Tables.upserts (t : Tables) (k : DeltaKey) : List (List BudgetDelta) :=
  match t.rows k with
  | none => []
  | some r => r.upserts

/-- The deltas a row contains. -/
def Tables.deltas (t : Tables) (k : DeltaKey) : List BudgetDelta :=
  (t.upserts k).flatten

/-- The recovery pass owns the row. -/
def Tables.outageOwned (t : Tables) (k : DeltaKey) : Bool :=
  match t.rows k with
  | none => false
  | some r => r.outageOwned

/-- A committed write added `new` to the row of `k`. -/
structure Wrote (col : Column) (t t' : Tables) (k : DeltaKey)
    (new : List BudgetDelta) : Prop where
  keyed : ∀ d ∈ new, d.key = k
  fresh : ∀ d ∈ new, d.eventID ∉ t.processed
  nodup : (new.map BudgetDelta.eventID).Nodup
  processed : ∀ id, id ∈ t'.processed
    ↔ id ∈ t.processed ∨ id ∈ new.map BudgetDelta.eventID
  money : t'.accumulated k
    = col.round (t.accumulated k + col.round (sum64 new).toInt)
  history : t'.upserts k = t.upserts k ++ [new]
  frame : ∀ k', k' ≠ k → t'.rows k' = t.rows k'
  usage : ∃ reasoning,
    t'.usage = new.foldl (ledgerAfter col reasoning) t.usage
  /-- A row that is not owned afterwards was not owned before. -/
  owned : t'.outageOwned k = false → t.outageOwned k = false

section Rows

variable {col : Column} {t : Tables} {k : DeltaKey} {r : AccRow}

@[simp] theorem setRow_rows_same :
    (t.setRow k r).rows k = some r := by
  simp [Tables.setRow]

theorem setRow_rows_ne {k' : DeltaKey} (h : k' ≠ k) :
    (t.setRow k r).rows k' = t.rows k' := by
  simp [Tables.setRow, Function.update_of_ne h]

@[simp] theorem setRow_processed : (t.setRow k r).processed = t.processed :=
  rfl

@[simp] theorem setRow_usage : (t.setRow k r).usage = t.usage := rfl

@[simp] theorem ledger_rows {reasoning : Bool} {d : BudgetDelta} :
    (t.ledger col reasoning d).rows = t.rows := rfl

@[simp] theorem ledger_processed {reasoning : Bool} {d : BudgetDelta} :
    (t.ledger col reasoning d).processed = t.processed := rfl

@[simp] theorem claim_rows {id : String} : (t.claim id).rows = t.rows := rfl

@[simp] theorem claim_usage {id : String} : (t.claim id).usage = t.usage :=
  rfl

end Rows

/-- What an upsert of `new` does to the rows: the money and the history
of one key. -/
structure Upserted (col : Column) (t t' : Tables) (k : DeltaKey)
    (nano : Int) (new : List BudgetDelta) : Prop where
  processed : t'.processed = t.processed
  usage : t'.usage = t.usage
  money : t'.accumulated k = col.round (t.accumulated k + col.round nano)
  history : t'.upserts k = t.upserts k ++ [new]
  frame : ∀ k', k' ≠ k → t'.rows k' = t.rows k'
  owned : t'.outageOwned k = false → t.outageOwned k = false

theorem upserted_fresh {col : Column} {t : Tables} {head : BudgetDelta}
    {outage : Bool} (hrow : t.rows head.key = none) :
    Upserted col t (t.setRow head.key (freshRow col head nano outage new))
      head.key nano new where
  processed := rfl
  usage := rfl
  money := by
    simp [Tables.accumulated, hrow, freshRow, col.round_round]
  history := by simp [Tables.upserts, hrow, freshRow]
  frame k' hk := setRow_rows_ne hk
  owned _ := by simp [Tables.outageOwned, hrow]

theorem upserted_add {col : Column} {t : Tables} {k : DeltaKey} {r r' : AccRow}
    (hrow : t.rows k = some r)
    (hmoney : r'.accumulated = (r.add col nano new).accumulated)
    (hhist : r'.upserts = r.upserts ++ [new])
    (howned : r'.outageOwned = false → r.outageOwned = false) :
    Upserted col t (t.setRow k r') k nano new where
  processed := rfl
  usage := rfl
  money := by simp [Tables.accumulated, hrow, hmoney, AccRow.add]
  history := by simp [Tables.upserts, hrow, hhist]
  frame k' hk := setRow_rows_ne hk
  owned := by simpa [Tables.outageOwned, hrow] using howned

/-- An upsert that affected a row added to a row no recovery owned. -/
theorem upsert_spec {col : Column} {t : Tables} {head : BudgetDelta}
    (h : (upsert col t head nano new).2 ≠ 0) :
    Upserted col t (upsert col t head nano new).1 head.key nano new
      ∧ t.outageOwned head.key = false := by
  unfold upsert at h ⊢
  cases hrow : t.rows head.key with
  | none =>
      exact ⟨upserted_fresh hrow, by simp [Tables.outageOwned, hrow]⟩
  | some r =>
      cases hown : r.outageOwned with
      | true => simp [hrow, hown] at h
      | false =>
          refine ⟨?_, by simp [Tables.outageOwned, hrow, hown]⟩
          simp only [hown, Bool.false_eq_true, if_false]
          exact upserted_add hrow rfl rfl fun _ => hown

/-- An outage upsert adds, and the recovery pass owns the row. -/
theorem outageUpsert_spec (col : Column) (t : Tables) (d : OutageDelta) :
    Upserted col t (outageUpsert col t d) d.key d.nano [d]
      ∧ (outageUpsert col t d).outageOwned d.key = true := by
  unfold outageUpsert
  cases hrow : t.rows d.key with
  | none =>
      exact ⟨upserted_fresh hrow,
        by simp [Tables.outageOwned, freshRow, AccRow.outageOwned]⟩
  | some r =>
      refine ⟨upserted_add hrow rfl rfl ?_,
        by simp [Tables.outageOwned, AccRow.outageOwned]⟩
      intro h
      simp [AccRow.outageOwned] at h

-- ========================================================== the claim loop

/-- One round of the claim loop that met no error. -/
def claimOne (col : Column) (reasoning : Bool) (c : Claims)
    (d : BudgetDelta) : Claims :=
  if d.eventID ∈ c.tables.processed then c else c.take col reasoning d

/-- A claim loop that returns ran every round. -/
theorem claimGroup_ok {col : Column} {ds : List BudgetDelta} {n m : Nat}
    {c' : Claims} (h : claimGroup col reasoning f n c ds = .ok (m, c')) :
    c' = ds.foldl (claimOne col reasoning) c := by
  induction ds generalizing n c with
  | nil =>
      simp only [claimGroup, Except.ok.injEq, Prod.mk.injEq] at h
      exact h.2.symm
  | cons d ds ih =>
      rw [List.foldl_cons]
      simp only [claimGroup] at h
      split at h
      case h_1 => cases h
      case h_2 =>
        split at h
        case isTrue hseen =>
          rw [claimOne, if_pos hseen]
          exact ih h
        case isFalse hseen =>
          rw [claimOne, if_neg hseen]
          split at h
          case isTrue => exact ih h
          case isFalse =>
            split at h
            case h_1 => cases h
            case h_2 => exact ih h

/-- What the claim loop has staged, against the tables it started on. -/
structure Claimed (col : Column) (reasoning : Bool) (t : Tables)
    (group : List BudgetDelta) (c : Claims) : Prop where
  rows : c.tables.rows = t.rows
  processed : ∀ id, id ∈ c.tables.processed
    ↔ id ∈ t.processed ∨ id ∈ c.new.map BudgetDelta.eventID
  fresh : ∀ d ∈ c.new, d.eventID ∉ t.processed
  nodup : (c.new.map BudgetDelta.eventID).Nodup
  sum : c.sumNano = sum64 c.new
  usage : c.tables.usage = c.new.foldl (ledgerAfter col reasoning) t.usage
  member : ∀ d ∈ c.new, d ∈ group
  unchanged : c.new = [] → c.tables = t

theorem claimed_start (col : Column) (reasoning : Bool) (t : Tables)
    (group : List BudgetDelta) :
    Claimed col reasoning t group ⟨t, 0, []⟩ where
  rows := rfl
  processed id := by simp
  fresh d hd := by cases hd
  nodup := List.nodup_nil
  sum := rfl
  usage := rfl
  member d hd := by cases hd
  unchanged _ := rfl

theorem claimed_one {col : Column} {t : Tables}
    (h : Claimed col reasoning t group c) (hd : d ∈ group) :
    Claimed col reasoning t group (claimOne col reasoning c d) := by
  unfold claimOne
  split
  case isTrue => exact h
  case isFalse hnew =>
    have hnot : d.eventID ∉ t.processed ∧
        d.eventID ∉ c.new.map BudgetDelta.eventID := by
      simpa [h.processed] using hnew
    refine ⟨h.rows, ?_, ?_, ?_, ?_, ?_, ?_, ?_⟩
    · intro id
      have := h.processed id
      simp only [Claims.take, ledger_processed, Tables.claim,
        List.mem_cons, List.map_append, List.map_cons, List.map_nil,
        List.mem_append, List.not_mem_nil, or_false]
      tauto
    · intro x hx
      rcases List.mem_append.1 hx with hx | hx
      · exact h.fresh x hx
      · rw [List.mem_singleton.1 hx]
        exact hnot.1
    · simp only [Claims.take, List.map_append, List.map_cons, List.map_nil]
      exact h.nodup.append (List.nodup_singleton _)
        (by simpa using hnot.2)
    · simp [Claims.take, h.sum, sum64, List.foldl_append]
    · simp [Claims.take, Tables.ledger, h.usage, List.foldl_append]
    · intro x hx
      rcases List.mem_append.1 hx with hx | hx
      · exact h.member x hx
      · rw [List.mem_singleton.1 hx]
        exact hd
    · intro hnil
      simp [Claims.take] at hnil

/-- The loop stages the new events of its group and nothing else. -/
theorem claimed_loop {col : Column} {t : Tables} (ds : List BudgetDelta)
    (hsub : ∀ d ∈ ds, d ∈ group) (h : Claimed col reasoning t group c) :
    Claimed col reasoning t group (ds.foldl (claimOne col reasoning) c) := by
  induction ds generalizing c with
  | nil => exact h
  | cons d ds ih =>
      rw [List.foldl_cons]
      exact ih (fun x hx => hsub x (List.mem_cons_of_mem d hx))
        (claimed_one h (hsub d List.mem_cons_self))

/-- The loop never forgets an id. -/
theorem mem_processed_foldl {col : Column} (ds : List BudgetDelta)
    {id : String} (h : id ∈ c.tables.processed) :
    id ∈ (ds.foldl (claimOne col reasoning) c).tables.processed := by
  refine @foldl_inv _ _ _ (fun c => id ∈ c.tables.processed) ?_ ds c h
  intro c d hc
  unfold claimOne
  split
  case isTrue => exact hc
  case isFalse => exact List.mem_cons_of_mem _ hc

/-- After the loop every id of the group is claimed. -/
theorem group_processed {col : Column} (ds : List BudgetDelta) (hd : d ∈ ds) :
    d.eventID
      ∈ (ds.foldl (claimOne col reasoning) c).tables.processed := by
  induction ds generalizing c with
  | nil => cases hd
  | cons x ds ih =>
      rw [List.foldl_cons]
      rcases List.mem_cons.1 hd with rfl | hd
      · apply mem_processed_foldl
        unfold claimOne
        split
        case isTrue hseen => exact hseen
        case isFalse => exact List.mem_cons_self
      · exact ih hd

-- ================================================================== Apply

/-- How `Apply`'s body ends when it meets no error: it defers, or it
commits its claims, with at least one new event on top of them the
upsert of their sum. -/
theorem applyBody_ok {col : Column} {t : Tables}
    {fin : Finish Tables ApplyOutcome}
    (h : applyBody col reasoning f t group = .ok fin) :
    fin = .rollback .deferred
      ∨ ∃ n staged c, fin = .commit n staged .applied
        ∧ c = group.foldl (claimOne col reasoning) ⟨t, 0, []⟩
        ∧ ((staged = c.tables ∧ c.new = [])
          ∨ ∃ head ∈ group, c.new ≠ []
            ∧ (upsert col c.tables head c.sumNano.toInt c.new).2 ≠ 0
            ∧ staged = (upsert col c.tables head c.sumNano.toInt c.new).1) := by
  unfold applyBody at h
  split at h
  case h_1 => cases h
  case h_2 m c hclaim =>
    have hc := claimGroup_ok hclaim
    split at h
    case h_1 hhead =>
      -- an empty group claims nothing
      simp only [Except.ok.injEq] at h
      have hnil : group = [] := List.head?_eq_none_iff.1 hhead
      exact .inr ⟨m, c.tables, c, h.symm, hc,
        .inl ⟨rfl, by rw [hc, hnil]; rfl⟩⟩
    case h_2 hnew _ =>
      simp only [Except.ok.injEq] at h
      exact .inr ⟨m, c.tables, c, h.symm, hc, .inl ⟨rfl, hnew⟩⟩
    case h_3 head x xs hhead hnew =>
      split at h
      case h_1 => cases h
      case h_2 =>
        simp only at h
        split at h
        case isTrue =>
          simp only [Except.ok.injEq] at h
          exact .inl h.symm
        case isFalse haff =>
          simp only [Except.ok.injEq] at h
          have hmem : head ∈ group := List.mem_of_mem_head? hhead
          have hne : c.new ≠ [] := by
            rw [hnew]
            exact List.cons_ne_nil x xs
          exact .inr ⟨_, _, c, h.symm, hc,
            .inr ⟨head, hmem, hne, haff, rfl⟩⟩

/-- `Apply` on a group of one key leaves the tables alone, or adds new
deltas of the group to a row that no recovery pass owns. -/
theorem apply_wrote {col : Column} (reasoning : Bool) (f : SqlFault)
    (t : Tables) {k : DeltaKey} (hkey : ∀ d ∈ group, d.key = k) :
    (apply col reasoning f t group).state = t
      ∨ ∃ new, new ≠ [] ∧ (∀ d ∈ new, d ∈ group)
        ∧ Wrote col t (apply col reasoning f t group).state k new
        ∧ t.outageOwned k = false := by
  rcases transact_cases f t (applyBody col reasoning f t group) with
    ⟨-, n, staged, out, hbody, hstate⟩ | ⟨-, hstate⟩
  case inr => exact .inl hstate
  rcases applyBody_ok hbody with hfin | ⟨n', staged', c, hfin, hc, hcase⟩
  case inl => cases hfin
  cases hfin
  have hcl : Claimed col reasoning t group c := by
    rw [hc]
    exact claimed_loop group (fun _ hd => hd) (claimed_start ..)
  unfold apply
  rw [hstate]
  rcases hcase with ⟨hst, hnil⟩ | ⟨head, hhead, hne, haff, hst⟩
  · left
    rw [hst, hcl.unchanged hnil]
  · right
    obtain ⟨hup, hfree⟩ := upsert_spec haff
    rw [hkey head hhead] at hup hfree
    rw [← hst] at hup
    -- the claims left the rows alone, so the upsert met the row of `t`
    have hacc : c.tables.accumulated k = t.accumulated k := by
      rw [Tables.accumulated, Tables.accumulated, hcl.rows]
    have hhist : c.tables.upserts k = t.upserts k := by
      rw [Tables.upserts, Tables.upserts, hcl.rows]
    have hown : c.tables.outageOwned k = t.outageOwned k := by
      rw [Tables.outageOwned, Tables.outageOwned, hcl.rows]
    refine ⟨c.new, hne, hcl.member, ?_, by rw [← hown, hfree]⟩
    refine ⟨?_, hcl.fresh, hcl.nodup, ?_, ?_, ?_, ?_, ?_, ?_⟩
    · exact fun d hd => hkey d (hcl.member d hd)
    · intro id
      rw [hup.processed]
      exact hcl.processed id
    · rw [hup.money, hacc, hcl.sum]
    · rw [hup.history, hhist]
    · intro k' hk
      rw [hup.frame k' hk, hcl.rows]
    · exact ⟨reasoning, by rw [hup.usage, hcl.usage]⟩
    · intro h
      rw [← hown]
      exact hup.owned h

/-- An acknowledged group is claimed, all of it. -/
theorem apply_applied {col : Column} {t : Tables}
    (h : (apply col reasoning f t group).result = .ok .applied)
    (hd : d ∈ group) :
    d.eventID ∈ (apply col reasoning f t group).state.processed := by
  rcases transact_ok h with ⟨n, staged, hbody, hstate⟩ | ⟨hbody, -⟩
  · rcases applyBody_ok hbody with hfin | ⟨n', staged', c, hfin, hc, hcase⟩
    · cases hfin
    · cases hfin
      have hin : d.eventID ∈ c.tables.processed := by
        rw [hc]
        exact group_processed group hd
      unfold apply
      rw [hstate]
      rcases hcase with ⟨hst, -⟩ | ⟨head, -, -, haff, hst⟩
      · rw [hst]
        exact hin
      · rw [hst, (upsert_spec haff).1.processed]
        exact hin
  · -- the only rollback `Apply` asks for is the deferral
    rcases applyBody_ok hbody with hfin | ⟨n', staged', c, hfin, -⟩
    · cases hfin
    · cases hfin

/-- A deferred group leaves the tables as they were. -/
theorem apply_deferred {col : Column} {t : Tables}
    (h : (apply col reasoning f t group).result = .ok .deferred) :
    (apply col reasoning f t group).state = t := by
  rcases transact_ok h with ⟨n, staged, hbody, -⟩ | ⟨-, hstate⟩
  · rcases applyBody_ok hbody with hfin | ⟨n', staged', c, hfin, -⟩
    · cases hfin
    · cases hfin
  · exact hstate

-- ====================================================== the direct writes

/-- A row statement of a direct write: it upserts the one delta. -/
def RowWrite (col : Column) (d : OutageDelta)
    (write : Nat → Tables → Except ErrClass (Nat × Tables)) : Prop :=
  ∀ n t m t', write n t = .ok (m, t') →
    Upserted col t t' d.key d.nano [d]

theorem writeOutage_rowWrite (col : Column) (f : SqlFault)
    (d : OutageDelta) : RowWrite col d (writeOutage col f d) := by
  intro n t m t' h
  unfold writeOutage at h
  split at h
  case h_1 => cases h
  case h_2 =>
    simp only [Except.ok.injEq, Prod.mk.injEq] at h
    rw [← h.2]
    exact (outageUpsert_spec col t d).1

theorem writeHealthy_rowWrite (col : Column) (f : SqlFault)
    (d : OutageDelta) : RowWrite col d (writeHealthy col f d) := by
  intro n t m t' h
  unfold writeHealthy at h
  split at h
  case h_1 => cases h
  case h_2 =>
    simp only at h
    split at h
    case isTrue =>
      split at h
      case h_1 => cases h
      case h_2 =>
        simp only [Except.ok.injEq, Prod.mk.injEq] at h
        rw [← h.2]
        exact (outageUpsert_spec col t d).1
    case isFalse haff =>
      simp only [Except.ok.injEq, Prod.mk.injEq] at h
      rw [← h.2]
      exact (upsert_spec haff).1

/-- What a direct write stages when it asks for a commit. -/
theorem persistBody_commit {col : Column} {t staged : Tables} {d : OutageDelta}
    {n : Nat}
    (h : persistBody col reasoning f t d write = .ok (.commit n staged ())) :
    d.eventID ∉ t.processed
      ∧ ∃ m t', write 2 (t.claim d.eventID) = .ok (m, t')
        ∧ staged.processed = t'.processed ∧ staged.rows = t'.rows
        ∧ staged.usage = ledgerAfter col reasoning t'.usage d := by
  unfold persistBody at h
  split at h
  case h_1 => cases h
  case h_2 =>
    split at h
    case isTrue => cases h
    case isFalse hnew =>
      refine ⟨hnew, ?_⟩
      split at h
      case h_1 => cases h
      case h_2 m t' hw =>
        refine ⟨m, t', hw, ?_⟩
        split at h
        case isTrue hnone =>
          cases h
          refine ⟨rfl, rfl, ?_⟩
          rw [ledgerAfter, Option.isNone_iff_eq_none.1 hnone]
        case isFalse =>
          split at h
          case h_1 => cases h
          case h_2 =>
            cases h
            exact ⟨rfl, rfl, rfl⟩

/-- A direct write leaves the tables alone, or adds its delta to the row
its row statement left. -/
theorem persist_wrote {col : Column} (reasoning : Bool) (f : SqlFault)
    (t : Tables) (d : OutageDelta) (hwrite : RowWrite col d write) :
    let r := persist f t d (persistBody col reasoning f t d write)
    r.state = t
      ∨ Wrote col t r.state d.key [d]
        ∧ ∃ n t₀ m t₁, write n t₀ = .ok (m, t₁)
          ∧ r.state.rows = t₁.rows := by
  intro r
  have hr : r = persist f t d (persistBody col reasoning f t d write) := rfl
  unfold persist at hr
  split at hr
  case isTrue => exact .inl (by rw [hr])
  case isFalse =>
    rcases transact_cases f t (persistBody col reasoning f t d write) with
      ⟨-, n, staged, out, hbody, hstate⟩ | ⟨-, hstate⟩
    case inr => exact .inl (by rw [hr, hstate])
    obtain ⟨hnew, m, t', hw, hproc, hrows, husage⟩ :=
      persistBody_commit hbody
    have hup := hwrite _ _ _ _ hw
    rw [← hr] at hstate
    right
    rw [hstate]
    refine ⟨?_, 2, _, m, t', hw, hrows⟩
    refine ⟨?_, ?_, List.nodup_singleton _, ?_, ?_, ?_, ?_, ?_, ?_⟩
    · intro x hx
      rw [List.mem_singleton.1 hx]
    · intro x hx
      rw [List.mem_singleton.1 hx]
      exact hnew
    · intro id
      rw [hproc, hup.processed]
      simp [Tables.claim, or_comm]
    · rw [sum64_singleton, Tables.accumulated, hrows]
      exact hup.money
    · rw [Tables.upserts, hrows]
      exact hup.history
    · intro k' hk
      rw [hrows, hup.frame k' hk]
      rfl
    · exact ⟨reasoning, by rw [husage, hup.usage]; rfl⟩
    · intro h
      rw [Tables.outageOwned, hrows] at h
      exact hup.owned h

/-- A direct write that was not committed left the tables alone. -/
theorem persist_aborted {t : Tables} {d : OutageDelta}
    {body : Except ErrClass (Finish Tables Unit)}
    (h : (persist f t d body).committed = false) :
    (persist f t d body).state = t := by
  unfold persist at h ⊢
  split
  case isTrue => rfl
  case isFalse hvalid =>
    rw [if_neg hvalid] at h
    exact transact_aborted h

theorem persistOutageDelta_wrote {col : Column} (reasoning : Bool)
    (f : SqlFault) (t : Tables) (d : OutageDelta) :
    (persistOutageDelta col reasoning f t d).state = t
      ∨ Wrote col t (persistOutageDelta col reasoning f t d).state
          d.key [d] :=
  (persist_wrote reasoning f t d (writeOutage_rowWrite col f d)).imp_right
    And.left

theorem persistHealthyDelta_wrote {col : Column} (reasoning : Bool)
    (f : SqlFault) (t : Tables) (d : OutageDelta) :
    (persistHealthyDelta col reasoning f t d).state = t
      ∨ Wrote col t (persistHealthyDelta col reasoning f t d).state
          d.key [d] :=
  (persist_wrote reasoning f t d (writeHealthy_rowWrite col f d)).imp_right
    And.left

/-- An outage write that changes anything leaves its row to the recovery
pass. -/
theorem persistOutageDelta_owned {col : Column} (reasoning : Bool)
    (f : SqlFault) (t : Tables) (d : OutageDelta) :
    (persistOutageDelta col reasoning f t d).state = t
      ∨ (persistOutageDelta col reasoning f t d).state.outageOwned d.key
        = true := by
  rcases persist_wrote reasoning f t d (writeOutage_rowWrite col f d) with
    hsame | ⟨-, n, t₀, m, t₁, hw, hrows⟩
  · exact .inl hsame
  · right
    unfold writeOutage at hw
    split at hw
    case h_1 => cases hw
    case h_2 =>
      simp only [Except.ok.injEq, Prod.mk.injEq] at hw
      have hown := (outageUpsert_spec col t₀ d).2
      rw [hw.2, Tables.outageOwned, ← hrows] at hown
      exact hown

/-- A direct write that did not fail left its event claimed: by itself,
or by whoever was faster. -/
theorem persist_claims {col : Column} {t : Tables} {d : OutageDelta}
    (hwrite : RowWrite col d write) :
    let r := persist f t d (persistBody col reasoning f t d write)
    ((∃ e, r.result = .error e) ∧ r.committed = false)
      ∨ d.eventID ∈ r.state.processed := by
  intro r
  have hr : r = persist f t d (persistBody col reasoning f t d write) := rfl
  unfold persist at hr
  split at hr
  case isTrue => exact .inl (by rw [hr]; exact ⟨⟨_, rfl⟩, rfl⟩)
  case isFalse =>
    have hcommit : ∀ n staged,
        persistBody col reasoning f t d write = .ok (.commit n staged ()) →
        d.eventID ∈ staged.processed := by
      intro n staged hbody
      obtain ⟨-, m, t', hw, hproc, -⟩ := persistBody_commit hbody
      rw [hproc, (hwrite _ _ _ _ hw).processed]
      exact List.mem_cons_self
    rcases transact_cases f t (persistBody col reasoning f t d write) with
      ⟨-, n, staged, out, hbody, hstate⟩ | ⟨hno, hstate⟩
    · rw [hr, hstate]
      exact .inr (hcommit n staged hbody)
    · rw [hr]
      cases hres : (transact f t
          (persistBody col reasoning f t d write)).result with
      | error e => exact .inl ⟨⟨e, rfl⟩, hno⟩
      | ok out =>
          right
          rcases transact_ok hres with ⟨n, staged, hbody, hst⟩ | ⟨hbody, hst⟩
          · rw [hst]
            exact hcommit n staged hbody
          · rw [hst]
            -- the body rolls back only on a conflict
            unfold persistBody at hbody
            split at hbody
            case h_1 => cases hbody
            case h_2 =>
              split at hbody
              case isTrue hin => exact hin
              case isFalse =>
                split at hbody
                case h_1 => cases hbody
                case h_2 =>
                  split at hbody
                  case isTrue => cases hbody
                  case isFalse =>
                    split at hbody
                    case h_1 => cases hbody
                    case h_2 => cases hbody

end Elitea.Budget
