/-
An append-only log of which only part is kept, over any type of entries
with a position.

# What is kept

`Kept pos log kept floor` ties the three together: the log is ordered by
position, what is kept is part of it in the same order, and `floor` is
the largest position that was given up (zero while nothing was). Appending
at the end and deleting any of the kept entries keep the tie
(`Kept.append`, `Kept.delete`).

# What a reader may rely on

Above the floor nothing is missing: the kept entries after a position at
or above it are the entries of the log after that position
(`Kept.after`).
-/
import Mathlib.Data.List.Basic

namespace Elitea.Lib.PrunedLog

variable {α : Type _} {pos : α → Nat} {floor : Nat}

-- ======================================================== largest position

/-- The largest position of a list, zero for none. -/
def top (pos : α → Nat) (l : List α) : Nat :=
  (l.map pos).foldr max 0

theorem le_top {l : List α} {e : α} (h : e ∈ l) : pos e ≤ top pos l := by
  induction l with
  | nil => exact absurd h List.not_mem_nil
  | cons x l ih =>
      rcases List.mem_cons.1 h with rfl | h
      · exact Nat.le_max_left _ _
      · exact Nat.le_trans (ih h) (Nat.le_max_right _ _)

theorem top_le {l : List α} {n : Nat} (h : ∀ e ∈ l, pos e ≤ n) :
    top pos l ≤ n := by
  induction l with
  | nil => exact Nat.zero_le n
  | cons x l ih =>
      exact Nat.max_le.2 ⟨h x List.mem_cons_self,
        ih fun e he => h e (List.mem_cons_of_mem x he)⟩

/-- The largest position is zero or one of the list's. -/
theorem top_attained (l : List α) :
    top pos l = 0 ∨ ∃ e ∈ l, pos e = top pos l := by
  induction l with
  | nil => exact .inl rfl
  | cons x l ih =>
      have unfolds : top pos (x :: l) = max (pos x) (top pos l) := rfl
      rcases Nat.le_total (top pos l) (pos x) with h | h
      · refine .inr ⟨x, List.mem_cons_self, ?_⟩
        rw [unfolds, Nat.max_eq_left h]
      · rw [unfolds, Nat.max_eq_right h]
        rcases ih with ih | ⟨e, he, ih⟩
        · exact .inl ih
        · exact .inr ⟨e, List.mem_cons_of_mem x he, ih⟩

-- ============================================================ what is kept

/-- Positions go up along the list. -/
abbrev Ordered (pos : α → Nat) (l : List α) : Prop :=
  l.Pairwise fun a b => pos a < pos b

structure Kept (pos : α → Nat) (log kept : List α) (floor : Nat) :
    Prop where
  ordered : Ordered pos log
  sub : kept.Sublist log
  /-- What is not kept lies at or below the floor. -/
  gone : ∀ e ∈ log, e ∉ kept → pos e ≤ floor
  /-- The floor is the position of something that is not kept. -/
  attained : floor = 0 ∨ ∃ e ∈ log, e ∉ kept ∧ pos e = floor

theorem Kept.nil : Kept pos [] [] 0 :=
  ⟨.nil, .refl [], fun _ h => absurd h List.not_mem_nil, .inl rfl⟩

/-- An entry at the end of the log is kept. -/
theorem Kept.append {log kept : List α} (h : Kept pos log kept floor) {e : α}
    (he : ∀ x ∈ log, pos x < pos e) :
    Kept pos (log ++ [e]) (kept ++ [e]) floor where
  ordered := by
    refine List.pairwise_append.2 ⟨h.ordered, List.pairwise_singleton _ _,
      fun x hx y hy => ?_⟩
    rw [List.mem_singleton.1 hy]
    exact he x hx
  sub := h.sub.append (.refl [e])
  gone x hx hk := by
    rw [List.mem_append, not_or] at hk
    rcases List.mem_append.1 hx with hx | hx
    · exact h.gone x hx hk.1
    · exact absurd hx hk.2
  attained := by
    refine h.attained.imp_right fun ⟨x, hx, hk, hp⟩ => ?_
    refine ⟨x, List.mem_append_left _ hx, ?_, hp⟩
    rw [List.mem_append, not_or, List.mem_singleton]
    exact ⟨hk, fun e' => absurd (he x hx) (e' ▸ Nat.lt_irrefl _)⟩

/-- Deleting kept entries raises the floor to the largest of them. -/
theorem Kept.delete {log kept : List α} (h : Kept pos log kept floor)
    (p : α → Bool) :
    Kept pos log (kept.filter fun e => !p e)
      (max floor (top pos (kept.filter p))) where
  ordered := h.ordered
  sub := List.filter_sublist.trans h.sub
  gone e he hk := by
    by_cases hin : e ∈ kept
    · have hp : p e = true := by
        by_contra hne
        rw [Bool.not_eq_true] at hne
        exact hk (List.mem_filter.2 ⟨hin, by rw [hne]; rfl⟩)
      exact Nat.le_trans (le_top (List.mem_filter.2 ⟨hin, hp⟩))
        (Nat.le_max_right _ _)
    · exact Nat.le_trans (h.gone e he hin) (Nat.le_max_left _ _)
  attained := by
    rcases Nat.le_total (top pos (kept.filter p)) floor with hle | hle
    · rw [Nat.max_eq_left hle]
      refine h.attained.imp_right fun ⟨e, he, hk, hp⟩ => ?_
      exact ⟨e, he, fun hf => hk (List.mem_filter.1 hf).1, hp⟩
    · rw [Nat.max_eq_right hle]
      refine (top_attained _).imp_right fun ⟨e, he, hp⟩ => ?_
      obtain ⟨hk, hpe⟩ := List.mem_filter.1 he
      refine ⟨e, h.sub.subset hk, fun hf => ?_, hp⟩
      have := (List.mem_filter.1 hf).2
      rw [hpe] at this
      cases this

/-- Above the floor everything is kept. -/
theorem Kept.mem {log kept : List α} (h : Kept pos log kept floor) {e : α}
    (he : e ∈ log) (hpos : floor < pos e) : e ∈ kept := by
  by_contra hk
  exact absurd (h.gone e he hk) (Nat.not_le_of_lt hpos)

theorem Kept.keptOrdered {log kept : List α} (h : Kept pos log kept floor) :
    Ordered pos kept :=
  h.ordered.sublist h.sub

/-- Part of an ordered list that has every entry with a property has them
in the same order. -/
theorem filter_eq_of_sublist {log kept : List α} (p : α → Bool)
    (sub : kept.Sublist log) (ho : Ordered pos log)
    (hall : ∀ e ∈ log, p e = true → e ∈ kept) :
    kept.filter p = log.filter p := by
  induction sub with
  | slnil => rfl
  | cons a hsub ih =>
      -- `a` is in the log only, so it lacks the property
      obtain ⟨ha, ho⟩ := List.pairwise_cons.1 ho
      have hp : ¬ p a = true := fun hp =>
        absurd (ha a (hsub.subset (hall a List.mem_cons_self hp)))
          (Nat.lt_irrefl _)
      rw [List.filter_cons_of_neg hp]
      exact ih ho fun e he => hall e (List.mem_cons_of_mem a he)
  | cons_cons a hsub ih =>
      obtain ⟨ha, ho⟩ := List.pairwise_cons.1 ho
      have rest := ih ho fun e he hpe => by
        rcases List.mem_cons.1 (hall e (List.mem_cons_of_mem a he) hpe)
          with rfl | hk
        · exact absurd (ha e he) (Nat.lt_irrefl _)
        · exact hk
      rw [List.filter_cons, List.filter_cons, rest]

/-- The kept entries after a position at or above the floor are the
entries of the log after it. -/
theorem Kept.after {log kept : List α} (h : Kept pos log kept floor) {c : Nat}
    (hc : floor ≤ c) :
    kept.filter (fun e => decide (c < pos e))
      = log.filter fun e => decide (c < pos e) :=
  filter_eq_of_sublist _ h.sub h.ordered fun _ he hp =>
    h.mem he (Nat.lt_of_le_of_lt hc (of_decide_eq_true hp))

end Elitea.Lib.PrunedLog
