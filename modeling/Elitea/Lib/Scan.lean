/-
Scans that skip what they take. A scan goes over the positions in order;
where a property holds it takes the position and goes on `width` further,
so that what it takes never overlaps.

A scan sees a position that has the property, unless it is inside one it
took (`Scan.cover`). One that took a single position has therefore seen
the only one exactly when no two positions with the property are less
than `width` apart (`Scan.unique_iff`).
-/
import Mathlib.Logic.ExistsUnique

namespace Elitea.Lib

/-- The positions a scan from `n` takes. -/
inductive Scan (P : Nat → Prop) (width : Nat) : Nat → List Nat → Prop
  | done {n : Nat} (none : ∀ q, n ≤ q → ¬ P q) : Scan P width n []
  | take {n p : Nat} {ps : List Nat} (le : n ≤ p) (holds : P p)
      (first : ∀ q, n ≤ q → q < p → ¬ P q)
      (rest : Scan P width (p + width) ps) : Scan P width n (p :: ps)

/-- No two positions with the property overlap. -/
def FarApart (P : Nat → Prop) (width : Nat) : Prop :=
  ∀ p q, P p → P q → p < q → p + width ≤ q

namespace Scan

variable {P : Nat → Prop} {width n p : Nat} {ps : List Nat}

theorem mem (h : Scan P width n ps) : ∀ p ∈ ps, P p := by
  induction h with
  | done => exact fun p hp => nomatch hp
  | take _ holds _ _ ih =>
      intro p hp
      rcases List.mem_cons.1 hp with rfl | hp
      · exact holds
      · exact ih p hp

/-- A position without the property is passed over. -/
theorem skip (hn : ¬ P n) (h : Scan P width (n + 1) ps) :
    Scan P width n ps := by
  have hstart : ∀ q, n ≤ q → ¬ P q ∨ n + 1 ≤ q := by
    intro q hq
    rcases Nat.eq_or_lt_of_le hq with rfl | hlt
    · exact .inl hn
    · exact .inr hlt
  cases h with
  | done none =>
      refine .done fun q hq => ?_
      rcases hstart q hq with hnot | hle
      · exact hnot
      · exact none q hle
  | take le holds first rest =>
      refine .take (Nat.le_of_succ_le le) holds (fun q hq hlt => ?_) rest
      rcases hstart q hq with hnot | hle
      · exact hnot
      · exact first q hle hlt

/-- The scan took a position with the property, or one that it overlaps. -/
theorem cover (h : Scan P width n ps) {q : Nat} (hq : P q) (hle : n ≤ q) :
    ∃ p ∈ ps, p ≤ q ∧ (q = p ∨ q < p + width) := by
  induction h with
  | done none => exact absurd hq (none q hle)
  | @take n p ps _ _ first _ ih =>
      by_cases hlt : q < p
      · exact absurd hq (first q hle hlt)
      · by_cases hin : q < p + width
        · exact ⟨p, List.mem_cons_self, Nat.le_of_not_lt hlt, .inr hin⟩
        · obtain ⟨p', hp', hrest⟩ := ih (Nat.le_of_not_lt hin)
          exact ⟨p', List.mem_cons_of_mem p hp', hrest⟩

theorem nil_iff : Scan P width 0 [] ↔ ∀ q, ¬ P q := by
  constructor
  · intro h q
    cases h with
    | done none => exact none q (Nat.zero_le q)
  · exact fun h => .done fun q _ => h q

/-- A scan that took one position has seen the only one exactly when no
two overlap. -/
theorem unique_iff (h : Scan P width 0 [p]) :
    (∃! q, P q) ↔ FarApart P width := by
  constructor
  · rintro ⟨x, -, hx⟩ q r hq hr hlt
    rw [hx q hq, hx r hr] at hlt
    exact absurd hlt (Nat.lt_irrefl x)
  · intro hapart
    have hp : P p := h.mem p List.mem_cons_self
    refine ⟨p, hp, fun q hq => ?_⟩
    obtain ⟨p', hp', hle, hcase⟩ := h.cover hq (Nat.zero_le q)
    obtain rfl := List.mem_singleton.1 hp'
    rcases hcase with heq | hin
    · exact heq
    · rcases Nat.eq_or_lt_of_le hle with heq | hlt
      · exact heq.symm
      · exact absurd hin (Nat.not_lt.2 (hapart p' q hp hq hlt))

end Scan

end Elitea.Lib
