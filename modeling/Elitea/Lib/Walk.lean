/-
Going through a list in steps: at each stop the rest of the list says how
far the next step goes. `walk` lists the stops, each with its position and
the rest of the list there. A step of zero counts as one.
-/
import Mathlib.Data.List.Basic

namespace Elitea.Lib

variable {α : Type _} {adv : List α → Nat}

/-- The stops, after `skip` more entries. -/
def walkFrom (adv : List α → Nat) :
    (pos skip : Nat) → List α → List (Nat × List α)
  | _, _, [] => []
  | pos, skip + 1, _ :: rest => walkFrom adv (pos + 1) skip rest
  | pos, 0, a :: rest =>
      (pos, a :: rest) :: walkFrom adv (pos + 1) (adv (a :: rest) - 1) rest

/-- The stops of a list that begins at a position. -/
def walk (adv : List α → Nat) (pos : Nat) (s : List α) :
    List (Nat × List α) :=
  walkFrom adv pos 0 s

theorem walkFrom_eq (pos skip : Nat) (s : List α) :
    walkFrom adv pos skip s = walk adv (pos + skip) (s.drop skip) := by
  induction s generalizing pos skip with
  | nil => cases skip <;> rfl
  | cons a rest ih =>
      cases skip with
      | zero => rfl
      | succ skip =>
          rw [walkFrom, ih, List.drop_succ_cons, Nat.add_assoc,
            Nat.add_comm 1]

@[simp] theorem walk_nil (pos : Nat) : walk adv pos [] = [] := rfl

/-- The first stop, and where the next one is. -/
theorem walk_cons {pos : Nat} {s : List α} (hs : s ≠ [])
    (hadv : 0 < adv s) :
    walk adv pos s
      = (pos, s) :: walk adv (pos + adv s) (s.drop (adv s)) := by
  cases s with
  | nil => exact absurd rfl hs
  | cons a rest =>
      obtain ⟨n, hn⟩ := Nat.exists_eq_succ_of_ne_zero (Nat.ne_of_gt hadv)
      rw [walk, walkFrom, walkFrom_eq, hn, Nat.succ_sub_one,
        List.drop_succ_cons, Nat.add_assoc, Nat.add_comm 1]

theorem walk_shift (pos : Nat) (s : List α) :
    walk adv pos s = (walk adv 0 s).map fun stop => (pos + stop.1, stop.2) := by
  unfold walk
  have shifts : ∀ (s : List α) (start skip : Nat),
      walkFrom adv (pos + start) skip s
        = (walkFrom adv start skip s).map
            fun stop => (pos + stop.1, stop.2) := by
    intro s
    induction s with
    | nil => exact fun _ skip => by cases skip <;> rfl
    | cons a rest ih =>
        intro start skip
        cases skip with
        | zero =>
            rw [walkFrom, walkFrom, List.map_cons, Nat.add_assoc, ih]
        | succ skip => rw [walkFrom, walkFrom, Nat.add_assoc, ih]
  exact shifts s 0 0

/-- The rests of the list at the stops. -/
def rests (adv : List α → Nat) (s : List α) : List (List α) :=
  (walk adv 0 s).map Prod.snd

@[simp] theorem rests_nil : rests adv [] = [] := rfl

theorem rests_cons {s : List α} (hs : s ≠ []) (hadv : 0 < adv s) :
    rests adv s = s :: rests adv (s.drop (adv s)) := by
  unfold rests
  rw [walk_cons hs hadv, walk_shift, List.map_cons, List.map_map]
  rfl

/-- Induction along the stops. -/
theorem walk_induction (adv : List α → Nat) {motive : List α → Prop}
    (hadv : ∀ s, s ≠ [] → 0 < adv s) (nil : motive [])
    (next : ∀ s, s ≠ [] → motive (s.drop (adv s)) → motive s)
    (s : List α) : motive s := by
  induction hn : s.length using Nat.strongRecOn generalizing s with
  | ind n ih =>
      by_cases hs : s = []
      · exact hs ▸ nil
      · refine next s hs (ih _ ?_ _ rfl)
        have hpos := hadv s hs
        have hlen := List.length_pos_of_ne_nil hs
        rw [List.length_drop, ← hn]
        omega

end Elitea.Lib
