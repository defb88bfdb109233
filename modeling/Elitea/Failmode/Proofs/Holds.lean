/-
A request's holds outlive every bill.

# The two phases

A set of holds is open, then closed, and never opens again. While it is
open the pin count IS the number of outstanding pins, at least one of
them is outstanding, every hold added is in the list and nothing has
been released (`OpenPhase`). The call that drops the last pin closes it;
from then on no pin is outstanding, the count stays at zero, and the
`Release` calls made so far together with those the release loops still
owe are the holds added, each as often as it was added (`ClosedPhase`).

Between the guard of an `unpin` and its locked section there is no
step, but there is a state to reason about: the flag is up and the
count is not down yet (`Dropping`). Both callers of `unpin`, the
guarded functions and `End`, go through it, so the locked section is
analysed once (`unpin_inv`).
-/
import Elitea.Lib.Runs
import Elitea.Failmode.Holds
import Mathlib.Data.List.Nodup

namespace Elitea.Failmode

variable {r : HoldsRun}

-- ============================================================= the phases

/-- The set is open: nothing is released and every hold is recorded. -/
structure OpenPhase (r : HoldsRun) : Prop where
  closed : r.set.closed = false
  pins : r.set.pins = r.outstandingPins
  pinned : 0 < r.outstandingPins
  list : r.set.list = r.added
  calls : r.calls = []
  pending : r.pending = []
  zeros : r.zeros = 0

/-- The set is closed: no pin is left, and every hold added is released
or about to be. -/
structure ClosedPhase (r : HoldsRun) : Prop where
  closed : r.set.closed = true
  pins : r.set.pins = 0
  pinned : r.outstandingPins = 0
  list : r.set.list = []
  released : (r.calls ++ r.pending).Perm r.added
  zeros : r.zeros = 1

/-- The `once` of every hold, against the observed runs of its body. -/
structure OnceInv (r : HoldsRun) : Prop where
  once_iff : ∀ h, r.once h = true ↔ h ∈ r.bodies
  bodies_iff : ∀ h, h ∈ r.bodies ↔ h ∈ r.calls
  nodup : r.bodies.Nodup

/-- What every reachable state satisfies. -/
structure HoldsInv (r : HoldsRun) : Prop where
  once : OnceInv r
  phase : OpenPhase r ∨ ClosedPhase r

/-- A pin's guard has fired and its `unpin` has not run: the count is
one ahead of the outstanding pins. -/
structure Dropping (r : HoldsRun) : Prop where
  closed : r.set.closed = false
  pins : r.set.pins = r.outstandingPins + 1
  list : r.set.list = r.added
  calls : r.calls = []
  pending : r.pending = []
  zeros : r.zeros = 0

theorem holdsInv_start : HoldsInv HoldsRun.start := by
  refine ⟨⟨?_, ?_, List.nodup_nil⟩, Or.inl ?_⟩
  · intro h
    simp [HoldsRun.start]
  · intro h
    simp [HoldsRun.start]
  · exact ⟨rfl, rfl, Nat.one_pos, rfl, rfl, rfl, rfl⟩

-- ============================================================= one unpin

/-- The locked section of `unpin` reads nothing of the observations of
`once`. -/
theorem OnceInv.of_eq {r' : HoldsRun} (hinv : OnceInv r)
    (hone : r'.once = r.once) (hbod : r'.bodies = r.bodies)
    (hcal : r'.calls = r.calls) : OnceInv r' := by
  refine ⟨?_, ?_, ?_⟩
  · intro h
    rw [hone, hbod]
    exact hinv.once_iff h
  · intro h
    rw [hbod, hcal]
    exact hinv.bodies_iff h
  · rw [hbod]
    exact hinv.nodup

/-- `unpin` on an open set with pins left only counts down. -/
theorem unpin_of_left (hpos : 0 < r.set.pins - 1) :
    r.unpin = { r with
      set := { r.set with pins := r.set.pins - 1 }
      releasing := r.releasing ++ [[]] } := by
  have hne : ¬ r.set.pins - 1 = 0 := by omega
  have hlocked : unpinLocked r.set
      = ({ r.set with pins := r.set.pins - 1 }, []) := by
    unfold unpinLocked
    exact if_pos (Or.inl hpos)
  simp [HoldsRun.unpin, hlocked, hne]

/-- `unpin` of the last pin closes the set and takes its list. -/
theorem unpin_of_last (hzero : r.set.pins - 1 = 0) (hcl : r.set.closed = false)
    : r.unpin = { r with
      set := { r.set with pins := 0, closed := true, list := [] }
      releasing := r.releasing ++ [r.set.list]
      zeros := r.zeros + 1 } := by
  have hlocked : unpinLocked r.set
      = ({ r.set with pins := 0, closed := true, list := [] },
          r.set.list) := by
    unfold unpinLocked
    rw [if_neg (by rw [hzero, hcl]; simp), hzero]
  simp [HoldsRun.unpin, hlocked]

/-- Dropping a pin: with pins left the set stays open; the last one
closes it and hands the whole list to its caller's loop. -/
theorem unpin_inv (hdrop : Dropping r) :
    OpenPhase r.unpin ∨ ClosedPhase r.unpin := by
  have hpins := hdrop.pins
  have hpend : r.releasing.flatten = [] := hdrop.pending
  by_cases hleft : 0 < r.outstandingPins
  · left
    rw [unpin_of_left (by omega)]
    refine ⟨hdrop.closed, ?_, hleft, hdrop.list, hdrop.calls, ?_,
      hdrop.zeros⟩
    · show r.set.pins - 1 = (r.outstandingPins : Int)
      omega
    · simp [HoldsRun.pending, hpend]
  · right
    rw [unpin_of_last (by omega) hdrop.closed]
    refine ⟨rfl, rfl, ?_, rfl, ?_, ?_⟩
    · show r.outstandingPins = 0
      omega
    · simp [HoldsRun.pending, hpend, hdrop.calls, hdrop.list]
    · show r.zeros + 1 = 1
      rw [hdrop.zeros]

-- ========================================================== preservation

theorem holdsInv_add (hinv : HoldsInv r) (h : Option HoldRef) :
    HoldsInv (r.add h) := by
  cases h with
  | none => exact hinv
  | some h =>
      refine ⟨hinv.once.of_eq rfl rfl rfl, ?_⟩
      rcases hinv.phase with ho | hc
      · left
        have hcl := ho.closed
        refine ⟨?_, ?_, ?_, ?_, ho.calls, ?_, ho.zeros⟩
        · simp [HoldsRun.add, addLocked, hcl]
        · simpa [HoldsRun.add, addLocked, hcl, HoldsRun.outstandingPins]
            using ho.pins
        · simpa [HoldsRun.add, addLocked, hcl, HoldsRun.outstandingPins]
            using ho.pinned
        · simp [HoldsRun.add, addLocked, hcl, ho.list]
        · simpa [HoldsRun.add, hcl, HoldsRun.pending] using ho.pending
      · -- a late hold goes straight to its caller's own release
        right
        have hcl := hc.closed
        refine ⟨?_, ?_, ?_, ?_, ?_, hc.zeros⟩
        · simp [HoldsRun.add, addLocked, hcl]
        · simpa [HoldsRun.add, addLocked, hcl] using hc.pins
        · simpa [HoldsRun.add, addLocked, hcl, HoldsRun.outstandingPins]
            using hc.pinned
        · simpa [HoldsRun.add, addLocked, hcl] using hc.list
        · have hp := hc.released.append_right [h]
          simpa [HoldsRun.add, hcl, HoldsRun.pending] using hp

theorem holdsInv_pin (hinv : HoldsInv r) : HoldsInv r.pin := by
  refine ⟨hinv.once.of_eq rfl rfl rfl, ?_⟩
  rcases hinv.phase with ho | hc
  · left
    have hcl := ho.closed
    have hcount : r.pin.outstandingPins = r.outstandingPins + 1 := by
      simp [HoldsRun.pin, pinLocked, hcl, HoldsRun.outstandingPins]
      omega
    refine ⟨?_, ?_, by omega, ?_, ho.calls, ho.pending, ho.zeros⟩
    · simp [HoldsRun.pin, pinLocked, hcl]
    · have hpins : r.pin.set.pins = r.set.pins + 1 := by
        simp [HoldsRun.pin, pinLocked, hcl]
      rw [hpins, hcount, ho.pins]
      omega
    · simpa [HoldsRun.pin, pinLocked, hcl] using ho.list
  · -- on a closed set the returned function is a no-op
    right
    have hcl := hc.closed
    refine ⟨?_, ?_, ?_, ?_, hc.released, hc.zeros⟩
    · simp [HoldsRun.pin, pinLocked, hcl]
    · simpa [HoldsRun.pin, pinLocked, hcl] using hc.pins
    · simpa [HoldsRun.pin, pinLocked, hcl, HoldsRun.outstandingPins]
        using hc.pinned
    · simpa [HoldsRun.pin, pinLocked, hcl] using hc.list

/-- Firing one guard takes one off the outstanding pins. -/
theorem count_guarded_set {l : List UnpinFn} {i : Nat}
    (hi : l[i]? = some (.guarded false)) :
    (l.set i (.guarded true)).count (.guarded false) + 1
      = l.count (.guarded false) := by
  induction l generalizing i with
  | nil => simp at hi
  | cons f l ih =>
      cases i with
      | zero =>
          simp only [List.getElem?_cons_zero, Option.some.injEq] at hi
          subst hi
          simp
      | succ i =>
          rw [List.getElem?_cons_succ] at hi
          simp only [List.set_cons_succ, List.count_cons]
          have := ih hi
          omega

theorem holdsInv_callUnpin (hinv : HoldsInv r) (i : Nat) :
    HoldsInv (r.callUnpin i) := by
  unfold HoldsRun.callUnpin
  split
  case h_2 => exact hinv
  case h_1 hi =>
    have hcount := count_guarded_set hi
    refine ⟨hinv.once.of_eq rfl rfl rfl, unpin_inv ?_⟩
    rcases hinv.phase with ho | hc
    · refine ⟨ho.closed, ?_, ho.list, ho.calls, ho.pending, ho.zeros⟩
      have hpins := ho.pins
      simp only [HoldsRun.outstandingPins] at hpins ⊢
      omega
    · -- closed: no guard is left to fire
      have hnone := hc.pinned
      simp only [HoldsRun.outstandingPins] at hnone
      omega

theorem holdsInv_finish (hinv : HoldsInv r) : HoldsInv r.finish := by
  unfold HoldsRun.finish
  split
  case isTrue => exact hinv
  case isFalse hend =>
    refine ⟨hinv.once.of_eq rfl rfl rfl, unpin_inv ?_⟩
    rcases hinv.phase with ho | hc
    · refine ⟨ho.closed, ?_, ho.list, ho.calls, ho.pending, ho.zeros⟩
      have hpins := ho.pins
      simp only [HoldsRun.outstandingPins, hend, Bool.false_eq_true,
        if_false, if_true] at hpins ⊢
      omega
    · have hnone := hc.pinned
      simp only [HoldsRun.outstandingPins, hend, Bool.false_eq_true,
        if_false] at hnone
      omega

/-- One iteration of one loop moves one hold out of what is owed. -/
theorem flatten_set_perm {l : List (List HoldRef)} {j : Nat} {h : HoldRef}
    {rest : List HoldRef} (hj : l[j]? = some (h :: rest)) :
    l.flatten.Perm (h :: (l.set j rest).flatten) := by
  induction l generalizing j with
  | nil => simp at hj
  | cons a l ih =>
      cases j with
      | zero =>
          simp only [List.getElem?_cons_zero, Option.some.injEq] at hj
          subst hj
          simp
      | succ j =>
          rw [List.getElem?_cons_succ] at hj
          simp only [List.set_cons_succ, List.flatten_cons]
          exact ((ih hj).append_left a).trans List.perm_middle

theorem onceInv_releaseNext (hinv : OnceInv r) (j : Nat) :
    OnceInv (r.releaseNext j) := by
  unfold HoldsRun.releaseNext
  split
  case h_2 => exact hinv
  case h_1 h rest hj =>
    by_cases hfired : r.once h = true
    · -- a second `Release`: the body does not run
      have hmem : h ∈ r.bodies := (hinv.once_iff h).1 hfired
      refine ⟨?_, ?_, ?_⟩
      · intro x
        simp only [hfired, if_true]
        by_cases hx : x = h
        · simp [hx, hmem]
        · simp only [hx, if_false]
          exact hinv.once_iff x
      · intro x
        simp only [hfired, if_true, List.mem_append, List.mem_singleton]
        by_cases hx : x = h
        · simp [hx, hmem]
        · simp only [hx, or_false]
          exact hinv.bodies_iff x
      · simpa [hfired] using hinv.nodup
    · have hnot : h ∉ r.bodies := fun hm => hfired ((hinv.once_iff h).2 hm)
      refine ⟨?_, ?_, ?_⟩
      · intro x
        simp only [hfired, Bool.false_eq_true, if_false, List.mem_append,
          List.mem_singleton]
        by_cases hx : x = h
        · simp [hx]
        · simp only [hx, if_false, or_false]
          exact hinv.once_iff x
      · intro x
        simp only [hfired, Bool.false_eq_true, if_false, List.mem_append,
          List.mem_singleton]
        rw [hinv.bodies_iff x]
      · simp only [hfired, Bool.false_eq_true, if_false]
        rw [List.nodup_append]
        refine ⟨hinv.nodup, List.nodup_singleton _, ?_⟩
        intro a ha b hb hab
        rw [List.mem_singleton] at hb
        exact hnot (hb ▸ hab ▸ ha)

theorem holdsInv_releaseNext (hinv : HoldsInv r) (j : Nat) :
    HoldsInv (r.releaseNext j) := by
  refine ⟨onceInv_releaseNext hinv.once j, ?_⟩
  unfold HoldsRun.releaseNext
  split
  case h_2 => exact hinv.phase
  case h_1 h rest hj =>
    rcases hinv.phase with ho | hc
    · -- open: no loop owes anything
      have hpend : r.releasing.flatten = [] := ho.pending
      have hp := flatten_set_perm hj
      rw [hpend] at hp
      exact absurd hp.symm.eq_nil (List.cons_ne_nil _ _)
    · right
      refine ⟨hc.closed, hc.pins, hc.pinned, hc.list, ?_, hc.zeros⟩
      have hp := flatten_set_perm hj
      refine List.Perm.trans ?_ hc.released
      simp only [HoldsRun.pending, List.append_assoc, List.singleton_append]
      exact (hp.append_left r.calls).symm

theorem holdsInv_step (r : HoldsRun) (op : HoldsOp) (hinv : HoldsInv r) :
    HoldsInv (op.apply r) := by
  cases op with
  | add h => exact holdsInv_add hinv h
  | pin => exact holdsInv_pin hinv
  | unpin i => exact holdsInv_callUnpin hinv i
  | finish => exact holdsInv_finish hinv
  | releaseNext j => exact holdsInv_releaseNext hinv j

/-- Every interleaving keeps the invariant. -/
theorem holdsInv_afterHoldsOps (ops : List HoldsOp) :
    HoldsInv (afterHoldsOps ops) :=
  Lib.foldl_inv holdsInv_step ops _ holdsInv_start

-- ============================================================== the result

/-- A closed set's release loops, run to their end, have released every
hold added: each body ran once, and `Release` was called as often as
the hold was added. -/
theorem released_once_of_drained (hinv : HoldsInv r)
    (hpin : r.outstandingPins = 0) (hdrained : r.pending = []) :
    ∀ h ∈ r.added, r.bodies.count h = 1 ∧ r.calls.count h = r.added.count h := by
  rcases hinv.phase with ho | hc
  · exact absurd hpin (by have := ho.pinned; omega)
  · intro h hh
    have hperm := hc.released
    rw [hdrained, List.append_nil] at hperm
    have hcall : h ∈ r.calls := hperm.mem_iff.2 hh
    have hbody : h ∈ r.bodies := (hinv.once.bodies_iff h).2 hcall
    exact ⟨List.count_eq_one_of_mem hinv.once.nodup hbody,
      hperm.count_eq h⟩

/-- A hold added to a closed set is not recorded: the call that added it
goes on to release it, and has released it after its next step. -/
theorem late_add_releases (hinv : HoldsInv r) (hcl : r.set.closed = true)
    (h : HoldRef) :
    (r.add (some h)).set = r.set
      ∧ (r.add (some h)).releasing = r.releasing ++ [[h]]
      ∧ h ∈ ((r.add (some h)).releaseNext r.releasing.length).bodies := by
  have hrel : (r.add (some h)).releasing = r.releasing ++ [[h]] := by
    simp [HoldsRun.add, hcl]
  refine ⟨by simp [HoldsRun.add, addLocked, hcl], hrel, ?_⟩
  have hj : (r.add (some h)).releasing[r.releasing.length]? = some [h] := by
    rw [hrel]
    simp
  have honce := onceInv_releaseNext (holdsInv_add hinv (some h)).once
    r.releasing.length
  rw [honce.bodies_iff]
  simp [HoldsRun.releaseNext, hj]

/-- A pin on an open set is outstanding. -/
theorem outstandingPins_pin (hopen : r.set.closed = false) :
    r.pin.outstandingPins = r.outstandingPins + 1 := by
  simp only [HoldsRun.pin, pinLocked, hopen, Bool.false_eq_true, if_false,
    HoldsRun.outstandingPins, List.count_append, List.count_singleton_self]
  omega

/-- A request's holds outlive every bill. After every interleaving of
`Add`, `Pin`, `End`, the functions `Pin` returned and the release loops:
while the request's own pin or a pin taken before the close (each `Pin`
adds one) is outstanding, no hold has been released; once no such pin is
left and the loops have ended, every hold ever added has been released
exactly once; a hold added after the close is released by the very call that
adds it; and the pin count reaches zero at most once, no hold's release
runs twice. -/
theorem holds_outlive_every_bill (ops : List HoldsOp) :
    (0 < (afterHoldsOps ops).outstandingPins →
      (afterHoldsOps ops).bodies = [] ∧ (afterHoldsOps ops).calls = [])
    ∧ ((afterHoldsOps ops).set.closed = false →
        (afterHoldsOps (ops ++ [.pin])).outstandingPins
          = (afterHoldsOps ops).outstandingPins + 1)
    ∧ ((afterHoldsOps ops).outstandingPins = 0 →
        (afterHoldsOps ops).set.closed = true
        ∧ ((afterHoldsOps ops).calls ++ (afterHoldsOps ops).pending).Perm
            (afterHoldsOps ops).added
        ∧ ((afterHoldsOps ops).pending = [] →
            ∀ h ∈ (afterHoldsOps ops).added,
              (afterHoldsOps ops).bodies.count h = 1))
    ∧ ((afterHoldsOps ops).set.closed = true → ∀ h,
        ((afterHoldsOps ops).add (some h)).set = (afterHoldsOps ops).set
        ∧ h ∈ (((afterHoldsOps ops).add (some h)).releaseNext
            (afterHoldsOps ops).releasing.length).bodies)
    ∧ (afterHoldsOps ops).zeros ≤ 1
    ∧ 0 ≤ (afterHoldsOps ops).set.pins
    ∧ (afterHoldsOps ops).bodies.Nodup := by
  have hinv := holdsInv_afterHoldsOps ops
  refine ⟨?_, fun hopen => ?_, ?_, ?_, ?_, ?_, hinv.once.nodup⟩
  · intro hpin
    rcases hinv.phase with ho | hc
    · refine ⟨?_, ho.calls⟩
      refine List.eq_nil_iff_forall_not_mem.2 fun h hh => ?_
      have hcall := (hinv.once.bodies_iff h).1 hh
      rw [ho.calls] at hcall
      cases hcall
    · exact absurd hc.pinned (by omega)
  · rw [afterHoldsOps, List.foldl_append]
    exact outstandingPins_pin hopen
  · intro hpin
    rcases hinv.phase with ho | hc
    · exact absurd hpin (by have := ho.pinned; omega)
    · exact ⟨hc.closed, hc.released, fun hd h hh =>
        (released_once_of_drained hinv hpin hd h hh).1⟩
  · intro hcl h
    obtain ⟨hset, -, hrel⟩ := late_add_releases hinv hcl h
    exact ⟨hset, hrel⟩
  · rcases hinv.phase with ho | hc
    · exact ho.zeros ▸ Nat.zero_le 1
    · exact hc.zeros ▸ Nat.le_refl 1
  · rcases hinv.phase with ho | hc
    · exact ho.pins ▸ Int.natCast_nonneg _
    · exact hc.pins ▸ Int.le_refl 0

/-- A biller that outlives the handler: `End` releases nothing, the
biller's `unpin` (called twice) releases both holds once. -/
example :
    (afterHoldsOps [.add (some 7), .pin, .finish, .add (some 9)]).calls = []
    ∧ (afterHoldsOps [.add (some 7), .pin, .finish, .add (some 9), .unpin 0,
        .unpin 0, .finish, .releaseNext 1, .releaseNext 1]).bodies
      = [7, 9] := by
  decide

end Elitea.Failmode
