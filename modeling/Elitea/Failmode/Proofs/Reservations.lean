/-
Degraded-mode reservations never exceed the fleet allowance.

# The invariant

`CountersInv` ties the one number the admission test reads, `held`, to
the holds that were handed out: an entry's `held` is the sum of its
OUTSTANDING holds, those of the entry's current generation whose locked
subtraction has not run. The generation does the work at a reset: every
hold of the scope has a generation no larger than the entry's, so the
fresh generation has no outstanding hold and the cleared `held` is
again the (empty) sum.

A hold between `releaseMark` and `releaseSettle` is still outstanding:
its flag is up, its amount is not yet returned. `unreleased` reads the
flag instead, and the two sums agree whenever no `Release` is between
its two steps.

# The fleet bound

One replica's reservation leaves `billed + held` within the share it
was tested against; the shares are floors, so any set of replicas that
have admitted stays within the total (`replicas_mul_perReplicaShare_le`).
-/
import Elitea.Lib.Runs
import Elitea.Failmode.Fsm
import Mathlib.Algebra.BigOperators.Fin
import Mathlib.Algebra.Order.BigOperators.Group.Finset
import Mathlib.Algebra.Order.Ring.Int

namespace Elitea.Failmode

variable {d : Counters} {k : String} {h h' : Hold} {i : Nat}
  {e : DegradedEntry} {hs : List Hold}

-- ======================================================= the two sums

/-- What the outstanding holds of scope `k` and generation `g` reserve:
those whose locked subtraction has not run. -/
def outstanding (holds : List Hold) (k : String) (g : Nat) : Int :=
  ((holds.filter fun h => h.key = k ∧ h.settled = false ∧ h.gen = g).map
    Hold.nano).sum

/-- What the holds of scope `k` and generation `g` reserve that are not
flagged released. -/
def unreleased (holds : List Hold) (k : String) (g : Nat) : Int :=
  ((holds.filter fun h => h.key = k ∧ h.released = false ∧ h.gen = g).map
    Hold.nano).sum

@[simp] theorem outstanding_nil (k : String) (g : Nat) :
    outstanding [] k g = 0 := rfl

/-- One hold's part of the outstanding sum. -/
theorem outstanding_cons (h : Hold) (hs : List Hold) (k : String)
    (g : Nat) :
    outstanding (h :: hs) k g
      = (if h.key = k ∧ h.settled = false ∧ h.gen = g then h.nano else 0)
        + outstanding hs k g := by
  unfold outstanding
  rw [List.filter_cons]
  by_cases hp : h.key = k ∧ h.settled = false ∧ h.gen = g
  · simp [hp]
  · simp [hp]

/-- A new hold joins the sum of its own scope and generation. -/
theorem outstanding_append_one (hs : List Hold) (h : Hold) (k : String)
    (g : Nat) :
    outstanding (hs ++ [h]) k g
      = outstanding hs k g
        + (if h.key = k ∧ h.settled = false ∧ h.gen = g
            then h.nano else 0) := by
  induction hs with
  | nil =>
      rw [List.nil_append, outstanding_cons, outstanding_nil]
      omega
  | cons h' hs ih =>
      rw [List.cons_append, outstanding_cons, outstanding_cons, ih]
      omega

/-- Rewriting one hold moves the sum by the difference of its parts. -/
theorem outstanding_set (hi : hs[i]? = some h) (k : String) (g : Nat) :
    outstanding (hs.set i h') k g
      = outstanding hs k g
        - (if h.key = k ∧ h.settled = false ∧ h.gen = g
            then h.nano else 0)
        + (if h'.key = k ∧ h'.settled = false ∧ h'.gen = g
            then h'.nano else 0) := by
  induction hs generalizing i with
  | nil => simp at hi
  | cons a hs ih =>
      cases i with
      | zero =>
          simp only [List.getElem?_cons_zero, Option.some.injEq] at hi
          subst hi
          rw [List.set_cons_zero, outstanding_cons, outstanding_cons]
          omega
      | succ i =>
          rw [List.getElem?_cons_succ] at hi
          rw [List.set_cons_succ, outstanding_cons, outstanding_cons, ih hi]
          omega

/-- A scope and generation no hold belongs to has an empty sum. -/
theorem outstanding_eq_zero {g : Nat} (hno : ∀ h ∈ hs, h.key = k → h.gen ≠ g) :
    outstanding hs k g = 0 := by
  unfold outstanding
  rw [List.filter_eq_nil_iff.2]
  · rfl
  · intro h hh hp
    simp only [decide_eq_true_eq] at hp
    exact hno h hh hp.1 hp.2.2

/-- With every reservation positive, no sum is negative. -/
theorem outstanding_nonneg (hpos : ∀ h ∈ hs, 0 < h.nano) (k : String) (g : Nat)
    : 0 ≤ outstanding hs k g := by
  refine List.sum_nonneg fun x hx => ?_
  obtain ⟨h, hh, rfl⟩ := List.mem_map.1 hx
  exact le_of_lt (hpos h (List.mem_of_mem_filter hh))

/-- When no `Release` is between its two steps, the flag and the
settlement say the same, and so do the two sums. -/
theorem outstanding_eq_unreleased (hflag : ∀ h ∈ hs, h.released = h.settled)
    (k : String) (g : Nat) : outstanding hs k g = unreleased hs k g := by
  unfold outstanding unreleased
  refine congrArg (fun l : List Hold => (l.map Hold.nano).sum) ?_
  refine List.filter_congr fun h hh => ?_
  rw [hflag h hh]

-- ========================================================= the invariant

/-- What every reachable state of the counters satisfies. -/
structure CountersInv (d : Counters) : Prop where
  held_eq : ∀ k e, d.vals k = some e → e.held = outstanding d.holds k e.gen
  gen_le : ∀ h ∈ d.holds, ∃ e, d.vals h.key = some e ∧ h.gen ≤ e.gen
  nano_pos : ∀ h ∈ d.holds, 0 < h.nano
  settled_released : ∀ h ∈ d.holds, h.settled = true → h.released = true

/-- The entry a method works on satisfies the invariant also when it
was just created: a scope without an entry has no hold. -/
theorem CountersInv.entryLocked_held (hinv : CountersInv d) (k : String) :
    (entryLocked d k).held = outstanding d.holds k (entryLocked d k).gen := by
  unfold entryLocked
  cases hk : d.vals k with
  | some e => exact hinv.held_eq k e hk
  | none =>
      refine (outstanding_eq_zero fun h hh hkey => ?_).symm
      obtain ⟨e, he, -⟩ := hinv.gen_le h hh
      rw [hkey, hk] at he
      cases he

/-- Every hold of a scope is no newer than the scope's entry. -/
theorem CountersInv.gen_le_entryLocked (hinv : CountersInv d)
    (hh : h ∈ d.holds) : h.gen ≤ (entryLocked d h.key).gen := by
  obtain ⟨e, he, hle⟩ := hinv.gen_le h hh
  simpa [entryLocked, he] using hle

/-- Rewriting one entry without going back a generation keeps every
hold's generation bounded. -/
theorem gen_le_update (hinv : CountersInv d)
    (hgen : (entryLocked d k).gen ≤ e.gen) :
    ∀ h ∈ d.holds, ∃ e', Function.update d.vals k (some e) h.key = some e'
      ∧ h.gen ≤ e'.gen := by
  intro h hh
  by_cases hk : h.key = k
  · refine ⟨e, by rw [hk, Function.update_self], ?_⟩
    have hle := hinv.gen_le_entryLocked hh
    rw [hk] at hle
    omega
  · rw [Function.update_of_ne hk]
    exact hinv.gen_le h hh

/-- The put rule: rewrite one entry, keeping its generation and making
its `held` the sum again. -/
theorem CountersInv.put (hinv : CountersInv d)
    (hgen : (entryLocked d k).gen ≤ e.gen)
    (hheld : e.held = outstanding d.holds k e.gen) :
    CountersInv (d.put k e) := by
  refine ⟨?_, gen_le_update hinv hgen, hinv.nano_pos, hinv.settled_released⟩
  intro k' e' he'
  rw [put_vals] at he'
  by_cases hk : k' = k
  · subst hk
    rw [Function.update_self, Option.some.injEq] at he'
    subst he'
    exact hheld
  · rw [Function.update_of_ne hk] at he'
    exact hinv.held_eq k' e' he'

theorem countersInv_new : CountersInv newDegradedCounters := by
  refine ⟨?_, ?_, ?_, ?_⟩
  · intro k e he
    cases he
  · intro h hh
    cases hh
  · intro h hh
    cases hh
  · intro h hh
    cases hh

theorem countersInv_add (hinv : CountersInv d) (k : String) (delta : Int) :
    CountersInv (add d k delta) :=
  hinv.put (le_refl _) (hinv.entryLocked_held k)

/-- A reservation that fits adds one hold of the entry's generation and
its amount to `held`. -/
theorem countersInv_tryReserve (hinv : CountersInv d) (k : String)
    (nano share : Int) : CountersInv (tryReserve d k nano share).1 := by
  cases hres : tryReserve d k nano share with
  | mk d' o =>
      cases o with
      | none =>
          obtain rfl | rfl := tryReserve_none hres
          · exact hinv
          · exact hinv.put (le_refl _) (hinv.entryLocked_held k)
      | some h =>
          obtain ⟨hpos, -, -, rfl, hvals, hholds⟩ := tryReserve_some hres
          refine ⟨?_, ?_, ?_, ?_⟩
          · intro k' e' he'
            rw [hvals] at he'
            rw [hholds, outstanding_append_one]
            by_cases hk : k' = k
            · subst hk
              rw [Function.update_self, Option.some.injEq] at he'
              subst he'
              simp [hinv.entryLocked_held k']
            · rw [Function.update_of_ne hk] at he'
              have hne : ¬ k = k' := fun h => hk h.symm
              simp [hne, hinv.held_eq k' e' he']
          · intro h' hh'
            rw [hvals]
            rw [hholds, List.mem_append, List.mem_singleton] at hh'
            rcases hh' with hh' | rfl
            · exact gen_le_update hinv
                (e := { entryLocked d k with
                  held := (entryLocked d k).held + nano })
                (le_refl _) h' hh'
            · exact ⟨_, Function.update_self .., le_refl _⟩
          · intro h' hh'
            rw [hholds, List.mem_append, List.mem_singleton] at hh'
            rcases hh' with hh' | rfl
            · exact hinv.nano_pos h' hh'
            · exact hpos
          · intro h' hh' hs
            rw [hholds, List.mem_append, List.mem_singleton] at hh'
            rcases hh' with hh' | rfl
            · exact hinv.settled_released h' hh' hs
            · cases hs

/-- No hold belongs to the generation a reset opens. -/
theorem outstanding_next_gen (hinv : CountersInv d) (he : d.vals k = some e) :
    outstanding d.holds k (e.gen + 1) = 0 := by
  refine outstanding_eq_zero fun h hh hk => ?_
  have hle := hinv.gen_le_entryLocked hh
  simp only [hk, entryLocked, he, Option.getD_some] at hle
  omega

theorem countersInv_reset (hinv : CountersInv d) (k : String) :
    CountersInv (reset d k) := by
  unfold reset
  cases he : d.vals k with
  | none => exact hinv
  | some e =>
      refine hinv.put ?_ (outstanding_next_gen hinv he).symm
      simp [entryLocked, he, DegradedEntry.cleared]

theorem countersInv_resetAll (hinv : CountersInv d) :
    CountersInv (resetAll d) := by
  refine ⟨?_, ?_, hinv.nano_pos, hinv.settled_released⟩
  · intro k e he
    obtain ⟨e₀, he₀, rfl⟩ := Option.map_eq_some_iff.1 he
    exact (outstanding_next_gen hinv he₀).symm
  · intro h hh
    obtain ⟨e, he, hle⟩ := hinv.gen_le h hh
    refine ⟨e.cleared, by simp [resetAll, he], ?_⟩
    show h.gen ≤ e.gen + 1
    omega

/-- Rewriting the flags of one hold keeps every field but `held_eq`. -/
theorem countersInv_setHold (hinv : CountersInv d) (hi : d.holds[i]? = some h)
    (hkey : h'.key = h.key) (hnano : h'.nano = h.nano) (hgen : h'.gen = h.gen)
    (hflag : h'.settled = true → h'.released = true)
    (hheld : ∀ k e, d.vals k = some e →
      e.held = outstanding (d.holds.set i h') k e.gen) :
    CountersInv (d.setHold i h') := by
  have hmem : h ∈ d.holds := List.mem_of_getElem? hi
  refine ⟨hheld, ?_, ?_, ?_⟩
  · intro x hx
    rcases List.mem_or_eq_of_mem_set hx with hx | rfl
    · exact hinv.gen_le x hx
    · rw [hkey, hgen]
      exact hinv.gen_le h hmem
  · intro x hx
    rcases List.mem_or_eq_of_mem_set hx with hx | rfl
    · exact hinv.nano_pos x hx
    · rw [hnano]
      exact hinv.nano_pos h hmem
  · intro x hx hs
    rcases List.mem_or_eq_of_mem_set hx with hx | rfl
    · exact hinv.settled_released x hx hs
    · exact hflag hs

theorem countersInv_releaseMark (hinv : CountersInv d) (i : Nat) :
    CountersInv (releaseMark d i) := by
  unfold releaseMark
  split
  case h_1 => exact hinv
  case h_2 h hi =>
    split
    case isTrue => exact hinv
    case isFalse =>
      refine countersInv_setHold hinv hi rfl rfl rfl (fun _ => rfl) ?_
      -- raising the flag does not settle: the sum is unchanged
      intro k e he
      rw [outstanding_set hi, hinv.held_eq k e he]
      simp

/-- The locked half of `Release`: the hold leaves the sum of its own
generation, and the entry gives the amount back exactly when it is
still in that generation. -/
theorem countersInv_releaseSettle (hinv : CountersInv d) (i : Nat) :
    CountersInv (releaseSettle d i) := by
  unfold releaseSettle
  split
  case h_1 => exact hinv
  case h_2 h hi =>
    split
    case isFalse => exact hinv
    case isTrue hph =>
      simp only [Bool.and_eq_true, Bool.not_eq_true'] at hph
      obtain ⟨hrel, hset⟩ := hph
      have hmem : h ∈ d.holds := List.mem_of_getElem? hi
      obtain ⟨e, he, hle⟩ := hinv.gen_le h hmem
      simp only [setHold_vals, he]
      split
      case isTrue hgen =>
        refine ⟨?_, ?_, ?_, ?_⟩
        · intro k' e' he'
          simp only [put_vals, setHold_vals] at he'
          simp only [put_holds, setHold_holds]
          rw [outstanding_set hi]
          by_cases hk : k' = h.key
          · subst hk
            rw [Function.update_self, Option.some.injEq] at he'
            subst he'
            simp [hset, hgen, hinv.held_eq h.key e he]
          · rw [Function.update_of_ne hk] at he'
            have hne : ¬ h.key = k' := fun h => hk h.symm
            simp [hne, hinv.held_eq k' e' he']
        · intro x hx
          simp only [put_vals, put_holds, setHold_vals, setHold_holds]
            at hx ⊢
          have hgen' : (entryLocked d h.key).gen ≤ e.gen := by
            simp [entryLocked, he]
          rcases List.mem_or_eq_of_mem_set hx with hx | rfl
          · exact gen_le_update hinv
              (e := { e with held := e.held - h.nano }) hgen' x hx
          · exact gen_le_update hinv
              (e := { e with held := e.held - h.nano }) hgen' h hmem
        · intro x hx
          simp only [put_holds, setHold_holds] at hx
          rcases List.mem_or_eq_of_mem_set hx with hx | rfl
          · exact hinv.nano_pos x hx
          · exact hinv.nano_pos h hmem
        · intro x hx hs
          simp only [put_holds, setHold_holds] at hx
          rcases List.mem_or_eq_of_mem_set hx with hx | rfl
          · exact hinv.settled_released x hx hs
          · exact hrel
      case isFalse hgen =>
        refine countersInv_setHold hinv hi rfl rfl rfl (fun _ => hrel) ?_
        intro k' e' he'
        rw [outstanding_set hi, hinv.held_eq k' e' he']
        -- a stale hold is in no current sum
        have hno : ¬ (h.key = k' ∧ h.settled = false ∧ h.gen = e'.gen) := by
          rintro ⟨rfl, -, hg⟩
          rw [he, Option.some.injEq] at he'
          subst he'
          exact hgen hg.symm
        simp [hno]

theorem countersInv_step (d : Counters) (op : CounterOp)
    (hinv : CountersInv d) : CountersInv (op.apply d) := by
  cases op with
  | tryReserve key nano share => exact countersInv_tryReserve hinv _ _ _
  | add key delta => exact countersInv_add hinv _ _
  | releaseMark i => exact countersInv_releaseMark hinv i
  | releaseSettle i => exact countersInv_releaseSettle hinv i
  | reset key => exact countersInv_reset hinv _
  | resetAll => exact countersInv_resetAll hinv

/-- Every interleaving keeps the invariant. -/
theorem countersInv_afterOps (ops : List CounterOp) :
    CountersInv (afterOps ops) :=
  Lib.foldl_inv countersInv_step ops _ countersInv_new

-- ================================================= holds and generations

/-- Scope, amount and generation of a hold never change: `d'` is later
than `d`. Entries stay, and their generations only grow. -/
structure Later (d d' : Counters) : Prop where
  hold : ∀ (i : Nat) (h : Hold), d.holds[i]? = some h →
    ∃ h' : Hold, d'.holds[i]? = some h'
    ∧ h'.key = h.key ∧ h'.nano = h.nano ∧ h'.gen = h.gen
  entry : ∀ k e, d.vals k = some e →
    ∃ e', d'.vals k = some e' ∧ e.gen ≤ e'.gen

theorem Later.refl (d : Counters) : Later d d :=
  ⟨fun _ h hi => ⟨h, hi, rfl, rfl, rfl⟩, fun _ e he => ⟨e, he, le_refl _⟩⟩

theorem Later.trans {d' d'' : Counters} (h₁ : Later d d') (h₂ : Later d' d'') :
    Later d d'' := by
  refine ⟨?_, ?_⟩
  · intro i h hi
    obtain ⟨h', hi', hk, hn, hg⟩ := h₁.hold i h hi
    obtain ⟨h'', hi'', hk', hn', hg'⟩ := h₂.hold i h' hi'
    exact ⟨h'', hi'', hk'.trans hk, hn'.trans hn, hg'.trans hg⟩
  · intro k e he
    obtain ⟨e', he', hle⟩ := h₁.entry k e he
    obtain ⟨e'', he'', hle'⟩ := h₂.entry k e' he'
    exact ⟨e'', he'', hle.trans hle'⟩

/-- Rewriting one entry forward is later. -/
theorem later_put (hgen : (entryLocked d k).gen ≤ e.gen) :
    Later d (d.put k e) := by
  refine ⟨fun i h hi => ⟨h, hi, rfl, rfl, rfl⟩, ?_⟩
  intro k' e' he'
  by_cases hk : k' = k
  · subst hk
    refine ⟨e, by rw [put_vals, Function.update_self], ?_⟩
    simpa [entryLocked, he'] using hgen
  · exact ⟨e', by rw [put_vals, Function.update_of_ne hk, he'], le_refl _⟩

/-- Rewriting the flags of one hold is later. -/
theorem later_setHold (hi : d.holds[i]? = some h) (hkey : h'.key = h.key)
    (hnano : h'.nano = h.nano) (hgen : h'.gen = h.gen) :
    Later d (d.setHold i h') := by
  refine ⟨?_, fun k e he => ⟨e, he, le_refl _⟩⟩
  intro j x hj
  by_cases hij : i = j
  · subst hij
    rw [hi, Option.some.injEq] at hj
    subst hj
    refine ⟨h', ?_, hkey, hnano, hgen⟩
    rw [setHold_holds]
    exact List.getElem?_set_self (List.getElem?_eq_some_iff.1 hi).1
  · exact ⟨x, by rw [setHold_holds, List.getElem?_set_ne hij, hj],
      rfl, rfl, rfl⟩

theorem later_releaseSettle (d : Counters) (i : Nat) :
    Later d (releaseSettle d i) := by
  unfold releaseSettle
  split
  case h_1 => exact Later.refl d
  case h_2 h hi =>
    split
    case isFalse => exact Later.refl d
    case isTrue =>
      have hset : Later d (d.setHold i { h with settled := true }) :=
        later_setHold hi rfl rfl rfl
      dsimp only
      split
      case h_1 e he =>
        split
        case isTrue =>
          refine hset.trans (later_put ?_)
          simp [entryLocked, he]
        case isFalse => exact hset
      case h_2 => exact hset

/-- Every step goes forward. -/
theorem later_step (d : Counters) (op : CounterOp) :
    Later d (op.apply d) := by
  cases op with
  | tryReserve key nano share =>
      simp only [CounterOp.apply]
      cases hres : Failmode.tryReserve d key nano share with
      | mk d' o =>
          cases o with
          | none =>
              obtain rfl | rfl := tryReserve_none hres
              · exact Later.refl _
              · exact later_put (le_refl _)
          | some h =>
              obtain ⟨-, -, -, -, hvals, hholds⟩ := tryReserve_some hres
              refine ⟨?_, ?_⟩
              · intro i x hi
                refine ⟨x, ?_, rfl, rfl, rfl⟩
                rw [hholds, List.getElem?_append_left
                  (List.getElem?_eq_some_iff.1 hi).1, hi]
              · intro k e he
                rw [hvals]
                exact (later_put (d := d) (k := key)
                  (e := { entryLocked d key with
                    held := (entryLocked d key).held + nano })
                  (le_refl _)).entry k e he
  | add key delta => exact later_put (le_refl _)
  | releaseMark i =>
      simp only [CounterOp.apply, Failmode.releaseMark]
      split
      case h_1 => exact Later.refl d
      case h_2 h hi =>
        split
        case isTrue => exact Later.refl d
        case isFalse => exact later_setHold hi rfl rfl rfl
  | releaseSettle i => exact later_releaseSettle d i
  | reset key =>
      simp only [CounterOp.apply, Failmode.reset]
      split
      case h_1 => exact Later.refl d
      case h_2 e he =>
        refine later_put ?_
        simp [entryLocked, he, DegradedEntry.cleared]
  | resetAll =>
      refine ⟨fun i h hi => ⟨h, hi, rfl, rfl, rfl⟩, ?_⟩
      intro k e he
      refine ⟨e.cleared, by simp [CounterOp.apply, Failmode.resetAll, he], ?_⟩
      show e.gen ≤ e.gen + 1
      omega

/-- Every run goes forward. -/
theorem later_foldl (ops : List CounterOp) (d : Counters) :
    Later d (ops.foldl CounterOp.apply d) := by
  induction ops generalizing d with
  | nil => exact Later.refl d
  | cons op ops ih => exact (later_step d op).trans (ih _)

/-- A step clears scope `k`. -/
def CounterOp.resets (k : String) : CounterOp → Bool
  | .reset key => key == k
  | .resetAll => true
  | _ => false

/-- A reset moves the scope's entry past the generation of every hold
taken before it. -/
theorem gen_lt_of_resets {op : CounterOp} (hop : op.resets k = true)
    (he : d.vals k = some e) :
    ∃ e', (op.apply d).vals k = some e' ∧ e.gen < e'.gen := by
  cases op with
  | reset key =>
      have hk : key = k := by simpa [CounterOp.resets] using hop
      subst hk
      refine ⟨e.cleared, ?_, Nat.lt_succ_self _⟩
      simp [CounterOp.apply, Failmode.reset, he]
  | resetAll =>
      refine ⟨e.cleared, ?_, Nat.lt_succ_self _⟩
      simp [CounterOp.apply, Failmode.resetAll, he]
  | tryReserve | add | releaseMark | releaseSettle => cases hop

/-- A hold taken before a reset of its scope returns nothing to any
later window: its `Release` leaves every entry as it is. -/
theorem stale_release_returns_nothing (before after : List CounterOp)
    (hi : (afterOps before).holds[i]? = some h)
    (hreset : ∃ op ∈ after, op.resets h.key = true) :
    (releaseSettle (afterOps (before ++ after)) i).vals
      = (afterOps (before ++ after)).vals := by
  obtain ⟨op, hop, hres⟩ := hreset
  obtain ⟨as, bs, rfl⟩ := List.append_of_mem hop
  set d₀ := afterOps before with hd₀
  have hd : afterOps (before ++ (as ++ op :: bs))
      = bs.foldl CounterOp.apply (op.apply (as.foldl CounterOp.apply d₀)) := by
    simp [afterOps, hd₀, List.foldl_append]
  rw [hd]
  -- the hold is no newer than the entry it was taken from ...
  obtain ⟨e, he, hle⟩ := (countersInv_afterOps before).gen_le h
    (List.mem_of_getElem? hi)
  -- ... which the reset moves past it, for good
  obtain ⟨e₁, he₁, hle₁⟩ := (later_foldl as d₀).entry h.key e he
  obtain ⟨e₂, he₂, hlt⟩ := gen_lt_of_resets hres he₁
  have hlast := later_foldl bs (op.apply (as.foldl CounterOp.apply d₀))
  obtain ⟨e₃, he₃, hle₃⟩ := hlast.entry h.key e₂ he₂
  obtain ⟨h', hi', hkey, -, hgen⟩ :=
    (((later_foldl as d₀).trans (later_step _ op)).trans hlast).hold i h hi
  have hne : ¬ e₃.gen = h'.gen := by omega
  unfold releaseSettle
  simp only [hi']
  split
  case isFalse => rfl
  case isTrue => simp [hkey, he₃, hne]

/-- The two steps of a `Release` leave its hold settled. -/
theorem release_settles (hi : d.holds[i]? = some h) :
    ∃ h', (releaseSettle (releaseMark d i) i).holds[i]? = some h'
      ∧ h'.released = true ∧ h'.settled = true := by
  have hlt : i < d.holds.length := (List.getElem?_eq_some_iff.1 hi).1
  have hmark : (releaseMark d i).holds[i]?
      = some { h with released := true } := by
    simp only [releaseMark, hi]
    split
    case isTrue hrel => rw [hi, ← hrel]
    case isFalse => rw [setHold_holds, List.getElem?_set_self hlt]
  have hlt' : i < (releaseMark d i).holds.length :=
    (List.getElem?_eq_some_iff.1 hmark).1
  simp only [releaseSettle, hmark, Bool.true_and]
  split
  case isFalse hset =>
    exact ⟨_, hmark, rfl, by simpa using hset⟩
  case isTrue =>
    refine ⟨{ h with released := true, settled := true }, ?_, rfl, rfl⟩
    split
    case h_2 => rw [setHold_holds, List.getElem?_set_self hlt']
    case h_1 =>
      split
      case isTrue =>
        rw [put_holds, setHold_holds, List.getElem?_set_self hlt']
      case isFalse => rw [setHold_holds, List.getElem?_set_self hlt']

-- ============================================================ the fleet

/-- `d` is the state of one replica right after a successful
`TryReserve` of scope `k` against `share`. -/
def JustAdmitted (k : String) (share : Int) (d : Counters) : Prop :=
  ∃ (ops : List CounterOp) (nano : Int) (h : Hold),
    tryReserve (afterOps ops) k nano share = (d, some h)

/-- A successful reservation leaves the scope within the share it was
tested against. -/
theorem get_le_share {d' : Counters} {nano share : Int}
    (hres : tryReserve d k nano share = (d', some h)) : get d' k ≤ share := by
  obtain ⟨-, -, hfit, -, hvals, -⟩ := tryReserve_some hres
  simp only [get, hvals, Function.update_self]
  omega

/-- An admission needs a positive share, so a positive total. -/
theorem JustAdmitted.total_pos {total replicas : Int}
    (hadm : JustAdmitted k (perReplicaShare total replicas) d) :
    0 < total := by
  obtain ⟨ops, nano, h, hres⟩ := hadm
  have hshare := (tryReserve_some hres).2.1
  by_contra hneg
  simp [perReplicaShare, show total ≤ 0 by omega] at hshare

/-- Whatever set of the `N` replicas has admitted, together they stay
within the fleet allowance. -/
theorem fleet_le_total {N : Nat} {total : Int} {replica : Fin N → Counters}
    {admitted : Finset (Fin N)} (hadm : ∀ i ∈ admitted,
      JustAdmitted k (perReplicaShare total N) (replica i))
    (hne : admitted.Nonempty) : ∑ i ∈ admitted, get (replica i) k ≤ total := by
  obtain ⟨i₀, hi₀⟩ := hne
  have htotal := (hadm i₀ hi₀).total_pos
  have hcard : admitted.card ≤ N := by
    simpa using Finset.card_le_univ admitted
  calc ∑ i ∈ admitted, get (replica i) k
      ≤ admitted.card • perReplicaShare total N := by
        refine Finset.sum_le_card_nsmul _ _ _ fun i hi => ?_
        obtain ⟨ops, nano, h, hres⟩ := hadm i hi
        exact get_le_share hres
    _ = admitted.card * perReplicaShare total N := nsmul_eq_mul ..
    _ ≤ N * perReplicaShare total N := by
        refine mul_le_mul_of_nonneg_right (by exact_mod_cast hcard) ?_
        exact perReplicaShare_nonneg total N
    _ ≤ total := replicas_mul_perReplicaShare_le N (le_of_lt htotal)

/-- Degraded-mode reservations never exceed the fleet allowance. After
every interleaving: each entry's `held` is the sum of exactly its
outstanding holds (of the unreleased ones, whenever no `Release` is
between its flag and its locked section), so it is never negative; both
steps of a `Release` leave the hold settled; a hold taken before a reset
returns nothing to a later window; a successful reservation leaves billed
plus held within the share; and any set of `N` replicas that have
admitted against their shares of `total` is within `total`. -/
theorem reservations_within_fleet_allowance :
    (∀ (ops : List CounterOp) (k : String) (e : DegradedEntry),
      (afterOps ops).vals k = some e →
        e.held = outstanding (afterOps ops).holds k e.gen
        ∧ ((∀ h ∈ (afterOps ops).holds, h.released = h.settled) →
            e.held = unreleased (afterOps ops).holds k e.gen)
        ∧ 0 ≤ e.held)
    ∧ (∀ (ops : List CounterOp) (i : Nat) (h : Hold),
        (afterOps ops).holds[i]? = some h →
        ∃ h', (afterOps (ops ++ [.releaseMark i, .releaseSettle i])).holds[i]?
            = some h' ∧ h'.released = true ∧ h'.settled = true)
    ∧ (∀ (before after : List CounterOp) (i : Nat) (h : Hold),
        (afterOps before).holds[i]? = some h →
        (∃ op ∈ after, op.resets h.key = true) →
        (releaseSettle (afterOps (before ++ after)) i).vals
          = (afterOps (before ++ after)).vals)
    ∧ (∀ (ops : List CounterOp) (k : String) (nano share : Int)
        (d' : Counters) (h : Hold),
        tryReserve (afterOps ops) k nano share = (d', some h) →
        get d' k ≤ share)
    ∧ (∀ (total : Int) (N : Nat) (k : String)
        (replica : Fin N → Counters) (admitted : Finset (Fin N)),
        (∀ i ∈ admitted,
          JustAdmitted k (perReplicaShare total N) (replica i)) →
        admitted.Nonempty →
        ∑ i ∈ admitted, get (replica i) k ≤ total) := by
  refine ⟨?_, ?_, ?_, ?_, ?_⟩
  · intro ops k e he
    have hinv := countersInv_afterOps ops
    have hheld := hinv.held_eq k e he
    refine ⟨hheld, fun hflag => ?_, ?_⟩
    · rw [hheld, outstanding_eq_unreleased hflag]
    · rw [hheld]
      exact outstanding_nonneg hinv.nano_pos k e.gen
  · intro ops i h hi
    rw [afterOps, List.foldl_append]
    exact release_settles hi
  · intro before after i h hi hreset
    exact stale_release_returns_nothing before after hi hreset
  · intro ops k nano share d' h hres
    exact get_le_share hres
  · intro total N k replica admitted hadm hne
    exact fleet_le_total hadm hne

/-- Two reservations of 40 and 60 fill a share of 100; after a reset,
releasing the first one takes nothing from the new window. -/
example :
    (get (afterOps [.tryReserve "p" 40 100, .tryReserve "p" 60 100,
        .tryReserve "p" 1 100]) "p" = 100)
    ∧ get (afterOps [.tryReserve "p" 40 100, .reset "p",
        .tryReserve "p" 70 100, .releaseMark 0, .releaseSettle 0]) "p"
      = 70 := by
  decide

-- ================================================== the fleet in an outage

/-- A share at least as large grants what a share granted. -/
theorem JustAdmitted.mono {share share' : Int} (hadm : JustAdmitted k share d)
    (hle : share ≤ share') : JustAdmitted k share' d := by
  obtain ⟨ops, nano, h, hres⟩ := hadm
  refine ⟨ops, nano, h, ?_⟩
  unfold tryReserve at hres ⊢
  split at hres
  case isTrue => cases hres
  case isFalse hpos =>
    rw [if_neg (by omega)]
    dsimp only at hres ⊢
    split at hres
    case isTrue => cases hres
    case isFalse hfit => rw [if_neg (by omega), ← hres]

/-- The most a fleet may have spent on a scope in an outage: the limit,
or the soft threshold plus the fleet cap where that is more. -/
def outageBound (snap : Snapshot) (p : Params) : Int :=
  max snap.hardLimitNano
    (softThreshold snap + fleetCap p snap.hardLimitNano)

/-- An admission of `CheckBudget` that took a hold reserved against the
share of an allowance that its snapshot leaves below the bound. -/
theorem checkBudget_admitted {natsUp : Bool} {auth req : Int}
    {seen after : Counters} {ops : List CounterOp} {key : String}
    {snap : Snapshot} {p : Params} {dec : Decision} {hold : Hold}
    (hcheck : checkBudget natsUp auth seen (afterOps ops) key snap req p
      = (after, dec, some hold)) :
    ∃ total, total ≤ outageBound snap p - snap.accumulatedNano
      ∧ JustAdmitted key (perReplicaShare total p.expectedReplicas)
          after := by
  unfold checkBudget at hcheck
  dsimp only at hcheck
  generalize (if natsUp = true then 0 else get seen key) = spent at hcheck
  split at hcheck
  case isFalse => cases hcheck
  case isTrue hcapped =>
    obtain ⟨total, htotal, hshare⟩ := decideTable_capped hcapped.2
    refine ⟨total, ?_, ?_⟩
    · unfold outageBound
      omega
    · unfold reserve at hcheck
      dsimp only [decideWithAlerts] at hcheck
      rw [hshare] at hcheck
      split at hcheck
      case h_1 after' hold' hres =>
        cases hcheck
        exact ⟨ops, _, hold, hres⟩
      case h_2 => cases hcheck

/-- An outage cannot run the fleet past its bound. `N` replicas decide
apart, each on its own snapshot of one budget and after any history of
its counters; whatever set of them has just admitted a request, what was
accumulated before the outage and all that they have billed or hold
stays within the limit, or the soft threshold plus the fleet cap. -/
theorem outage_spend_bounded {N : Nat} {key : String}
    {p : Fin N → Params} (hN : ∀ i, (p i).expectedReplicas = N)
    {base bound : Int} {ops : Fin N → List CounterOp}
    {snap : Fin N → Snapshot}
    {natsUp : Fin N → Bool} {auth req : Fin N → Int}
    {seen after : Fin N → Counters} {admitted : Finset (Fin N)}
    (hbase : ∀ i ∈ admitted, base ≤ (snap i).accumulatedNano)
    (hbound : ∀ i ∈ admitted, outageBound (snap i) (p i) ≤ bound)
    (hadmitted : ∀ i ∈ admitted, ∃ dec hold,
      checkBudget (natsUp i) (auth i) (seen i) (afterOps (ops i)) key
        (snap i) (req i) (p i) = (after i, dec, some hold))
    (hne : admitted.Nonempty) :
    base + ∑ i ∈ admitted, get (after i) key ≤ bound := by
  have hadm : ∀ i ∈ admitted,
      JustAdmitted key (perReplicaShare (bound - base) N) (after i) := by
    intro i hi
    obtain ⟨dec, hold, hcheck⟩ := hadmitted i hi
    obtain ⟨total, htotal, hjust⟩ := checkBudget_admitted hcheck
    rw [hN i] at hjust
    refine hjust.mono (perReplicaShare_mono ?_ N)
    have := hbase i hi
    have := hbound i hi
    omega
  have := fleet_le_total hadm hne
  omega

/-- A scope with 200 left of a limit of 1000, near it. -/
def nearLimit : Snapshot where
  isUnlimited := false
  hardLimitNano := 1000
  accumulatedNano := 800
  softAlertPct := 80
  age := 0
  found := true

/-- Two replicas, each request of which reserves 100. -/
def twoReplicas : Params where
  mode := .tieredHybrid
  pgFreshness := 1
  expectedReplicas := 2
  degradedCapNano := 100
  outageExceededMax := false
  degradedReservationNano := 100

/-- Both replicas admit one request: the fleet is at the limit. -/
theorem outage_spend_bounded_two :
    800 + ∑ _ : Fin 2, get (checkBudget false 0 (afterOps []) (afterOps [])
      "p" nearLimit 0 twoReplicas).1 "p" ≤ 1000 :=
  @outage_spend_bounded 2 "p" (fun _ => twoReplicas) (fun _ => rfl) 800
    1000 (fun _ => []) (fun _ => nearLimit) (fun _ => false) (fun _ => 0)
    (fun _ => 0) (fun _ => afterOps []) _ _ (fun _ _ => le_refl _)
    (by decide) (fun _ _ => ⟨_, _, rfl⟩) Finset.univ_nonempty

end Elitea.Failmode
