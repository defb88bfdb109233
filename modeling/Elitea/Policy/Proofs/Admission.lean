/-
Rate-limit admission keeps every ceiling, as long as limits do not share
buckets.

# The balance

A call that has counted a bucket and not given the slot back HOLDS it;
a call the bucket refused is BLOCKED in it for good. The bucket is at
every moment the number of slots held plus the number of calls blocked
(`WindowInv.balance`): an increment that passes makes a holder, one that
does not pass makes a blocked call, a compensating decrement ends a
hold. At the end of all calls the holders are the admitted calls, which
is the residue the source promises.

The ceiling is the same balance read at the increment. The total an
increment reads is at least the number of holders, the new one
included, so a passing increment leaves at most `RequestsPerMin` of
them; every other step can only lower the number.

# Where it needs separate buckets

Both readings count CALLS, and the ceiling names ONE rule. A bucket two
limits share breaks them: a call governed by both counts it twice, and
the larger limit admits past the smaller one. The keys do not rule this
out (`sharedDefs`): a user throttle may be named so that its key is an
agent throttle's. `SeparateLimits` is the condition on an arriving
call under which the bounds hold.
-/
import Elitea.Lib.Runs
import Elitea.Lib.Sums
import Elitea.Policy.RateLimit
import Mathlib.Data.List.Nodup

namespace Elitea.Policy

variable {c c' : Call} {b b' : Buckets} {w : Window}

-- ==================================================== holders and blocked

/-- The limits whose bucket the call has counted and not given back. -/
def Call.slots (c : Call) : List RateLimitDef :=
  match c.phase with
  | .requests _ counted => counted
  | .compensate rest _ _ => rest
  | .returned (.admitted counted) => counted
  | _ => []

/-- How many slots of bucket `key` the call holds. -/
def Call.held (c : Call) (key : String) : Nat :=
  c.slots.countP fun d => bucketKey d c.sub == key

/-- Whether bucket `key` has refused the call. -/
def Call.blocked (c : Call) (key : String) : Bool :=
  match c.phase with
  | .compensate _ d _ => bucketKey d c.sub == key
  | .returned (.refusedRequests d _) => bucketKey d c.sub == key
  | _ => false

/-- What the call contributes to bucket `key`. -/
def Call.part (c : Call) (key : String) : Nat :=
  c.held key + (c.blocked key).toNat

/-- The slots of bucket `key` that all calls hold. -/
def Window.held (w : Window) (key : String) : Nat :=
  (w.calls.map fun c => c.held key).sum

-- ========================================================== the condition

/-- The limits of a call that count requests. -/
def Call.counting (c : Call) : List RateLimitDef :=
  c.limits.filter fun d => d.requestsPerMin > 0

/-- No two limits of `c` count in one bucket, and a bucket that `c`
shares with an earlier call has the same ceiling in both. -/
def SeparateLimits (w : Window) (c : Call) : Prop :=
  (c.counting.map fun d => bucketKey d c.sub).Nodup
    ∧ ∀ c' ∈ w.calls, ∀ d ∈ c.counting, ∀ d' ∈ c'.counting,
        bucketKey d c.sub = bucketKey d' c'.sub →
        d.requestsPerMin = d'.requestsPerMin

/-- The guard of a step: an arriving call brings separate limits. -/
def SeparateStep (w : Window) : AdmitOp → Prop
  | .arrive defs sub => SeparateLimits w (Call.enter defs sub)
  | .move _ _ => True

instance (w : Window) (op : AdmitOp) : Decidable (SeparateStep w op) := by
  cases op with
  | arrive defs sub => unfold SeparateStep SeparateLimits; infer_instance
  | move i tok => exact isTrue trivial

-- ========================================================= one call alone

/-- The program order of a call: what it has counted and what it has
still to visit are, in order, among its limits, and it counted only
limits that count. -/
def Call.WF (c : Call) : Prop :=
  (∀ d ∈ c.slots, d.requestsPerMin > 0)
    ∧ c.slots.Sublist c.limits
    ∧ match c.phase with
      | .tokens rest kept => (kept ++ rest).Sublist c.limits
      | .requests rest counted => (counted ++ rest).Sublist c.limits
      | _ => True

theorem Call.WF.slots_counting (hwf : c.WF) : c.slots.Sublist c.counting := by
  have h := hwf.2.1.filter fun d => decide (d.requestsPerMin > 0)
  rwa [List.filter_eq_self.2 fun d hd => by simpa using hwf.1 d hd] at h

theorem enter_wf (defs : List RateLimitDef) (sub : Subject) :
    (Call.enter defs sub).WF :=
  ⟨fun d hd => absurd hd (by simp [Call.enter, Call.slots]),
    List.nil_sublist _, List.Sublist.refl _⟩

/-- A call holding a slot of a bucket has a limit that counts there. -/
theorem Call.WF.exists_of_held (hwf : c.WF) {key : String}
    (hheld : 0 < c.held key) : ∃ d ∈ c.counting, bucketKey d c.sub = key := by
  obtain ⟨d, hd, hk⟩ := List.countP_pos_iff.1 hheld
  exact ⟨d, hwf.slots_counting.subset hd, by simpa using hk⟩

/-- With separate limits a call holds at most one slot of a bucket. -/
theorem Call.WF.held_le_one (hwf : c.WF)
    (hnodup : (c.counting.map fun d => bucketKey d c.sub).Nodup) (key : String)
    : c.held key ≤ 1 := by
  have hslots : (c.slots.map fun d => bucketKey d c.sub).Nodup :=
    hnodup.sublist (hwf.slots_counting.map _)
  have hcount : c.held key
      = (c.slots.map fun d => bucketKey d c.sub).count key := by
    rw [List.count, List.countP_map]
    rfl
  rw [hcount]
  exact List.nodup_iff_count_le_one.1 hslots key

-- =============================================================== one step

/-- What one step of a call can do: nothing to any bucket while the
call's part stays the same; a passing increment; a refused one; or a
compensating decrement. -/
inductive Moved (b b' : Buckets) (c c' : Call) : Prop
  /-- No counter operation. -/
  | quiet (hb : b' = b) (hslots : c'.slots = c.slots)
      (hblk : ∀ key, c'.blocked key = c.blocked key)
  /-- An increment that passed its ceiling. -/
  | counted (d : RateLimitDef) (hd : d ∈ c.counting)
      (hb : b' = Function.update b (bucketKey d c.sub)
        (b (bucketKey d c.sub) + 1))
      (hpass : b (bucketKey d c.sub) + 1 ≤ d.requestsPerMin)
      (hslots : c'.slots = c.slots ++ [d])
      (hblk : ∀ key, c'.blocked key = c.blocked key)
  /-- An increment over its ceiling. -/
  | refused (d : RateLimitDef)
      (hb : b' = Function.update b (bucketKey d c.sub)
        (b (bucketKey d c.sub) + 1))
      (hslots : c'.slots = c.slots)
      (hold : ∀ key, c.blocked key = false)
      (hblk : ∀ key, c'.blocked key = (bucketKey d c.sub == key))
  /-- A slot given back. -/
  | gaveBack (d : RateLimitDef)
      (hb : b' = Function.update b (bucketKey d c.sub)
        (b (bucketKey d c.sub) - 1))
      (hslots : c.slots = d :: c'.slots)
      (hblk : ∀ key, c'.blocked key = c.blocked key)

/-- The step inversion: every move of a call is one of the four, keeps
its subject and limits, and keeps its program order. -/
theorem advance_moved {tok : Option Int} (hwf : c.WF)
    (hadv : advance b c tok = some (b', c')) :
    c'.sub = c.sub ∧ c'.limits = c.limits ∧ c'.WF ∧ Moved b b' c c' := by
  obtain ⟨hpos, hsub, horder⟩ := hwf
  obtain ⟨sub, limits, phase⟩ := c
  unfold advance at hadv
  dsimp only at hadv horder
  split at hadv
  case h_1 d rest kept =>
    -- a token bucket: nothing is counted, whatever the read says
    have hrest : (kept ++ rest).Sublist limits :=
      ((List.sublist_cons_self d rest).append_left kept).trans horder
    have hkept : (kept ++ [d] ++ rest).Sublist limits := by
      simpa using horder
    have hnone : ∀ p : List RateLimitDef,
        p.Sublist limits → ∀ l₁ l₂ : List RateLimitDef, p = l₂ ++ l₁ →
        (Call.mk sub limits (.tokens l₁ l₂)).WF := by
      rintro p hp l₁ l₂ rfl
      exact ⟨fun x hx => absurd hx List.not_mem_nil, List.nil_sublist _, hp⟩
    split at hadv
    case isTrue =>
      simp only [Option.some.injEq, Prod.mk.injEq] at hadv
      obtain ⟨rfl, rfl⟩ := hadv
      exact ⟨rfl, rfl, hnone _ hkept _ _ rfl, .quiet rfl rfl fun _ => rfl⟩
    case isFalse =>
      split at hadv
      case h_1 =>
        simp only [Option.some.injEq, Prod.mk.injEq] at hadv
        obtain ⟨rfl, rfl⟩ := hadv
        exact ⟨rfl, rfl, hnone _ hrest _ _ rfl, .quiet rfl rfl fun _ => rfl⟩
      case h_2 total =>
        split at hadv
        case isTrue =>
          simp only [Option.some.injEq, Prod.mk.injEq] at hadv
          obtain ⟨rfl, rfl⟩ := hadv
          exact ⟨rfl, rfl, ⟨fun x hx => absurd hx List.not_mem_nil,
            List.nil_sublist _, trivial⟩, .quiet rfl rfl fun _ => rfl⟩
        case isFalse =>
          simp only [Option.some.injEq, Prod.mk.injEq] at hadv
          obtain ⟨rfl, rfl⟩ := hadv
          exact ⟨rfl, rfl, hnone _ hkept _ _ rfl,
            .quiet rfl rfl fun _ => rfl⟩
  case h_2 kept =>
    simp only [Option.some.injEq, Prod.mk.injEq] at hadv
    obtain ⟨rfl, rfl⟩ := hadv
    refine ⟨rfl, rfl, ⟨fun x hx => absurd hx List.not_mem_nil,
      List.nil_sublist _, ?_⟩, .quiet rfl rfl fun _ => rfl⟩
    simpa using horder
  case h_3 d rest counted =>
    have hd : d ∈ limits := horder.subset (by simp)
    split at hadv
    case isTrue =>
      simp only [Option.some.injEq, Prod.mk.injEq] at hadv
      obtain ⟨rfl, rfl⟩ := hadv
      refine ⟨rfl, rfl, ⟨hpos, hsub, ?_⟩, .quiet rfl rfl fun _ => rfl⟩
      exact ((List.sublist_cons_self d rest).append_left counted).trans horder
    case isFalse hrpm =>
      have hrpm' : d.requestsPerMin > 0 := by omega
      have htotal : (incr b (bucketKey d sub) 1).2
          = b (bucketKey d sub) + 1 := rfl
      split at hadv
      case isTrue hover =>
        simp only [Option.some.injEq, Prod.mk.injEq] at hadv
        obtain ⟨rfl, rfl⟩ := hadv
        exact ⟨rfl, rfl, ⟨hpos, hsub, trivial⟩,
          .refused d rfl rfl (fun _ => rfl) fun _ => rfl⟩
      case isFalse hpass =>
        simp only [Option.some.injEq, Prod.mk.injEq] at hadv
        obtain ⟨rfl, rfl⟩ := hadv
        have horder' : (counted ++ [d] ++ rest).Sublist limits := by
          simpa using horder
        refine ⟨rfl, rfl, ⟨?_, ?_, horder'⟩,
          .counted d ?_ rfl ?_ rfl fun _ => rfl⟩
        · intro x hx
          rcases List.mem_append.1 hx with hx | hx
          · exact hpos x hx
          · rw [List.mem_singleton] at hx
            exact hx ▸ hrpm'
        · exact (List.sublist_append_left _ rest).trans horder'
        · exact List.mem_filter.2 ⟨hd, by simpa using hrpm'⟩
        · dsimp only
          omega
  case h_4 counted =>
    simp only [Option.some.injEq, Prod.mk.injEq] at hadv
    obtain ⟨rfl, rfl⟩ := hadv
    exact ⟨rfl, rfl, ⟨hpos, hsub, trivial⟩, .quiet rfl rfl fun _ => rfl⟩
  case h_5 d rest refuser observed =>
    simp only [Option.some.injEq, Prod.mk.injEq] at hadv
    obtain ⟨rfl, rfl⟩ := hadv
    refine ⟨rfl, rfl, ⟨?_, ?_, trivial⟩, .gaveBack d rfl rfl fun _ => rfl⟩
    · intro x hx
      exact hpos x (List.mem_cons_of_mem _ hx)
    · exact (List.sublist_cons_self d rest).trans hsub
  case h_6 refuser observed =>
    simp only [Option.some.injEq, Prod.mk.injEq] at hadv
    obtain ⟨rfl, rfl⟩ := hadv
    exact ⟨rfl, rfl, ⟨hpos, hsub, trivial⟩, .quiet rfl rfl fun _ => rfl⟩
  case h_7 => cases hadv

/-- The part of a call moves with its bucket. -/
theorem Moved.balance (hm : Moved b b' c c') (hsub : c'.sub = c.sub)
    (key : String) : b' key + c.part key = b key + c'.part key := by
  cases hm with
  | quiet hb hslots hblk =>
      simp [Call.part, Call.held, hb, hslots, hblk, hsub]
  | counted d hd hb hpass hslots hblk =>
      simp only [Call.part, Call.held, hb, hslots, hblk, hsub,
        List.countP_append, List.countP_singleton]
      by_cases hk : key = bucketKey d c.sub
      · subst hk
        simp only [Function.update_self, beq_self_eq_true, if_true]
        omega
      · have hk' : ¬ bucketKey d c.sub = key := fun h => hk h.symm
        simp [Function.update_of_ne hk, hk']
  | refused d hb hslots hold hblk =>
      simp only [Call.part, Call.held, hb, hslots, hold, hblk, hsub]
      by_cases hk : key = bucketKey d c.sub
      · subst hk
        simp
        omega
      · have hk' : ¬ bucketKey d c.sub = key := fun h => hk h.symm
        simp [Function.update_of_ne hk, hk']
  | gaveBack d hb hslots hblk =>
      simp only [Call.part, Call.held, hb, hslots, hblk, hsub,
        List.countP_cons]
      by_cases hk : key = bucketKey d c.sub
      · subst hk
        simp only [Function.update_self, beq_self_eq_true, if_true]
        omega
      · have hk' : ¬ bucketKey d c.sub = key := fun h => hk h.symm
        simp [Function.update_of_ne hk, hk']

/-- Only a passing increment makes a new holder. -/
theorem Moved.held_le_or_counted (hm : Moved b b' c c') (hsub : c'.sub = c.sub)
    (key : String) :
    c'.held key ≤ c.held key
      ∨ ∃ d ∈ c.counting, bucketKey d c.sub = key
          ∧ b' key ≤ d.requestsPerMin := by
  cases hm with
  | quiet hb hslots hblk =>
      left
      simp [Call.held, hslots, hsub]
  | refused d hb hslots hold hblk =>
      left
      simp [Call.held, hslots, hsub]
  | gaveBack d hb hslots hblk =>
      left
      simp only [Call.held, hslots, hsub, List.countP_cons]
      omega
  | counted d hd hb hpass hslots hblk =>
      by_cases hk : bucketKey d c.sub = key
      · right
        refine ⟨d, hd, hk, ?_⟩
        rw [hb, ← hk, Function.update_self]
        exact hpass
      · left
        simp [Call.held, hslots, hsub, List.countP_append, hk]

-- ========================================================== the invariant

/-- What every state of a window with separate limits satisfies. -/
structure WindowInv (w : Window) : Prop where
  wf : ∀ c ∈ w.calls, c.WF
  nodup : ∀ c ∈ w.calls, (c.counting.map fun d => bucketKey d c.sub).Nodup
  same : ∀ c ∈ w.calls, ∀ c' ∈ w.calls, ∀ d ∈ c.counting,
    ∀ d' ∈ c'.counting, bucketKey d c.sub = bucketKey d' c'.sub →
      d.requestsPerMin = d'.requestsPerMin
  balance : ∀ key, w.buckets key = ((w.calls.map fun c => c.part key).sum : Nat)
  ceiling : ∀ c ∈ w.calls, ∀ d ∈ c.counting,
    (w.held (bucketKey d c.sub) : Int) ≤ d.requestsPerMin

theorem windowInv_fresh : WindowInv Window.fresh := by
  refine ⟨?_, ?_, ?_, fun _ => rfl, ?_⟩ <;>
  · intro c hc
    cases hc

theorem held_le_part (w : Window) (key : String) :
    w.held key ≤ (w.calls.map fun c => c.part key).sum :=
  Lib.sum_map_le_sum_map fun _ _ => Nat.le_add_right _ _

/-- Limits of one call in one bucket are one limit. -/
theorem rpm_eq_of_nodup
    (hnodup : (c.counting.map fun d => bucketKey d c.sub).Nodup)
    {d d' : RateLimitDef} (hd : d ∈ c.counting) (hd' : d' ∈ c.counting)
    (hk : bucketKey d c.sub = bucketKey d' c.sub) :
    d.requestsPerMin = d'.requestsPerMin := by
  rw [List.inj_on_of_nodup_map hnodup hd hd' hk]

theorem windowInv_arrive (hinv : WindowInv w) {defs : List RateLimitDef}
    {sub : Subject} (hsep : SeparateLimits w (Call.enter defs sub)) :
    WindowInv { w with calls := w.calls ++ [Call.enter defs sub] } := by
  obtain ⟨hnodup, hsame⟩ := hsep
  set n := Call.enter defs sub with hn
  have hmem : ∀ {c : Call}, c ∈ w.calls ++ [n] → c ∈ w.calls ∨ c = n := by
    intro c hc
    simpa using hc
  have hpart : ∀ key, n.part key = 0 := fun key => rfl
  have hheld : ∀ key, (Window.held
      { w with calls := w.calls ++ [n] } key) = w.held key := by
    intro key
    simp [Window.held, hn, Call.enter, Call.held, Call.slots]
  refine ⟨?_, ?_, ?_, ?_, ?_⟩
  · intro c hc
    rcases hmem hc with hc | rfl
    · exact hinv.wf c hc
    · exact enter_wf defs sub
  · intro c hc
    rcases hmem hc with hc | rfl
    · exact hinv.nodup c hc
    · exact hnodup
  · intro c hc c' hc' d hd d' hd' hk
    rcases hmem hc with hc | rfl
    · rcases hmem hc' with hc' | rfl
      · exact hinv.same c hc c' hc' d hd d' hd' hk
      · exact (hsame c hc d' hd' d hd hk.symm).symm
    · rcases hmem hc' with hc' | rfl
      · exact hsame c' hc' d hd d' hd' hk
      · exact rpm_eq_of_nodup hnodup hd hd' hk
  · intro key
    simp [hinv.balance key, hpart]
  · intro c hc d hd
    rw [hheld]
    rcases hmem hc with hc | rfl
    · exact hinv.ceiling c hc d hd
    · -- the new call's ceiling: any holder has it too
      by_cases hzero : w.held (bucketKey d n.sub) = 0
      · have := (List.mem_filter.1 hd).2
        rw [hzero]
        simp only [gt_iff_lt, decide_eq_true_eq] at this
        omega
      · obtain ⟨c', hc', hpos⟩ : ∃ c' ∈ w.calls,
            0 < c'.held (bucketKey d n.sub) := by
          by_contra hno
          refine hzero (Lib.sum_map_eq_zero fun c' hc' => ?_)
          by_contra hne
          exact hno ⟨c', hc', Nat.pos_of_ne_zero hne⟩
        obtain ⟨d', hd', hk⟩ := (hinv.wf c' hc').exists_of_held hpos
        rw [hsame c' hc' d hd d' hd' hk.symm, ← hk]
        exact hinv.ceiling c' hc' d' hd'

theorem windowInv_move (hinv : WindowInv w) {i : Nat} {tok : Option Int}
    (hi : w.calls[i]? = some c)
    (hadv : advance w.buckets c tok = some (b', c')) :
    WindowInv { buckets := b', calls := w.calls.set i c' } := by
  have hc : c ∈ w.calls := List.mem_of_getElem? hi
  obtain ⟨hsub, hlim, hwf, hmoved⟩ := advance_moved (hinv.wf c hc) hadv
  have hcnt : c'.counting = c.counting := by rw [Call.counting, hlim]; rfl
  -- every call of the new window has the limits of a call of the old one
  have hold : ∀ x ∈ w.calls.set i c', ∃ y ∈ w.calls,
      x.sub = y.sub ∧ x.counting = y.counting := by
    intro x hx
    rcases List.mem_or_eq_of_mem_set hx with hx | rfl
    · exact ⟨x, hx, rfl, rfl⟩
    · exact ⟨c, hc, hsub, hcnt⟩
  have hbal : ∀ key, b' key
      = (((w.calls.set i c').map fun x => x.part key).sum : Nat) := by
    intro key
    have h₁ := hmoved.balance hsub key
    have h₂ := Lib.sum_map_set (fun x : Call => x.part key) (b := c') hi
    have h₃ := hinv.balance key
    omega
  refine ⟨?_, ?_, ?_, hbal, ?_⟩
  · intro x hx
    rcases List.mem_or_eq_of_mem_set hx with hx | rfl
    · exact hinv.wf x hx
    · exact hwf
  · intro x hx
    obtain ⟨y, hy, hs, hl⟩ := hold x hx
    rw [hs, hl]
    exact hinv.nodup y hy
  · intro x hx x' hx' d hd d' hd' hk
    obtain ⟨y, hy, hs, hl⟩ := hold x hx
    obtain ⟨y', hy', hs', hl'⟩ := hold x' hx'
    rw [hl] at hd
    rw [hl'] at hd'
    rw [hs, hs'] at hk
    exact hinv.same y hy y' hy' d hd d' hd' hk
  · intro x hx d hd
    obtain ⟨y, hy, hs, hl⟩ := hold x hx
    rw [hl] at hd
    rw [hs]
    set key := bucketKey d y.sub with hkey
    have hsum := Lib.sum_map_set (fun x : Call => x.held key) (b := c') hi
    rcases hmoved.held_le_or_counted hsub key with hle | ⟨d₀, hd₀, hk, htot⟩
    · -- no new holder
      have hc := hinv.ceiling y hy d hd
      simp only [Window.held] at hc ⊢
      rw [← hkey] at hc
      omega
    · -- a passing increment: the total it read bounds the holders
      have hrpm := hinv.same y hy c hc d hd d₀ hd₀ (hkey ▸ hk.symm)
      have hpart := held_le_part
        { buckets := b', calls := w.calls.set i c' } key
      have hb := hbal key
      simp only [Window.held] at hpart ⊢
      omega

/-- The step lemma of the window. -/
theorem windowInv_step (w : Window) (op : AdmitOp) (w' : Window)
    (hinv : WindowInv w) (hok : SeparateStep w op)
    (hstep : admitStep w op = some w') : WindowInv w' := by
  cases op with
  | arrive defs sub =>
      simp only [admitStep, Option.some.injEq] at hstep
      subst hstep
      exact windowInv_arrive hinv hok
  | move i tok =>
      simp only [admitStep] at hstep
      split at hstep
      case h_1 => cases hstep
      case h_2 c hi =>
        split at hstep
        case h_1 => cases hstep
        case h_2 b c' hadv =>
          simp only [Option.some.injEq] at hstep
          subst hstep
          exact windowInv_move hinv hi hadv

-- ============================================================= the result

/-- No bucket has more admitted calls than the ceiling of any limit that
counts in it. -/
def CeilingsKept (w : Window) : Prop :=
  ∀ c ∈ w.calls, ∀ d ∈ c.counting,
    (w.admitted (bucketKey d c.sub) : Int) ≤ d.requestsPerMin

/-- Once every call has returned, a bucket is the admitted calls that
counted it plus the calls it refused itself. -/
def ResidueExact (w : Window) : Prop :=
  (∀ c ∈ w.calls, c.done = true) →
    ∀ key, w.buckets key = w.admitted key + w.refused key

/-- An admitted call still holds every slot it counted. -/
theorem admittedIn_le_held (c : Call) (key : String) :
    (c.admittedIn key).toNat ≤ c.held key := by
  cases hadm : c.admittedIn key with
  | false => exact Nat.zero_le _
  | true =>
      obtain ⟨sub, limits, phase⟩ := c
      unfold Call.admittedIn at hadm
      split at hadm
      case h_1 counted hph =>
        dsimp only at hph hadm
        subst hph
        obtain ⟨d, hd, hk⟩ := List.any_eq_true.1 hadm
        exact List.countP_pos_iff.2 ⟨d, hd, hk⟩
      case h_2 => cases hadm

theorem admitted_le_held (w : Window) (key : String) :
    w.admitted key ≤ w.held key := by
  unfold Window.admitted Window.held
  rw [← Lib.sum_map_toNat_eq_countP]
  exact Lib.sum_map_le_sum_map fun c _ => admittedIn_le_held c key

/-- A returned call with separate limits is in a bucket once, as
admitted or as refused there, or not at all. -/
theorem part_of_done (hwf : c.WF)
    (hnodup : (c.counting.map fun d => bucketKey d c.sub).Nodup)
    (hdone : c.done = true) (key : String) :
    c.part key = (c.admittedIn key).toNat + (c.refusedIn key).toNat := by
  have hone := hwf.held_le_one hnodup key
  have hadm := admittedIn_le_held c key
  obtain ⟨sub, limits, phase⟩ := c
  cases phase with
  | tokens | requests | compensate => cases hdone
  | returned out =>
      cases out with
      | refusedTokens d observed => rfl
      | refusedRequests d observed =>
          simp [Call.part, Call.held, Call.slots, Call.blocked,
            Call.admittedIn, Call.refusedIn]
      | admitted counted =>
          have hblk : Call.blocked
              ⟨sub, limits, .returned (.admitted counted)⟩ key = false := rfl
          have href : Call.refusedIn
              ⟨sub, limits, .returned (.admitted counted)⟩ key = false := rfl
          rw [Call.part, hblk, href]
          -- the call is in the bucket, once, or it is not
          cases hin : Call.admittedIn
              ⟨sub, limits, .returned (.admitted counted)⟩ key with
          | true =>
              rw [hin] at hadm
              simp only [Bool.toNat_true, Bool.toNat_false] at hadm ⊢
              omega
          | false =>
              have hzero : Call.held
                  ⟨sub, limits, .returned (.admitted counted)⟩ key = 0 := by
                refine List.countP_eq_zero.2 fun d hd hk => ?_
                have : Call.admittedIn
                    ⟨sub, limits, .returned (.admitted counted)⟩ key
                      = true :=
                  List.any_eq_true.2 ⟨d, hd, hk⟩
                rw [hin] at this
                cases this
              rw [hzero]
              rfl

theorem WindowInv.ceilingsKept (hinv : WindowInv w) : CeilingsKept w := by
  intro c hc d hd
  have hle := admitted_le_held w (bucketKey d c.sub)
  have hceil := hinv.ceiling c hc d hd
  omega

theorem WindowInv.residueExact (hinv : WindowInv w) : ResidueExact w := by
  intro hdone key
  have hpart : (w.calls.map fun c => c.part key).sum
      = (w.calls.map fun c =>
          (c.admittedIn key).toNat + (c.refusedIn key).toNat).sum := by
    refine congrArg List.sum (List.map_congr_left fun c hc => ?_)
    exact part_of_done (hinv.wf c hc) (hinv.nodup c hc) (hdone c hc) key
  rw [hinv.balance key, hpart, List.sum_map_add,
    Lib.sum_map_toNat_eq_countP, Lib.sum_map_toNat_eq_countP]
  rfl

/-- Admission keeps every ceiling while limits have their own buckets:
in every interleaving of any number of `AdmitAll` calls whose limits
are separate, no bucket has more admitted calls than its ceiling, and
once all have returned each bucket is its admitted calls plus the calls
it refused itself. -/
theorem admission_keeps_every_ceiling {ops : List AdmitOp} {w : Window}
    (hsep : Lib.Meets admitStep SeparateStep Window.fresh ops)
    (hrun : Lib.run admitStep Window.fresh ops = some w) :
    CeilingsKept w ∧ ResidueExact w := by
  have hinv : WindowInv w :=
    Lib.run_inv windowInv_step ops _ w windowInv_fresh hsep hrun
  exact ⟨hinv.ceilingsKept, hinv.residueExact⟩

/-- Two limits with separate buckets, the project's with one slot. -/
def oneSlotDefs : List RateLimitDef :=
  [{ name := "p", requestsPerMin := 1 },
   { name := "a", requestsPerMin := 5, cls := .agent }]

/-- Two calls of one agent race for the project's one slot: both count
the agent bucket, the second is refused by the project and gives its
agent slot back. -/
def oneSlotRun : List AdmitOp :=
  let sub : Subject := { projectID := 7, agent := ⟨7, 2⟩ }
  [.arrive oneSlotDefs sub, .arrive oneSlotDefs sub,
   .move 0 none, .move 0 none, .move 0 none, .move 0 none,
   .move 1 none, .move 1 none, .move 1 none, .move 1 none,
   .move 0 none, .move 1 none, .move 1 none, .move 1 none, .move 0 none]

/-- The race meets the conditions, runs to the end, and the result
applies to where it ends. -/
theorem admission_keeps_every_ceiling_oneSlot :
    Lib.Meets admitStep SeparateStep Window.fresh oneSlotRun
      ∧ ∃ w, Lib.run admitStep Window.fresh oneSlotRun = some w
        ∧ (∀ c ∈ w.calls, c.done = true)
        ∧ CeilingsKept w ∧ ResidueExact w := by
  have hsep : Lib.Meets admitStep SeparateStep Window.fresh oneSlotRun := by
    decide
  have hdone : (Lib.run admitStep Window.fresh oneSlotRun).map
      (fun w => w.calls.all Call.done) = some true := by decide
  obtain ⟨w, hrun, hall⟩ := Option.map_eq_some_iff.1 hdone
  exact ⟨hsep, w, hrun, List.all_eq_true.1 hall,
    admission_keeps_every_ceiling hsep hrun⟩

-- ======================================================== a shared bucket

/-- A user throttle whose name spells an agent, and the agent throttle
scoped to that user: two limits, one bucket. -/
def sharedDefs : List RateLimitDef :=
  [{ name := "x-a1_2", requestsPerMin := 5, cls := .user },
   { name := "x", scope := { userIDs := [3] }, requestsPerMin := 2
     cls := .agent }]

/-- User 3 calling agent 2 of project 1. -/
def sharedSubject : Subject :=
  { projectID := 1, userID := 3, agent := ⟨1, 2⟩ }

/-- The same user calling another agent, under the user throttle only. -/
def sharedUserDefs : List RateLimitDef := sharedDefs.take 1

-- the class letter does not keep the families of keys apart
example : sharedDefs.map (fun d => bucketKey d sharedSubject)
    = ["x-a1_2-u3", "x-a1_2-u3"] := by decide

/-- One call under both limits. -/
def sharedOnce : List AdmitOp :=
  .arrive sharedDefs sharedSubject :: List.replicate 6 (.move 0 none)

/-- The same call, then two under the user throttle alone. -/
def sharedThrice : List AdmitOp :=
  sharedOnce
    ++ .arrive sharedUserDefs sharedSubject :: List.replicate 4 (.move 1 none)
    ++ .arrive sharedUserDefs sharedSubject :: List.replicate 4 (.move 2 none)

/-- With a shared bucket both bounds fail: one admitted call leaves two
in the bucket, and three admitted calls stand in the bucket of a limit
of two. -/
theorem shared_bucket_breaks_admission :
    (∃ w, Lib.run admitStep Window.fresh sharedOnce = some w
        ∧ ¬ ResidueExact w)
      ∧ ∃ w, Lib.run admitStep Window.fresh sharedThrice = some w
        ∧ ¬ CeilingsKept w := by
  constructor
  · have hobs : (Lib.run admitStep Window.fresh sharedOnce).map
        (fun w => (w.calls.all Call.done, w.buckets "x-a1_2-u3",
          w.admitted "x-a1_2-u3", w.refused "x-a1_2-u3"))
          = some (true, 2, 1, 0) := by decide
    obtain ⟨w, hrun, hw⟩ := Option.map_eq_some_iff.1 hobs
    simp only [Prod.mk.injEq] at hw
    refine ⟨w, hrun, fun hres => ?_⟩
    have hkey := hres (List.all_eq_true.1 hw.1) "x-a1_2-u3"
    rw [hw.2.1, hw.2.2.1, hw.2.2.2] at hkey
    exact absurd hkey (by decide)
  · have hobs : (Lib.run admitStep Window.fresh sharedThrice).map
        (fun w => decide (∃ c ∈ w.calls, ∃ d ∈ c.counting,
          ¬ (w.admitted (bucketKey d c.sub) : Int) ≤ d.requestsPerMin))
          = some true := by decide
    obtain ⟨w, hrun, hw⟩ := Option.map_eq_some_iff.1 hobs
    obtain ⟨c, hc, d, hd, hgt⟩ := of_decide_eq_true hw
    exact ⟨w, hrun, fun hceil => hgt (hceil c hc d hd)⟩

end Elitea.Policy
