/-
Runs of a state machine, as every module above states them: a partial
step function, a list of actions, and what holds in every state the
list passes through.

# Why a step function and not a relation

Every component modelled here is executable, so an interleaving is a
list of actions and a run is a computation: a counterexample is one
list, evaluated by the kernel, and a safety theorem is one induction on
the list. The induction is proved once (`run_inv`); each component
supplies its invariant and its step lemma.

# Guarded runs

`Meets ok` says that every step of a run was taken in a state in which
`ok` holds of the state and the action. It is how a result that holds
only while some branch is not taken is stated over whole runs: the
guard names the branch, and `run_inv` carries it to the step lemma.
-/
import Mathlib.Data.List.Basic

namespace Elitea.Lib

variable {σ α : Type _}

-- ============================================================ partial runs

/-- Run a list of actions, failing on the first disabled one. -/
def run (step : σ → α → Option σ) : σ → List α → Option σ
  | s, [] => some s
  | s, a :: as =>
      match step s a with
      | some s' => run step s' as
      | none => none

/-- Every step of the run from `s` is taken in a state that meets `ok`
for the action taken. A disabled action ends the obligation. -/
def Meets (step : σ → α → Option σ) (ok : σ → α → Prop) :
    σ → List α → Prop
  | _, [] => True
  | s, a :: as => ok s a ∧ ∀ s', step s a = some s' → Meets step ok s' as

/-- A decidable guard makes the guarded run decidable, so that a concrete
run's obligation is a computation too. -/
instance decidableMeets (step : σ → α → Option σ) (ok : σ → α → Prop)
    [∀ s a, Decidable (ok s a)] :
    ∀ (s : σ) (as : List α), Decidable (Meets step ok s as)
  | _, [] => isTrue trivial
  | s, a :: as =>
      match h : step s a with
      | none => decidable_of_iff (ok s a) (by simp [Meets, h])
      | some s' =>
          have := decidableMeets step ok s' as
          decidable_of_iff (ok s a ∧ Meets step ok s' as)
            (by simp [Meets, h])

@[simp] theorem run_nil (step : σ → α → Option σ) (s : σ) :
    run step s [] = some s := rfl

/-- A non-empty run, opened at its first step. -/
theorem run_cons_eq_some {step : σ → α → Option σ} {s t : σ} {a : α}
    {as : List α} :
    run step s (a :: as) = some t
      ↔ ∃ s', step s a = some s' ∧ run step s' as = some t := by
  simp only [run]
  cases step s a with
  | none => simp
  | some s' => simp

/-- The invariant rule: what the start satisfies and every guarded step
keeps holds at the end of every guarded run. -/
theorem run_inv {step : σ → α → Option σ} {ok : σ → α → Prop}
    {Inv : σ → Prop}
    (hstep : ∀ s a s', Inv s → ok s a → step s a = some s' → Inv s') :
    ∀ (as : List α) (s t : σ), Inv s → Meets step ok s as →
      run step s as = some t → Inv t := by
  intro as
  induction as with
  | nil =>
      intro s t hs _ hrun
      simp only [run_nil, Option.some.injEq] at hrun
      exact hrun ▸ hs
  | cons a as ih =>
      intro s t hs hmeets hrun
      obtain ⟨s', hs', hrest⟩ := run_cons_eq_some.1 hrun
      exact ih s' t (hstep s a s' hs hmeets.1 hs') (hmeets.2 s' hs') hrest

/-- A guard that does not look at the state is a condition on the
actions. -/
theorem meets_of_forall {step : σ → α → Option σ} {ok : α → Prop} :
    ∀ (as : List α) (s : σ), (∀ a ∈ as, ok a) →
      Meets step (fun _ a => ok a) s as := by
  intro as
  induction as with
  | nil => intro s _; trivial
  | cons a as ih =>
      intro s h
      exact ⟨h a List.mem_cons_self,
        fun s' _ => ih s' fun b hb => h b (List.mem_cons_of_mem a hb)⟩

/-- Two guards met are met together. -/
theorem Meets.and {step : σ → α → Option σ} {ok ok' : σ → α → Prop} :
    ∀ {as : List α} {s : σ}, Meets step ok s as → Meets step ok' s as →
      Meets step (fun s a => ok s a ∧ ok' s a) s as := by
  intro as
  induction as with
  | nil => intro s _ _; trivial
  | cons a as ih =>
      intro s h h'
      exact ⟨⟨h.1, h'.1⟩, fun s' hs' => ih (h.2 s' hs') (h'.2 s' hs')⟩

/-- The unguarded invariant rule. -/
theorem run_inv' {step : σ → α → Option σ} {Inv : σ → Prop}
    (hstep : ∀ s a s', Inv s → step s a = some s' → Inv s')
    (as : List α) (s t : σ) (hs : Inv s)
    (hrun : run step s as = some t) : Inv t := by
  exact @run_inv _ _ _ (fun _ _ => True) _
    (fun s a s' hi _ h => hstep s a s' hi h) as s t hs
    (meets_of_forall as s fun _ _ => trivial) hrun

-- ============================================================== total runs

/-- The invariant rule for a machine none of whose actions is ever
disabled. -/
theorem foldl_inv {step : σ → α → σ} {Inv : σ → Prop}
    (hstep : ∀ s a, Inv s → Inv (step s a)) :
    ∀ (as : List α) (s : σ), Inv s → Inv (as.foldl step s) := by
  intro as
  induction as with
  | nil => intro s hs; exact hs
  | cons a as ih => intro s hs; exact ih (step s a) (hstep s a hs)

end Elitea.Lib
