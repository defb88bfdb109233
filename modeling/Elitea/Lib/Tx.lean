/-
A database transaction that may fail at any statement.

# What is modelled

A transaction runs a body on a staged copy of the state. It ends in one
of three ways: the body asks for a commit and the commit goes through,
the body asks for a rollback, or some statement (the begin and the
commit included) returns an error and the transaction is aborted. A
`Fault` says which statement fails, by its number in the transaction;
the body consults it before each statement with `Fault.check`, so an
error leaves the body where the program would leave it.

A commit can also be applied while its acknowledgement is lost
(`Fault.commitLost`): the state changes and the caller sees an error.
A program that is safe only against clean aborts is not safe here.

# What is proved

`transact_cases` is the whole specification: a transaction leaves the
state alone, or it leaves what a finished body staged.
-/
import Mathlib.Logic.Basic

namespace Elitea.Lib

variable {σ ε α : Type _}

/-- Where a transaction fails, if it does. -/
inductive Fault (ε : Type _)
  | clean
  /-- Statement number `n` returns `e`; the begin is number 0. -/
  | stmt (n : Nat) (e : ε)
  /-- The commit is applied and its acknowledgement is lost. -/
  | commitLost (e : ε)
deriving DecidableEq, Repr

/-- The outcome of statement `n`. -/
def Fault.check (f : Fault ε) (n : Nat) : Except ε Unit :=
  match f with
  | .stmt m e => if m = n then .error e else .ok ()
  | _ => .ok ()

/-- How a body that met no error ends. -/
inductive Finish (σ α : Type _)
  /-- Commit the staged state; the commit is statement `n`. -/
  | commit (n : Nat) (staged : σ) (out : α)
  | rollback (out : α)

/-- What a transaction leaves behind: the state, what the caller is
told, and whether the transaction was committed. -/
structure TxEnd (σ ε α : Type _) where
  state : σ
  result : Except ε α
  committed : Bool

/-- Run a body on `s`. -/
def transact (f : Fault ε) (s : σ) (body : Except ε (Finish σ α)) :
    TxEnd σ ε α :=
  match f.check 0 with
  | .error e => ⟨s, .error e, false⟩
  | .ok () =>
      match body with
      | .error e => ⟨s, .error e, false⟩
      | .ok (.rollback out) => ⟨s, .ok out, false⟩
      | .ok (.commit n staged out) =>
          match f.check n with
          | .error e => ⟨s, .error e, false⟩
          | .ok () =>
              match f with
              | .commitLost e => ⟨staged, .error e, true⟩
              | _ => ⟨staged, .ok out, true⟩

/-- A transaction was committed and left what its body staged, or it
was not and left the state alone. -/
theorem transact_cases (f : Fault ε) (s : σ)
    (body : Except ε (Finish σ α)) :
    ((transact f s body).committed = true
        ∧ ∃ n staged out, body = .ok (.commit n staged out)
          ∧ (transact f s body).state = staged)
      ∨ ((transact f s body).committed = false
        ∧ (transact f s body).state = s) := by
  cases hbegin : f.check 0 with
  | error e => exact .inr (by simp only [transact, hbegin, and_self])
  | ok u =>
      cases body with
      | error e => exact .inr (by simp only [transact, hbegin, and_self])
      | ok fin =>
          cases fin with
          | rollback out =>
              exact .inr (by simp only [transact, hbegin, and_self])
          | commit n staged out =>
              cases hcommit : f.check n with
              | error e =>
                  exact .inr (by
                    simp only [transact, hbegin, hcommit, and_self])
              | ok u' =>
                  refine .inl ⟨?_, n, staged, out, rfl, ?_⟩ <;>
                  · simp only [transact, hbegin, hcommit]
                    split <;> rfl

/-- A transaction that was not committed left the state alone. -/
theorem transact_aborted {f : Fault ε} {s : σ}
    {body : Except ε (Finish σ α)}
    (h : (transact f s body).committed = false) :
    (transact f s body).state = s := by
  rcases transact_cases f s body with ⟨hc, -⟩ | ⟨-, hs⟩
  · rw [h] at hc
    cases hc
  · exact hs

/-- A result the caller is told comes from a finished body: committed
with that result, or rolled back by the body itself. -/
theorem transact_ok {f : Fault ε} {s : σ} {body : Except ε (Finish σ α)}
    {out : α} (h : (transact f s body).result = .ok out) :
    (∃ n staged, body = .ok (.commit n staged out)
        ∧ (transact f s body).state = staged)
      ∨ (body = .ok (.rollback out) ∧ (transact f s body).state = s) := by
  cases hbegin : f.check 0 with
  | error e => simp only [transact, hbegin, reduceCtorEq] at h
  | ok u =>
      cases body with
      | error e => simp only [transact, hbegin, reduceCtorEq] at h
      | ok fin =>
          cases fin with
          | rollback out' =>
              simp only [transact, hbegin, Except.ok.injEq] at h
              refine .inr ⟨by rw [h], ?_⟩
              simp only [transact, hbegin]
          | commit n staged out' =>
              cases hcommit : f.check n with
              | error e =>
                  simp only [transact, hbegin, hcommit, reduceCtorEq] at h
              | ok u' =>
                  simp only [transact, hbegin, hcommit] at h ⊢
                  cases f with
                  | commitLost e => cases h
                  | clean | stmt =>
                      simp only [Except.ok.injEq] at h
                      exact .inl ⟨n, staged, h ▸ rfl, rfl⟩

end Elitea.Lib
