/-
The per-replica degraded counters (`internal/failmode/counter.go`): what
one gateway replica has spent, and reserved, while NATS is down.

# What is modelled

One `DegradedCounters` value with its mutex. Every method body runs
under the lock, so a method is one atomic step on `Counters`; the one
exception is `Hold.Release`, which stores its `released` flag BEFORE it
takes the lock. It is two steps here (`releaseMark`, `releaseSettle`),
and any other step may fall between them.

A `*Hold` is a pointer handed out by `TryReserve`: it is an index into
`holds`, in the order the reservations were taken. A hold is never
removed, as the Go value stays reachable from the request that took it.

Amounts are `Int` (int64 in the source). `gen` is the source's uint64
generation, as a `Nat`: it moves by one per reset.
-/
import Mathlib.Algebra.BigOperators.Group.List.Basic
import Mathlib.Logic.Function.Basic

namespace Elitea.Failmode

-- ============================================================== the state

/-- One scope's degraded spend (`degradedEntry`). -/
structure DegradedEntry where
  billed : Int := 0
  held : Int := 0
  gen : Nat := 0
deriving DecidableEq, Repr

/-- One admitted request's reservation (`Hold`). `released` is the
atomic flag; `settled` says that the body of `once.Do` has run to its
end, so the locked subtraction is over. -/
structure Hold where
  key : String
  nano : Int
  gen : Nat
  released : Bool := false
  settled : Bool := false
deriving DecidableEq, Repr

/-- `DegradedCounters`, with every hold its `TryReserve` has handed
out. -/
structure Counters where
  vals : String → Option DegradedEntry
  holds : List Hold

/-- `NewDegradedCounters`. -/
def newDegradedCounters : Counters where
  vals := fun _ => none
  holds := []

/-- `entryLocked`: the entry for `key`, created on first use. -/
def entryLocked (d : Counters) (key : String) : DegradedEntry :=
  (d.vals key).getD {}

/-- Write back the entry of `key`. -/
def Counters.put (d : Counters) (key : String) (e : DegradedEntry) :
    Counters :=
  { d with vals := Function.update d.vals key (some e) }

-- ========================================================= the operations

/-- `Add`: record `deltaNano` billed against `key`. -/
def add (d : Counters) (key : String) (deltaNano : Int) : Counters :=
  let e := entryLocked d key
  d.put key { e with billed := e.billed + deltaNano }

/-- `Get`: billed plus held, the amount the FSM compares with the
share. -/
def get (d : Counters) (key : String) : Int :=
  match d.vals key with
  | none => 0
  | some e => e.billed + e.held

/-- `TryReserve`: the test and the add are one step under the lock. The
entry is created even when the reservation does not fit. -/
def tryReserve (d : Counters) (key : String) (nano share : Int) :
    Counters × Option Hold :=
  if nano ≤ 0 ∨ share ≤ 0 then (d, none)
  else
    let e := entryLocked d key
    if e.billed + e.held + nano > share then (d.put key e, none)
    else
      let h : Hold := { key := key, nano := nano, gen := e.gen }
      let d' := d.put key { e with held := e.held + nano }
      ({ d' with holds := d'.holds ++ [h] }, some h)

/-- A reset entry: both parts cleared, and a new generation. -/
def DegradedEntry.cleared (e : DegradedEntry) : DegradedEntry :=
  { billed := 0, held := 0, gen := e.gen + 1 }

/-- `Reset`: clear one scope, if it was ever used. -/
def reset (d : Counters) (key : String) : Counters :=
  match d.vals key with
  | none => d
  | some e => d.put key e.cleared

/-- `ResetAll`: clear every scope. -/
def resetAll (d : Counters) : Counters :=
  { d with vals := fun k => (d.vals k).map DegradedEntry.cleared }

/-- Overwrite the hold at index `i`. -/
def Counters.setHold (d : Counters) (i : Nat) (h : Hold) : Counters :=
  { d with holds := d.holds.set i h }

/-- `Hold.Release`, up to the lock: `once` admits one caller, which
stores the flag. A second caller changes nothing. -/
def releaseMark (d : Counters) (i : Nat) : Counters :=
  match d.holds[i]? with
  | none => d
  | some h =>
      if h.released then d else d.setHold i { h with released := true }

/-- `Hold.Release`, under the lock: subtract the reservation, unless a
reset of its scope already cleared it. -/
def releaseSettle (d : Counters) (i : Nat) : Counters :=
  match d.holds[i]? with
  | none => d
  | some h =>
      if h.released && !h.settled then
        let d' := d.setHold i { h with settled := true }
        match d'.vals h.key with
        | some e =>
            if e.gen = h.gen then
              d'.put h.key { e with held := e.held - h.nano }
            else d'
        | none => d'
      else d

-- ================================================================ the runs

/-- One atomic step of any goroutine on the counters. -/
inductive CounterOp
  | tryReserve (key : String) (nano share : Int)
  | add (key : String) (deltaNano : Int)
  | releaseMark (hold : Nat)
  | releaseSettle (hold : Nat)
  | reset (key : String)
  | resetAll
deriving DecidableEq, Repr

/-- The effect of one step. No step is ever disabled: an operation on a
hold that is not there, or not in the right phase, does nothing. -/
def CounterOp.apply (d : Counters) : CounterOp → Counters
  | .tryReserve key nano share => (Failmode.tryReserve d key nano share).1
  | .add key deltaNano => Failmode.add d key deltaNano
  | .releaseMark i => Failmode.releaseMark d i
  | .releaseSettle i => Failmode.releaseSettle d i
  | .reset key => Failmode.reset d key
  | .resetAll => Failmode.resetAll d

/-- The state after an interleaving, from fresh counters. -/
def afterOps (ops : List CounterOp) : Counters :=
  ops.foldl CounterOp.apply newDegradedCounters

-- ============================================================ field lemmas

@[simp] theorem put_vals (d : Counters) (k : String) (e : DegradedEntry) :
    (d.put k e).vals = Function.update d.vals k (some e) := rfl

@[simp] theorem put_holds (d : Counters) (k : String) (e : DegradedEntry) :
    (d.put k e).holds = d.holds := rfl

@[simp] theorem setHold_vals (d : Counters) (i : Nat) (h : Hold) :
    (d.setHold i h).vals = d.vals := rfl

@[simp] theorem setHold_holds (d : Counters) (i : Nat) (h : Hold) :
    (d.setHold i h).holds = d.holds.set i h := rfl

/-- A hold `TryReserve` returns is the last of the holds, reserved in
the generation of its entry, and the entry then stays within the
share. -/
theorem tryReserve_some {d d' : Counters} {key : String}
    {nano share : Int} {h : Hold}
    (hres : tryReserve d key nano share = (d', some h)) :
    0 < nano ∧ 0 < share
      ∧ (entryLocked d key).billed + (entryLocked d key).held + nano ≤ share
      ∧ h = { key := key, nano := nano, gen := (entryLocked d key).gen }
      ∧ d'.vals = Function.update d.vals key
          (some { entryLocked d key with
            held := (entryLocked d key).held + nano })
      ∧ d'.holds = d.holds ++ [h] := by
  unfold tryReserve at hres
  split at hres
  case isTrue => cases hres
  case isFalse hpos =>
    dsimp only at hres
    split at hres
    case isTrue => cases hres
    case isFalse hfit =>
      simp only [Prod.mk.injEq, Option.some.injEq] at hres
      obtain ⟨rfl, rfl⟩ := hres
      rw [not_or] at hpos
      exact ⟨by omega, by omega, by omega, rfl, rfl, rfl⟩

/-- A refused reservation hands out nothing and moves no amount: at
most it creates the scope's zero entry. -/
theorem tryReserve_none {d d' : Counters} {key : String}
    {nano share : Int}
    (hres : tryReserve d key nano share = (d', none)) :
    d' = d ∨ d' = d.put key (entryLocked d key) := by
  unfold tryReserve at hres
  split at hres
  case isTrue =>
    simp only [Prod.mk.injEq, and_true] at hres
    exact Or.inl hres.symm
  case isFalse =>
    dsimp only at hres
    split at hres
    case isTrue =>
      simp only [Prod.mk.injEq, and_true] at hres
      exact Or.inr hres.symm
    case isFalse => cases hres

end Elitea.Failmode
