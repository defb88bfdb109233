/-
The holds of one request (`internal/failmode/holds.go`): a set of
degraded-mode reservations, kept alive by pins, released when the last
pin drops.

# What is modelled

One `Holds` value and the goroutines that call it. Under the mutex a
call is one step; what a call does after it unlocks is separate steps.
Two calls do something there: `unpin` releases the list it took, hold
by hold, and a late `Add` releases its own hold. Each such goroutine is
an entry of `releasing`, the holds it has still to release, and
`releaseNext` is the next iteration of one of these loops. Between any
two steps of one goroutine any other may run.

The three `sync.Once` guards are three flags: `endOnce` of the set, one
per function that `Pin` returned, and one per hold (`Hold.Release`). A
second caller of a guarded function does nothing.

`added`, `calls`, `bodies` and `zeros` are observations of the run and
are never read by a step: the holds given to `Add`, the `Release` calls
made, the `Release` bodies that ran (past `once`), and how often the
pin count was brought to zero.
-/
import Mathlib.Data.List.Basic
import Mathlib.Data.List.Perm.Basic

namespace Elitea.Failmode

/-- A `*Hold`: which reservation it points to. -/
abbrev HoldRef := Nat

-- ============================================================== the set

/-- `Holds`: the recorded holds and the pins that keep them. -/
structure Holds where
  list : List HoldRef
  pins : Int
  closed : Bool
  endOnce : Bool
deriving DecidableEq, Repr

/-- `NewHolds`: empty, with the request's own pin. -/
def newHolds : Holds :=
  { list := [], pins := 1, closed := false, endOnce := false }

/-- The locked part of `Add` for a hold that is not nil: recorded while
the set is open. -/
def addLocked (s : Holds) (h : HoldRef) : Holds :=
  if s.closed then s else { s with list := s.list ++ [h] }

/-- The function `Pin` returned: a no-op on a closed set, else guarded
by its own `once`. -/
inductive UnpinFn
  | noop
  | guarded (fired : Bool)
deriving DecidableEq, Repr

/-- `Pin`: one more pin while the set is open. -/
def pinLocked (s : Holds) : Holds × UnpinFn :=
  if s.closed then (s, .noop)
  else ({ s with pins := s.pins + 1 }, .guarded false)

/-- The locked part of `unpin`: the set after it, and the holds its
caller has to release. The last pin closes the set and takes the
list. -/
def unpinLocked (s : Holds) : Holds × List HoldRef :=
  let pins := s.pins - 1
  if pins > 0 ∨ s.closed = true then ({ s with pins := pins }, [])
  else ({ s with pins := pins, closed := true, list := [] }, s.list)

-- ============================================================ the callers

/-- The set with everything its callers hold: the functions `Pin`
returned (in the order of the calls), the release loops under way, the
holds' own `once` flags, and the observations. -/
structure HoldsRun where
  set : Holds
  unpins : List UnpinFn
  releasing : List (List HoldRef)
  once : HoldRef → Bool
  added : List HoldRef
  calls : List HoldRef
  bodies : List HoldRef
  zeros : Nat

/-- A request that has just created its set. -/
def HoldsRun.start : HoldsRun where
  set := newHolds
  unpins := []
  releasing := []
  once := fun _ => false
  added := []
  calls := []
  bodies := []
  zeros := 0

/-- Run `unpin` (behind a guard that let it through): the locked part,
then a release loop of its own. -/
def HoldsRun.unpin (r : HoldsRun) : HoldsRun :=
  let (s, batch) := unpinLocked r.set
  { r with
    set := s
    releasing := r.releasing ++ [batch]
    zeros := if s.pins = 0 then r.zeros + 1 else r.zeros }

/-- `Holds.Add`. A nil hold is released, which does nothing. -/
def HoldsRun.add (r : HoldsRun) : Option HoldRef → HoldsRun
  | none => r
  | some h =>
      { r with
        set := addLocked r.set h
        releasing := if r.set.closed then r.releasing ++ [[h]]
          else r.releasing
        added := r.added ++ [h] }

/-- `Holds.Pin`. -/
def HoldsRun.pin (r : HoldsRun) : HoldsRun :=
  let (s, f) := pinLocked r.set
  { r with set := s, unpins := r.unpins ++ [f] }

/-- A call of the `i`-th function that `Pin` returned. -/
def HoldsRun.callUnpin (r : HoldsRun) (i : Nat) : HoldsRun :=
  match r.unpins[i]? with
  | some (.guarded false) =>
      { r with unpins := r.unpins.set i (.guarded true) }.unpin
  | _ => r

/-- `Holds.End`. -/
def HoldsRun.finish (r : HoldsRun) : HoldsRun :=
  if r.set.endOnce then r
  else { r with set := { r.set with endOnce := true } }.unpin

/-- The next iteration of the `j`-th release loop: one call of
`Hold.Release`, whose body runs behind the hold's `once`. -/
def HoldsRun.releaseNext (r : HoldsRun) (j : Nat) : HoldsRun :=
  match r.releasing[j]? with
  | some (h :: rest) =>
      { r with
        releasing := r.releasing.set j rest
        once := fun x => if x = h then true else r.once x
        calls := r.calls ++ [h]
        bodies := if r.once h then r.bodies else r.bodies ++ [h] }
  | _ => r

/-- One step of any goroutine. -/
inductive HoldsOp
  | add (h : Option HoldRef)
  | pin
  | unpin (i : Nat)
  | finish
  | releaseNext (j : Nat)
deriving DecidableEq, Repr

/-- The effect of one step; a step that does not apply does nothing. -/
def HoldsOp.apply (r : HoldsRun) : HoldsOp → HoldsRun
  | .add h => r.add h
  | .pin => r.pin
  | .unpin i => r.callUnpin i
  | .finish => r.finish
  | .releaseNext j => r.releaseNext j

/-- The state after an interleaving on a fresh set. -/
def afterHoldsOps (ops : List HoldsOp) : HoldsRun :=
  ops.foldl HoldsOp.apply HoldsRun.start

-- ========================================================= who still pins

/-- The request's own pin and the pins taken while the set was open
that are not dropped yet. -/
def HoldsRun.outstandingPins (r : HoldsRun) : Nat :=
  (if r.set.endOnce then 0 else 1) + r.unpins.count (.guarded false)

/-- The holds that some goroutine has still to release. -/
def HoldsRun.pending (r : HoldsRun) : List HoldRef := r.releasing.flatten

end Elitea.Failmode
