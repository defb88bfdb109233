/-
Typed, bounded reducers of pipeline state channels (libs/rust/
agent-runtime/src/graph/state_reducers.rs).

# What is modelled

The three reducers with their bounds, the guard's verdict on an update,
the channel closure that repeats the reduction, and `ReducerGuard`, which
checks a node's output against the state the node read.

# Super-steps

The graph engine is not this repository's. It is a parameter (`Engine`):
any function from the channels and the outputs of a super-step's nodes to
the next channels that calls a typed channel's closure as the fields say.
A closure that refuses an update keeps the value and logs the channel.
-/
import Elitea.Graph.ExactNumber
import Elitea.Lib.JsonValue

namespace Elitea.Graph

open Lib

-- ================================================================ reducers

/-- Most elements an `append` channel holds. -/
def maxAppendElements : Nat := 10000

/-- Most top-level keys a `merge` channel holds. -/
def maxMergeKeys : Nat := 1000

/-- Most serialized bytes an `append` or `merge` channel holds. -/
def maxReducedBytes : Nat := 512 * 1024

/-- A reducer other than overwriting. -/
inductive StateReducer
  | append
  | sumInt
  | merge
deriving DecidableEq, Repr

/-- Why a typed update was refused. -/
inductive ReducerFailure
  | typeMismatch
  | limit
  | overflow
deriving DecidableEq, Repr

def ReducerFailure.code : ReducerFailure → String
  | .typeMismatch => "graph.state.reducer_type_mismatch"
  | .limit => "graph.state.reducer_limit"
  | .overflow => "graph.state.reducer_overflow"

/-- The number's exact `i64`. -/
def integer (number : List Char) : Except ReducerFailure Int :=
  match exactI64 number with
  | .ok n => .ok n
  | .error .overflow => .error .overflow
  | .error _ => .error .typeMismatch

/-- One write of the counting writer. -/
def cappedWrite (remaining bytes : Nat) : Option Nat :=
  if bytes ≤ remaining then some (remaining - bytes) else none

/-- The serialized length, or nothing once it passes `cap` bytes. How the
text is cut into writes does not matter; here each character is one. -/
def jsonLenWithin (value : Value) (cap : Nat) : Option Nat :=
  ((value.text.map Char.utf8Size).foldlM cappedWrite cap).map (cap - ·)

/-- A value within the byte bound. -/
def withinBytes (value : Value) : Except ReducerFailure Unit :=
  match jsonLenWithin value maxReducedBytes with
  | some _ => .ok ()
  | none => .error .limit

/-- Whether this reducer's channel may hold a value. -/
def StateReducer.checkHeld (r : StateReducer) (value : Value) :
    Except ReducerFailure Unit :=
  match r, value with
  | .append, .array items =>
      if items.length > maxAppendElements then .error .limit
      else withinBytes value
  | .merge, .object fields =>
      if fields.length > maxMergeKeys then .error .limit
      else withinBytes value
  | .sumInt, .number number => (integer number).map fun _ => ()
  | _, _ => .error .typeMismatch

/-- `Value::from` an `i64`. -/
def fromI64 (n : Int) : Value := .number (toString n).toList

/-- The value `current` becomes after `update`, or why it is refused. -/
def StateReducer.reduceChecked (r : StateReducer)
    (current update : Value) : Except ReducerFailure Value :=
  match r, current, update with
  | .append, .array held, .array added =>
      if held.length + added.length > maxAppendElements then .error .limit
      else do
        StateReducer.append.checkHeld (.array (held ++ added))
        return .array (held ++ added)
  | .sumInt, .number held, .number added => do
      let a ← integer held
      let b ← integer added
      if InI64 (a + b) then .ok (fromI64 (a + b)) else .error .overflow
  | .merge, .object held, .object added => do
      let reduced := Value.object (Members.extend held added)
      StateReducer.merge.checkHeld reduced
      return reduced
  | _, _, _ => .error .typeMismatch

/-- The guard's verdict on an `append` update, by element counts and
sizes only. -/
def checkAppend (held added : List Value) : Except ReducerFailure Unit :=
  if held.length + added.length > maxAppendElements then .error .limit
  else
    match jsonLenWithin (.array held) maxReducedBytes,
        jsonLenWithin (.array added) maxReducedBytes with
    | some heldBytes, some addedBytes =>
        -- one comma replaces two brackets
        let total :=
          if held.isEmpty then addedBytes
          else if added.isEmpty then heldBytes
          else heldBytes + addedBytes - 1
        if total > maxReducedBytes then .error .limit else .ok ()
    | _, _ => .error .limit

def StateReducer.checkUpdate (r : StateReducer) (current update : Value) :
    Except ReducerFailure Unit :=
  match r, current, update with
  | .append, .array held, .array added => checkAppend held added
  | r, current, update => (r.reduceChecked current update).map fun _ => ()

/-- `channel_reducer`: the closure of a channel, and the failure it logs if
it keeps the value. -/
def StateReducer.channelReducer (r : StateReducer) (current update : Value) :
    Value × Option ReducerFailure :=
  match r.reduceChecked current update with
  | .ok reduced => (reduced, none)
  | .error failure => (current, some failure)

-- =============================================================== the guard

/-- What a node returns: its updates, and whether it was interrupted. -/
structure NodeOutput where
  updates : List (List Char × Value)
  interrupt : Bool
  distinct : (Members.keys updates).Nodup

/-- The declared reducers, by channel. -/
structure Reducers where
  declared : List (List Char × StateReducer)
  distinct : (Members.keys declared).Nodup

/-- A failed node. -/
structure GraphError where
  node : List Char
  message : List Char
deriving DecidableEq, Repr

abbrev Channels := List Char → Option Value

/-- The value a channel is reduced from. -/
def Channels.current (state : Channels) (channel : List Char) : Value :=
  (state channel).getD .null

/-- The loop of `ReducerGuard.execute` over the declared channels. -/
def guardLoop (node : List Char) (state : Channels)
    (updates : List (List Char × Value)) :
    List (List Char × StateReducer) → Except GraphError Unit
  | [] => .ok ()
  | (channel, reducer) :: rest =>
      match updates.lookup channel with
      | none => guardLoop node state updates rest
      | some update =>
          match reducer.checkUpdate (state.current channel) update with
          | .ok () => guardLoop node state updates rest
          | .error failure =>
              .error ⟨node, failure.code.toList ++ ": ".toList ++ channel⟩

/-- `ReducerGuard.execute` on what its inner node returned. -/
def Reducers.execute (reducers : Reducers) (node : List Char)
    (state : Channels) (inner : Except GraphError NodeOutput) :
    Except GraphError NodeOutput := do
  let output ← inner
  if output.interrupt then return output
  guardLoop node state output.updates reducers.declared
  return output

-- ============================================================= super-steps

/-- The nodes that write a channel: an interrupted node writes nothing. -/
def writers (channel : List Char) (outputs : List NodeOutput) :
    List NodeOutput :=
  outputs.filter fun o =>
    !o.interrupt && decide (channel ∈ Members.keys o.updates)

/-- What is assumed of the graph engine. A super-step returns the channels
after it, and those whose closure kept its value. -/
structure Engine (reducers : Reducers) where
  superStep : Channels → List NodeOutput → Channels × List (List Char)
  /-- A typed channel that no node writes is left alone. -/
  unwritten : ∀ g outputs channel r,
    reducers.declared.lookup channel = some r →
    writers channel outputs = [] →
      (superStep g outputs).1 channel = g channel
        ∧ channel ∉ (superStep g outputs).2
  /-- A typed channel that one node writes is reduced by its closure, from
  the value before the super-step. -/
  reduced : ∀ g outputs channel r o update,
    reducers.declared.lookup channel = some r →
    writers channel outputs = [o] →
    o.updates.lookup channel = some update →
      (superStep g outputs).1 channel
          = some (r.channelReducer (g.current channel) update).1
        ∧ (channel ∈ (superStep g outputs).2
          ↔ (r.channelReducer (g.current channel) update).2 ≠ none)
  /-- Only a closure logs. -/
  typed : ∀ g outputs, ∀ channel ∈ (superStep g outputs).2,
    ∃ r, reducers.declared.lookup channel = some r

structure GraphState where
  channels : Channels
  /-- Channels whose closure kept the old value, in order. -/
  logged : List (List Char)

/-- A super-step as a step of a run. -/
def Engine.step {reducers : Reducers} (e : Engine reducers) (g : GraphState)
    (outputs : List NodeOutput) : Option GraphState :=
  let out := e.superStep g.channels outputs
  some ⟨out.1, g.logged ++ out.2⟩

end Elitea.Graph
