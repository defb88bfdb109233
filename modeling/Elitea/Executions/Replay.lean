/-
The durable event stream a client reads, from `replay_events.go`.

A read is two statements, each with its own snapshot: the first finds how
far the log was pruned and how far it reaches (`seen`), the second reads
the rows. A client that fell behind the pruning is told so by a reset,
which stands for every event up to its cursor. Delivery stops at a node
event that is shown only with the agent result it belongs to.
-/
import Elitea.Executions.Outputs

namespace Elitea.Executions

def maxReplayBatch : Nat := 100

/-- What `Replay` returns: `execution.replay_reset`, or an event. -/
inductive DurableEvent where
  | reset (cursor : Nat)
  | event (e : ReplayEvent)
  deriving DecidableEq, Repr

def DurableEvent.cursor : DurableEvent → Nat
  | reset cursor => cursor
  | event e => e.cursor

/-- `pruned_through`. -/
def Tables.prunedThrough (t : Tables) : Nat :=
  match t.replay with
  | none => 0
  | some s => s.prunedThroughCursor

/-- `high_cursor`. -/
def Tables.highCursor (t : Tables) : Nat :=
  max (match t.replay with
    | none => 0
    | some s => (s.lastNode.map fun node => node.cursor).getD 0)
    (maxCursor t.events)

/-- The cursor is one the log still knows. -/
def Tables.recognizes (t : Tables) (cursor : Nat) : Bool :=
  cursor == 0 || cursor == t.prunedThrough
    || t.events.any fun e => e.cursor == cursor

/-- A projected agent result exists. -/
def Tables.agentResult (t : Tables) : Bool :=
  t.inbox.any fun row =>
    row.record.payloadType == .agentExecutionResult && row.projected

/-- The row is shown: it is no node event of a kind that waits for the
agent result, or that result is there. -/
def visible (t : Tables) (e : ReplayEvent) : Bool :=
  e.type != .nodeEvent || e.data.kind == .progress || t.agentResult

/-- Go through the rows up to the first one that is not shown. A row
outside the size bounds ends the stream. -/
def deliver (t : Tables) : List ReplayEvent → Except Failure (List DurableEvent)
  | [] => .ok []
  | e :: rest =>
      if e.cursor = 0 || !e.data.storable then .error .invalidEventStream
      else if !visible t e then .ok []
      else (deliver t rest).map fun events => .event e :: events

/-- The rows after a cursor, in cursor order. -/
def Tables.rowsAfter (t : Tables) (cursor limit : Nat) : List ReplayEvent :=
  (t.events.filter fun e => decide (cursor < e.cursor)).take limit

/-- `Replay`. -/
def replay (seen t : Tables) (after limit : Nat) :
    Except Failure (List DurableEvent) :=
  let pruned := seen.prunedThrough
  let high := seen.highCursor
  if limit = 0 ∨ maxReplayBatch < limit ∨ high < pruned then
    .error .invalidEventStream
  else if after < pruned then
    if limit = 1 ∨ pruned = high then .ok [.reset pruned]
    else (deliver t (t.rowsAfter pruned (limit - 1))).map
      fun events => .reset pruned :: events
  else if high < after || !seen.recognizes after then
    .error .invalidEventStream
  else if after = high then .ok []
  else deliver t (t.rowsAfter after limit)

-- ================================================================ the client

/-- A client of the stream: where it started, the last cursor it
received, and everything it received, in order. -/
structure Client where
  start : Nat
  cursor : Nat
  delivered : List DurableEvent
  deriving DecidableEq, Repr

/-- The last cursor of an answer, or the one asked from. -/
def lastCursor (after : Nat) (events : List DurableEvent) : Nat :=
  (events.getLast?.map DurableEvent.cursor).getD after

/-- The client takes an answer. -/
def Client.receive (c : Client) (events : List DurableEvent) : Client :=
  { c with
    cursor := lastCursor c.cursor events
    delivered := c.delivered ++ events }

end Elitea.Executions
