/-
Compacting a transcript (libs/rust/agent-runtime/src/
context_management.rs, `EliteaContextCompaction`).

# Messages

`Part`, `Content` and `Event` are adk's, as far as this crate reads them.
A part that is neither text nor a call nor a result is kept as its JSON.

# The strategy

System events are pinned to the front, the last `preserve_recent_messages`
of the others are never touched, and of the rest the longest tail that
still fits the budget is kept; what is in front of it is replaced by one
summary. The token estimate of adk and the summarizer are parameters: any
function, and any answer. `usize` sums saturate.
-/
import Elitea.Lib.JsonValue
import Elitea.Lib.Lines

namespace Elitea.Context

open Lib
open Lib.Lines (trim)

abbrev Text := List Char

-- ================================================================= messages

/-- `FunctionResponseData`. -/
structure FunctionResponse where
  name : Text
  response : Value
  inlineData : List Value := []
  fileData : List Value := []

inductive Part
  | text (text : Text)
  | thinking (thinking : Text) (signature : Option Text)
  | functionCall (name : Text) (args : Value) (id : Option Text)
  | functionResponse (result : FunctionResponse) (id : Option Text)
  | other (json : Value)

structure Content where
  role : Text
  parts : List Part

structure Event where
  author : Text
  content : Option Content
  /-- `actions.compaction`'s `compacted_content` -/
  compaction : Option Content := none
  timestamp : Nat := 0

def Event.parts (e : Event) : List Part := (e.content.map (·.parts)).getD []

/-- `is_system_event`. -/
def isSystemEvent (e : Event) : Bool :=
  e.author = "system".toList
    || e.content.any fun content => content.role = "system".toList

def Part.isResponse : Part → Bool
  | .functionResponse _ _ => true
  | _ => false

/-- A call or a result. -/
def Part.isTool : Part → Bool
  | .functionCall _ _ _ => true
  | .functionResponse _ _ => true
  | _ => false

/-- `is_tool_related_event`. -/
def isToolRelatedEvent (e : Event) : Bool :=
  e.content.any fun content => content.parts.any Part.isTool

-- ==================================================================== texts

def summaryPrefix : Text :=
  "Here is a summary of the conversation to date:".toList

/-- `summary_event`, stamped like the first event it replaces. -/
def summaryEvent (text : Text) (timestamp : Nat) : Event where
  author := "user".toList
  content := some ⟨"user".toList,
    [.text (summaryPrefix ++ '\n' :: '\n' :: trim text)]⟩
  timestamp := timestamp

/-- `compacted_text`. -/
def compactedText (summary : Event) : Option Text :=
  (summary.compaction.or summary.content).bind fun content =>
    let text := ['\n'].intercalate (content.parts.filterMap fun
      | .text t => some t
      | _ => none)
    if (trim text).isEmpty then none else some text

-- ============================================================== the strategy

def usizeMax : Nat := 2 ^ 64 - 1

/-- `usize::saturating_add`. -/
def saturatingAdd (a b : Nat) : Nat := min (a + b) usizeMax

/-- `EliteaContextCompaction`, with adk's estimate. -/
structure Strategy where
  preserveRecentMessages : Nat
  preserveSystemMessages : Bool
  estimateEventTokens : List Event → Nat

namespace Strategy

variable (s : Strategy)

/-- `partition_system`: the pinned events and the working set. -/
def system (events : List Event) : List Event :=
  if s.preserveSystemMessages then events.filter isSystemEvent else []

def working (events : List Event) : List Event :=
  if s.preserveSystemMessages then events.filter fun e => !isSystemEvent e
  else events

/-- The loop of `cutoff_index`, from the newest event back. -/
def fitting (remaining : Nat) : Nat → List Event → Nat
  | _, [] => 0
  | spent, e :: older =>
      let spent' := saturatingAdd spent (s.estimateEventTokens [e])
      if spent' > remaining then 0 else fitting remaining spent' older + 1

/-- `cutoff_index`. -/
def cutoffIndex (head : List Event) (budget pinnedTokens : Nat) : Nat :=
  head.length - s.fitting (budget - pinnedTokens) 0 head.reverse

/-- Where the untouchable tail of the working set begins. -/
def tailStart (events : List Event) : Nat :=
  (s.working events).length - s.preserveRecentMessages

/-- How many events of the working set are to be summarized. -/
def cutoff (events : List Event) (budget : Nat) : Nat :=
  s.cutoffIndex ((s.working events).take (s.tailStart events)) budget
    (saturatingAdd (s.estimateEventTokens (s.system events))
      (s.estimateEventTokens ((s.working events).drop (s.tailStart events))))

/-- `rejoin`. -/
def rejoin (system middle tail : List Event) : List Event :=
  system ++ middle ++ tail

/-- The transcript once the head has been summarized, or not. -/
def rolledUp (events : List Event) (cutoff : Nat) (summary : Option Event) :
    List Event :=
  let head := (s.working events).take (s.tailStart events)
  let tail := (s.working events).drop (s.tailStart events)
  match summary.bind compactedText with
  | none => rejoin (s.system events) (head.take cutoff ++ head.drop cutoff) tail
  | some text =>
      rejoin (s.system events)
        (summaryEvent text (((head.take cutoff).head?.map (·.timestamp)).getD 0)
          :: head.drop cutoff) tail

/-- `compact`. -/
def compact {ε : Type} (summarize : List Event → Except ε (Option Event))
    (events : List Event) (budget : Nat) : Except ε (List Event) :=
  if events.getLast?.any isToolRelatedEvent then .ok events
  else if (s.working events).length ≤ s.preserveRecentMessages then
    .ok (rejoin (s.system events) [] (s.working events))
  else if s.cutoff events budget = 0 then
    .ok (rejoin (s.system events)
      ((s.working events).take (s.tailStart events))
      ((s.working events).drop (s.tailStart events)))
  else
    (summarize (((s.working events).take (s.tailStart events)).take
      (s.cutoff events budget))).map (s.rolledUp events (s.cutoff events budget))

end Strategy

end Elitea.Context
