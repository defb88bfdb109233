/-
Shrinking older tool results in a request (libs/rust/agent-runtime/src/
context.rs, `ToolResultElision`; `history_digest` of
context_management.rs).

JSON is written as `serde_json` writes it (`Value.text`), and a length is
in bytes of UTF-8. A tool declaration and the generation config are their
JSON. A result is found by its place: the content and the part in it. The
loop of `apply` goes over the places of the older results and replaces the
body of each by a note, unless it is a note already or no longer than one.
Sums of sizes are taken to fit a `usize`.
-/
import Elitea.Context.Compaction
import Mathlib.Algebra.GroupWithZero.Nat

namespace Elitea.Context

open Lib
open Lib.Value (textSize)

structure LlmRequest where
  contents : List Content
  tools : List (Text × Value)
  config : Option Value

/-- `ToolResultElision`. -/
structure Elision where
  thresholdTokens : Nat
  keepRecent : Nat
  fixedTokens : Nat

-- ==================================================================== sizes

def partBytes : Part → Nat
  | .text text => textSize text
  | .thinking text _ => textSize text
  | .functionCall name args _ => textSize name + args.size
  | .functionResponse result _ => textSize result.name + result.response.size
  | .other json => json.size

/-- `content_bytes`. -/
def contentBytes (content : Content) : Nat := (content.parts.map partBytes).sum

/-- `estimate_tokens`: four bytes a token, rounded up. -/
def estimateTokens (bytes : Nat) : Nat := (bytes + 3) / 4

/-- `request_tokens`. -/
def Elision.requestTokens (e : Elision) (request : LlmRequest) : Nat :=
  saturatingAdd (estimateTokens
    ((request.contents.map contentBytes).sum
      + (request.tools.map fun tool => textSize tool.1 + tool.2.size).sum
      + (request.config.map Value.size).getD 0)) e.fixedTokens

-- ================================================================= the note

/-- The longest front of at most so many bytes. -/
def floorBytes : Nat → Text → Text
  | _, [] => []
  | room, c :: t =>
      if c.utf8Size ≤ room then c :: floorBytes (room - c.utf8Size) t else []

def maxArgsSummary : Nat := 160

/-- `args_summary`. -/
def argsSummary (args : Value) : Text :=
  if args.size ≤ maxArgsSummary then args.text
  else floorBytes maxArgsSummary args.text ++ ['…']

/-- The arguments of a part that is the call of a result. -/
def Part.argsFor (id : Option Text) (name : Text) : Part → Option Value
  | .functionCall called args callId =>
      let same := match id, callId with
        | some want, some got => decide (want = got)
        | _, _ => decide (called = name)
      if same then some args else none
  | _ => none

/-- `call_args`: the latest call before a content. -/
def callArgs (contents : List Content) (before : Nat) (id : Option Text)
    (name : Text) : Option Value :=
  (contents.take before).reverse.findSome? fun content =>
    content.parts.reverse.findSome? (Part.argsFor id name)

/-- `Value::get` with a key. -/
def member (v : Value) (key : String) : Option Value :=
  match v with
  | .object fields => fields.lookup key.toList
  | _ => none

/-- `Value::as_str`. -/
def asStr : Value → Option Text
  | .string t => some t
  | _ => none

/-- What to do to see the result again. -/
def spilled (response : Value) : Text :=
  match (member response "output_id").bind asStr with
  | none => "re-run it if you need it again".toList
  | some id =>
      "page it with read_output \x7b\"output_id\": \"".toList ++ id
        ++ ("\"\x7d while it is kept, or re-run it (output_expired: it is "
          ++ "gone)").toList

def note (contents : List Content) (place : Nat) (result : FunctionResponse)
    (id : Option Text) : Text :=
  "[result elided after use: ".toList ++ result.name
    ++ ((callArgs contents place id result.name).map
      fun args => ' ' :: argsSummary args).getD []
    ++ "; ".toList ++ spilled result.response ++ [']']

/-- The note that takes the place of a part's body, if one does. -/
def note? (contents : List Content) (place : Nat) : Part → Option Text
  | .functionResponse result id =>
      if (member result.response "elided").isSome then none
      else if result.response.size
          ≤ textSize (note contents place result id) + 16 then none
      else some (note contents place result id)
  | _ => none

/-- A result with a note for its body. -/
def noted (note : Text) (result : FunctionResponse) : FunctionResponse :=
  { result with
    response := .object [("elided".toList, .string note)]
    inlineData := []
    fileData := [] }

def Part.withNote (note : Text) : Part → Part
  | .functionResponse result id => .functionResponse (noted note result) id
  | p => p

-- ================================================================= the loop

/-- The places of all results, oldest first. -/
def results (contents : List Content) : List (Nat × Nat) :=
  contents.zipIdx.flatMap fun c =>
    (c.1.parts.zipIdx.filter (·.1.isResponse)).map fun p => (c.2, p.2)

def partAt (contents : List Content) (place : Nat × Nat) : Option Part :=
  contents[place.1]?.bind (·.parts[place.2]?)

/-- A part at a place, changed. -/
def modifyPart (contents : List Content) (place : Nat × Nat)
    (f : Part → Part) : List Content :=
  contents.modify place.1 fun content =>
    { content with parts := content.parts.modify place.2 f }

/-- One round: the contents and the number elided so far. -/
def elideAt (st : List Content × Nat) (place : Nat × Nat) :
    List Content × Nat :=
  match (partAt st.1 place).bind (note? st.1 place.1) with
  | none => st
  | some note => (modifyPart st.1 place (Part.withNote note), st.2 + 1)

/-- The results that are not among the newest `keep_recent`. -/
def Elision.older (e : Elision) (contents : List Content) :
    List (Nat × Nat) :=
  (results contents).take ((results contents).length - e.keepRecent)

/-- `apply`: the request and the number of results elided. -/
def Elision.apply (e : Elision) (request : LlmRequest) : LlmRequest × Nat :=
  if e.requestTokens request ≤ e.thresholdTokens then (request, 0)
  else
    let out := (e.older request.contents).foldl elideAt (request.contents, 0)
    ({ request with contents := out.1 }, out.2)

-- =============================================================== the digest

end Elitea.Context
