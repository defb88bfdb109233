/-
Fan-out joins: how child terminals become a node's output (libs/rust/
agent-runtime/src/graph/fanout/plan.rs).

# What is modelled

`join` builds one entry for each settled child in declared order, under
the bounds on a child's result and on the whole; `errorEntry` writes what
is shown of a failed child. `land` turns the entries into the update of
the output key, given the key's value and its declared reducer.

# What is left to a parameter

The support reference of a child is the front of a SHA-256 digest. The
digest function is a parameter; the bytes it is given are the source's.
-/
import Elitea.Graph.Reducers

namespace Elitea.Graph

open Lib

def maxChildResultBytes : Nat := 512 * 1024
def maxJoinErrorEntryBytes : Nat := 512

/-- Which planner owns the activation. -/
inductive FanoutKind
  | parallel
  | map
deriving DecidableEq, Repr

/-- The join entry field that names the child. -/
def FanoutKind.keyField : FanoutKind → List Char
  | .parallel => "branch_id".toList
  | .map => "index".toList

/-- The node's On Error setting. -/
inductive OnError
  | continue
  | stop
deriving DecidableEq, Repr

/-- How the joined collection lands on the output key. -/
inductive JoinMode
  | append
  | keyed
  | merge
deriving DecidableEq, Repr

inductive FanoutPlanError
  | reducerMismatch
  | mergeNeedsStop
  | joinConflict
  | joinTypeMismatch
  | childResultTooLarge
  | joinedResultTooLarge
  | tooManyChildren
  | invalidChild
deriving DecidableEq, Repr

/-- The reducers a join mode can land through. -/
def JoinMode.allows : JoinMode → Option StateReducer → Bool
  | .append, none => true
  | .append, some .append => true
  | .keyed, none => true
  | .keyed, some .merge => true
  | .merge, none => true
  | .merge, some .merge => true
  | _, _ => false

/-- `JoinMode::check`, made when the graph is saved. -/
def JoinMode.check (mode : JoinMode) (onError : OnError)
    (reducer : Option StateReducer) : Except FanoutPlanError Unit :=
  if !mode.allows reducer then .error .reducerMismatch
  -- a merged object has no place for a failed child's entry
  else if mode = .merge ∧ onError = .continue then .error .mergeNeedsStop
  else .ok ()

-- ============================================================= the children

/-- A typed child failure. -/
structure ChildFailure where
  code : List Char
  messageSafe : List Char
  supportRef : Option (List Char)
deriving DecidableEq, Repr

/-- A child's terminal outcome. -/
inductive ChildTerminal
  | succeeded (outputs : List (List Char × Value))
  | failed (failure : ChildFailure)

/-- One settled child in declared order. -/
structure SettledChild where
  key : List Char
  node : List Char
  terminal : ChildTerminal

def fallbackCode : List Char := "graph.fanout.child_failed".toList

def fallbackMessage : List Char := "The step failed.".toList

def maxMessageSafe : Nat := 370

/-- A byte in lower-case hexadecimal. -/
def hexByte (b : UInt8) : List Char :=
  [Value.hexChar (b.toNat / 16), Value.hexChar (b.toNat % 16)]

/-- `u32::to_be_bytes` of a length. -/
def be32 (n : Nat) : List UInt8 :=
  let n := min n (2 ^ 32 - 1)
  [(n / 2 ^ 24).toUInt8, (n / 2 ^ 16).toUInt8, (n / 2 ^ 8).toUInt8,
    n.toUInt8]

/-- A SHA-256 function. -/
structure Digest where
  hash : List UInt8 → List UInt8
  length_hash : ∀ bytes, (hash bytes).length = 32

/-- The support reference of a member: the first 128 bits, in hex. -/
def supportRefFor (sha : Digest) (childThread : List Char) : List Char :=
  let bytes := utf8Bytes childThread
  let preimage := utf8Bytes "elitea.graph.fanout-support-ref.v1\x00".toList
    ++ be32 bytes.length ++ bytes
  ((sha.hash preimage).take 16).flatMap hexByte

/-- `split('.')`. -/
def splitDots : List Char → List (List Char)
  | [] => [[]]
  | c :: rest =>
      if c = '.' then [] :: splitDots rest
      else
        match splitDots rest with
        | [] => [[c]]
        | part :: parts => (c :: part) :: parts

def isLower (c : Char) : Bool := 'a' ≤ c && c ≤ 'z'

/-- A character of a part of a code. -/
def codeChar (c : Char) : Bool := isLower c || c.isDigit || c == '_'

/-- The code is one of the contract grammar. -/
def validCode (code : List Char) : Bool :=
  3 ≤ Value.textSize code && Value.textSize code ≤ 64
    && (match splitDots code with
      | [] => false
      | first :: later =>
          (first.head?.any isLower) && first.all codeChar
            && code.contains '.'
            && later.all fun part => !part.isEmpty && part.all codeChar)

/-- A character of a safe message: printable ASCII but quote and
backslash. -/
def messageChar (c : Char) : Bool :=
  ' ' ≤ c && c ≤ '~' && c != '"' && c != '\\'

/-- The message reduced to the safe charset and bound. Of the characters
kept, only the space is white space. -/
def safeMessage (message : List Char) : List Char :=
  let kept := (message.filter messageChar).take maxMessageSafe
  if kept.all (· == ' ') then fallbackMessage else kept

/-- A character of a support reference. -/
def refChar (c : Char) : Bool := c.isDigit || ('a' ≤ c && c ≤ 'f')

def validSupportRef (reference : List Char) : Bool :=
  Value.textSize reference == 32 && reference.all refChar

/-- The code that is shown: the failure's if it fits the grammar. -/
def shownCode (failure : ChildFailure) : List Char :=
  if validCode failure.code then failure.code else fallbackCode

/-- The support reference that is shown. -/
def shownRef (sha : Digest) (key : Value) (node : List Char)
    (failure : ChildFailure) : List Char :=
  (failure.supportRef.filter validSupportRef).getD
    (supportRefFor sha (node ++ '\x00' :: key.text))

/-- The error object of a failed child. -/
def errorObject (sha : Digest) (key : Value) (node : List Char)
    (failure : ChildFailure) : Value :=
  .object [
    ("code".toList, .string (shownCode failure)),
    ("message_safe".toList, .string (safeMessage failure.messageSafe)),
    ("support_ref".toList, .string (shownRef sha key node failure))]

def statusField : List Char := "status".toList

def errorEntry (sha : Digest) (kind : FanoutKind) (key : Value)
    (node : List Char) (failure : ChildFailure) : Value :=
  .object [
    (kind.keyField, key),
    ("node".toList, .string node),
    (statusField, .string "failed".toList),
    ("error".toList, errorObject sha key node failure)]

-- ================================================================ the join

/-- `str::parse::<u64>`. -/
def parseU64 (t : List Char) : Option Nat :=
  let digits := match t with
    | '+' :: rest => rest
    | _ => t
  if digits.isEmpty || !isDigits digits then none
  else
    let n := Digits.value digits
    if n < 2 ^ 64 then some n else none

/-- The entry's name of its child. -/
def keyValue (kind : FanoutKind) (key : List Char) :
    Except FanoutPlanError Value :=
  match kind with
  | .parallel => .ok (.string key)
  | .map =>
      match (parseU64 key).filter fun n => key == Nat.toDigits 10 n with
      | some n => .ok (.number (Nat.toDigits 10 n))
      | none => .error .invalidChild

def outputsField : List Char := "outputs".toList

def succeeded : List Char := "succeeded".toList

def entry (sha : Digest) (kind : FanoutKind) (child : SettledChild) :
    Except FanoutPlanError Value := do
  let key ← keyValue kind child.key
  match child.terminal with
  | .succeeded outputs =>
      if (Value.object outputs).size > maxChildResultBytes then
        .error .childResultTooLarge
      else
        .ok (.object [
          (kind.keyField, key),
          ("node".toList, .string child.node),
          (statusField, .string succeeded),
          (outputsField, .object outputs)])
  | .failed failure => .ok (errorEntry sha kind key child.node failure)

/-- `Value::get` of a field. -/
def field (name : List Char) : Value → Option Value
  | .object fields => fields.lookup name
  | _ => none

def entryKey (kind : FanoutKind) (e : Value) :
    Except FanoutPlanError (List Char) :=
  match field kind.keyField e with
  | some (.string key) => .ok key
  | some (.number index) => .ok index
  | _ => .error .invalidChild

end Elitea.Graph
