/-
The output stage on tool-call arguments (services/elitea-llm-gateway/
internal/llmproxy/guardrail_toolargs.go).

# What is modelled

Function arguments are a JSON document. `jsonStringValues` lists its string
values, found by local lookahead over the bytes: a quote outside a string
opens one, it is closed by the next quote no backslash stands before, and
it is a key if a colon follows. `replaceJSONValues` writes the changed
values back. `checkTargets` runs the detectors once over every text and
every string value and writes the masked values back.

# Left out

The pipeline behind `CheckAll` is a parameter: a refusal, or the masked
parts. Two targets are two texts, never one text twice.
-/
import Elitea.Guardrail.Mask
import Elitea.Lib.JsonReads

namespace Elitea.Guardrail

open Lib
open Lib.JsonText

-- =========================================================== string values

/-- One string value of a JSON document: its byte range in the document
and its decoded value. -/
structure JsonLit where
  start : Nat
  stop : Nat
  value : Text
deriving DecidableEq, Repr

/-- How far the closing quote is from the front. -/
def stringEnd : Text → Nat
  | [] => 0
  | [b] =>
      if b = quote then 0
      else if b = backslash then 2
      else 1
  | b :: c :: more =>
      if b = quote then 0
      else if b = backslash then stringEnd more + 2
      else stringEnd (c :: more) + 1

/-- How far the outer loop goes from here: past a string, or past a
byte. -/
def nextStop (s : Text) : Nat :=
  match s with
  | [] => 1
  | b :: rest => if b = quote then stringEnd rest + 2 else 1

/-- `json.Unmarshal` of a text that begins with a quote into a string. -/
def unmarshalString (lit : Text) : Option Text :=
  match tokens lit with
  | some [.string _ _ body] => unquote body
  | _ => none

/-- The string values at the stops of the outer loop. -/
def readLits : List (Nat × Text) → Option (List JsonLit)
  | [] => some []
  | (_, []) :: stops => readLits stops
  | (i, b :: rest) :: stops =>
      if b ≠ quote then readLits stops
      else
        let j := stringEnd rest
        if colonNext (rest.drop (j + 1)) then readLits stops
        else do
          let value ← unmarshalString ((b :: rest).take (j + 2))
          let lits ← readLits stops
          return ⟨i, i + j + 2, value⟩ :: lits

/-- The string values of a document in its order, or nothing if the text
is not valid JSON. -/
def jsonStringValues (raw : Text) : Option (List JsonLit) :=
  if valid raw then readLits (walk nextStop 0 raw) else none

-- ============================================================= replacement

/-- A text as a JSON string, without HTML escaping. -/
def jsonString (s : Text) : Text := quote :: quoteBody s ++ [quote]

/-- One round of the loop: what was written, and up to where the document
is taken care of. -/
def writeLit (raw : Text) (acc : Text × Nat) (p : JsonLit × Text) :
    Text × Nat :=
  if p.2 = p.1.value then acc
  else (acc.1 ++ raw.extract acc.2 p.1.start ++ jsonString p.2, p.1.stop)

/-- Each changed value is written back as a JSON string. -/
def replaceJSONValues (raw : Text) (lits : List JsonLit)
    (values : List Text) : Text :=
  let acc := (lits.zip values).foldl (writeLit raw) ([], 0)
  if acc.2 = 0 then raw else acc.1 ++ raw.drop acc.2

-- ================================================================= targets

/-- What one stage inspects: plain texts, and tool-call arguments. -/
structure GuardTargets where
  texts : List Text
  args : List Text

/-- The parts one argument text adds: its string values, or all of it. -/
def argParts (arg : Text) : List Text :=
  match jsonStringValues arg with
  | some lits => lits.map JsonLit.value
  | none => [arg]

def GuardTargets.parts (t : GuardTargets) : List Text :=
  t.texts ++ t.args.flatMap argParts

/-- The masked parts, written back into the argument texts. -/
def writeArgs : List Text → List Text → List Text
  | [], _ => []
  | arg :: args, masked =>
      match jsonStringValues arg with
      | some lits =>
          replaceJSONValues arg lits (masked.take lits.length)
            :: writeArgs args (masked.drop lits.length)
      | none => masked.headD [] :: writeArgs args (masked.drop 1)

def checkTargets {ν : Type} (checkAll : List Text → Except ν (List Text))
    (t : GuardTargets) : Except ν GuardTargets :=
  if t.parts.isEmpty then .ok t
  else do
    let masked ← checkAll t.parts
    return {
      texts := masked.take t.texts.length
      args := writeArgs t.args (masked.drop t.texts.length) }

end Elitea.Guardrail
