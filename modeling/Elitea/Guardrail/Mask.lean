/-
Guardrail detectors and the masking of a text (services/
elitea-llm-gateway/internal/guardrail/pipeline.go, units.go).

# What is modelled

`Pipeline.run` over one content part: the rows in order, their detectors
in order, a refusal by a block detector or by a failed detector of a
closed row, and the mask spans. `mergeSpans` and `applyMasksFrom` turn
spans into the masked text, and `Pipeline.check` is the whole-text
stage.

# Provenance

`applyMasksFrom` writes its text in pieces: bytes copied from the
content, and markers. A `Piece` keeps the hidden bytes beside the marker
that replaces them, so that a masked text still says which byte of the
content each of its parts stands for. The text itself is `render`.

# Left out

The collector, the row deadline, the scores and the per-view split of a
long content: a detector is the function from the content to what it
finds there.
-/
import Elitea.Lib.Spans

namespace Elitea.Guardrail

open Lib

/-- A string, as its bytes. -/
abbrev Text := List UInt8

abbrev Span := Lib.Span Text

-- ============================================================== detectors

inductive Action
  | block
  | mask
  | flag
deriving DecidableEq, Repr

/-- A match, in bytes of the content; `whole` is a match of all of it. -/
structure Finding where
  start : Int
  stop : Int
  whole : Bool
  label : Text
deriving DecidableEq, Repr

/-- `clamp`, to a position of a content of `n` bytes. -/
def clamp (v : Int) (n : Nat) : Nat := min v.toNat n

def Finding.bounds (n : Nat) (f : Finding) : Int × Int :=
  if f.whole then (0, n) else (f.start, f.stop)

/-- `view.spans` on a view of the whole content: the part of the finding
inside the content, unless it is empty. -/
def Finding.spans (content : Text) (f : Finding) : List Span :=
  let n := content.length
  let b := f.bounds n
  if b.2 ≤ 0 ∨ b.1 ≥ n then []
  else if clamp b.1 n < clamp b.2 n then
    [⟨clamp b.1 n, clamp b.2 n, f.label⟩]
  else []

/-- A detector, by its answers: an error, or what it finds in a
content. A finding carries a label. -/
structure Detector where
  name : String
  action : Action
  detect : Text → Except Unit (List Finding)
  labelled : ∀ content found, detect content = .ok found →
    ∀ f ∈ found, f.label ≠ []

def Detector.live (d : Detector) : Bool :=
  d.action = .block || d.action = .mask

def Detector.flagging (d : Detector) : Bool := d.action = .flag

/-- `MinStreamWindow`. -/
def minStreamWindow : Nat := 64

/-- `MaxStreamWindow`. -/
def maxStreamWindow : Nat := 8192

/-- A guardrail row with a checked stream window. -/
structure Row where
  name : String
  failClosed : Bool
  streamWindow : Nat
  detectors : List Detector
  window_ge : minStreamWindow ≤ streamWindow
  window_le : streamWindow ≤ maxStreamWindow

inductive Outcome
  | blocked
  | errorClosed
deriving DecidableEq, Repr

/-- The verdict that ends a run. -/
structure Verdict where
  row : String
  detector : String
  outcome : Outcome
deriving DecidableEq, Repr

structure Pipeline where
  rows : List Row

def Pipeline.active (p : Pipeline) : Bool := !p.rows.isEmpty

-- ==================================================================== run

/-- `runRow`: the spans so far, extended by each selected detector. -/
def runRow (row : Row) (content : Text) (filter : Detector → Bool) :
    List Detector → List Span → Except Verdict (List Span)
  | [], spans => .ok spans
  | d :: rest, spans =>
      if filter d then
        match d.detect content with
        | .error _ =>
            if row.failClosed then .error ⟨row.name, d.name, .errorClosed⟩
            else runRow row content filter rest spans
        | .ok found =>
            if found = [] then runRow row content filter rest spans
            else
              match d.action with
              | .block => .error ⟨row.name, d.name, .blocked⟩
              | .mask =>
                  runRow row content filter rest
                    (spans ++ found.flatMap (Finding.spans content))
              | .flag => runRow row content filter rest spans
      else runRow row content filter rest spans

/-- `runRows`, on one part. -/
def runRows (content : Text) (filter : Detector → Bool) :
    List Row → List Span → Except Verdict (List Span)
  | [], spans => .ok spans
  | row :: rest, spans =>
      match runRow row content filter row.detectors spans with
      | .error v => .error v
      | .ok spans => runRows content filter rest spans

def Pipeline.run (p : Pipeline) (content : Text) (filter : Detector → Bool) :
    Except Verdict (List Span) :=
  runRows content filter p.rows []

-- ================================================================ masking

/-- `mergeSpans`. The sort of the source leaves the order of two spans
with the same ends open; here they keep the order they came in. -/
def mergeSpans (spans : List Span) : List Span :=
  match spans.insertionSort Before with
  | [] => []
  | s :: rest => mergeFrom s rest

/-- A part of a masked text: bytes of the content, or a marker, which may
have been written already, for bytes that are hidden. -/
inductive Piece
  | raw (bytes : Text)
  | masked (hidden : Text) (marker : Option Text)
deriving DecidableEq, Repr

/-- `MaskMarker`: `[REDACTED:` label `]`. -/
def maskMarker (label : Text) : Text :=
  [91, 82, 69, 68, 65, 67, 84, 69, 68, 58] ++ label ++ [93]

def Piece.text : Piece → Text
  | .raw bytes => bytes
  | .masked _ (some label) => maskMarker label
  | .masked _ none => []

/-- The bytes of the content that the piece stands for. -/
def Piece.source : Piece → Text
  | .raw bytes => bytes
  | .masked hidden _ => hidden

/-- The text that is written. -/
def render (pieces : List Piece) : Text := pieces.flatMap Piece.text

/-- The content the pieces stand for. -/
def source (pieces : List Piece) : Text := pieces.flatMap Piece.source

/-- The loop of `applyMasksFrom` over merged spans, from `pos`. A span is
clamped to what is left of the content; with `continued`, one that starts
the content writes no marker. -/
def writeMasks (content : Text) (continued : Bool) :
    Nat → List Span → List Piece
  | pos, [] => [.raw (content.drop pos)]
  | pos, s :: rest =>
      let start := max (min s.start content.length) pos
      let stop := min s.stop content.length
      if stop ≤ start then writeMasks content continued pos rest
      else
        .raw ((content.take start).drop pos)
          :: .masked ((content.take stop).drop start)
            (if !continued || start != 0 then some s.label else none)
          :: writeMasks content continued stop rest

def applyMasksFrom (content : Text) (spans : List Span) (continued : Bool) :
    List Piece :=
  writeMasks content continued 0 (mergeSpans spans)

def applyMasks (content : Text) (spans : List Span) : List Piece :=
  applyMasksFrom content spans false

/-- `Pipeline.Check`. -/
def Pipeline.check (p : Pipeline) (content : Text) :
    Except Verdict (List Piece) :=
  if p.active then (p.run content fun _ => true).map (applyMasks content)
  else .ok [.raw content]

end Elitea.Guardrail
