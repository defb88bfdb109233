/-
What one detector call reads (services/elitea-llm-gateway/internal/
guardrail/units.go), and a pipeline over many parts (pipeline.go).

# What is modelled

A stage inspects a list of parts. A detector reads views of them: all
parts joined, each part alone, or units up to a limit in UTF-16 code
units, packed from whole parts and split where a part is longer than the
limit (`splitText`, `unitViews`). `View.spans` maps a finding of a view
back to the parts, and `checkParts` masks every part with the spans of the
detectors that asked for it.

# Left out

The calls of one detector run in parallel and share a deadline; what
remains of that is that one failed call fails the detector. Verdicts are
kept as far as they end a run. An index that is not one of a part reads an
empty part; the pipeline makes no such index.
-/
import Elitea.Guardrail.Mask
import Elitea.Lib.Runes

namespace Elitea.Guardrail

open Lib
open Lib.Utf8

-- ==================================================================== views

def maxDetectorCalls : Nat := 16

/-- How far back, in bytes, a split looks for a white space. -/
def splitLookback : Nat := 256

def segmentSeparator : Text := [0x0A, 0x0A]

/-- One piece of one part inside a view. -/
structure Seg where
  part : Nat
  partStart : Nat
  viewStart : Nat
  viewEnd : Nat
deriving DecidableEq, Repr

def Seg.length (sg : Seg) : Nat := sg.viewEnd - sg.viewStart

/-- The text of one detector call; `tool` is set when every part of it is
a tool result. -/
structure View where
  text : Text
  segs : List Seg
  tool : Bool
deriving DecidableEq, Repr

/-- A byte range in one part. -/
structure PartSpan where
  part : Nat
  span : Span
deriving DecidableEq, Repr

/-- The range of one piece that lies under `[s, e)`. -/
def Seg.spans (sg : Seg) (s e : Int) (label : Text) : List PartSpan :=
  if e ≤ sg.viewStart ∨ s ≥ sg.viewEnd then []
  else
    let start := sg.partStart + clamp (s - sg.viewStart) sg.length
    let stop := sg.partStart + clamp (e - sg.viewStart) sg.length
    if stop > start then [⟨sg.part, ⟨start, stop, label⟩⟩] else []

/-- `view.spans`. -/
def View.spans (v : View) (f : Finding) : List PartSpan :=
  let b := f.bounds v.text.length
  v.segs.flatMap fun sg => sg.spans b.1 b.2 f.label

def isToolPart (tool : List Bool) (i : Nat) : Bool := tool.getD i false

/-- The text of a part. -/
def partText (parts : List Text) (i : Nat) : Text := parts.getD i []

/-- One view of the parts, joined by the separator. -/
def joinParts (parts : List Text) (tool : List Bool) :
    View → List Nat → View
  | v, [] => v
  | v, i :: idx =>
      let text := if v.segs.isEmpty then v.text
        else v.text ++ segmentSeparator
      joinParts parts tool
        { text := text ++ partText parts i
          segs := v.segs ++ [⟨i, 0, text.length,
            text.length + (partText parts i).length⟩]
          tool := v.tool && isToolPart tool i } idx

def joinedView (parts : List Text) (tool : List Bool) (idx : List Nat) :
    View :=
  joinParts parts tool ⟨[], [], true⟩ idx

/-- One view per part. -/
def partViews (parts : List Text) (tool : List Bool) (idx : List Nat) :
    List View :=
  idx.map fun i =>
    let text := partText parts i
    ⟨text, [⟨i, 0, 0, text.length⟩], isToolPart tool i⟩

-- ================================================================= splitting

/-- The UTF-16 length of a code point. -/
def runeCost (r : Nat) : Nat := if r ≥ 0x10000 then 2 else 1

/-- The UTF-16 length of a text. -/
def textCost (s : Text) : Nat := weight runeCost s

/-- `unicode.IsSpace`. -/
def isSpaceRune (r : Nat) : Bool :=
  r = 0x20 || (0x09 ≤ r && r ≤ 0x0D) || r = 0x85 || r = 0xA0 || r = 0x1680
    || (0x2000 ≤ r && r ≤ 0x200A) || r = 0x2028 || r = 0x2029
    || r = 0x202F || r = 0x205F || r = 0x3000

/-- `utf8.RuneLen`. -/
def runeLen (r : Nat) : Nat := (encode r).length

structure Bound where
  start : Nat
  stop : Nat
deriving DecidableEq, Repr

/-- The loop variables of `splitText`; `space` is the place after the last
white space, if one was met since the last cut. -/
structure Splitting where
  out : List Bound
  start : Nat
  cost : Nat
  space : Option Nat

/-- Where a full range ends: after a white space that is near, or here. -/
def Splitting.cut (st : Splitting) (i : Nat) : Nat :=
  match st.space with
  | some space =>
      if space > st.start ∧ i - space ≤ splitLookback then space else i
  | none => i

/-- End the range if the next character does not fit. -/
def Splitting.close (s : Text) (limit : Nat) (st : Splitting)
    (i c : Nat) : Splitting :=
  if st.cost + c > limit ∧ i > st.start then
    { out := st.out ++ [⟨st.start, st.cut i⟩]
      start := st.cut i
      cost := textCost (s.extract (st.cut i) i)
      space := none }
  else st

/-- One round: the character at the front of `rest`, at position `i`. -/
def splitStep (s : Text) (limit : Nat) (st : Splitting)
    (stop : Nat × Text) : Splitting :=
  let r := rune stop.2
  let st := st.close s limit stop.1 (runeCost r)
  { st with
    cost := st.cost + runeCost r
    space := if isSpaceRune r then some (stop.1 + runeLen r)
      else st.space }

/-- Ranges of at most `limit` UTF-16 code units. -/
def splitText (s : Text) (limit : Nat) : List Bound :=
  let st := (walk size 0 s).foldl (splitStep s limit) ⟨[], 0, 0, none⟩
  st.out ++ [⟨st.start, s.length⟩]

-- =================================================================== packing

/-- The unit that is being packed. -/
structure OpenUnit where
  view : View
  cost : Nat

/-- The units packed so far. -/
structure Packing where
  views : List View
  cur : Option OpenUnit

def Packing.flush (p : Packing) : Packing :=
  match p.cur with
  | some u => ⟨p.views ++ [u.view], none⟩
  | none => p

/-- The units of a part that is longer than the limit. -/
def splitViews (i : Nat) (text : Text) (tool : Bool) (limit : Nat) :
    List View :=
  (splitText text limit).map fun r =>
    ⟨text.extract r.start r.stop, [⟨i, r.start, 0, r.stop - r.start⟩], tool⟩

/-- The part does not go into the open unit. -/
def OpenUnit.full (u : OpenUnit) (tool : Bool) (cost limit : Nat) : Bool :=
  u.view.tool != tool
    || decide (u.cost + textCost segmentSeparator + cost > limit)

/-- A whole part, added to the open unit or to a new one. -/
def addWhole (i : Nat) (text : Text) (tool : Bool) :
    Option OpenUnit → OpenUnit
  | none =>
      ⟨⟨text, [⟨i, 0, 0, text.length⟩], tool⟩, textCost text⟩
  | some u =>
      let front := u.view.text ++ segmentSeparator
      { view := {
          text := front ++ text
          segs := u.view.segs
            ++ [⟨i, 0, front.length, front.length + text.length⟩]
          tool := u.view.tool }
        cost := u.cost + textCost segmentSeparator + textCost text }

/-- One round of the loop of `unitViews`. -/
def packPart (parts : List Text) (tool : List Bool) (limit : Nat)
    (p : Packing) (i : Nat) : Packing :=
  let text := partText parts i
  let t := isToolPart tool i
  if text.isEmpty then p
  else if textCost text > limit then
    { p.flush with
      views := p.flush.views ++ splitViews i text t limit }
  else
    let p := if p.cur.any (·.full t (textCost text) limit) then p.flush
      else p
    { p with cur := some (addWhole i text t p.cur) }

/-- The units of the parts. -/
def allUnits (parts : List Text) (tool : List Bool) (idx : List Nat)
    (limit : Nat) : List View :=
  (idx.foldl (packPart parts tool limit) ⟨[], none⟩).flush.views

/-- The newest units, and whether older ones were dropped. -/
def unitViews (parts : List Text) (tool : List Bool) (idx : List Nat)
    (limit : Nat) : List View × Bool :=
  let views := allUnits parts tool idx limit
  if views.length > maxDetectorCalls then
    (views.drop (views.length - maxDetectorCalls), true)
  else (views, false)

-- ================================================================= the stage

/-- What a detector reads at a time. No vendor limit is below a thousand
UTF-16 code units. -/
inductive Reader
  | bounded (textLimit : Nat) (ge : 1000 ≤ textLimit)
  | segmentLocal
  | joined

/-- A detector over parts. A detector may read units of tool results in a
way of its own. -/
structure PartDetector where
  name : String
  action : Action
  reader : Reader
  /-- `content: tool_results`. -/
  toolResults : Bool
  /-- The detector fills the prompt-injection slot. -/
  slot : Bool
  detect : Text → Except Unit (List Finding)
  detectToolResults : Option (Text → Except Unit (List Finding))

structure PartRow where
  name : String
  failClosed : Bool
  detectors : List PartDetector

/-- `detectorViews`. -/
def detectorViews (d : PartDetector) (parts : List Text)
    (tool : List Bool) (idx : List Nat) : List View × Bool :=
  match d.reader with
  | .bounded limit _ => unitViews parts tool idx limit
  | .segmentLocal => (partViews parts tool idx, false)
  | .joined => ([joinedView parts tool idx], false)

def PartDetector.call (d : PartDetector) (v : View) :
    Except Unit (List Finding) :=
  match d.detectToolResults with
  | some detect => if v.tool then detect v.text else d.detect v.text
  | none => d.detect v.text

/-- `detectViews`: the findings of each view, unless a call failed. -/
def detectViews (d : PartDetector) (views : List View) :
    Except Unit (List (List Finding)) :=
  views.mapM d.call

/-- `SlotPromptInjection`. -/
def slotPromptInjection : Text := "prompt_injection".toUTF8.toList

/-- `slotFindings`: every finding of a slot detector gets the slot's
label. -/
def slotFindings (d : PartDetector) (found : List Finding) :
    List Finding :=
  if d.slot then found.map fun f => { f with label := slotPromptInjection }
  else found

/-- The parts that a detector reads. -/
def detectorParts (d : PartDetector) (n : Nat) (tool : List Bool) :
    List Nat :=
  (List.range n).filter fun i => !d.toolResults || isToolPart tool i

/-- What the findings of the views cover. -/
def foundSpans (d : PartDetector) (views : List View)
    (perView : List (List Finding)) : List PartSpan :=
  (views.zip perView).flatMap fun vf =>
    (slotFindings d vf.2).flatMap vf.1.spans

/-- `runRow`, over parts. -/
def runRowParts (row : PartRow) (parts : List Text) (tool : List Bool) :
    List PartDetector → List PartSpan → Except Verdict (List PartSpan)
  | [], spans => .ok spans
  | d :: rest, spans =>
      let idx := detectorParts d parts.length tool
      if idx.isEmpty then runRowParts row parts tool rest spans
      else
        let views := (detectorViews d parts tool idx).1
        match detectViews d views with
        | .error _ =>
            if row.failClosed then .error ⟨row.name, d.name, .errorClosed⟩
            else runRowParts row parts tool rest spans
        | .ok perView =>
            if perView.all fun found => (slotFindings d found).isEmpty then
              runRowParts row parts tool rest spans
            else
              match d.action with
              | .block => .error ⟨row.name, d.name, .blocked⟩
              | .mask =>
                  runRowParts row parts tool rest
                    (spans ++ foundSpans d views perView)
              | .flag => runRowParts row parts tool rest spans

/-- `runRows`, over parts. -/
def runRowsParts (parts : List Text) (tool : List Bool) :
    List PartRow → List PartSpan → Except Verdict (List PartSpan)
  | [], spans => .ok spans
  | row :: rest, spans =>
      match runRowParts row parts tool row.detectors spans with
      | .error v => .error v
      | .ok spans => runRowsParts parts tool rest spans

/-- The spans of one part. -/
def spansOf (spans : List PartSpan) (i : Nat) : List Span :=
  (spans.filter fun ps => ps.part = i).map PartSpan.span

/-- `checkParts`: every part masked, or the refusing verdict. -/
def checkParts (rows : List PartRow) (parts : List Text)
    (tool : List Bool) : Except Verdict (List (List Piece)) :=
  if rows.isEmpty || parts.isEmpty then
    .ok (parts.map fun part => [.raw part])
  else
    (runRowsParts parts tool rows []).map fun spans =>
      parts.mapIdx fun i part => applyMasks part (spansOf spans i)

end Elitea.Guardrail
