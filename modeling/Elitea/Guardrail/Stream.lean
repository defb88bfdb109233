/-
The streaming output stage: `StreamFilter` (services/
elitea-llm-gateway/internal/guardrail/stream.go).

# The filter

`push` holds the newest text back. Once two windows are held, `evaluate`
runs the live detectors over the look-behind context and the held text,
picks a cut, releases the held text up to the cut with its spans masked,
and keeps the end of what it released as the next context. `finish`
releases the rest.

# The cut

A window of text stays held. A span that crosses the cut moves the cut
back to its start, over and over (`settle`); when that leaves nothing to
release and sixteen windows are held, the cut is forced: back at its
first place, and forward over the spans that cross it (`forceCut`).

# Open matches

When all the held text is released and a span reaches its end, the match
may go on in the next delta. The context then starts where the match
does. A context of more than 64 KiB is given up, and the rest of the
channel is masked (`maskRest`).
-/
import Elitea.Guardrail.Mask
import Elitea.Lib.Runs

namespace Elitea.Guardrail

open Lib

-- ================================================================== runes

/-- `utf8.RuneStart`: not a continuation byte. -/
def runeStart (b : UInt8) : Bool := b &&& 0xC0 != 0x80

/-- `runeFloor`: back to the start of the rune that byte `i` is in. -/
def runeFloor (s : Text) : Nat → Nat
  | 0 => 0
  | i + 1 =>
      match s[i + 1]? with
      | none => s.length
      | some b => if runeStart b then i + 1 else runeFloor s i

/-- `runeCeil`: forward to the next start of a rune. -/
def runeCeil (s : Text) (i : Nat) : Nat :=
  if i = 0 then 0
  else i + ((s.drop i).takeWhile fun b => !runeStart b).length

-- ================================================================ the cut

/-- `forceReleaseFactor`. -/
def forceReleaseFactor : Nat := 16

/-- `maxOpenContextBytes`. -/
def maxOpenContextBytes : Nat := 64 * 1024

/-- One pass of the loop that moves the cut back to the start of the
spans it crosses. -/
def settlePass (pending : Text) (spans : List Span) (cut : Nat) : Nat :=
  spans.foldl (fun cut s =>
    if s.start < cut ∧ cut < s.stop then runeFloor pending s.start else cut)
    cut

/-- The passes, until one moves nothing. A move makes the cut smaller, so
`cut` passes are enough. -/
def settle (pending : Text) (spans : List Span) : Nat → Nat → Nat
  | 0, cut => cut
  | fuel + 1, cut =>
      let cut' := settlePass pending spans cut
      if cut' < cut then settle pending spans fuel cut' else cut

/-- The pass of a forced release: the cut moves past the spans it
crosses. -/
def forceCut (spans : List Span) (cut : Nat) : Nat :=
  spans.foldl (fun cut s =>
    if s.start < cut ∧ cut < s.stop then s.stop else cut) cut

/-- Where a release that is not the last one cuts the held text. -/
def holdCut (window : Nat) (pending : Text) (spans : List Span) : Nat :=
  let first := runeFloor pending (pending.length - window)
  let cut := settle pending spans first first
  if cut = 0 ∧ forceReleaseFactor * window ≤ pending.length then
    forceCut spans first
  else cut

/-- `openStart`: the first start of a span that runs to the end of a text
of `len` bytes, past `base`. -/
def openStart (len base : Nat) (spans : List Span) : Option Nat :=
  spans.foldl (fun first s =>
    if len ≤ s.stop ∧ base < s.stop ∧ first.all fun o => s.start < o
    then some s.start else first) none

-- ============================================================= the filter

/-- `StreamFilter`. The window and the two kinds of detectors are the
pipeline's and do not change; see `Pipeline.streamWindow`. -/
structure StreamFilter where
  tail : Text
  pending : Text
  isOpen : Bool
  /-- The label that masks the rest of the channel; empty when unset. -/
  maskRest : Text
  nextEval : Nat
  full : Text
  fullTruncated : Bool
  released : List Piece
  done : Bool
deriving DecidableEq, Repr

/-- `maxFlagBytes`. -/
def maxFlagBytes : Nat := 1024 * 1024

/-- `DefaultStreamWindow`, of an inactive pipeline. -/
def defaultStreamWindow : Nat := 256

/-- The filter's window: the largest of the rows' windows. -/
def Pipeline.streamWindow (p : Pipeline) : Nat :=
  if p.active then (p.rows.map Row.streamWindow).foldl max 0
  else defaultStreamWindow

def Pipeline.live (p : Pipeline) : Bool :=
  p.rows.any fun row => row.detectors.any Detector.live

def Pipeline.flagging (p : Pipeline) : Bool :=
  p.rows.any fun row => row.detectors.any fun d => !d.live

/-- The filter of `NewStream`. -/
def newStream : StreamFilter :=
  { tail := [], pending := [], isOpen := false, maskRest := [], nextEval := 0
    full := [], fullTruncated := false, released := [], done := false }

/-- The look-behind context kept of a text: its last window. -/
def lookBehind (window : Nat) (ctx : Text) : Text :=
  if ctx.length > window then ctx.drop (runeCeil ctx (ctx.length - window))
  else ctx

/-- The spans of an evaluation, `maskRest` included, in positions of the
context and the held text. -/
def StreamFilter.withRest (f : StreamFilter) (spans : List Span) :
    List Span :=
  if f.maskRest = [] then spans
  else spans ++
    [⟨f.tail.length, (f.tail ++ f.pending).length, f.maskRest⟩]

/-- The end of `evaluate`: release the held text up to `cut`, and keep
the context. `found` are the spans in the context and the held text. -/
def StreamFilter.release (window : Nat) (f : StreamFilter)
    (found : List Span) (cut : Nat) (final : Bool) :
    StreamFilter × List Piece :=
  let base := f.tail.length
  let inCut := clipSpans cut (shiftSpans base found)
  let releasedOriginal := f.pending.take cut
  let out := applyMasksFrom releasedOriginal inCut f.isOpen
  let ctxText := f.tail ++ releasedOriginal
  let f' := { f with
    nextEval := 0
    released := f.released ++ out
    pending := f.pending.drop cut
    isOpen := false
    tail := lookBehind window ctxText }
  match openStart (f.tail ++ f.pending).length base found with
  | none => (f', out)
  | some start =>
      if !final && f'.pending.isEmpty then
        if ctxText.length - start ≤ maxOpenContextBytes then
          ({ f' with isOpen := true, tail := ctxText.drop start }, out)
        else
          ({ f' with
              isOpen := true
              maskRest := (inCut.getLast?.map Lib.Span.label).getD [] }, out)
      else (f', out)

/-- Where `evaluate` cuts the held text. -/
def StreamFilter.releaseCut (p : Pipeline) (f : StreamFilter)
    (found : List Span) (final : Bool) : Nat :=
  if final then f.pending.length
  else holdCut p.streamWindow f.pending (shiftSpans f.tail.length found)

/-- `evaluate`. -/
def StreamFilter.evaluate (p : Pipeline) (f : StreamFilter) (final : Bool) :
    StreamFilter × Except Verdict (List Piece) :=
  match p.run (f.tail ++ f.pending) Detector.live with
  | .error v => ({ f with done := true, pending := [] }, .error v)
  | .ok spans =>
      let found := f.withRest spans
      let cut := f.releaseCut p found final
      if cut = 0 ∧ ¬ final then
        ({ f with nextEval := f.pending.length + p.streamWindow }, .ok [])
      else
        let (f', out) := f.release p.streamWindow found cut final
        (f', .ok out)

/-- The text kept for the flag detectors, with a delta added. -/
def StreamFilter.keepFull (p : Pipeline) (f : StreamFilter) (delta : Text) :
    StreamFilter :=
  if p.flagging && !f.fullTruncated then
    if f.full.length + delta.length > maxFlagBytes then
      { f with fullTruncated := true }
    else { f with full := f.full ++ delta }
  else f

/-- `Push`. -/
def StreamFilter.push (p : Pipeline) (f : StreamFilter) (delta : Text) :
    StreamFilter × Except Verdict (List Piece) :=
  if f.done || delta.isEmpty then (f, .ok [])
  else
    let f := f.keepFull p delta
    if !p.live then
      ({ f with released := f.released ++ [.raw delta] }, .ok [.raw delta])
    else
      let f := { f with pending := f.pending ++ delta }
      if f.pending.length < 2 * p.streamWindow
          ∨ f.pending.length < f.nextEval then (f, .ok [])
      else f.evaluate p false

/-- The end of `Finish`: the flag detectors read the whole answer. -/
def StreamFilter.runFlags (p : Pipeline) (f : StreamFilter)
    (out : List Piece) : StreamFilter × Except Verdict (List Piece) :=
  let f := { f with done := true }
  if p.flagging && !f.full.isEmpty then
    match p.run f.full Detector.flagging with
    | .error v => (f, .error v)
    | .ok _ => (f, .ok out)
  else (f, .ok out)

/-- `Finish`. -/
def StreamFilter.finish (p : Pipeline) (f : StreamFilter) :
    StreamFilter × Except Verdict (List Piece) :=
  if f.done then (f, .ok [])
  else if p.live && !f.pending.isEmpty then
    match f.evaluate p true with
    | (f', .error v) => (f', .error v)
    | (f', .ok out) => f'.runFlags p out
  else f.runFlags p []

-- ============================================================== a channel

/-- A channel: its filter and all that was returned for the client. -/
structure Channel where
  filter : StreamFilter
  sent : List Piece
deriving DecidableEq, Repr

def Channel.start : Channel := { filter := newStream, sent := [] }

inductive ChannelOp
  | push (delta : Text)
  | finish
deriving DecidableEq, Repr

def ChannelOp.call (p : Pipeline) (f : StreamFilter) :
    ChannelOp → StreamFilter × Except Verdict (List Piece)
  | .push delta => f.push p delta
  | .finish => f.finish p

/-- One call of the filter. A refusal ends the channel. -/
def channelStep (p : Pipeline) (c : Channel) (op : ChannelOp) :
    Option Channel :=
  match op.call p c.filter with
  | (f, .ok out) => some { filter := f, sent := c.sent ++ out }
  | (_, .error _) => none

/-- The calls for an answer that comes in the given deltas. -/
def answerOps (deltas : List Text) : List ChannelOp :=
  deltas.map .push ++ [.finish]

/-- What the filter was given so far: what it released and what it
holds. -/
def Channel.received (c : Channel) : Text := source c.sent ++ c.filter.pending

end Elitea.Guardrail
