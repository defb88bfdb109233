/-
The update of one file by a Codex envelope (libs/rust/local-tools/src/
apply_patch/mod.rs, seek_sequence.rs, and the chunks of parser.rs).

# What is modelled

`seekSequence` locates a run of lines with decreasing strictness;
`computeReplacements` places the chunks of an update one after the other,
each after its anchor, and turns them into replacements of the lines
between its context lines; `deriveNewContents` applies these and reports
the lines that changed. A chunk is what `pushLine` makes of the lines the
parser reads.

# Numbers

Line numbers are lengths of vectors, which stay below `isize::MAX`, so the
signed shift of the changed ranges is an integer.
-/
import Elitea.LocalTools.Lines
import Mathlib.Data.List.Sort

namespace Elitea.LocalTools.Envelope

open Lib
open Lib.Lines

-- ==================================================================== files

/-- A line of a file, with the ending it has. -/
structure SourceLine where
  text : Text
  ending : Option Text
deriving DecidableEq, Repr

def SourceLine.ofLine (line : Text) : SourceLine :=
  ⟨stripEnding line,
    if endingOf line = [] then none else some (endingOf line)⟩

/-- The line as it is written. -/
def SourceLine.raw (line : SourceLine) : Text :=
  line.text ++ line.ending.getD []

/-- The lines of a file. -/
def sourceLines (contents : Text) : List SourceLine :=
  (splitInclusive contents).map SourceLine.ofLine

-- =================================================================== chunks

/-- One `@@` chunk of an update. -/
structure UpdateFileChunk where
  changeContext : Option Text := none
  oldLines : List Text := []
  newLines : List Text := []
  /-- Which lines of both sides are context. -/
  contextLineIndices : List (Nat × Nat) := []
  isEndOfFile : Bool := false
deriving DecidableEq, Repr

/-- The parser adds a line to a chunk. -/
def UpdateFileChunk.pushLine (chunk : UpdateFileChunk) :
    Line → UpdateFileChunk
  | .context text =>
      { chunk with
        contextLineIndices := chunk.contextLineIndices
          ++ [(chunk.oldLines.length, chunk.newLines.length)]
        oldLines := chunk.oldLines ++ [text]
        newLines := chunk.newLines ++ [text] }
  | .remove text => { chunk with oldLines := chunk.oldLines ++ [text] }
  | .add text => { chunk with newLines := chunk.newLines ++ [text] }

-- ================================================================== seeking

/-- Why a run of lines was not located. -/
inductive SeekError
  | notFound
  | ambiguous (pass : Pass) (candidates : List Nat)
deriving DecidableEq, Repr

/-- The pattern matches the lines at a place. -/
def seekMatches (pass : Pass) (ls pattern : List Text) (k : Nat) : Bool :=
  (pattern.zip ((ls.drop k).take pattern.length)).all fun p =>
    pass.lineMatches p.2 p.1

/-- Every position at or after `start` where the pattern matches. -/
def seekPositions (ls pattern : List Text) (start : Nat) (pass : Pass) :
    List Nat :=
  if pattern.isEmpty || decide (pattern.length > ls.length) then []
  else (List.range' start (ls.length - pattern.length + 1 - start)).filter
    (seekMatches pass ls pattern)

/-- The exact pass takes the first position, a fuzzy pass only a unique
one. -/
def seekPass (ls pattern : List Text) (start : Nat) (pass : Pass) :
    Except SeekError (Option Nat) :=
  match seekPositions ls pattern start pass with
  | [] => .ok none
  | first :: more =>
      if pass = .exact ∨ more = [] then .ok (some first)
      else .error (.ambiguous pass (first :: more))

/-- The passes, strictest first. -/
def ladder : List Pass := [.exact, .trimEnd, .trim, .unicode]

def seekLadder (ls pattern : List Text) (start : Nat) :
    List Pass → Except SeekError (Option (Nat × Pass))
  | [] => .ok none
  | pass :: rest =>
      match seekPass ls pattern start pass with
      | .error error => .error error
      | .ok (some found) => .ok (some (found, pass))
      | .ok none => seekLadder ls pattern start rest

/-- From `start` on; an empty result is an error. -/
def seekFrom (ls pattern : List Text) (start : Nat) :
    Except SeekError (Nat × Pass) :=
  match seekLadder ls pattern start ladder with
  | .error error => .error error
  | .ok (some found) => .ok found
  | .ok none => .error .notFound

/-- `seek_sequence`: with `eof`, the position that ends at the end of the
file is tried first. -/
def seekSequence (ls pattern : List Text) (start : Nat) (eof : Bool) :
    Except SeekError (Nat × Pass) :=
  if pattern.isEmpty then .ok (start, .exact)
  else if pattern.length > ls.length then .error .notFound
  else if eof then
    match seekLadder ls pattern (max (ls.length - pattern.length) start)
        ladder with
    | .error error => .error error
    | .ok (some found) => .ok found
    | .ok none => seekFrom ls pattern start
  else seekFrom ls pattern start

def located (path : Text) (what : String) : SeekError → ToolError
  | .notFound =>
      ⟨.conflict, "failed to find " ++ what ++ " in " ++ quoted path⟩
  | .ambiguous pass candidates =>
      ⟨.conflict, what ++ " in " ++ quoted path
        ++ " matches only after normalisation (" ++ pass.asStr
        ++ "), at lines " ++ ", ".intercalate
          (candidates.map fun k => toString (k + 1))
        ++ "; add context to make it unique"⟩

-- ============================================================ replacements

/-- Lines of the original and what replaces them. -/
structure Replacement where
  start : Nat
  oldLen : Nat
  segment : List Text
deriving DecidableEq, Repr

/-- What is between two context lines, if anything changes there. -/
def run (start : Nat) (newSlice : List Text)
    (oldStart newStart oldStop newStop : Nat) : List Replacement :=
  if oldStart ≠ oldStop ∨ newStart ≠ newStop then
    [⟨start + oldStart, oldStop - oldStart,
      (newSlice.take newStop).drop newStart⟩]
  else []

/-- The runs between the context lines of a chunk located at `start`. -/
def contextRuns (start : Nat) (pattern newSlice : List Text) :
    Nat → Nat → List (Nat × Nat) → List Replacement
  | oldStart, newStart, [] =>
      run start newSlice oldStart newStart pattern.length newSlice.length
  | oldStart, newStart, (oldContext, newContext) :: rest =>
      if oldContext ≥ pattern.length ∨ newContext ≥ newSlice.length then
        run start newSlice oldStart newStart pattern.length newSlice.length
      else
        run start newSlice oldStart newStart oldContext newContext
          ++ contextRuns start pattern newSlice (oldContext + 1)
            (newContext + 1) rest

/-- Where a chunk's lines are looked for, and how its anchor matched. -/
def seekAnchor (ls : List Text) (path : Text) (chunk : UpdateFileChunk)
    (lineIndex : Nat) : Except ToolError (Nat × Pass) :=
  match chunk.changeContext with
  | none => .ok (lineIndex, .exact)
  | some context =>
      match seekSequence ls [context] lineIndex false with
      | .ok (k, pass) => .ok (k + 1, pass)
      | .error error =>
          .error (located path
            ("context '" ++ String.ofList context ++ "'") error)

/-- The last line dropped if it is empty. -/
def dropBlankLast (ls : List Text) : List Text :=
  if ls.getLast? = some [] then ls.dropLast else ls

/-- A chunk's lines located: where and how, the lines that were found, and
those that replace them. A trailing empty old line stands for the file's
final newline, which the split lines do not hold: retry without it. -/
def seekChunk (ls : List Text) (chunk : UpdateFileChunk) (lineIndex : Nat) :
    Except SeekError ((Nat × Pass) × List Text × List Text) :=
  match seekSequence ls chunk.oldLines lineIndex chunk.isEndOfFile with
  | .ok found => .ok (found, chunk.oldLines, chunk.newLines)
  | .error .notFound =>
      if chunk.oldLines.getLast? = some [] then
        let pattern := chunk.oldLines.dropLast
        match seekSequence ls pattern lineIndex chunk.isEndOfFile with
        | .ok found => .ok (found, pattern, dropBlankLast chunk.newLines)
        | .error error => .error error
      else .error .notFound
  | .error error => .error error

/-- One chunk: its replacements, how it matched, and the line the next one
is looked for from. -/
def placeChunk (ls : List Text) (path : Text) (chunk : UpdateFileChunk)
    (lineIndex : Nat) :
    Except ToolError (List Replacement × Pass × Nat) := do
  let (lineIndex, chunkPass) ← seekAnchor ls path chunk lineIndex
  if chunk.oldLines.isEmpty then
    -- a pure addition goes after its anchor, else to the end of the file
    let start := if chunk.changeContext.isSome then lineIndex else ls.length
    .ok ([⟨start, 0, chunk.newLines⟩], chunkPass, lineIndex)
  else
    match seekChunk ls chunk lineIndex with
    | .error error =>
        .error (located path ("the expected lines\n" ++ "\n".intercalate
          (chunk.oldLines.map String.ofList) ++ "\n") error)
    | .ok ((start, pass), pattern, newSlice) =>
        .ok (contextRuns start pattern newSlice 0 0
            chunk.contextLineIndices,
          if pass = .exact then chunkPass else pass,
          start + pattern.length)

/-- The loop over the chunks. -/
def placeChunks (ls : List Text) (path : Text) (lineIndex : Nat) :
    List UpdateFileChunk →
      Except ToolError (List Replacement × List Pass)
  | [] => .ok ([], [])
  | chunk :: rest => do
      let (replacements, pass, next) ← placeChunk ls path chunk lineIndex
      let (later, passes) ← placeChunks ls path next rest
      return (replacements ++ later, pass :: passes)

/-- `compute_replacements`. -/
def computeReplacements (ls : List Text) (path : Text)
    (chunks : List UpdateFileChunk) :
    Except ToolError (List Replacement × List Pass) := do
  let (replacements, passes) ← placeChunks ls path 0 chunks
  return (replacements.insertionSort fun a b => a.start ≤ b.start, passes)

-- ================================================================= applying

/-- The lines with the replacements made; inserted lines take the
preferred ending. -/
def applyFrom (preferred : Text) (index : Nat) (lines : List SourceLine) :
    List Replacement → List SourceLine
  | [] => lines
  | r :: rest =>
      lines.take (r.start - index)
        ++ (r.segment.map (⟨·, some preferred⟩)
          ++ applyFrom preferred (r.start + r.oldLen)
            ((lines.drop (r.start - index)).drop r.oldLen) rest)

/-- Every line but the last ends with a newline. -/
def endLines (preferred : Text) : List SourceLine → List SourceLine
  | [] => []
  | [last] => [last]
  | line :: next :: rest =>
      { line with ending := some (line.ending.getD preferred) }
        :: endLines preferred (next :: rest)

/-- Two neighbours change the same lines. -/
def clash : List Replacement → Bool
  | a :: b :: rest =>
      decide (a.start + a.oldLen > b.start) || clash (b :: rest)
  | _ => false

/-- The changed lines of the new text. -/
def changedFrom (shift : Int) : List Replacement → List (Nat × Nat)
  | [] => []
  | r :: rest =>
      let first := ((r.start : Int) + shift).toNat
      (first, first + r.segment.length)
        :: changedFrom (shift + (r.segment.length - r.oldLen)) rest

/-- An update's result. -/
structure Derived where
  content : Text
  passes : List Pass
  changed : List (Nat × Nat)
deriving DecidableEq, Repr

/-- `derive_new_contents`. -/
def deriveNewContents (original path : Text)
    (chunks : List UpdateFileChunk) : Except ToolError Derived := do
  let source := sourceLines original
  let (replacements, passes) ←
    computeReplacements (source.map SourceLine.text) path chunks
  if clash replacements then
    .error ⟨.conflict, "two chunks of " ++ quoted path
      ++ " change the same lines"⟩
  else
    let preferred := usualEnding original
    let out := endLines preferred
      (applyFrom preferred 0 source replacements)
    .ok ⟨(out.map SourceLine.raw).flatten, passes,
      changedFrom 0 replacements⟩

end Elitea.LocalTools.Envelope
