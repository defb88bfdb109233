/-
String edits: where one applies and what it writes (libs/rust/local-tools/
src/edit.rs, and `place_edits` of files.rs).

# What is modelled

`locate` looks for an edit's old string in the text: every place where it
stands, or, when it stands nowhere, the runs of whole lines that equal its
lines up to their endings, trailing white space and one shift of the
indentation. `placeEdits` puts the places of several edits in order and
refuses two that overlap; `splice` writes the replacements and reports the
lines they take in the new text.

# Positions

The source counts positions in bytes, always between two characters. Here
they count characters.
-/
import Elitea.LocalTools.Lines
import Mathlib.Data.List.Sort

namespace Elitea.LocalTools.Edit

open Lib
open Lib.Lines

/-- One replacement. -/
structure EditSpec where
  oldString : Text
  newString : Text
  replaceAll : Bool := false
deriving DecidableEq, Repr

/-- How an edit's old string was found. -/
inductive EditMatch
  | exact
  | normalised
deriving DecidableEq, Repr

/-- A range of the original and what replaces it. -/
structure Span where
  start : Nat
  stop : Nat
  new : Text
deriving DecidableEq, Repr

/-- Why an edit has no place. -/
inductive Unplaced
  | absent
  | ambiguous (count : Nat) (how : EditMatch)
  | unshiftable
deriving DecidableEq, Repr

-- ================================================================== endings

/-- `replace("\r\n", "\n")`: a carriage return before a line feed goes. -/
def lfOnly : Text → Text
  | [] => []
  | c :: rest =>
      if c = '\r' ∧ rest.head? = some '\n' then lfOnly rest
      else c :: lfOnly rest

/-- The text with every line ending made `ending`. -/
def withEndings (text ending : Text) : Text :=
  let t := lfOnly text
  if ending = lf then t
  else t.flatMap fun c => if c = '\n' then ending else [c]

/-- The ending a replacement takes: the replaced text's, else the usual
one. -/
def endingFor (replaced usual : Text) : Text :=
  if (splitOnce crlf replaced).isSome then crlf
  else if replaced.contains '\n' then lf
  else usual

-- ============================================================ exact matches

/-- `match_indices`: the places of a pattern from left to right, none
inside the one before it. `skip` characters of that one are still to
pass. -/
def matchFrom (pattern : Text) (position skip : Nat) : Text → List Nat
  | [] => if pattern.isEmpty then [position] else []
  | c :: rest =>
      if 0 < skip then matchFrom pattern (position + 1) (skip - 1) rest
      else if startsWith pattern (c :: rest) then
        position
          :: matchFrom pattern (position + 1) (pattern.length - 1) rest
      else matchFrom pattern (position + 1) 0 rest

def matchIndices (pattern text : Text) : List Nat :=
  matchFrom pattern 0 0 text

/-- The exact places of an edit. -/
def exactSpans (text : Text) (edit : EditSpec) : List Span :=
  (matchIndices edit.oldString text).map fun start =>
    ⟨start, start + edit.oldString.length,
      withEndings edit.newString
        (endingFor edit.oldString (usualEnding text))⟩

-- ======================================================= normalised matches

/-- An indentation difference between the file and the pattern. -/
inductive Shift
  /-- The file's lines are indented by this much more. -/
  | add (extra : Text)
  /-- The pattern's lines are indented by this much more. -/
  | remove (extra : Text)
deriving DecidableEq, Repr

def trimStart (line : Text) : Text := line.dropWhile isWhitespace

def leading (line : Text) : Text := line.takeWhile isWhitespace

/-- The shift that makes `file` equal `pattern`. -/
def shiftOf (file pattern : Text) : Option Shift :=
  if trimStart file ≠ trimStart pattern then none
  else
    match stripFront (leading pattern) (leading file) with
    | some extra => some (.add extra)
    | none => (stripFront (leading file) (leading pattern)).map .remove

/-- One line of the file: its text without the ending, the ending, and
where it starts. -/
structure FileLine where
  text : Text
  ending : Text
  start : Nat

def FileLine.contentEnd (line : FileLine) : Nat :=
  line.start + line.text.length

def FileLine.stop (line : FileLine) : Nat :=
  line.contentEnd + line.ending.length

def fileLinesFrom (start : Nat) : List Text → List FileLine
  | [] => []
  | line :: rest =>
      ⟨stripEnding line, endingOf line, start⟩
        :: fileLinesFrom (start + line.length) rest

def fileLines (text : Text) : List FileLine :=
  fileLinesFrom 0 (splitInclusive text)

/-- The one shift under which the lines match line for line; `seen` is
that of the lines before. -/
def windowShift : Option Shift → List FileLine → List Text → Option Shift
  | seen, line :: window, want :: wanted =>
      let have_ := trimEnd line.text
      if want.isEmpty || have_.isEmpty then
        if want.isEmpty && have_.isEmpty then windowShift seen window wanted
        else none
      else
        match shiftOf have_ want with
        | none => none
        | some this =>
            match seen with
            | none => windowShift (some this) window wanted
            | some before =>
                if before = this then windowShift seen window wanted
                else none
  | seen, _, _ => seen

/-- One line of a replacement, shifted like the match. -/
def shiftLine (shift : Shift) (line : Text) : Option Text :=
  if (trim line).isEmpty then some line
  else
    match shift with
    | .add extra => some (extra ++ line)
    | .remove extra => stripFront extra line

/-- The new string shifted like the match, with `ending` between its
lines. -/
def reindent (new : Text) (shift : Shift) (ending : Text) : Option Text :=
  (((lfOnly new).splitOn '\n').mapM (shiftLine shift)).map
    (List.intercalate ending)

/-- The pattern ends with a line feed. -/
def endsWithNewline (edit : EditSpec) : Bool :=
  (lfOnly edit.oldString).getLast? = some '\n'

/-- The lines of the pattern, without trailing white space. -/
def wantedLines (edit : EditSpec) : List Text :=
  let pattern := lfOnly edit.oldString
  let body := if endsWithNewline edit then pattern.dropLast else pattern
  (body.splitOn '\n').map trimEnd

/-- The span of a window that matches. -/
def windowSpan (edit : EditSpec) (first last : FileLine) (shift : Shift) :
    Except Unplaced Span :=
  let stop := if endsWithNewline edit then last.stop else last.contentEnd
  let ending := if startsWith crlf first.ending then crlf else lf
  match reindent edit.newString shift ending with
  | some new => .ok ⟨first.start, stop, new⟩
  | none => .error .unshiftable

/-- The loop over the windows; `skip` lines of the last match are still to
pass. -/
def windowsFrom (edit : EditSpec) (wanted : List Text) (skip : Nat) :
    List FileLine → Except Unplaced (List Span)
  | [] => .ok []
  | first :: rest =>
      if 0 < skip then windowsFrom edit wanted (skip - 1) rest
      else if wanted.length ≤ (first :: rest).length then
        let window := (first :: rest).take wanted.length
        match windowShift none window wanted with
        | none => windowsFrom edit wanted 0 rest
        | some shift => do
            let span ← windowSpan edit first (window.getLast?.getD first)
              shift
            let spans ← windowsFrom edit wanted (wanted.length - 1) rest
            return span :: spans
      else .ok []

/-- The whitespace-normalised places of an edit. -/
def normalised (text : Text) (edit : EditSpec) :
    Except Unplaced (List Span) :=
  let wanted := wantedLines edit
  if wanted.all List.isEmpty then .ok []
  else windowsFrom edit wanted 0 (fileLines text)

/-- The exact places, or when there are none the normalised ones. -/
def candidates (text : Text) (edit : EditSpec) :
    Except Unplaced (List Span × EditMatch) :=
  let exact := exactSpans text edit
  if exact.isEmpty then do
    let spans ← normalised text edit
    return (spans, .normalised)
  else .ok (exact, .exact)

/-- The places an edit applies in a text. -/
def locate (text : Text) (edit : EditSpec) :
    Except Unplaced (List Span × EditMatch) := do
  let (spans, how) ← candidates text edit
  match spans.length with
  | 0 => .error .absent
  | 1 => .ok (spans, how)
  | count =>
      if !edit.replaceAll then .error (.ambiguous count how)
      else .ok (spans, how)

-- ============================================================ several edits

/-- What the caller is told about an edit without a place. -/
def unplacedError (label : String) (path : Text) : Unplaced → ToolError
  | .absent =>
      ⟨.conflict, label ++ "old_string does not occur in " ++ quoted path⟩
  | .unshiftable =>
      ⟨.conflict, label ++ "old_string matches " ++ quoted path
        ++ " only with less indentation, and new_string has lines indented "
        ++ "less than that difference; resend old_string and new_string "
        ++ "with the file's indentation"⟩
  | .ambiguous count how =>
      ⟨.conflict, label ++ "old_string occurs " ++ toString count
        ++ " times in " ++ quoted path
        ++ (if how = .normalised then " (whitespace-normalised)" else "")
        ++ "; add context to make it unique, or set replace_all"⟩

/-- Each edit's spans with its index, and how each edit matched. -/
def placedFrom (text path : Text) (label : Nat → String) (index : Nat) :
    List EditSpec →
      Except ToolError (List (Nat × Span) × List EditMatch)
  | [] => .ok ([], [])
  | edit :: rest =>
      if edit.oldString.isEmpty then
        .error ⟨.invalidArgument, label index
          ++ "old_string is empty; use write_file to create a file"⟩
      else if edit.oldString = edit.newString then
        .error ⟨.invalidArgument, label index
          ++ "old_string and new_string are the same"⟩
      else
        match locate text edit with
        | .error unplaced =>
            .error (unplacedError (label index) path unplaced)
        | .ok (found, how) => do
            let (spans, hows) ← placedFrom text path label (index + 1) rest
            return (found.map (index, ·) ++ spans, how :: hows)

/-- The first two neighbours that overlap, by their edits. -/
def firstOverlap : List (Nat × Span) → Option (Nat × Nat)
  | before :: after :: rest =>
      if after.2.start < before.2.stop then
        some (if before.1 < after.1 then (before.1, after.1)
          else (after.1, before.1))
      else firstOverlap (after :: rest)
  | _ => none

/-- `place_edits`: every edit against the original, refused when one is
missing, ambiguous or overlaps another. -/
def placeEdits (text path : Text) (edits : List EditSpec)
    (label : Nat → String) :
    Except ToolError (List (Nat × Span) × List EditMatch) := do
  let (spans, hows) ← placedFrom text path label 0 edits
  let sorted := spans.insertionSort fun a b => a.2.start ≤ b.2.start
  match firstOverlap sorted with
  | some (low, high) =>
      .error ⟨.conflict, "edits[" ++ toString low ++ "] and edits["
        ++ toString high ++ "] overlap in " ++ quoted path
        ++ "; nothing was changed"⟩
  | none => .ok (sorted, hows)

-- ================================================================= splicing

/-- The lines a range of a text covers, from 0 and without the last. -/
def lineRange (text : Text) (start stop : Nat) : Nat × Nat :=
  let first := (text.take start).count '\n'
  if stop ≤ start then (first, first)
  else
    let upto := text.take stop
    let lines := upto.count '\n'
    (first, if upto.getLast? = some '\n' then lines else lines + 1)

/-- The loop of `splice`; `newlines` are in what was written so far. -/
def spliceFrom (text : Text) (position newlines : Nat) :
    List Span → Text × List (Nat × Nat)
  | [] => (text.drop position, [])
  | span :: rest =>
      let kept := (text.take span.start).drop position
      let first := newlines + kept.count '\n'
      let after := first + span.new.count '\n'
      let range :=
        if span.new.isEmpty then (first, first)
        else if span.new.getLast? = some '\n' then (first, after)
        else (first, after + 1)
      let (out, ranges) := spliceFrom text span.stop after rest
      (kept ++ (span.new ++ out), range :: ranges)

/-- The text with the spans replaced, and the lines they take in it. -/
def splice (text : Text) (spans : List Span) : Text × List (Nat × Nat) :=
  spliceFrom text 0 0 spans

end Elitea.LocalTools.Edit
