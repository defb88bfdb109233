/-
What the edit tools share: their errors, the texts of lines, the ending a
file mostly has, and the ways a line of a file may match a wanted one
(libs/rust/local-tools/src/patch.rs, line_ending.rs,
apply_patch/seek_sequence.rs).

`Pass` is how far a match went: exactly, without the white space at the
end, without the white space around, or with typographic punctuation read
as ASCII.
-/
import Elitea.Lib.Lines
import Elitea.Lib.Fallible

namespace Elitea.LocalTools

open Lib
open Lib.Lines

-- =================================================================== errors

inductive ErrorCode
  | invalidArgument
  | unsupported
  | conflict
deriving DecidableEq, Repr

structure ToolError where
  code : ErrorCode
  message : String
deriving DecidableEq, Repr

/-- A text between backquotes. -/
def quoted (t : Text) : String := "`" ++ String.ofList t ++ "`"

-- ==================================================================== texts

def startsWith (front t : Text) : Bool := front.isPrefixOf t

/-- `strip_prefix`. -/
def stripFront (front t : Text) : Option Text :=
  if startsWith front t then some (t.drop front.length) else none

/-- `split_once`, at the first place a pattern stands. -/
def splitOnce (pat : Text) : Text → Option (Text × Text)
  | [] => none
  | c :: rest =>
      if startsWith pat (c :: rest) then
        some ([], (c :: rest).drop pat.length)
      else (splitOnce pat rest).map fun p => (c :: p.1, p.2)

-- ==================================================================== lines

/-- One line of a hunk. -/
inductive Line
  | context (text : Text)
  | remove (text : Text)
  | add (text : Text)
deriving DecidableEq, Repr

/-- The text a line has on the old side. -/
def Line.old? : Line → Option Text
  | .context text => some text
  | .remove text => some text
  | .add _ => none

/-- A text that comes from one line of a diff. -/
def Line.Flat : Line → Prop
  | .context t => '\n' ∉ t
  | .remove t => '\n' ∉ t
  | .add t => '\n' ∉ t

-- ================================================================== endings

/-- One of the two endings. -/
def IsEnding (e : Text) : Prop := e = lf ∨ e = crlf

/-- The number of `\r\n` in a text. -/
def countCrlf : Text → Nat
  | [] => 0
  | c :: rest =>
      (if c = '\r' ∧ rest.head? = some '\n' then 1 else 0) + countCrlf rest

/-- The ending most lines of a text have. -/
def usualEnding (text : Text) : Text :=
  let crlfs := countCrlf text
  if crlfs > text.count '\n' - crlfs then crlf else lf

-- ================================================================= matching

/-- How a run of lines matched. -/
inductive Pass
  | exact
  | trimEnd
  | trim
  | unicode
deriving DecidableEq, Repr

def Pass.asStr : Pass → String
  | .exact => "exact"
  | .trimEnd => "trim_end"
  | .trim => "trim"
  | .unicode => "unicode"

/-- A character, with typographic punctuation read as ASCII. -/
def asciiPunctuation (c : Char) : Char :=
  let n := c.toNat
  if (0x2010 ≤ n ∧ n ≤ 0x2015) ∨ n = 0x2212 then '-'
  else if 0x2018 ≤ n ∧ n ≤ 0x201B then '\''
  else if 0x201C ≤ n ∧ n ≤ 0x201F then '"'
  else if n = 0xA0 ∨ (0x2002 ≤ n ∧ n ≤ 0x200A) ∨ n = 0x202F ∨ n = 0x205F
      ∨ n = 0x3000 then ' '
  else c

def normalise (t : Text) : Text := (trim t).map asciiPunctuation

def Pass.lineMatches (pass : Pass) (have_ want : Text) : Bool :=
  match pass with
  | .exact => have_ = want
  | .trimEnd => Lines.trimEnd have_ = Lines.trimEnd want
  | .trim => Lines.trim have_ = Lines.trim want
  | .unicode => normalise have_ = normalise want

end Elitea.LocalTools
