/-
JSON values as a program holds them, and their compact text.

A number is kept as its text, and the members of an object in insertion
order (`Members`). `text` is what `serde_json` writes: no white space, and
in strings only quotes, backslashes and control characters escaped. `size`
is the length of a text in bytes; two arrays one after another take one
byte less than the two alone (`size_array_append`).
-/
import Elitea.Lib.Members
import Elitea.Lib.Utf8
import Mathlib.Algebra.BigOperators.Group.List.Basic
import Mathlib.Algebra.GroupWithZero.Nat

namespace Elitea.Lib

variable {t : List Char} {items : List Value}

/-- A text in UTF-8. -/
def utf8Bytes (t : List Char) : List UInt8 :=
  t.flatMap String.utf8EncodeChar

/-- A JSON value. -/
inductive Value where
  | null
  | bool (b : Bool)
  | number (text : List Char)
  | string (text : List Char)
  | array (items : List Value)
  | object (fields : List (List Char × Value))

namespace Value

-- ================================================================= the text

/-- A hexadecimal digit. -/
def hexChar (n : Nat) : Char := Char.ofNat (Utf8.hexCode n)

/-- A character inside a string. -/
def escapeChar (c : Char) : List Char :=
  if c = '"' then ['\\', '"']
  else if c = '\\' then ['\\', '\\']
  else if c.toNat = 0x08 then ['\\', 'b']
  else if c.toNat = 0x09 then ['\\', 't']
  else if c.toNat = 0x0A then ['\\', 'n']
  else if c.toNat = 0x0C then ['\\', 'f']
  else if c.toNat = 0x0D then ['\\', 'r']
  else if c.toNat < 0x20 then
    ['\\', 'u', '0', '0', hexChar (c.toNat / 16), hexChar (c.toNat % 16)]
  else [c]

/-- A string with its quotes. -/
def quoted (t : List Char) : List Char :=
  '"' :: (t.flatMap escapeChar ++ ['"'])

mutual

/-- The compact text of a value. -/
def text : Value → List Char
  | .null => ['n', 'u', 'l', 'l']
  | .bool b => if b then ['t', 'r', 'u', 'e'] else ['f', 'a', 'l', 's', 'e']
  | .number t => t
  | .string t => quoted t
  | .array items => '[' :: (itemsText items ++ [']'])
  | .object fields => '{' :: (fieldsText fields ++ ['}'])

def itemsText : List Value → List Char
  | [] => []
  | v :: rest => v.text ++ laterItems rest

/-- The items after the first, each with the comma before it. -/
def laterItems : List Value → List Char
  | [] => []
  | v :: rest => ',' :: (v.text ++ laterItems rest)

def fieldsText : List (List Char × Value) → List Char
  | [] => []
  | (k, v) :: rest => quoted k ++ ':' :: (v.text ++ laterFields rest)

/-- The members after the first. -/
def laterFields : List (List Char × Value) → List Char
  | [] => []
  | (k, v) :: rest =>
      ',' :: (quoted k ++ ':' :: (v.text ++ laterFields rest))

end

-- ================================================================= the size

/-- The bytes of a text. -/
def textSize (t : List Char) : Nat := (t.map Char.utf8Size).sum

/-- The bytes of a value's compact text. -/
def size (v : Value) : Nat := textSize v.text

@[simp] theorem textSize_cons (c : Char) (t : List Char) :
    textSize (c :: t) = c.utf8Size + textSize t := by
  unfold textSize
  rw [List.map_cons, List.sum_cons]

@[simp] theorem textSize_append (t t' : List Char) :
    textSize (t ++ t') = textSize t + textSize t' := by
  unfold textSize
  rw [List.map_append, List.sum_append]

/-- A character a string shows as it is. -/
def Plain (c : Char) : Prop := c ≠ '"' ∧ c ≠ '\\' ∧ 0x20 ≤ c.toNat

theorem laterItems_append (items more : List Value) :
    laterItems (items ++ more) = laterItems items ++ laterItems more := by
  induction items with
  | nil => rfl
  | cons v items ih =>
      rw [List.cons_append, laterItems, laterItems, ih, List.cons_append,
        List.append_assoc]

theorem itemsText_append (h : items ≠ []) (more : List Value) :
    itemsText (items ++ more) = itemsText items ++ laterItems more := by
  cases items with
  | nil => exact absurd rfl h
  | cons v items =>
      rw [List.cons_append, itemsText, itemsText, laterItems_append,
        List.append_assoc]

theorem textSize_laterItems (h : items ≠ []) :
    textSize (laterItems items) = textSize (itemsText items) + 1 := by
  cases items with
  | nil => exact absurd rfl h
  | cons v items =>
      rw [laterItems, itemsText, textSize_cons]
      show 1 + _ = _
      omega

theorem size_array (items : List Value) :
    (array items).size = textSize (itemsText items) + 2 := by
  unfold size
  rw [text, textSize_cons, textSize_append]
  show 1 + (_ + 1) = _
  omega

/-- One comma replaces two brackets. -/
theorem size_array_append {more : List Value} (h : items ≠ []) (h' : more ≠ [])
    : (array (items ++ more)).size
      = (array items).size + (array more).size - 1 := by
  rw [size_array, size_array, size_array, itemsText_append h,
    textSize_append, textSize_laterItems h']
  omega

/-- An array is not shorter than its front. -/
theorem size_array_le (items more : List Value) :
    (array items).size ≤ (array (items ++ more)).size := by
  by_cases h : items = []
  · subst h
    rw [List.nil_append, size_array, size_array]
    exact Nat.add_le_add_right (Nat.zero_le _) 2
  · rw [size_array, size_array, itemsText_append h, textSize_append]
    omega

end Value

end Elitea.Lib
