/-
JSON texts as Go's `encoding/json` reads and writes them, over plain
bytes.

# Reading

`Scanner` is the package's scanner: a mode, and a stack that says what
encloses the current position, at most ten thousand levels deep. `tokens`
is a run of it that keeps what it passed: each string with the place it
stands in (key or value) and the bytes between its quotes, and every other
byte but white space as it is. A text is valid if the run reaches its end
(`valid`). What a document says is its `Event`s: the tokens with their
strings decoded.

# Strings

`unquote` decodes what stands between the quotes. Bytes that are no UTF-8
and lone surrogates become U+FFFD. `quoteBody` writes a text so that it is
read back, up to that replacement.
-/
import Elitea.Lib.Utf8
import Elitea.Lib.Walk

namespace Elitea.Lib.JsonText

open Utf8

-- ==================================================================== bytes

def quote : UInt8 := 0x22
def backslash : UInt8 := 0x5C
def comma : UInt8 := 0x2C
def colon : UInt8 := 0x3A

def isSpace (b : UInt8) : Bool :=
  b == 0x20 || b == 0x09 || b == 0x0A || b == 0x0D

def isDigit (b : UInt8) : Bool := 0x30 ≤ b && b ≤ 0x39

/-- The value of a hexadecimal digit. -/
def hexVal (b : UInt8) : Option Nat :=
  if isDigit b then some (b.toNat - 0x30)
  else if 0x61 ≤ b && b ≤ 0x66 then some (b.toNat - 0x61 + 10)
  else if 0x41 ≤ b && b ≤ 0x46 then some (b.toNat - 0x41 + 10)
  else none

/-- The digit of a value below sixteen. -/
def hexDigit (n : Nat) : UInt8 := (hexCode n).toUInt8

-- ================================================================== strings

/-- Where the scanner stands inside a string: between characters, after a
backslash, or with so many hexadecimal digits to come. -/
inductive InString where
  | plain
  | escape
  | hex (left : Nat)
  deriving DecidableEq, Repr

/-- The character a short escape stands for. -/
def shortEscape (b : UInt8) : Option UInt8 :=
  if b = quote then some quote
  else if b = backslash then some backslash
  else if b = 0x2F then some 0x2F
  else if b = 0x62 then some 0x08
  else if b = 0x66 then some 0x0C
  else if b = 0x6E then some 0x0A
  else if b = 0x72 then some 0x0D
  else if b = 0x74 then some 0x09
  else none

/-- One byte inside a string, its closing quote apart. -/
def InString.step : InString → UInt8 → Option InString
  | plain, b =>
      if b = quote then none
      else if b = backslash then some escape
      else if b < 0x20 then none
      else some plain
  | escape, b =>
      if b = 0x75 then some (hex 4)
      else if (shortEscape b).isSome then some plain
      else none
  | hex 0, _ => none
  | hex (left + 1), b =>
      if (hexVal b).isSome then
        if left = 0 then some plain else some (hex left)
      else none

def InString.run : InString → Bytes → Option InString
  | q, [] => some q
  | q, b :: rest => (q.step b).bind fun q' => q'.run rest

/-- `getu4`, after the backslash and the `u`. -/
def hex4 : Bytes → Option Nat
  | a :: b :: c :: d :: _ => do
      let a ← hexVal a
      let b ← hexVal b
      let c ← hexVal c
      let d ← hexVal d
      return ((a * 16 + b) * 16 + c) * 16 + d
  | _ => none

def isSurrogate (r : Nat) : Bool := 0xD800 ≤ r && r < 0xE000

/-- The code point of a surrogate pair, whose second half is the escape
at the front of the rest. -/
def pairWith (high : Nat) (rest : Bytes) : Option Nat :=
  match rest with
  | b :: u :: more =>
      if b = backslash ∧ u = 0x75 then
        (hex4 more).bind fun low =>
          if high < 0xDC00 ∧ 0xDC00 ≤ low ∧ low < 0xE000 then
            some ((high - 0xD800) * 1024 + (low - 0xDC00) + 0x10000)
          else none
      else none
  | _ => none

/-- The character at the front, or the replacement for a byte that is
none. -/
def coerceRune (s : Bytes) : Bytes :=
  match decode? s with
  | some (_, k) => s.take k
  | none => encode runeError

/-- What the front of a string's body stands for, and how many bytes of
it that takes. -/
def unquoteRune (s : Bytes) : Option (Bytes × Nat) :=
  match s with
  | [] => none
  | b :: rest =>
      if b = backslash then
        match rest with
        | [] => none
        | e :: more =>
            if e = 0x75 then
              (hex4 more).bind fun r =>
                if isSurrogate r then
                  match pairWith r (more.drop 4) with
                  | some full => some (encode full, 12)
                  | none => some (encode runeError, 6)
                else some (encode r, 6)
            else (shortEscape e).map fun c => ([c], 2)
      else if b = quote ∨ b < 0x20 then none
      else some (coerceRune s, size s)

def unquoteAdvance (s : Bytes) : Nat :=
  ((unquoteRune s).map Prod.snd).getD 1

/-- `unquote`, of what stands between the quotes. -/
def unquote (body : Bytes) : Option Bytes :=
  ((rests unquoteAdvance body).mapM fun s =>
    (unquoteRune s).map Prod.fst).map List.flatten

/-- A byte below 0x80, as it is written in a string. -/
def quoteByte (b : UInt8) : Bytes :=
  if b = quote ∨ b = backslash then [backslash, b]
  else if b = 0x08 then [backslash, 0x62]
  else if b = 0x0C then [backslash, 0x66]
  else if b = 0x0A then [backslash, 0x6E]
  else if b = 0x0D then [backslash, 0x72]
  else if b = 0x09 then [backslash, 0x74]
  else if b < 0x20 then
    [backslash, 0x75, 0x30, 0x30, hexDigit (b.toNat / 16),
      hexDigit (b.toNat % 16)]
  else [b]

/-- The front of a text, as it is written in a string. -/
def quoteRune (s : Bytes) : Bytes :=
  match s with
  | [] => []
  | b :: _ =>
      if b < 0x80 then quoteByte b
      else match decode? s with
        | none => encode runeError
        | some (r, k) =>
            if r = 0x2028 ∨ r = 0x2029 then
              [backslash, 0x75, 0x32, 0x30, 0x32, hexDigit (r % 16)]
            else s.take k

/-- A text as it is written between quotes, without HTML escaping. -/
def quoteBody (s : Bytes) : Bytes :=
  ((rests size s).map quoteRune).flatten

/-- A text with every byte that is no UTF-8 replaced. -/
def coerce (s : Bytes) : Bytes :=
  ((rests size s).map coerceRune).flatten

-- ================================================================== scanner

/-- What encloses the current position, and what of it comes next. -/
inductive Frame where
  | objectKey
  | objectValue
  | arrayValue
  deriving DecidableEq, Repr

inductive Mode where
  | beginValueOrEmpty
  | beginValue
  | beginStringOrEmpty
  | beginString
  | endValue
  | endTop
  | string (q : InString)
  | minus
  | digits
  | zero
  | dot
  | fraction
  | exponent
  | exponentSign
  | exponentDigits
  | word (rest : Bytes)
  deriving DecidableEq, Repr

structure Scanner where
  mode : Mode
  stack : List Frame
  deriving DecidableEq, Repr

def maxNestingDepth : Nat := 10000

def push (stack : List Frame) (frame : Frame) (mode : Mode) :
    Option Scanner :=
  if stack.length < maxNestingDepth then some ⟨mode, frame :: stack⟩
  else none

/-- Close the innermost frame. -/
def pop (outer : List Frame) : Scanner :=
  ⟨if outer.isEmpty then .endTop else .endValue, outer⟩

/-- A byte after a value. -/
def endValue (stack : List Frame) (b : UInt8) : Option Scanner :=
  match stack with
  | [] => if isSpace b then some ⟨.endTop, []⟩ else none
  | frame :: outer =>
      if isSpace b then some ⟨.endValue, stack⟩
      else match frame with
        | .objectKey =>
            if b = colon then some ⟨.beginValue, .objectValue :: outer⟩
            else none
        | .objectValue =>
            if b = comma then some ⟨.beginString, .objectKey :: outer⟩
            else if b = 0x7D then some (pop outer)
            else none
        | .arrayValue =>
            if b = comma then some ⟨.beginValue, stack⟩
            else if b = 0x5D then some (pop outer)
            else none

def beginValue (stack : List Frame) (b : UInt8) : Option Scanner :=
  if isSpace b then some ⟨.beginValue, stack⟩
  else if b = 0x7B then push stack .objectKey .beginStringOrEmpty
  else if b = 0x5B then push stack .arrayValue .beginValueOrEmpty
  else if b = quote then some ⟨.string .plain, stack⟩
  else if b = 0x2D then some ⟨.minus, stack⟩
  else if b = 0x30 then some ⟨.zero, stack⟩
  else if b = 0x74 then some ⟨.word [0x72, 0x75, 0x65], stack⟩
  else if b = 0x66 then some ⟨.word [0x61, 0x6C, 0x73, 0x65], stack⟩
  else if b = 0x6E then some ⟨.word [0x75, 0x6C, 0x6C], stack⟩
  else if isDigit b then some ⟨.digits, stack⟩
  else none

def beginString (stack : List Frame) (b : UInt8) : Option Scanner :=
  if isSpace b then some ⟨.beginString, stack⟩
  else if b = quote then some ⟨.string .plain, stack⟩
  else none

/-- After the integer part of a number. -/
def afterInteger (stack : List Frame) (b : UInt8) : Option Scanner :=
  if b = 0x2E then some ⟨.dot, stack⟩
  else if b = 0x65 ∨ b = 0x45 then some ⟨.exponent, stack⟩
  else endValue stack b

/-- `scanner.step`. -/
def Scanner.step (m : Scanner) (b : UInt8) : Option Scanner :=
  match m.mode with
  | .beginValueOrEmpty =>
      if isSpace b then some m
      else if b = 0x5D then endValue m.stack b
      else beginValue m.stack b
  | .beginValue => beginValue m.stack b
  | .beginStringOrEmpty =>
      if isSpace b then some m
      else if b = 0x7D then endValue (.objectValue :: m.stack.tail) b
      else beginString m.stack b
  | .beginString => beginString m.stack b
  | .endValue => endValue m.stack b
  | .endTop => if isSpace b then some m else none
  | .string q =>
      if q = .plain ∧ b = quote then some ⟨.endValue, m.stack⟩
      else (q.step b).map fun q' => ⟨.string q', m.stack⟩
  | .minus =>
      if b = 0x30 then some ⟨.zero, m.stack⟩
      else if isDigit b then some ⟨.digits, m.stack⟩
      else none
  | .digits =>
      if isDigit b then some m else afterInteger m.stack b
  | .zero => afterInteger m.stack b
  | .dot => if isDigit b then some ⟨.fraction, m.stack⟩ else none
  | .fraction =>
      if isDigit b then some m
      else if b = 0x65 ∨ b = 0x45 then some ⟨.exponent, m.stack⟩
      else endValue m.stack b
  | .exponent =>
      if b = 0x2B ∨ b = 0x2D then some ⟨.exponentSign, m.stack⟩
      else if isDigit b then some ⟨.exponentDigits, m.stack⟩
      else none
  | .exponentSign =>
      if isDigit b then some ⟨.exponentDigits, m.stack⟩ else none
  | .exponentDigits =>
      if isDigit b then some m else endValue m.stack b
  | .word rest =>
      match rest with
      | [] => none
      | c :: more =>
          if b = c then
            some ⟨if more.isEmpty then .endValue else .word more, m.stack⟩
          else none

/-- `scanner.eof`: the text may end here. -/
def Scanner.atEnd (m : Scanner) : Bool :=
  m.mode == .endTop
    || (m.step 0x20).any fun m' => m'.mode == .endTop

def Scanner.inside (m : Scanner) : Bool :=
  match m.mode with
  | .string _ => true
  | _ => false

def Scanner.start : Scanner := ⟨.beginValue, []⟩

-- =================================================================== tokens

inductive Token where
  | mark (b : UInt8)
  | string (key : Bool) (start : Nat) (body : Bytes)
  deriving DecidableEq, Repr

/-- The string at the scanner's position is a key. -/
def Scanner.atKey (m : Scanner) : Bool :=
  m.stack.head? == some .objectKey

/-- The tokens of the rest of a text, whose front is at position `i`. In
a string, `start` is where it opened and `body` what was read of it. -/
def tokensFrom (m : Scanner) (i start : Nat) (body : Bytes) :
    Bytes → Option (List Token)
  | [] => if m.atEnd then some [] else none
  | b :: rest =>
      match m.step b with
      | none => none
      | some m' =>
          if m.inside then
            if m'.inside then tokensFrom m' (i + 1) start (body ++ [b]) rest
            else (tokensFrom m' (i + 1) 0 [] rest).map
              (.string m.atKey start body :: ·)
          else if m'.inside then tokensFrom m' (i + 1) i [] rest
          else if isSpace b then tokensFrom m' (i + 1) 0 [] rest
          else (tokensFrom m' (i + 1) 0 [] rest).map (.mark b :: ·)

/-- The tokens of a text, if it is valid. -/
def tokens (raw : Bytes) : Option (List Token) :=
  tokensFrom .start 0 0 [] raw

/-- `json.Valid`. -/
def valid (raw : Bytes) : Bool := (tokens raw).isSome

/-- What a document says. -/
inductive Event where
  | mark (b : UInt8)
  | key (name : Bytes)
  | text (value : Bytes)
  deriving DecidableEq, Repr

def Token.event : Token → Event
  | mark b => .mark b
  | string true _ body => .key ((unquote body).getD [])
  | string false _ body => .text ((unquote body).getD [])

/-- The decoding of a text, if it is valid. -/
def decode (raw : Bytes) : Option (List Event) :=
  (tokens raw).map fun toks => toks.map Token.event

-- ================================================= strings in the token run

section Run

variable {q : InString} {stack : List Frame} {i start : Nat}
  {body : Bytes} {toks : List Token}

theorem run_append (q : InString) (a b : Bytes) :
    q.run (a ++ b) = (q.run a).bind fun q' => q'.run b := by
  induction a generalizing q with
  | nil => rfl
  | cons c a ih =>
      rw [List.cons_append, InString.run, InString.run]
      cases q.step c with
      | none => rfl
      | some q' => exact ih q'

/-- The closing quote of a string. -/
theorem tokens_close (rest : Bytes) :
    tokensFrom ⟨.string .plain, stack⟩ i start body (quote :: rest)
      = (tokensFrom ⟨.endValue, stack⟩ (i + 1) 0 [] rest).map
          (.string (Scanner.atKey ⟨.endValue, stack⟩) start body :: ·) :=
  rfl

/-- A byte of a string. -/
theorem tokens_inside {b : UInt8} {q' : InString} (h : q.step b = some q')
    (rest : Bytes) :
    tokensFrom ⟨.string q, stack⟩ i start body (b :: rest)
      = tokensFrom ⟨.string q', stack⟩ (i + 1) start (body ++ [b])
          rest := by
  have hstep : Scanner.step ⟨.string q, stack⟩ b
      = some ⟨.string q', stack⟩ := by
    unfold Scanner.step
    dsimp only
    rw [if_neg, h]
    · rfl
    · rintro ⟨rfl, rfl⟩
      cases h
  rw [tokensFrom, hstep]
  rfl

/-- The run through a whole string. -/
theorem tokens_body {front : Bytes} (h : q.run front = some .plain)
    (rest : Bytes) :
    tokensFrom ⟨.string q, stack⟩ i start body (front ++ quote :: rest)
      = (tokensFrom ⟨.endValue, stack⟩ (i + front.length + 1) 0 []
          rest).map (.string (Scanner.atKey ⟨.endValue, stack⟩) start
            (body ++ front) :: ·) := by
  induction front generalizing q i body with
  | nil =>
      cases h
      rw [List.append_nil]
      exact tokens_close rest
  | cons b front ih =>
      rw [InString.run] at h
      cases hq : q.step b with
      | none => rw [hq] at h; cases h
      | some q' =>
          rw [hq] at h
          have hpos : i + 1 + front.length + 1
              = i + (front.length + 1) + 1 := by omega
          rw [List.cons_append, tokens_inside hq, ih h, List.length_cons,
            List.append_assoc, hpos]
          rfl

/-- A string that is open is closed later on. -/
theorem tokens_string {s : Bytes}
    (h : tokensFrom ⟨.string q, stack⟩ i start body s = some toks) :
    ∃ front rest later, s = front ++ quote :: rest
      ∧ q.run front = some .plain
      ∧ tokensFrom ⟨.endValue, stack⟩ (i + front.length + 1) 0 [] rest
        = some later
      ∧ toks = .string (Scanner.atKey ⟨.endValue, stack⟩) start
          (body ++ front) :: later := by
  induction s generalizing q i body with
  | nil =>
      rw [tokensFrom] at h
      split at h
      next hend =>
        exfalso
        revert hend
        cases q with
        | plain => exact nofun
        | escape => exact nofun
        | hex left => cases left <;> exact nofun
      next => cases h
  | cons b s ih =>
      by_cases hclose : q = .plain ∧ b = quote
      · obtain ⟨rfl, rfl⟩ := hclose
        rw [tokens_close] at h
        obtain ⟨later, hlater, rfl⟩ := Option.map_eq_some_iff.1 h
        exact ⟨[], s, later, rfl, rfl, hlater, by rw [List.append_nil]⟩
      · cases hq : q.step b with
        | none =>
            have hstep : Scanner.step ⟨.string q, stack⟩ b = none := by
              unfold Scanner.step
              dsimp only
              rw [if_neg hclose, hq]
              rfl
            rw [tokensFrom, hstep] at h
            cases h
        | some q' =>
            rw [tokens_inside hq] at h
            obtain ⟨front, rest, later, rfl, hrun, hlater, rfl⟩ := ih h
            refine ⟨b :: front, rest, later, rfl, ?_, ?_, ?_⟩
            · rw [InString.run, hq]
              exact hrun
            · have hpos : i + (b :: front).length + 1
                  = i + 1 + front.length + 1 := by
                rw [List.length_cons]
                omega
              rw [hpos]
              exact hlater
            · rw [List.append_assoc]
              rfl

end Run

-- ================================================ the text outside strings

/-- The scanner stands outside a string, and a word it reads holds no
quote. -/
structure Scanner.Outside (m : Scanner) : Prop where
  inside : m.inside = false
  word : ∀ rest, m.mode = .word rest → quote ∉ rest

/-- Neither in a string nor in a word. -/
def Mode.between : Mode → Bool
  | string _ => false
  | word _ => false
  | _ => true

theorem outside_of_between {mode : Mode} {stack : List Frame}
    (h : mode.between = true) : Scanner.Outside ⟨mode, stack⟩ := by
  cases mode with
  | string q => cases h
  | word rest => cases h
  | _ => exact ⟨rfl, fun _ hw => nomatch hw⟩

/-- What a byte outside strings may lead to: a quote opens a string, any
other byte stays outside. -/
def Opens (b : UInt8) (stack : List Frame) (m : Scanner) : Prop :=
  (b = quote → m = ⟨.string .plain, stack⟩) ∧ (b ≠ quote → m.Outside)

section Opens

variable {b : UInt8} {stack : List Frame} {m m' : Scanner}

theorem pop_outside (outer : List Frame) : (pop outer).Outside := by
  unfold pop
  split <;> exact outside_of_between rfl

theorem push_outside {frame : Frame} {mode : Mode}
    (hm : mode.between = true) (h : push stack frame mode = some m') :
    m'.Outside := by
  obtain ⟨-, h⟩ := Option.ite_none_right_eq_some.1 h
  cases h
  exact outside_of_between hm

theorem word_outside {rest : Bytes} (hq : quote ∉ rest) :
    Scanner.Outside ⟨.word rest, stack⟩ :=
  ⟨rfl, fun _ h => Mode.word.inj h ▸ hq⟩

theorem endValue_outside (h : endValue stack b = some m') : m'.Outside := by
  unfold endValue at h
  repeat' split at h
  all_goals cases h
  all_goals first | exact pop_outside _ | exact outside_of_between rfl

theorem beginValue_outside (hb : b ≠ quote)
    (h : beginValue stack b = some m') : m'.Outside := by
  unfold beginValue at h
  rw [if_neg hb] at h
  repeat' split at h
  all_goals first
    | exact push_outside rfl h
    | (cases h; exact outside_of_between rfl)
    | (cases h; exact word_outside (by decide))
    | cases h

theorem beginString_outside (hb : b ≠ quote)
    (h : beginString stack b = some m') : m'.Outside := by
  unfold beginString at h
  rw [if_neg hb] at h
  split at h <;> cases h
  exact outside_of_between rfl

theorem afterInteger_outside (h : afterInteger stack b = some m') :
    m'.Outside := by
  unfold afterInteger at h
  split at h
  next => cases h; exact outside_of_between rfl
  split at h
  next => cases h; exact outside_of_between rfl
  next => exact endValue_outside h

theorem Scanner.Outside.step_outside (ho : m.Outside) (hb : b ≠ quote)
    (h : m.step b = some m') : m'.Outside := by
  obtain ⟨mode, stack⟩ := m
  unfold Scanner.step at h
  cases mode with
  | string q => exact absurd ho.inside.symm Bool.false_ne_true
  | word rest =>
      cases rest with
      | nil => cases h
      | cons c more =>
          have hq := ho.word (c :: more) rfl
          obtain ⟨-, h⟩ := Option.ite_none_right_eq_some.1 h
          cases h
          split
          next => exact outside_of_between rfl
          next => exact word_outside fun hm => hq (List.mem_cons_of_mem c hm)
  | _ =>
      dsimp only at h
      repeat' split at h
      all_goals first
        | exact endValue_outside h
        | exact beginValue_outside hb h
        | exact beginString_outside hb h
        | exact afterInteger_outside h
        | (cases h; exact outside_of_between rfl)
        | cases h

theorem endValue_quote (stack : List Frame) : endValue stack quote = none := by
  rcases stack with - | ⟨- | - | -, outer⟩ <;> rfl

/-- Outside strings a quote comes only where one may open. -/
theorem Scanner.Outside.step_quote (ho : m.Outside)
    (h : m.step quote = some m') : m' = ⟨.string .plain, m.stack⟩ := by
  obtain ⟨mode, stack⟩ := m
  cases mode with
  | string q => exact absurd ho.inside.symm Bool.false_ne_true
  | word rest =>
      cases rest with
      | nil => cases h
      | cons c more =>
          obtain ⟨hc, -⟩ := Option.ite_none_right_eq_some.1 h
          exact absurd (hc ▸ List.mem_cons_self) (ho.word (c :: more) rfl)
  | beginValueOrEmpty | beginValue | beginStringOrEmpty | beginString =>
      exact (Option.some.inj h).symm
  | endValue | digits | zero | fraction | exponentDigits =>
      cases (endValue_quote stack).symm.trans h
  | endTop | minus | dot | exponent | exponentSign => cases h

/-- One step outside strings. -/
theorem Scanner.Outside.step (ho : m.Outside) (h : m.step b = some m') :
    Opens b m.stack m' :=
  ⟨fun hb => ho.step_quote (hb ▸ h), fun hb => ho.step_outside hb h⟩

end Opens

end Elitea.Lib.JsonText
