/-
Exact numbers are exact.

# Spellings

A `JsonNumber` is a spelling of the JSON number grammar; its text and the
rational it denotes are read off its parts. `decimal_text` says what
`decimal` makes of the text: the parts come apart again, and all that
remains is the arithmetic of the exponent and the normal form.

# One form for each number

`normalForm` keeps the denoted number (`normalForm_value`) and leaves no
zero at either end, with one form for zero. Such a form is unique
(`Canonical.unique`, from the uniqueness of normal digits), so equal
numbers have equal forms whatever their spelling.

# Integers

A form with a negative exponent is no integer, since its digits have no
factor ten. One with more than twenty digits is past both integer types.
Otherwise the two loops of the source compute the magnitude and no `u128`
check fails (`integerOf_iff`).
-/
import Elitea.Graph.ExactNumber
import Mathlib.Algebra.Order.Field.Power
import Mathlib.Tactic.Linarith
import Mathlib.Tactic.NormNum

namespace Elitea.Graph

open Lib
open Lib.Digits

variable {d : Decimal} {m : Nat} {n : Int} {c : Char} {ds : List Char}

-- ================================================================ spellings

/-- An exponent as JSON writes it. -/
structure ExponentPart where
  mark : Char
  sign : Option Char
  digits : List Char
  mark_ok : mark = 'e' ∨ mark = 'E'
  sign_ok : ∀ c ∈ sign, c = '+' ∨ c = '-'
  digits_ne : digits ≠ []
  digits_all : All digits

def ExponentPart.text (x : ExponentPart) : List Char :=
  x.sign.toList ++ x.digits

def ExponentPart.value (x : ExponentPart) : Int :=
  if x.sign = some '-' then -(Digits.value x.digits : Int)
  else Digits.value x.digits

/-- A number as JSON writes it; no fraction is an empty one. -/
structure JsonNumber where
  negative : Bool
  integer : List Char
  fraction : List Char
  exponent : Option ExponentPart
  integer_ne : integer ≠ []
  integer_all : All integer
  integer_zero : integer.head? = some '0' → integer = ['0']
  fraction_all : All fraction

namespace JsonNumber

def mantissaText (a : JsonNumber) : List Char :=
  if a.fraction = [] then a.integer else a.integer ++ '.' :: a.fraction

def exponentText (a : JsonNumber) : List Char :=
  match a.exponent with
  | none => []
  | some x => x.mark :: x.text

def text (a : JsonNumber) : List Char :=
  (if a.negative then ['-'] else []) ++ (a.mantissaText ++ a.exponentText)

def exponentValue (a : JsonNumber) : Int :=
  match a.exponent with
  | none => 0
  | some x => x.value

/-- The rational number a spelling denotes. -/
def value (a : JsonNumber) : ℚ :=
  (if a.negative then -1 else 1)
    * (Digits.value a.integer
        + Digits.value a.fraction / 10 ^ a.fraction.length)
    * 10 ^ a.exponentValue

/-- Zeros at the end of the digits. -/
def zerosBack (a : JsonNumber) : Nat :=
  (trimFront (a.integer ++ a.fraction)).length
    - (trimBack (trimFront (a.integer ++ a.fraction))).length

/-- The exponent arithmetic stays within `i64`. -/
def Fits (a : JsonNumber) : Prop :=
  InI64 a.exponentValue ∧ InI64 a.fraction.length ∧ InI64 a.zerosBack
    ∧ InI64 (a.exponentValue - a.fraction.length)
    ∧ InI64 (a.exponentValue - a.fraction.length + a.zerosBack)

end JsonNumber

-- ============================================================= taking apart

theorem isDigits_iff {t : List Char} : isDigits t = true ↔ All t :=
  List.all_eq_true

theorem notMark_of_digit (h : c.isDigit = true) :
    (!isExponentMark c) = true := by
  unfold isExponentMark
  rcases Bool.eq_false_or_eq_true (c == 'e' || c == 'E') with hm | hm
  · rcases Bool.or_eq_true_iff.1 hm with he | he
    · rw [eq_of_beq he] at h
      cases h
    · rw [eq_of_beq he] at h
      cases h
  · rw [hm]
    rfl

theorem notPoint_of_digit (h : c.isDigit = true) : (c != '.') = true := by
  refine bne_iff_ne.2 ?_
  rintro rfl
  cases h

/-- A text is cut where the first character of a kind stands. -/
theorem cut_while {p : Char → Bool} {front : List Char} (back : List Char)
    (hfront : ∀ x ∈ front, p x = true) (hc : p c = false) :
    (front ++ c :: back).dropWhile p = c :: back
      ∧ (front ++ c :: back).takeWhile p = front := by
  constructor
  · rw [List.dropWhile_append_of_pos hfront, List.dropWhile_cons_of_neg]
    rw [hc]
    decide
  · rw [List.takeWhile_append_of_pos hfront, List.takeWhile_cons_of_neg,
      List.append_nil]
    rw [hc]
    decide

theorem dropWhile_all {p : Char → Bool} {t : List Char}
    (h : ∀ x ∈ t, p x = true) : t.dropWhile p = [] :=
  List.dropWhile_eq_nil_iff.2 h

theorem splitFraction_mantissa (a : JsonNumber) :
    splitFraction a.mantissaText = (a.integer, a.fraction) := by
  have hint : ∀ x ∈ a.integer, (x != '.') = true :=
    fun x hx => notPoint_of_digit (a.integer_all x hx)
  unfold splitFraction JsonNumber.mantissaText
  split_ifs with hf
  · rw [dropWhile_all hint, hf]
  · obtain ⟨hdrop, htake⟩ := cut_while a.fraction hint
      (by decide : ('.' != '.') = false)
    rw [hdrop, htake]

theorem mantissa_notMark (a : JsonNumber) :
    ∀ x ∈ a.mantissaText, (!isExponentMark x) = true := by
  intro x hx
  unfold JsonNumber.mantissaText at hx
  split_ifs at hx with hf
  · exact notMark_of_digit (a.integer_all x hx)
  · rcases List.mem_append.1 hx with hx | hx
    · exact notMark_of_digit (a.integer_all x hx)
    · rcases List.mem_cons.1 hx with rfl | hx
      · decide
      · exact notMark_of_digit (a.fraction_all x hx)

theorem splitExponent_text (a : JsonNumber) :
    splitExponent (a.mantissaText ++ a.exponentText)
      = (a.mantissaText, match a.exponent with
          | none => ['0']
          | some x => x.text) := by
  have hfront := mantissa_notMark a
  unfold splitExponent JsonNumber.exponentText
  cases a.exponent with
  | none => rw [List.append_nil, dropWhile_all hfront]
  | some x =>
      have hmark : (!isExponentMark x.mark) = false := by
        rcases x.mark_ok with h | h <;> rw [h] <;> decide
      obtain ⟨hdrop, htake⟩ := cut_while x.text hfront hmark
      rw [hdrop, htake]

theorem stripSign_digits (h : All ds) : stripSign ds = ds := by
  cases ds with
  | nil => rfl
  | cons c ds =>
      rw [stripSign, if_neg]
      rintro (rfl | rfl)
      · exact absurd (h _ List.mem_cons_self) (by decide)
      · exact absurd (h _ List.mem_cons_self) (by decide)

theorem stripSign_text (x : ExponentPart) : stripSign x.text = x.digits := by
  unfold ExponentPart.text
  cases hs : x.sign with
  | none => exact stripSign_digits x.digits_all
  | some c => exact if_pos (x.sign_ok c hs)

theorem head_minus (x : ExponentPart) :
    x.text.head? = some '-' ↔ x.sign = some '-' := by
  unfold ExponentPart.text
  cases hs : x.sign with
  | some c => exact Iff.rfl
  | none =>
      refine ⟨fun h => ?_, fun h => nomatch h⟩
      have hmem : '-' ∈ x.digits := List.mem_of_head? h
      exact absurd (x.digits_all _ hmem) (by decide)

theorem parseI64_text (x : ExponentPart) :
    parseI64 x.text = checkedI64 x.value := by
  have hne : x.digits.isEmpty = false :=
    List.isEmpty_eq_false_iff.2 x.digits_ne
  unfold parseI64
  rw [stripSign_text, hne, isDigits_iff.2 x.digits_all]
  unfold ExponentPart.value
  simp only [head_minus]
  rfl

theorem unsignedDecimal_text (a : JsonNumber) (negative : Bool) :
    unsignedDecimal negative (a.mantissaText ++ a.exponentText) = (do
      let exponent ← checkedI64 a.exponentValue
      normalForm negative a.integer a.fraction exponent) := by
  have hint : a.integer.isEmpty = false :=
    List.isEmpty_eq_false_iff.2 a.integer_ne
  unfold unsignedDecimal JsonNumber.exponentValue
  simp only [splitExponent_text, splitFraction_mantissa, hint,
    isDigits_iff.2 a.integer_all, isDigits_iff.2 a.fraction_all]
  cases a.exponent with
  | none => rfl
  | some x =>
      have hne : x.digits.isEmpty = false :=
        List.isEmpty_eq_false_iff.2 x.digits_ne
      simp only [stripSign_text, hne, isDigits_iff.2 x.digits_all,
        parseI64_text]
      rfl

/-- What `decimal` makes of a spelling. -/
theorem decimal_text (a : JsonNumber) :
    decimal a.text = (do
      let exponent ← checkedI64 a.exponentValue
      normalForm a.negative a.integer a.fraction exponent) := by
  rw [← unsignedDecimal_text]
  unfold JsonNumber.text
  cases hneg : a.negative with
  | true => rfl
  | false =>
      -- the first character is a digit
      cases hint : a.integer with
      | nil => exact absurd hint a.integer_ne
      | cons c ds =>
          have hc : c ≠ '-' := by
            rintro rfl
            exact absurd (a.integer_all '-' (hint ▸ List.mem_cons_self))
              (by decide)
          have htext : ∃ rest, a.mantissaText ++ a.exponentText
              = c :: rest := by
            unfold JsonNumber.mantissaText
            rw [hint]
            split_ifs
            · exact ⟨_, rfl⟩
            · exact ⟨_, rfl⟩
          obtain ⟨rest, htext⟩ := htext
          rw [htext]
          exact if_neg hc

-- ========================================================== the normal form

/-- The number a decimal denotes. -/
def Decimal.value (d : Decimal) : ℚ :=
  (if d.negative then -1 else 1) * Digits.value d.digits * 10 ^ d.exponent

/-- What `decimal` returns: normal digits, and one form of zero. -/
structure Canonical (d : Decimal) : Prop where
  normal : Normal d.digits
  zero : d.digits = [] → d = ⟨false, [], 0⟩

theorem ten_ne_zero : (10 : ℚ) ≠ 0 := by norm_num

theorem checkedI64_eq_ok {m : Int} :
    checkedI64 n = .ok m ↔ m = n ∧ InI64 n := by
  unfold checkedI64
  split_ifs with h
  · exact ⟨fun hm => ⟨(Except.ok.inj hm).symm, h⟩, fun hm => by rw [hm.1]⟩
  · exact ⟨fun hm => (nomatch hm), fun hm => absurd hm.2 h⟩

/-- The digits of a spelling, with and without the zeros at the ends. -/
theorem value_trim (ds : List Char) :
    (Digits.value ds : ℚ)
      = Digits.value (trimBack (trimFront ds))
        * 10 ^ ((trimFront ds).length
          - (trimBack (trimFront ds)).length) := by
  have h := value_trimBack (trimFront ds)
  rw [value_trimFront] at h
  exact_mod_cast h

theorem normalForm_value {negative : Bool} {integer fraction : List Char}
    {exponent : Int} (hint : All integer) (hfrac : All fraction)
    (h : normalForm negative integer fraction exponent = .ok d) :
    Canonical d
      ∧ d.value = (if negative then -1 else 1)
          * Digits.value (integer ++ fraction)
          * 10 ^ (exponent - fraction.length) := by
  have hnormal := normal_trim (hint.append hfrac)
  have hvalue := value_trim (integer ++ fraction)
  unfold normalForm at h
  dsimp only at h
  split at h
  next hempty =>
    obtain rfl := Except.ok.inj h
    have hnil := List.isEmpty_iff.1 hempty
    rw [hnil] at hvalue hnormal
    refine ⟨⟨hnormal, fun _ => rfl⟩, ?_⟩
    rw [hvalue]
    unfold Decimal.value
    simp
  next hempty =>
    obtain ⟨len, hlen, h⟩ := bind_eq_ok.1 h
    obtain ⟨trailing, htrailing, h⟩ := bind_eq_ok.1 h
    obtain ⟨shifted, hshifted, h⟩ := bind_eq_ok.1 h
    obtain ⟨final, hfinal, h⟩ := bind_eq_ok.1 h
    obtain rfl := Except.ok.inj h
    obtain ⟨rfl, -⟩ := checkedI64_eq_ok.1 hlen
    obtain ⟨rfl, -⟩ := checkedI64_eq_ok.1 htrailing
    obtain ⟨rfl, -⟩ := checkedI64_eq_ok.1 hshifted
    obtain ⟨rfl, -⟩ := checkedI64_eq_ok.1 hfinal
    refine ⟨⟨hnormal, fun hnil => ?_⟩, ?_⟩
    · exact absurd (List.isEmpty_iff.2 hnil) hempty
    · unfold Decimal.value
      dsimp only
      rw [hvalue, zpow_add₀ ten_ne_zero, zpow_natCast]
      ring

theorem normalForm_fits {a : JsonNumber} (h : a.Fits) (negative : Bool) :
    ∃ d, normalForm negative a.integer a.fraction a.exponentValue
      = .ok d := by
  obtain ⟨-, hlen, hzeros, hshift, hfinal⟩ := h
  unfold JsonNumber.zerosBack at hzeros hfinal
  unfold normalForm
  dsimp only
  split
  next => exact ⟨_, rfl⟩
  next =>
    rw [checkedI64_eq_ok.2 ⟨rfl, hlen⟩, ok_bind,
      checkedI64_eq_ok.2 ⟨rfl, hzeros⟩, ok_bind,
      checkedI64_eq_ok.2 ⟨rfl, hshift⟩, ok_bind,
      checkedI64_eq_ok.2 ⟨rfl, hfinal⟩, ok_bind]
    exact ⟨_, rfl⟩

/-- The digits before and after the point, as one number. -/
theorem JsonNumber.value_eq (a : JsonNumber) :
    a.value = (if a.negative then -1 else 1)
      * Digits.value (a.integer ++ a.fraction)
      * 10 ^ (a.exponentValue - a.fraction.length) := by
  have hpow : (10 : ℚ) ^ a.fraction.length ≠ 0 :=
    pow_ne_zero _ ten_ne_zero
  unfold JsonNumber.value
  rw [value_append, zpow_sub₀ ten_ne_zero, zpow_natCast]
  push_cast
  field_simp

/-- Accepted text is not rounded. -/
theorem decimal_exact {a : JsonNumber} (h : decimal a.text = .ok d) :
    Canonical d ∧ d.value = a.value := by
  rw [decimal_text] at h
  obtain ⟨exponent, hexp, h⟩ := bind_eq_ok.1 h
  obtain ⟨rfl, -⟩ := checkedI64_eq_ok.1 hexp
  obtain ⟨hcanonical, hvalue⟩ :=
    normalForm_value a.integer_all a.fraction_all h
  exact ⟨hcanonical, hvalue.trans a.value_eq.symm⟩

/-- Text within the exponent range is accepted. -/
theorem decimal_fits {a : JsonNumber} (h : a.Fits) :
    ∃ d, decimal a.text = .ok d := by
  obtain ⟨d, hd⟩ := normalForm_fits h a.negative
  refine ⟨d, ?_⟩
  rw [decimal_text, checkedI64_eq_ok.2 ⟨rfl, h.1⟩, ok_bind, hd]

-- ============================================================== uniqueness

theorem value_pos (h : Normal ds) (hne : ds ≠ []) :
    0 < (Digits.value ds : ℚ) := by
  have hpos : 0 < Digits.value ds :=
    Nat.lt_of_lt_of_le (Nat.pow_pos (by decide)) (h.le_value hne)
  exact_mod_cast hpos

/-- The magnitude of a form with digits is positive. -/
theorem magnitude_pos (h : Canonical d) (hne : d.digits ≠ []) :
    0 < (Digits.value d.digits : ℚ) * 10 ^ d.exponent :=
  mul_pos (value_pos h.normal hne) (zpow_pos (by norm_num) _)

theorem Decimal.value_eq (d : Decimal) :
    d.value = (if d.negative then -1 else 1)
      * (Digits.value d.digits * 10 ^ d.exponent) := by
  unfold Decimal.value
  rw [mul_assoc]

theorem value_eq_zero_iff (h : Canonical d) : d.value = 0 ↔ d.digits = [] := by
  constructor
  · intro hz
    by_contra hne
    have hpos := magnitude_pos h hne
    rw [d.value_eq] at hz
    rcases mul_eq_zero.1 hz with hs | hm
    · split_ifs at hs <;> norm_num at hs
    · exact absurd hm (ne_of_gt hpos)
  · intro hnil
    rw [h.zero hnil]
    unfold Decimal.value
    simp

/-- One number has one canonical form. -/
theorem Canonical.unique {d' : Decimal} (h : Canonical d) (h' : Canonical d')
    (hv : d.value = d'.value) : d = d' := by
  by_cases hne : d.digits = []
  · have hz' : d'.digits = [] := (value_eq_zero_iff h').1
      (hv ▸ (value_eq_zero_iff h).2 hne)
    rw [h.zero hne, h'.zero hz']
  · have hne' : d'.digits ≠ [] := fun hnil => hne
      ((value_eq_zero_iff h).1 (hv.trans ((value_eq_zero_iff h').2 hnil)))
    have hpos := magnitude_pos h hne
    have hpos' := magnitude_pos h' hne'
    -- the signs agree, so the magnitudes do
    have hsame : d.negative = d'.negative
        ∧ (Digits.value d.digits : ℚ) * 10 ^ d.exponent
          = Digits.value d'.digits * 10 ^ d'.exponent := by
      rw [d.value_eq, d'.value_eq] at hv
      cases hs : d.negative <;> cases hs' : d'.negative <;>
        rw [hs, hs'] at hv <;> simp only [if_true, if_false,
          Bool.false_eq_true] at hv
      · exact ⟨rfl, by linarith⟩
      · exfalso
        linarith
      · exfalso
        linarith
      · exact ⟨rfl, by linarith⟩
    obtain ⟨hdigits, hexp⟩ :=
      h.normal.unique h'.normal hne hne' hsame.2
    cases d
    cases d'
    simp only at hsame hdigits hexp
    rw [hsame.1, hdigits, hexp]

-- ================================================================ integers

theorem checkedU128_ok {n : Nat} (h : n < 2 ^ 128) :
    checkedU128 n = .ok n :=
  if_pos h

/-- The digit loop computes the value while `u128` holds the result. -/
theorem readMagnitude_ok (h : m * 10 ^ ds.length + Digits.value ds < 2 ^ 128) :
    readMagnitude m ds = .ok (m * 10 ^ ds.length + Digits.value ds) := by
  induction ds generalizing m with
  | nil => simp [readMagnitude]
  | cons c ds ih =>
      -- one round, and the same total for the rest
      have htotal : m * 10 ^ (c :: ds).length + Digits.value (c :: ds)
          = (m * 10 + digit c) * 10 ^ ds.length + Digits.value ds := by
        rw [value_cons, List.length_cons]
        ring
      rw [htotal] at h ⊢
      have hle : m * 10 + digit c ≤ (m * 10 + digit c) * 10 ^ ds.length :=
        Nat.le_mul_of_pos_right _ (Nat.pow_pos (by decide))
      rw [readMagnitude, checkedU128_ok (by omega), ok_bind,
        checkedU128_ok (by omega), ok_bind]
      exact ih h

theorem scaleMagnitude_ok {n : Nat} (h : m * 10 ^ n < 2 ^ 128) :
    scaleMagnitude m n = .ok (m * 10 ^ n) := by
  induction n generalizing m with
  | zero => simp [scaleMagnitude]
  | succ n ih =>
      have htotal : m * 10 ^ (n + 1) = m * 10 * 10 ^ n := by ring
      rw [htotal] at h ⊢
      have hle : m * 10 ≤ m * 10 * 10 ^ n :=
        Nat.le_mul_of_pos_right _ (Nat.pow_pos (by decide))
      rw [scaleMagnitude, checkedU128_ok (by omega), ok_bind]
      exact ih h

/-- Twenty digits are below `10 ^ 20`, which `u128` holds. -/
theorem scaled_lt (h : Canonical d)
    (hlen : d.digits.length + d.exponent.natAbs ≤ maxIntegerDigits) :
    Digits.value d.digits * 10 ^ d.exponent.natAbs < 10 ^ 20 := by
  have hlt := value_lt h.normal.all
  calc Digits.value d.digits * 10 ^ d.exponent.natAbs
      < 10 ^ d.digits.length * 10 ^ d.exponent.natAbs :=
        Nat.mul_lt_mul_of_pos_right hlt (Nat.pow_pos (by decide))
    _ = 10 ^ (d.digits.length + d.exponent.natAbs) := (Nat.pow_add ..).symm
    _ ≤ 10 ^ 20 := Nat.pow_le_pow_right (by decide) hlen

theorem integerOf_ok (h : Canonical d) (hexp : 0 ≤ d.exponent)
    (hlen : d.digits.length + d.exponent.natAbs ≤ maxIntegerDigits) :
    integerOf d = .ok (d.negative,
      Digits.value d.digits * 10 ^ d.exponent.natAbs) := by
  have hlt := scaled_lt h hlen
  have hbound : (10 : Nat) ^ 20 < 2 ^ 128 := by norm_num
  have hvalue : Digits.value d.digits
      ≤ Digits.value d.digits * 10 ^ d.exponent.natAbs :=
    Nat.le_mul_of_pos_right _ (Nat.pow_pos (by decide))
  have hread : readMagnitude 0 d.digits
      = .ok (Digits.value d.digits) := by
    rw [readMagnitude_ok (by omega), Nat.zero_mul, Nat.zero_add]
  unfold integerOf
  rw [if_neg (not_lt.2 hexp), if_neg (not_lt.2 hlen), hread, ok_bind,
    scaleMagnitude_ok (by omega), ok_bind]
  rfl

/-- An integer below `10 ^ 20` has no negative exponent and at most twenty
digits. -/
theorem form_of_small (h : Canonical d) (hm : m < 10 ^ 20)
    (hv : (Digits.value d.digits : ℚ) * 10 ^ d.exponent = m) :
    0 ≤ d.exponent
      ∧ d.digits.length + d.exponent.natAbs ≤ maxIntegerDigits
      ∧ Digits.value d.digits * 10 ^ d.exponent.natAbs = m := by
  by_cases hnil : d.digits = []
  · rw [h.zero hnil] at hv ⊢
    refine ⟨le_refl _, by decide, ?_⟩
    have hz : (m : ℚ) = 0 := by rw [← hv]; simp
    have hz : m = 0 := by exact_mod_cast hz
    rw [hz]
    rfl
  · have hexp : 0 ≤ d.exponent := by
      by_contra hneg
      -- the digits would be `m` with zeros after it
      have hscaled : (Digits.value d.digits : ℚ) * 10 ^ d.exponent
          = m * 10 ^ (0 : Int) := by rw [hv, zpow_zero, mul_one]
      have hzero := (eq_of_scaled (h.normal.not_dvd hnil) (by omega)
        hscaled).2
      omega
    obtain ⟨n, hn⟩ := Int.eq_ofNat_of_zero_le hexp
    have hnat : Digits.value d.digits * 10 ^ d.exponent.natAbs = m := by
      rw [hn, zpow_natCast] at hv
      rw [hn, Int.natAbs_natCast]
      exact_mod_cast hv
    refine ⟨hexp, ?_, hnat⟩
    have hlow := h.normal.le_value hnil
    have hlen := List.length_pos_iff.2 hnil
    have hpow : 10 ^ (d.digits.length - 1 + d.exponent.natAbs) < 10 ^ 20 :=
      calc 10 ^ (d.digits.length - 1 + d.exponent.natAbs)
          = 10 ^ (d.digits.length - 1) * 10 ^ d.exponent.natAbs :=
            Nat.pow_add ..
        _ ≤ Digits.value d.digits * 10 ^ d.exponent.natAbs :=
            Nat.mul_le_mul_right _ hlow
        _ = m := hnat
        _ < 10 ^ 20 := hm
    have hlt := (Nat.pow_lt_pow_iff_right (by decide : 1 < 10)).1 hpow
    unfold maxIntegerDigits
    omega

/-- What the integer path returns is the denoted number, and it returns
every one below `10 ^ 20`. -/
theorem integerOf_iff (h : Canonical d) :
    integerOf d = .ok (d.negative, m) ↔
      (Digits.value d.digits : ℚ) * 10 ^ d.exponent = m ∧ m < 10 ^ 20 := by
  constructor
  · intro hok
    have hexp : 0 ≤ d.exponent := by
      by_contra hneg
      unfold integerOf at hok
      rw [if_pos (not_le.1 hneg)] at hok
      cases hok
    have hlen : d.digits.length + d.exponent.natAbs
        ≤ maxIntegerDigits := by
      by_contra hlong
      unfold integerOf at hok
      rw [if_neg (not_lt.2 hexp), if_pos (not_le.1 hlong)] at hok
      cases hok
    rw [integerOf_ok h hexp hlen] at hok
    have hm := (Prod.mk.inj (Except.ok.inj hok)).2
    refine ⟨?_, hm ▸ scaled_lt h hlen⟩
    obtain ⟨n, hn⟩ := Int.eq_ofNat_of_zero_le hexp
    rw [← hm, hn, Int.natAbs_natCast, zpow_natCast]
    push_cast
    rfl
  · rintro ⟨hv, hm⟩
    obtain ⟨hexp, hlen, hnat⟩ := form_of_small h hm hv
    rw [integerOf_ok h hexp hlen, hnat]

theorem integerOf_negative {b : Bool} (h : integerOf d = .ok (b, m)) :
    b = d.negative := by
  unfold integerOf at h
  split at h
  next => cases h
  next =>
    split at h
    next => cases h
    next =>
      obtain ⟨read, -, hscale⟩ := bind_eq_ok.1 h
      obtain ⟨scaled, -, hpair⟩ := bind_eq_ok.1 hscale
      exact (Prod.mk.inj (Except.ok.inj hpair)).1.symm

/-- A form of an integer has its sign and magnitude. -/
theorem sign_of_integer (h : Canonical d) (hv : d.value = n) :
    d.negative = decide (n < 0)
      ∧ (Digits.value d.digits : ℚ) * 10 ^ d.exponent = n.natAbs := by
  rw [Nat.cast_natAbs, Int.cast_abs, ← hv]
  by_cases hnil : d.digits = []
  · have hz := (value_eq_zero_iff h).2 hnil
    have hn : n = 0 := by
      rw [hz] at hv
      exact_mod_cast hv.symm
    rw [hz, hn, h.zero hnil]
    simp
  · have hpos := magnitude_pos h hnil
    rw [d.value_eq] at hv ⊢
    cases hs : d.negative with
    | true =>
        rw [hs] at hv
        simp only [if_true] at hv ⊢
        have hneg : (n : ℚ) < 0 := by linarith
        have hn : n < 0 := by exact_mod_cast hneg
        refine ⟨(decide_eq_true hn).symm, ?_⟩
        rw [abs_of_neg (by linarith)]
        ring
    | false =>
        rw [hs] at hv
        simp only [Bool.false_eq_true, if_false] at hv ⊢
        have hnonneg : (0 : ℚ) < n := by linarith
        have hn : ¬n < 0 := by
          have : (0 : Int) < n := by exact_mod_cast hnonneg
          omega
        refine ⟨(decide_eq_false hn).symm, ?_⟩
        rw [abs_of_pos (by linarith)]
        ring

/-- The number a sign and a magnitude make. -/
theorem value_of_magnitude
    (hv : (Digits.value d.digits : ℚ) * 10 ^ d.exponent = m) :
    d.value = ((if d.negative then -(m : Int) else m : Int) : ℚ) := by
  rw [d.value_eq, hv]
  split_ifs <;> simp

theorem natAbs_lt_of_inI64 (h : InI64 n) : n.natAbs < 10 ^ 20 := by
  obtain ⟨hlow, hhigh⟩ := h
  have hbound : (2 : Int) ^ 63 < 10 ^ 20 := by norm_num
  omega

section Reading

variable {a : JsonNumber}

/-- The `i64` of a text is the integer it denotes. -/
theorem exactI64_iff (h : a.Fits) (n : Int) :
    exactI64 a.text = .ok n ↔ a.value = n ∧ InI64 n := by
  obtain ⟨d, hd⟩ := decimal_fits h
  obtain ⟨hcanonical, hvalue⟩ := decimal_exact hd
  unfold exactI64 exactInteger
  rw [hd, ok_bind, ← hvalue]
  constructor
  · intro hok
    obtain ⟨⟨b, m⟩, hint, hok⟩ := bind_eq_ok.1 hok
    obtain rfl := integerOf_negative hint
    obtain ⟨hmag, -⟩ := (integerOf_iff hcanonical).1 hint
    dsimp only at hok
    split at hok
    next => cases hok
    next =>
      have hsigned := value_of_magnitude hmag
      generalize (if d.negative then -(m : Int) else m) = signed at hok hsigned
      split at hok
      next hin =>
        obtain rfl := Except.ok.inj hok
        exact ⟨hsigned, hin⟩
      next => cases hok
  · rintro ⟨hv, hin⟩
    obtain ⟨hsign, hmag⟩ := sign_of_integer hcanonical hv
    have hlt := natAbs_lt_of_inI64 hin
    have hsmall : ¬2 ^ 127 ≤ n.natAbs := by
      have hbound : (10 : Nat) ^ 20 < 2 ^ 127 := by norm_num
      omega
    have hsigned : (if d.negative then -(n.natAbs : Int)
        else n.natAbs) = n := by
      rw [hsign]
      split_ifs with hn
      · have hn := of_decide_eq_true hn
        omega
      · have hn := of_decide_eq_false (Bool.eq_false_of_not_eq_true hn)
        omega
    rw [(integerOf_iff hcanonical).2 ⟨hmag, hlt⟩, ok_bind]
    dsimp only
    rw [if_neg hsmall, hsigned, if_pos hin]

/-- The `u64` of a text is the integer it denotes. -/
theorem exactU64_iff (h : a.Fits) (n : Nat) :
    exactU64 a.text = .ok n ↔ a.value = n ∧ n < 2 ^ 64 := by
  obtain ⟨d, hd⟩ := decimal_fits h
  obtain ⟨hcanonical, hvalue⟩ := decimal_exact hd
  unfold exactU64 exactInteger
  rw [hd, ok_bind, ← hvalue]
  constructor
  · intro hok
    obtain ⟨⟨b, m⟩, hint, hok⟩ := bind_eq_ok.1 hok
    obtain rfl := integerOf_negative hint
    obtain ⟨hmag, -⟩ := (integerOf_iff hcanonical).1 hint
    dsimp only at hok
    split at hok
    next => cases hok
    next hsign =>
      split at hok
      next hlt =>
        obtain rfl := Except.ok.inj hok
        refine ⟨?_, hlt⟩
        rw [value_of_magnitude hmag, if_neg hsign]
        simp
      next => cases hok
  · rintro ⟨hv, hlt⟩
    obtain ⟨hsign, hmag⟩ := sign_of_integer hcanonical
      (hv.trans (Int.cast_natCast n).symm)
    rw [Int.natAbs_natCast] at hmag
    have hbound : (2 : Nat) ^ 64 < 10 ^ 20 := by norm_num
    have hnonneg : d.negative = false := by
      rw [hsign]
      exact decide_eq_false (by omega)
    rw [(integerOf_iff hcanonical).2 ⟨hmag, by omega⟩, ok_bind]
    dsimp only
    rw [hnonneg, if_pos hlt]
    rfl

end Reading

-- ====================================================== written integers

theorem value_toDigits (n : Nat) : Digits.value (Nat.toDigits 10 n) = n :=
  Nat.ofDigitChars_ten_toDigits

/-- Only zero is written with a zero in front. -/
theorem toDigits_zero_front {n : Nat}
    (h : (Nat.toDigits 10 n).head? = some '0') :
    Nat.toDigits 10 n = ['0'] := by
  have hall : All (Nat.toDigits 10 n) := fun c hc =>
    Nat.isDigit_of_mem_toDigits (by decide) (by decide) hc
  have hvalue := value_toDigits n
  cases hds : Nat.toDigits 10 n with
  | nil => exact absurd hds Nat.toDigits_ne_nil
  | cons c rest =>
      rw [hds] at h hall hvalue
      obtain rfl : c = '0' := Option.some.inj h
      cases rest with
      | nil => rfl
      | cons d rest =>
          -- the rest alone has the value, in too few digits for it
          rw [value_cons] at hvalue
          change 0 * _ + Digits.value (d :: rest) = n at hvalue
          rw [Nat.zero_mul, Nat.zero_add] at hvalue
          have hlt := value_lt hall.tail
          rw [hvalue] at hlt
          have hlen := (Nat.length_toDigits_le_iff (by decide)
            (Nat.succ_pos _)).2 hlt
          rw [hds, List.length_cons] at hlen
          exact absurd hlen (Nat.not_succ_le_self _)

/-- An integer as it is printed. -/
def ofInt (n : Int) : JsonNumber where
  negative := decide (n < 0)
  integer := Nat.toDigits 10 n.natAbs
  fraction := []
  exponent := none
  integer_ne := Nat.toDigits_ne_nil
  integer_all := fun _ h =>
    Nat.isDigit_of_mem_toDigits (by decide) (by decide) h
  integer_zero := toDigits_zero_front
  fraction_all := fun _ h => nomatch h

theorem ofInt_text (n : Int) : (ofInt n).text = (toString n).toList := by
  cases n with
  | ofNat n =>
      show [] ++ (Nat.toDigits 10 n ++ []) = (Nat.repr n).toList
      rw [Nat.toList_repr, List.append_nil, List.nil_append]
  | negSucc n =>
      show (if decide (Int.negSucc n < 0) = true then ['-'] else [])
          ++ (Nat.toDigits 10 (n + 1) ++ [])
        = ("-" ++ Nat.repr (n + 1)).toList
      rw [if_pos (decide_eq_true (Int.negSucc_lt_zero n)),
        String.toList_append, Nat.toList_repr, List.append_nil]
      rfl

theorem ofInt_value (n : Int) : (ofInt n).value = n := by
  rw [JsonNumber.value_eq]
  show (if decide (n < 0) = true then (-1 : ℚ) else 1)
    * (Digits.value (Nat.toDigits 10 n.natAbs ++ []) : ℚ)
    * 10 ^ ((0 : Int) - ((0 : Nat) : Int)) = n
  rw [List.append_nil, value_toDigits, Nat.cast_natAbs, Int.cast_abs]
  by_cases h : n < 0
  · have hq : (n : ℚ) < 0 := by exact_mod_cast h
    rw [if_pos (decide_eq_true h), abs_of_neg hq]
    simp
  · have hq : (0 : ℚ) ≤ n := by exact_mod_cast not_lt.1 h
    rw [if_neg (by simpa using h), abs_of_nonneg hq]
    simp

theorem ofInt_fits (h : InI64 n) : (ofInt n).Fits := by
  have hlen : (Nat.toDigits 10 n.natAbs).length ≤ 20 :=
    (Nat.length_toDigits_le_iff (by decide) (by decide)).2
      (natAbs_lt_of_inI64 h)
  have hzeros : (ofInt n).zerosBack ≤ 20 := by
    unfold JsonNumber.zerosBack
    refine le_trans (Nat.sub_le _ _) (le_trans ?_ hlen)
    show (trimFront (Nat.toDigits 10 n.natAbs ++ [])).length ≤ _
    rw [List.append_nil]
    exact (List.dropWhile_sublist _).length_le
  have hexp : (ofInt n).exponentValue = 0 := rfl
  have hfrac : (ofInt n).fraction.length = 0 := rfl
  unfold JsonNumber.Fits InI64
  rw [hexp, hfrac]
  refine ⟨?_, ?_, ?_, ?_, ?_⟩ <;> constructor <;> norm_num <;> omega

/-- An `i64` is read back from its own text. -/
theorem exactI64_toString (h : InI64 n) :
    exactI64 (toString n).toList = .ok n := by
  rw [← ofInt_text]
  exact (exactI64_iff (ofInt_fits h) n).2 ⟨ofInt_value n, h⟩

/-- Number texts are read exactly: the form is the denoted number's, the
integer functions return the denoted integer, and no accepted text is
rounded. -/
theorem numbers_exact (a b : JsonNumber) :
    (∀ d, decimal a.text = .ok d → d.value = a.value)
      ∧ (a.Fits → b.Fits →
        ((∃ d, decimal a.text = .ok d)
          ∧ (decimal a.text = decimal b.text ↔ a.value = b.value)
          ∧ (∀ n : Int, exactI64 a.text = .ok n ↔ a.value = n ∧ InI64 n)
          ∧ ∀ n : Nat, exactU64 a.text = .ok n ↔
              a.value = n ∧ n < 2 ^ 64)) := by
  refine ⟨fun d hd => (decimal_exact hd).2, fun ha hb => ?_⟩
  obtain ⟨d, hd⟩ := decimal_fits ha
  obtain ⟨d', hd'⟩ := decimal_fits hb
  obtain ⟨hcanonical, hvalue⟩ := decimal_exact hd
  obtain ⟨hcanonical', hvalue'⟩ := decimal_exact hd'
  refine ⟨⟨d, hd⟩, ?_, exactI64_iff ha, exactU64_iff ha⟩
  rw [hd, hd', ← hvalue, ← hvalue']
  constructor
  · intro hsame
    rw [Except.ok.inj hsame]
  · intro hsame
    rw [hcanonical.unique hcanonical' hsame]

/-- The spelling `1.50e1`. -/
def fifteenScaled : JsonNumber where
  negative := false
  integer := ['1']
  fraction := ['5', '0']
  exponent := some ⟨'e', none, ['1'], by decide,
    (fun c hc => nomatch hc), by decide,
    isDigits_iff.1 rfl⟩
  integer_ne := by decide
  integer_all := isDigits_iff.1 rfl
  integer_zero := by decide
  fraction_all := isDigits_iff.1 rfl

theorem numbers_exact_fifteen :
    fifteenScaled.text = "1.50e1".toList ∧ fifteenScaled.Fits
      ∧ exactI64 fifteenScaled.text = .ok 15 := by
  have hfits : fifteenScaled.Fits := by
    unfold JsonNumber.Fits
    decide
  refine ⟨rfl, hfits, ?_⟩
  obtain ⟨-, -, hi64, -⟩ :=
    (numbers_exact fifteenScaled fifteenScaled).2 hfits hfits
  refine (hi64 15).2 ⟨?_, by decide⟩
  have hexp : fifteenScaled.exponentValue = 1 := rfl
  have hint : Digits.value fifteenScaled.integer = 1 := rfl
  have hfrac : Digits.value fifteenScaled.fraction = 50 := rfl
  have hlen : fifteenScaled.fraction.length = 2 := rfl
  have hneg : fifteenScaled.negative = false := rfl
  unfold JsonNumber.value
  rw [hexp, hint, hfrac, hlen, hneg]
  norm_num

end Elitea.Graph
