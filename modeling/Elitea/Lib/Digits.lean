/-
Decimal digit strings: their value, and the one spelling without zeros at
either end.

`value` reads a string of digits. Zeros in front do not change it and a
zero at the end multiplies it by ten (`value_trimFront`,
`value_trimBack`). A nonempty string that starts and ends with another
digit is `Normal`: no other normal string and exponent denote the same
number (`Normal.unique`), because its value has no factor ten and as many
digits as the string.
-/
import Mathlib.Algebra.Order.Field.Rat
import Mathlib.Data.List.DropRight
import Mathlib.Data.Rat.Cast.Order
import Mathlib.Tactic.FieldSimp
import Mathlib.Tactic.Ring

namespace Elitea.Lib.Digits

-- =============================================================== one digit

/-- Only decimal digits. -/
def All (ds : List Char) : Prop := ∀ c ∈ ds, c.isDigit = true

/-- The value of a digit. -/
def digit (c : Char) : Nat := c.toNat - '0'.toNat

theorem isDigit_bounds {c : Char} (h : c.isDigit = true) :
    48 ≤ c.toNat ∧ c.toNat ≤ 57 := by
  unfold Char.isDigit at h
  obtain ⟨hlow, hhigh⟩ := Bool.and_eq_true_iff.1 h
  exact ⟨of_decide_eq_true hlow, of_decide_eq_true hhigh⟩

theorem digit_lt {c : Char} (h : c.isDigit = true) : digit c < 10 := by
  have hb := isDigit_bounds h
  show c.toNat - 48 < 10
  omega

theorem digit_injective {c c' : Char} (h : c.isDigit = true)
    (h' : c'.isDigit = true) (heq : digit c = digit c') : c = c' := by
  have hb := isDigit_bounds h
  have hb' := isDigit_bounds h'
  have hnat : c.toNat = c'.toNat := by
    change c.toNat - 48 = c'.toNat - 48 at heq
    omega
  rw [← Char.ofNat_toNat c, hnat, Char.ofNat_toNat]

theorem digit_pos {c : Char} (h : c.isDigit = true) (hne : c ≠ '0') :
    0 < digit c := by
  rcases Nat.eq_zero_or_pos (digit c) with hz | hpos
  · have hzero : digit c = digit '0' := hz
    exact absurd (digit_injective h (by decide) hzero) hne
  · exact hpos

-- =============================================================== the value

/-- The number a string of digits denotes. -/
def value (ds : List Char) : Nat := Nat.ofDigitChars 10 ds 0

variable {ds ds' : List Char} {c : Char}

@[simp] theorem value_nil : value [] = 0 := rfl

theorem value_append (ds ds' : List Char) :
    value (ds ++ ds') = value ds * 10 ^ ds'.length + value ds' := by
  unfold value
  rw [Nat.ofDigitChars_append, Nat.ofDigitChars_eq_ofDigitChars_zero]
  ring

theorem value_singleton (c : Char) : value [c] = digit c := by
  show 10 * 0 + (c.toNat - '0'.toNat) = digit c
  rw [Nat.mul_zero, Nat.zero_add]
  rfl

theorem value_cons (c : Char) (ds : List Char) :
    value (c :: ds) = digit c * 10 ^ ds.length + value ds := by
  rw [← List.singleton_append, value_append, value_singleton]

theorem value_concat (ds : List Char) (c : Char) :
    value (ds ++ [c]) = value ds * 10 + digit c := by
  rw [value_append, value_singleton, List.length_singleton, Nat.pow_one]

theorem All.tail (h : All (c :: ds)) : All ds :=
  fun x hx => h x (List.mem_cons_of_mem c hx)

theorem All.append (h : All ds) (h' : All ds') : All (ds ++ ds') :=
  fun x hx => (List.mem_append.1 hx).elim (h x) (h' x)

theorem value_lt (h : All ds) : value ds < 10 ^ ds.length := by
  induction ds with
  | nil => exact Nat.one_pos
  | cons c ds ih =>
      have hc := digit_lt (h c List.mem_cons_self)
      have hds := ih h.tail
      rw [value_cons, List.length_cons, Nat.pow_succ]
      have hmul : (digit c + 1) * 10 ^ ds.length ≤ 10 * 10 ^ ds.length :=
        Nat.mul_le_mul_right _ hc
      rw [Nat.succ_mul] at hmul
      omega

/-- Strings of one length with one value are the same. -/
theorem eq_of_value (h : All ds) (h' : All ds')
    (hlen : ds.length = ds'.length) (hv : value ds = value ds') :
    ds = ds' := by
  induction ds generalizing ds' with
  | nil => exact (List.length_eq_zero_iff.1 hlen.symm).symm
  | cons c ds ih =>
      cases ds' with
      | nil => cases hlen
      | cons c' ds' =>
          have hrest : ds.length = ds'.length := Nat.succ.inj hlen
          rw [value_cons, value_cons, ← hrest] at hv
          have hds := value_lt h.tail
          have hds' := value_lt h'.tail
          rw [← hrest] at hds'
          -- the leading digits are the quotients by the same power
          have hpow : 0 < 10 ^ ds.length := Nat.pow_pos (by decide)
          have hquot := congrArg (· / 10 ^ ds.length) hv
          simp only [Nat.mul_comm _ (10 ^ ds.length),
            Nat.mul_add_div hpow, Nat.div_eq_of_lt hds,
            Nat.div_eq_of_lt hds', Nat.add_zero] at hquot
          have hc := digit_injective (h c List.mem_cons_self)
            (h' c' List.mem_cons_self) hquot
          subst hc
          rw [ih h.tail h'.tail hrest (Nat.add_left_cancel hv)]

-- ================================================================ the zeros

/-- Without the zeros in front. -/
def trimFront (ds : List Char) : List Char := ds.dropWhile (· == '0')

/-- Without the zeros at the end. -/
def trimBack (ds : List Char) : List Char := ds.rdropWhile (· == '0')

theorem value_trimFront (ds : List Char) :
    value (trimFront ds) = value ds := by
  induction ds with
  | nil => rfl
  | cons c ds ih =>
      unfold trimFront
      rw [List.dropWhile_cons]
      split
      next hc =>
        rw [eq_of_beq hc, value_cons]
        show value (trimFront ds) = 0 * _ + _
        rw [ih, Nat.zero_mul, Nat.zero_add]
      next => rfl

theorem length_trimBack_le (ds : List Char) :
    (trimBack ds).length ≤ ds.length :=
  (List.rdropWhile_prefix _ ds).length_le

/-- Each zero at the end is a factor ten. -/
theorem value_trimBack (ds : List Char) :
    value ds
      = value (trimBack ds) * 10 ^ (ds.length - (trimBack ds).length) := by
  induction ds using List.reverseRecOn with
  | nil => rfl
  | append_singleton ds c ih =>
      unfold trimBack
      by_cases hc : (c == '0') = true
      · rw [List.rdropWhile_concat_pos (· == '0') ds c hc, value_concat,
          eq_of_beq hc]
        have hle := length_trimBack_le ds
        change value ds * 10 + 0 = value (trimBack ds)
          * 10 ^ ((ds ++ ['0']).length - (trimBack ds).length)
        rw [List.length_append, List.length_singleton,
          Nat.succ_sub hle, Nat.pow_succ, ← Nat.mul_assoc, ← ih, Nat.add_zero]
      · rw [List.rdropWhile_concat_neg (· == '0') ds c hc, Nat.sub_self,
          Nat.pow_zero, Nat.mul_one]

/-- Digits with no zero at either end. -/
structure Normal (ds : List Char) : Prop where
  all : All ds
  head : ds.head? ≠ some '0'
  last : ds.getLast? ≠ some '0'

theorem All.sublist (h : All ds) (hs : ds'.Sublist ds) : All ds' :=
  fun c hc => h c (hs.subset hc)

/-- Trimming both ends makes digits normal. -/
theorem normal_trim (h : All ds) : Normal (trimBack (trimFront ds)) := by
  have hback : trimBack (trimFront ds) <+: trimFront ds :=
    List.rdropWhile_prefix _ _
  refine ⟨?_, ?_, ?_⟩
  · exact h.sublist (hback.sublist.trans (List.dropWhile_sublist _))
  · intro hhead
    -- the first digit is the first of `trimFront ds`
    obtain ⟨rest, hrest⟩ := hback
    have hfront : (trimFront ds).head? = some '0' := by
      rw [← hrest, List.head?_append, hhead]
      rfl
    have hnot := List.head?_dropWhile_not (· == '0') ds
    unfold trimFront at hfront
    rw [hfront] at hnot
    cases hnot
  · intro hlast
    have hne : trimBack (trimFront ds) ≠ [] := by
      intro hnil
      rw [hnil] at hlast
      cases hlast
    rw [List.getLast?_eq_some_getLast hne] at hlast
    have hlast := Option.some.inj hlast
    have hnot := List.rdropWhile_last_not (· == '0') (trimFront ds) hne
    exact hnot (beq_of_eq hlast)

/-- A normal value has no factor ten. -/
theorem Normal.not_dvd (h : Normal ds) (hne : ds ≠ []) :
    ¬10 ∣ value ds := by
  intro hdvd
  have hsplit := List.dropLast_concat_getLast hne
  have hmem := List.getLast_mem hne
  have hpos : 0 < digit (ds.getLast hne) := by
    refine digit_pos (h.all _ hmem) fun hz => h.last ?_
    rw [List.getLast?_eq_some_getLast hne, hz]
  have hlt := digit_lt (h.all _ hmem)
  rw [← hsplit, value_concat] at hdvd
  omega

/-- A normal value has as many digits as its string. -/
theorem Normal.le_value (h : Normal ds) (hne : ds ≠ []) :
    10 ^ (ds.length - 1) ≤ value ds := by
  cases ds with
  | nil => exact absurd rfl hne
  | cons c ds =>
      have hpos : 0 < digit c := by
        refine digit_pos (h.all c List.mem_cons_self) fun hz => h.head ?_
        rw [hz]
        rfl
      rw [value_cons, List.length_cons, Nat.add_sub_cancel]
      exact Nat.le_add_right_of_le (Nat.le_mul_of_pos_left _ hpos)

theorem Normal.length_eq (h : Normal ds) (h' : Normal ds') (hne : ds ≠ [])
    (hne' : ds' ≠ []) (hv : value ds = value ds') :
    ds.length = ds'.length := by
  have hlow := h.le_value hne
  have hlow' := h'.le_value hne'
  have hlt := value_lt h.all
  have hlt' := value_lt h'.all
  have hlen := List.length_pos_iff.2 hne
  have hlen' := List.length_pos_iff.2 hne'
  have hle := (Nat.pow_lt_pow_iff_right (by decide : 1 < 10)).1
    (Nat.lt_of_le_of_lt (hv ▸ hlow) hlt')
  have hle' := (Nat.pow_lt_pow_iff_right (by decide : 1 < 10)).1
    (Nat.lt_of_le_of_lt (hv ▸ hlow') hlt)
  omega

-- ================================================================ uniqueness

/-- A number without a factor ten, times a power of ten, in one way. -/
theorem eq_of_scaled {m m' : Nat} {e e' : Int} (hm : ¬10 ∣ m)
    (hle : e ≤ e') (h : (m : ℚ) * 10 ^ e = m' * 10 ^ e') :
    m = m' ∧ e = e' := by
  obtain ⟨k, rfl⟩ := Int.le.dest hle
  have hten : (10 : ℚ) ≠ 0 := by norm_num
  rw [zpow_add₀ hten, ← mul_assoc, mul_right_comm, zpow_natCast] at h
  have hmul : (m : ℚ) = m' * 10 ^ k :=
    mul_right_cancel₀ (zpow_ne_zero e hten) h
  have hnat : m = m' * 10 ^ k := by exact_mod_cast hmul
  cases k with
  | zero => exact ⟨by rw [hnat, Nat.pow_zero, Nat.mul_one], by simp⟩
  | succ k =>
      refine absurd ?_ hm
      rw [hnat, Nat.pow_succ]
      exact (Dvd.intro_left _ rfl).mul_left m'

/-- The normal spelling of a positive number is unique. -/
theorem Normal.unique {e e' : Int} (h : Normal ds) (h' : Normal ds')
    (hne : ds ≠ []) (hne' : ds' ≠ [])
    (hv : (value ds : ℚ) * 10 ^ e = value ds' * 10 ^ e') :
    ds = ds' ∧ e = e' := by
  have hboth : value ds = value ds' ∧ e = e' := by
    rcases le_total e e' with hle | hle
    · exact eq_of_scaled (h.not_dvd hne) hle hv
    · obtain ⟨hval, he⟩ := eq_of_scaled (h'.not_dvd hne') hle hv.symm
      exact ⟨hval.symm, he.symm⟩
  obtain ⟨hval, he⟩ := hboth
  exact ⟨eq_of_value h.all h'.all (h.length_eq h' hne hne' hval) hval, he⟩

end Elitea.Lib.Digits
