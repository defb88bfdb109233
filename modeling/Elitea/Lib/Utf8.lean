/-
UTF-8 over plain bytes, as a reader meets it that never refuses a text:
one character is taken from the front if a well-formed one stands there
(`decode?`), and one byte otherwise.

A well-formed character is known by its own bytes. So what follows it does
not matter (`decode?_self`), and a text cut at or after the end of a
character still begins with it (`decode?_take`): cutting a text between
characters changes none of them.
-/
import Mathlib.Data.List.Basic

namespace Elitea.Lib.Utf8

variable {a b : UInt8} {n : Nat}

abbrev Bytes := List UInt8

/-- A byte that continues a character. -/
def cont (b : UInt8) : Bool := 0x80 ≤ b && b ≤ 0xBF

/-- The second byte fits the first one: no overlong form, no surrogate,
nothing above the last code point. -/
def second (a b : UInt8) : Bool :=
  if a = 0xE0 then 0xA0 ≤ b && b ≤ 0xBF
  else if a = 0xED then 0x80 ≤ b && b ≤ 0x9F
  else if a = 0xF0 then 0x90 ≤ b && b ≤ 0xBF
  else if a = 0xF4 then 0x80 ≤ b && b ≤ 0x8F
  else cont b

/-- The payload of a continuing byte. -/
def low (b : UInt8) : Nat := b.toNat - 0x80

/-- A character of two bytes, after its first one. -/
def decodeTwo (a : UInt8) : Bytes → Option (Nat × Nat)
  | b :: _ =>
      if cont b then some ((a.toNat - 0xC0) * 64 + low b, 2) else none
  | [] => none

def decodeThree (a : UInt8) : Bytes → Option (Nat × Nat)
  | b :: c :: _ =>
      if second a b && cont c then
        some (((a.toNat - 0xE0) * 64 + low b) * 64 + low c, 3)
      else none
  | _ => none

def decodeFour (a : UInt8) : Bytes → Option (Nat × Nat)
  | b :: c :: d :: _ =>
      if second a b && cont c && cont d then
        some ((((a.toNat - 0xF0) * 64 + low b) * 64 + low c) * 64 + low d, 4)
      else none
  | _ => none

/-- The character at the front of a text, as its code point and its
length in bytes. -/
def decode? : Bytes → Option (Nat × Nat)
  | [] => none
  | a :: rest =>
      if a < 0x80 then some (a.toNat, 1)
      else if a < 0xC2 then none
      else if a < 0xE0 then decodeTwo a rest
      else if a < 0xF0 then decodeThree a rest
      else if a < 0xF5 then decodeFour a rest
      else none

/-- The bytes of a code point. -/
def encode (r : Nat) : Bytes :=
  if r < 0x80 then [r.toUInt8]
  else if r < 0x800 then
    [(0xC0 + r / 64).toUInt8, (0x80 + r % 64).toUInt8]
  else if r < 0x10000 then
    [(0xE0 + r / 4096).toUInt8, (0x80 + r / 64 % 64).toUInt8,
      (0x80 + r % 64).toUInt8]
  else
    [(0xF0 + r / 262144).toUInt8, (0x80 + r / 4096 % 64).toUInt8,
      (0x80 + r / 64 % 64).toUInt8, (0x80 + r % 64).toUInt8]

/-- The code of a hexadecimal digit, in lower case. -/
def hexCode (n : Nat) : Nat := if n < 10 then 0x30 + n else 0x61 + n - 10

/-- The replacement character. -/
def runeError : Nat := 0xFFFD

/-- How many bytes a reader takes from the front: the character's, or
one. -/
def size (s : Bytes) : Nat := ((decode? s).map Prod.snd).getD 1

/-- The code point a reader takes from the front. -/
def rune (s : Bytes) : Nat := ((decode? s).map Prod.fst).getD runeError

section Decode

variable {s : Bytes} {r k : Nat}

theorem decodeTwo_self (h : decodeTwo a s = some (r, k)) :
    k = 2 ∧ 1 ≤ s.length
      ∧ ∀ x, decodeTwo a (s.take 1 ++ x) = some (r, k) := by
  rcases s with - | ⟨b, tail⟩
  · cases h
  obtain ⟨hb, h⟩ := Option.ite_none_right_eq_some.1 h
  obtain ⟨rfl, rfl⟩ := Prod.mk.inj (Option.some.inj h)
  exact ⟨rfl, Nat.le_add_left 1 _, fun x => if_pos hb⟩

theorem decodeThree_self (h : decodeThree a s = some (r, k)) :
    k = 3 ∧ 2 ≤ s.length
      ∧ ∀ x, decodeThree a (s.take 2 ++ x) = some (r, k) := by
  rcases s with - | ⟨b, - | ⟨c, tail⟩⟩
  · cases h
  · cases h
  obtain ⟨hb, h⟩ := Option.ite_none_right_eq_some.1 h
  obtain ⟨rfl, rfl⟩ := Prod.mk.inj (Option.some.inj h)
  exact ⟨rfl, Nat.le_add_left 2 _, fun x => if_pos hb⟩

theorem decodeFour_self (h : decodeFour a s = some (r, k)) :
    k = 4 ∧ 3 ≤ s.length
      ∧ ∀ x, decodeFour a (s.take 3 ++ x) = some (r, k) := by
  rcases s with - | ⟨b, - | ⟨c, - | ⟨d, tail⟩⟩⟩
  · cases h
  · cases h
  · cases h
  obtain ⟨hb, h⟩ := Option.ite_none_right_eq_some.1 h
  obtain ⟨rfl, rfl⟩ := Prod.mk.inj (Option.some.inj h)
  exact ⟨rfl, Nat.le_add_left 3 _, fun x => if_pos hb⟩

/-- A character is nonempty, lies within the text and is known by its own
bytes. -/
theorem decode?_self (h : decode? s = some (r, k)) :
    0 < k ∧ k ≤ s.length ∧ ∀ x, decode? (s.take k ++ x) = some (r, k) := by
  cases s with
  | nil => cases h
  | cons a rest =>
      unfold decode? at h ⊢
      dsimp only at h
      split at h
      next h₁ =>
        cases h
        exact ⟨Nat.one_pos, Nat.le_add_left 1 _, fun x => if_pos h₁⟩
      next h₁ =>
        obtain ⟨h₂, h⟩ := Option.ite_none_left_eq_some.1 h
        split at h
        next h₃ =>
          obtain ⟨rfl, hlen, hx⟩ := decodeTwo_self h
          refine ⟨Nat.two_pos, Nat.succ_le_succ hlen, fun x => ?_⟩
          exact (if_neg h₁).trans ((if_neg h₂).trans
            ((if_pos h₃).trans (hx x)))
        next h₃ =>
          split at h
          next h₄ =>
            obtain ⟨rfl, hlen, hx⟩ := decodeThree_self h
            refine ⟨Nat.succ_pos 2, Nat.succ_le_succ hlen, fun x => ?_⟩
            exact (if_neg h₁).trans ((if_neg h₂).trans
              ((if_neg h₃).trans ((if_pos h₄).trans (hx x))))
          next h₄ =>
            obtain ⟨h₅, h⟩ := Option.ite_none_right_eq_some.1 h
            obtain ⟨rfl, hlen, hx⟩ := decodeFour_self h
            refine ⟨Nat.succ_pos 3, Nat.succ_le_succ hlen, fun x => ?_⟩
            exact (if_neg h₁).trans ((if_neg h₂).trans
              ((if_neg h₃).trans ((if_neg h₄).trans
                ((if_pos h₅).trans (hx x)))))

theorem cont_iff : cont b = true ↔ 0x80 ≤ b.toNat ∧ b.toNat ≤ 0xBF := by
  unfold cont
  rw [Bool.and_eq_true, decide_eq_true_eq, decide_eq_true_eq,
    UInt8.le_iff_toNat_le, UInt8.le_iff_toNat_le]
  exact Iff.rfl

theorem eq_iff_toNat : a = b ↔ a.toNat = b.toNat :=
  ⟨fun h => congrArg _ h, UInt8.toNat_inj.1⟩

/-- A second byte continues, and after the first bytes that need it, it
rules out the shorter form. -/
theorem second_bounds (h : second a b = true) :
    0x80 ≤ b.toNat ∧ b.toNat ≤ 0xBF
      ∧ (a.toNat = 0xE0 → 0xA0 ≤ b.toNat)
      ∧ (a.toNat = 0xF0 → 0x90 ≤ b.toNat) := by
  unfold second cont at h
  simp only [eq_iff_toNat, UInt8.reduceToNat] at h
  repeat' split at h
  all_goals
    simp only [Bool.and_eq_true, decide_eq_true_eq, UInt8.le_iff_toNat_le,
      UInt8.reduceToNat] at h
    omega

/-- A byte of a longer character. -/
theorem byte_eq (h : n = b.toNat) : n.toUInt8 = b := by
  rw [h]
  exact UInt8.ofNat_toNat

theorem decodeTwo_encode (hlo : 0xC2 ≤ a.toNat) (hhi : a.toNat < 0xE0)
    (h : decodeTwo a s = some (r, k)) :
    encode r = a :: s.take 1 ∧ ∀ b ∈ s.take 1, 0x80 ≤ b.toNat := by
  rcases s with - | ⟨b, tail⟩
  · cases h
  obtain ⟨hb, h⟩ := Option.ite_none_right_eq_some.1 h
  obtain ⟨rfl, rfl⟩ := Prod.mk.inj (Option.some.inj h)
  have hb := cont_iff.1 hb
  refine ⟨?_, fun x hx => List.mem_singleton.1 hx ▸ hb.1⟩
  unfold low encode
  rw [if_neg (by omega), if_pos (by omega), byte_eq (b := a) (by omega),
    byte_eq (b := b) (by omega)]
  rfl

theorem decodeThree_encode (hlo : 0xE0 ≤ a.toNat) (hhi : a.toNat < 0xF0)
    (h : decodeThree a s = some (r, k)) :
    encode r = a :: s.take 2 ∧ ∀ b ∈ s.take 2, 0x80 ≤ b.toNat := by
  rcases s with - | ⟨b, - | ⟨c, tail⟩⟩
  · cases h
  · cases h
  obtain ⟨hb, h⟩ := Option.ite_none_right_eq_some.1 h
  obtain ⟨rfl, rfl⟩ := Prod.mk.inj (Option.some.inj h)
  rw [Bool.and_eq_true] at hb
  have hs := second_bounds hb.1
  have hc := cont_iff.1 hb.2
  refine ⟨?_, List.forall_mem_cons.2 ⟨hs.1, fun x hx =>
    List.mem_singleton.1 hx ▸ hc.1⟩⟩
  unfold low encode
  rw [if_neg (by omega), if_neg (by omega), if_pos (by omega),
    byte_eq (b := a) (by omega), byte_eq (b := b) (by omega),
    byte_eq (b := c) (by omega)]
  rfl

theorem decodeFour_encode (hlo : 0xF0 ≤ a.toNat) (hhi : a.toNat < 0xF5)
    (h : decodeFour a s = some (r, k)) :
    encode r = a :: s.take 3 ∧ ∀ b ∈ s.take 3, 0x80 ≤ b.toNat := by
  rcases s with - | ⟨b, - | ⟨c, - | ⟨d, tail⟩⟩⟩
  · cases h
  · cases h
  · cases h
  obtain ⟨hb, h⟩ := Option.ite_none_right_eq_some.1 h
  obtain ⟨rfl, rfl⟩ := Prod.mk.inj (Option.some.inj h)
  rw [Bool.and_eq_true, Bool.and_eq_true] at hb
  have hs := second_bounds hb.1.1
  have hc := cont_iff.1 hb.1.2
  have hd := cont_iff.1 hb.2
  refine ⟨?_, List.forall_mem_cons.2 ⟨hs.1, List.forall_mem_cons.2
    ⟨hc.1, fun x hx => List.mem_singleton.1 hx ▸ hd.1⟩⟩⟩
  unfold low encode
  rw [if_neg (by omega), if_neg (by omega), if_neg (by omega),
    byte_eq (b := a) (by omega), byte_eq (b := b) (by omega),
    byte_eq (b := c) (by omega), byte_eq (b := d) (by omega)]
  rfl

/-- The bytes of a character are those of its code point, and above 0x7F
unless it is ASCII. -/
theorem encode_eq (h : decode? (a :: s) = some (r, k)) :
    encode r = (a :: s).take k
      ∧ (0x80 ≤ a.toNat → ∀ b ∈ (a :: s).take k, 0x80 ≤ b.toNat) := by
  -- a longer character: the first byte and those its length asks for
  have longer : ∀ n, k = n + 1 →
      (encode r = a :: s.take n ∧ ∀ b ∈ s.take n, 0x80 ≤ b.toNat) →
      encode r = (a :: s).take k
        ∧ (0x80 ≤ a.toNat → ∀ b ∈ (a :: s).take k, 0x80 ≤ b.toNat) := by
    rintro n rfl ⟨he, hb⟩
    exact ⟨he, fun ha => List.forall_mem_cons.2 ⟨ha, hb⟩⟩
  unfold decode? at h
  simp only [UInt8.lt_iff_toNat_lt, UInt8.reduceToNat] at h
  split at h
  next ha =>
    cases h
    refine ⟨?_, fun hge => absurd ha (Nat.not_lt.2 hge)⟩
    unfold encode
    rw [if_pos ha, byte_eq rfl]
    rfl
  next =>
    obtain ⟨h₂, h⟩ := Option.ite_none_left_eq_some.1 h
    split at h
    next h₃ =>
      exact longer 1 (decodeTwo_self h).1
        (decodeTwo_encode (Nat.not_lt.1 h₂) h₃ h)
    next h₃ =>
      split at h
      next h₄ =>
        exact longer 2 (decodeThree_self h).1
          (decodeThree_encode (Nat.not_lt.1 h₃) h₄ h)
      next h₄ =>
        obtain ⟨h₅, h⟩ := Option.ite_none_right_eq_some.1 h
        exact longer 3 (decodeFour_self h).1
          (decodeFour_encode (Nat.not_lt.1 h₄) h₅ h)

/-- What follows a character changes nothing. -/
theorem decode?_append (h : decode? s = some (r, k)) (x : Bytes) :
    decode? (s ++ x) = some (r, k) := by
  obtain ⟨-, -, hself⟩ := decode?_self h
  have split : s ++ x = s.take k ++ (s.drop k ++ x) := by
    rw [← List.append_assoc, List.take_append_drop]
  rw [split]
  exact hself _

theorem size_pos (s : Bytes) : 0 < size s := by
  unfold size
  cases h : decode? s with
  | none => exact Nat.one_pos
  | some rk => exact (decode?_self h).1

theorem size_le (hs : s ≠ []) : size s ≤ s.length := by
  unfold size
  cases h : decode? s with
  | none => exact List.length_pos_of_ne_nil hs
  | some rk => exact (decode?_self h).2.1

/-- An ASCII byte is a character. -/
theorem decode?_ascii (h : a < 0x80) (rest : Bytes) :
    decode? (a :: rest) = some (a.toNat, 1) := if_pos h

theorem size_ascii (h : a < 0x80) (rest : Bytes) : size (a :: rest) = 1 := by
  unfold size
  rw [decode?_ascii h]
  rfl

/-- A reader that meets a byte above 0x7F takes no ASCII byte with it. -/
theorem size_high (h : ¬ a < 0x80) (rest : Bytes) :
    ∀ b ∈ (a :: rest).take (size (a :: rest)), 0x80 ≤ b.toNat := by
  have ha : 0x80 ≤ a.toNat := by
    rw [UInt8.lt_iff_toNat_lt] at h
    exact Nat.not_lt.1 h
  unfold size
  cases hd : decode? (a :: rest) with
  | none => exact fun b hb => List.mem_singleton.1 hb ▸ ha
  | some rk => exact (encode_eq hd).2 ha

/-- A text cut at or after the end of its first character begins with the
same character. -/
theorem decode?_take (hn : size s ≤ n) : decode? (s.take n) = decode? s := by
  cases h : decode? s with
  | some rk =>
      obtain ⟨-, -, hself⟩ := decode?_self h
      have hk : rk.2 ≤ n := by
        unfold size at hn
        rw [h] at hn
        exact hn
      have split : s.take n = s.take rk.2 ++ (s.take n).drop rk.2 := by
        have := (List.take_append_drop rk.2 (s.take n)).symm
        rwa [List.take_take, Nat.min_eq_left hk] at this
      rw [split]
      exact hself _
  | none =>
      -- a character in the front part would be one in the whole
      cases ht : decode? (s.take n) with
      | none => rfl
      | some rk =>
          have := decode?_append ht (s.drop n)
          rw [List.take_append_drop, h] at this
          cases this

theorem size_take (hn : size s ≤ n) : size (s.take n) = size s := by
  unfold size at hn ⊢
  rw [decode?_take hn]

theorem rune_take (hn : size s ≤ n) : rune (s.take n) = rune s := by
  unfold rune
  rw [decode?_take hn]

end Decode

end Elitea.Lib.Utf8
