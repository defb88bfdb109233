/-
Numbers and length-prefixed vectors in network byte order: a reader for
each that takes it from the front of some bytes, the writer, and for each
reader what it takes (`u16_eq_some`, `vec16_eq_some`): exactly what the
writer writes, with any rest.
-/
import Mathlib.Algebra.BigOperators.Group.List.Basic

namespace Elitea.Lib.Wire

abbrev Bytes := List UInt8

-- ================================================================== numbers

def put16 (n : Nat) : Bytes := [UInt8.ofNat (n / 256), UInt8.ofNat n]

def put24 (n : Nat) : Bytes := UInt8.ofNat (n / 65536) :: put16 n

def u8 : Bytes → Option (Nat × Bytes)
  | a :: rest => some (a.toNat, rest)
  | _ => none

def u16 : Bytes → Option (Nat × Bytes)
  | a :: b :: rest => some (a.toNat * 256 + b.toNat, rest)
  | _ => none

def u24 : Bytes → Option (Nat × Bytes)
  | a :: b :: c :: rest =>
      some (a.toNat * 65536 + b.toNat * 256 + c.toNat, rest)
  | _ => none

theorem ofNat_eq {n : Nat} {a : UInt8} (h : n % 256 = a.toNat) :
    UInt8.ofNat n = a := by
  apply UInt8.toNat_inj.1
  rw [UInt8.toNat_ofNat']
  exact h

section Numbers

variable {b rest : Bytes} {n : Nat}

theorem u8_eq_some :
    u8 b = some (n, rest) ↔ n < 256 ∧ b = UInt8.ofNat n :: rest := by
  constructor
  · intro h
    cases b with
    | nil => cases h
    | cons a b =>
        obtain ⟨rfl, rfl⟩ := Prod.mk.inj (Option.some.inj h)
        exact ⟨a.toNat_lt, by rw [UInt8.ofNat_toNat]⟩
  · rintro ⟨hn, rfl⟩
    rw [u8, UInt8.toNat_ofNat', Nat.mod_eq_of_lt hn]

theorem u16_eq_some :
    u16 b = some (n, rest) ↔ n < 65536 ∧ b = put16 n ++ rest := by
  constructor
  · intro h
    match b, h with
    | a :: c :: b, h =>
        obtain ⟨rfl, rfl⟩ := Prod.mk.inj (Option.some.inj h)
        have ha := a.toNat_lt
        have hc := c.toNat_lt
        refine ⟨by omega, ?_⟩
        rw [put16, ofNat_eq (a := a) (by omega), ofNat_eq (a := c) (by omega)]
        rfl
  · rintro ⟨hn, rfl⟩
    show some ((UInt8.ofNat (n / 256)).toNat * 256 + (UInt8.ofNat n).toNat,
      rest) = _
    rw [UInt8.toNat_ofNat', UInt8.toNat_ofNat',
      Nat.mod_eq_of_lt (a := n / 256) (by omega)]
    congr 2
    omega

theorem u24_eq_some :
    u24 b = some (n, rest) ↔ n < 2 ^ 24 ∧ b = put24 n ++ rest := by
  constructor
  · intro h
    match b, h with
    | a :: c :: d :: b, h =>
        obtain ⟨rfl, rfl⟩ := Prod.mk.inj (Option.some.inj h)
        have ha := a.toNat_lt
        have hc := c.toNat_lt
        have hd := d.toNat_lt
        refine ⟨by omega, ?_⟩
        rw [put24, put16, ofNat_eq (a := a) (by omega),
          ofNat_eq (a := c) (by omega), ofNat_eq (a := d) (by omega)]
        rfl
  · rintro ⟨hn, rfl⟩
    show some ((UInt8.ofNat (n / 65536)).toNat * 65536
      + (UInt8.ofNat (n / 256)).toNat * 256 + (UInt8.ofNat n).toNat, rest) = _
    rw [UInt8.toNat_ofNat', UInt8.toNat_ofNat', UInt8.toNat_ofNat']
    congr 2
    omega

end Numbers

-- ================================================================== vectors

def take (n : Nat) (b : Bytes) : Option (Bytes × Bytes) :=
  if n ≤ b.length then some (b.take n, b.drop n) else none

def vec8 (b : Bytes) : Option (Bytes × Bytes) :=
  (u8 b).bind fun r => take r.1 r.2

def vec16 (b : Bytes) : Option (Bytes × Bytes) :=
  (u16 b).bind fun r => take r.1 r.2

def putVec8 (v : Bytes) : Bytes := UInt8.ofNat v.length :: v

def putVec16 (v : Bytes) : Bytes := put16 v.length ++ v

section Vectors

variable {b v rest : Bytes} {n : Nat}

theorem take_eq_some :
    take n b = some (v, rest) ↔ v.length = n ∧ b = v ++ rest := by
  unfold take
  constructor
  · intro h
    split at h
    · next hn =>
        obtain ⟨rfl, rfl⟩ := Prod.mk.inj (Option.some.inj h)
        exact ⟨List.length_take_of_le hn, (List.take_append_drop n b).symm⟩
    · cases h
  · rintro ⟨rfl, rfl⟩
    rw [if_pos (by rw [List.length_append]; omega), List.take_left,
      List.drop_left]

theorem vec8_eq_some :
    vec8 b = some (v, rest) ↔ v.length < 256 ∧ b = putVec8 v ++ rest := by
  unfold vec8
  rw [Option.bind_eq_some_iff]
  constructor
  · rintro ⟨⟨n, b'⟩, hn, hv⟩
    obtain ⟨hlt, rfl⟩ := u8_eq_some.1 hn
    obtain ⟨rfl, rfl⟩ := take_eq_some.1 hv
    exact ⟨hlt, rfl⟩
  · rintro ⟨hlt, rfl⟩
    exact ⟨(v.length, v ++ rest), u8_eq_some.2 ⟨hlt, rfl⟩,
      take_eq_some.2 ⟨rfl, rfl⟩⟩

theorem vec16_eq_some :
    vec16 b = some (v, rest) ↔ v.length < 65536 ∧ b = putVec16 v ++ rest := by
  unfold vec16
  rw [Option.bind_eq_some_iff]
  constructor
  · rintro ⟨⟨n, b'⟩, hn, hv⟩
    obtain ⟨hlt, rfl⟩ := u16_eq_some.1 hn
    obtain ⟨rfl, rfl⟩ := take_eq_some.1 hv
    exact ⟨hlt, (List.append_assoc _ _ _).symm⟩
  · rintro ⟨hlt, rfl⟩
    exact ⟨(v.length, v ++ rest),
      u16_eq_some.2 ⟨hlt, List.append_assoc _ _ _⟩,
      take_eq_some.2 ⟨rfl, rfl⟩⟩

end Vectors

end Elitea.Lib.Wire
