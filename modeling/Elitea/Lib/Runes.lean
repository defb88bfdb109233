/-
A text as a sequence of characters, read as `Utf8` reads it: the places
between them, and weights that are summed over them.

A text cut at such a place falls into two texts with the same characters
(`weight_split`), and so does a text that is continued with an ASCII byte
(`weight_append`): nothing that stands at its end can become a character
with it.
-/
import Elitea.Lib.Utf8
import Elitea.Lib.Walk
import Mathlib.Algebra.BigOperators.Group.List.Basic
import Mathlib.Algebra.GroupWithZero.Nat

namespace Elitea.Lib.Utf8

/-- A place between characters, or one of the ends. -/
inductive Boundary : Bytes → Nat → Prop
  | zero {s : Bytes} : Boundary s 0
  | next {s : Bytes} {n : Nat} (hs : s ≠ []) (h : Boundary (s.drop (size s)) n) :
      Boundary s (size s + n)

/-- The sum of a weight over the characters of a text. -/
def weight (w : Nat → Nat) (s : Bytes) : Nat :=
  ((rests size s).map fun t => w (rune t)).sum

section Boundaries

variable {s : Bytes} {a b n : Nat}

theorem Boundary.le_length (h : Boundary s n) : n ≤ s.length := by
  induction h with
  | zero => exact Nat.zero_le _
  | @next s n hs h ih =>
      have := size_le hs
      rw [List.length_drop] at ih
      omega

/-- The place after the character at a place. -/
theorem Boundary.step (h : Boundary s n) (hn : n < s.length) :
    Boundary s (n + size (s.drop n)) := by
  induction h with
  | @zero s =>
      have hs : s ≠ [] := List.ne_nil_of_length_pos hn
      rw [Nat.zero_add, List.drop_zero]
      exact Boundary.next hs .zero
  | @next s n hs h ih =>
      rw [List.length_drop] at ih
      rw [Nat.add_assoc, ← List.drop_drop]
      exact .next hs (ih (by omega))

/-- The places after a place are those of what follows it. -/
theorem Boundary.drop (ha : Boundary s a) (hb : Boundary s b)
    (hab : a ≤ b) : Boundary (s.drop a) (b - a) := by
  induction ha generalizing b with
  | zero => exact hb
  | @next s n hs h ih =>
      cases hb with
      | zero =>
          have := size_pos s
          omega
      | next hs' hb =>
          rw [← List.drop_drop, Nat.add_sub_add_left]
          exact ih hb (by omega)

theorem boundary_length (s : Bytes) : Boundary s s.length := by
  induction s using walk_induction size with
  | hadv s hs => exact size_pos s
  | nil => exact .zero
  | next s hs ih =>
      have hle := size_le hs
      rw [List.length_drop] at ih
      have := Boundary.next hs ih
      rwa [Nat.add_sub_cancel' hle] at this

end Boundaries

section Weights

variable {w : Nat → Nat} {s : Bytes} {a b n : Nat}

@[simp] theorem weight_nil : weight w [] = 0 := rfl

theorem weight_cons (hs : s ≠ []) :
    weight w s = w (rune s) + weight w (s.drop (size s)) := by
  unfold weight
  rw [rests_cons hs (size_pos s), List.map_cons, List.sum_cons]

/-- An ASCII byte at the front. -/
theorem weight_ascii {c : UInt8} (hc : c < 0x80) (x : Bytes) :
    weight w (c :: x) = w c.toNat + weight w x := by
  have hrune : rune (c :: x) = c.toNat := by
    unfold rune
    rw [decode?_ascii hc]
    rfl
  rw [weight_cons (List.cons_ne_nil c x), hrune, size_ascii hc]
  rfl

/-- A cut between characters. -/
theorem weight_split (h : Boundary s n) :
    weight w s = weight w (s.take n) + weight w (s.drop n) := by
  induction h with
  | zero => rw [List.take_zero, List.drop_zero, weight_nil, Nat.zero_add]
  | @next s n hs h ih =>
      have hle : size s ≤ size s + n := Nat.le_add_right _ _
      have htake : s.take (size s + n) ≠ [] := by
        intro hnil
        have := congrArg List.length hnil
        have := size_pos s
        have := size_le hs
        rw [List.length_take, List.length_nil] at *
        omega
      rw [weight_cons hs, weight_cons htake, rune_take hle, size_take hle,
        ih, List.drop_take, Nat.add_sub_cancel_left, List.drop_drop,
        Nat.add_assoc]

/-- What lies between two places, by what lies before them. -/
theorem weight_between (ha : Boundary s a) (hb : Boundary s b)
    (hab : a ≤ b) :
    weight w (s.take b)
      = weight w (s.take a) + weight w (s.extract a b) := by
  have hsb := weight_split (w := w) hb
  have hsa := weight_split (w := w) ha
  have hmid := weight_split (w := w) (ha.drop hb hab)
  have hend : (s.drop a).drop (b - a) = s.drop b := by
    rw [List.drop_drop, Nat.add_sub_cancel' hab]
  rw [hend] at hmid
  rw [List.extract_eq_take_drop]
  omega

/-- One character. -/
theorem weight_one (hs : s ≠ []) :
    weight w (s.take (size s)) = w (rune s) := by
  have hsplit := weight_split (w := w) (Boundary.next hs .zero)
  have hcons := weight_cons (w := w) hs
  rw [Nat.add_zero] at hsplit
  omega

/-- The weight up to a place, and up to the next one. -/
theorem weight_step (h : Boundary s n) (hn : n < s.length) :
    weight w (s.take (n + size (s.drop n)))
      = weight w (s.take n) + w (rune (s.drop n)) := by
  have hne : s.drop n ≠ [] := by
    intro hnil
    have := congrArg List.length hnil
    rw [List.length_drop, List.length_nil] at this
    omega
  rw [weight_between h (h.step hn) (Nat.le_add_right _ _),
    List.extract_eq_take_drop, Nat.add_sub_cancel_left, weight_one hne]

/-- A weight that no character's length is below. -/
theorem weight_le_length
    (hw : ∀ t : Bytes, t ≠ [] → w (rune t) ≤ size t) (s : Bytes) :
    weight w s ≤ s.length := by
  induction s using walk_induction size with
  | hadv s hs => exact size_pos s
  | nil => exact Nat.le_refl 0
  | next s hs ih =>
      have := hw s hs
      have := size_le hs
      rw [List.length_drop] at ih
      rw [weight_cons hs]
      omega

/-- An ASCII byte ends whatever stands before it. -/
theorem decode?_append_ascii {c : UInt8} (hc : c < 0x80) (hs : s ≠ [])
    (x : Bytes) : decode? (s ++ c :: x) = decode? s := by
  cases h : decode? s with
  | some rk => exact decode?_append h (c :: x)
  | none =>
      cases hd : decode? (s ++ c :: x) with
      | none => rfl
      | some rk =>
          -- a character here would hold the ASCII byte
          exfalso
          cases s with
          | nil => exact hs rfl
          | cons b rest =>
              by_cases hb : b < 0x80
              · rw [decode?_ascii hb] at h
                cases h
              · obtain ⟨r, k⟩ := rk
                have hhigh := (encode_eq hd).2 (by
                  rw [UInt8.lt_iff_toNat_lt] at hb
                  exact Nat.not_lt.1 hb)
                obtain ⟨-, hlen, hself⟩ := decode?_self hd
                by_cases hk : k ≤ (b :: rest).length
                · have hfront : (b :: rest ++ c :: x).take k
                      = (b :: rest).take k :=
                    List.take_append_of_le_length hk
                  have := hself ((b :: rest).drop k)
                  rw [hfront, List.take_append_drop, h] at this
                  cases this
                · have hmem : c ∈ (b :: rest ++ c :: x).take k := by
                    obtain ⟨j, rfl⟩ := Nat.exists_eq_add_of_lt
                      (Nat.not_le.1 hk)
                    rw [Nat.add_assoc, List.take_length_add_append,
                      List.take_succ_cons]
                    exact List.mem_append_right _ List.mem_cons_self
                  have := hhigh c hmem
                  rw [UInt8.lt_iff_toNat_lt] at hc
                  exact absurd hc (Nat.not_lt.2 this)

/-- A text that goes on with an ASCII byte. -/
theorem weight_append {c : UInt8} (hc : c < 0x80) (s x : Bytes) :
    weight w (s ++ c :: x) = weight w s + weight w (c :: x) := by
  induction s using walk_induction size with
  | hadv s hs => exact size_pos s
  | nil => rw [List.nil_append, weight_nil, Nat.zero_add]
  | next s hs ih =>
      have hd := decode?_append_ascii hc hs x
      have hsize : size (s ++ c :: x) = size s := by
        unfold size
        rw [hd]
      have hrune : rune (s ++ c :: x) = rune s := by
        unfold rune
        rw [hd]
      have hne : s ++ c :: x ≠ [] :=
        List.append_ne_nil_of_left_ne_nil hs _
      rw [weight_cons hne, weight_cons hs, hsize, hrune,
        List.drop_append_of_le_length (size_le hs), ih, Nat.add_assoc]

end Weights

end Elitea.Lib.Utf8
