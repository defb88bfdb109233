/-
The strings of a JSON text: every body the scanner accepts is decoded
(`unquote_isSome`), and what `quoteBody` writes is accepted
(`bodyOk_quoteBody`) and decoded to the text that was written, with the
bytes that are no UTF-8 replaced (`unquote_quoteBody`).

Both directions go character by character: `unquoteRune` takes one escape
or one character from the front, and `quoteRune` writes one, so each of
the results is a fact about the front and an induction along the stops of
`rests`.
-/
import Elitea.Lib.JsonText

namespace Elitea.Lib.JsonText

open Utf8

-- =========================================================== accepted bodies

section Accepted

variable {s more : Bytes} {b : UInt8}

theorem toNat_ne {a b : UInt8} (h : a.toNat ≠ b.toNat) : a ≠ b :=
  fun he => h (congrArg _ he)

/-- A byte that needs no escape. -/
theorem step_plain (hq : b ≠ quote) (hb : b ≠ backslash)
    (hc : ¬ b < 0x20) : InString.plain.step b = some .plain := by
  simp only [InString.step, if_neg hq, if_neg hb, if_neg hc]

/-- Bytes above 0x7F need no escape. -/
theorem run_high (h : ∀ b ∈ s, 0x80 ≤ b.toNat) :
    InString.plain.run s = some .plain := by
  induction s with
  | nil => rfl
  | cons b s ih =>
      have hb := h b List.mem_cons_self
      have hq : quote.toNat = 0x22 := rfl
      have hbs : backslash.toNat = 0x5C := rfl
      have hstep : InString.plain.step b = some .plain := by
        refine step_plain (toNat_ne (by omega)) (toNat_ne (by omega)) ?_
        rw [UInt8.lt_iff_toNat_lt]
        exact Nat.not_lt.2 (Nat.le_trans (by decide) hb)
      rw [InString.run, hstep]
      exact ih fun x hx => h x (List.mem_cons_of_mem b hx)

/-- One of the digits still to come. -/
theorem run_hex {left : Nat}
    (h : (InString.hex (left + 1)).run s = some .plain) :
    ∃ a rest v, s = a :: rest ∧ hexVal a = some v
      ∧ (if left = 0 then InString.plain else .hex left).run rest
        = some .plain := by
  cases s with
  | nil => cases h
  | cons a rest =>
      rw [InString.run, InString.step] at h
      cases hv : hexVal a with
      | none => rw [hv] at h; cases h
      | some v =>
          rw [hv] at h
          refine ⟨a, rest, v, rfl, hv, ?_⟩
          by_cases h0 : left = 0
          · rw [if_pos h0]
            rw [if_pos h0] at h
            exact h
          · rw [if_neg h0]
            rw [if_neg h0] at h
            exact h

/-- The four digits of an escape. -/
theorem run_hex4 (h : (InString.hex 4).run s = some .plain) :
    ∃ r, hex4 s = some r
      ∧ InString.plain.run (s.drop 4) = some .plain := by
  obtain ⟨a, s₁, va, rfl, ha, h₁⟩ := run_hex h
  obtain ⟨b, s₂, vb, rfl, hb, h₂⟩ := run_hex h₁
  obtain ⟨c, s₃, vc, rfl, hc, h₃⟩ := run_hex h₂
  obtain ⟨d, s₄, vd, rfl, hd, h₄⟩ := run_hex h₃
  refine ⟨((va * 16 + vb) * 16 + vc) * 16 + vd, ?_, h₄⟩
  rw [hex4, ha, hb, hc, hd]
  rfl

/-- An escape, after its backslash. -/
theorem run_backslash (h : InString.plain.run (backslash :: s)
      = some .plain) : InString.escape.run s = some .plain := h

theorem run_escape (h : InString.escape.run s = some .plain) :
    ∃ e more, s = e :: more
      ∧ ((e = 0x75 ∧ (InString.hex 4).run more = some .plain)
        ∨ (e ≠ 0x75 ∧ (shortEscape e).isSome = true
          ∧ InString.plain.run more = some .plain)) := by
  cases s with
  | nil => cases h
  | cons e more =>
      refine ⟨e, more, rfl, ?_⟩
      rw [InString.run, InString.step] at h
      by_cases he : e = 0x75
      · rw [if_pos he] at h
        exact .inl ⟨he, h⟩
      · rw [if_neg he] at h
        by_cases hs : (shortEscape e).isSome = true
        · rw [if_pos hs] at h
          exact .inr ⟨he, hs, h⟩
        · rw [if_neg hs] at h
          cases h

/-- The second half of a surrogate pair is an escape of its own. -/
theorem run_pair {high full : Nat} (hp : pairWith high s = some full)
    (h : InString.plain.run s = some .plain) :
    InString.plain.run (s.drop 6) = some .plain := by
  unfold pairWith at hp
  split at hp
  next b u more =>
    split at hp
    next hbu =>
      obtain ⟨rfl, rfl⟩ := hbu
      obtain ⟨e, more', he, hcase⟩ := run_escape (run_backslash h)
      cases he
      rcases hcase with ⟨-, hhex⟩ | ⟨hne, -⟩
      · exact (run_hex4 hhex).choose_spec.2
      · exact absurd rfl hne
    next => cases hp
  next => cases hp

/-- What remains of an accepted body after a character that stands for
itself. -/
theorem run_drop_size {rest : Bytes} (hb : b ≠ backslash)
    (h : InString.plain.run (b :: rest) = some .plain) :
    b ≠ quote ∧ ¬ b < 0x20
      ∧ InString.plain.run ((b :: rest).drop (size (b :: rest)))
        = some .plain := by
  have hq : b ≠ quote := by
    rintro rfl
    cases h
  have hc : ¬ b < 0x20 := by
    intro hc
    rw [InString.run, InString.step, if_neg hq, if_neg hb, if_pos hc] at h
    cases h
  refine ⟨hq, hc, ?_⟩
  by_cases ha : b < 0x80
  · rw [size_ascii ha]
    rw [InString.run, step_plain hq hb hc] at h
    exact h
  · rw [← List.take_append_drop (size (b :: rest)) (b :: rest), run_append,
      run_high (size_high ha rest)] at h
    exact h

/-- The front of an accepted body is decoded, and what remains is accepted
again. -/
theorem unquoteRune_of_run (hs : s ≠ [])
    (h : InString.plain.run s = some .plain) :
    ∃ p k, unquoteRune s = some (p, k)
      ∧ InString.plain.run (s.drop k) = some .plain := by
  cases s with
  | nil => exact absurd rfl hs
  | cons b rest =>
      unfold unquoteRune
      dsimp only
      by_cases hb : b = backslash
      · subst hb
        rw [if_pos rfl]
        obtain ⟨e, more, rfl, hcase⟩ := run_escape (run_backslash h)
        dsimp only
        rcases hcase with ⟨rfl, hhex⟩ | ⟨hu, hshort, hmore⟩
        · obtain ⟨r, hr, hrest⟩ := run_hex4 hhex
          rw [if_pos rfl, hr, Option.bind_some]
          split
          next =>
            cases hp : pairWith r (more.drop 4) with
            | none => exact ⟨_, 6, rfl, hrest⟩
            | some full =>
                refine ⟨_, 12, rfl, ?_⟩
                have := run_pair hp hrest
                rw [List.drop_drop] at this
                exact this
          next => exact ⟨_, 6, rfl, hrest⟩
        · obtain ⟨c, hc⟩ := Option.isSome_iff_exists.1 hshort
          rw [if_neg hu, hc]
          exact ⟨[c], 2, rfl, hmore⟩
      · obtain ⟨hq, hc, hrest⟩ := run_drop_size hb h
        rw [if_neg hb, if_neg (not_or.2 ⟨hq, hc⟩)]
        exact ⟨_, _, rfl, hrest⟩

theorem unquoteRune_pos {p : Bytes} {k : Nat}
    (h : unquoteRune s = some (p, k)) : 0 < k := by
  unfold unquoteRune at h
  split at h
  next => cases h
  next b rest =>
    split at h
    next =>
      split at h
      next => cases h
      next e more =>
        split at h
        next =>
          obtain ⟨r, -, h⟩ := Option.bind_eq_some_iff.1 h
          split at h
          next =>
            split at h <;> cases h <;> exact Nat.succ_pos _
          next => cases h; exact Nat.succ_pos _
        next =>
          obtain ⟨c, -, h⟩ := Option.map_eq_some_iff.1 h
          cases h
          exact Nat.succ_pos _
    next =>
      split at h
      next => cases h
      next =>
        cases h
        exact size_pos _

theorem unquoteAdvance_pos (s : Bytes) : 0 < unquoteAdvance s := by
  unfold unquoteAdvance
  cases h : unquoteRune s with
  | none => exact Nat.one_pos
  | some pk => exact unquoteRune_pos h

@[simp] theorem unquote_nil : unquote [] = some [] := rfl

/-- The front of a body, and the rest of it. -/
theorem unquote_cons (hs : s ≠ []) {p : Bytes} {k : Nat}
    (h : unquoteRune s = some (p, k)) :
    unquote s = (unquote (s.drop k)).map (p ++ ·) := by
  have hadv : unquoteAdvance s = k := by
    unfold unquoteAdvance
    rw [h]
    rfl
  unfold unquote
  rw [rests_cons hs (unquoteAdvance_pos s), hadv, List.mapM_cons, h]
  cases (rests unquoteAdvance (s.drop k)).mapM fun s =>
      (unquoteRune s).map Prod.fst with
  | none => rfl
  | some ps => rfl

/-- Every accepted body is decoded. -/
theorem unquote_isSome (h : InString.plain.run s = some .plain) :
    (unquote s).isSome = true := by
  induction s using walk_induction unquoteAdvance with
  | hadv s hs => exact unquoteAdvance_pos s
  | nil => rfl
  | next s hs ih =>
      obtain ⟨p, k, hp, hrest⟩ := unquoteRune_of_run hs h
      have hadv : unquoteAdvance s = k := by
        unfold unquoteAdvance
        rw [hp]
        rfl
      rw [unquote_cons hs hp, Option.isSome_map]
      rw [hadv] at ih
      exact ih hrest

end Accepted

-- =========================================================== written bodies

section Written

variable {s : Bytes}

theorem quoteBody_cons (hs : s ≠ []) :
    quoteBody s = quoteRune s ++ quoteBody (s.drop (size s)) := by
  unfold quoteBody
  rw [rests_cons hs (size_pos s)]
  rfl

theorem coerce_cons (hs : s ≠ []) :
    coerce s = coerceRune s ++ coerce (s.drop (size s)) := by
  unfold coerce
  rw [rests_cons hs (size_pos s)]
  rfl

theorem coerceRune_ascii {b : UInt8} (h : b < 0x80) (rest : Bytes) :
    coerceRune (b :: rest) = [b] := by
  unfold coerceRune
  rw [decode?_ascii h]
  rfl

theorem hexVal_hexDigit {n : Nat} (h : n < 16) :
    hexVal (hexDigit n) = some n := by
  revert h
  revert n
  decide

/-- A written character of one byte stands for that byte. -/
theorem unquoteRune_quoteByte {b : UInt8} (h : b < 0x80) (x : Bytes) :
    unquoteRune (quoteByte b ++ x)
      = some ([b], (quoteByte b).length) := by
  have hlt : b.toNat < 0x80 := UInt8.lt_iff_toNat_lt.1 h
  unfold quoteByte
  split
  next hb => rcases hb with rfl | rfl <;> rfl
  next hb =>
    rw [not_or] at hb
    split
    next h => subst h; rfl
    split
    next h => subst h; rfl
    split
    next h => subst h; rfl
    split
    next h => subst h; rfl
    split
    next h => subst h; rfl
    split
    next hc =>
      -- the two digits of a control character
      have hhi : b.toNat / 16 < 16 := by omega
      have hlo : b.toNat % 16 < 16 := by omega
      have hz : hexVal 0x30 = some 0 := rfl
      have hval : ((0 * 16 + 0) * 16 + b.toNat / 16) * 16 + b.toNat % 16
          = b.toNat := by omega
      have hex : hex4 (0x30 :: 0x30 :: hexDigit (b.toNat / 16)
          :: hexDigit (b.toNat % 16) :: x) = some b.toNat := by
        rw [hex4, hz, hexVal_hexDigit hhi, hexVal_hexDigit hlo]
        exact congrArg some hval
      have hsur : isSurrogate b.toNat = false := by
        unfold isSurrogate
        rw [decide_eq_false (by omega), Bool.false_and]
      have henc : encode b.toNat = [b] := by
        unfold encode
        rw [if_pos hlt, byte_eq rfl]
      unfold unquoteRune
      dsimp only [List.cons_append]
      rw [if_pos rfl, if_pos rfl, List.nil_append, hex, Option.bind_some,
        if_neg (by rw [hsur]; exact Bool.false_ne_true), henc]
      rfl
    next hc =>
      unfold unquoteRune
      dsimp only [List.cons_append]
      rw [if_neg hb.2, if_neg (not_or.2 ⟨hb.1, hc⟩),
        coerceRune_ascii h, size_ascii h]
      rfl

/-- A written character stands for the character, or for the replacement
of a byte that is none. -/
theorem unquoteRune_quoteRune (hs : s ≠ []) (x : Bytes) :
    unquoteRune (quoteRune s ++ x)
      = some (coerceRune s, (quoteRune s).length) := by
  cases s with
  | nil => exact absurd rfl hs
  | cons b rest =>
      unfold quoteRune
      dsimp only
      split
      next h =>
        rw [coerceRune_ascii h]
        exact unquoteRune_quoteByte h x
      next h =>
        cases hd : decode? (b :: rest) with
        | none =>
            unfold coerceRune
            rw [hd]
            rfl
        | some rk =>
            obtain ⟨r, k⟩ := rk
            obtain ⟨hpos, hlen, hself⟩ := decode?_self hd
            have hcoerce : coerceRune (b :: rest) = (b :: rest).take k := by
              unfold coerceRune
              rw [hd]
            dsimp only
            split
            next hsep =>
              rw [hcoerce, ← (encode_eq hd).1]
              rcases hsep with rfl | rfl <;> rfl
            next =>
              -- the character stands for itself
              have hne : b ≠ backslash := by
                rintro rfl
                exact h (by decide)
              have hok : ¬ (b = quote ∨ b < 0x20) := by
                rintro (rfl | hc)
                · exact h (by decide)
                · exact h (UInt8.lt_trans hc (by decide))
              have htake : ((b :: rest).take k ++ x).take k
                  = (b :: rest).take k := by
                rw [List.take_append_of_le_length
                  (by rw [List.length_take]; omega), List.take_take,
                  Nat.min_self]
              have hfront : coerceRune ((b :: rest).take k ++ x)
                  = coerceRune (b :: rest) := by
                rw [hcoerce]
                unfold coerceRune
                rw [hself x]
                exact htake
              have hsize : size ((b :: rest).take k ++ x)
                  = ((b :: rest).take k).length := by
                unfold size
                rw [hself x, List.length_take, Nat.min_eq_left hlen]
                rfl
              obtain ⟨n, rfl⟩ := Nat.exists_eq_succ_of_ne_zero
                (Nat.ne_of_gt hpos)
              rw [← hfront, ← hsize]
              rw [List.take_succ_cons, List.cons_append]
              unfold unquoteRune
              dsimp only
              rw [if_neg hne, if_neg hok]

/-- A written byte may stand in a string. -/
theorem run_quoteByte {b : UInt8} :
    InString.plain.run (quoteByte b) = some .plain := by
  unfold quoteByte
  split
  next hb => rcases hb with rfl | rfl <;> rfl
  next hb =>
    rw [not_or] at hb
    split
    next => rfl
    split
    next => rfl
    split
    next => rfl
    split
    next => rfl
    split
    next => rfl
    split
    next hc =>
      have hlt : b.toNat < 0x20 := UInt8.lt_iff_toNat_lt.1 hc
      have hhi := hexVal_hexDigit (n := b.toNat / 16) (by omega)
      have hlo := hexVal_hexDigit (n := b.toNat % 16) (by omega)
      change (InString.hex 2).run [_, _] = some .plain
      rw [InString.run, InString.step, hhi]
      change (InString.hex 1).run [_] = some .plain
      rw [InString.run, InString.step, hlo]
      rfl
    next hc =>
      rw [InString.run, step_plain hb.1 hb.2 hc]
      rfl

theorem run_quoteRune (s : Bytes) :
    InString.plain.run (quoteRune s) = some .plain := by
  unfold quoteRune
  split
  next => rfl
  next b rest =>
    split
    next => exact run_quoteByte
    next h =>
      split
      next => rfl
      next r k hd =>
        split
        next hsep => rcases hsep with rfl | rfl <;> rfl
        next =>
          refine run_high ((encode_eq hd).2 ?_)
          rw [UInt8.lt_iff_toNat_lt] at h
          exact Nat.not_lt.1 h

/-- What is written between quotes is accepted there. -/
theorem run_quoteBody (s : Bytes) :
    InString.plain.run (quoteBody s) = some .plain := by
  induction s using walk_induction size with
  | hadv s hs => exact size_pos s
  | nil => rfl
  | next s hs ih =>
      rw [quoteBody_cons hs, run_append, run_quoteRune]
      exact ih

theorem quoteRune_ne_nil (hs : s ≠ []) : quoteRune s ≠ [] := by
  intro hnil
  have h := unquoteRune_quoteRune hs []
  rw [hnil] at h
  cases h

/-- What is written between quotes is read back, but for the bytes that
are no UTF-8. -/
theorem unquote_quoteBody (s : Bytes) :
    unquote (quoteBody s) = some (coerce s) := by
  induction s using walk_induction size with
  | hadv s hs => exact size_pos s
  | nil => rfl
  | next s hs ih =>
      have hne : quoteRune s ++ quoteBody (s.drop (size s)) ≠ [] :=
        List.append_ne_nil_of_left_ne_nil (quoteRune_ne_nil hs) _
      rw [quoteBody_cons hs, coerce_cons hs,
        unquote_cons hne (unquoteRune_quoteRune hs _), List.drop_left, ih]
      rfl

/-- `utf8.Valid`. -/
def wellFormed (s : Bytes) : Bool :=
  (rests size s).all fun t => (decode? t).isSome

/-- UTF-8 is kept as it is. -/
theorem coerce_eq_self (h : wellFormed s = true) : coerce s = s := by
  induction s using walk_induction size with
  | hadv s hs => exact size_pos s
  | nil => rfl
  | next s hs ih =>
      unfold wellFormed at h
      rw [rests_cons hs (size_pos s), List.all_cons, Bool.and_eq_true] at h
      obtain ⟨⟨r, k⟩, hd⟩ := Option.isSome_iff_exists.1 h.1
      have hfront : coerceRune s = s.take (size s) := by
        unfold coerceRune size
        rw [hd]
        rfl
      rw [coerce_cons hs, hfront, ih h.2, List.take_append_drop]

end Written

end Elitea.Lib.JsonText
