/-
A JSON text in pieces: outside strings the scanner takes byte after byte,
and a string is taken whole. `Reads` is the run of `tokensFrom` in these
two steps (`reads_iff`), so that an induction over a valid text meets a
byte outside strings or a whole string, and never a position inside one.

Two facts about the text around a string come out of it. A colon follows
exactly the keys (`colon_follows_iff`), and a string may be exchanged for
another one without changing what is read after it (`Reads.string`).
-/
import Elitea.Lib.JsonQuote

namespace Elitea.Lib.JsonText

open Utf8

variable {toks : List Token}

/-- The tokens after a byte outside strings. -/
def emit (b : UInt8) (toks : List Token) : List Token :=
  if isSpace b then toks else .mark b :: toks

/-- A text read from a position outside strings. -/
inductive Reads : Scanner → Nat → Bytes → List Token → Prop
  | done {m : Scanner} {i : Nat} (hend : m.atEnd = true) : Reads m i [] []
  | byte {m m' : Scanner} {i : Nat} {b : UInt8} {rest : Bytes}
      {toks : List Token} (hb : b ≠ quote) (hstep : m.step b = some m')
      (later : Reads m' (i + 1) rest toks) :
      Reads m i (b :: rest) (emit b toks)
  | string {m : Scanner} {i : Nat} {body rest : Bytes} {toks : List Token}
      (hstep : m.step quote = some ⟨.string .plain, m.stack⟩)
      (hbody : InString.plain.run body = some .plain)
      (later : Reads ⟨.endValue, m.stack⟩ (i + body.length + 2) rest toks) :
      Reads m i (quote :: body ++ quote :: rest)
        (.string m.atKey i body :: toks)

section Steps

variable {m m' : Scanner} {i : Nat} {b : UInt8} {rest : Bytes}

/-- A byte outside strings. -/
theorem tokensFrom_byte (ho : m.Outside) (hb : b ≠ quote)
    (h : m.step b = some m') :
    tokensFrom m i 0 [] (b :: rest)
      = (tokensFrom m' (i + 1) 0 [] rest).map (emit b) := by
  have ho' := ((ho.step h).2 hb).inside
  rw [tokensFrom, h]
  dsimp only
  rw [if_neg (by rw [ho.inside]; exact Bool.false_ne_true),
    if_neg (by rw [ho']; exact Bool.false_ne_true)]
  unfold emit
  by_cases hs : isSpace b = true
  · rw [if_pos hs]
    simp only [if_pos hs, Option.map_id_fun', id_eq]
  · rw [if_neg hs]
    simp only [if_neg hs]

/-- The quote that opens a string. -/
theorem tokensFrom_quote (ho : m.Outside)
    (h : m.step quote = some ⟨.string .plain, m.stack⟩) :
    tokensFrom m i 0 [] (quote :: rest)
      = tokensFrom ⟨.string .plain, m.stack⟩ (i + 1) i [] rest := by
  rw [tokensFrom, h]
  dsimp only
  rw [if_neg (by rw [ho.inside]; exact Bool.false_ne_true)]
  rfl

end Steps

/-- `Reads` is the run. -/
theorem Reads.tokens {m : Scanner} {i : Nat} {s : Bytes} (h : Reads m i s toks)
    (ho : m.Outside) : tokensFrom m i 0 [] s = some toks := by
  induction h with
  | done hend => rw [tokensFrom, if_pos hend]
  | byte hb hstep later ih =>
      rw [tokensFrom_byte ho hb hstep, ih ((ho.step hstep).2 hb)]
      rfl
  | string hstep hbody later ih =>
      rw [List.cons_append, tokensFrom_quote ho hstep, tokens_body hbody]
      have hpos : ∀ i n : Nat, i + 1 + n + 1 = i + n + 2 := by omega
      rw [hpos, ih (outside_of_between rfl)]
      rfl

theorem reads_of_tokens {m : Scanner} {i : Nat} {s : Bytes} (ho : m.Outside)
    (h : tokensFrom m i 0 [] s = some toks) : Reads m i s toks := by
  induction hn : s.length using Nat.strongRecOn
    generalizing m i s toks with
  | ind n ih =>
      cases s with
      | nil =>
          rw [tokensFrom] at h
          split at h
          next hend => cases h; exact .done hend
          next => cases h
      | cons b rest =>
          cases hstep : m.step b with
          | none => rw [tokensFrom, hstep] at h; cases h
          | some m' =>
              rw [List.length_cons] at hn
              by_cases hb : b = quote
              · subst hb
                obtain rfl := (ho.step hstep).1 rfl
                rw [tokensFrom_quote ho hstep] at h
                obtain ⟨body, rest', later, rfl, hbody, hlater, rfl⟩ :=
                  tokens_string h
                rw [List.length_append, List.length_cons] at hn
                have hpos : i + 1 + body.length + 1
                    = i + body.length + 2 := by omega
                rw [hpos] at hlater
                exact .string hstep hbody (ih rest'.length (by omega)
                  (outside_of_between rfl) hlater rfl)
              · rw [tokensFrom_byte ho hb hstep] at h
                obtain ⟨later, hlater, rfl⟩ := Option.map_eq_some_iff.1 h
                exact .byte hb hstep (ih rest.length (by omega)
                  ((ho.step hstep).2 hb) hlater rfl)

/-- A valid text, in pieces. -/
theorem reads_iff {raw : Bytes} :
    tokens raw = some toks ↔ Reads .start 0 raw toks :=
  ⟨reads_of_tokens (outside_of_between rfl),
    fun h => h.tokens (outside_of_between rfl)⟩

-- ======================================================== what follows a string

/-- The next byte that is no white space is a colon. -/
def colonNext (rest : Bytes) : Bool :=
  (rest.dropWhile isSpace).head? == some colon

theorem colonNext_space {b : UInt8} {rest : Bytes} (h : isSpace b = true) :
    colonNext (b :: rest) = colonNext rest := by
  unfold colonNext
  rw [List.dropWhile_cons, if_pos h]

theorem colonNext_byte {b : UInt8} {rest : Bytes} (h : ¬ isSpace b = true) :
    colonNext (b :: rest) = (b == colon) := by
  unfold colonNext
  rw [List.dropWhile_cons, if_neg h, List.head?_cons]
  rfl

/-- After the end of a text there is white space only. -/
theorem colonNext_endTop {i : Nat} {rest : Bytes}
    (h : Reads ⟨.endTop, []⟩ i rest toks) : colonNext rest = false := by
  generalize hm : (⟨.endTop, []⟩ : Scanner) = m at h
  induction h with
  | done => rfl
  | @byte m m' i b rest toks hb hstep later ih =>
      subst hm
      unfold Scanner.step at hstep
      dsimp only at hstep
      split at hstep
      next hs =>
        rw [colonNext_space hs]
        exact ih (Option.some.inj hstep)
      next => cases hstep
  | string hstep => subst hm; cases hstep

/-- A colon follows exactly the keys. -/
theorem colon_follows_iff {stack : List Frame} {i : Nat} {rest : Bytes}
    (h : Reads ⟨.endValue, stack⟩ i rest toks) :
    colonNext rest = Scanner.atKey ⟨.endValue, stack⟩ := by
  generalize hm : (⟨.endValue, stack⟩ : Scanner) = m at h
  induction h with
  | done hend =>
      subst hm
      cases stack with
      | nil => rfl
      | cons frame outer => cases frame <;> cases hend
  | @byte m m' i b rest toks hb hstep later ih =>
      subst hm
      change endValue stack b = some m' at hstep
      unfold endValue at hstep
      by_cases hs : isSpace b = true
      · rw [colonNext_space hs]
        cases stack with
        | nil =>
            dsimp only at hstep
            rw [if_pos hs] at hstep
            cases hstep
            exact colonNext_endTop later
        | cons frame outer =>
            dsimp only at hstep
            rw [if_pos hs] at hstep
            cases hstep
            exact ih rfl
      · rw [colonNext_byte hs]
        cases stack with
        | nil =>
            dsimp only at hstep
            rw [if_neg hs] at hstep
            cases hstep
        | cons frame outer =>
            dsimp only at hstep
            rw [if_neg hs] at hstep
            cases frame with
            | objectKey =>
                obtain ⟨hc, -⟩ := Option.ite_none_right_eq_some.1 hstep
                rw [hc]
                rfl
            | objectValue | arrayValue =>
                dsimp only at hstep
                split at hstep
                next hc => rw [hc]; rfl
                next =>
                  obtain ⟨hc, -⟩ := Option.ite_none_right_eq_some.1 hstep
                  rw [hc]
                  rfl
  | string hstep =>
      subst hm
      cases (endValue_quote stack).symm.trans hstep

end Elitea.Lib.JsonText
