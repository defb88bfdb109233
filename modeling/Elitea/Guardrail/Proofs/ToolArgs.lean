/-
Masking keeps tool-call arguments a JSON document.

# The string values

`jsonStringValues` never parses, it looks ahead over the bytes. On a valid
document its three decisions are the scanner's: outside a string it meets
a quote exactly where a string opens, the string ends where the scanner
says (`stringEnd_body`), and a colon follows exactly the keys. So the
list it returns is `literals`, the value strings of the document
(`jsonStringValues_eq`).

# The replacement

`replaceJSONValues` copies the document up to each changed literal and
writes the literal anew (`spliceFrom`). Outside the exchanged literals the
scanner meets the same bytes in the same modes, so what it reads are the
tokens of the document with those strings exchanged
(`reads_spliceFrom`). A value comes back as it was given if it is UTF-8;
a JSON string cannot hold other bytes, and `coerce` says what becomes of
them.
-/
import Elitea.Guardrail.ToolArgs
import Elitea.Lib.Fallible

namespace Elitea.Guardrail

open Lib
open Lib.JsonText

variable {i n : Nat} {body s : Text} {m : Scanner} {b : UInt8}

-- =========================================================== specification

/-- The string values of a document, by its tokens. -/
def literals (toks : List Token) : List JsonLit :=
  toks.filterMap fun
    | .string false start body =>
        some ⟨start, start + body.length + 2, (unquote body).getD []⟩
    | _ => none

/-- A token, without its place in the text. -/
def unplaced : Token → Token
  | .mark b => .mark b
  | .string key _ body => .string key 0 body

/-- What stands between the quotes after the replacement: a value that did
not change keeps its bytes. -/
def newBody (body value : Text) : Text :=
  if value = (unquote body).getD [] then body else quoteBody value

/-- The tokens with the string values exchanged in order, up to their
places. -/
def exchanged : List Token → List Text → List Token
  | .string false _ body :: toks, value :: values =>
      .string false 0 (newBody body value) :: exchanged toks values
  | tok :: toks, values => unplaced tok :: exchanged toks values
  | [], _ => []

/-- A document with its string values exchanged in order. -/
def withTexts : List Event → List Text → List Event
  | .text _ :: events, value :: values =>
      .text value :: withTexts events values
  | event :: events, values => event :: withTexts events values
  | [], _ => []

/-- The value that is stored for a literal. -/
def stored (lit : JsonLit) (value : Text) : Text :=
  if value = lit.value then value else coerce value

-- =========================================================== string values

theorem stringEnd_quote (rest : Text) : stringEnd (quote :: rest) = 0 := by
  cases rest <;> rfl

theorem stringEnd_escape (e : UInt8) (more : Text) :
    stringEnd (backslash :: e :: more) = stringEnd more + 2 := rfl

theorem stringEnd_byte (hq : b ≠ quote) (hb : b ≠ backslash) (rest : Text) :
    stringEnd (b :: rest) = stringEnd rest + 1 := by
  cases rest with
  | nil => exact (if_neg hq).trans (if_neg hb)
  | cons c more => rw [stringEnd, if_neg hq, if_neg hb]

/-- Outside an escape's second character, a byte the scanner takes in a
string is no quote; and it is a backslash only between characters. -/
theorem step_inString {q q' : InString} (hq : q ≠ .escape)
    (h : q.step b = some q') :
    b ≠ quote ∧ (b = backslash ∧ q' = .escape
      ∨ b ≠ backslash ∧ q' ≠ .escape) := by
  cases q with
  | plain =>
      rw [InString.step] at h
      split at h
      next => cases h
      next hquote =>
        refine ⟨hquote, ?_⟩
        split at h
        next hb => cases h; exact .inl ⟨hb, rfl⟩
        next hb =>
          split at h
          next => cases h
          next => cases h; exact .inr ⟨hb, by rintro ⟨⟩⟩
  | escape => exact absurd rfl hq
  | hex left =>
      cases left with
      | zero => cases h
      | succ left =>
          rw [InString.step] at h
          split at h
          next hv =>
            refine ⟨?_, .inr ⟨?_, ?_⟩⟩
            · rintro rfl
              cases hv
            · rintro rfl
              cases hv
            · split at h <;> cases h <;> rintro ⟨⟩
          next => cases h

/-- The second character of an escape. -/
theorem step_escape {q' : InString} (h : InString.escape.step b = some q') :
    q' ≠ .escape := by
  rw [InString.step] at h
  split at h
  next => cases h; rintro ⟨⟩
  next =>
    split at h
    next => cases h; rintro ⟨⟩
    next => cases h

/-- The lookahead finds the end of the string. -/
theorem stringEnd_body {q : InString} (hq : q ≠ .escape) (rest : Text)
    (h : q.run body = some .plain) :
    stringEnd (body ++ quote :: rest) = body.length := by
  induction hn : body.length using Nat.strongRecOn
    generalizing q body with
  | ind n ih =>
      cases body with
      | nil =>
          rw [← hn]
          exact stringEnd_quote rest
      | cons b body =>
          obtain ⟨q', hstep, hrun⟩ := Option.bind_eq_some_iff.1 h
          rw [List.length_cons] at hn
          rw [List.cons_append]
          obtain ⟨hquote, ⟨rfl, rfl⟩ | ⟨hb, hq'⟩⟩ :=
            step_inString hq hstep
          · -- the escape's second character is skipped with it
            cases body with
            | nil => cases hrun
            | cons e more =>
                obtain ⟨q'', hstep', hrun'⟩ :=
                  Option.bind_eq_some_iff.1 hrun
                rw [List.length_cons] at hn
                rw [List.cons_append, stringEnd_escape,
                  ih more.length (by omega) (step_escape hstep') hrun' rfl]
                omega
          · rw [stringEnd_byte hquote hb,
              ih body.length (by omega) hq' hrun rfl]
            exact hn

/-- A string literal on its own. -/
theorem unmarshalString_literal (h : InString.plain.run body = some .plain) :
    unmarshalString (quote :: body ++ [quote]) = unquote body := by
  have hread : Reads .start 0 (quote :: body ++ [quote])
      [.string false 0 body] := .string rfl h (.done rfl)
  unfold unmarshalString
  rw [reads_iff.2 hread]

theorem literals_emit (b : UInt8) (toks : List Token) :
    literals (emit b toks) = literals toks := by
  unfold emit
  split <;> rfl

/-- The loop from a position outside strings. -/
theorem readLits_reads {toks : List Token} (h : Reads m i s toks) :
    readLits (walk nextStop i s) = some (literals toks) := by
  induction h with
  | done => rfl
  | @byte m m' i b rest toks hb hstep later ih =>
      have hadv : nextStop (b :: rest) = 1 := if_neg hb
      rw [walk_cons (List.cons_ne_nil b rest) (by rw [hadv]; decide),
        hadv, readLits, if_pos hb, literals_emit]
      exact ih
  | @string m i body rest toks hstep hbody later ih =>
      have hend := stringEnd_body (q := .plain) nofun rest hbody
      have hadv : nextStop (quote :: body ++ quote :: rest)
          = body.length + 2 := by
        rw [← hend]
        rfl
      have hdrop : (body ++ quote :: rest).drop (body.length + 1)
          = rest := by
        rw [← List.drop_drop, List.drop_left]
        rfl
      have htake : (quote :: (body ++ quote :: rest)).take (body.length + 2)
          = quote :: body ++ [quote] := by
        rw [List.take_succ_cons, List.take_length_add_append]
        rfl
      have hnext : (quote :: body ++ quote :: rest).drop (body.length + 2)
          = rest := hdrop
      have hpos : 0 < nextStop (quote :: body ++ quote :: rest) := by
        rw [hadv]
        exact Nat.succ_pos _
      rw [walk_cons (s := quote :: body ++ quote :: rest)
        (List.cons_ne_nil _ _) hpos, hadv, hnext, List.cons_append, readLits,
        if_neg (not_not.2 rfl)]
      dsimp only
      rw [hend, hdrop, colon_follows_iff later, htake]
      obtain ⟨value, hvalue⟩ := Option.isSome_iff_exists.1
        (unquote_isSome hbody)
      have hkey : Scanner.atKey ⟨.endValue, m.stack⟩ = m.atKey := rfl
      rw [hkey]
      cases hk : m.atKey with
      | true =>
          rw [if_pos rfl]
          exact ih
      | false =>
          rw [if_neg Bool.false_ne_true, unmarshalString_literal hbody,
            hvalue]
          have hi : i + (body.length + 2) = i + body.length + 2 := rfl
          rw [hi, ih]
          have : (unquote body).getD [] = value := by rw [hvalue]; rfl
          rw [← this]
          rfl

/-- On a valid document, the string values are those of its tokens. -/
theorem jsonStringValues_eq {raw : Text} {toks : List Token}
    (h : tokens raw = some toks) :
    jsonStringValues raw = some (literals toks) := by
  have hvalid : valid raw = true := by
    unfold valid
    rw [h]
    rfl
  unfold jsonStringValues
  rw [if_pos hvalid]
  exact readLits_reads (reads_iff.1 h)

-- ============================================================= replacement

/-- The document from a position on, with the changed literals written
anew. -/
def spliceFrom (raw : Text) : Nat → List (JsonLit × Text) → Text
  | pos, [] => raw.drop pos
  | pos, (lit, value) :: more =>
      if value = lit.value then spliceFrom raw pos more
      else raw.extract pos lit.start ++ jsonString value
        ++ spliceFrom raw lit.stop more

theorem writeLit_foldl (raw : Text) (pairs : List (JsonLit × Text))
    (acc : Text × Nat) :
    (pairs.foldl (writeLit raw) acc).1
        ++ raw.drop (pairs.foldl (writeLit raw) acc).2
      = acc.1 ++ spliceFrom raw acc.2 pairs := by
  induction pairs generalizing acc with
  | nil => rfl
  | cons p more ih =>
      obtain ⟨lit, value⟩ := p
      rw [List.foldl_cons, ih, spliceFrom]
      unfold writeLit
      by_cases hv : value = lit.value
      · rw [if_pos hv, if_pos hv]
      · rw [if_neg hv, if_neg hv]
        simp only [List.append_assoc]

/-- Nothing was written as long as the position is zero. -/
theorem writeLit_zero (raw : Text) (pairs : List (JsonLit × Text))
    (hstop : ∀ p ∈ pairs, p.1.stop ≠ 0) (acc : Text × Nat)
    (hacc : acc.2 = 0 → acc.1 = []) :
    (pairs.foldl (writeLit raw) acc).2 = 0 →
      (pairs.foldl (writeLit raw) acc).1 = [] := by
  induction pairs generalizing acc with
  | nil => exact hacc
  | cons p more ih =>
      obtain ⟨hp, hmore⟩ := List.forall_mem_cons.1 hstop
      refine ih hmore (writeLit raw acc p) ?_
      unfold writeLit
      split
      next => exact hacc
      next => exact fun h => absurd h hp

theorem replaceJSONValues_eq {raw : Text} {lits : List JsonLit}
    (hstop : ∀ lit ∈ lits, lit.stop ≠ 0) (values : List Text) :
    replaceJSONValues raw lits values
      = spliceFrom raw 0 (lits.zip values) := by
  have hfold := writeLit_foldl raw (lits.zip values) ([], 0)
  have hzero := writeLit_zero raw (lits.zip values)
    (fun p hp => hstop p.1 (List.of_mem_zip hp).1) ([], 0) (fun _ => rfl)
  rw [List.nil_append] at hfold
  unfold replaceJSONValues
  dsimp only
  split
  next h =>
    rw [hzero h, h] at hfold
    exact hfold
  next => exact hfold

theorem extract_append_drop {raw : Text} :
    raw.extract i (i + n) ++ raw.drop (i + n) = raw.drop i := by
  rw [List.extract_eq_take_drop, Nat.add_sub_cancel_left, ← List.drop_drop,
    List.take_append_drop]

theorem extract_append_extract {raw : Text} {j : Nat} (h : i + n ≤ j) :
    raw.extract i (i + n) ++ raw.extract (i + n) j = raw.extract i j := by
  have hsplit : j - i = n + (j - (i + n)) := by omega
  rw [List.extract_eq_take_drop, List.extract_eq_take_drop,
    List.extract_eq_take_drop, Nat.add_sub_cancel_left, hsplit,
    List.take_add, List.drop_drop]

/-- What stands before the next literal is copied. -/
theorem spliceFrom_skip {raw : Text} {pairs : List (JsonLit × Text)}
    (h : ∀ p ∈ pairs, i + n ≤ p.1.start) :
    spliceFrom raw i pairs
      = raw.extract i (i + n) ++ spliceFrom raw (i + n) pairs := by
  induction pairs with
  | nil => exact extract_append_drop.symm
  | cons p more ih =>
      obtain ⟨lit, value⟩ := p
      obtain ⟨hp, hmore⟩ := List.forall_mem_cons.1 h
      rw [spliceFrom, spliceFrom]
      split
      next => exact ih hmore
      next =>
        rw [← extract_append_extract hp]
        simp only [List.append_assoc]

/-- The literals from a position on begin there or later. -/
theorem literals_after {toks : List Token} (h : Reads m i s toks) :
    ∀ lit ∈ literals toks, i ≤ lit.start := by
  induction h with
  | done => exact fun lit hlit => nomatch hlit
  | byte hb hstep later ih =>
      intro lit hlit
      rw [literals_emit] at hlit
      exact Nat.le_of_succ_le (ih lit hlit)
  | @string m i body rest toks hstep hbody later ih =>
      intro lit hlit
      have hlater : ∀ lit ∈ literals toks, i ≤ lit.start := fun lit hlit =>
        Nat.le_trans (by omega) (ih lit hlit)
      cases hk : m.atKey with
      | true =>
          rw [hk] at hlit
          exact hlater lit hlit
      | false =>
          rw [hk] at hlit
          rcases List.mem_cons.1 hlit with rfl | hlit
          · exact Nat.le_refl i
          · exact hlater lit hlit

theorem unplaced_emit (b : UInt8) (toks : List Token) :
    (emit b toks).map unplaced = emit b (toks.map unplaced) := by
  unfold emit
  split <;> rfl

theorem exchanged_emit (b : UInt8) (toks : List Token)
    (values : List Text) :
    exchanged (emit b toks) values = emit b (exchanged toks values) := by
  unfold emit
  split
  next => rfl
  next => cases values <;> rfl

theorem exchanged_key (i : Nat) (body : Text) (toks : List Token)
    (values : List Text) :
    exchanged (.string true i body :: toks) values
      = .string true 0 body :: exchanged toks values := by
  cases values <;> rfl

theorem run_newBody (h : InString.plain.run body = some .plain) (value : Text)
    : InString.plain.run (newBody body value) = some .plain := by
  unfold newBody
  split
  next => exact h
  next => exact run_quoteBody value

/-- The front of the rest of the document. -/
theorem extract_front {raw front rest : Text} (h : raw.drop i = front ++ rest)
    : raw.extract i (i + front.length) = front
      ∧ raw.drop (i + front.length) = rest := by
  rw [List.extract_eq_take_drop, Nat.add_sub_cancel_left,
    ← List.drop_drop, h]
  exact ⟨List.take_left, List.drop_left⟩

/-- A literal at the position, and what is written for it. -/
theorem spliceFrom_literal {raw rest value : Text}
    {more : List (JsonLit × Text)}
    (hraw : raw.drop i = quote :: body ++ quote :: rest)
    (hmore : ∀ p ∈ more, i + body.length + 2 ≤ p.1.start) :
    spliceFrom raw i ((⟨i, i + body.length + 2,
        (unquote body).getD []⟩, value) :: more)
      = quote :: newBody body value
        ++ quote :: spliceFrom raw (i + body.length + 2) more := by
  rw [spliceFrom]
  unfold newBody
  split
  next =>
    have hfront : raw.drop i = (quote :: body ++ [quote]) ++ rest := by
      rw [hraw, List.append_assoc]
      rfl
    have hlen : (quote :: body ++ [quote]).length = body.length + 2 := by
      rw [List.length_append]
      rfl
    have hcopy := (extract_front hfront).1
    rw [hlen] at hcopy
    rw [spliceFrom_skip (n := body.length + 2) hmore, hcopy,
      List.append_assoc]
    rfl
  next =>
    have hnone : raw.extract i i = [] := by
      rw [List.extract_eq_take_drop, Nat.sub_self, List.take_zero]
    rw [hnone, List.nil_append]
    unfold jsonString
    rw [List.append_assoc]
    rfl

/-- The document with the changed literals written anew is read as the
document was, with those strings exchanged. -/
theorem reads_spliceFrom {toks : List Token} (h : Reads m i s toks)
    {raw : Text} (hraw : raw.drop i = s) {values : List Text}
    (hlen : values.length = (literals toks).length) (place : Nat) :
    ∃ toks', Reads m place
        (spliceFrom raw i ((literals toks).zip values)) toks'
      ∧ toks'.map unplaced = exchanged toks values := by
  induction h generalizing values place with
  | done hend =>
      refine ⟨[], ?_, by cases values <;> rfl⟩
      have : spliceFrom raw _ ((literals []).zip values) = [] := hraw
      rw [this]
      exact .done hend
  | @byte m m' i b rest toks hb hstep later ih =>
      have hfront := @extract_front i raw [b] rest hraw
      rw [literals_emit] at hlen ⊢
      have hafter : ∀ p ∈ (literals toks).zip values, i + 1 ≤ p.1.start :=
        fun p hp => literals_after later p.1 (List.of_mem_zip hp).1
      obtain ⟨toks', hread, htoks⟩ := ih hfront.2 hlen (place + 1)
      refine ⟨emit b toks', ?_, ?_⟩
      · rw [spliceFrom_skip hafter]
        have hcopy : raw.extract i (i + 1) = [b] := hfront.1
        rw [hcopy]
        exact .byte hb hstep hread
      · rw [unplaced_emit, exchanged_emit, htoks]
  | @string m i body rest toks hstep hbody later ih =>
      have hfront : raw.drop i = (quote :: body ++ [quote]) ++ rest := by
        rw [hraw, List.append_assoc]
        rfl
      have hlenLit : (quote :: body ++ [quote]).length
          = body.length + 2 := by
        rw [List.length_append]
        rfl
      obtain ⟨hcopy, hrest⟩ := extract_front hfront
      rw [hlenLit] at hcopy hrest
      have hafter : ∀ (values : List Text),
          ∀ p ∈ (literals toks).zip values,
            i + body.length + 2 ≤ p.1.start :=
        fun values p hp => literals_after later p.1 (List.of_mem_zip hp).1
      cases hk : m.atKey with
      | true =>
          rw [hk] at hlen
          obtain ⟨toks', hread, htoks⟩ :=
            ih hrest hlen (place + body.length + 2)
          refine ⟨.string m.atKey place body :: toks', ?_, ?_⟩
          · have hskip : spliceFrom raw i ((literals toks).zip values)
                = raw.extract i (i + (body.length + 2)) ++ spliceFrom raw
                  (i + (body.length + 2)) ((literals toks).zip values) :=
              spliceFrom_skip (hafter values)
            change Reads m place (spliceFrom raw i
              ((literals toks).zip values)) _
            rw [hskip, hcopy, List.append_assoc]
            exact .string hstep hbody hread
          · rw [exchanged_key, hk, ← htoks]
            rfl
      | false =>
          rw [hk] at hlen
          cases values with
          | nil => cases hlen
          | cons value values =>
              obtain ⟨toks', hread, htoks⟩ := ih hrest
                (Nat.succ.inj hlen)
                (place + (newBody body value).length + 2)
              refine ⟨.string m.atKey place (newBody body value) :: toks',
                ?_, ?_⟩
              · change Reads m place (spliceFrom raw i
                  ((⟨i, i + body.length + 2, (unquote body).getD []⟩, value)
                    :: (literals toks).zip values)) _
                rw [spliceFrom_literal hraw (hafter values)]
                exact .string hstep (run_newBody hbody value) hread
              · rw [hk, List.map_cons, htoks]
                rfl

-- ================================================================ decoding

theorem unplaced_event (tok : Token) : (unplaced tok).event = tok.event := by
  cases tok with
  | mark b => rfl
  | string key start body => cases key <;> rfl

theorem event_newBody (start : Nat) (body value : Text) :
    (Token.string false 0 (newBody body value)).event
      = .text (stored ⟨start, start + body.length + 2,
          (unquote body).getD []⟩ value) := by
  change Event.text ((unquote (newBody body value)).getD []) = _
  unfold newBody stored
  split
  next h => rw [← h]
  next => rw [unquote_quoteBody]; rfl

theorem withTexts_mark (b : UInt8) (events : List Event)
    (values : List Text) :
    withTexts (.mark b :: events) values
      = .mark b :: withTexts events values := by
  cases values <;> rfl

theorem withTexts_key (name : Text) (events : List Event)
    (values : List Text) :
    withTexts (.key name :: events) values
      = .key name :: withTexts events values := by
  cases values <;> rfl

/-- What the exchanged tokens say. -/
theorem exchanged_events {toks : List Token} {values : List Text}
    (hlen : values.length = (literals toks).length) :
    (exchanged toks values).map Token.event
      = withTexts (toks.map Token.event)
          ((literals toks).zipWith stored values) := by
  induction toks generalizing values with
  | nil => cases values <;> rfl
  | cons tok toks ih =>
      cases tok with
      | mark b =>
          have hex : exchanged (.mark b :: toks) values
              = .mark b :: exchanged toks values := by
            cases values <;> rfl
          rw [hex, List.map_cons, ih hlen, List.map_cons]
          exact (withTexts_mark b _ _).symm
      | string key start body =>
          cases key with
          | true =>
              rw [exchanged_key, List.map_cons, ih hlen, List.map_cons]
              exact (withTexts_key _ _ _).symm
          | false =>
              cases values with
              | nil => cases hlen
              | cons value values =>
                  change (Token.string false 0 (newBody body value)).event
                    :: (exchanged toks values).map Token.event = _
                  rw [event_newBody start, ih (Nat.succ.inj hlen)]
                  rfl

/-- UTF-8 is stored as it is. -/
theorem stored_wellFormed {lits : List JsonLit} {values : List Text}
    (hlen : values.length = lits.length)
    (h : ∀ value ∈ values, wellFormed value = true) :
    lits.zipWith stored values = values := by
  induction lits generalizing values with
  | nil => rw [List.eq_nil_of_length_eq_zero hlen]; rfl
  | cons lit lits ih =>
      cases values with
      | nil => rfl
      | cons value values =>
          obtain ⟨hvalue, hmore⟩ := List.forall_mem_cons.1 h
          have hstored : stored lit value = value := by
            unfold stored
            split
            next => rfl
            next => exact coerce_eq_self hvalue
          rw [List.zipWith_cons_cons, hstored, ih (Nat.succ.inj hlen) hmore]

theorem spliceFrom_unchanged (raw : Text) (pos : Nat) (lits : List JsonLit) :
    spliceFrom raw pos (lits.zip (lits.map JsonLit.value))
      = raw.drop pos := by
  induction lits with
  | nil => rfl
  | cons lit lits ih =>
      rw [List.map_cons, List.zip_cons_cons, spliceFrom, if_pos rfl]
      exact ih

/-- A literal's range is its place in the document, and its value what
stands there. -/
theorem literals_exact {toks : List Token} (h : Reads m i s toks) {raw : Text}
    (hraw : raw.drop i = s) :
    ∀ lit ∈ literals toks, ∃ body, .string false lit.start body ∈ toks
      ∧ raw.extract lit.start lit.stop = quote :: body ++ [quote]
      ∧ unquote body = some lit.value := by
  induction h with
  | done => exact fun lit hlit => nomatch hlit
  | @byte m m' i b rest toks hb hstep later ih =>
      intro lit hlit
      rw [literals_emit] at hlit
      obtain ⟨body, hmem, hexact⟩ :=
        ih (@extract_front i raw [b] rest hraw).2 lit hlit
      refine ⟨body, ?_, hexact⟩
      unfold emit
      split
      next => exact hmem
      next => exact List.mem_cons_of_mem _ hmem
  | @string m i body rest toks hstep hbody later ih =>
      intro lit hlit
      have hfront : raw.drop i = (quote :: body ++ [quote]) ++ rest := by
        rw [hraw, List.append_assoc]
        rfl
      have hlenLit : (quote :: body ++ [quote]).length
          = body.length + 2 := by
        rw [List.length_append]
        rfl
      obtain ⟨hcopy, hrest⟩ := extract_front hfront
      rw [hlenLit] at hcopy hrest
      have hlater : lit ∈ literals toks → ∃ body',
          .string false lit.start body' ∈ .string m.atKey i body :: toks
            ∧ raw.extract lit.start lit.stop = quote :: body' ++ [quote]
            ∧ unquote body' = some lit.value := by
        intro hlit
        obtain ⟨body', hmem, hexact⟩ := ih hrest lit hlit
        exact ⟨body', List.mem_cons_of_mem _ hmem, hexact⟩
      cases hk : m.atKey with
      | true =>
          rw [hk] at hlit hlater
          exact hlater hlit
      | false =>
          rw [hk] at hlit hlater
          rcases List.mem_cons.1 hlit with rfl | hlit
          · obtain ⟨value, hvalue⟩ := Option.isSome_iff_exists.1
              (unquote_isSome hbody)
            refine ⟨body, List.mem_cons_self, hcopy, ?_⟩
            rw [hvalue]
            rfl
          · exact hlater hlit

theorem literals_stop {toks : List Token} :
    ∀ lit ∈ literals toks, lit.stop ≠ 0 := by
  intro lit hlit
  obtain ⟨tok, -, htok⟩ := List.mem_filterMap.1 hlit
  split at htok
  next => cases htok; exact Nat.succ_ne_zero _
  next => cases htok

section Document

variable {raw : Text} {toks : List Token} {values : List Text}

/-- The tokens of the new document. -/
theorem tokens_replaced (h : tokens raw = some toks)
    (hlen : values.length = (literals toks).length) :
    ∃ toks', tokens (replaceJSONValues raw (literals toks) values)
        = some toks'
      ∧ toks'.map unplaced = exchanged toks values := by
  obtain ⟨toks', hread, htoks⟩ :=
    reads_spliceFrom (reads_iff.1 h) (List.drop_zero) hlen 0
  refine ⟨toks', ?_, htoks⟩
  rw [replaceJSONValues_eq literals_stop]
  exact reads_iff.2 hread

/-- What the new document says. -/
theorem decode_replaced (h : tokens raw = some toks)
    (hlen : values.length = (literals toks).length) :
    decode (replaceJSONValues raw (literals toks) values)
      = some (withTexts (toks.map Token.event)
          ((literals toks).zipWith stored values)) := by
  obtain ⟨toks', htokens, htoks⟩ := tokens_replaced h hlen
  have hevents : toks'.map Token.event
      = (toks'.map unplaced).map Token.event := by
    rw [List.map_map]
    exact List.map_congr_left fun tok _ => (unplaced_event tok).symm
  unfold decode
  rw [htokens, Option.map_some, hevents, htoks, exchanged_events hlen]

/-- The string values are found, with their exact ranges and values; and a
replacement yields a document that says what the old one says, with those
values exchanged. -/
theorem replaceJSONValues_preserves (h : tokens raw = some toks) :
    jsonStringValues raw = some (literals toks)
      ∧ (∀ lit ∈ literals toks, ∃ body,
          .string false lit.start body ∈ toks
            ∧ raw.extract lit.start lit.stop = quote :: body ++ [quote]
            ∧ unquote body = some lit.value)
      ∧ ∀ values : List Text, values.length = (literals toks).length →
          (∃ toks', tokens (replaceJSONValues raw (literals toks) values)
              = some toks'
            ∧ toks'.map unplaced = exchanged toks values)
          ∧ decode (replaceJSONValues raw (literals toks) values)
            = some (withTexts (toks.map Token.event)
                ((literals toks).zipWith stored values))
          ∧ ((∀ value ∈ values, wellFormed value = true) →
              decode (replaceJSONValues raw (literals toks) values)
                = some (withTexts (toks.map Token.event) values))
          ∧ (values = (literals toks).map JsonLit.value →
              replaceJSONValues raw (literals toks) values = raw) := by
  refine ⟨jsonStringValues_eq h,
    literals_exact (reads_iff.1 h) List.drop_zero, fun values hlen =>
    ⟨tokens_replaced h hlen, decode_replaced h hlen, ?_, ?_⟩⟩
  · intro hutf8
    rw [decode_replaced h hlen, stored_wellFormed hlen hutf8]
  · rintro rfl
    rw [replaceJSONValues_eq literals_stop, spliceFrom_unchanged]
    exact List.drop_zero

end Document

/-- The document `{"k":"a\n"}`. -/
def sampleArgs : Text :=
  [0x7B, 0x22, 0x6B, 0x22, 0x3A, 0x22, 0x61, 0x5C, 0x6E, 0x22, 0x7D]

theorem replaceJSONValues_preserves_sample :
    decode (replaceJSONValues sampleArgs
        [⟨5, 10, [0x61, 0x0A]⟩] [[0x62, 0x22]])
      = some [.mark 0x7B, .key [0x6B], .mark 0x3A, .text [0x62, 0x22],
          .mark 0x7D] := by
  have htokens : tokens sampleArgs
      = some [.mark 0x7B, .string true 1 [0x6B], .mark 0x3A,
          .string false 5 [0x61, 0x5C, 0x6E], .mark 0x7D] := by
    decide +kernel
  exact (((replaceJSONValues_preserves htokens).2.2 [[0x62, 0x22]]
    rfl).2.2.1 (by decide +kernel)).trans (by decide +kernel)

/-- A replacement value that is no UTF-8: the document `"a"`, its value
exchanged for the byte 0xFF, says U+FFFD. -/
theorem replaceJSONValues_byte_lost :
    ∃ raw toks values, tokens raw = some toks
      ∧ values.length = (literals toks).length
      ∧ decode (replaceJSONValues raw (literals toks) values)
        ≠ some (withTexts (toks.map Token.event) values) :=
  ⟨[0x22, 0x61, 0x22], [.string false 0 [0x61]], [[0xFF]],
    by decide +kernel⟩

-- ================================================================= targets

/-- What becomes of one argument text under its share of the masked texts,
one for each of its parts: a document stays one, with these for its string
values. -/
def ArgKept (arg : Text) (share : List Text) (arg' : Text) : Prop :=
  share.length = (argParts arg).length
    ∧ ∀ toks, tokens arg = some toks →
      decode arg' = some (withTexts (toks.map Token.event)
        ((literals toks).zipWith stored share))

/-- The masked texts are the arguments' shares, in their order. -/
inductive ArgsKept : List Text → List Text → List Text → Prop
  | nil : ArgsKept [] [] []
  | cons {arg arg' : Text} {share args masked args' : List Text} :
      ArgKept arg share arg' → ArgsKept args masked args' →
      ArgsKept (arg :: args) (share ++ masked) (arg' :: args')

theorem writeArgs_kept {args masked : List Text}
    (hlen : masked.length = (args.flatMap argParts).length) :
    ArgsKept args masked (writeArgs args masked) := by
  induction args generalizing masked with
  | nil =>
      rw [List.length_eq_zero_iff.1 hlen]
      exact .nil
  | cons arg args ih =>
      rw [List.flatMap_cons, List.length_append] at hlen
      have hshare : (masked.take (argParts arg).length).length
          = (argParts arg).length := by
        rw [List.length_take]
        omega
      -- its share is as long as its parts, and the rest is for the others
      have hcons : ∀ arg', ArgKept arg (masked.take (argParts arg).length) arg' →
          ArgsKept (arg :: args) masked
            (arg' :: writeArgs args (masked.drop (argParts arg).length)) := by
        intro arg' harg
        have h := ArgsKept.cons harg
          (@ih (masked.drop (argParts arg).length)
            (by rw [List.length_drop]; omega))
        rw [List.take_append_drop] at h
        exact h
      rw [writeArgs]
      cases hlits : jsonStringValues arg with
      | some lits =>
          have hparts : (argParts arg).length = lits.length := by
            unfold argParts
            rw [hlits, List.length_map]
          rw [hparts] at hshare hcons
          refine hcons _ ⟨hshare.trans hparts.symm, fun toks htoks => ?_⟩
          obtain rfl := Option.some.inj
            (hlits.symm.trans (jsonStringValues_eq htoks))
          exact decode_replaced htoks hshare
      | none =>
          have hparts : (argParts arg).length = 1 := by
            unfold argParts
            rw [hlits]
            rfl
          rw [hparts] at hshare hcons
          refine hcons _ ⟨hshare.trans hparts.symm, fun toks htoks => ?_⟩
          rw [jsonStringValues_eq htoks] at hlits
          cases hlits

/-- A stage with any detectors behind it, as long as they answer one text
for each, keeps every argument document: only its string values change,
each for the answer to its own text. -/
theorem checkTargets_kept {ν : Type}
    {checkAll : List Text → Except ν (List Text)}
    (hall : ∀ parts masked, checkAll parts = .ok masked →
      masked.length = parts.length)
    {t t' : GuardTargets} (h : checkTargets checkAll t = .ok t') :
    t.parts = [] ∧ t' = t
      ∨ ∃ masked, checkAll t.parts = .ok (t'.texts ++ masked)
        ∧ t'.texts.length = t.texts.length
        ∧ ArgsKept t.args masked t'.args := by
  unfold checkTargets at h
  split at h
  next hempty =>
    cases h
    exact .inl ⟨List.isEmpty_iff.1 hempty, rfl⟩
  next =>
    obtain ⟨masked, hmasked, h⟩ := bind_eq_ok.1 h
    cases h
    have hlen := hall _ _ hmasked
    rw [GuardTargets.parts, List.length_append] at hlen
    refine .inr ⟨masked.drop t.texts.length, ?_, ?_, writeArgs_kept ?_⟩
    · rw [List.take_append_drop, hmasked]
    · rw [List.length_take]
      omega
    · rw [List.length_drop]
      omega

/-- Detectors that answer `b` for every text. -/
def maskAll (parts : List Text) : Except Unit (List Text) :=
  .ok (parts.map fun _ => [0x62])

theorem checkTargets_kept_sample :
    ∃ t' masked, checkTargets maskAll ⟨[[0x61]], [sampleArgs]⟩ = .ok t'
      ∧ maskAll ([0x61] :: argParts sampleArgs) = .ok (t'.texts ++ masked)
      ∧ t'.texts.length = 1 ∧ ArgsKept [sampleArgs] masked t'.args := by
  obtain ⟨t', h⟩ : ∃ t',
      checkTargets maskAll ⟨[[0x61]], [sampleArgs]⟩ = .ok t' := ⟨_, rfl⟩
  have hall : ∀ parts masked, maskAll parts = .ok masked →
      masked.length = parts.length := by
    rintro parts masked ⟨⟩
    exact List.length_map _
  obtain ⟨masked, hmasked, htexts, hkept⟩ :=
    (checkTargets_kept hall h).resolve_left fun hempty => by cases hempty.1
  rw [GuardTargets.parts, List.flatMap_singleton] at hmasked
  exact ⟨t', masked, h, hmasked, htexts, hkept⟩

end Elitea.Guardrail
