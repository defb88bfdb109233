/-
The peek decides on the stream, not on how it arrives.

# The scan

`scan_append` is the fact all else rests on: an answer of the scan other
than `more` is its answer on every extension of what it has seen. It is
proved of a round (`scanRound_append`) and then of the loop. What the scan
accepts is what the grammar carries (`scan_eq_hello`): a round that does
not refuse has taken one record (`scanRound_cases`), and the handshake
bytes start with a message exactly when `messageOf` says so.

# The peek

Until it decides the peek has seen only `more`, so by `scan_append` what
it decides after any read is what a scan of the first `limit` bytes of the
stream decides (`judge`, `peek_eq_judge`). The bytes it has read and those
it has not are the stream at every point of the loop.
-/
import Elitea.Egress.Proofs.Parse
import Mathlib.Order.Nat

namespace Elitea.Egress

open Lib.Wire Grammar

variable {maxBytes limit fuel off : Nat} {hs buf rest x : Bytes}
  {target : Target} {h : Hello} {ch : ClientHello}

-- ============================================================== the message

theorem length_encodeBlock_lt (ch : ClientHello) :
    (ClientHello.encodeBlock ch.block).length < 65538 := by
  cases hblock : ch.block with
  | none => exact Nat.zero_lt_succ _
  | some es =>
      have := ch.block_fits es hblock
      rw [ClientHello.encodeBlock, length_putVec16]
      omega

/-- The vectors bound the body, so its length fits the header. -/
theorem length_encode_lt (ch : ClientHello) : ch.encode.length < 2 ^ 24 := by
  have hblock := length_encodeBlock_lt ch
  have hv := ch.version_length
  have hr := ch.random_length
  have hsid := ch.sessionId_le
  have hsuites := ch.suites_pairs
  have hcomp := ch.compression_some
  simp only [ClientHello.encode, List.length_append, length_putVec8,
    length_putVec16]
  omega

theorem length_message (ch : ClientHello) :
    ch.message.length = 4 + ch.encode.length := by
  simp only [ClientHello.message, put24, put16, List.length_cons,
    List.length_append, List.length_nil]
  omega

theorem messageOf_message (ch : ClientHello)
    (hle : ch.message.length ≤ maxBytes) :
    messageOf maxBytes (ch.message ++ x) = some (.hello (hello ch)) := by
  have hlen : u24 (put24 ch.encode.length ++ (ch.encode ++ x))
      = some (ch.encode.length, ch.encode ++ x) :=
    u24_eq_some.2 ⟨length_encode_lt ch, rfl⟩
  rw [length_message] at hle
  rw [ClientHello.message, List.cons_append, List.append_assoc]
  simp only [messageOf, hlen]
  rw [if_neg (not_not.2 rfl), if_neg (by omega),
    if_neg (by rw [List.length_append]; omega), List.take_left,
    parse_eq_some.2 ⟨ch, rfl, rfl⟩]

/-- Only a message of the grammar is a hello. -/
theorem messageOf_eq_hello (heq : messageOf maxBytes hs = some (.hello h)) :
    ∃ ch, ch.message <+: hs ∧ h = hello ch := by
  cases hs with
  | nil => cases heq
  | cons t hs =>
      rw [messageOf] at heq
      cases hlen : u24 hs with
      | none => rw [hlen] at heq; cases heq
      | some p =>
          obtain ⟨bodyLen, body⟩ := p
          obtain ⟨-, rfl⟩ := u24_eq_some.1 hlen
          rw [hlen] at heq
          dsimp only at heq
          split at heq
          · cases heq
          next ht =>
          split at heq
          · cases heq
          split at heq
          · cases heq
          next hshort =>
          cases hparse : parseClientHello (body.take bodyLen) with
          | none => rw [hparse] at heq; cases heq
          | some h' =>
              rw [hparse] at heq
              cases heq
              obtain ⟨ch, hbody, rfl⟩ := parse_eq_some.1 hparse
              refine ⟨ch, ⟨body.drop bodyLen, ?_⟩, rfl⟩
              have hn : ch.encode.length = bodyLen := by
                rw [← hbody, List.length_take]
                omega
              rw [ClientHello.message, hn, ← hbody, not_not.1 ht,
                List.cons_append, List.append_assoc, List.take_append_drop]

/-- What the handshake bytes decide more of them do not change. -/
theorem messageOf_append {answer : Scan}
    (heq : messageOf maxBytes hs = some answer) :
    messageOf maxBytes (hs ++ x) = some answer := by
  cases hs with
  | nil => cases heq
  | cons t hs =>
      rw [messageOf] at heq
      cases hlen : u24 hs with
      | none => rw [hlen] at heq; cases heq
      | some p =>
          obtain ⟨bodyLen, body⟩ := p
          obtain ⟨hlt, rfl⟩ := u24_eq_some.1 hlen
          have hlen' : u24 (put24 bodyLen ++ body ++ x)
              = some (bodyLen, body ++ x) :=
            u24_eq_some.2 ⟨hlt, List.append_assoc _ _ _⟩
          rw [hlen] at heq
          dsimp only at heq
          rw [List.cons_append, messageOf, hlen']
          dsimp only
          split at heq
          · next ht => rwa [if_pos ht]
          next ht =>
          rw [if_neg ht]
          split at heq
          · next hbig => rwa [if_pos hbig]
          next hbig =>
          rw [if_neg hbig]
          split at heq
          · cases heq
          next hshort =>
          rw [if_neg (by rw [List.length_append]; omega),
            List.take_append_of_le_length (by omega)]
          exact heq

theorem messageOf_ne_notTLS : messageOf maxBytes hs ≠ some .notTLS := by
  cases hs with
  | nil => rintro ⟨⟩
  | cons t hs =>
      rw [messageOf]
      cases u24 hs with
      | none => rintro ⟨⟩
      | some p =>
          dsimp only
          split_ifs
          · rintro ⟨⟩
          · rintro ⟨⟩
          · rintro ⟨⟩
          · cases parseClientHello (p.2.take p.1) with
            | none => rintro ⟨⟩
            | some h => rintro ⟨⟩

-- ================================================================== a round

theorem length_record (r : Record) :
    r.encode.length = 5 + r.payload.length := by
  simp only [Record.encode, List.length_cons, length_putVec16]
  omega

theorem scanRound_record (r : Record)
    (hle : off + r.encode.length ≤ maxBytes) :
    scanRound maxBytes hs off (r.encode ++ rest)
      = afterRecord maxBytes (hs ++ r.payload) (off + r.encode.length)
          rest := by
  have hpos := r.payload_pos
  have hmax := r.payload_le
  have hlen : u16 (putVec16 r.payload ++ rest)
      = some (r.payload.length, r.payload ++ rest) := by
    refine u16_eq_some.2 ⟨?_, List.append_assoc _ _ _⟩
    exact Nat.lt_of_le_of_lt hmax (by decide)
  rw [length_record] at hle ⊢
  rw [Record.encode, List.cons_append, scanRound, if_neg (not_not.2 rfl)]
  simp only [List.cons_append, List.head?_cons, List.drop_succ_cons,
    List.drop_zero, hlen]
  rw [if_neg (by decide), if_neg (by omega), if_neg (by omega),
    if_neg (by rw [List.length_append]; omega), List.take_left,
    List.drop_left, Nat.add_assoc]

/-- A round refuses, waits, or has taken a record that fits. -/
theorem scanRound_cases (maxBytes : Nat) (hs : Bytes) (off : Nat)
    (buf : Bytes) :
    (∃ answer ∈ [Scan.more, .malformed, .tooLarge],
      scanRound maxBytes hs off buf = .done answer)
    ∨ ∃ (r : Record) (rest : Bytes), buf = r.encode ++ rest
        ∧ off + r.encode.length ≤ maxBytes := by
  cases buf with
  | nil => exact .inl ⟨.more, by simp, rfl⟩
  | cons t rest =>
      rw [scanRound]
      split
      · exact .inl ⟨.malformed, by simp, rfl⟩
      next ht =>
      split
      · exact .inl ⟨.malformed, by simp, rfl⟩
      next hmajor =>
      cases hlen : u16 (rest.drop 2) with
      | none => exact .inl ⟨.more, by simp, rfl⟩
      | some p =>
          obtain ⟨n, body⟩ := p
          dsimp only
          split
          · exact .inl ⟨.malformed, by simp, rfl⟩
          next hn =>
          split
          · exact .inl ⟨.tooLarge, by simp, rfl⟩
          next hfits =>
          split
          · exact .inl ⟨.more, by simp, rfl⟩
          next hbody =>
          right
          obtain ⟨-, hdrop⟩ := u16_eq_some.1 hlen
          match rest, hmajor, hdrop with
          | major :: minor :: rest, hmajor, hdrop =>
              have hpayload : (body.take n).length = n :=
                List.length_take_of_le (by omega)
              refine ⟨⟨minor, body.take n, by omega, by omega⟩, body.drop n,
                ?_, ?_⟩
              · have h3 : major = 0x03 := by simpa using hmajor
                show t :: major :: minor :: rest = recordTypeHandshake
                  :: 0x03 :: minor :: (put16 (body.take n).length
                    ++ body.take n ++ body.drop n)
                rw [hpayload, List.append_assoc, List.take_append_drop,
                  ← hdrop, not_not.1 ht, h3]
                rfl
              · rw [length_record]
                dsimp only
                omega

/-- What a round does with more bytes behind those it looks at. -/
def Round.append : Round → Bytes → Round
  | .done answer, _ => .done answer
  | .next hs off rest, x => .next hs off (rest ++ x)

theorem afterRecord_append :
    afterRecord maxBytes hs off (rest ++ x)
      = (afterRecord maxBytes hs off rest).append x := by
  unfold afterRecord
  cases messageOf maxBytes hs with
  | none => rfl
  | some answer => rfl

theorem scanRound_append
    (hmore : scanRound maxBytes hs off buf ≠ .done .more) :
    scanRound maxBytes hs off (buf ++ x)
      = (scanRound maxBytes hs off buf).append x := by
  cases buf with
  | nil => exact absurd rfl hmore
  | cons t rest =>
      rw [scanRound] at hmore
      rw [List.cons_append, scanRound, scanRound]
      split at hmore
      · next ht => rw [if_pos ht, if_pos ht]; rfl
      next ht =>
      rw [if_neg ht, if_neg ht]
      cases rest with
      | nil => exact absurd rfl hmore
      | cons major rest =>
          simp only [List.cons_append, List.head?_cons, Option.any_some,
            decide_eq_true_eq] at hmore ⊢
          split at hmore
          · next hmajor => rw [if_pos hmajor, if_pos hmajor]; rfl
          next hmajor =>
          rw [if_neg hmajor, if_neg hmajor]
          cases hlen : u16 ((major :: rest).drop 2) with
          | none => rw [hlen] at hmore; exact absurd rfl hmore
          | some p =>
              obtain ⟨n, body⟩ := p
              have hlen' : u16 ((major :: (rest ++ x)).drop 2)
                  = some (n, body ++ x) := by
                obtain ⟨hlt, hdrop⟩ := u16_eq_some.1 hlen
                refine u16_eq_some.2 ⟨hlt, ?_⟩
                cases rest with
                | nil => cases hdrop
                | cons minor rest =>
                    rw [← List.append_assoc, ← hdrop]
                    rfl
              rw [hlen] at hmore
              rw [hlen']
              dsimp only at hmore ⊢
              split at hmore
              · next hn => rw [if_pos hn, if_pos hn]; rfl
              next hn =>
              rw [if_neg hn, if_neg hn]
              split at hmore
              · next hfits => rw [if_pos hfits, if_pos hfits]; rfl
              next hfits =>
              rw [if_neg hfits, if_neg hfits]
              split at hmore
              · exact absurd rfl hmore
              next hbody =>
              rw [if_neg (by rw [List.length_append]; omega), if_neg hbody,
                List.take_append_of_le_length (by omega),
                List.drop_append_of_le_length (by omega)]
              exact afterRecord_append

-- ================================================================= the loop

theorem afterRecord_eq_next {hs' rest' : Bytes} {off' : Nat}
    (heq : afterRecord maxBytes hs off rest = .next hs' off' rest') :
    messageOf maxBytes hs = none ∧ hs' = hs ∧ off' = off ∧ rest' = rest := by
  unfold afterRecord at heq
  cases h : messageOf maxBytes hs with
  | none =>
      rw [h] at heq
      cases heq
      exact ⟨rfl, rfl, rfl, rfl⟩
  | some answer => rw [h] at heq; cases heq

/-- A round that goes on has taken a record. -/
theorem length_next {hs' rest' : Bytes} {off' : Nat}
    (heq : scanRound maxBytes hs off buf = .next hs' off' rest') :
    rest'.length < buf.length := by
  rcases scanRound_cases maxBytes hs off buf with
    ⟨answer, -, h⟩ | ⟨r, rest, rfl, hle⟩
  · rw [h] at heq
    cases heq
  · rw [scanRound_record r hle] at heq
    obtain ⟨-, -, -, rfl⟩ := afterRecord_eq_next heq
    rw [List.length_append, length_record]
    omega

/-- The number of bytes is enough fuel. -/
theorem scanLoop_fuel {fuel' : Nat} (hfuel : buf.length < fuel)
    (hfuel' : buf.length < fuel') :
    scanLoop maxBytes fuel hs off buf = scanLoop maxBytes fuel' hs off buf := by
  induction fuel generalizing fuel' hs off buf with
  | zero => omega
  | succ fuel ih =>
      cases fuel' with
      | zero => omega
      | succ fuel' =>
          rw [scanLoop, scanLoop]
          cases hround : scanRound maxBytes hs off buf with
          | done answer => rfl
          | next hs' off' rest' =>
              have := length_next hround
              exact ih (by omega) (by omega)

theorem scanLoop_append
    (hmore : scanLoop maxBytes fuel hs off buf ≠ .more) :
    scanLoop maxBytes fuel hs off (buf ++ x)
      = scanLoop maxBytes fuel hs off buf := by
  induction fuel generalizing hs off buf with
  | zero => exact absurd rfl hmore
  | succ fuel ih =>
      rw [scanLoop] at hmore
      rw [scanLoop, scanLoop]
      cases hround : scanRound maxBytes hs off buf with
      | done answer =>
          rw [hround] at hmore
          have hne : scanRound maxBytes hs off buf ≠ .done .more := by
            rw [hround]
            rintro ⟨⟩
            exact hmore rfl
          rw [scanRound_append hne, hround]
          rfl
      | next hs' off' rest' =>
          rw [hround] at hmore
          rw [scanRound_append (by rw [hround]; rintro ⟨⟩), hround]
          exact ih hmore

theorem scanLoop_ne_notTLS :
    scanLoop maxBytes fuel hs off buf ≠ .notTLS := by
  induction fuel generalizing hs off buf with
  | zero => rintro ⟨⟩
  | succ fuel ih =>
      rw [scanLoop]
      rcases scanRound_cases maxBytes hs off buf with
        ⟨answer, hmem, h⟩ | ⟨r, rest, rfl, hle⟩
      · rw [h]
        rintro rfl
        simp at hmem
      · rw [scanRound_record r hle, afterRecord]
        cases h : messageOf maxBytes (hs ++ r.payload) with
        | none => exact ih
        | some answer =>
            rintro rfl
            exact messageOf_ne_notTLS h

/-- The loop accepts records that complete a message. -/
theorem scanLoop_of_message (ch : ClientHello)
    (hch : ch.message.length ≤ maxBytes) (rs : List Record)
    (hnone : messageOf maxBytes hs = none)
    (hpre : ch.message <+: hs ++ rs.flatMap Record.payload)
    (hle : off + (rs.flatMap Record.encode).length ≤ maxBytes)
    (hfuel : rs.length ≤ fuel) :
    scanLoop maxBytes fuel hs off (rs.flatMap Record.encode ++ x)
      = .hello (hello ch) := by
  obtain ⟨extra, hextra⟩ := hpre
  have hmsg := messageOf_message (x := extra) ch hch
  rw [hextra] at hmsg
  clear hextra
  induction rs generalizing hs off fuel with
  | nil =>
      rw [List.flatMap_nil, List.append_nil, hnone] at hmsg
      cases hmsg
  | cons r rs ih =>
      cases fuel with
      | zero => cases hfuel
      | succ fuel =>
          rw [List.flatMap_cons, List.length_append] at hle
          rw [List.flatMap_cons, ← List.append_assoc] at hmsg
          rw [scanLoop, List.flatMap_cons, List.append_assoc,
            scanRound_record r (by omega), afterRecord]
          cases h : messageOf maxBytes (hs ++ r.payload) with
          | some answer =>
              rw [messageOf_append h] at hmsg
              exact Option.some.inj hmsg
          | none =>
              exact ih h (by omega) (Nat.le_of_succ_le_succ hfuel) hmsg

/-- And nothing else. -/
theorem scanLoop_eq_hello (heq : scanLoop maxBytes fuel hs off buf = .hello h)
    : ∃ (ch : ClientHello) (rs : List Record),
      rs.flatMap Record.encode <+: buf
        ∧ off + (rs.flatMap Record.encode).length ≤ maxBytes
        ∧ ch.message <+: hs ++ rs.flatMap Record.payload
        ∧ h = hello ch := by
  induction fuel generalizing hs off buf with
  | zero => cases heq
  | succ fuel ih =>
      rw [scanLoop] at heq
      rcases scanRound_cases maxBytes hs off buf with
        ⟨answer, hmem, hround⟩ | ⟨r, rest, rfl, hle⟩
      · rw [hround] at heq
        dsimp only at heq
        rw [heq] at hmem
        simp at hmem
      · rw [scanRound_record r hle, afterRecord] at heq
        cases hmsg : messageOf maxBytes (hs ++ r.payload) with
        | some answer =>
            rw [hmsg] at heq
            dsimp only at heq
            rw [heq] at hmsg
            obtain ⟨ch, hpre, rfl⟩ := messageOf_eq_hello hmsg
            refine ⟨ch, [r], ?_, ?_, ?_, rfl⟩
            · rw [List.flatMap_singleton]
              exact List.prefix_append _ _
            · rwa [List.flatMap_singleton]
            · rwa [List.flatMap_singleton]
        | none =>
            rw [hmsg] at heq
            obtain ⟨ch, rs, hrs, htotal, hpre, rfl⟩ := ih heq
            refine ⟨ch, r :: rs, ?_, ?_, ?_, rfl⟩
            · rw [List.flatMap_cons]
              exact (List.prefix_append_right_inj _).2 hrs
            · rw [List.flatMap_cons, List.length_append]
              omega
            · rwa [List.flatMap_cons, ← List.append_assoc]

-- ================================================================= the scan

theorem scan_append (hmore : scanClientHello buf maxBytes ≠ .more) :
    scanClientHello (buf ++ x) maxBytes = scanClientHello buf maxBytes := by
  unfold scanClientHello at hmore ⊢
  cases buf with
  | nil => exact absurd rfl hmore
  | cons t rest =>
      rw [if_neg (List.cons_ne_nil _ _)] at hmore ⊢
      rw [if_neg (by simp), List.cons_append, List.head?_cons,
        List.head?_cons]
      rw [List.head?_cons] at hmore
      split at hmore
      · next ht => rw [if_pos ht, if_pos ht]
      next ht =>
      rw [if_neg ht, if_neg ht, ← List.cons_append]
      have hfuel : scanLoop maxBytes ((t :: rest).length + 1) [] 0 (t :: rest)
          = scanLoop maxBytes ((t :: rest ++ x).length + 1) [] 0 (t :: rest) :=
        scanLoop_fuel (Nat.lt_succ_self _)
          (Nat.lt_succ_of_le (List.prefix_append (t :: rest) x).length_le)
      rw [hfuel] at hmore ⊢
      exact scanLoop_append hmore

theorem length_payloads_le (rs : List Record) :
    (rs.flatMap Record.payload).length
      ≤ (rs.flatMap Record.encode).length := by
  induction rs with
  | nil => exact Nat.le_refl _
  | cons r rs ih =>
      rw [List.flatMap_cons, List.flatMap_cons, List.length_append,
        List.length_append, length_record]
      omega

theorem length_le_encode (rs : List Record) :
    rs.length ≤ (rs.flatMap Record.encode).length := by
  induction rs with
  | nil => exact Nat.le_refl _
  | cons r rs ih =>
      rw [List.flatMap_cons, List.length_append, length_record,
        List.length_cons]
      omega

/-- The scan accepts what the grammar carries. -/
theorem scan_of_carries (hc : Carries limit buf ch) :
    scanClientHello buf limit = .hello (hello ch) := by
  obtain ⟨rs, ⟨tail, rfl⟩, hle, hpre⟩ := hc
  have hch : ch.message.length ≤ limit :=
    (hpre.length_le.trans (length_payloads_le rs)).trans hle
  cases rs with
  | nil =>
      rw [List.flatMap_nil, List.prefix_nil] at hpre
      cases hpre
  | cons r rs =>
      have hfirst : ∃ rest, (r :: rs).flatMap Record.encode ++ tail
          = recordTypeHandshake :: rest := ⟨_, rfl⟩
      obtain ⟨rest, hfirst⟩ := hfirst
      unfold scanClientHello
      rw [if_neg (by rw [hfirst]; simp), if_neg (by rw [hfirst]; simp)]
      refine scanLoop_of_message ch hch (r :: rs) rfl hpre (by omega) ?_
      have := length_le_encode (r :: rs)
      rw [List.length_append]
      omega

theorem scan_eq_hello :
    scanClientHello buf limit = .hello h ↔
      ∃ ch, Carries limit buf ch ∧ h = hello ch := by
  constructor
  · intro heq
    unfold scanClientHello at heq
    split at heq
    · cases heq
    split at heq
    · cases heq
    obtain ⟨ch, rs, hrs, hle, hpre, rfl⟩ := scanLoop_eq_hello heq
    exact ⟨ch, ⟨rs, hrs, by omega, hpre⟩, rfl⟩
  · rintro ⟨ch, hc, rfl⟩
    exact scan_of_carries hc

theorem scan_eq_notTLS :
    scanClientHello buf limit = .notTLS ↔
      ∃ first rest, buf = first :: rest ∧ first ≠ recordTypeHandshake := by
  unfold scanClientHello
  cases buf with
  | nil => simp
  | cons first rest =>
      rw [if_neg (List.cons_ne_nil _ _), List.head?_cons]
      constructor
      · intro heq
        split at heq
        · next hne => exact ⟨first, rest, rfl, by simpa using hne⟩
        · exact absurd heq scanLoop_ne_notTLS
      · rintro ⟨first', rest', heq, hne⟩
        cases heq
        rw [if_pos (by simpa using hne)]

/-- Only the first bytes up to the bound matter. -/
theorem carries_take :
    Carries limit (buf.take limit) ch ↔ Carries limit buf ch := by
  constructor
  · rintro ⟨rs, hrs, hle, hpre⟩
    exact ⟨rs, hrs.trans (List.take_prefix _ _), hle, hpre⟩
  · rintro ⟨rs, hrs, hle, hpre⟩
    exact ⟨rs, List.prefix_take_iff.2 ⟨hrs, hle⟩, hle, hpre⟩

-- ================================================================= the host

theorem all_zip_iff {f : UInt8 → UInt8} {a b : Bytes}
    (hlen : a.length = b.length) :
    ((a.zip b).all fun p => f p.1 = f p.2) = true ↔ a.map f = b.map f := by
  induction a generalizing b with
  | nil =>
      rw [List.length_eq_zero_iff.1 hlen.symm]
      exact iff_of_true rfl rfl
  | cons c a ih =>
      cases b with
      | nil => cases hlen
      | cons d b =>
          rw [List.zip_cons_cons, List.all_cons, Bool.and_eq_true,
            ih (Nat.succ.inj hlen), List.map_cons, List.map_cons,
            List.cons.injEq, decide_eq_true_iff]

/-- Against a host that is not empty the comparison is equality of the
folded names. -/
theorem sameHost_iff (target : Target) (name : Bytes) :
    sameHost name target.host = true ↔ SameName name target.host := by
  simp only [sameHost, SameName, Bool.and_eq_true, decide_eq_true_iff]
  constructor
  · rintro ⟨⟨-, hlen⟩, hall⟩
    exact (all_zip_iff hlen).1 hall
  · intro heq
    have hlen : (trimOneDot name).length = (trimOneDot target.host).length := by
      simpa using congrArg List.length heq
    refine ⟨⟨?_, hlen⟩, (all_zip_iff hlen).2 heq⟩
    intro hnil
    rw [hnil] at hlen
    exact target.named (List.length_eq_zero_iff.1 hlen.symm)

-- ================================================================= the peek

/-- A decision without the bytes it replays. -/
def Decision.kind : Decision → Decision
  | .proceed _ => .proceed []
  | d => d

/-- What the stream decides: the first `limit` bytes at once. -/
def judge (limit : Nat) (target : Target) (stream : Bytes) : Decision :=
  match verdict target [] (scanClientHello (stream.take limit) limit) with
  | some decision => decision
  | none =>
      if limit ≤ stream.length then .refused .clientHelloTooLarge
      else .closed

/-- A verdict replays what was read; its kind is a matter of the scan. -/
theorem verdict_eq (target : Target) (buf : Bytes) (scan : Scan) :
    (scan = .more ∧ verdict target buf scan = none)
    ∨ (scan ≠ .more ∧ ∃ d, verdict target buf scan = some d
        ∧ verdict target [] scan = some d.kind
        ∧ ∀ b, d = .proceed b → b = buf) := by
  -- every branch but `more` either proceeds with `buf` or refuses
  have hif : ∀ (p : Prop) [Decidable p] (reason : Reason),
      ∃ d : Decision,
        (if p then some (Decision.proceed buf) else some (.refused reason))
          = some d
        ∧ (if p then some (Decision.proceed []) else some (.refused reason))
          = some d.kind
        ∧ ∀ b, d = .proceed b → b = buf := by
    intro p hp reason
    by_cases hp : p
    · simp only [hp, if_true]
      exact ⟨_, rfl, rfl, by rintro b ⟨⟩; rfl⟩
    · simp only [hp, if_false]
      exact ⟨_, rfl, rfl, by rintro b ⟨⟩⟩
  cases scan with
  | more => exact .inl ⟨rfl, rfl⟩
  | malformed =>
      exact .inr ⟨by rintro ⟨⟩, _, rfl, rfl, by rintro b ⟨⟩⟩
  | tooLarge =>
      exact .inr ⟨by rintro ⟨⟩, _, rfl, rfl, by rintro b ⟨⟩⟩
  | notTLS =>
      refine .inr ⟨by rintro ⟨⟩, ?_⟩
      simp only [verdict]
      rw [← ite_not, ← ite_not (p := target.port = 443)]
      exact hif _ _
  | hello hello =>
      refine .inr ⟨by rintro ⟨⟩, ?_⟩
      simp only [verdict]
      cases hello.serverName with
      | none => exact hif _ _
      | some name => exact hif _ _

/-- A peek that has seen only `more` so far decides as the stream does, and
has the stream's bytes. -/
theorem peek_eq_judge {sizes : List Nat} {unread : Bytes} {d : Decision}
    (hle : buf.length ≤ limit) (hmore : scanClientHello buf limit = .more)
    (h : peek limit target sizes buf rest = some (d, unread)) :
    d.kind = judge limit target (buf ++ rest)
      ∧ (∀ b, d = .proceed b → b ++ unread = buf ++ rest) := by
  induction sizes generalizing buf rest with
  | nil => cases h
  | cons size sizes ih =>
      rw [peek] at h
      split at h
      · next hfull =>
          obtain ⟨rfl, rfl⟩ := Prod.mk.inj (Option.some.inj h)
          have htake : (buf ++ rest).take limit = buf := by
            rw [show limit = buf.length by omega, List.take_left]
          refine ⟨?_, by rintro b ⟨⟩⟩
          rw [judge, htake, hmore]
          dsimp only [verdict]
          rw [if_pos (by rw [List.length_append]; omega)]
          rfl
      next hroom =>
      split at h
      · next hend =>
          cases h
          refine ⟨?_, by rintro b ⟨⟩⟩
          rw [hend, List.append_nil, judge, List.take_of_length_le hle, hmore]
          dsimp only [verdict]
          rw [if_neg hroom]
          rfl
      dsimp only at h
      split at h
      · exact ih hle hmore h
      -- the read took `n` of the bytes to come
      generalize hn : min size (min (limit - buf.length) chunkSize) = n at h
      have hsplit : buf ++ rest.take n ++ rest.drop n = buf ++ rest := by
        rw [List.append_assoc, List.take_append_drop]
      have hlen : (buf ++ rest.take n).length ≤ limit := by
        rw [List.length_append, List.length_take]
        omega
      rcases verdict_eq target (buf ++ rest.take n)
          (scanClientHello (buf ++ rest.take n) limit) with
        ⟨hscan, hv⟩ | ⟨hne, decision, hv, hkind, hbuf⟩
      · rw [hv] at h
        have := ih hlen hscan h
        rwa [hsplit] at this
      · rw [hv] at h
        cases h
        refine ⟨?_, fun b hb => by rw [hbuf b hb, hsplit]⟩
        rw [judge, ← hsplit, List.take_append, List.take_of_length_le hlen,
          scan_append hne, hkind]

/-- Every read takes a byte or finds the end, so a peek that may read
often enough decides. -/
theorem peek_isSome {sizes : List Nat} (h : rest.length < sizes.countP (0 < ·))
    : (peek limit target sizes buf rest).isSome := by
  induction sizes generalizing buf rest with
  | nil => cases h
  | cons size sizes ih =>
      rw [peek]
      split
      · rfl
      next hroom =>
      split
      · rfl
      next hend =>
      have hpos := List.length_pos_iff.2 hend
      rw [List.countP_cons] at h
      dsimp only
      split
      · next hn =>
          have hsize : size = 0 := by
            simp only [chunkSize] at hn
            omega
          rw [hsize] at h
          exact ih (by simpa using h)
      · next hn =>
          cases verdict target _ _ with
          | some decision => rfl
          | none =>
              refine ih ?_
              rw [List.length_drop]
              split at h <;> omega

theorem verdict_proceeds {scan : Scan} :
    verdict target [] scan = some (.proceed []) ↔
      (scan = .notTLS ∧ target.port ≠ 443)
        ∨ ∃ h, scan = .hello h ∧ Admits target h.serverName := by
  cases scan with
  | more => simp [verdict]
  | malformed => simp [verdict]
  | tooLarge => simp [verdict]
  | notTLS => by_cases hport : target.port = 443 <;> simp [verdict, hport]
  | hello h =>
      have hadmits : verdict target [] (.hello h) = some (.proceed [])
          ↔ Admits target h.serverName := by
        rw [verdict]
        cases h.serverName with
        | none => by_cases hip : target.isIP <;> simp [Admits, hip]
        | some name =>
            rw [Admits, ← sameHost_iff]
            by_cases hsame : sameHost name target.host <;> simp [hsame]
      rw [hadmits]
      constructor
      · exact fun hok => .inr ⟨h, rfl, hok⟩
      · rintro (⟨⟨⟩, -⟩ | ⟨h, ⟨⟩, hok⟩)
        exact hok

theorem judge_eq_proceed {stream : Bytes} :
    judge limit target stream = .proceed [] ↔
      verdict target [] (scanClientHello (stream.take limit) limit)
        = some (.proceed []) := by
  rw [judge]
  cases verdict target [] (scanClientHello (stream.take limit) limit) with
  | some decision => rw [Option.some.injEq]
  | none =>
      refine iff_of_false ?_ ?_
      · dsimp only
        split_ifs
        · rintro ⟨⟩
        · rintro ⟨⟩
      · rintro ⟨⟩

/-- The stream decides to proceed as the grammar says. -/
theorem judge_proceeds (hlimit : 0 < limit) (target : Target)
    (stream : Bytes) :
    judge limit target stream = .proceed [] ↔
      Proceeds limit target stream := by
  rw [judge_eq_proceed, verdict_proceeds]
  constructor
  · rintro (⟨hscan, hport⟩ | ⟨h, hscan, hadmits⟩)
    · obtain ⟨first, rest, hstream, hne⟩ := scan_eq_notTLS.1 hscan
      obtain ⟨tail, htail⟩ := List.take_prefix limit stream
      rw [hstream] at htail
      exact .inr ⟨first, rest ++ tail, htail.symm, hne, hport⟩
    · obtain ⟨ch, hc, rfl⟩ := scan_eq_hello.1 hscan
      rw [serverName_hello] at hadmits
      exact .inl ⟨ch, carries_take.1 hc, hadmits⟩
  · rintro (⟨ch, hc, hadmits⟩ | ⟨first, rest, rfl, hne, hport⟩)
    · refine .inr ⟨hello ch, scan_of_carries (carries_take.2 hc), ?_⟩
      rwa [serverName_hello]
    · obtain ⟨n, rfl⟩ := Nat.exists_eq_succ_of_ne_zero hlimit.ne'
      exact .inl ⟨scan_eq_notTLS.2 ⟨first, rest.take n, rfl, hne⟩, hport⟩

/-- The peek decides on the whole message, however it arrives. Any reads,
enough of them, decide; two ways to cut a stream decide alike; the tunnel
goes on exactly when the stream carries an admitted ClientHello or is not
TLS on another port, with the bytes read as the prefix to replay. The scan
of part of an accepted stream waits or has accepted already, its answers
stand whatever follows, and the name is the one the grammar gives the
message. -/
theorem peek_decides_on_stream (hlimit : 0 < limit) (target : Target)
    (stream : Bytes) :
    (∀ sizes, stream.length < sizes.countP (0 < ·) →
      (peek limit target sizes [] stream).isSome)
    ∧ (∀ sizes sizes' d d' unread unread',
      peek limit target sizes [] stream = some (d, unread) →
      peek limit target sizes' [] stream = some (d', unread') →
      d.kind = d'.kind)
    ∧ (∀ sizes d unread,
      peek limit target sizes [] stream = some (d, unread) →
      ((∃ buf, d = .proceed buf) ↔ Proceeds limit target stream)
      ∧ ∀ buf, d = .proceed buf → buf ++ unread = stream)
    ∧ (∀ buf tail h, scanClientHello (buf ++ tail) limit = .hello h →
      scanClientHello buf limit = .more
        ∨ scanClientHello buf limit = .hello h)
    ∧ (∀ buf tail h, scanClientHello buf limit = .hello h →
      scanClientHello (buf ++ tail) limit = .hello h)
    ∧ (∀ buf h, scanClientHello buf limit = .hello h →
      ∃ ch, Carries limit buf ch)
    ∧ (∀ buf ch, Carries limit buf ch →
      ∃ h, scanClientHello buf limit = .hello h
        ∧ h.serverName = ch.serverName) := by
  have hjudge : ∀ {sizes d unread},
      peek limit target sizes [] stream = some (d, unread) →
        d.kind = judge limit target stream
          ∧ ∀ buf, d = .proceed buf → buf ++ unread = stream :=
    fun h => peek_eq_judge (Nat.zero_le _) rfl h
  refine ⟨fun sizes h => peek_isSome h, ?_, ?_, ?_, ?_, ?_, ?_⟩
  · intro sizes sizes' d d' unread unread' h h'
    rw [(hjudge h).1, (hjudge h').1]
  · intro sizes d unread h
    obtain ⟨hkind, hbuf⟩ := hjudge h
    refine ⟨?_, hbuf⟩
    rw [← judge_proceeds hlimit, ← hkind]
    cases d with
    | proceed buf => exact iff_of_true ⟨buf, rfl⟩ rfl
    | refused reason =>
        refine iff_of_false ?_ ?_
        · rintro ⟨buf, ⟨⟩⟩
        · rintro ⟨⟩
    | closed =>
        refine iff_of_false ?_ ?_
        · rintro ⟨buf, ⟨⟩⟩
        · rintro ⟨⟩
  · intro buf tail h heq
    by_cases hmore : scanClientHello buf limit = .more
    · exact .inl hmore
    · exact .inr (by rw [← scan_append hmore, heq])
  · intro buf tail h heq
    rw [scan_append (by rw [heq]; rintro ⟨⟩), heq]
  · intro buf h heq
    obtain ⟨ch, hc, -⟩ := scan_eq_hello.1 heq
    exact ⟨ch, hc⟩
  · intro buf ch hc
    exact ⟨hello ch, scan_of_carries hc, serverName_hello ch⟩

/-- `A.` on port 443. -/
def dottedHost : Target := ⟨[0x41, 0x2e], false, 443, by decide⟩

/-- A ClientHello for `a`. -/
def helloForA : Bytes :=
  [0x01, 0, 0, 53, 3, 3] ++ List.replicate 32 7
    ++ [0, 0, 2, 0x13, 0x01, 1, 0]
    ++ [0, 10, 0, 0, 0, 6, 0, 4, 0, 0, 1, 0x61]

/-- It in two records. -/
def twoRecords : Bytes :=
  [0x16, 3, 1, 0, 30] ++ helloForA.take 30
    ++ ([0x16, 3, 3, 0, 27] ++ helloForA.drop 30)

theorem peek_decides_on_two_records :
    peek 80 dottedHost [20, 0, 14, 40] [] twoRecords
        = some (.proceed twoRecords, [])
      ∧ Proceeds 80 dottedHost twoRecords := by
  have hpeek : peek 80 dottedHost [20, 0, 14, 40] [] twoRecords
      = some (.proceed twoRecords, []) := by decide +kernel
  exact ⟨hpeek, ((peek_decides_on_stream (by decide) dottedHost _).2.2.1
    _ _ _ hpeek).1.1 ⟨twoRecords, rfl⟩⟩

-- ========================================================== every reading

/-- A larger bound and more bytes carry what is carried already. -/
theorem carries_mono {limit' : Nat} (hc : Carries limit buf ch)
    (hle : limit ≤ limit') (more : Bytes) :
    Carries limit' (buf ++ more) ch := by
  obtain ⟨rs, hrs, hlen, hpre⟩ := hc
  exact ⟨rs, hrs.trans (List.prefix_append _ _), hlen.trans hle, hpre⟩

/-- A tunnel that goes on asks for the admitted name in every reading. What
the destination gets is the replayed prefix, the rest and whatever the
client sends later; however many bytes of it the destination takes, a
ClientHello it begins with names a server the target admits. -/
theorem proceed_admits_every_reading (hlimit : 0 < limit) {target : Target}
    {sizes : List Nat} {stream prior unread more : Bytes}
    (h : peek limit target sizes [] stream = some (.proceed prior, unread))
    {limit' : Nat} {ch : ClientHello}
    (hc : Carries limit' (prior ++ unread ++ more) ch) :
    Admits target ch.serverName := by
  obtain ⟨hkind, hbytes⟩ := peek_eq_judge (Nat.zero_le _) rfl h
  rw [hbytes prior rfl, List.nil_append] at hc
  rcases (judge_proceeds hlimit target stream).1 hkind.symm with
    ⟨seen, hseen, hadmits⟩ | ⟨first, rest, rfl, hne, -⟩
  · -- one scan with the larger bound finds both messages
    have hscan := scan_of_carries
      (carries_mono hseen (Nat.le_max_left limit limit') more)
    have hscan' := scan_of_carries
      (carries_mono hc (Nat.le_max_right limit limit') [])
    rw [List.append_nil, hscan] at hscan'
    rw [← serverName_hello ch, ← Scan.hello.inj hscan', serverName_hello]
    exact hadmits
  · -- no record starts with such a byte
    have hscan := scan_of_carries hc
    rw [scan_eq_notTLS.2 ⟨first, _, List.cons_append, hne⟩] at hscan
    cases hscan

theorem proceed_admits_two_records :
    ∃ ch, Carries 100 (twoRecords ++ [] ++ [1]) ch
      ∧ Admits dottedHost ch.serverName := by
  have hscan : scanClientHello (twoRecords ++ [] ++ [1]) 100
      = .hello { serverName := some [0x61] } := by decide +kernel
  have hpeek : peek 80 dottedHost [20, 0, 14, 40] [] twoRecords
      = some (.proceed twoRecords, []) := by decide +kernel
  obtain ⟨ch, hc, -⟩ := scan_eq_hello.1 hscan
  exact ⟨ch, hc, proceed_admits_every_reading (by decide) hpeek hc⟩

end Elitea.Egress
