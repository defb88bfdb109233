/-
`parseClientHello` reads the grammar and nothing else: `parse_eq_some`
says that a body parses to a hello exactly when it is the encoding of some
well-formed ClientHello with that hello. Each loop has the same statement
for its own part of the grammar, `nameLoop_eq_some` for a list of names
and `extensionLoop_eq_some` for the extensions from some seen types on;
the rest are the readers of `Lib.Wire`, each with what it takes.
-/
import Elitea.Egress.Grammar

namespace Elitea.Egress

open Lib.Wire Grammar

@[simp] theorem length_put16 (n : Nat) : (put16 n).length = 2 := rfl

@[simp] theorem length_putVec8 (v : Bytes) :
    (putVec8 v).length = 1 + v.length := by
  rw [putVec8, List.length_cons, Nat.add_comm]

@[simp] theorem length_putVec16 (v : Bytes) :
    (putVec16 v).length = 2 + v.length := by
  rw [putVec16, List.length_append, length_put16]

-- ========================================================== the server name

/-- Only a list of exactly one host_name is a name. -/
theorem nameLoop_eq_some {list name : Bytes} {fuel : Nat}
    (hfuel : list.length ≤ fuel) :
    nameLoop fuel list none = some name ↔
      name ≠ [] ∧ name.length < 65536 ∧ list = 0x00 :: putVec16 name := by
  cases fuel with
  | zero =>
      rw [List.length_eq_zero_iff.1 (Nat.le_zero.1 hfuel)]
      constructor
      · intro h
        cases h
      · rintro ⟨-, -, hlist⟩
        cases hlist
  | succ fuel =>
      constructor
      · intro h
        cases list with
        | nil => cases h
        | cons a list =>
            simp only [nameLoop, Option.bind_eq_bind,
              Option.bind_eq_some_iff] at h
            obtain ⟨⟨typ, b⟩, htyp, ⟨value, c⟩, hvalue, h⟩ := h
            obtain ⟨-, hb⟩ := u8_eq_some.1 htyp
            obtain ⟨hlt, hc⟩ := vec16_eq_some.1 hvalue
            dsimp only at h hc
            obtain ⟨hok, hl⟩ := Option.ite_none_left_eq_some.1 h
            simp only [Option.isSome_none, Bool.false_eq_true, false_or,
              not_or, not_not] at hok
            obtain ⟨rfl, hne⟩ := hok
            -- a second name is refused, so the list ends here
            cases c with
            | nil =>
                have hname : value = name := by
                  cases fuel with
                  | zero => exact Option.some.inj hl
                  | succ => exact Option.some.inj hl
                subst hname
                exact ⟨hne, hlt, by rw [hb, hc, List.append_nil]; rfl⟩
            | cons d c =>
                cases fuel with
                | zero => cases hl
                | succ fuel =>
                    simp only [nameLoop, Option.bind_eq_bind,
                      Option.bind_eq_some_iff, Option.isSome_some,
                      true_or, or_true, if_true] at hl
                    obtain ⟨_, _, _, _, hl⟩ := hl
                    cases hl
      · rintro ⟨hne, hlt, rfl⟩
        have hvec : vec16 (putVec16 name) = some (name, []) :=
          vec16_eq_some.2 ⟨hlt, (List.append_nil _).symm⟩
        simp only [nameLoop, u8, hvec, Option.bind_eq_bind,
          Option.bind_some, Option.isSome_none]
        simp only [ne_eq, not_true_eq_false, Bool.false_eq_true, hne,
          or_self, if_false, UInt8.toNat_zero]

theorem parseServerName_eq_some {data name : Bytes}
    (hdata : data.length < 65536) :
    parseServerName data = some name ↔
      ∃ fits, data = (Extension.serverName name fits).data := by
  simp only [parseServerName, Option.bind_eq_bind, Option.bind_eq_some_iff]
  constructor
  · rintro ⟨⟨list, rest⟩, hlist, h⟩
    obtain ⟨hlt, rfl⟩ := vec16_eq_some.1 hlist
    dsimp only at h
    obtain ⟨hok, h⟩ := Option.ite_none_left_eq_some.1 h
    rw [not_not.1 (not_or.1 hok).1, List.append_nil] at hdata ⊢
    obtain ⟨hne, -, rfl⟩ := (nameLoop_eq_some (Nat.le_refl _)).1 h
    rw [length_putVec16, List.length_cons, length_putVec16] at hdata
    exact ⟨⟨hne, by omega⟩, rfl⟩
  · rintro ⟨⟨hne, hlt⟩, rfl⟩
    refine ⟨(0x00 :: putVec16 name, []), vec16_eq_some.2
      ⟨by rw [List.length_cons, length_putVec16]; omega,
        (List.append_nil _).symm⟩, ?_⟩
    rw [if_neg (by simp)]
    exact (nameLoop_eq_some (Nat.le_refl _)).2 ⟨hne, by omega, rfl⟩

-- =========================================================== the extensions

/-- What an extension of the grammar adds to a hello. -/
def Hello.add (hello : Hello) : Extension → Hello
  | .serverName name _ => { hello with serverName := some name }
  | .other typ _ _ =>
      if typ = extensionECH then { hello with hasECH := true } else hello

theorem Extension.typ_lt (e : Extension) : e.typ < 65536 := by
  cases e with
  | serverName name fits => exact Nat.zero_lt_succ _
  | other typ data fits => exact fits.2.1

theorem Extension.data_lt (e : Extension) : e.data.length < 65536 := by
  cases e with
  | serverName name fits =>
      have := fits.2
      simp only [Extension.data, length_putVec16, List.length_cons]
      omega
  | other typ data fits => exact fits.2.2

/-- The switch of the loop accepts an extension of the grammar and no
other. -/
theorem extended_eq_some {hello h : Hello} {typ : Nat} {data : Bytes}
    (htyp : typ < 65536) (hdata : data.length < 65536) :
    hello.extended typ data = some h ↔
      ∃ e : Extension, e.typ = typ ∧ e.data = data ∧ h = hello.add e := by
  unfold Hello.extended
  constructor
  · intro heq
    split at heq
    · next h0 =>
        obtain ⟨name, hname, rfl⟩ := Option.map_eq_some_iff.1 heq
        obtain ⟨fits, rfl⟩ := (parseServerName_eq_some hdata).1 hname
        exact ⟨.serverName name fits, h0.symm, rfl, rfl⟩
    · next h0 =>
        refine ⟨.other typ data ⟨h0, htyp, hdata⟩, rfl, rfl, ?_⟩
        rw [← apply_ite some] at heq
        exact (Option.some.inj heq).symm
  · rintro ⟨e, rfl, rfl, rfl⟩
    cases e with
    | serverName name fits =>
        have hname := (parseServerName_eq_some hdata).2 ⟨fits, rfl⟩
        simp only [Extension.typ, if_true, hname, Option.map_some]
        rfl
    | other typ data fits =>
        simp only [Extension.typ, fits.1, if_false]
        exact (apply_ite some _ _ _).symm

theorem encodeAll_cons (e : Extension) (es : List Extension) :
    encodeAll (e :: es)
      = put16 e.typ ++ (putVec16 e.data ++ encodeAll es) := by
  rw [encodeAll, List.flatMap_cons, Extension.encode, List.append_assoc]
  rfl

/-- The loop reads a list of extensions whose types are distinct and not
yet seen. -/
theorem extensionLoop_eq_some {fuel : Nat} {exts : Bytes} {seen : List Nat}
    {hello h : Hello} (hfuel : exts.length ≤ fuel) :
    extensionLoop fuel exts seen hello = some h ↔
      ∃ es : List Extension, exts = encodeAll es
        ∧ (es.map Extension.typ).Nodup ∧ (∀ e ∈ es, e.typ ∉ seen)
        ∧ h = es.foldl Hello.add hello := by
  induction fuel generalizing exts seen hello with
  | zero =>
      rw [List.length_eq_zero_iff.1 (Nat.le_zero.1 hfuel)]
      constructor
      · intro heq
        exact ⟨[], rfl, List.nodup_nil, by simp, (Option.some.inj heq).symm⟩
      · rintro ⟨es, hes, -, -, rfl⟩
        cases es with
        | nil => rfl
        | cons e es => cases hes
  | succ fuel ih =>
      constructor
      · intro heq
        cases exts with
        | nil =>
            exact ⟨[], rfl, List.nodup_nil, by simp,
              (Option.some.inj heq).symm⟩
        | cons a exts =>
            simp only [extensionLoop, Option.bind_eq_bind,
              Option.bind_eq_some_iff] at heq
            obtain ⟨⟨typ, b⟩, htyp, ⟨data, c⟩, hdata, heq⟩ := heq
            obtain ⟨hlt, hb⟩ := u16_eq_some.1 htyp
            obtain ⟨hdlt, rfl⟩ := vec16_eq_some.1 hdata
            dsimp only at heq
            obtain ⟨hseen, heq⟩ := Option.ite_none_left_eq_some.1 heq
            obtain ⟨hello', hadd, heq⟩ := Option.bind_eq_some_iff.1 heq
            obtain ⟨e, rfl, rfl, rfl⟩ := (extended_eq_some hlt hdlt).1 hadd
            have hlen : c.length ≤ fuel := by
              have := congrArg List.length hb
              simp only [List.length_cons, List.length_append,
                length_put16, length_putVec16] at this hfuel
              omega
            obtain ⟨es, rfl, hnodup, hnew, rfl⟩ := (ih hlen).1 heq
            refine ⟨e :: es, ?_, ?_, ?_, rfl⟩
            · rw [hb, encodeAll_cons]
            · refine List.nodup_cons.2 ⟨fun hmem => ?_, hnodup⟩
              obtain ⟨e', he', htyp'⟩ := List.mem_map.1 hmem
              exact hnew e' he' (by rw [htyp']; exact List.mem_cons_self)
            · rintro e' he'
              rcases List.mem_cons.1 he' with rfl | he'
              · exact hseen
              · exact fun hmem => hnew e' he' (List.mem_cons_of_mem _ hmem)
      · rintro ⟨es, rfl, hnodup, hnew, rfl⟩
        cases es with
        | nil => rfl
        | cons e es =>
            have hu16 : u16 (encodeAll (e :: es))
                = some (e.typ, putVec16 e.data ++ encodeAll es) :=
              u16_eq_some.2 ⟨Extension.typ_lt e, encodeAll_cons e es⟩
            have hvec : vec16 (putVec16 e.data ++ encodeAll es)
                = some (e.data, encodeAll es) :=
              vec16_eq_some.2 ⟨Extension.data_lt e, rfl⟩
            have hadd : hello.extended e.typ e.data = some (hello.add e) :=
              (extended_eq_some (Extension.typ_lt e)
                (Extension.data_lt e)).2 ⟨e, rfl, rfl, rfl⟩
            have hlen : (encodeAll es).length ≤ fuel := by
              simp only [encodeAll_cons, List.length_append, length_put16,
                length_putVec16] at hfuel
              omega
            have hcons : ∃ a rest, encodeAll (e :: es) = a :: rest :=
              ⟨_, _, rfl⟩
            obtain ⟨a, rest, hcons⟩ := hcons
            rw [hcons] at hu16 ⊢
            obtain ⟨htypes, hnodup⟩ := List.nodup_cons.1 hnodup
            simp only [extensionLoop, hu16, hvec, hadd, Option.bind_eq_bind,
              Option.bind_some]
            rw [if_neg (hnew e List.mem_cons_self)]
            refine (ih hlen).2 ⟨es, rfl, hnodup, ?_, rfl⟩
            rintro e' he' hmem
            rcases List.mem_cons.1 hmem with heq | hmem
            · exact htypes (List.mem_map.2 ⟨e', he', heq⟩)
            · exact hnew e' (List.mem_cons_of_mem _ he') hmem

-- ================================================================= the body

/-- What the peek learns from a message of the grammar. -/
def hello (ch : ClientHello) : Hello := ch.extensions.foldl Hello.add {}

theorem parseExtensions_eq_some {b : Bytes} {h : Hello} :
    parseExtensions b = some h ↔
      ∃ block, b = ClientHello.encodeBlock block
        ∧ (∀ es ∈ block, (encodeAll es).length < 65536)
        ∧ (∀ es ∈ block, (es.map Extension.typ).Nodup)
        ∧ h = (block.getD []).foldl Hello.add {} := by
  unfold parseExtensions
  constructor
  · intro heq
    split at heq
    · next hb =>
        exact ⟨none, hb, by simp, by simp, (Option.some.inj heq).symm⟩
    · obtain ⟨⟨exts, rest⟩, hvec, hrest⟩ := Option.bind_eq_some_iff.1 heq
      obtain ⟨hlt, rfl⟩ := vec16_eq_some.1 hvec
      clear heq
      dsimp only at hrest
      obtain ⟨hnil, hrest⟩ := Option.ite_none_left_eq_some.1 hrest
      obtain ⟨es, rfl, hnodup, -, rfl⟩ :=
        (extensionLoop_eq_some (Nat.le_refl _)).1 hrest
      rw [not_not.1 hnil, List.append_nil]
      refine ⟨some es, rfl, ?_, ?_, rfl⟩
      · rintro es' ⟨⟩
        exact hlt
      · rintro es' ⟨⟩
        exact hnodup
  · rintro ⟨block, rfl, hlt, hnodup, rfl⟩
    cases block with
    | none => rfl
    | some es =>
        have hvec : vec16 (putVec16 (encodeAll es)) = some (encodeAll es, []) :=
          vec16_eq_some.2 ⟨hlt es rfl, (List.append_nil _).symm⟩
        rw [ClientHello.encodeBlock, if_neg (by simp [putVec16, put16]),
          hvec, Option.bind_eq_bind, Option.bind_some]
        dsimp only
        rw [if_neg (not_not.2 rfl)]
        exact (extensionLoop_eq_some (Nat.le_refl _)).2
          ⟨es, rfl, hnodup es rfl, by simp, rfl⟩

/-- A body parses exactly when it is a ClientHello of the grammar, and to
what that message says. -/
theorem parse_eq_some {body : Bytes} {h : Hello} :
    parseClientHello body = some h ↔
      ∃ ch : ClientHello, body = ch.encode ∧ h = hello ch := by
  simp only [parseClientHello, Option.bind_eq_bind, Option.bind_eq_some_iff]
  constructor
  · rintro ⟨⟨version, b⟩, h1, ⟨random, b⟩, h2, ⟨sid, b⟩, h3,
      ⟨suites, b⟩, h4, ⟨comp, b⟩, h5, heq⟩
    obtain ⟨hversion, rfl⟩ := take_eq_some.1 h1
    obtain ⟨hrandom, rfl⟩ := take_eq_some.1 h2
    obtain ⟨-, rfl⟩ := vec8_eq_some.1 h3
    obtain ⟨hsuites, rfl⟩ := vec16_eq_some.1 h4
    obtain ⟨hcomp, rfl⟩ := vec8_eq_some.1 h5
    dsimp only at heq
    obtain ⟨hok, heq⟩ := Option.ite_none_left_eq_some.1 heq
    simp only [not_or, Nat.not_lt, not_not] at hok
    obtain ⟨block, rfl, hfits, hnodup, rfl⟩ :=
      parseExtensions_eq_some.1 heq
    exact ⟨⟨version, random, sid, suites, comp, block, hversion, hrandom,
      hok.1, ⟨hok.2.1, hok.2.2.1, hsuites⟩, ⟨hok.2.2.2, hcomp⟩, hfits,
      hnodup⟩, rfl, rfl⟩
  · rintro ⟨ch, rfl, rfl⟩
    have hsid := ch.sessionId_le
    have hsuites := ch.suites_pairs
    have hcomp := ch.compression_some
    refine ⟨_, take_eq_some.2 ⟨ch.version_length, rfl⟩,
      _, take_eq_some.2 ⟨ch.random_length, rfl⟩,
      _, vec8_eq_some.2 ⟨by omega, rfl⟩,
      _, vec16_eq_some.2 ⟨hsuites.2.2, rfl⟩,
      _, vec8_eq_some.2 ⟨hcomp.2, rfl⟩, ?_⟩
    rw [if_neg (by dsimp only; omega)]
    exact parseExtensions_eq_some.2
      ⟨ch.block, rfl, ch.block_fits, ch.types_distinct, rfl⟩

-- ================================================================= the name

theorem foldl_add_other (es : List Extension) (h : Hello)
    (hother : ∀ e ∈ es, e.typ ≠ extensionServerName) :
    (es.foldl Hello.add h).serverName = h.serverName := by
  induction es generalizing h with
  | nil => rfl
  | cons e es ih =>
      rw [List.foldl_cons, ih _ fun e' he' =>
        hother e' (List.mem_cons_of_mem _ he')]
      cases e with
      | serverName name fits => exact absurd rfl (hother _ List.mem_cons_self)
      | other typ data fits =>
          rw [Hello.add]
          split
          · rfl
          · rfl

/-- With distinct types the last server name is the only one. -/
theorem serverName_foldl_add (es : List Extension) (h : Hello)
    (hnone : h.serverName = none) (hnodup : (es.map Extension.typ).Nodup) :
    (es.foldl Hello.add h).serverName = es.findSome? Extension.name? := by
  induction es generalizing h with
  | nil => exact hnone
  | cons e es ih =>
      obtain ⟨hnew, htail⟩ := List.nodup_cons.1 hnodup
      cases e with
      | serverName name fits =>
          refine foldl_add_other es _ fun e' he' htyp => ?_
          exact hnew (List.mem_map.2 ⟨e', he', htyp⟩)
      | other typ data fits =>
          refine ih _ ?_ htail
          rw [Hello.add]
          split
          · exact hnone
          · exact hnone

theorem serverName_hello (ch : ClientHello) :
    (hello ch).serverName = ch.serverName := by
  refine serverName_foldl_add _ _ rfl ?_
  rw [ClientHello.extensions]
  cases hblock : ch.block with
  | none => exact List.nodup_nil
  | some es => exact ch.types_distinct es hblock

end Elitea.Egress
