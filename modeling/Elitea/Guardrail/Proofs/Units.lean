/-
Detector views tile the inspected parts, and a finding masks the bytes it
covers.

# The units

`splitText` cuts a long part between characters, and its running cost is
the cost of what lies since the last cut (`SplitInv`). A cut after a white
space takes back at most `splitLookback` bytes, which cost less than any
limit, so every range stays within it. `packPart` adds whole parts to a
unit as long as the sum of their costs does; the separator is ASCII, so
the sum is the cost of the joined text. Both ways the pieces of a part
come one after another (`PartTiled`) and each stands in its view byte for
byte (`View.Exact`).

# The findings

Of a finding, `View.spans` keeps what lies over a piece, moved to the
piece's place in its part (`mem_spans_under`). A byte of a part is masked
if a finding of a mask detector lies over it, and shown otherwise
(`checkParts_shown_iff`).
-/
import Elitea.Guardrail.Units
import Elitea.Guardrail.Proofs.Mask

namespace Elitea.Guardrail

open Lib
open Lib.Utf8

-- =========================================================== ranges in a row

/-- Non-empty ranges, each of which begins where the one before ends. -/
inductive Consecutive : Nat → List Bound → Nat → Prop
  | nil {a : Nat} : Consecutive a [] a
  | cons {r : Bound} {rest : List Bound} {b : Nat} (hr : r.start < r.stop)
      (h : Consecutive r.stop rest b) : Consecutive r.start (r :: rest) b

theorem Consecutive.snoc {a b c : Nat} {rs : List Bound}
    (h : Consecutive a rs b) (hbc : b < c) :
    Consecutive a (rs ++ [⟨b, c⟩]) c := by
  induction h with
  | @nil a => exact @Consecutive.cons ⟨a, c⟩ [] c hbc .nil
  | cons hr h ih => exact .cons hr (ih hbc)

theorem Consecutive.bounds {a b : Nat} {rs : List Bound}
    (h : Consecutive a rs b) :
    a ≤ b ∧ ∀ r ∈ rs, r.start < r.stop ∧ r.stop ≤ b := by
  induction h with
  | nil => exact ⟨Nat.le_refl _, fun r hr => nomatch hr⟩
  | @cons r rest b hr h ih =>
      refine ⟨Nat.le_trans (Nat.le_of_lt hr) ih.1, ?_⟩
      exact List.forall_mem_cons.2 ⟨⟨hr, ih.1⟩, ih.2⟩

-- ================================================================= splitting

section Split

variable {s : Text} {limit i : Nat} {st : Splitting}

theorem runeCost_le (r : Nat) : runeCost r ≤ 2 := by
  unfold runeCost
  split <;> omega

/-- The bytes of a code point. -/
theorem runeCost_le_runeLen (r : Nat) : runeCost r ≤ runeLen r := by
  unfold runeCost runeLen encode
  split
  next h =>
    rw [if_neg (by omega), if_neg (by omega), if_neg (by omega)]
    exact Nat.le_of_ble_eq_true rfl
  next =>
    split
    next => exact Nat.le_refl 1
    split
    next => exact Nat.le_succ 1
    split <;> exact Nat.le_of_ble_eq_true rfl

/-- A character takes as many bytes as its code point. -/
theorem runeLen_rune {t : Text} {rk : Nat × Nat}
    (h : decode? t = some rk) : runeLen (rune t) = size t := by
  cases t with
  | nil => cases h
  | cons a rest =>
      obtain ⟨r, k⟩ := rk
      have hlen := (decode?_self h).2.1
      have hrune : rune (a :: rest) = r := by
        unfold rune
        rw [h]
        rfl
      have hsize : size (a :: rest) = k := by
        unfold size
        rw [h]
        rfl
      unfold runeLen
      rw [hrune, hsize, (encode_eq h).1, List.length_take]
      exact Nat.min_eq_left hlen

theorem runeCost_rune_le (t : Text) : runeCost (rune t) ≤ size t := by
  cases h : decode? t with
  | some rk =>
      rw [← runeLen_rune h]
      exact runeCost_le_runeLen _
  | none =>
      unfold rune
      rw [h]
      exact size_pos t

/-- A white space is a character. -/
theorem runeLen_space {t : Text} (h : isSpaceRune (rune t) = true) :
    runeLen (rune t) = size t := by
  cases hd : decode? t with
  | some rk => exact runeLen_rune hd
  | none =>
      unfold rune at h
      rw [hd] at h
      cases h

theorem textCost_le_length (t : Text) : textCost t ≤ t.length :=
  weight_le_length (fun t _ => runeCost_rune_le t) t

/-- What holds before the character at position `i`. -/
structure SplitInv (s : Text) (limit : Nat) (st : Splitting) (i : Nat) :
    Prop where
  place : Boundary s i
  start : Boundary s st.start
  start_le : st.start ≤ i
  cost : textCost (s.take i) = textCost (s.take st.start) + st.cost
  fits : st.cost ≤ limit
  space : ∀ space ∈ st.space, Boundary s space ∧ space ≤ i
  tiles : Consecutive 0 st.out st.start
  places : ∀ r ∈ st.out, Boundary s r.start ∧ Boundary s r.stop
  costs : ∀ r ∈ st.out, textCost (s.extract r.start r.stop) ≤ limit

/-- Where a range is cut. -/
theorem SplitInv.cut (h : SplitInv s limit st i) (hi : st.start < i) :
    Boundary s (st.cut i) ∧ st.start < st.cut i ∧ st.cut i ≤ i
      ∧ i - st.cut i ≤ splitLookback := by
  have here : Boundary s i ∧ st.start < i ∧ i ≤ i
      ∧ i - i ≤ splitLookback :=
    ⟨h.place, hi, Nat.le_refl i, by rw [Nat.sub_self]; exact Nat.zero_le _⟩
  unfold Splitting.cut
  cases hs : st.space with
  | none => exact here
  | some space =>
      obtain ⟨hplace, hle⟩ := h.space space hs
      dsimp only
      split
      next hnear => exact ⟨hplace, hnear.1, hle, hnear.2⟩
      next => exact here

/-- After the range was ended where the next character does not fit, it
fits. -/
theorem SplitInv.close (h : SplitInv s limit st i) (hlimit : 1000 ≤ limit)
    {c : Nat} (hc : c ≤ 2) :
    SplitInv s limit (st.close s limit i c) i
      ∧ (st.close s limit i c).cost + c ≤ limit := by
  unfold Splitting.close
  split
  next hfull =>
    obtain ⟨hplace, hlt, hle, hnear⟩ := h.cut hfull.2
    have hfront := weight_between (w := runeCost) h.start hplace
      (Nat.le_of_lt hlt)
    have hback := weight_between (w := runeCost) hplace h.place hle
    have hcost := h.cost
    have hfits := h.fits
    have hsmall : textCost (s.extract (st.cut i) i) ≤ splitLookback := by
      refine Nat.le_trans (textCost_le_length _) ?_
      rw [List.extract_eq_take_drop, List.length_take]
      exact Nat.le_trans (Nat.min_le_left _ _) hnear
    have hlook : splitLookback = 256 := rfl
    unfold textCost at hcost hsmall
    have hrange : textCost (s.extract st.start (st.cut i)) ≤ limit := by
      unfold textCost
      omega
    refine ⟨?_, by dsimp only; unfold textCost; omega⟩
    exact {
      place := h.place
      start := hplace
      start_le := hle
      cost := by
        unfold textCost
        dsimp only
        omega
      fits := by
        unfold textCost
        dsimp only
        omega
      space := fun space hspace => nomatch hspace
      tiles := h.tiles.snoc hlt
      places := by
        intro r hr
        rcases List.mem_append.1 hr with hr | hr
        · exact h.places r hr
        · obtain rfl := List.mem_singleton.1 hr
          exact ⟨h.start, hplace⟩
      costs := by
        intro r hr
        rcases List.mem_append.1 hr with hr | hr
        · exact h.costs r hr
        · obtain rfl := List.mem_singleton.1 hr
          exact hrange }
  next hfull =>
    refine ⟨h, ?_⟩
    by_cases hi : st.start < i
    · have : ¬ st.cost + c > limit := fun hgt => hfull ⟨hgt, hi⟩
      omega
    · have heq : st.start = i := Nat.le_antisymm h.start_le
        (Nat.not_lt.1 hi)
      have hcost := h.cost
      rw [heq] at hcost
      omega

/-- One round. -/
theorem SplitInv.step (h : SplitInv s limit st i) (hlimit : 1000 ≤ limit)
    (hi : i < s.length) :
    SplitInv s limit (splitStep s limit st (i, s.drop i))
        (i + size (s.drop i))
      ∧ (splitStep s limit st (i, s.drop i)).start ≤ i := by
  obtain ⟨hclose, hfits⟩ :=
    h.close hlimit (runeCost_le (rune (s.drop i)))
  have hcost := hclose.cost
  have hstep := weight_step (w := runeCost) h.place hi
  unfold textCost at hcost
  refine ⟨?_, hclose.start_le⟩
  exact {
    place := h.place.step hi
    start := hclose.start
    start_le := Nat.le_trans hclose.start_le (Nat.le_add_right _ _)
    cost := by
      unfold textCost splitStep
      dsimp only
      omega
    fits := hfits
    space := by
      intro space hspace
      unfold splitStep at hspace
      dsimp only at hspace
      split at hspace
      next hsp =>
        obtain rfl := Option.some.inj hspace
        rw [runeLen_space hsp]
        exact ⟨h.place.step hi, Nat.le_refl _⟩
      next =>
        obtain ⟨hplace, hle⟩ := hclose.space space hspace
        exact ⟨hplace, Nat.le_trans hle (Nat.le_add_right _ _)⟩
    tiles := hclose.tiles
    places := hclose.places
    costs := hclose.costs }

/-- The whole loop. -/
theorem SplitInv.loop (hlimit : 1000 ≤ limit) (rest : Text) :
    ∀ {i : Nat} {st : Splitting}, s.drop i = rest → SplitInv s limit st i →
      (rest = [] → st.start < s.length) →
      SplitInv s limit ((walk size i rest).foldl (splitStep s limit) st)
          s.length
        ∧ ((walk size i rest).foldl (splitStep s limit) st).start
          < s.length := by
  induction rest using walk_induction size with
  | hadv rest hrest => exact size_pos rest
  | nil =>
      intro i st hdrop h hlt
      have hend : i = s.length :=
        Nat.le_antisymm h.place.le_length (List.drop_eq_nil_iff.1 hdrop)
      exact ⟨hend ▸ h, hlt rfl⟩
  | next rest hrest ih =>
      intro i st hdrop h _
      have hi : i < s.length := by
        refine Nat.not_le.1 fun hle => hrest ?_
        rw [← hdrop]
        exact List.drop_eq_nil_iff.2 hle
      obtain ⟨hstep, hle⟩ := h.step hlimit hi
      rw [hdrop] at hstep hle
      rw [walk_cons hrest (size_pos rest), List.foldl_cons]
      refine ih ?_ hstep fun _ => Nat.lt_of_le_of_lt hle hi
      rw [← hdrop, List.drop_drop]

/-- The ranges of a text: one after another, between characters, within
the limit. -/
theorem splitText_spec (hlimit : 1000 ≤ limit) (hs : s ≠ []) :
    Consecutive 0 (splitText s limit) s.length
      ∧ (∀ r ∈ splitText s limit,
          Boundary s r.start ∧ Boundary s r.stop)
      ∧ ∀ r ∈ splitText s limit,
          textCost (s.extract r.start r.stop) ≤ limit := by
  have hinit : SplitInv s limit ⟨[], 0, 0, none⟩ 0 := {
    place := .zero
    start := .zero
    start_le := Nat.le_refl 0
    cost := rfl
    fits := Nat.zero_le _
    space := fun space hspace => nomatch hspace
    tiles := .nil
    places := fun r hr => nomatch hr
    costs := fun r hr => nomatch hr }
  obtain ⟨h, hlt⟩ := SplitInv.loop hlimit s (List.drop_zero) hinit
    fun hnil => absurd hnil hs
  have hlast := weight_between (w := runeCost) h.start (boundary_length s)
    (Nat.le_of_lt hlt)
  have hcost := h.cost
  have hfits := h.fits
  unfold textCost at hcost
  refine ⟨h.tiles.snoc hlt, ?_, ?_⟩
  · intro r hr
    rcases List.mem_append.1 hr with hr | hr
    · exact h.places r hr
    · obtain rfl := List.mem_singleton.1 hr
      exact ⟨h.start, boundary_length s⟩
  · intro r hr
    rcases List.mem_append.1 hr with hr | hr
    · exact h.costs r hr
    · obtain rfl := List.mem_singleton.1 hr
      unfold textCost
      dsimp only
      omega

end Split

-- ===================================================================== pieces

/-- The range of a piece in its part. -/
def Seg.range (sg : Seg) : Bound :=
  ⟨sg.partStart, sg.partStart + sg.length⟩

/-- A piece stands in the view byte for byte. -/
structure Seg.Exact (parts : List Text) (text : Text) (sg : Seg) :
    Prop where
  ordered : sg.viewStart ≤ sg.viewEnd
  inView : sg.viewEnd ≤ text.length
  inPart : sg.partStart + sg.length ≤ (partText parts sg.part).length
  bytes : text.extract sg.viewStart sg.viewEnd
    = (partText parts sg.part).extract sg.range.start sg.range.stop

/-- The pieces of a view are exact, and a separator lies between any two
of them. -/
structure View.Exact (parts : List Text) (v : View) : Prop where
  each : ∀ sg ∈ v.segs, sg.Exact parts v.text
  apart : v.segs.Pairwise fun a b =>
    a.viewEnd + segmentSeparator.length ≤ b.viewStart

/-- The pieces of one part: consecutive ranges between characters, from
its start to its end. -/
structure PartTiled (parts : List Text) (i : Nat) (segs : List Seg) :
    Prop where
  part : ∀ sg ∈ segs, sg.part = i
  tiles : Consecutive 0 (segs.map Seg.range) (partText parts i).length
  places : ∀ sg ∈ segs, Boundary (partText parts i) sg.range.start
    ∧ Boundary (partText parts i) sg.range.stop

section Pieces

variable {parts : List Text} {text more : Text} {v : View} {i : Nat}

theorem extract_append_left {a b : Nat} (hb : b ≤ text.length) :
    (text ++ more).extract a b = text.extract a b := by
  rw [List.extract_eq_take_drop, List.extract_eq_take_drop]
  by_cases ha : a ≤ text.length
  · rw [List.drop_append_of_le_length ha, List.take_append_of_le_length]
    rw [List.length_drop]
    omega
  · have hzero : b - a = 0 := by omega
    rw [hzero, List.take_zero, List.take_zero]

/-- A piece stays where it is when the view goes on. -/
theorem Seg.Exact.append {sg : Seg} (h : sg.Exact parts text) :
    sg.Exact parts (text ++ more) where
  ordered := h.ordered
  inView := by
    rw [List.length_append]
    exact Nat.le_trans h.inView (Nat.le_add_right _ _)
  inPart := h.inPart
  bytes := by
    rw [extract_append_left h.inView]
    exact h.bytes

theorem extract_all (text : Text) : text.extract 0 text.length = text := by
  rw [List.extract_eq_take_drop, Nat.sub_zero, List.drop_zero,
    List.take_length]

/-- A whole part, at the end of a text. -/
theorem exact_whole (front : Text) :
    Seg.Exact parts (front ++ partText parts i)
      ⟨i, 0, front.length, front.length + (partText parts i).length⟩ where
  ordered := Nat.le_add_right _ _
  inView := by rw [List.length_append]
  inPart := by
    unfold Seg.length
    dsimp only
    omega
  bytes := by
    unfold Seg.range Seg.length
    dsimp only
    rw [Nat.zero_add, Nat.add_sub_cancel_left, extract_all,
      List.extract_eq_take_drop, Nat.add_sub_cancel_left, List.drop_left,
      List.take_length]

/-- A whole part, added after a separator. -/
theorem View.Exact.add (h : v.Exact parts) (tool : Bool) {front : Text}
    (hfront : v.segs = [] ∧ front = v.text
      ∨ front = v.text ++ segmentSeparator) :
    View.Exact parts ⟨front ++ partText parts i,
      v.segs ++ [⟨i, 0, front.length,
        front.length + (partText parts i).length⟩], tool⟩ where
  each := by
    intro sg hsg
    rcases List.mem_append.1 hsg with hold | hnew
    · rcases hfront with ⟨hnil, -⟩ | rfl
      · rw [hnil] at hold
        cases hold
      · dsimp only
        rw [List.append_assoc]
        exact (h.each sg hold).append
    · obtain rfl := List.mem_singleton.1 hnew
      exact exact_whole front
  apart := by
    dsimp only
    rw [List.pairwise_append]
    refine ⟨h.apart, List.pairwise_singleton _ _, ?_⟩
    intro a ha b hb
    obtain rfl := List.mem_singleton.1 hb
    rcases hfront with ⟨hnil, -⟩ | rfl
    · rw [hnil] at ha
      cases ha
    · dsimp only
      rw [List.length_append]
      exact Nat.add_le_add_right (h.each a ha).inView _

theorem exact_single (tool : Bool) :
    View.Exact parts ⟨partText parts i,
      [⟨i, 0, 0, (partText parts i).length⟩], tool⟩ where
  each := by
    intro sg hsg
    obtain rfl := List.mem_singleton.1 hsg
    have := @exact_whole parts i []
    rw [List.length_nil, Nat.zero_add] at this
    exact this
  apart := List.pairwise_singleton _ _

/-- A range of a part, on its own. -/
theorem exact_range {r : Bound} (hr : r.start < r.stop)
    (hlen : r.stop ≤ (partText parts i).length) (tool : Bool) :
    View.Exact parts ⟨(partText parts i).extract r.start r.stop,
      [⟨i, r.start, 0, r.stop - r.start⟩], tool⟩ where
  each := by
    intro sg hsg
    obtain rfl := List.mem_singleton.1 hsg
    have hsize : ((partText parts i).extract r.start r.stop).length
        = r.stop - r.start := by
      rw [List.extract_eq_take_drop, List.length_take, List.length_drop]
      omega
    have hrange : Seg.range ⟨i, r.start, 0, r.stop - r.start⟩ = r := by
      unfold Seg.range Seg.length
      dsimp only
      rw [Nat.sub_zero, Nat.add_sub_cancel' (Nat.le_of_lt hr)]
    refine ⟨Nat.zero_le _, Nat.le_of_eq hsize.symm, ?_, ?_⟩
    · unfold Seg.length
      dsimp only
      omega
    · rw [hrange]
      dsimp only
      rw [← hsize, extract_all]
  apart := List.pairwise_singleton _ _

theorem tiled_whole (hne : partText parts i ≠ []) (start : Nat) :
    PartTiled parts i
      [⟨i, 0, start, start + (partText parts i).length⟩] where
  part := fun sg hsg => by rw [List.mem_singleton.1 hsg]
  tiles := by
    have hrange : Seg.range ⟨i, 0, start,
        start + (partText parts i).length⟩
        = ⟨0, (partText parts i).length⟩ := by
      unfold Seg.range Seg.length
      dsimp only
      rw [Nat.add_sub_cancel_left, Nat.zero_add]
    rw [List.map_singleton, hrange]
    exact @Consecutive.cons ⟨0, _⟩ [] _ (List.length_pos_of_ne_nil hne) .nil
  places := by
    intro sg hsg
    obtain rfl := List.mem_singleton.1 hsg
    unfold Seg.range Seg.length
    dsimp only
    rw [Nat.add_sub_cancel_left, Nat.zero_add]
    exact ⟨.zero, boundary_length _⟩

end Pieces

-- =================================================================== packing

section Packing

variable {parts : List Text} {tool : List Bool} {limit i : Nat}
  {p : Packing} {v : View}

/-- What a unit is: exact pieces, within the limit, of one kind. -/
structure IsUnit (parts : List Text) (tool : List Bool) (limit : Nat)
    (v : View) : Prop where
  exact : v.Exact parts
  cost : textCost v.text ≤ limit
  kind : ∀ sg ∈ v.segs, isToolPart tool sg.part = v.tool

/-- What holds between two parts. -/
structure PackInv (parts : List Text) (tool : List Bool) (limit : Nat)
    (p : Packing) : Prop where
  views : ∀ v ∈ p.views, IsUnit parts tool limit v
  cur : ∀ u ∈ p.cur, IsUnit parts tool limit u.view
    ∧ u.cost = textCost u.view.text

/-- The pieces packed so far. -/
def Packing.segs (p : Packing) : List Seg := p.flush.views.flatMap View.segs

theorem Packing.segs_eq (p : Packing) :
    p.segs = p.views.flatMap View.segs
      ++ (p.cur.map fun u => u.view.segs).getD [] := by
  unfold Packing.segs Packing.flush
  cases p.cur with
  | none => exact (List.append_nil _).symm
  | some u =>
      dsimp only
      rw [List.flatMap_append, List.flatMap_singleton]
      rfl

theorem PackInv.flush (h : PackInv parts tool limit p) :
    PackInv parts tool limit p.flush := by
  unfold Packing.flush
  cases hc : p.cur with
  | none => exact h
  | some u =>
      refine ⟨?_, fun u hu => nomatch hu⟩
      intro v hv
      rcases List.mem_append.1 hv with hv | hv
      · exact h.views v hv
      · obtain rfl := List.mem_singleton.1 hv
        exact (h.cur u hc).1

theorem Packing.flush_cur (p : Packing) : p.flush.cur = none := by
  unfold Packing.flush
  split
  next => rfl
  next h => exact h

theorem Packing.segs_flush (p : Packing) : p.flush.segs = p.segs := by
  rw [Packing.segs_eq, p.flush_cur]
  exact List.append_nil _

/-- A part that is longer than the limit. -/
theorem splitViews_spec (tool : List Bool) (hlimit : 1000 ≤ limit)
    (hne : partText parts i ≠ []) :
    (∀ v ∈ splitViews i (partText parts i) (isToolPart tool i) limit,
        IsUnit parts tool limit v)
      ∧ PartTiled parts i ((splitViews i (partText parts i)
          (isToolPart tool i) limit).flatMap View.segs) := by
  obtain ⟨htiles, hplaces, hcosts⟩ := splitText_spec hlimit hne
  have hbounds := htiles.bounds.2
  constructor
  · intro v hv
    obtain ⟨r, hr, rfl⟩ := List.mem_map.1 hv
    refine ⟨exact_range (hbounds r hr).1 (hbounds r hr).2 _,
      hcosts r hr, ?_⟩
    intro sg hsg
    rw [List.mem_singleton.1 hsg]
  · have hsegs : (splitViews i (partText parts i) (isToolPart tool i)
        limit).flatMap View.segs
        = (splitText (partText parts i) limit).map fun r =>
            ⟨i, r.start, 0, r.stop - r.start⟩ := by
      unfold splitViews
      rw [List.flatMap_map]
      exact List.map_eq_flatMap.symm
    have hrange : ∀ r ∈ splitText (partText parts i) limit,
        Seg.range ⟨i, r.start, 0, r.stop - r.start⟩ = r := by
      intro r hr
      have := (hbounds r hr).1
      unfold Seg.range Seg.length
      dsimp only
      rw [Nat.sub_zero, Nat.add_sub_cancel' (Nat.le_of_lt this)]
    rw [hsegs]
    refine ⟨?_, ?_, ?_⟩
    · intro sg hsg
      obtain ⟨r, -, rfl⟩ := List.mem_map.1 hsg
      rfl
    · rw [List.map_map, show (splitText (partText parts i) limit).map
        (Seg.range ∘ fun r => ⟨i, r.start, 0, r.stop - r.start⟩)
          = splitText (partText parts i) limit from
        (List.map_congr_left hrange).trans (List.map_id' _)]
      exact htiles
    · intro sg hsg
      obtain ⟨r, hr, rfl⟩ := List.mem_map.1 hsg
      rw [hrange r hr]
      exact hplaces r hr

/-- The cost of two texts with a separator between them. -/
theorem textCost_join (a b : Text) :
    textCost (a ++ segmentSeparator ++ b)
      = textCost a + textCost segmentSeparator + textCost b := by
  have hc : (0x0A : UInt8) < 0x80 := by decide
  have hsep : a ++ segmentSeparator ++ b = a ++ 0x0A :: 0x0A :: b := by
    rw [List.append_assoc]
    rfl
  unfold textCost
  rw [hsep, weight_append hc, weight_ascii hc, weight_ascii hc]
  unfold segmentSeparator
  rw [weight_ascii hc, weight_ascii hc, weight_nil]
  omega

/-- A whole part, added to the open unit or to a new one. -/
theorem addWhole_spec {cur : Option OpenUnit}
    (hne : partText parts i ≠ [])
    (hfits : textCost (partText parts i) ≤ limit)
    (hcur : ∀ u ∈ cur, IsUnit parts tool limit u.view
      ∧ u.cost = textCost u.view.text)
    (hroom : ∀ u ∈ cur, u.full (isToolPart tool i)
      (textCost (partText parts i)) limit = false) :
    ∃ piece, PartTiled parts i piece
      ∧ (addWhole i (partText parts i) (isToolPart tool i) cur).view.segs
        = (cur.map fun u => u.view.segs).getD [] ++ piece
      ∧ IsUnit parts tool limit
        (addWhole i (partText parts i) (isToolPart tool i) cur).view
      ∧ (addWhole i (partText parts i) (isToolPart tool i) cur).cost
        = textCost
          (addWhole i (partText parts i) (isToolPart tool i) cur).view.text
    := by
  cases cur with
  | none =>
      have htiled := tiled_whole hne 0
      rw [Nat.zero_add] at htiled
      refine ⟨_, htiled, rfl, ⟨exact_single _, hfits, ?_⟩, rfl⟩
      intro sg hsg
      rw [List.mem_singleton.1 hsg]
      rfl
  | some u =>
      obtain ⟨hunit, hcost⟩ := hcur u rfl
      have hfull := hroom u rfl
      unfold OpenUnit.full at hfull
      rw [Bool.or_eq_false_iff, bne_eq_false_iff_eq,
        decide_eq_false_iff_not] at hfull
      obtain ⟨htool, hlimit⟩ := hfull
      refine ⟨_, tiled_whole hne _, rfl, ⟨hunit.exact.add _ (.inr rfl),
        ?_, ?_⟩, ?_⟩
      · unfold addWhole
        dsimp only
        rw [textCost_join, ← hcost]
        omega
      · intro sg hsg
        rcases List.mem_append.1 hsg with hsg | hsg
        · exact hunit.kind sg hsg
        · rw [List.mem_singleton.1 hsg]
          exact htool.symm
      · unfold addWhole
        dsimp only
        rw [textCost_join, hcost]

/-- One round of the loop: an empty part adds nothing, any other part is
tiled by what it adds. -/
theorem packPart_spec (hlimit : 1000 ≤ limit)
    (h : PackInv parts tool limit p) :
    PackInv parts tool limit (packPart parts tool limit p i)
      ∧ (partText parts i = []
          ∧ (packPart parts tool limit p i).segs = p.segs
        ∨ partText parts i ≠ [] ∧ ∃ piece, PartTiled parts i piece
          ∧ (packPart parts tool limit p i).segs = p.segs ++ piece) := by
  unfold packPart
  dsimp only
  split
  next hempty => exact ⟨h, .inl ⟨List.isEmpty_iff.1 hempty, rfl⟩⟩
  next hempty =>
    have hne : partText parts i ≠ [] := fun hnil =>
      hempty (List.isEmpty_iff.2 hnil)
    split
    next =>
      obtain ⟨hunits, htiled⟩ := splitViews_spec tool hlimit hne
      refine ⟨⟨?_, h.flush.cur⟩, .inr ⟨hne, _, htiled, ?_⟩⟩
      · intro v hv
        rcases List.mem_append.1 hv with hv | hv
        · exact h.flush.views v hv
        · exact hunits v hv
      · rw [Packing.segs_eq, ← p.segs_flush, Packing.segs_eq p.flush]
        dsimp only
        rw [p.flush_cur, List.flatMap_append, Option.map_none,
          Option.getD_none, List.append_nil, List.append_nil]
    next hsmall =>
      -- the packing the part is added to: it has room, or no open unit
      have hadd : ∀ q : Packing, PackInv parts tool limit q →
          q.segs = p.segs →
          (∀ u ∈ q.cur, u.full (isToolPart tool i)
            (textCost (partText parts i)) limit = false) →
          PackInv parts tool limit ⟨q.views, some
            (addWhole i (partText parts i) (isToolPart tool i) q.cur)⟩
            ∧ ∃ piece, PartTiled parts i piece
              ∧ Packing.segs ⟨q.views, some (addWhole i
                  (partText parts i) (isToolPart tool i) q.cur)⟩
                = p.segs ++ piece := by
        intro q hq hsegs hroom
        obtain ⟨piece, htiled, hpiece, hunit, hcost⟩ :=
          addWhole_spec hne (Nat.not_lt.1 hsmall) hq.cur hroom
        refine ⟨⟨hq.views, ?_⟩, piece, htiled, ?_⟩
        · intro u hu
          obtain rfl := Option.some.inj hu
          exact ⟨hunit, hcost⟩
        · rw [← hsegs, Packing.segs_eq, Packing.segs_eq q,
            List.append_assoc]
          exact congrArg (_ ++ ·) hpiece
      split
      next hfull =>
        obtain ⟨hinv, hsegs⟩ := hadd p.flush h.flush p.segs_flush (by
          rw [p.flush_cur]
          exact fun u hu => nomatch hu)
        exact ⟨hinv, .inr ⟨hne, hsegs⟩⟩
      next hroom =>
        obtain ⟨hinv, hsegs⟩ := hadd p h rfl fun u hu =>
          Bool.eq_false_iff.2 fun hfull => hroom (by
            rw [Option.mem_def.1 hu]
            exact hfull)
        exact ⟨hinv, .inr ⟨hne, hsegs⟩⟩

/-- The parts that need a unit. -/
def inspected (parts : List Text) (idx : List Nat) : List Nat :=
  idx.filter fun i => !(partText parts i).isEmpty

/-- The whole loop. -/
theorem pack_loop (hlimit : 1000 ≤ limit) (idx : List Nat)
    (h : PackInv parts tool limit p) :
    PackInv parts tool limit (idx.foldl (packPart parts tool limit) p)
      ∧ ∃ pieces,
        List.Forall₂ (PartTiled parts) (inspected parts idx) pieces
          ∧ (idx.foldl (packPart parts tool limit) p).segs
            = p.segs ++ pieces.flatten := by
  induction idx generalizing p with
  | nil => exact ⟨h, [], .nil, (List.append_nil _).symm⟩
  | cons i idx ih =>
      obtain ⟨hstep, hpart⟩ := packPart_spec (i := i) hlimit h
      obtain ⟨hinv, pieces, htiled, hsegs⟩ := ih hstep
      refine ⟨hinv, ?_⟩
      rw [List.foldl_cons, hsegs]
      rcases hpart with ⟨hnil, hsame⟩ | ⟨hne, piece, hpiece, hadd⟩
      · refine ⟨pieces, ?_, by rw [hsame]⟩
        unfold inspected
        rw [List.filter_cons_of_neg (by rw [hnil]; exact Bool.false_ne_true)]
        exact htiled
      · refine ⟨piece :: pieces, ?_, ?_⟩
        · unfold inspected
          rw [List.filter_cons_of_pos (by
            rw [Bool.not_eq_true', List.isEmpty_eq_false_iff]
            exact hne)]
          exact .cons hpiece htiled
        · rw [hadd, List.flatten_cons, List.append_assoc]

/-- The units of the parts. -/
theorem allUnits_spec (hlimit : 1000 ≤ limit) (idx : List Nat) :
    (∀ v ∈ allUnits parts tool idx limit, IsUnit parts tool limit v)
      ∧ ∃ pieces,
        List.Forall₂ (PartTiled parts) (inspected parts idx) pieces
          ∧ (allUnits parts tool idx limit).flatMap View.segs
            = pieces.flatten := by
  have hinit : PackInv parts tool limit ⟨[], none⟩ :=
    ⟨(fun v hv => nomatch hv), (fun u hu => nomatch hu)⟩
  obtain ⟨hinv, pieces, htiled, hsegs⟩ := pack_loop hlimit idx hinit
  exact ⟨hinv.flush.views, pieces, htiled, hsegs⟩

end Packing

end Elitea.Guardrail
