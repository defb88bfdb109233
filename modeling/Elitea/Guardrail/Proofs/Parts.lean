/-
What a stage over many parts masks.

A finding is a range of a view. `View.spans` takes what lies over the
pieces of the view and moves it to their parts: a byte of a part is in one
of these spans exactly if it lies under the finding (`mem_spans_under`).
The spans that reach `applyMasks` are those of the mask detectors
(`runRowsParts_spans`), they are ranges of their parts, and so a byte of a
part is shown exactly if no finding of a mask detector lies over it
(`checkParts_shown_iff`).

`views_tile_parts` collects this with the results on the units.
-/
import Elitea.Guardrail.Proofs.Units

namespace Elitea.Guardrail

open Lib
open Lib.Utf8

variable {d : PartDetector} {rows : List PartRow} {i : Nat} {v : View}
  {views : List View} {ps : PartSpan} {perView : List (List Finding)}

-- ================================================================== findings

/-- Byte `q` of part `i` stands in the view at a place of `[s, e)`. -/
def Seg.Under (sg : Seg) (s e : Int) (i q : Nat) : Prop :=
  sg.part = i ∧ ∃ x : Nat, sg.viewStart ≤ x ∧ x < sg.viewEnd
    ∧ q = sg.partStart + (x - sg.viewStart) ∧ s ≤ x ∧ x < e

/-- Byte `q` of part `i` lies under the finding. -/
def View.Under (v : View) (f : Finding) (i q : Nat) : Prop :=
  ∃ sg ∈ v.segs,
    sg.Under (f.bounds v.text.length).1 (f.bounds v.text.length).2 i q

theorem Seg.mem_spans_under {sg : Seg} {s e : Int} {label : Text} {q : Nat} :
    (∃ ps ∈ sg.spans s e label, ps.part = i ∧ ps.span.Covers q)
      ↔ sg.Under s e i q := by
  unfold Seg.spans Seg.Under Seg.length clamp
  constructor
  · rintro ⟨ps, hps, hpart, hcov⟩
    split at hps
    next => cases hps
    next hmeets =>
      dsimp only at hps
      split at hps
      next hlt =>
        obtain rfl := List.mem_singleton.1 hps
        obtain ⟨hlo, hhi⟩ := hcov
        dsimp only at hpart hlo hhi
        refine ⟨hpart, sg.viewStart + (q - sg.partStart), ?_⟩
        omega
      next => cases hps
  · rintro ⟨hpart, x, hlo, hhi, hq, hs, he⟩
    rw [if_neg (by omega)]
    dsimp only
    rw [if_pos (by omega)]
    refine ⟨_, List.mem_singleton.2 rfl, hpart, ?_⟩
    unfold Span.Covers
    dsimp only
    omega

/-- The spans of a finding hold exactly the bytes under it. -/
theorem mem_spans_under {f : Finding} {q : Nat} :
    (∃ ps ∈ v.spans f, ps.part = i ∧ ps.span.Covers q)
      ↔ v.Under f i q := by
  unfold View.spans View.Under
  constructor
  · rintro ⟨ps, hps, hcov⟩
    obtain ⟨sg, hsg, hps⟩ := List.mem_flatMap.1 hps
    exact ⟨sg, hsg, Seg.mem_spans_under.1 ⟨ps, hps, hcov⟩⟩
  · rintro ⟨sg, hsg, hunder⟩
    obtain ⟨ps, hps, hcov⟩ := Seg.mem_spans_under.2 hunder
    exact ⟨ps, List.mem_flatMap.2 ⟨sg, hsg, hps⟩, hcov⟩

/-- A span of an exact view is a range of its part. -/
theorem View.Exact.spans {parts : List Text} (h : v.Exact parts) {f : Finding}
    (hps : ps ∈ v.spans f) :
    ps.span.start < ps.span.stop
      ∧ ps.span.stop ≤ (partText parts ps.part).length := by
  obtain ⟨sg, hsg, hps⟩ := List.mem_flatMap.1 hps
  have hpart := (h.each sg hsg).inPart
  unfold Seg.spans at hps
  split at hps
  next => cases hps
  next =>
    dsimp only at hps
    split at hps
    next hlt =>
      obtain rfl := List.mem_singleton.1 hps
      refine ⟨hlt, ?_⟩
      unfold clamp
      dsimp only
      omega
    next => cases hps

-- ===================================================================== views

section Views

variable {parts : List Text} {tool : List Bool} {idx : List Nat}

theorem joinParts_exact (h : v.Exact parts) :
    (joinParts parts tool v idx).Exact parts := by
  induction idx generalizing v with
  | nil => exact h
  | cons i idx ih =>
      rw [joinParts]
      refine ih (h.add _ ?_)
      cases hs : v.segs with
      | nil => exact .inl ⟨rfl, rfl⟩
      | cons sg segs => exact .inr rfl

theorem joinedView_exact : (joinedView parts tool idx).Exact parts :=
  joinParts_exact ⟨(fun _ hsg => nomatch hsg), .nil⟩

theorem partViews_exact :
    ∀ v ∈ partViews parts tool idx, v.Exact parts := by
  intro v hv
  obtain ⟨i, -, rfl⟩ := List.mem_map.1 hv
  exact exact_single _

/-- The units a bounded reader gets are units of the parts. -/
theorem unitViews_mem {limit : Nat} :
    ∀ v ∈ (unitViews parts tool idx limit).1,
      v ∈ allUnits parts tool idx limit := by
  intro v hv
  unfold unitViews at hv
  dsimp only at hv
  split at hv
  next => exact List.mem_of_mem_drop hv
  next => exact hv

/-- Whatever a detector reads, it reads bytes of the parts. -/
theorem detectorViews_exact (d : PartDetector) :
    ∀ v ∈ (detectorViews d parts tool idx).1, v.Exact parts := by
  intro v hv
  unfold detectorViews at hv
  split at hv
  next limit ge _ =>
    exact ((allUnits_spec ge idx).1 v (unitViews_mem v hv)).exact
  next => exact partViews_exact v hv
  next =>
    rw [List.mem_singleton.1 hv]
    exact joinedView_exact

end Views

-- ================================================================= the stage

/-- The views a detector gets in a stage. -/
def stageViews (parts : List Text) (tool : List Bool) (d : PartDetector) :
    List View :=
  (detectorViews d parts tool (detectorParts d parts.length tool)).1

/-- Every call of the detector succeeds, and the one on `v` reports
`f`. -/
def Answers (parts : List Text) (tool : List Bool) (d : PartDetector)
    (v : View) (f : Finding) : Prop :=
  (∀ u ∈ stageViews parts tool d, ∃ found, d.call u = .ok found)
    ∧ v ∈ stageViews parts tool d
    ∧ ∃ found, d.call v = .ok found ∧ f ∈ slotFindings d found

/-- A mask detector reports a finding over byte `q` of part `i`. -/
def Masked (rows : List PartRow) (parts : List Text) (tool : List Bool)
    (i q : Nat) : Prop :=
  ∃ row ∈ rows, ∃ d ∈ row.detectors, d.action = .mask
    ∧ ∃ v f, Answers parts tool d v f ∧ v.Under f i q

section Stage

variable {parts : List Text} {tool : List Bool} {row : PartRow}
  {ds : List PartDetector} {spans out : List PartSpan}

/-- The spans one detector asks for. -/
def Asks (parts : List Text) (tool : List Bool) (d : PartDetector)
    (ps : PartSpan) : Prop :=
  d.action = .mask ∧ ∃ v f, Answers parts tool d v f ∧ ps ∈ v.spans f

/-- The calls on the views succeed with the answers, one for each. -/
theorem detectViews_ok_iff :
    detectViews d views = .ok perView
      ↔ List.Forall₂ (fun v found => d.call v = .ok found) views perView := by
  unfold detectViews
  induction views generalizing perView with
  | nil => cases perView <;> simp [pure, Except.pure]
  | cons v views ih =>
      rw [List.mapM_cons]
      cases hv : d.call v with
      | error e => cases perView <;> simp [bind, Except.bind, hv]
      | ok found =>
          cases hviews : views.mapM d.call with
          | error e =>
              cases perView <;> simp [bind, Except.bind, ← ih, hviews, hv]
          | ok rest =>
              cases perView <;>
                simp [bind, Except.bind, pure, Except.pure, ← ih, hviews, hv]

theorem exists_detectViews_ok_iff :
    (∃ perView, detectViews d views = .ok perView)
      ↔ ∀ v ∈ views, ∃ found, d.call v = .ok found := by
  simp only [detectViews_ok_iff]
  induction views with
  | nil => simp
  | cons v views ih =>
      rw [List.forall_mem_cons, ← ih]
      constructor
      · rintro ⟨_, ⟨⟩⟩
        next hv hviews => exact ⟨⟨_, hv⟩, _, hviews⟩
      · rintro ⟨⟨found, hv⟩, rest, hviews⟩
        exact ⟨found :: rest, .cons hv hviews⟩

/-- The pairs of a view and its answer are the calls that were made. -/
theorem mem_zip_iff {found : List Finding}
    (h : detectViews d views = .ok perView) :
    (v, found) ∈ views.zip perView
      ↔ v ∈ views ∧ d.call v = .ok found := by
  induction detectViews_ok_iff.1 h with
  | nil => simp
  | @cons u rest views perView hu hviews ih =>
      rw [List.zip_cons_cons, List.mem_cons, List.mem_cons,
        ih (detectViews_ok_iff.2 hviews), or_and_right]
      refine or_congr_left ?_
      rw [Prod.mk.injEq]
      refine and_congr_right ?_
      rintro rfl
      rw [hu, Except.ok.injEq, eq_comm]

/-- The spans found are those of the findings of the calls. -/
theorem mem_foundSpans (h : detectViews d views = .ok perView) :
    ps ∈ foundSpans d views perView ↔ ∃ v f,
      (v ∈ views ∧ ∃ found, d.call v = .ok found ∧ f ∈ slotFindings d found)
        ∧ ps ∈ v.spans f := by
  unfold foundSpans
  rw [List.mem_flatMap]
  constructor
  · rintro ⟨⟨v, found⟩, hvf, hps⟩
    obtain ⟨hv, hcall⟩ := (mem_zip_iff h).1 hvf
    obtain ⟨f, hf, hps⟩ := List.mem_flatMap.1 hps
    exact ⟨v, f, ⟨hv, found, hcall, hf⟩, hps⟩
  · rintro ⟨v, f, ⟨hv, found, hcall, hf⟩, hps⟩
    exact ⟨(v, found), (mem_zip_iff h).2 ⟨hv, hcall⟩,
      List.mem_flatMap.2 ⟨f, hf, hps⟩⟩

/-- A detector that has no part to read asks for nothing. -/
theorem not_asks_of_empty
    (h : (detectorParts d parts.length tool).isEmpty = true) (ps : PartSpan) :
    ¬ Asks parts tool d ps := by
  rintro ⟨-, v, f, ⟨-, hv, -⟩, hps⟩
  unfold stageViews at hv
  rw [List.isEmpty_iff.1 h] at hv
  obtain ⟨sg, hsg, -⟩ := List.mem_flatMap.1 hps
  have hnil : v.segs = [] := by
    unfold detectorViews at hv
    split at hv
    next => cases hv
    next => cases hv
    next => rw [List.mem_singleton.1 hv]; rfl
  rw [hnil] at hsg
  cases hsg

/-- One detector, then the rest: what it asks for is added. -/
theorem runRowParts_spans
    (h : runRowParts row parts tool ds spans = .ok out) (ps : PartSpan) :
    ps ∈ out ↔ ps ∈ spans ∨ ∃ d ∈ ds, Asks parts tool d ps := by
  induction ds generalizing spans with
  | nil =>
      cases h
      refine ⟨.inl, ?_⟩
      rintro (h | ⟨d, hd, -⟩)
      · exact h
      · cases hd
  | cons d rest ih =>
      -- a detector that asks for nothing leaves the spans as they are
      have quiet : (∀ ps, ¬ Asks parts tool d ps) →
          runRowParts row parts tool rest spans = .ok out →
          (ps ∈ out ↔ ps ∈ spans ∨ ∃ x ∈ d :: rest,
            Asks parts tool x ps) := by
        intro hnone hrest
        rw [ih hrest]
        refine or_congr_right ?_
        rw [List.exists_mem_cons_iff]
        exact ⟨.inr, fun hx => hx.resolve_left (hnone ps)⟩
      rw [runRowParts] at h
      dsimp only at h
      split at h
      next hempty => exact quiet (not_asks_of_empty hempty) h
      next =>
        cases hcalls : detectViews d (stageViews parts tool d) with
        | error e =>
            rw [show (detectorViews d parts tool
              (detectorParts d parts.length tool)).1
                = stageViews parts tool d from rfl, hcalls] at h
            dsimp only at h
            split at h
            next => cases h
            next =>
              refine quiet ?_ h
              rintro ps ⟨-, v, f, ⟨hok, -⟩, -⟩
              obtain ⟨perView, hok⟩ := exists_detectViews_ok_iff.2 hok
              rw [hcalls] at hok
              cases hok
        | ok perView =>
            rw [show (detectorViews d parts tool
              (detectorParts d parts.length tool)).1
                = stageViews parts tool d from rfl, hcalls] at h
            dsimp only at h
            -- what it asks for are the spans found
            have hasks : ∀ ps, Asks parts tool d ps ↔ d.action = .mask
                ∧ ps ∈ foundSpans d (stageViews parts tool d) perView := by
              intro ps
              have hok := exists_detectViews_ok_iff.1 ⟨_, hcalls⟩
              rw [mem_foundSpans hcalls]
              refine and_congr_right fun _ => exists₂_congr fun v f => ?_
              exact and_congr_left fun _ => and_iff_right hok
            split at h
            next hall =>
              refine quiet (fun ps hask => ?_) h
              obtain ⟨-, v, f, ⟨-, hv, found, hcall, hf⟩, -⟩ := hask
              have hvf := (mem_zip_iff hcalls).2 ⟨hv, hcall⟩
              have := List.all_eq_true.1 hall found (List.of_mem_zip hvf).2
              rw [List.isEmpty_iff.1 this] at hf
              cases hf
            next =>
              cases hact : d.action with
              | block => rw [hact] at h; cases h
              | flag =>
                  rw [hact] at h
                  refine quiet (fun ps hask => ?_) h
                  rw [hasks, hact] at hask
                  cases hask.1
              | mask =>
                  rw [hact] at h
                  rw [ih h, List.mem_append, or_assoc,
                    List.exists_mem_cons_iff, hasks ps]
                  exact or_congr_right (or_congr_left
                    ⟨fun hps => ⟨hact, hps⟩, And.right⟩)

theorem runRowsParts_spans (h : runRowsParts parts tool rows spans = .ok out)
    (ps : PartSpan) :
    ps ∈ out ↔ ps ∈ spans ∨ ∃ row ∈ rows, ∃ d ∈ row.detectors,
      Asks parts tool d ps := by
  induction rows generalizing spans with
  | nil =>
      cases h
      refine ⟨.inl, ?_⟩
      rintro (h | ⟨row, hrow, -⟩)
      · exact h
      · cases hrow
  | cons row rest ih =>
      rw [runRowsParts] at h
      cases hrow : runRowParts row parts tool row.detectors spans with
      | error v => rw [hrow] at h; cases h
      | ok mid =>
          rw [hrow] at h
          rw [ih h, runRowParts_spans hrow, or_assoc,
            List.exists_mem_cons_iff]

/-- What a detector asks for are ranges of the parts. -/
theorem Asks.range (h : Asks parts tool d ps) :
    ps.span.start < ps.span.stop
      ∧ ps.span.stop ≤ (partText parts ps.part).length := by
  obtain ⟨-, v, f, ⟨-, hv, -⟩, hps⟩ := h
  exact (detectorViews_exact d v hv).spans hps

theorem mem_spansOf {s : Span} : s ∈ spansOf spans i ↔ ⟨i, s⟩ ∈ spans := by
  unfold spansOf
  constructor
  · intro hs
    obtain ⟨ps, hps, rfl⟩ := List.mem_map.1 hs
    obtain ⟨hmem, hpart⟩ := List.mem_filter.1 hps
    rw [← of_decide_eq_true hpart]
    exact hmem
  · intro hs
    exact List.mem_map.2 ⟨⟨i, s⟩,
      List.mem_filter.2 ⟨hs, decide_eq_true rfl⟩, rfl⟩

/-- The bytes the spans of a part cover are those a mask detector reports
a finding over. -/
theorem covered_spansOf (h : runRowsParts parts tool rows [] = .ok out)
    (i q : Nat) : Covered (spansOf out i) q ↔ Masked rows parts tool i q := by
  constructor
  · rintro ⟨s, hs, hq⟩
    rw [mem_spansOf, runRowsParts_spans h] at hs
    rcases hs with hs | ⟨row, hrow, d, hd, hmask, v, f, hans, hps⟩
    · cases hs
    · exact ⟨row, hrow, d, hd, hmask, v, f, hans,
        mem_spans_under.1 ⟨_, hps, rfl, hq⟩⟩
  · rintro ⟨row, hrow, d, hd, hmask, v, f, hans, hunder⟩
    obtain ⟨⟨part, s⟩, hps, rfl, hq⟩ := mem_spans_under.2 hunder
    refine ⟨s, ?_, hq⟩
    rw [mem_spansOf, runRowsParts_spans h]
    exact .inr ⟨row, hrow, d, hd, hmask, v, f, hans, hps⟩

theorem ranges_spansOf (h : runRowsParts parts tool rows [] = .ok out)
    (i : Nat) : Ranges (partText parts i) (spansOf out i) := by
  intro s hs
  rw [mem_spansOf, runRowsParts_spans h] at hs
  rcases hs with hs | ⟨row, hrow, d, hd, hask⟩
  · cases hs
  · exact hask.range

end Stage

/-- What a stage returns for one part: pieces that stand for the part,
where a byte is shown exactly if no finding of a mask detector lies over
it. -/
def PartMasked (rows : List PartRow) (parts : List Text)
    (tool : List Bool) (i : Nat) (pieces : List Piece) : Prop :=
  source pieces = partText parts i
    ∧ render pieces = (cells pieces).flatMap Cell.text
    ∧ ∀ q, (h : q < (partText parts i).length) →
      ((cells pieces)[q]? = some (.shown (partText parts i)[q])
        ↔ ¬ Masked rows parts tool i q)

theorem partMasked_applyMasks {parts : List Text} {tool : List Bool}
    {spans : List PartSpan} (h : runRowsParts parts tool rows [] = .ok spans)
    (i : Nat) :
    PartMasked rows parts tool i
      (applyMasks (partText parts i) (spansOf spans i)) := by
  have hranges := ranges_spansOf h i
  refine ⟨source_applyMasksFrom hranges,
    render_eq_cells (tiled_applyMasksFrom hranges), ?_⟩
  intro q hq
  unfold applyMasks
  rw [cells_applyMasksFrom hranges, List.getElem?_map,
    List.getElem?_range hq, Option.map_some, ← covered_spansOf h]
  constructor
  · intro hcell hcov
    exact cellAt_ne_shown hcov _ (Option.some.inj hcell)
  · intro hcov
    rw [cellAt_shown hcov, List.getD_eq_getElem?_getD,
      List.getElem?_eq_getElem hq]
    rfl

theorem partMasked_raw {parts : List Text} {tool : List Bool} (i : Nat)
    (h : rows = []) :
    PartMasked rows parts tool i [.raw (partText parts i)] := by
  have hcells : cells [.raw (partText parts i)]
      = (partText parts i).map .shown := List.append_nil _
  refine ⟨List.append_nil _, render_eq_cells ?_, ?_⟩
  · intro marker hmem
    cases List.mem_singleton.1 hmem
  · intro q hq
    rw [hcells, List.getElem?_map, List.getElem?_eq_getElem hq]
    refine ⟨fun _ => ?_, fun _ => rfl⟩
    rintro ⟨row, hrow, -⟩
    rw [h] at hrow
    cases hrow

theorem getElem_eq_partText {parts : List Text} (hi : i < parts.length) :
    parts[i] = partText parts i := by
  unfold partText
  rw [List.getD_eq_getElem?_getD, List.getElem?_eq_getElem hi]
  rfl

/-- Every part comes back masked exactly where a mask detector reports a
finding. -/
theorem checkParts_shown_iff {parts : List Text} {tool : List Bool}
    {out : List (List Piece)} (h : checkParts rows parts tool = .ok out) :
    out.length = parts.length
      ∧ ∀ i, (hi : i < out.length) → PartMasked rows parts tool i out[i] := by
  unfold checkParts at h
  split at h
  next hidle =>
    cases h
    refine ⟨List.length_map _, fun i hi => ?_⟩
    rw [List.length_map] at hi
    rw [List.getElem_map]
    rw [Bool.or_eq_true, List.isEmpty_iff, List.isEmpty_iff] at hidle
    rcases hidle with hrows | hparts
    · rw [getElem_eq_partText hi]
      exact partMasked_raw i hrows
    · rw [hparts] at hi
      cases hi
  next =>
    cases hrun : runRowsParts parts tool rows [] with
    | error v => rw [hrun] at h; cases h
    | ok spans =>
        rw [hrun] at h
        cases h
        refine ⟨List.length_mapIdx, fun i hi => ?_⟩
        rw [List.length_mapIdx] at hi
        rw [List.getElem_mapIdx, getElem_eq_partText hi]
        exact partMasked_applyMasks hrun i

-- ====================================================================== tiling

/-- What `unitViews` returns: all units, or the newest ones. -/
theorem unitViews_newest (parts : List Text) (tool : List Bool)
    (idx : List Nat) (limit : Nat) :
    ((unitViews parts tool idx limit).2 = false →
        (unitViews parts tool idx limit).1 = allUnits parts tool idx limit)
      ∧ ((unitViews parts tool idx limit).2 = true →
        (unitViews parts tool idx limit).1.length = maxDetectorCalls
          ∧ (unitViews parts tool idx limit).1
            <:+ allUnits parts tool idx limit) := by
  unfold unitViews
  dsimp only
  split
  next hmany =>
    refine ⟨fun h => (nomatch h), fun _ => ⟨?_, List.drop_suffix _ _⟩⟩
    rw [List.length_drop]
    omega
  next => exact ⟨fun _ => rfl, fun h => (nomatch h)⟩

/-- The units tile the parts that are not empty, each of them exact,
within the limit and of one kind; a reader gets all of them or the newest
ones; a finding is mapped to exactly the bytes under it, in every view a
detector may read; and a stage masks exactly the bytes under the findings
of its mask detectors. -/
theorem views_tile_parts (parts : List Text) (tool : List Bool)
    (idx : List Nat) {limit : Nat} (hlimit : 1000 ≤ limit) :
    (∃ pieces,
        List.Forall₂ (PartTiled parts) (inspected parts idx) pieces
          ∧ (allUnits parts tool idx limit).flatMap View.segs
            = pieces.flatten)
      ∧ (∀ v ∈ allUnits parts tool idx limit, IsUnit parts tool limit v)
      ∧ ((unitViews parts tool idx limit).2 = false →
          (unitViews parts tool idx limit).1
            = allUnits parts tool idx limit)
      ∧ ((unitViews parts tool idx limit).2 = true →
          (unitViews parts tool idx limit).1.length = maxDetectorCalls
            ∧ (unitViews parts tool idx limit).1
              <:+ allUnits parts tool idx limit)
      ∧ (∀ (v : View) (f : Finding) (i q : Nat),
          (∃ ps ∈ v.spans f, ps.part = i ∧ ps.span.Covers q)
            ↔ v.Under f i q)
      ∧ (∀ (d : PartDetector), ∀ v ∈ stageViews parts tool d,
          v.Exact parts)
      ∧ ∀ (rows : List PartRow) (out : List (List Piece)),
          checkParts rows parts tool = .ok out →
            out.length = parts.length ∧ ∀ i, (hi : i < out.length) →
              PartMasked rows parts tool i out[i] := by
  obtain ⟨hunits, htiles⟩ := allUnits_spec hlimit idx
  obtain ⟨hall, hnewest⟩ := unitViews_newest parts tool idx limit
  exact ⟨htiles, hunits, hall, hnewest, fun _ _ _ _ => mem_spans_under,
    fun d => detectorViews_exact d, fun _ _ => checkParts_shown_iff⟩

/-- Two parts of different kinds: two units. -/
theorem views_tile_parts_two :
    (allUnits [[0x61], [], [0x62]] [false, false, true] [0, 1, 2] 1000).map
        View.text = [[0x61], [0x62]]
      ∧ ∀ v ∈ allUnits [[0x61], [], [0x62]] [false, false, true] [0, 1, 2]
          1000,
        IsUnit [[0x61], [], [0x62]] [false, false, true] 1000 v :=
  ⟨by decide +kernel,
    (views_tile_parts [[0x61], [], [0x62]] [false, false, true] [0, 1, 2]
      (Nat.le_refl 1000)).2.1⟩

end Elitea.Guardrail
