/-
What a masked text shows of each byte of its content.

# Cells

`cells` lists, for each byte of the content the pieces stand for, what
the text has in its place: the byte, a marker, or nothing. The rendered
text is the cells written one after another (`render_eq_cells`), so
whatever the cells say is said about the text, in the content's order.

# The specification

A byte is shown exactly when no span covers it. A marker stands at the
first byte of each maximal covered run, labelled by the longest span
that starts there, unless the run continues a mask marked before
(`cellAt_shown`, `cellAt_opens`, `cellAt_inside`).

# The detectors

When the pipeline does not refuse, every finding of a mask detector is
among its spans (`run_finds`), and every span is a non-empty range of
the content, with a label (`run_reported`).
-/
import Elitea.Guardrail.Mask

namespace Elitea.Guardrail

open Lib

variable {s : Span} {pos : Nat} {a blocks rest : List Span}
  {m : Detector → Prop} {filter : Detector → Bool}

-- ================================================================== cells

/-- What stands in the text for one byte of the content. -/
inductive Cell
  | shown (b : UInt8)
  | marked (label : Text)
  | hidden
deriving DecidableEq, Repr

def Cell.text : Cell → Text
  | .shown b => [b]
  | .marked label => maskMarker label
  | .hidden => []

/-- The first cell of a masked range carries the marker. -/
def markCell : Option Text → Cell
  | some label => .marked label
  | none => .hidden

def Piece.cells : Piece → List Cell
  | .raw bytes => bytes.map .shown
  | .masked [] _ => []
  | .masked (_ :: rest) marker => markCell marker :: rest.map fun _ => .hidden

def cells (pieces : List Piece) : List Cell := pieces.flatMap Piece.cells

/-- No marker stands for nothing. -/
def Tiled (pieces : List Piece) : Prop :=
  ∀ marker, .masked [] marker ∉ pieces

theorem Tiled.append {a b : List Piece} (ha : Tiled a) (hb : Tiled b) :
    Tiled (a ++ b) := by
  intro marker hmem
  rcases List.mem_append.1 hmem with h | h
  · exact ha marker h
  · exact hb marker h

@[simp] theorem cells_nil : cells [] = [] := rfl

@[simp] theorem cells_cons (x : Piece) (pieces : List Piece) :
    cells (x :: pieces) = x.cells ++ cells pieces := rfl

@[simp] theorem cells_append (a b : List Piece) :
    cells (a ++ b) = cells a ++ cells b :=
  List.flatMap_append

@[simp] theorem source_nil : source [] = [] := rfl

@[simp] theorem source_cons (x : Piece) (pieces : List Piece) :
    source (x :: pieces) = x.source ++ source pieces := rfl

@[simp] theorem source_append (a b : List Piece) :
    source (a ++ b) = source a ++ source b :=
  List.flatMap_append

theorem length_cells_piece (x : Piece) :
    x.cells.length = x.source.length := by
  match x with
  | .raw bytes => simp [Piece.cells, Piece.source]
  | .masked [] _ => rfl
  | .masked (_ :: _) _ => simp [Piece.cells, Piece.source]

/-- One cell for each byte. -/
theorem length_cells (pieces : List Piece) :
    (cells pieces).length = (source pieces).length := by
  induction pieces with
  | nil => rfl
  | cons x rest ih =>
      rw [cells_cons, source_cons, List.length_append, List.length_append,
        ih, length_cells_piece]

theorem text_hidden (rest : Text) :
    (rest.map fun _ => Cell.hidden).flatMap Cell.text = [] := by
  induction rest with
  | nil => rfl
  | cons b rest ih => exact ih

/-- The text is its cells, in order. -/
theorem render_eq_cells {pieces : List Piece} (htiled : Tiled pieces) :
    render pieces = (cells pieces).flatMap Cell.text := by
  induction pieces with
  | nil => rfl
  | cons x rest ih =>
      have hrest : Tiled rest :=
        fun marker h => htiled marker (List.mem_cons_of_mem x h)
      rw [cells_cons, List.flatMap_append, ← ih hrest]
      show x.text ++ render rest = _
      congr 1
      match x with
      | .raw bytes =>
          show bytes = (bytes.map Cell.shown).flatMap Cell.text
          rw [List.flatMap_map]
          simp [Cell.text]
      | .masked [] marker => exact absurd List.mem_cons_self (htiled marker)
      | .masked (_ :: hidden) (some label) =>
          rw [Piece.cells, List.flatMap_cons, text_hidden, List.append_nil]
          rfl
      | .masked (_ :: hidden) none =>
          rw [Piece.cells, List.flatMap_cons, text_hidden]
          rfl

-- ============================================================ the writing

/-- What merged blocks make of the byte at `q`. -/
def cellAt (content : Text) (continued : Bool) (blocks : List Span)
    (q : Nat) : Cell :=
  match blocks.find? fun s => decide (s.Covers q) with
  | none => .shown (content.getD q 0)
  | some s =>
      if s.start = q ∧ (continued = false ∨ q ≠ 0) then .marked s.label
      else .hidden

theorem cellAt_cons_of_not {content : Text} {continued : Bool} {q : Nat}
    (h : ¬ s.Covers q) :
    cellAt content continued (s :: rest) q
      = cellAt content continued rest q := by
  simp [cellAt, h]

theorem cellAt_cons_of {content : Text} {continued : Bool} {q : Nat}
    (h : s.Covers q) :
    cellAt content continued (s :: rest) q
      = if s.start = q ∧ (continued = false ∨ q ≠ 0) then .marked s.label
        else .hidden := by
  simp [cellAt, h]

theorem cellAt_of_not_covered {content : Text} {continued : Bool} {q : Nat}
    (h : ¬ Covered blocks q) :
    cellAt content continued blocks q = .shown (content.getD q 0) := by
  have hnone : blocks.find? (fun s => decide (s.Covers q)) = none := by
    rw [List.find?_eq_none]
    intro s hs hq
    exact h ⟨s, hs, of_decide_eq_true hq⟩
  simp [cellAt, hnone]

theorem range'_split {a b c : Nat} (hab : a ≤ b) (hbc : b ≤ c) :
    List.range' a (c - a)
      = List.range' a (b - a) ++ List.range' b (c - b) := by
  have h := @List.range'_append_1 a (b - a) (c - b)
  rw [show a + (b - a) = b by omega,
    show b - a + (c - b) = c - a by omega] at h
  exact h.symm

/-- A slice of the content, cell by cell. -/
theorem shown_slice (content : Text) {stop : Nat}
    (hstop : stop ≤ content.length) :
    ((content.take stop).drop pos).map Cell.shown
      = (List.range' pos (stop - pos)).map fun q =>
          .shown (content.getD q 0) := by
  refine List.ext_getElem ?_ fun i h₁ h₂ => ?_
  · simp
    omega
  · simp only [List.length_map, List.length_range'] at h₂
    simp only [List.getElem_map, List.getElem_drop, List.getElem_take,
      List.getElem_range', Nat.one_mul]
    rw [List.getD_eq_getElem?_getD, List.getElem?_eq_getElem (by omega)]
    rfl

/-- The bytes of one block: a marker, then nothing. -/
theorem cells_block {content : Text} {continued : Bool}
    (hlt : s.start < s.stop) (hlen : s.stop ≤ content.length) :
    (Piece.masked ((content.take s.stop).drop s.start)
        (if !continued || s.start != 0 then some s.label else none)).cells
      = (List.range' s.start (s.stop - s.start)).map
          (cellAt content continued (s :: rest)) := by
  have hslice : (content.take s.stop).drop s.start
      = content[s.start] :: (content.take s.stop).drop (s.start + 1) := by
    rw [List.drop_eq_getElem_cons (by simp; omega), List.getElem_take]
  have hfirst : s.Covers s.start := ⟨Nat.le_refl _, hlt⟩
  rw [hslice, show s.stop - s.start = s.stop - (s.start + 1) + 1 by omega,
    List.range'_succ, List.map_cons, Piece.cells]
  refine congrArg₂ _ ?_ ?_
  · rw [cellAt_cons_of hfirst]
    cases continued
    · simp [markCell]
    · by_cases h0 : s.start = 0 <;> simp [markCell, h0]
  · refine List.ext_getElem (by simp; omega) fun i h₁ h₂ => ?_
    simp only [List.length_map, List.length_range'] at h₂
    rw [List.getElem_map, List.getElem_map, List.getElem_range',
      cellAt_cons_of ⟨by omega, by omega⟩, if_neg (by omega)]

/-- Blocks ready to be written from `pos` on. -/
structure Writable (content : Text) (pos : Nat) (blocks : List Span) : Prop
    where
  separated : Separated blocks
  lt : ∀ s ∈ blocks, s.start < s.stop
  le : ∀ s ∈ blocks, s.stop ≤ content.length
  from_pos : ∀ s ∈ blocks, pos ≤ s.start

theorem Writable.tail {content : Text} (h : Writable content pos (s :: rest)) :
    Writable content s.stop rest where
  separated := (List.pairwise_cons.1 h.separated).2
  lt := fun x hx => h.lt x (List.mem_cons_of_mem s hx)
  le := fun x hx => h.le x (List.mem_cons_of_mem s hx)
  from_pos := fun x hx =>
    Nat.le_of_lt ((List.pairwise_cons.1 h.separated).1 x hx)

/-- On writable blocks the clamps of the loop do nothing. -/
theorem Writable.writeMasks_cons {content : Text} {continued : Bool}
    (h : Writable content pos (s :: rest)) :
    writeMasks content continued pos (s :: rest)
      = .raw ((content.take s.start).drop pos)
        :: .masked ((content.take s.stop).drop s.start)
          (if !continued || s.start != 0 then some s.label else none)
        :: writeMasks content continued s.stop rest := by
  have hlt := h.lt s List.mem_cons_self
  have hle := h.le s List.mem_cons_self
  have hpos := h.from_pos s List.mem_cons_self
  have hstart : max (min s.start content.length) pos = s.start := by omega
  have hstop : min s.stop content.length = s.stop := by omega
  simp only [writeMasks, hstart, hstop]
  rw [if_neg (by omega)]

/-- The loop writes, for each byte from `pos` on, its cell. -/
theorem cells_writeMasks {content : Text} {continued : Bool}
    (h : Writable content pos blocks) :
    cells (writeMasks content continued pos blocks)
      = (List.range' pos (content.length - pos)).map
          (cellAt content continued blocks) := by
  induction blocks generalizing pos with
  | nil =>
      have hslice := @shown_slice pos content _ (Nat.le_refl _)
      rw [List.take_length] at hslice
      simp only [writeMasks, cells_cons, cells_nil, List.append_nil,
        Piece.cells, hslice]
      rfl
  | cons s rest ih =>
      have hlt := h.lt s List.mem_cons_self
      have hle := h.le s List.mem_cons_self
      have hpos := h.from_pos s List.mem_cons_self
      rw [h.writeMasks_cons, cells_cons, cells_cons, ih h.tail,
        range'_split hpos (by omega), range'_split (Nat.le_of_lt hlt) hle,
        List.map_append, List.map_append, ← cells_block hlt hle]
      congr 1
      · -- before the block: no block covers these bytes
        rw [Piece.cells, shown_slice content (by omega)]
        refine List.map_congr_left fun q hq => ?_
        rw [List.mem_range'_1] at hq
        rw [cellAt_of_not_covered]
        rintro ⟨x, hx, hcov⟩
        rcases List.mem_cons.1 hx with rfl | hx
        · exact absurd hcov.1 (by omega)
        · have := h.tail.from_pos x hx
          exact absurd hcov.1 (by omega)
      · congr 1
        -- after it: the block covers none of these bytes
        refine List.map_congr_left fun q hq => ?_
        rw [List.mem_range'_1] at hq
        rw [cellAt_cons_of_not]
        rintro ⟨-, hq'⟩
        omega

theorem tiled_writeMasks {content : Text} {continued : Bool}
    (h : Writable content pos blocks) :
    Tiled (writeMasks content continued pos blocks) := by
  induction blocks generalizing pos with
  | nil => simp [Tiled, writeMasks]
  | cons s rest ih =>
      have hlt := h.lt s List.mem_cons_self
      have hle := h.le s List.mem_cons_self
      intro marker hmem
      rw [h.writeMasks_cons] at hmem
      simp only [List.mem_cons, Piece.masked.injEq, reduceCtorEq,
        false_or] at hmem
      rcases hmem with ⟨hnil, -⟩ | hmem
      · have := congrArg List.length hnil
        simp only [List.length_drop, List.length_take, List.length_nil] at this
        omega
      · exact ih h.tail marker hmem

theorem slice_append_drop (content : Text) {a b : Nat} (hab : a ≤ b)
    (hb : b ≤ content.length) :
    (content.take b).drop a ++ content.drop b = content.drop a := by
  conv => rhs; rw [← List.take_append_drop b content]
  rw [List.drop_append_of_le_length (by simp; omega)]

/-- Nothing of the content is lost or written twice. -/
theorem source_writeMasks {content : Text} {continued : Bool}
    (h : Writable content pos blocks) :
    source (writeMasks content continued pos blocks) = content.drop pos := by
  induction blocks generalizing pos with
  | nil => simp [writeMasks, Piece.source]
  | cons s rest ih =>
      have hlt := h.lt s List.mem_cons_self
      have hle := h.le s List.mem_cons_self
      have hpos := h.from_pos s List.mem_cons_self
      rw [h.writeMasks_cons, source_cons, source_cons, ih h.tail]
      simp only [Piece.source]
      rw [slice_append_drop content (Nat.le_of_lt hlt) hle,
        slice_append_drop content hpos (by omega)]

-- ======================================================= merging the spans

/-- What `applyMasksFrom` is given: non-empty ranges of the content. -/
def Ranges (content : Text) (spans : List Span) : Prop :=
  ∀ s ∈ spans, s.start < s.stop ∧ s.stop ≤ content.length

theorem mergeSpans_nil : mergeSpans [] = [] := rfl

/-- The sort, taken apart: a non-empty list has a first span, which is
the longest of those that start first. -/
theorem mergeSpans_eq {spans : List Span} (hne : spans ≠ []) :
    ∃ s rest, mergeSpans spans = mergeFrom s rest
      ∧ (∀ x, x ∈ s :: rest ↔ x ∈ spans) ∧ (s :: rest).Pairwise Before := by
  have hmem := fun x => List.mem_insertionSort Before (l := spans) (x := x)
  have hsorted := List.pairwise_insertionSort Before spans
  cases hsort : spans.insertionSort Before with
  | nil =>
      have hperm := List.perm_insertionSort Before spans
      rw [hsort] at hperm
      exact absurd hperm.nil_eq.symm hne
  | cons s rest =>
      rw [hsort] at hmem hsorted
      refine ⟨s, rest, ?_, hmem, hsorted⟩
      rw [mergeSpans, hsort]

theorem covered_mergeSpans (spans : List Span) (q : Nat) :
    Covered (mergeSpans spans) q ↔ Covered spans q := by
  by_cases hne : spans = []
  · rw [hne, mergeSpans_nil]
  · obtain ⟨s, rest, heq, hmem, hsorted⟩ := mergeSpans_eq hne
    rw [heq, covered_mergeFrom (hsorted.imp Before.start_le),
      covered_congr hmem]

theorem writable_mergeSpans {content : Text} {spans : List Span}
    (h : Ranges content spans) : Writable content 0 (mergeSpans spans) := by
  by_cases hne : spans = []
  · rw [hne, mergeSpans_nil]
    exact ⟨.nil, by simp, by simp, by simp⟩
  · obtain ⟨s, rest, heq, hmem, hsorted⟩ := mergeSpans_eq hne
    have hlt : ∀ m ∈ mergeSpans spans, m.start < m.stop := by
      rw [heq]
      exact mergeFrom_lt fun x hx => (h x ((hmem x).1 hx)).1
    refine ⟨?_, hlt, fun m hm => ?_, fun _ _ => Nat.zero_le _⟩
    · rw [heq]
      exact separated_mergeFrom (hsorted.imp Before.start_le)
    · -- the last byte of a block is covered by a span of the content
      have hm' := hlt m hm
      have hcov : Covered spans (m.stop - 1) := by
        rw [← covered_mergeSpans]
        exact ⟨m, hm, by unfold Span.Covers; omega⟩
      obtain ⟨x, hx, hq⟩ := hcov
      have := (h x hx).2
      have := hq.2
      omega

/-- A block starts, and is labelled, as the longest of the spans that
start there. -/
theorem mem_mergeSpans {content : Text} {spans : List Span}
    (h : Ranges content spans) {m : Span} (hm : m ∈ mergeSpans spans) :
    ∃ s ∈ spans, m.start = s.start ∧ m.label = s.label
      ∧ ∀ s' ∈ spans, s'.start = s.start → s'.stop ≤ s.stop := by
  by_cases hne : spans = []
  · rw [hne, mergeSpans_nil] at hm
    cases hm
  · obtain ⟨s, rest, heq, hmem, hsorted⟩ := mergeSpans_eq hne
    rw [heq] at hm
    have ⟨hfirst, hrest⟩ := List.pairwise_cons.1 hsorted
    have hlt : ∀ x ∈ s :: rest, x.start < x.stop :=
      fun x hx => (h x ((hmem x).1 hx)).1
    rcases mem_mergeFrom hrest
        (fun x hx => hlt x (List.mem_cons_of_mem s hx)) hm with
      ⟨hstart, hlabel⟩ | ⟨x, hx, hstart, hlabel, hgap, hlong⟩
    · refine ⟨s, (hmem s).1 List.mem_cons_self, hstart, hlabel, ?_⟩
      intro s' hs' hstart'
      rcases List.mem_cons.1 ((hmem s').2 hs') with rfl | hs'
      · exact Nat.le_refl _
      · have := hfirst s' hs'
        unfold Before at this
        omega
    · refine ⟨x, (hmem x).1 (List.mem_cons_of_mem s hx), hstart, hlabel, ?_⟩
      intro s' hs' hstart'
      rcases List.mem_cons.1 ((hmem s').2 hs') with rfl | hs'
      · -- the first span ends before `x` starts
        have := hlt s' List.mem_cons_self
        omega
      · exact hlong s' hs' hstart'

-- ====================================================== the specification

section Spec

variable {content : Text} {spans : List Span} {continued : Bool} {q : Nat}

theorem cells_applyMasksFrom (h : Ranges content spans) :
    cells (applyMasksFrom content spans continued)
      = (List.range content.length).map
          (cellAt content continued (mergeSpans spans)) := by
  rw [applyMasksFrom, cells_writeMasks (writable_mergeSpans h),
    List.range_eq_range', Nat.sub_zero]

theorem tiled_applyMasksFrom (h : Ranges content spans) :
    Tiled (applyMasksFrom content spans continued) :=
  tiled_writeMasks (writable_mergeSpans h)

theorem source_applyMasksFrom (h : Ranges content spans) :
    source (applyMasksFrom content spans continued) = content :=
  source_writeMasks (writable_mergeSpans h)

/-- An uncovered byte is shown. -/
theorem cellAt_shown (hq : ¬ Covered spans q) :
    cellAt content continued (mergeSpans spans) q
      = .shown (content.getD q 0) :=
  cellAt_of_not_covered fun h => hq ((covered_mergeSpans spans q).1 h)

/-- The block that covers a covered byte decides its cell. -/
theorem cellAt_block (hq : Covered spans q) :
    ∃ m ∈ mergeSpans spans, m.Covers q
      ∧ cellAt content continued (mergeSpans spans) q
        = if m.start = q ∧ (continued = false ∨ q ≠ 0) then .marked m.label
          else .hidden := by
  obtain ⟨b, hb, hcov⟩ := (covered_mergeSpans spans q).2 hq
  cases hfind : (mergeSpans spans).find? fun s => decide (s.Covers q) with
  | none =>
      rw [List.find?_eq_none] at hfind
      exact absurd (decide_eq_true hcov) (hfind b hb)
  | some m =>
      have hcov := List.find?_some hfind
      refine ⟨m, List.mem_of_find?_eq_some hfind, of_decide_eq_true hcov, ?_⟩
      rw [cellAt, hfind]

/-- A covered byte is not shown. -/
theorem cellAt_ne_shown (hq : Covered spans q) (b : UInt8) :
    cellAt content continued (mergeSpans spans) q ≠ .shown b := by
  obtain ⟨m, -, -, heq⟩ := @cellAt_block content spans continued q hq
  rw [heq]
  split <;> simp

/-- A masked text shows uncovered bytes only. -/
theorem not_covered_of_shown (h : Ranges content spans) {b : UInt8}
    (hb : (cells (applyMasksFrom content spans continued))[q]?
      = some (.shown b)) : q < content.length ∧ ¬ Covered spans q := by
  rw [cells_applyMasksFrom h, List.getElem?_map, Option.map_eq_some_iff] at hb
  obtain ⟨q', hq', hcell⟩ := hb
  obtain ⟨hlt, rfl⟩ := List.getElem?_eq_some_iff.1 hq'
  rw [List.length_range] at hlt
  rw [List.getElem_range] at hcell
  exact ⟨hlt, fun hcov => cellAt_ne_shown hcov b hcell⟩

/-- The first byte of a covered run is a marker, unless the run goes on
from a mask that was marked. -/
theorem cellAt_opens (h : Ranges content spans) (hq : Covered spans q)
    (hopens : q = 0 ∨ ¬ Covered spans (q - 1))
    (hcont : continued = false ∨ q ≠ 0) :
    ∃ s ∈ spans, s.start = q
      ∧ (∀ s' ∈ spans, s'.start = q → s'.stop ≤ s.stop)
      ∧ cellAt content continued (mergeSpans spans) q = .marked s.label := by
  obtain ⟨m, hm, hcov, heq⟩ := @cellAt_block content spans continued q hq
  have hstart : m.start = q := by
    rcases hopens with h0 | hprev
    · have := hcov.1
      omega
    · refine Classical.byContradiction fun hne => hprev ?_
      rw [← covered_mergeSpans]
      have := hcov.1
      have := hcov.2
      exact ⟨m, hm, by unfold Span.Covers; omega⟩
  obtain ⟨s, hs, hms, hlabel, hlong⟩ := mem_mergeSpans h hm
  refine ⟨s, hs, by omega, ?_, ?_⟩
  · intro s' hs' hs'q
    exact hlong s' hs' (by omega)
  · rw [heq, if_pos ⟨hstart, hcont⟩, hlabel]

/-- The other bytes of a covered run leave nothing. -/
theorem cellAt_inside (h : Ranges content spans) (hq : Covered spans q)
    (h0 : q ≠ 0) (hprev : Covered spans (q - 1)) :
    cellAt content continued (mergeSpans spans) q = .hidden := by
  obtain ⟨m, hm, hcov, heq⟩ := @cellAt_block content spans continued q hq
  rw [heq, if_neg]
  rintro ⟨hstart, -⟩
  -- the block of the byte before would touch this one
  obtain ⟨m', hm', hcov'⟩ := (covered_mergeSpans spans (q - 1)).2 hprev
  unfold Span.Covers at hcov hcov'
  rcases (writable_mergeSpans h).separated.eq_or hm' hm with rfl | h | h
  all_goals omega

end Spec

-- ========================================================== the detectors

theorem mem_spans {content : Text} {f : Finding} (hs : s ∈ f.spans content) :
    s.start < s.stop ∧ s.stop ≤ content.length ∧ s.label = f.label := by
  simp only [Finding.spans] at hs
  split at hs
  · cases hs
  · split at hs
    case isTrue h =>
      rw [List.mem_singleton.1 hs]
      exact ⟨h, Nat.min_le_right _ _, rfl⟩
    case isFalse => cases hs

/-- A span that a detector may report: a non-empty range of the content,
with a label. -/
def Reported (content : Text) (s : Span) : Prop :=
  s.start < s.stop ∧ s.stop ≤ content.length ∧ s.label ≠ []

theorem reported_of_detect {content : Text} {d : Detector}
    {found : List Finding} (h : d.detect content = .ok found) :
    ∀ s ∈ found.flatMap (Finding.spans content), Reported content s := by
  intro s hs
  obtain ⟨f, hf, hs⟩ := List.mem_flatMap.1 hs
  obtain ⟨hlt, hle, hlabel⟩ := mem_spans hs
  refine ⟨hlt, hle, ?_⟩
  rw [hlabel]
  exact d.labelled content found h f hf

/-- What a run over rows or detectors adds to the spans: reported ones,
among them all that the given mask detectors find. -/
structure Adds (content : Text) (masks : Detector → Prop)
    (before after : List Span) : Prop where
  keeps : ∀ s ∈ before, s ∈ after
  reported : ∀ s ∈ after, s ∈ before ∨ Reported content s
  finds : ∀ d, masks d → ∀ found, d.detect content = .ok found →
    ∀ s ∈ found.flatMap (Finding.spans content), s ∈ after

theorem Adds.trans {content : Text} {m' : Detector → Prop} {b c : List Span}
    (h : Adds content m a b) (h' : Adds content m' b c) :
    Adds content (fun d => m d ∨ m' d) a c where
  keeps := fun s hs => h'.keeps s (h.keeps s hs)
  reported := by
    intro s hs
    rcases h'.reported s hs with hs | hs
    · exact h.reported s hs
    · exact .inr hs
  finds := by
    rintro d (hd | hd) found hfound s hs
    · exact h'.keeps s (h.finds d hd found hfound s hs)
    · exact h'.finds d hd found hfound s hs

theorem Adds.mono {content : Text} {m' : Detector → Prop} {b : List Span}
    (h : Adds content m a b) (hm : ∀ d, m' d → m d) : Adds content m' a b :=
  ⟨h.keeps, h.reported, fun d hd => h.finds d (hm d hd)⟩

theorem Adds.none {content : Text}
    (h : ∀ d, m d → ∀ found, d.detect content = .ok found → found = []) :
    Adds content m a a where
  keeps := fun _ hs => hs
  reported := fun _ hs => .inl hs
  finds := by
    intro d hd found hfound s hs
    rw [h d hd found hfound] at hs
    cases hs

theorem runRow_adds {row : Row} {content : Text} {ds : List Detector}
    {spans out : List Span} (h : runRow row content filter ds spans = .ok out)
    : Adds content (fun d => d ∈ ds ∧ filter d ∧ d.action = .mask)
      spans out := by
  induction ds generalizing spans with
  | nil =>
      cases h
      exact .none fun d hd => absurd hd.1 List.not_mem_nil
  | cons d rest ih =>
      -- one detector, then the rest
      suffices hone : ∃ mid, Adds content
          (fun x => x = d ∧ filter x ∧ x.action = .mask) spans mid
          ∧ runRow row content filter rest mid = .ok out by
        obtain ⟨mid, hd, hrest⟩ := hone
        refine (hd.trans (ih hrest)).mono ?_
        rintro x ⟨hx, hf, ha⟩
        rcases List.mem_cons.1 hx with rfl | hx
        · exact .inl ⟨rfl, hf, ha⟩
        · exact .inr ⟨hx, hf, ha⟩
      unfold runRow at h
      split at h
      case isFalse hf =>
        exact ⟨spans, .none fun x hx => absurd (hx.1 ▸ hx.2.1) hf, h⟩
      case isTrue hf =>
        cases hdet : d.detect content with
        | error e =>
            rw [hdet] at h
            simp only at h
            split at h
            · cases h
            · refine ⟨spans, .none ?_, h⟩
              rintro x ⟨rfl, -⟩ found hfound
              rw [hdet] at hfound
              cases hfound
        | ok found =>
            rw [hdet] at h
            simp only at h
            split at h
            case isTrue hnil =>
              refine ⟨spans, .none ?_, h⟩
              rintro x ⟨rfl, -⟩ found' hfound
              rw [hdet] at hfound
              cases hfound
              exact hnil
            case isFalse =>
              cases hact : d.action with
              | block =>
                  rw [hact] at h
                  cases h
              | flag =>
                  rw [hact] at h
                  refine ⟨spans, .none ?_, h⟩
                  rintro x ⟨rfl, -, hmask⟩
                  rw [hact] at hmask
                  cases hmask
              | mask =>
                  rw [hact] at h
                  refine ⟨_, ⟨?_, ?_, ?_⟩, h⟩
                  · intro s hs
                    exact List.mem_append_left _ hs
                  · intro s hs
                    exact (List.mem_append.1 hs).imp_right
                      (reported_of_detect hdet s)
                  · rintro x ⟨rfl, -⟩ found' hfound s hs
                    rw [hdet] at hfound
                    cases hfound
                    exact List.mem_append_right _ hs

theorem runRows_adds {content : Text} {rows : List Row} {spans out : List Span}
    (h : runRows content filter rows spans = .ok out) :
    Adds content (fun d => ∃ row ∈ rows, d ∈ row.detectors
      ∧ filter d ∧ d.action = .mask) spans out := by
  induction rows generalizing spans with
  | nil =>
      cases h
      refine .none ?_
      rintro d ⟨row, hrow, -⟩
      cases hrow
  | cons row rest ih =>
      unfold runRows at h
      cases hrow : runRow row content filter row.detectors spans with
      | error v =>
          rw [hrow] at h
          cases h
      | ok mid =>
          rw [hrow] at h
          refine ((runRow_adds hrow).trans (ih h)).mono ?_
          rintro d ⟨r, hr, hd⟩
          rcases List.mem_cons.1 hr with rfl | hr
          · exact .inl hd
          · exact .inr ⟨r, hr, hd⟩

theorem run_reported {p : Pipeline} {content : Text} {spans : List Span}
    (h : p.run content filter = .ok spans) :
    ∀ s ∈ spans, Reported content s := by
  intro s hs
  rcases (runRows_adds h).reported s hs with hnil | hs
  · cases hnil
  · exact hs

/-- A run that does not refuse has every finding of a mask detector. -/
theorem run_finds {p : Pipeline} {content : Text} {spans : List Span}
    (h : p.run content Detector.live = .ok spans) {row : Row}
    (hrow : row ∈ p.rows) {d : Detector} (hd : d ∈ row.detectors)
    (hmask : d.action = .mask) {found : List Finding}
    (hfound : d.detect content = .ok found) {f : Finding} (hf : f ∈ found)
    (hs : s ∈ f.spans content) : s ∈ spans := by
  refine (runRows_adds h).finds d ⟨row, hrow, hd, ?_, hmask⟩ found hfound s
    (List.mem_flatMap.2 ⟨f, hf, hs⟩)
  simp [Detector.live, hmask]

end Elitea.Guardrail
