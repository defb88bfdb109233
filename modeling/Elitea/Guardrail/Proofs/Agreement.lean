/-
Streamed masking against masking the whole answer.

# The argument

Between two cuts of the answer that are clear, no match of the whole
answer crosses a cut. Then the matches an evaluation sees in the text it
releases are exactly the matches of the answer that lie there
(`partOf_release`). So the released text has the cells that masking the
whole answer gives (`PartOf.cells_eq`), and the cells of all releases
together are those of `Pipeline.check`.

# Clear cuts

No match that an evaluation sees crosses the cut where its loop settles,
and it sees every match that could: one ends within a window behind the
cut, and begins behind the cut before (`clear_holdCut`).

# Where it fails

`check` joins matches that touch. A stream may cut the answer where one
match ends and the next one starts; the second release then opens with a
marker of its own (`touching_matches_marked_twice`). And a release is
forced once a hold is full, wherever a match ends. `Loose` are the answers
in which neither can be: each touch is inside a third match, and no hold
is covered throughout. For these the two agree
(`stream_agrees_with_check`).
-/
import Elitea.Guardrail.Proofs.Release
import Elitea.Guardrail.Proofs.Words

namespace Elitea.Guardrail

open Lib

variable {s : Span} {q : Nat} {sent : List Piece} {f g : StreamFilter}
  {c : Channel}

-- ===================================================== an exact detector

/-- The pipeline is one mask detector whose findings are all occurrences
of the words, each with its word's label. -/
structure Exact (p : Pipeline) (words : Set Text) (label : Text → Text) :
    Prop where
  fits : ∀ v ∈ words, v.length ≤ p.streamWindow
  alone : ∃ row d, p.rows = [row] ∧ row.detectors = [d] ∧ d.action = .mask
    ∧ ∀ text, ∃ found, d.detect text = .ok found
      ∧ ∀ f, f ∈ found ↔ ∃ v ∈ words, ∃ i, Occurs v text i
        ∧ i + v.length ≤ text.length
        ∧ f = ⟨(i : Nat), (i + v.length : Nat), false, label v⟩

/-- The span is an occurrence of a word in the text. -/
def IsMatch (words : Set Text) (label : Text → Text) (text : Text)
    (s : Span) : Prop :=
  ∃ v ∈ words, v ≠ [] ∧ Occurs v text s.start
    ∧ s.stop = s.start + v.length ∧ s.label = label v

section Exact

variable {p : Pipeline} {words : Set Text} {label : Text → Text}

theorem Exact.live (h : Exact p words label) : p.live = true := by
  obtain ⟨row, d, hrows, hds, hmask, -⟩ := h.alone
  simp [Pipeline.live, hrows, hds, Detector.live, hmask]

theorem Exact.window_pos (h : Exact p words label) :
    0 < p.streamWindow := by
  obtain ⟨row, d, hrows, -⟩ := h.alone
  have hge : 64 ≤ row.streamWindow := row.window_ge
  simp only [Pipeline.streamWindow, Pipeline.active, hrows]
  simp
  omega

/-- The spans of the one finding of an occurrence. -/
theorem spans_occurrence {text v : Text} {i : Nat} {l : Text}
    (hend : i + v.length ≤ text.length) :
    s ∈ Finding.spans text ⟨(i : Nat), (i + v.length : Nat), false, l⟩
      ↔ v ≠ [] ∧ s = ⟨i, i + v.length, l⟩ := by
  by_cases hv : v = []
  · subst hv
    simp [Finding.spans, Finding.bounds]
  · have hpos := List.length_pos_iff.2 hv
    have hstart : clamp (i : Nat) text.length = i := by
      unfold clamp
      omega
    have hstop : clamp (i + v.length : Nat) text.length = i + v.length := by
      unfold clamp
      omega
    simp only [Finding.spans, Finding.bounds, Bool.false_eq_true, if_false]
    rw [if_neg (by omega), hstart, hstop, if_pos (by omega),
      List.mem_singleton]
    exact ⟨fun heq => ⟨hv, heq⟩, fun heq => heq.2⟩

/-- A run finds exactly the matches. -/
theorem Exact.run (h : Exact p words label) (text : Text)
    {filter : Detector → Bool} (hfilter : ∀ d, d.action = .mask → filter d) :
    ∃ spans, p.run text filter = .ok spans
      ∧ ∀ s, s ∈ spans ↔ IsMatch words label text s := by
  obtain ⟨row, d, hrows, hds, hmask, hdetect⟩ := h.alone
  obtain ⟨found, hfound, hiff⟩ := hdetect text
  refine ⟨found.flatMap (Finding.spans text), ?_, fun s => ?_⟩
  · by_cases hnil : found = []
    · simp [Pipeline.run, hrows, runRows, hds, runRow, hfilter d hmask,
        hfound, hnil]
    · simp [Pipeline.run, hrows, runRows, hds, runRow, hfilter d hmask,
        hfound, hnil, hmask]
  · rw [List.mem_flatMap]
    constructor
    · rintro ⟨f, hf, hs⟩
      obtain ⟨v, hv, i, hocc, hend, rfl⟩ := (hiff f).1 hf
      obtain ⟨hne, rfl⟩ := (spans_occurrence hend).1 hs
      exact ⟨v, hv, hne, hocc, rfl, rfl⟩
    · rintro ⟨v, hv, hne, hocc, hstop, hlabel⟩
      have hend := hocc.end_le hne
      refine ⟨_, (hiff _).2 ⟨v, hv, s.start, hocc, hend, rfl⟩, ?_⟩
      refine (spans_occurrence hend).2 ⟨hne, ?_⟩
      rw [← hstop, ← hlabel]

end Exact

-- ================================================================ matches

section Matches

variable {words : Set Text} {label : Text → Text} {text : Text}

theorem IsMatch.lt (h : IsMatch words label text s) :
    s.start < s.stop ∧ s.stop ≤ text.length := by
  obtain ⟨v, -, hne, hocc, hstop, -⟩ := h
  have := hocc.end_le hne
  have := List.length_pos_iff.2 hne
  omega

/-- Two matches over the same bytes are of one word. -/
theorem IsMatch.label_eq {s' : Span} (h : IsMatch words label text s)
    (h' : IsMatch words label text s') (hstart : s.start = s'.start)
    (hstop : s.stop = s'.stop) : s.label = s'.label := by
  obtain ⟨v, -, -, hocc, hv, hl⟩ := h
  obtain ⟨v', -, -, hocc', hv', hl'⟩ := h'
  have heq : v = v' := by
    rw [hstart] at hocc
    refine (List.prefix_of_prefix_length_le hocc hocc' ?_).eq_of_length ?_
    · omega
    · omega
  rw [hl, hl', heq]

/-- A match of a part of the answer is one of the answer. -/
theorem isMatch_window {pre post : Text} (hend : s.stop ≤ text.length) :
    IsMatch words label text s
      ↔ IsMatch words label (pre ++ text ++ post)
        { s with start := pre.length + s.start
                 stop := pre.length + s.stop } := by
  unfold IsMatch
  refine exists_congr fun v => and_congr_right fun _ =>
    and_congr_right fun hne => ?_
  simp only
  constructor
  · rintro ⟨hocc, hstop, hlabel⟩
    refine ⟨?_, by omega, hlabel⟩
    rw [occurs_append_right (by rw [List.length_append]; omega)]
    exact occurs_append_left.2 hocc
  · rintro ⟨hocc, hstop, hlabel⟩
    refine ⟨?_, by omega, hlabel⟩
    rw [occurs_append_right (by rw [List.length_append]; omega)] at hocc
    exact occurs_append_left.1 hocc

end Matches

-- ============================================================== clear cuts

/-- The cut at `b` is not inside a run of covered bytes. -/
def ClearAt (spans : List Span) (b : Nat) : Prop :=
  ¬ (0 < b ∧ Covered spans (b - 1) ∧ Covered spans b)

instance (spans : List Span) (b : Nat) : Decidable (ClearAt spans b) :=
  inferInstanceAs (Decidable (¬ _))

theorem ClearAt.not_crossed {spans : List Span} {b : Nat} (h : ClearAt spans b)
    (hs : s ∈ spans) (hlt : s.start < b) : s.stop ≤ b := by
  refine Nat.le_of_not_lt fun hstop => h ⟨by omega, ⟨s, hs, ?_⟩, ⟨s, hs, ?_⟩⟩
  · unfold Span.Covers
    omega
  · unfold Span.Covers
    omega

section Window

-- `all` covers the answer; `part` covers its bytes from `b` to `b + cut`
variable {answer released : Text} {all part : List Span} {b cut : Nat}

/-- `part` is what `all` has between two clear cuts. -/
structure PartOf (answer released : Text) (all part : List Span)
    (b cut : Nat) : Prop where
  ranges : Ranges answer all
  labels : ∀ s ∈ all, ∀ s' ∈ all, s.start = s'.start → s.stop = s'.stop →
    s.label = s'.label
  clear : ClearAt all b
  clear_cut : ClearAt all (b + cut)
  mem_part : ∀ x, x ∈ part ↔ ∃ s ∈ all, b ≤ s.start ∧ s.stop ≤ b + cut
    ∧ x = { s with start := s.start - b, stop := s.stop - b }
  length : released.length = cut
  bytes : ∀ q < cut, released.getD q 0 = answer.getD (b + q) 0

theorem PartOf.ranges_part (h : PartOf answer released all part b cut) :
    Ranges released part := by
  intro x hx
  obtain ⟨s, hs, hb, hcut, rfl⟩ := (h.mem_part x).1 hx
  have := (h.ranges s hs).1
  have := h.length
  simp only
  omega

/-- A span that meets the window lies in it. -/
theorem PartOf.inside (h : PartOf answer released all part b cut)
    (hs : s ∈ all) (hq : q < cut) (hcov : s.Covers (b + q)) :
    b ≤ s.start ∧ s.stop ≤ b + cut := by
  unfold Span.Covers at hcov
  constructor
  · refine Nat.le_of_not_lt fun hlt => ?_
    have := h.clear.not_crossed hs hlt
    omega
  · exact h.clear_cut.not_crossed hs (by omega)

theorem PartOf.covered_iff (h : PartOf answer released all part b cut)
    (hq : q < cut) : Covered part q ↔ Covered all (b + q) := by
  constructor
  · rintro ⟨x, hx, hcov⟩
    obtain ⟨s, hs, hb, -, rfl⟩ := (h.mem_part x).1 hx
    refine ⟨s, hs, ?_⟩
    simp only [Span.Covers] at hcov ⊢
    omega
  · rintro ⟨s, hs, hcov⟩
    obtain ⟨hb, hcut⟩ := h.inside hs hq hcov
    refine ⟨_, (h.mem_part _).2 ⟨s, hs, hb, hcut, rfl⟩, ?_⟩
    simp only [Span.Covers] at hcov ⊢
    omega

/-- A covered run opens in the part where it opens in the answer. -/
theorem PartOf.opens_iff (h : PartOf answer released all part b cut)
    (hq : q < cut) (hcov : Covered all (b + q)) :
    (q = 0 ∨ ¬ Covered part (q - 1))
      ↔ (b + q = 0 ∨ ¬ Covered all (b + q - 1)) := by
  by_cases h0 : q = 0
  · subst h0
    refine ⟨fun _ => ?_, fun _ => .inl rfl⟩
    by_cases hb : b = 0
    · exact .inl (by omega)
    · exact .inr fun hprev => h.clear ⟨by omega, hprev, hcov⟩
  · rw [h.covered_iff (by omega), show b + (q - 1) = b + q - 1 by omega]
    simp only [h0, false_or, show ¬ b + q = 0 by omega]

/-- The part's cells are the answer's. -/
theorem PartOf.cellAt_eq (h : PartOf answer released all part b cut)
    (hq : q < cut) :
    cellAt released false (mergeSpans part) q
      = cellAt answer false (mergeSpans all) (b + q) := by
  by_cases hcov : Covered all (b + q)
  · have hpart := (h.covered_iff hq).2 hcov
    by_cases hopens : q = 0 ∨ ¬ Covered part (q - 1)
    · -- both write the marker of the longest span that starts here
      obtain ⟨x, hx, hxq, hxlong, hxcell⟩ :=
        cellAt_opens h.ranges_part hpart hopens (.inl rfl)
      obtain ⟨s, hs, hsq, hslong, hscell⟩ :=
        cellAt_opens h.ranges hcov ((h.opens_iff hq hcov).1 hopens) (.inl rfl)
      obtain ⟨s', hs', hb', hcut', rfl⟩ := (h.mem_part x).1 hx
      have hlt := (h.ranges s hs).1
      obtain ⟨hb, hcut⟩ := h.inside hs hq
        (by unfold Span.Covers; omega)
      have hlong := hxlong _ ((h.mem_part _).2 ⟨s, hs, hb, hcut, rfl⟩)
        (by simp only; omega)
      have hlong' := hslong s' hs' (by simp only at hxq; omega)
      simp only at hxq hlong
      rw [hxcell, hscell, h.labels s' hs' s hs (by omega) (by omega)]
    · have hglobal := mt (h.opens_iff hq hcov).2 hopens
      simp only [not_or, not_not] at hopens hglobal
      rw [cellAt_inside h.ranges_part hpart hopens.1 hopens.2,
        cellAt_inside h.ranges hcov hglobal.1 hglobal.2]
  · rw [cellAt_shown hcov, cellAt_shown (mt (h.covered_iff hq).1 hcov),
      h.bytes q hq]

/-- The released text has the cells of its part of the answer. -/
theorem PartOf.cells_eq (h : PartOf answer released all part b cut) :
    cells (applyMasksFrom released part false)
      = (List.range' b cut).map (cellAt answer false (mergeSpans all)) := by
  rw [cells_applyMasksFrom h.ranges_part, h.length, List.range'_eq_map_range,
    List.map_map]
  refine List.map_congr_left fun q hq => ?_
  exact h.cellAt_eq (List.mem_range.1 hq)

end Window

-- ========================================================== the invariant

/-- The spans that `check` masks in the answer. -/
def Pipeline.answerSpans (p : Pipeline) (answer : Text) : List Span :=
  match p.run answer fun _ => true with
  | .ok spans => spans
  | .error _ => []

/-- The answer's matches leave room for the cuts: where one ends and
another starts, a third one crosses; and among as many bytes as a forced
release could give out, one starts a rune and is in no match. -/
structure Loose (p : Pipeline) (answer : Text) : Prop where
  bridged : ∀ s ∈ p.answerSpans answer, ∀ s' ∈ p.answerSpans answer,
    s.stop = s'.start →
      ∃ x ∈ p.answerSpans answer, x.start < s.stop ∧ s.stop < x.stop
  short : ∀ a, a + (forceReleaseFactor - 1) * p.streamWindow
      ≤ answer.length →
    ∃ q, a ≤ q ∧ q < a + (forceReleaseFactor - 1) * p.streamWindow
      ∧ runeStart (answer.getD q 0) = true
      ∧ ¬ Covered (p.answerSpans answer) q

theorem Loose.clear {p : Pipeline} {answer : Text} (h : Loose p answer)
    {b : Nat} (hnot : ¬ Crossed (p.answerSpans answer) b) :
    ClearAt (p.answerSpans answer) b := by
  rintro ⟨hpos, ⟨s, hs, hcov⟩, s', hs', hcov'⟩
  unfold Span.Covers at hcov hcov'
  have hstop : s.stop = b := by
    refine Nat.le_antisymm (Nat.le_of_not_lt fun hlt => ?_) (by omega)
    exact hnot ⟨s, hs, by omega, hlt⟩
  have hstart : s'.start = b := by
    refine Nat.le_antisymm hcov'.1 (Nat.le_of_not_lt fun hlt => ?_)
    exact hnot ⟨s', hs', hlt, hcov'.2⟩
  obtain ⟨x, hx, hlt, hgt⟩ :=
    h.bridged s hs s' hs' (hstop.trans hstart.symm)
  rw [hstop] at hlt hgt
  exact hnot ⟨x, hx, hlt, hgt⟩

section Stream

variable {p : Pipeline} {words : Set Text} {label : Text → Text}
  {answer : Text}

theorem Exact.answerSpans (h : Exact p words label) (s : Span) :
    s ∈ p.answerSpans answer ↔ IsMatch words label answer s := by
  obtain ⟨spans, hrun, hiff⟩ :=
    @Exact.run p words label h answer (fun _ => true) fun _ _ => rfl
  rw [Pipeline.answerSpans, hrun]
  exact hiff s

theorem Exact.run_live (h : Exact p words label) (text : Text) :
    ∃ spans, p.run text Detector.live = .ok spans
      ∧ ∀ s, s ∈ spans ↔ IsMatch words label text s :=
  h.run text fun d hd => by simp [Detector.live, hd]

theorem IsMatch.stop_le (h : Exact p words label) {text : Text}
    (hs : IsMatch words label text s) : s.stop ≤ s.start + p.streamWindow := by
  obtain ⟨v, hv, -, -, hstop, -⟩ := hs
  have := h.fits v hv
  omega

section Evaluated

-- the answer is `pre ++ tail ++ pending ++ post`, and `pre ++ tail` is out
variable (pre post : Text) {tail pending : Text} {spans : List Span}

/-- A span of the evaluated text is one of the answer, moved by `pre`. -/
theorem mem_spans_iff (h : Exact p words label)
    (hspans : ∀ s, s ∈ spans ↔ IsMatch words label (tail ++ pending) s)
    (hs : s.stop ≤ (tail ++ pending).length) :
    s ∈ spans ↔ { s with start := pre.length + s.start
                         stop := pre.length + s.stop }
      ∈ p.answerSpans (pre ++ tail ++ pending ++ post) := by
  rw [hspans, h.answerSpans, List.append_assoc pre tail pending]
  exact isMatch_window hs

/-- What is closed in the held text is closed in the answer. -/
theorem closed_answer (h : Exact p words label)
    (hspans : ∀ s, s ∈ spans ↔ IsMatch words label (tail ++ pending) s)
    (hq : q < pending.length)
    (hclosed : Closed pending (shiftSpans tail.length spans) q)
    (hstart : runeStart ((pre ++ tail ++ pending ++ post).getD
      ((pre ++ tail).length + q) 0) = true) :
    Covered (p.answerSpans (pre ++ tail ++ pending ++ post))
      ((pre ++ tail).length + q) := by
  rcases hclosed with ⟨x, hx, hcov⟩ | hinside
  · obtain ⟨s, hs, -, rfl⟩ := mem_shiftSpans.1 hx
    have hall :=
      (mem_spans_iff pre post h hspans ((hspans s).1 hs).lt.2).1 hs
    refine ⟨_, hall, ?_⟩
    simp only [Span.Covers] at hcov ⊢
    rw [List.length_append]
    omega
  · rw [List.getD_eq_getElem?_getD, List.append_assoc (pre ++ tail),
      List.getElem?_append_right (by omega), Nat.add_sub_cancel_left,
      List.getElem?_append_left hq, List.getElem?_eq_getElem hq,
      Option.getD_some] at hstart
    rw [hinside _ (List.getElem?_eq_getElem hq)] at hstart
    cases hstart

/-- From a clear cut the loop settles at a clear cut. -/
theorem clear_holdCut (h : Exact p words label)
    (hloose : Loose p (pre ++ tail ++ pending ++ post))
    (hspans : ∀ s, s ∈ spans ↔ IsMatch words label (tail ++ pending) s)
    (hclear : ClearAt (p.answerSpans (pre ++ tail ++ pending ++ post))
      (pre ++ tail).length) :
    holdCut p.streamWindow pending (shiftSpans tail.length spans)
        ≤ pending.length - p.streamWindow
      ∧ ClearAt (p.answerSpans (pre ++ tail ++ pending ++ post))
        ((pre ++ tail).length
          + holdCut p.streamWindow pending (shiftSpans tail.length spans)) := by
  have hpos := h.window_pos
  obtain ⟨hle, hnot⟩ := @holdCut_settled p.streamWindow pending
    (shiftSpans tail.length spans) (by
      intro hfull
      unfold forceReleaseFactor at hfull
      obtain ⟨q, hq, hq', hstart, hfree⟩ := hloose.short
        ((pre ++ tail).length + 1) (by
          simp only [List.length_append, forceReleaseFactor]
          omega)
      unfold forceReleaseFactor at hq'
      refine ⟨q - (pre ++ tail).length, by omega, by omega, fun hc => ?_⟩
      have heq : (pre ++ tail).length + (q - (pre ++ tail).length) = q := by
        omega
      have hcov := closed_answer pre post h hspans (by omega) hc
        (by rw [heq]; exact hstart)
      rw [heq] at hcov
      exact hfree hcov)
  refine ⟨hle, ?_⟩
  revert hle hnot
  generalize holdCut p.streamWindow pending (shiftSpans tail.length spans) = cut
  intro hle hnot
  refine hloose.clear fun ⟨s, hs, hlt, hgt⟩ => ?_
  -- a match across the cut begins behind the last cut and is in the text
  have hstop := ((h.answerSpans s).1 hs).stop_le h
  have hbegin : (pre ++ tail).length ≤ s.start := by
    refine Nat.le_of_not_lt fun hbefore => ?_
    have := hclear.not_crossed hs hbefore
    omega
  rw [List.length_append] at hbegin hlt hgt
  have hlocal : { s with start := s.start - pre.length
                         stop := s.stop - pre.length } ∈ spans := by
    refine (mem_spans_iff pre post h hspans ?_).2 ?_
    · rw [List.length_append]
      simp only
      omega
    · have heq : pre.length + (s.start - pre.length) = s.start := by omega
      have heq' : pre.length + (s.stop - pre.length) = s.stop := by omega
      simp only [heq, heq']
      exact hs
  refine hnot ⟨_, mem_shiftSpans.2 ⟨_, hlocal, by simp only; omega, rfl⟩, ?_⟩
  simp only
  omega

end Evaluated

/-- Between clear cuts, an evaluation releases its part of the answer. -/
theorem partOf_release (h : Exact p words label) {released tail pending : Text}
    {spans : List Span} {cut : Nat}
    (hspans : ∀ s, s ∈ spans ↔ IsMatch words label (tail ++ pending) s)
    (hsuffix : tail <:+ released)
    (hanswer : released ++ pending <+: answer) (hcut : cut ≤ pending.length)
    (hclear : ClearAt (p.answerSpans answer) released.length)
    (hclear' : ClearAt (p.answerSpans answer) (released.length + cut)) :
    PartOf answer (pending.take cut) (p.answerSpans answer)
      (clipSpans cut (shiftSpans tail.length spans)) released.length cut := by
  obtain ⟨pre, rfl⟩ := hsuffix
  obtain ⟨post, rfl⟩ := hanswer
  rw [List.length_append] at hclear hclear' ⊢
  have hmove := fun (s : Span) hs =>
    @mem_spans_iff s p words label pre post tail pending spans h hspans hs
  refine ⟨?_, ?_, hclear, hclear', ?_, ?_, ?_⟩
  · intro s hs
    exact ((h.answerSpans s).1 hs).lt
  · intro s hs s' hs'
    exact ((h.answerSpans s).1 hs).label_eq ((h.answerSpans s').1 hs')
  · intro x
    constructor
    · intro hx
      obtain ⟨y, hy, hlt, rfl⟩ := mem_clipSpans.1 hx
      obtain ⟨s, hs, hbase, rfl⟩ := mem_shiftSpans.1 hy
      have hend := ((hspans s).1 hs).lt
      have hall := (hmove s hend.2).1 hs
      simp only at hlt
      have hb : tail.length ≤ s.start := by
        refine Nat.le_of_not_lt fun hlt' => ?_
        have := hclear.not_crossed hall (by simp only; omega)
        simp only at this
        omega
      have hstop := hclear'.not_crossed hall (by simp only; omega)
      simp only at hstop
      refine ⟨_, hall, by simp only; omega, hstop, ?_⟩
      simp only [Lib.Span.mk.injEq, and_true]
      omega
    · rintro ⟨s, hs, hb, hstop, rfl⟩
      have hlt := ((h.answerSpans s).1 hs).lt
      have hlocal : { s with start := s.start - pre.length
                             stop := s.stop - pre.length } ∈ spans := by
        refine (hmove _ ?_).2 ?_
        · rw [List.length_append]
          simp only
          omega
        · have heq : pre.length + (s.start - pre.length) = s.start := by omega
          have heq' : pre.length + (s.stop - pre.length) = s.stop := by omega
          simp only [heq, heq']
          exact hs
      refine mem_clipSpans.2 ⟨_, mem_shiftSpans.2 ⟨_, hlocal, ?_, rfl⟩, ?_, ?_⟩
      · simp only
        omega
      · simp only
        omega
      · simp only [Lib.Span.mk.injEq, and_true]
        omega
  · rw [List.length_take]
    omega
  · intro q hq
    rw [List.getD_eq_getElem?_getD, List.getD_eq_getElem?_getD,
      List.getElem?_take_of_lt hq, List.append_assoc (pre ++ tail),
      ← List.length_append, List.getElem?_append_right (by omega),
      Nat.add_sub_cancel_left, List.getElem?_append_left (by omega)]

/-- What holds while all cuts are clear: the text sent has the cells of
the masked answer, and no match is open. -/
structure Agrees (p : Pipeline) (answer : Text) (sent : List Piece)
    (f : StreamFilter) : Prop where
  notDone : f.done = false
  clear : ClearAt (p.answerSpans answer) (source sent).length
  maskRest : f.maskRest = []
  suffix : f.tail <:+ source sent
  isOpen : f.isOpen = false
  tiled : Tiled sent
  cells_eq : cells sent = (List.range (source sent).length).map
    (cellAt answer false (mergeSpans (p.answerSpans answer)))

theorem agrees_start (p : Pipeline) (answer : Text) :
    Agrees p answer [] newStream where
  notDone := rfl
  clear := fun h => absurd h.1 (Nat.lt_irrefl 0)
  maskRest := rfl
  suffix := List.suffix_refl _
  isOpen := rfl
  tiled := fun _ h => by cases h
  cells_eq := rfl

theorem Agrees.load {delta : Text} (h : Agrees p answer sent f)
    (hload : Loaded f delta g) :
    Agrees p answer sent g where
  notDone := by rw [hload.done, h.notDone]
  clear := h.clear
  maskRest := by rw [hload.maskRest, h.maskRest]
  suffix := by
    rw [hload.tail]
    exact h.suffix
  isOpen := by rw [hload.isOpen, h.isOpen]
  tiled := h.tiled
  cells_eq := h.cells_eq

/-- The cells of a release between clear cuts follow those sent. -/
theorem Agrees.cells_release (hexact : Exact p words label) {out : List Piece}
    {cut : Nat} {final : Bool} {spans : List Span} (h : Agrees p answer sent f)
    (hspans : ∀ s, s ∈ spans ↔ IsMatch words label (f.tail ++ f.pending) s)
    (hrel : f.release p.streamWindow spans cut final = (g, out))
    (hcut : cut ≤ f.pending.length)
    (hanswer : source sent ++ f.pending <+: answer)
    (hclear : ClearAt (p.answerSpans answer) ((source sent).length + cut)) :
    cells (sent ++ out) = (List.range ((source sent).length + cut)).map
      (cellAt answer false (mergeSpans (p.answerSpans answer))) := by
  obtain ⟨-, -, rfl⟩ := release_text hrel
  have hpart :=
    partOf_release hexact hspans h.suffix hanswer hcut h.clear hclear
  have hsplit := @List.range'_append_1 0 (source sent).length cut
  rw [Nat.zero_add] at hsplit
  rw [cells_append, h.isOpen, hpart.cells_eq, h.cells_eq, ← List.map_append,
    List.range_eq_range', List.range_eq_range', hsplit]

theorem Exact.spans_eq (h : Exact p words label) {text : Text}
    {spans : List Span} (hrun : p.run text Detector.live = .ok spans)
    (s : Span) : s ∈ spans ↔ IsMatch words label text s := by
  obtain ⟨spans', hrun', hspans⟩ := h.run_live text
  rw [hrun] at hrun'
  cases hrun'
  exact hspans s

/-- A release from one clear cut to the next that holds a window. -/
theorem Agrees.release (hexact : Exact p words label) {out : List Piece}
    {cut : Nat} {spans : List Span} (h : Agrees p answer sent f)
    (hrun : p.run (f.tail ++ f.pending) Detector.live = .ok spans)
    (hrel : f.release p.streamWindow (f.withRest spans) cut false = (g, out))
    (hcut : cut ≤ f.pending.length - p.streamWindow)
    (hanswer : source sent ++ f.pending <+: answer)
    (hclear : ClearAt (p.answerSpans answer) ((source sent).length + cut)) :
    Agrees p answer (sent ++ out) g := by
  have hsource : source (sent ++ out) = source sent ++ f.pending.take cut :=
    source_release hrun hrel
  have htiled := tiled_release h.tiled hrun hrel
  have hlen : (source (sent ++ out)).length = (source sent).length + cut := by
    rw [hsource, List.length_append, List.length_take]
    omega
  rw [StreamFilter.withRest, if_pos h.maskRest] at hrel
  have hcells := h.cells_release hexact (hexact.spans_eq hrun) hrel (by omega)
    hanswer hclear
  rw [← hlen] at hcells hclear
  obtain ⟨hpending, hdone, -⟩ := release_text hrel
  rw [h.notDone] at hdone
  rcases release_context hrel with ⟨hclosed, hrest, htail⟩
    | ⟨-, hempty, s, hs, -, hbase, -⟩
  · refine ⟨hdone, hclear, ?_, ?_, hclosed, htiled, hcells⟩
    · rw [hrest, h.maskRest]
    · rw [htail, hsource]
      obtain ⟨pre, hpre⟩ := h.suffix
      refine (lookBehind_suffix _ _).trans ?_
      rw [← hpre, List.append_assoc]
      exact List.suffix_append _ _
  · -- a window is held, so nothing was held at all, and nothing is open
    have hwindow := hexact.window_pos
    have hstop := ((hexact.spans_eq hrun s).1 hs).lt.2
    rw [hpending, List.drop_eq_nil_iff] at hempty
    rw [List.length_append] at hstop
    omega

theorem Exact.clean (h : Exact p words label) (text : Text)
    (filter : Detector → Bool) :
    ∃ spans, p.run text filter = .ok spans := by
  obtain ⟨row, d, hrows, hds, hmask, hdetect⟩ := h.alone
  obtain ⟨found, hfound, -⟩ := hdetect text
  simp only [Pipeline.run, hrows, runRows, hds, runRow, hfound, hmask]
  by_cases hf : filter d = true
  · by_cases hnil : found = []
    · simp [hf, hnil]
    · simp [hf, hnil]
  · simp [hf]

/-- One push. -/
theorem Agrees.push (hexact : Exact p words label) {c' : Channel}
    {delta : Text} (h : Agrees p answer c.sent c.filter)
    (hloose : Loose p answer) (hstep : channelStep p c (.push delta) = some c')
    (hanswer : c'.received <+: answer) :
    Agrees p answer c'.sent c'.filter := by
  rw [received_push hexact.live h.notDone hstep, Channel.received,
    List.append_assoc] at hanswer
  obtain ⟨out, hsent, hcall⟩ := channelStep_eq_some hstep
  rw [hsent]
  rcases push_cases hexact.live h.notDone hcall with ⟨rfl, hload⟩
    | ⟨g, spans, hload, hrun, hrel⟩
  · rw [List.append_nil]
    exact h.load hload
  · have hg := h.load hload
    rw [← hload.pending] at hanswer
    obtain ⟨hcut, hclear⟩ : g.releaseCut p (g.withRest spans) false
          ≤ g.pending.length - p.streamWindow
        ∧ ClearAt (p.answerSpans answer) ((source c.sent).length
          + g.releaseCut p (g.withRest spans) false) := by
      rw [StreamFilter.withRest, if_pos hg.maskRest]
      have hclear := hg.clear
      obtain ⟨pre, hpre⟩ := hg.suffix
      obtain ⟨post, rfl⟩ := hanswer
      rw [← hpre] at hloose hclear ⊢
      exact clear_holdCut pre post hexact hloose (hexact.spans_eq hrun) hclear
    exact hg.release hexact hrun hrel hcut hanswer hclear

/-- The end of the channel: the answer's end is clear. -/
theorem Agrees.finish (hexact : Exact p words label) {c' : Channel}
    (h : Agrees p answer c.sent c.filter) (hanswer : c.received = answer)
    (hstep : channelStep p c .finish = some c') :
    Tiled c'.sent ∧ cells c'.sent = (List.range answer.length).map
      (cellAt answer false (mergeSpans (p.answerSpans answer))) := by
  have hlen : (source c.sent).length + c.filter.pending.length
      = answer.length := by
    rw [← hanswer, Channel.received, List.length_append]
  obtain ⟨out, hsent, hcall⟩ := channelStep_eq_some hstep
  rw [hsent]
  rcases finish_cases hexact.live h.notDone hcall with ⟨hnil, -, rfl⟩
    | ⟨spans, g, hrun, hrel, -⟩
  · rw [hnil, List.length_nil, Nat.add_zero] at hlen
    rw [List.append_nil, ← hlen]
    exact ⟨h.tiled, h.cells_eq⟩
  · refine ⟨tiled_release h.tiled hrun hrel, ?_⟩
    rw [StreamFilter.withRest, if_pos h.maskRest] at hrel
    rw [← hlen]
    refine h.cells_release hexact (hexact.spans_eq hrun) hrel (Nat.le_refl _)
      (by rewrite [← hanswer, Channel.received]; exact List.prefix_refl _) ?_
    rintro ⟨-, -, s, hs, -, hlt⟩
    have := ((hexact.answerSpans s).1 hs).lt
    omega

/-- All the deltas, then the end. -/
theorem Agrees.stream (hexact : Exact p words label) (deltas : List Text)
    (h : Agrees p answer c.sent c.filter)
    (hanswer : c.received ++ deltas.flatten = answer) (hloose : Loose p answer)
    : ∃ c', run (channelStep p) c (answerOps deltas) = some c'
      ∧ Tiled c'.sent ∧ cells c'.sent = (List.range answer.length).map
        (cellAt answer false (mergeSpans (p.answerSpans answer))) := by
  induction deltas generalizing c with
  | nil =>
      obtain ⟨c', hstep⟩ := channelStep_isSome hexact.clean c .finish
      rw [List.flatten_nil, List.append_nil] at hanswer
      exact ⟨c', run_cons_eq_some.2 ⟨c', hstep, rfl⟩,
        h.finish hexact hanswer hstep⟩
  | cons delta rest ih =>
      obtain ⟨c₁, hstep⟩ := channelStep_isSome hexact.clean c (.push delta)
      have hrec := received_push hexact.live h.notDone hstep
      have hanswer' : c₁.received ++ rest.flatten = answer := by
        rw [hrec, List.append_assoc, ← List.flatten_cons, hanswer]
      have h₁ := h.push hexact hloose hstep ⟨_, hanswer'⟩
      obtain ⟨c', hrun, hagrees⟩ := ih h₁ hanswer'
      exact ⟨c', run_cons_eq_some.2 ⟨c₁, hstep, hrun⟩, hagrees⟩

/-- `check`, by its cells. -/
theorem Exact.check (h : Exact p words label) :
    ∃ pieces, p.check answer = .ok pieces ∧ Tiled pieces
      ∧ cells pieces = (List.range answer.length).map
        (cellAt answer false (mergeSpans (p.answerSpans answer))) := by
  have hranges : Ranges answer (p.answerSpans answer) :=
    fun s hs => ((h.answerSpans s).1 hs).lt
  refine ⟨applyMasks answer (p.answerSpans answer), ?_,
    tiled_applyMasksFrom hranges, cells_applyMasksFrom hranges⟩
  obtain ⟨row, d, hrows, -⟩ := h.alone
  obtain ⟨spans, hrun⟩ := h.clean answer fun _ => true
  have hactive : p.active = true := by simp [Pipeline.active, hrows]
  rw [Pipeline.check, if_pos hactive, Pipeline.answerSpans, hrun]
  rfl

end Stream

/-- Whatever the deltas of an answer whose matches leave room for the cuts,
the stream is the masked answer: the same bytes are shown, and the same
markers stand in the same places. -/
theorem stream_agrees_with_check (p : Pipeline) (words : Set Text)
    (label : Text → Text) (hexact : Exact p words label)
    (deltas : List Text) (hloose : Loose p deltas.flatten) :
    ∃ c pieces, run (channelStep p) .start (answerOps deltas) = some c
      ∧ p.check deltas.flatten = .ok pieces
      ∧ cells c.sent = cells pieces ∧ render c.sent = render pieces := by
  have hstart : Agrees p deltas.flatten Channel.start.sent
      Channel.start.filter := agrees_start p deltas.flatten
  obtain ⟨c, hrun, htiled, hcells⟩ := hstart.stream hexact deltas rfl hloose
  obtain ⟨pieces, hcheck, htiled', hcells'⟩ := hexact.check
  refine ⟨c, pieces, hrun, hcheck, by rw [hcells, hcells'], ?_⟩
  rw [render_eq_cells htiled, render_eq_cells htiled', hcells, hcells']

-- ============================================================== witnesses

/-- The detector of one word is exact. -/
theorem word_exact {v : Text} (hne : v ≠ [])
    (hfits : v.length ≤ (wordPipeline [v]).streamWindow) :
    Exact (wordPipeline [v]) {v} (fun _ => [119]) where
  fits := by
    rintro _ rfl
    exact hfits
  alone := by
    refine ⟨_, wordDetector [v], rfl, rfl, rfl, fun text => ⟨_, rfl, ?_⟩⟩
    intro f
    rw [mem_wordFindings]
    constructor
    · rintro ⟨_, hv, i, -, hocc, rfl⟩
      obtain rfl := List.mem_singleton.1 hv
      refine ⟨_, rfl, i, hocc, hocc.end_le hne, ?_⟩
      rw [Nat.zero_add]
    · rintro ⟨_, rfl, i, hocc, hend, rfl⟩
      refine ⟨_, List.mem_singleton_self _, i, ?_, hocc, ?_⟩
      · have := List.length_pos_iff.2 hne
        omega
      · rw [Nat.zero_add]

/-- Matches of `aba` that overlap across the first cut, and one more. -/
def overlappingAba : List Text :=
  [spaces 62 ++ ab ++ ab ++ ab ++ [97] ++ spaces 60, ab, [97]]

theorem overlappingAba_loose :
    Loose (wordPipeline [ab ++ [97]]) overlappingAba.flatten where
  bridged := by decide +kernel
  short := by
    intro a ha
    have hlen : overlappingAba.flatten.length = 132 := by decide +kernel
    have hwindow : (wordPipeline [ab ++ [97]]).streamWindow = 64 := by decide
    rw [hlen, hwindow] at ha
    unfold forceReleaseFactor at ha
    omega

theorem stream_agrees_with_check_overlappingAba :
    Loose (wordPipeline [ab ++ [97]]) overlappingAba.flatten
      ∧ ∃ c pieces,
        run (channelStep (wordPipeline [ab ++ [97]])) .start
            (answerOps overlappingAba) = some c
        ∧ (wordPipeline [ab ++ [97]]).check overlappingAba.flatten
          = .ok pieces
        ∧ cells c.sent = cells pieces ∧ render c.sent = render pieces :=
  ⟨overlappingAba_loose,
    stream_agrees_with_check _ _ _ (word_exact (by decide) (by decide)) _
      overlappingAba_loose⟩

/-- The first evaluation cuts between the two matches of `abab`. -/
def touchingAb : List Text := [spaces 62 ++ ab ++ ab ++ spaces 62]

/-- The markers of a list of cells. -/
def countMarked (l : List Cell) : Nat :=
  l.countP fun x => match x with
    | .marked _ => true
    | _ => false

/-- `check` writes one marker for the touching matches, the stream
two. -/
theorem touching_matches_marked_twice :
    Exact (wordPipeline [ab]) {ab} (fun _ => [119])
      ∧ ∃ c pieces,
        run (channelStep (wordPipeline [ab])) .start (answerOps touchingAb)
          = some c
        ∧ (wordPipeline [ab]).check touchingAb.flatten = .ok pieces
        ∧ countMarked (cells c.sent) = 2 ∧ countMarked (cells pieces) = 1
        ∧ render c.sent ≠ render pieces := by
  have hstream : (run (channelStep (wordPipeline [ab])) .start
      (answerOps touchingAb)).map
        (fun c => (countMarked (cells c.sent), (render c.sent).length))
      = some (2, 148) := by
    decide +kernel
  obtain ⟨c, hc, hsent⟩ := Option.map_eq_some_iff.1 hstream
  obtain ⟨pieces, hcheck⟩ : ∃ pieces,
      (wordPipeline [ab]).check touchingAb.flatten = .ok pieces :=
    ⟨_, rfl⟩
  have hpieces : ((wordPipeline [ab]).check touchingAb.flatten).map
      (fun x => (countMarked (cells x), (render x).length)) = .ok (1, 136) := by
    decide +kernel
  rw [hcheck] at hpieces
  simp only [Except.map, Except.ok.injEq, Prod.mk.injEq] at hpieces hsent
  refine ⟨word_exact (by decide) (by decide), c, pieces, hc, hcheck,
    hsent.1, hpieces.1, fun heq => ?_⟩
  have := congrArg List.length heq
  omega

end Elitea.Guardrail
