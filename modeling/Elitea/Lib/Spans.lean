/-
Labelled half-open intervals of positions: what a list of them covers,
and their merge into separated blocks.

# Windows

`shiftSpans` and `clipSpans` see a list through a window of the
positions; what they cover is what the list covers inside the window.

# The merge

A list sorted by `Before` (start ascending, then stop descending) is
merged from the left: an interval that overlaps or touches the last
block is absorbed by it, any other opens a block. The blocks cover what
the intervals cover (`covered_mergeFrom`) and leave at least one
uncovered position between them (`separated_mergeFrom`); so, with no
empty interval, the blocks are the maximal covered runs of positions. A
block is labelled by the longest interval that starts where it does
(`mem_mergeFrom`).
-/
import Mathlib.Data.List.Sort

namespace Elitea.Lib

variable {α : Type _}

/-- The positions from `start` up to `stop`, with a label. -/
structure Span (α : Type _) where
  start : Nat
  stop : Nat
  label : α
deriving DecidableEq, Repr

/-- The span contains position `q`. -/
def Span.Covers (s : Span α) (q : Nat) : Prop := s.start ≤ q ∧ q < s.stop

/-- Some span of the list contains position `q`. -/
def Covered (spans : List (Span α)) (q : Nat) : Prop :=
  ∃ s ∈ spans, s.Covers q

instance (s : Span α) (q : Nat) : Decidable (s.Covers q) := by
  unfold Span.Covers
  infer_instance

instance (spans : List (Span α)) (q : Nat) : Decidable (Covered spans q) := by
  unfold Covered
  infer_instance

@[simp] theorem covered_nil (q : Nat) : ¬ Covered ([] : List (Span α)) q := by
  rintro ⟨s, hs, -⟩
  cases hs

theorem covered_cons {s : Span α} {spans : List (Span α)} {q : Nat} :
    Covered (s :: spans) q ↔ s.Covers q ∨ Covered spans q := by
  simp [Covered]

theorem covered_congr {spans spans' : List (Span α)}
    (h : ∀ s, s ∈ spans ↔ s ∈ spans') (q : Nat) :
    Covered spans q ↔ Covered spans' q := by
  simp [Covered, h]

-- ==================================================== moving and cutting

/-- The spans seen from position `base`: what lies before it is cut
off. -/
def shiftSpans (base : Nat) (spans : List (Span α)) : List (Span α) :=
  spans.filterMap fun s =>
    if s.stop - base = 0 then none
    else some { s with start := s.start - base, stop := s.stop - base }

/-- The spans up to position `cut`: what lies past it is cut off. -/
def clipSpans (cut : Nat) (spans : List (Span α)) : List (Span α) :=
  (spans.filter fun s => s.start < cut).map fun s =>
    { s with stop := min s.stop cut }

theorem mem_shiftSpans {base : Nat} {spans : List (Span α)} {x : Span α} :
    x ∈ shiftSpans base spans ↔ ∃ s ∈ spans, base < s.stop
      ∧ x = { s with start := s.start - base, stop := s.stop - base } := by
  simp only [shiftSpans, List.mem_filterMap]
  refine exists_congr fun s => and_congr_right fun _ => ?_
  split
  case isTrue h =>
    constructor
    · intro hnone
      cases hnone
    · rintro ⟨hlt, -⟩
      omega
  case isFalse h =>
    rw [Option.some.injEq]
    exact ⟨fun heq => ⟨by omega, heq.symm⟩, fun heq => heq.2.symm⟩

theorem mem_clipSpans {cut : Nat} {spans : List (Span α)} {x : Span α} :
    x ∈ clipSpans cut spans ↔ ∃ s ∈ spans, s.start < cut
      ∧ x = { s with stop := min s.stop cut } := by
  simp only [clipSpans, List.mem_map, List.mem_filter, decide_eq_true_eq,
    and_assoc]
  exact exists_congr fun s => by rw [eq_comm (a := x)]

@[simp] theorem covered_shiftSpans {base : Nat} {spans : List (Span α)}
    {q : Nat} :
    Covered (shiftSpans base spans) q ↔ Covered spans (base + q) := by
  constructor
  · rintro ⟨x, hx, hq⟩
    obtain ⟨s, hs, hlt, rfl⟩ := mem_shiftSpans.1 hx
    refine ⟨s, hs, ?_⟩
    simp only [Span.Covers] at hq ⊢
    omega
  · rintro ⟨s, hs, hq⟩
    simp only [Span.Covers] at hq
    refine ⟨_, mem_shiftSpans.2 ⟨s, hs, by omega, rfl⟩, ?_⟩
    simp only [Span.Covers]
    omega

@[simp] theorem covered_clipSpans {cut : Nat} {spans : List (Span α)}
    {q : Nat} :
    Covered (clipSpans cut spans) q ↔ Covered spans q ∧ q < cut := by
  constructor
  · rintro ⟨x, hx, hq⟩
    obtain ⟨s, hs, hlt, rfl⟩ := mem_clipSpans.1 hx
    simp only [Span.Covers] at hq
    exact ⟨⟨s, hs, by simp only [Span.Covers]; omega⟩, by omega⟩
  · rintro ⟨⟨s, hs, hq⟩, hcut⟩
    simp only [Span.Covers] at hq
    refine ⟨_, mem_clipSpans.2 ⟨s, hs, by omega, rfl⟩, ?_⟩
    simp only [Span.Covers]
    omega

-- ================================================================= sorting

/-- Start ascending; of one start, the longest first. -/
def Before (a b : Span α) : Prop :=
  a.start < b.start ∨ (a.start = b.start ∧ b.stop ≤ a.stop)

instance : DecidableRel (@Before α) := fun a b => by
  unfold Before
  infer_instance

instance : Std.Total (@Before α) :=
  ⟨fun a b => by unfold Before; omega⟩

instance : IsTrans (Span α) Before :=
  ⟨fun a b c => by unfold Before; omega⟩

theorem Before.start_le {a b : Span α} (h : Before a b) :
    a.start ≤ b.start := by
  unfold Before at h
  omega

-- ================================================================= merging

/-- Merge a sorted list into the block `last`, opening a block for each
span that does not reach it. -/
def mergeFrom (last : Span α) : List (Span α) → List (Span α)
  | [] => [last]
  | s :: rest =>
      if s.start ≤ last.stop then
        mergeFrom { last with stop := max last.stop s.stop } rest
      else last :: mergeFrom s rest

/-- Blocks with an uncovered position between any two. -/
def Separated (spans : List (Span α)) : Prop :=
  spans.Pairwise fun a b => a.stop < b.start

theorem Separated.eq_or {spans : List (Span α)} (h : Separated spans)
    {a b : Span α} (ha : a ∈ spans) (hb : b ∈ spans) :
    a = b ∨ a.stop < b.start ∨ b.stop < a.start := by
  induction spans with
  | nil => cases ha
  | cons s rest ih =>
      obtain ⟨hs, hrest⟩ := List.pairwise_cons.1 h
      rcases List.mem_cons.1 ha with rfl | ha' <;>
        rcases List.mem_cons.1 hb with rfl | hb'
      · exact .inl rfl
      · exact .inr (.inl (hs b hb'))
      · exact .inr (.inr (hs a ha'))
      · exact ih hrest ha' hb'

/-- A block that absorbed the first of the spans starts before the
others still. -/
theorem sorted_absorb {last s : Span α} {rest : List (Span α)}
    (hlast : ∀ b ∈ s :: rest, last.start ≤ b.start)
    (hrest : (s :: rest).Pairwise fun a b => a.start ≤ b.start)
    {stop : Nat} :
    ({ last with stop } :: rest).Pairwise fun a b => a.start ≤ b.start := by
  rw [List.pairwise_cons] at hrest ⊢
  exact ⟨fun b hb => hlast b (List.mem_cons_of_mem s hb), hrest.2⟩

/-- Merging changes nothing that is covered. -/
theorem covered_mergeFrom {last : Span α} {spans : List (Span α)}
    (hsorted : (last :: spans).Pairwise fun a b => a.start ≤ b.start)
    (q : Nat) :
    Covered (mergeFrom last spans) q ↔ Covered (last :: spans) q := by
  induction spans generalizing last with
  | nil => rfl
  | cons s rest ih =>
      rw [List.pairwise_cons] at hsorted
      obtain ⟨hlast, hrest⟩ := hsorted
      have hs := hlast s List.mem_cons_self
      unfold mergeFrom
      split
      case isTrue htouch =>
        rw [ih (sorted_absorb hlast hrest), covered_cons, covered_cons,
          covered_cons, ← or_assoc]
        refine or_congr_left ?_
        simp only [Span.Covers]
        omega
      case isFalse => rw [covered_cons, covered_cons, ih hrest]

/-- The first block of a merge starts where the first span does. -/
theorem mergeFrom_start_le {last : Span α} {spans : List (Span α)}
    (hsorted : (last :: spans).Pairwise fun a b => a.start ≤ b.start) :
    ∀ m ∈ mergeFrom last spans, last.start ≤ m.start := by
  induction spans generalizing last with
  | nil =>
      intro m hm
      rw [List.mem_singleton.1 hm]
  | cons s rest ih =>
      rw [List.pairwise_cons] at hsorted
      obtain ⟨hlast, hrest⟩ := hsorted
      intro m hm
      unfold mergeFrom at hm
      split at hm
      case isTrue =>
        have hle := ih (sorted_absorb hlast hrest) m hm
        exact hle
      case isFalse =>
        rcases List.mem_cons.1 hm with rfl | hm
        · exact Nat.le_refl _
        · exact Nat.le_trans (hlast s List.mem_cons_self) (ih hrest m hm)

/-- Merged blocks are separated. -/
theorem separated_mergeFrom {last : Span α} {spans : List (Span α)}
    (hsorted : (last :: spans).Pairwise fun a b => a.start ≤ b.start) :
    Separated (mergeFrom last spans) := by
  induction spans generalizing last with
  | nil => exact List.pairwise_singleton _ _
  | cons s rest ih =>
      rw [List.pairwise_cons] at hsorted
      obtain ⟨hlast, hrest⟩ := hsorted
      unfold mergeFrom
      split
      case isTrue =>
        exact ih (sorted_absorb hlast hrest)
      case isFalse hgap =>
        refine List.pairwise_cons.2 ⟨fun m hm => ?_, ih hrest⟩
        have := mergeFrom_start_le hrest m hm
        omega

/-- No block is empty when no span is. -/
theorem mergeFrom_lt {last : Span α} {spans : List (Span α)}
    (hne : ∀ s ∈ last :: spans, s.start < s.stop) :
    ∀ m ∈ mergeFrom last spans, m.start < m.stop := by
  induction spans generalizing last with
  | nil => exact hne
  | cons s rest ih =>
      intro m hm
      have hlast := hne last List.mem_cons_self
      unfold mergeFrom at hm
      split at hm
      case isTrue =>
        refine ih (fun x hx => ?_) m hm
        rcases List.mem_cons.1 hx with rfl | hx
        · simp only
          omega
        · exact hne x (List.mem_cons_of_mem _ (List.mem_cons_of_mem _ hx))
      case isFalse =>
        rcases List.mem_cons.1 hm with rfl | hm
        · exact hlast
        · exact ih (fun x hx => hne x (List.mem_cons_of_mem _ hx)) m hm

/-- A block is the first one, or it is opened by the longest of the
spans that start where it does. -/
theorem mem_mergeFrom {last : Span α} {spans : List (Span α)}
    (hsorted : spans.Pairwise Before)
    (hne : ∀ s ∈ spans, s.start < s.stop) {m : Span α}
    (hm : m ∈ mergeFrom last spans) :
    (m.start = last.start ∧ m.label = last.label)
      ∨ ∃ s ∈ spans, m.start = s.start ∧ m.label = s.label
        ∧ last.stop < s.start
        ∧ ∀ s' ∈ spans, s'.start = s.start → s'.stop ≤ s.stop := by
  induction spans generalizing last with
  | nil =>
      rw [List.mem_singleton.1 hm]
      exact .inl ⟨rfl, rfl⟩
  | cons s rest ih =>
      rw [List.pairwise_cons] at hsorted
      obtain ⟨hfirst, hrest⟩ := hsorted
      have hne' : ∀ x ∈ rest, x.start < x.stop :=
        fun x hx => hne x (List.mem_cons_of_mem s hx)
      have hs := hne s List.mem_cons_self
      unfold mergeFrom at hm
      split at hm
      case isTrue =>
        rcases ih hrest hne' hm with h | ⟨x, hx, hstart, hlabel, hgap, hlong⟩
        · exact .inl h
        · refine .inr ⟨x, List.mem_cons_of_mem s hx, hstart, hlabel, ?_, ?_⟩
          · simp only at hgap
            omega
          · intro s' hs' heq
            rcases List.mem_cons.1 hs' with rfl | hs'
            · -- `s` was absorbed, so it does not start at a later block
              simp only at hgap
              omega
            · exact hlong s' hs' heq
      case isFalse hgap =>
        rcases List.mem_cons.1 hm with rfl | hm
        · exact .inl ⟨rfl, rfl⟩
        · right
          rcases ih hrest hne' hm with ⟨hstart, hlabel⟩
            | ⟨x, hx, hstart, hlabel, hgap', hlong⟩
          · refine ⟨s, List.mem_cons_self, hstart, hlabel, by omega, ?_⟩
            intro s' hs' heq
            rcases List.mem_cons.1 hs' with rfl | hs'
            · exact Nat.le_refl _
            · have := hfirst s' hs'
              unfold Before at this
              omega
          · refine ⟨x, List.mem_cons_of_mem s hx, hstart, hlabel, ?_, ?_⟩
            · have := (hfirst x hx).start_le
              omega
            · intro s' hs' heq
              rcases List.mem_cons.1 hs' with rfl | hs'
              · omega
              · exact hlong s' hs' heq

end Elitea.Lib
