/-
Words in a text, and the detector that reports all of them.

`Occurs` is what the results about the stream filter are stated with.
The detector of a list of words (`wordDetector`) is exact: it finds
every occurrence and nothing else (`mem_wordFindings`). It stands in the
concrete runs of the filter.
-/
import Elitea.Guardrail.Mask

namespace Elitea.Guardrail

open Lib

variable {text v : Text} {i : Nat}

-- ============================================================= the words

/-- The word stands in the text at position `i`. -/
def Occurs (v text : Text) (i : Nat) : Prop := v <+: text.drop i

instance (v text : Text) (i : Nat) : Decidable (Occurs v text i) :=
  inferInstanceAs (Decidable (v <+: text.drop i))

theorem occurs_iff :
    Occurs v text i ↔ ∀ j < v.length, text[i + j]? = v[j]? := by
  rw [Occurs, List.prefix_iff_getElem?]
  constructor
  · intro h j hj
    rw [← List.getElem?_drop, h j hj, List.getElem?_eq_getElem hj]
  · intro h j hj
    rw [List.getElem?_drop, h j hj, List.getElem?_eq_getElem hj]

/-- An occurrence does not depend on what comes before it. -/
theorem occurs_append_left {pre : Text} :
    Occurs v (pre ++ text) (pre.length + i) ↔ Occurs v text i := by
  rw [Occurs, List.drop_append, List.drop_eq_nil_of_le (by omega),
    List.nil_append, Nat.add_sub_cancel_left, Occurs]

/-- Nor on what comes after it. -/
theorem occurs_append_right {post : Text} (hend : i + v.length ≤ text.length) :
    Occurs v (text ++ post) i ↔ Occurs v text i := by
  rw [occurs_iff, occurs_iff]
  refine forall_congr' fun j => imp_congr_right fun hj => ?_
  rw [List.getElem?_append_left (by omega)]

theorem Occurs.end_le (h : Occurs v text i) (hne : v ≠ []) :
    i + v.length ≤ text.length := by
  have hlen := h.length_le
  have hpos := List.length_pos_iff.2 hne
  rw [List.length_drop] at hlen
  omega

/-- The finding contains the byte at `q`. -/
def Finding.Finds (f : Finding) (q : Nat) : Prop :=
  f.whole = true ∨ (f.start ≤ q ∧ q < f.stop)

theorem Finding.Finds.covers {f : Finding} {q : Nat} (h : f.Finds q)
    (hq : q < text.length) : ∃ s ∈ f.spans text, s.Covers q := by
  have hb : (f.bounds text.length).1 ≤ q
      ∧ (q : Int) < (f.bounds text.length).2 := by
    unfold Finding.bounds
    split
    · simp only
      omega
    · rcases h with hwhole | h
      · contradiction
      · exact h
  refine ⟨⟨clamp (f.bounds text.length).1 text.length,
    clamp (f.bounds text.length).2 text.length, f.label⟩, ?_, ?_⟩
  · simp only [Finding.spans]
    rw [if_neg (by omega), if_pos (by unfold clamp; omega)]
    exact List.mem_singleton_self _
  · simp only [Span.Covers, clamp]
    omega

-- ==================================================== a detector of words

/-- Every occurrence of a word, with one label for all. -/
def wordFindings (words : List Text) (label : Text) : Nat → Text →
    List Finding
  | _, [] => []
  | i, b :: text =>
      (words.filter fun v => v.isPrefixOf (b :: text)).map
        (fun v => ⟨i, (i + v.length : Nat), false, label⟩)
        ++ wordFindings words label (i + 1) text

theorem mem_wordFindings {words : List Text} {label : Text} {n : Nat}
    {f : Finding} :
    f ∈ wordFindings words label n text ↔ ∃ v ∈ words, ∃ i < text.length,
      Occurs v text i
        ∧ f = ⟨(n + i : Nat), (n + i + v.length : Nat), false, label⟩ := by
  induction text generalizing n with
  | nil => simp [wordFindings]
  | cons b text ih =>
      simp only [wordFindings, List.mem_append, List.mem_map,
        List.mem_filter, List.isPrefixOf_iff_prefix, ih]
      constructor
      · rintro (⟨v, ⟨hv, hpre⟩, rfl⟩ | ⟨v, hv, i, hi, hocc, rfl⟩)
        · exact ⟨v, hv, 0, by simp, hpre, rfl⟩
        · refine ⟨v, hv, i + 1, by simpa using hi, hocc, ?_⟩
          rw [show n + 1 + i = n + (i + 1) by omega]
      · rintro ⟨v, hv, i, hi, hocc, rfl⟩
        cases i with
        | zero => exact .inl ⟨v, ⟨hv, hocc⟩, rfl⟩
        | succ i =>
            refine .inr ⟨v, hv, i, by simpa using hi, hocc, ?_⟩
            rw [show n + 1 + i = n + (i + 1) by omega]

/-- The mask detector of a list of words, labelled `w`. -/
def wordDetector (words : List Text) : Detector where
  name := "words"
  action := .mask
  detect text := .ok (wordFindings words [119] 0 text)
  labelled := by
    intro text found h f hf
    cases h
    obtain ⟨v, -, i, -, -, rfl⟩ := mem_wordFindings.1 hf
    simp

@[simp] theorem wordDetector_action (words : List Text) :
    (wordDetector words).action = .mask := rfl

@[simp] theorem wordDetector_detect (words : List Text) (text : Text) :
    (wordDetector words).detect text
      = .ok (wordFindings words [119] 0 text) := rfl

/-- A pipeline of one row, with the smallest window. -/
def wordPipeline (words : List Text) : Pipeline where
  rows := [{
    name := "row", failClosed := true, streamWindow := minStreamWindow
    detectors := [wordDetector words]
    window_ge := Nat.le_refl _, window_le := by decide }]

theorem wordPipeline_run (words : List Text) (text : Text)
    (filter : Detector → Bool) :
    (wordPipeline words).run text filter
      = .ok (if filter (wordDetector words) then
          (wordFindings words [119] 0 text).flatMap (Finding.spans text)
        else []) := by
  by_cases hf : filter (wordDetector words) = true
  · by_cases hnil : wordFindings words [119] 0 text = []
    · simp [Pipeline.run, wordPipeline, runRows, runRow, hf, hnil]
    · simp [Pipeline.run, wordPipeline, runRows, runRow, hf, hnil]
  · simp [Pipeline.run, wordPipeline, runRows, runRow, hf]

/-- The word `ab`. -/
def ab : Text := [97, 98]

def spaces (n : Nat) : Text := List.replicate n 32

end Elitea.Guardrail
