/-
The stream filter releases no byte of a forbidden word.

# The argument

A byte is released in one evaluation. If a window of text follows it,
or the answer ends with the held text, then every word that contains the
byte ends inside the evaluated text (`holdCut_spec`). Every such word
also starts inside it, because the context keeps all starts of runes in
the last window of the released text (`Context`). So the detector sees
the word, its findings cover the byte, and the byte is masked. The bytes
that a forced release adds to the cut are covered by definition.

# Where it fails

After a forced release the filter keeps, in place of the last window,
the text from the start of the match that reached the end of the held
text. That match may be shorter than the window: the context is then too
short, and a word that began before the match is not seen again
(`forced_release_shows_word`). `KeepsContext` names the states in which
the kept context is long enough. While all releases lead to such states
the property holds (`no_raw_release`).
-/
import Elitea.Guardrail.Proofs.Release
import Elitea.Guardrail.Proofs.Words

namespace Elitea.Guardrail

open Lib

variable {words : Set Text} {q : Nat} {text : Text} {c : Channel}

-- ============================================================= the words

/-- The words are forbidden: each starts a rune and fits the window, a
live mask detector finds every byte of each occurrence in any text, and
no detector refuses. -/
structure Forbids (p : Pipeline) (words : Set Text) : Prop where
  starts : ∀ v ∈ words, ∃ b, v[0]? = some b ∧ runeStart b = true
  fits : ∀ v ∈ words, v.length ≤ p.streamWindow
  detector : ∃ row ∈ p.rows, ∃ d ∈ row.detectors, d.action = .mask
    ∧ ∀ text, ∃ found, d.detect text = .ok found
      ∧ ∀ v ∈ words, ∀ i, Occurs v text i →
        ∀ q, i ≤ q → q < i + v.length → ∃ f ∈ found, f.Finds q
  clean : ∀ text filter, ∃ spans, p.run text filter = .ok spans

theorem Forbids.ne_nil {p : Pipeline} (h : Forbids p words) :
    ∀ v ∈ words, v ≠ [] := by
  rintro v hv rfl
  obtain ⟨b, hb, -⟩ := h.starts [] hv
  cases hb

theorem Forbids.live {p : Pipeline} (h : Forbids p words) : p.live = true := by
  obtain ⟨row, hrow, d, hd, hmask, -⟩ := h.detector
  simp only [Pipeline.live, List.any_eq_true]
  exact ⟨row, hrow, d, hd, by simp [Detector.live, hmask]⟩

/-- The spans of a run cover every byte of an occurrence. -/
theorem Forbids.covered {p : Pipeline} (h : Forbids p words)
    {spans : List Span} (hrun : p.run text Detector.live = .ok spans)
    {v : Text} (hv : v ∈ words) {i : Nat} (hocc : Occurs v text i) (hi : i ≤ q)
    (hq : q < i + v.length) : Covered spans q := by
  obtain ⟨row, hrow, d, hd, hmask, hdetect⟩ := h.detector
  obtain ⟨found, hfound, hfinds⟩ := hdetect text
  obtain ⟨f, hf, hfq⟩ := hfinds v hv i hocc q hi hq
  have hend := hocc.end_le (List.ne_nil_of_length_pos (by omega))
  obtain ⟨s, hs, hcov⟩ := hfq.covers (Nat.lt_of_lt_of_le hq hend)
  exact ⟨s, run_finds hrun hrow hd hmask hfound hf hs, hcov⟩

-- =========================================================== the context

/-- The context keeps the end of the released text, and with it every
start of a rune in the last window. -/
structure Context (window : Nat) (text tail : Text) : Prop where
  suffix : tail <:+ text
  starts : ∀ i b, text[i]? = some b → runeStart b = true →
    text.length < i + window → text.length ≤ i + tail.length

theorem Context.all (window : Nat) (text : Text) :
    Context window text text :=
  ⟨List.suffix_refl text, fun _ _ _ _ _ => by omega⟩

theorem Context.longer {window : Nat} {tail tail' : Text}
    (h : Context window text tail) (hsuffix : tail' <:+ text)
    (hle : tail.length ≤ tail'.length) : Context window text tail' :=
  ⟨hsuffix, fun i b hb hstart hi => by
    have := h.starts i b hb hstart hi
    omega⟩

/-- The last window is enough context, whatever is released next. -/
theorem Context.lookBehind {window : Nat} {tail : Text}
    (h : Context window text tail) (released : Text) :
    Context window (text ++ released)
      (lookBehind window (tail ++ released)) := by
  obtain ⟨pre, hpre⟩ := h.suffix
  have hctx : tail ++ released <:+ text ++ released :=
    ⟨pre, by rw [← List.append_assoc, hpre]⟩
  refine ⟨(lookBehind_suffix _ _).trans hctx, fun i b hb hstart hi => ?_⟩
  rw [List.length_append] at hi ⊢
  have hlen : text.length = pre.length + tail.length := by
    rw [← hpre, List.length_append]
  -- the start of the rune is in the old context, or was just released
  have hpos : pre.length ≤ i := by
    by_cases hold : i < text.length
    · rw [List.getElem?_append_left hold] at hb
      have := h.starts i b hb hstart (by omega)
      omega
    · omega
  have hb' : (tail ++ released)[i - pre.length]? = some b := by
    rw [← hb, ← hpre, List.append_assoc]
    exact (List.getElem?_append_right hpos).symm
  unfold Guardrail.lookBehind
  split
  case isTrue hlong =>
    rw [List.length_append] at hlong
    have hceil := runeCeil_le (i := (tail ++ released).length - window)
      (by rw [List.length_append]; omega) hb' hstart
    rw [List.length_drop, List.length_append]
    rw [List.length_append] at hceil
    omega
  case isFalse =>
    rw [List.length_append]
    omega

-- ============================================================ the release

section Release

variable {p : Pipeline} {f : StreamFilter} {spans : List Span}

/-- With the rest of the channel masked, every held byte is covered. -/
theorem covered_of_maskRest (hrest : f.maskRest ≠ [])
    (hq : q < f.pending.length) :
    Covered (shiftSpans f.tail.length (f.withRest spans)) q := by
  rw [covered_shiftSpans]
  refine ⟨⟨f.tail.length, (f.tail ++ f.pending).length, f.maskRest⟩, ?_, ?_⟩
  · rw [StreamFilter.withRest, if_neg hrest]
    exact List.mem_append_right _ (List.mem_singleton_self _)
  · simp only [Span.Covers, List.length_append]
    omega

theorem covered_withRest (h : Covered spans q) :
    Covered (f.withRest spans) q := by
  obtain ⟨s, hs, hq⟩ := h
  refine ⟨s, ?_, hq⟩
  unfold StreamFilter.withRest
  split
  · exact hs
  · exact List.mem_append_left _ hs

/-- A held byte of a word that ends inside the held text is covered. -/
theorem covered_of_occurs (hwords : Forbids p words)
    (hrun : p.run (f.tail ++ f.pending) Detector.live = .ok spans)
    {released answer : Text}
    (hctx : f.maskRest ≠ [] ∨ Context p.streamWindow released f.tail)
    (hanswer : released ++ f.pending <+: answer) {v : Text} (hv : v ∈ words)
    {i : Nat} (hocc : Occurs v answer i) (hi : i ≤ released.length + q)
    (hq : released.length + q < i + v.length)
    (hend : i + v.length ≤ released.length + f.pending.length) :
    Covered (shiftSpans f.tail.length (f.withRest spans)) q := by
  rcases hctx with hrest | hctx
  · exact covered_of_maskRest hrest (by omega)
  obtain ⟨pre, hpre⟩ := hctx.suffix
  have hlen : released.length = pre.length + f.tail.length := by
    rw [← hpre, List.length_append]
  -- the answer is the evaluated text, between what was and what will be
  obtain ⟨post, hpost⟩ := hanswer
  rw [← hpre, List.append_assoc pre] at hpost
  have hocc : Occurs v (pre ++ (f.tail ++ f.pending)) i := by
    rw [← hpost] at hocc
    refine (occurs_append_right ?_).1 hocc
    rw [List.length_append, List.length_append]
    omega
  -- the word starts in the context or in the held text
  have hstart : pre.length ≤ i := by
    by_cases hold : i < released.length
    · obtain ⟨b, hb, hrune⟩ := hwords.starts v hv
      have hfits := hwords.fits v hv
      have hget := occurs_iff.1 hocc 0 (by omega)
      rw [hb, ← List.append_assoc, hpre, Nat.add_zero,
        List.getElem?_append_left hold] at hget
      have := hctx.starts i b hget hrune (by omega)
      omega
    · omega
  rw [show i = pre.length + (i - pre.length) by omega,
    occurs_append_left] at hocc
  rw [covered_shiftSpans]
  exact covered_withRest
    (hwords.covered hrun hv hocc (by omega) (by omega))

end Release

-- ========================================================== the invariant

/-- Every byte of a word in the answer that was sent, was sent masked. -/
def Hides (words : Set Text) (answer : Text) (sent : List Piece) : Prop :=
  ∀ v ∈ words, ∀ i, Occurs v answer i →
    ∀ q, i ≤ q → q < i + v.length → ∀ b, (cells sent)[q]? ≠ some (.shown b)

/-- A release hides the words, when each of its bytes is covered or lies
in words that end in the held text only. -/
theorem hides_release {p : Pipeline} (hwords : Forbids p words)
    {f g : StreamFilter} {spans : List Span} {sent out : List Piece}
    {answer : Text} {cut : Nat} {final : Bool}
    (hrun : p.run (f.tail ++ f.pending) Detector.live = .ok spans)
    (hrel : f.release p.streamWindow (f.withRest spans) cut final = (g, out))
    (hctx : f.maskRest ≠ [] ∨ Context p.streamWindow (source sent) f.tail)
    (hanswer : source sent ++ f.pending <+: answer) (hcut : ∀ q < cut,
      Covered (shiftSpans f.tail.length (f.withRest spans)) q
        ∨ ∀ v ∈ words, ∀ i, Occurs v answer i →
          i ≤ (source sent).length + q →
          i + v.length ≤ (source sent).length + f.pending.length)
    (hsent : Hides words answer sent) : Hides words answer (sent ++ out) := by
  obtain ⟨-, -, rfl⟩ := release_text hrel
  intro v hv i hocc q hi hq b hshown
  rw [cells_append] at hshown
  by_cases hold : q < (cells sent).length
  · rw [List.getElem?_append_left hold] at hshown
    exact hsent v hv i hocc q hi hq b hshown
  · rw [length_cells] at hold
    rw [List.getElem?_append_right (by rw [length_cells]; omega),
      length_cells] at hshown
    obtain ⟨hlt, hncov⟩ :=
      not_covered_of_shown (ranges_clip (reported_found hrun)) hshown
    rw [List.length_take] at hlt
    refine hncov (covered_clipSpans.2 ⟨?_, by omega⟩)
    rcases hcut (q - (source sent).length) (by omega) with hcov | hend
    · exact hcov
    · exact covered_of_occurs hwords hrun hctx hanswer hv hocc (by omega)
        (by omega) (hend v hv i hocc (by omega))

/-- The filter's context is no shorter than the last window it would keep
of the released text, or the rest of the channel is masked. -/
def KeepsContext (p : Pipeline) (c : Channel) : Prop :=
  c.filter.isOpen = true → c.filter.maskRest = [] →
    (lookBehind p.streamWindow (source c.sent)).length
      ≤ c.filter.tail.length

instance (p : Pipeline) (c : Channel) : Decidable (KeepsContext p c) :=
  inferInstanceAs (Decidable (_ → _ → _))

/-- A push leads to a state that keeps its context. -/
def KeepsContextStep (p : Pipeline) (c : Channel) : ChannelOp → Prop
  | .push delta => ∀ c' ∈ channelStep p c (.push delta), KeepsContext p c'
  | .finish => True

instance (p : Pipeline) (c : Channel) :
    (op : ChannelOp) → Decidable (KeepsContextStep p c op)
  | .push delta => inferInstanceAs
      (Decidable (∀ c' ∈ channelStep p c (.push delta), KeepsContext p c'))
  | .finish => inferInstanceAs (Decidable True)

/-- What holds of the channel while the answer comes in. -/
structure Held (p : Pipeline) (words : Set Text) (c : Channel) : Prop where
  notDone : c.filter.done = false
  context : c.filter.maskRest ≠ []
    ∨ Context p.streamWindow (source c.sent) c.filter.tail
  tiled : Tiled c.sent
  hides : ∀ answer, c.received <+: answer → Hides words answer c.sent

theorem held_start (p : Pipeline) (words : Set Text) :
    Held p words .start where
  notDone := rfl
  context := .inr (Context.all p.streamWindow [])
  tiled := fun _ h => by cases h
  hides := by
    intro answer _ v hv i hocc q hi hq b hb
    cases hb

/-- A release keeps enough context. -/
theorem context_release {p : Pipeline} {f g : StreamFilter}
    {spans : List Span} {sent out : List Piece} {cut : Nat} {final : Bool}
    (hrun : p.run (f.tail ++ f.pending) Detector.live = .ok spans)
    (hrel : f.release p.streamWindow (f.withRest spans) cut final = (g, out))
    (hctx : f.maskRest ≠ [] ∨ Context p.streamWindow (source sent) f.tail)
    (hkeep : KeepsContext p ⟨g, sent ++ out⟩) :
    g.maskRest ≠ []
      ∨ Context p.streamWindow (source (sent ++ out)) g.tail := by
  obtain ⟨hpending, -, -⟩ := release_text hrel
  have hfound := reported_found hrun
  have hsource : source (sent ++ out) = source sent ++ f.pending.take cut :=
    source_release hrun hrel
  rcases release_context hrel with ⟨-, hrest, htail⟩
    | ⟨hopen, hempty, s, hs, hlen, hbase, ⟨hrest, htail⟩ | ⟨-, hrest⟩⟩
  · rw [hrest, htail, hsource]
    exact hctx.imp_right fun h => h.lookBehind _
  · by_cases hunset : g.maskRest = []
    · -- the match's start, by the guard no later than the last window
      right
      obtain ⟨pre, hpre⟩ :=
        (hctx.resolve_left fun h => h (hrest ▸ hunset)).suffix
      refine Context.longer ?_ ?_ (hkeep hopen hunset)
      · have hall := (Context.all p.streamWindow []).lookBehind
          (source (sent ++ out))
        rw [List.nil_append] at hall
        exact hall
      · rw [htail, hsource, ← hpre, List.append_assoc]
        exact (List.drop_suffix _ _).trans (List.suffix_append _ _)
    · exact .inl hunset
  · left
    -- the open match is one of the released spans, so a label is there
    have hin : ∃ x ∈ clipSpans cut
        (shiftSpans f.tail.length (f.withRest spans)), x.label = s.label := by
      have hmem : _ ∈ shiftSpans f.tail.length (f.withRest spans) :=
        mem_shiftSpans.2 ⟨s, hs, hbase, rfl⟩
      obtain ⟨hlt, hle, -⟩ := hfound _ hmem
      rw [hpending, List.drop_eq_nil_iff] at hempty
      refine ⟨_, mem_clipSpans.2 ⟨_, hmem, ?_, rfl⟩, rfl⟩
      exact Nat.lt_of_lt_of_le hlt (Nat.le_trans hle hempty)
    obtain ⟨x, hx, -⟩ := hin
    obtain ⟨y, hy⟩ := List.getLast?_isSome.2 (List.ne_nil_of_mem hx)
      |> Option.isSome_iff_exists.1
    obtain ⟨z, hz, -, rfl⟩ := mem_clipSpans.1 (List.mem_of_getLast? hy)
    rw [hrest, hy]
    exact (hfound z hz).2.2

/-- One push. -/
theorem held_push {p : Pipeline} (hwords : Forbids p words) {c' : Channel}
    {delta : Text} (h : Held p words c)
    (hkeep : KeepsContextStep p c (.push delta))
    (hstep : channelStep p c (.push delta) = some c') : Held p words c' := by
  have hkeep := hkeep c' hstep
  have hrec := received_push hwords.live h.notDone hstep
  have hhides : ∀ answer, c'.received <+: answer →
      Hides words answer c.sent := by
    intro answer hanswer
    rw [hrec] at hanswer
    exact h.hides answer ((List.prefix_append _ _).trans hanswer)
  obtain ⟨out, hsent, hcall⟩ := channelStep_eq_some hstep
  rcases push_cases hwords.live h.notDone hcall with ⟨rfl, hload⟩
    | ⟨g, spans, hload, hrun, hrel⟩
  · rw [List.append_nil] at hsent
    refine ⟨?_, ?_, ?_, ?_⟩
    · rw [hload.done, h.notDone]
    · rw [hload.maskRest, hload.tail, hsent]
      exact h.context
    · rw [hsent]
      exact h.tiled
    · rw [hsent]
      exact hhides
  · obtain ⟨-, hdone, -⟩ := release_text hrel
    have hctx : g.maskRest ≠ []
        ∨ Context p.streamWindow (source c.sent) g.tail := by
      rw [hload.maskRest, hload.tail]
      exact h.context
    refine ⟨?_, ?_, ?_, ?_⟩
    · rw [hdone, hload.done, h.notDone]
    · rw [hsent]
      refine context_release hrun hrel hctx ?_
      rw [← hsent]
      exact hkeep
    · rw [hsent]
      exact tiled_release h.tiled hrun hrel
    · intro answer hanswer
      have hgiven : source c.sent ++ g.pending <+: answer := by
        rw [hload.pending, ← List.append_assoc]
        rw [hrec] at hanswer
        exact hanswer
      rw [hsent]
      refine hides_release hwords hrun hrel hctx hgiven ?_
        (hhides answer hanswer)
      intro q hq
      -- a window of text follows, or the byte is covered
      rcases (holdCut_spec fun s hs => (reported_found hrun s hs).2.1).2 q hq
        with hsafe | hcov
      · right
        intro v hv i _ hi
        have := hwords.fits v hv
        omega
      · exact .inl hcov

/-- The end of the channel. -/
theorem hides_finish {p : Pipeline} (hwords : Forbids p words) {c' : Channel}
    (h : Held p words c) (hstep : channelStep p c .finish = some c') :
    Tiled c'.sent ∧ Hides words c.received c'.sent := by
  obtain ⟨out, hsent, hcall⟩ := channelStep_eq_some hstep
  rw [hsent]
  rcases finish_cases hwords.live h.notDone hcall with ⟨-, -, rfl⟩
    | ⟨spans, g, hrun, hrel, hg⟩
  · rw [List.append_nil]
    exact ⟨h.tiled, h.hides _ (List.prefix_refl _)⟩
  · refine ⟨tiled_release h.tiled hrun hrel, ?_⟩
    refine hides_release hwords hrun hrel h.context (List.prefix_refl _) ?_
      (h.hides _ (List.prefix_refl _))
    intro q _
    right
    intro v hv i hocc hi
    -- a word of the answer ends with it
    have hend := hocc.end_le (hwords.ne_nil v hv)
    rw [Channel.received, List.length_append] at hend
    exact hend

/-- A channel whose answer is out: nothing is held, each byte of the
answer has its cell, shown as it is or masked, and the words are
hidden. -/
structure Delivered (words : Set Text) (answer : Text) (c : Channel) : Prop
    where
  drained : c.filter.pending = []
  source_eq : source c.sent = answer
  tiled : Tiled c.sent
  hides : Hides words answer c.sent

/-- All the deltas, then the end. -/
theorem delivered_answer {p : Pipeline} (hwords : Forbids p words)
    (deltas : List Text) (h : Held p words c)
    (hkeep : Meets (channelStep p) (KeepsContextStep p) c (answerOps deltas)) :
    ∃ c', run (channelStep p) c (answerOps deltas) = some c'
      ∧ Delivered words (c.received ++ deltas.flatten) c' := by
  induction deltas generalizing c with
  | nil =>
      obtain ⟨c', hstep⟩ := channelStep_isSome hwords.clean c .finish
      refine ⟨c', run_cons_eq_some.2 ⟨c', hstep, rfl⟩, ?_⟩
      rw [List.flatten_nil, List.append_nil]
      obtain ⟨hsource, hdrained⟩ := source_finish hwords.live h.notDone hstep
      obtain ⟨htiled, hhides⟩ := hides_finish hwords h hstep
      exact ⟨hdrained, hsource, htiled, hhides⟩
  | cons delta rest ih =>
      obtain ⟨c₁, hstep⟩ := channelStep_isSome hwords.clean c (.push delta)
      obtain ⟨c', hrun, hdel⟩ :=
        ih (held_push hwords h hkeep.1 hstep) (hkeep.2 c₁ hstep)
      refine ⟨c', run_cons_eq_some.2 ⟨c₁, hstep, hrun⟩, ?_⟩
      rw [received_push hwords.live h.notDone hstep,
        List.append_assoc] at hdel
      exact hdel

/-- Cells show the bytes of the content in their places. -/
theorem source_of_shown {pieces : List Piece} {b : UInt8}
    (h : (cells pieces)[q]? = some (.shown b)) :
    (source pieces)[q]? = some b := by
  induction pieces generalizing q with
  | nil => cases h
  | cons x rest ih =>
      rw [cells_cons] at h
      rw [source_cons]
      by_cases hq : q < x.cells.length
      · rw [List.getElem?_append_left hq] at h
        rw [List.getElem?_append_left (by rw [← length_cells_piece]; exact hq)]
        match x with
        | .raw bytes =>
            rw [Piece.cells, List.getElem?_map, Option.map_eq_some_iff] at h
            obtain ⟨b', hb', heq⟩ := h
            cases heq
            exact hb'
        | .masked [] _ => cases h
        | .masked (_ :: hidden) marker =>
            have hmem := List.mem_of_getElem? h
            simp only [Piece.cells, List.mem_cons, List.mem_map] at hmem
            rcases hmem with hmark | ⟨_, -, heq⟩
            · cases marker <;> cases hmark
            · cases heq
      · rw [List.getElem?_append_right (by omega), length_cells_piece] at h
        rw [List.getElem?_append_right
          (by rw [← length_cells_piece]; omega)]
        exact ih h

/-- Whatever the deltas, while every release keeps enough context: the
channel ends with nothing held, the text sent stands for the answer byte
by byte and in its order, and shows no byte of a forbidden word. -/
theorem no_raw_release (p : Pipeline) (words : Set Text)
    (hwords : Forbids p words) (deltas : List Text)
    (hkeep : Meets (channelStep p) (KeepsContextStep p) .start
      (answerOps deltas)) :
    ∃ c : Channel, run (channelStep p) .start (answerOps deltas) = some c
      ∧ c.filter.pending = []
      ∧ render c.sent = (cells c.sent).flatMap Cell.text
      ∧ (cells c.sent).length = deltas.flatten.length
      ∧ (∀ (q : Nat) b, (cells c.sent)[q]? = some (.shown b) →
          deltas.flatten[q]? = some b)
      ∧ ∀ v ∈ words, ∀ i, Occurs v deltas.flatten i →
          ∀ q, i ≤ q → q < i + v.length →
            ∀ b, (cells c.sent)[q]? ≠ some (.shown b) := by
  obtain ⟨c, hrun, hdel⟩ :=
    delivered_answer hwords deltas (held_start p words) hkeep
  have hsource : source c.sent = deltas.flatten := hdel.source_eq
  refine ⟨c, hrun, hdel.drained, render_eq_cells hdel.tiled, ?_, ?_,
    hdel.hides⟩
  · rw [length_cells, hsource]
  · intro q b hb
    rw [← hsource]
    exact source_of_shown hb

-- ============================================================== witnesses

/-- The detector of some words forbids those that fit the window. -/
theorem wordPipeline_forbids {words : List Text} {short : Set Text}
    (hsub : ∀ v ∈ short, v ∈ words)
    (hstarts : ∀ v ∈ short, ∃ b, v[0]? = some b ∧ runeStart b = true)
    (hfits : ∀ v ∈ short, v.length ≤ minStreamWindow) :
    Forbids (wordPipeline words) short where
  starts := hstarts
  fits := hfits
  clean := fun text filter => ⟨_, wordPipeline_run words text filter⟩
  detector := by
    refine ⟨_, List.mem_singleton_self _, wordDetector words,
      List.mem_singleton_self _, rfl, fun text => ⟨_, rfl, ?_⟩⟩
    intro v hv i hocc q hi hq
    have hend := hocc.end_le (List.ne_nil_of_length_pos (by omega))
    refine ⟨_, mem_wordFindings.2 ⟨v, hsub v hv, i, by omega, hocc, rfl⟩, ?_⟩
    right
    simp only
    omega

theorem ab_forbidden : Forbids (wordPipeline [ab]) {ab} :=
  wordPipeline_forbids (by simp)
    (fun v hv => ⟨97, by rw [Set.mem_singleton_iff.1 hv]; rfl, rfl⟩)
    (fun v hv => by rw [Set.mem_singleton_iff.1 hv]; decide)

/-- Deltas that split the word `ab` at the end of an evaluation. -/
def splitAb : List Text := [spaces 127 ++ [97], [98] ++ spaces 130, ab]

theorem no_raw_release_splitAb :
    Meets (channelStep (wordPipeline [ab]))
        (KeepsContextStep (wordPipeline [ab])) .start (answerOps splitAb)
      ∧ ∃ c, run (channelStep (wordPipeline [ab])) .start (answerOps splitAb)
          = some c
        ∧ c.filter.pending = []
        ∧ (cells c.sent)[127]? ≠ some (.shown 97) := by
  have hkeep : Meets (channelStep (wordPipeline [ab]))
      (KeepsContextStep (wordPipeline [ab])) .start (answerOps splitAb) := by
    decide +kernel
  obtain ⟨c, hrun, hdrained, -, -, -, hhides⟩ :=
    no_raw_release (wordPipeline [ab]) {ab} ab_forbidden splitAb hkeep
  refine ⟨hkeep, c, hrun, hdrained, ?_⟩
  exact hhides ab rfl 127 (by decide +kernel) 127 (Nat.le_refl _)
    (by decide) 97

/-- A long match that overlaps the short match `bc`, and the word
`abcd`. -/
def abcd : Text := [97, 98, 99, 100]

def longMatch : Text := [122] ++ List.replicate 1070 120 ++ ab

def overlapping : List Text := [longMatch, [98, 99], abcd]

/-- The held text ends inside `abcd`, after seventeen windows. -/
def insideAbcd : List Text := [longMatch ++ [99], [100]]

theorem abcd_forbidden : Forbids (wordPipeline overlapping) {abcd} :=
  wordPipeline_forbids (by simp [overlapping])
    (fun v hv => ⟨97, by rw [Set.mem_singleton_iff.1 hv]; rfl, rfl⟩)
    (fun v hv => by rw [Set.mem_singleton_iff.1 hv]; decide)

/-- The forced release covers both matches and keeps only `bc` as
context, so the last byte of `abcd` is sent as it is. -/
theorem forced_release_shows_word :
    Forbids (wordPipeline overlapping) {abcd}
      ∧ Occurs abcd insideAbcd.flatten 1071
      ∧ ∃ c, run (channelStep (wordPipeline overlapping)) .start
          (answerOps insideAbcd) = some c
        ∧ (cells c.sent)[1074]? = some (.shown 100) := by
  refine ⟨abcd_forbidden, by decide +kernel, ?_⟩
  have hrun : (run (channelStep (wordPipeline overlapping)) .start
      (answerOps insideAbcd)).map (fun c => (cells c.sent)[1074]?)
      = some (some (.shown 100)) := by
    decide +kernel
  obtain ⟨c, hc, hcell⟩ := Option.map_eq_some_iff.1 hrun
  exact ⟨c, hc, hcell⟩

end Elitea.Guardrail
