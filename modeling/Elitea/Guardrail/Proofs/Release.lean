/-
What one call of the stream filter can do.

# The cut

`holdCut_spec`: a cut leaves a window held, except for bytes that a span
covers. `holdCut_settled`: no span crosses it, unless it is forced; and it
is forced only when all that could be released is covered, or inside a
rune.

# The call

`push_cases` and `finish_cases` say once what a call does to a live
filter: it holds the text, or releases it at a cut. `release_cases` says
what a release leaves as context: the last window, or all the text from
the start of a match that may go on. Every result about the filter is
derived from these.
-/
import Elitea.Guardrail.Stream
import Elitea.Guardrail.Proofs.Mask

namespace Elitea.Guardrail

open Lib

variable {window : Nat} {s : Text} {c c' : Channel} {found : List Span}

-- ================================================================== runes

theorem runeFloor_le (s : Text) (i : Nat) : runeFloor s i ≤ i := by
  induction i with
  | zero => exact Nat.le_refl _
  | succ i ih =>
      unfold runeFloor
      split
      case h_1 h =>
        rw [List.getElem?_eq_none_iff] at h
        exact h
      case h_2 b h =>
        split
        · exact Nat.le_refl _
        · exact Nat.le_succ_of_le ih

/-- `runeFloor` passes no start of a rune. -/
theorem runeFloor_passed {i q : Nat} (h : runeFloor s i < q) (hq : q ≤ i) :
    ∀ b ∈ s[q]?, runeStart b = false := by
  induction i with
  | zero => omega
  | succ i ih =>
      unfold runeFloor at h
      split at h
      case h_1 =>
        rw [List.getElem?_eq_none (Nat.le_of_lt h)]
        exact fun _ hb => (by cases hb)
      case h_2 b hb =>
        split at h
        case isTrue => omega
        case isFalse hstart =>
          by_cases hlast : q = i + 1
          · subst hlast
            rw [hb]
            rintro _ ⟨⟩
            exact Bool.eq_false_iff.2 hstart
          · exact ih h (by omega)

theorem length_takeWhile_le {j : Nat} {b : UInt8} (hb : s[j]? = some b)
    (hstart : runeStart b = true) :
    (s.takeWhile fun b => !runeStart b).length ≤ j := by
  induction s generalizing j with
  | nil => simp at hb
  | cons a s ih =>
      cases j with
      | zero =>
          simp only [List.getElem?_cons_zero, Option.some.injEq] at hb
          rw [hb, List.takeWhile_cons, hstart]
          simp
      | succ j =>
          rw [List.getElem?_cons_succ] at hb
          rw [List.takeWhile_cons]
          split
          · exact Nat.succ_le_succ (ih hb)
          · exact Nat.zero_le _

/-- `runeCeil` stops at the first start of a rune. -/
theorem runeCeil_le {i j : Nat} {b : UInt8} (hij : i ≤ j) (hb : s[j]? = some b)
    (hstart : runeStart b = true) : runeCeil s i ≤ j := by
  unfold runeCeil
  split
  · exact Nat.zero_le _
  · have hdrop : (s.drop i)[j - i]? = some b := by
      rw [List.getElem?_drop, show i + (j - i) = j by omega, hb]
    have := length_takeWhile_le hdrop hstart
    omega

theorem lookBehind_suffix (window : Nat) (ctx : Text) :
    lookBehind window ctx <:+ ctx := by
  unfold lookBehind
  split
  · exact List.drop_suffix _ _
  · exact List.suffix_refl _

-- ================================================================ the cut

/-- A span crosses the cut. -/
def Crossed (spans : List Span) (cut : Nat) : Prop :=
  ∃ s ∈ spans, s.start < cut ∧ cut < s.stop

/-- No cut can be made before the byte: it is covered, or no start of a
rune. -/
def Closed (text : Text) (spans : List Span) (q : Nat) : Prop :=
  Covered spans q ∨ ∀ b ∈ text[q]?, runeStart b = false

/-- One pass: the cut falls over closed bytes, or no span crosses it. -/
theorem settlePass_spec (pending : Text) (spans : List Span) (cut : Nat) :
    settlePass pending spans cut ≤ cut
      ∧ (settlePass pending spans cut = cut → ¬ Crossed spans cut)
      ∧ ∀ q, settlePass pending spans cut < q → q ≤ cut →
        Closed pending spans q := by
  unfold settlePass
  induction spans generalizing cut with
  | nil =>
      refine ⟨Nat.le_refl _, ?_, fun q hq hq' => ?_⟩
      · rintro - ⟨s, hs, -⟩
        cases hs
      · rw [List.foldl_nil] at hq
        omega
  | cons s rest ih =>
      rw [List.foldl_cons]
      split
      case isTrue hcross =>
        obtain ⟨hle, -, hclosed⟩ := ih (runeFloor pending s.start)
        have hfloor := runeFloor_le pending s.start
        refine ⟨by omega, fun heq => absurd heq (by omega), fun q hq hq' => ?_⟩
        by_cases hstart : s.start ≤ q
        · exact .inl (covered_cons.2 (.inl ⟨hstart, by omega⟩))
        by_cases hlow : q ≤ runeFloor pending s.start
        · exact (hclosed q hq hlow).imp_left fun h => covered_cons.2 (.inr h)
        · exact .inr (runeFloor_passed (Nat.lt_of_not_le hlow) (by omega))
      case isFalse hcross =>
        obtain ⟨hle, hfixed, hclosed⟩ := ih cut
        refine ⟨hle, ?_, fun q hq hq' => ?_⟩
        · rintro heq ⟨x, hx, hlt⟩
          rcases List.mem_cons.1 hx with rfl | hx
          · exact hcross hlt
          · exact hfixed heq ⟨x, hx, hlt⟩
        · exact (hclosed q hq hq').imp_left fun h => covered_cons.2 (.inr h)

/-- The loop ends at a cut that no span crosses. -/
theorem settle_spec (pending : Text) (spans : List Span) {fuel cut : Nat}
    (hfuel : cut ≤ fuel) :
    settle pending spans fuel cut ≤ cut
      ∧ ¬ Crossed spans (settle pending spans fuel cut)
      ∧ ∀ q, settle pending spans fuel cut < q → q ≤ cut →
        Closed pending spans q := by
  induction fuel generalizing cut with
  | zero =>
      obtain rfl := Nat.le_zero.1 hfuel
      exact ⟨Nat.le_refl _, fun ⟨s, _, hlt, _⟩ => absurd hlt (Nat.not_lt_zero _),
        fun q hq hq' => absurd hq (Nat.not_lt.2 hq')⟩
  | succ fuel ih =>
      obtain ⟨hle, hfixed, hclosed⟩ := settlePass_spec pending spans cut
      simp only [settle]
      split
      case isTrue h =>
        obtain ⟨hle', hclear, hclosed'⟩ := @ih
          (settlePass pending spans cut) (by omega)
        refine ⟨by omega, hclear, fun q hq hq' => ?_⟩
        by_cases hlow : q ≤ settlePass pending spans cut
        · exact hclosed' q hq hlow
        · exact hclosed q (by omega) hq'
      case isFalse h =>
        exact ⟨Nat.le_refl _, hfixed (by omega),
          fun q hq hq' => absurd hq (Nat.not_lt.2 hq')⟩

/-- A forced cut moves over covered bytes only. -/
theorem forceCut_spec {spans : List Span} {cut len : Nat} (hcut : cut ≤ len)
    (hlen : ∀ s ∈ spans, s.stop ≤ len) :
    cut ≤ forceCut spans cut ∧ forceCut spans cut ≤ len
      ∧ ∀ q, cut ≤ q → q < forceCut spans cut → Covered spans q := by
  unfold forceCut
  induction spans generalizing cut with
  | nil =>
      refine ⟨Nat.le_refl _, hcut, fun q h h' => ?_⟩
      simp only [List.foldl_nil] at h'
      omega
  | cons s rest ih =>
      have hs := hlen s List.mem_cons_self
      have hrest : ∀ x ∈ rest, x.stop ≤ len :=
        fun x hx => hlen x (List.mem_cons_of_mem s hx)
      rw [List.foldl_cons]
      split
      case isTrue hcross =>
        obtain ⟨hle, hlen', hcov⟩ := ih hs hrest
        refine ⟨by omega, hlen', fun q hq hq' => ?_⟩
        rw [covered_cons]
        by_cases hin : q < s.stop
        · exact .inl ⟨by omega, hin⟩
        · exact .inr (hcov q (by omega) hq')
      case isFalse =>
        obtain ⟨hle, hlen', hcov⟩ := ih hcut hrest
        refine ⟨hle, hlen', fun q hq hq' => ?_⟩
        rw [covered_cons]
        exact .inr (hcov q hq hq')

/-- A cut leaves a window held, but for covered bytes. -/
theorem holdCut_spec {pending : Text} {spans : List Span}
    (hlen : ∀ s ∈ spans, s.stop ≤ pending.length) :
    holdCut window pending spans ≤ pending.length
      ∧ ∀ q, q < holdCut window pending spans →
        q + window < pending.length ∨ Covered spans q := by
  have hfirst := runeFloor_le pending (pending.length - window)
  unfold holdCut
  simp only
  split
  case isTrue =>
    obtain ⟨hle, hlen', hcov⟩ :=
      @forceCut_spec spans (runeFloor pending (pending.length - window))
        pending.length (by omega) hlen
    refine ⟨hlen', fun q hq => ?_⟩
    by_cases hsafe : q < runeFloor pending (pending.length - window)
    · exact .inl (by omega)
    · exact .inr (hcov q (by omega) hq)
  case isFalse =>
    obtain ⟨hsettle, -⟩ := settle_spec pending spans
      (Nat.le_refl (runeFloor pending (pending.length - window)))
    exact ⟨by omega, fun q hq => .inl (by omega)⟩

/-- A cut before which some byte is open leaves a window held, and no span
crosses it. -/
theorem holdCut_settled {pending : Text} {spans : List Span}
    (hopen : forceReleaseFactor * window ≤ pending.length →
      ∃ q, 0 < q ∧ q ≤ pending.length - window ∧ ¬ Closed pending spans q) :
    holdCut window pending spans ≤ pending.length - window
      ∧ ¬ Crossed spans (holdCut window pending spans) := by
  have hfirst := runeFloor_le pending (pending.length - window)
  obtain ⟨hle, hclear, hclosed⟩ := settle_spec pending spans
    (Nat.le_refl (runeFloor pending (pending.length - window)))
  unfold holdCut
  simp only
  split
  case isTrue hforced =>
    -- then every byte up to the window is closed
    obtain ⟨q, hpos, hq, hnot⟩ := hopen hforced.2
    refine absurd ?_ hnot
    by_cases hlow : q ≤ runeFloor pending (pending.length - window)
    · exact hclosed q (by omega) hlow
    · exact .inr (runeFloor_passed (Nat.lt_of_not_le hlow) hq)
  case isFalse => exact ⟨by omega, hclear⟩

-- =============================================================== the call

/-- `g` is `f` with a delta added to the held text, before any
evaluation. -/
structure Loaded (f : StreamFilter) (delta : Text) (g : StreamFilter) : Prop
    where
  tail : g.tail = f.tail
  pending : g.pending = f.pending ++ delta
  isOpen : g.isOpen = f.isOpen
  maskRest : g.maskRest = f.maskRest
  done : g.done = f.done

theorem Loaded.keepFull (p : Pipeline) (f : StreamFilter) (delta : Text) :
    Loaded f delta
      { f.keepFull p delta with
        pending := (f.keepFull p delta).pending ++ delta } := by
  unfold StreamFilter.keepFull
  split
  · split <;> exact ⟨rfl, rfl, rfl, rfl, rfl⟩
  · exact ⟨rfl, rfl, rfl, rfl, rfl⟩

section Call

variable {p : Pipeline} {f f' : StreamFilter} {delta : Text}
  {out : List Piece}

/-- An evaluation that is not refused holds on, or releases. -/
theorem evaluate_cases {final : Bool}
    (h : f.evaluate p final = (f', .ok out)) :
    (final = false ∧ out = [] ∧ Loaded f [] f')
      ∨ ∃ spans, p.run (f.tail ++ f.pending) Detector.live = .ok spans
        ∧ f.release p.streamWindow (f.withRest spans)
          (f.releaseCut p (f.withRest spans) final) final = (f', out) := by
  unfold StreamFilter.evaluate at h
  cases hrun : p.run (f.tail ++ f.pending) Detector.live with
  | error v =>
      rw [hrun] at h
      cases h
  | ok spans =>
      rw [hrun] at h
      simp only at h
      split at h
      case isTrue hhold =>
        left
        cases h
        refine ⟨by simpa using hhold.2, rfl, ?_⟩
        exact ⟨rfl, (List.append_nil _).symm, rfl, rfl, rfl⟩
      case isFalse =>
        right
        refine ⟨spans, rfl, ?_⟩
        cases h
        rfl

/-- A push holds the text, or evaluates with the delta added. -/
theorem push_cases (hlive : p.live = true) (hdone : f.done = false)
    (h : f.push p delta = (f', .ok out)) :
    (out = [] ∧ Loaded f delta f')
      ∨ ∃ g spans, Loaded f delta g
        ∧ p.run (g.tail ++ g.pending) Detector.live = .ok spans
        ∧ g.release p.streamWindow (g.withRest spans)
          (g.releaseCut p (g.withRest spans) false) false = (f', out) := by
  unfold StreamFilter.push at h
  rw [hdone, Bool.false_or] at h
  split at h
  case isTrue hempty =>
    left
    cases h
    refine ⟨rfl, rfl, ?_, rfl, rfl, rfl⟩
    rw [List.isEmpty_iff.1 hempty, List.append_nil]
  case isFalse =>
    simp only [hlive, Bool.not_true, Bool.false_eq_true, if_false] at h
    have hload := Loaded.keepFull p f delta
    split at h
    case isTrue =>
      left
      cases h
      exact ⟨rfl, hload⟩
    case isFalse =>
      rcases evaluate_cases h with ⟨-, hout, hf'⟩ | ⟨spans, hrun, heq⟩
      · left
        refine ⟨hout, ?_⟩
        rw [← List.append_nil delta]
        exact ⟨hf'.tail.trans hload.tail,
          by rw [hf'.pending, hload.pending, List.append_nil,
            List.append_nil],
          hf'.isOpen.trans hload.isOpen,
          hf'.maskRest.trans hload.maskRest, hf'.done.trans hload.done⟩
      · exact .inr ⟨_, spans, hload, hrun, heq⟩

theorem runFlags_eq {out' : List Piece}
    (h : f.runFlags p out = (f', .ok out')) :
    f' = { f with done := true } ∧ out' = out := by
  unfold StreamFilter.runFlags at h
  simp only at h
  split at h
  case isTrue =>
    split at h
    · cases h
    · cases h
      exact ⟨rfl, rfl⟩
  case isFalse =>
    cases h
    exact ⟨rfl, rfl⟩

/-- The end of the channel: nothing is held, or all of it is released. -/
theorem finish_cases (hlive : p.live = true) (hdone : f.done = false)
    (h : f.finish p = (f', .ok out)) :
    (f.pending = [] ∧ f'.pending = [] ∧ out = [])
      ∨ ∃ spans g, p.run (f.tail ++ f.pending) Detector.live = .ok spans
        ∧ f.release p.streamWindow (f.withRest spans) f.pending.length true
          = (g, out)
        ∧ f' = { g with done := true } := by
  unfold StreamFilter.finish at h
  simp only [hdone, hlive, Bool.true_and, Bool.false_eq_true, if_false] at h
  split at h
  case isTrue =>
    right
    split at h
    case h_1 => cases h
    case h_2 g out' heval =>
      obtain ⟨hf', rfl⟩ := runFlags_eq h
      rcases evaluate_cases heval with ⟨hfinal, -⟩ | ⟨spans, hrun, heq⟩
      · cases hfinal
      · exact ⟨spans, g, hrun, heq, hf'⟩
  case isFalse hempty =>
    left
    obtain ⟨rfl, rfl⟩ := runFlags_eq h
    have hnil : f.pending = [] := by simpa using hempty
    exact ⟨hnil, hnil, rfl⟩

/-- Detectors that never refuse let every call return. -/
theorem channelStep_isSome
    (hclean : ∀ text filter, ∃ spans, p.run text filter = .ok spans)
    (c : Channel) (op : ChannelOp) : ∃ c', channelStep p c op = some c' := by
  have heval : ∀ (f : StreamFilter) final,
      ∃ f' out, f.evaluate p final = (f', .ok out) := by
    intro f final
    obtain ⟨spans, hrun⟩ := hclean (f.tail ++ f.pending) Detector.live
    simp only [StreamFilter.evaluate, hrun]
    split
    · exact ⟨_, _, rfl⟩
    · exact ⟨_, _, rfl⟩
  have hflags : ∀ (f : StreamFilter) out,
      ∃ f' out', f.runFlags p out = (f', .ok out') := by
    intro f out
    obtain ⟨spans, hrun⟩ := hclean f.full Detector.flagging
    simp only [StreamFilter.runFlags, hrun]
    split
    · exact ⟨_, _, rfl⟩
    · exact ⟨_, _, rfl⟩
  suffices hcall : ∃ f' out, op.call p c.filter = (f', .ok out) by
    obtain ⟨f', out, h⟩ := hcall
    exact ⟨{ filter := f', sent := c.sent ++ out },
      by simp only [channelStep, h]⟩
  cases op with
  | push delta =>
      simp only [ChannelOp.call, StreamFilter.push]
      split
      · exact ⟨_, _, rfl⟩
      · split
        · exact ⟨_, _, rfl⟩
        · split
          · exact ⟨_, _, rfl⟩
          · exact heval _ _
  | finish =>
      simp only [ChannelOp.call, StreamFilter.finish]
      split
      · exact ⟨_, _, rfl⟩
      · split
        · obtain ⟨f', out, h⟩ := heval c.filter true
          rw [h]
          exact hflags f' out
        · exact hflags _ _

/-- A step, as the call it makes. -/
theorem channelStep_eq_some {op : ChannelOp} (h : channelStep p c op = some c')
    : ∃ out, c'.sent = c.sent ++ out
      ∧ op.call p c.filter = (c'.filter, .ok out) := by
  unfold channelStep at h
  split at h
  case h_1 f out heq =>
    cases h
    exact ⟨out, rfl, heq⟩
  case h_2 => cases h

end Call

-- ============================================================== the spans

section Found

variable {p : Pipeline} {f : StreamFilter} {spans : List Span}

/-- What an evaluation finds in the held text: non-empty ranges of it,
with labels. -/
theorem reported_found
    (hrun : p.run (f.tail ++ f.pending) Detector.live = .ok spans) :
    ∀ s ∈ shiftSpans f.tail.length (f.withRest spans),
      Reported f.pending s := by
  intro x hx
  obtain ⟨s, hs, hlt, rfl⟩ := mem_shiftSpans.1 hx
  have hspan : s.start < s.stop ∧ s.stop ≤ (f.tail ++ f.pending).length
      ∧ s.label ≠ [] := by
    unfold StreamFilter.withRest at hs
    split at hs
    case isTrue => exact run_reported hrun s hs
    case isFalse hrest =>
      rcases List.mem_append.1 hs with hs | hs
      · exact run_reported hrun s hs
      · rw [List.mem_singleton.1 hs] at hlt ⊢
        exact ⟨hlt, Nat.le_refl _, hrest⟩
  rw [List.length_append] at hspan
  exact ⟨by simp only; omega, by simp only; omega, hspan.2.2⟩

theorem ranges_clip {cut : Nat} (h : ∀ s ∈ found, Reported f.pending s) :
    Ranges (f.pending.take cut) (clipSpans cut found) := by
  intro x hx
  obtain ⟨s, hs, hlt, rfl⟩ := mem_clipSpans.1 hx
  obtain ⟨hs1, hs2, -⟩ := h s hs
  simp only [List.length_take]
  omega

end Found

-- ============================================================ the release

/-- An open match is a span that runs to the end of the text. -/
theorem openStart_spec {len base start : Nat} {spans : List Span}
    (h : openStart len base spans = some start) :
    ∃ s ∈ spans, s.start = start ∧ len ≤ s.stop ∧ base < s.stop := by
  suffices hfold : ∀ first, spans.foldl (fun first s =>
        if len ≤ s.stop ∧ base < s.stop ∧ first.all fun o => s.start < o
        then some s.start else first) first = some start →
      first = some start
        ∨ ∃ s ∈ spans, s.start = start ∧ len ≤ s.stop ∧ base < s.stop by
    rcases hfold none h with hnone | hs
    · cases hnone
    · exact hs
  clear h
  induction spans with
  | nil => exact fun first h => .inl h
  | cons s rest ih =>
      intro first h
      rw [List.foldl_cons] at h
      rcases ih _ h with hfirst | ⟨x, hx, hspec⟩
      · split at hfirst
        case isTrue hs =>
          rw [Option.some.injEq] at hfirst
          exact .inr ⟨s, List.mem_cons_self, hfirst, hs.1, hs.2.1⟩
        case isFalse => exact .inl hfirst
      · exact .inr ⟨x, List.mem_cons_of_mem s hx, hspec⟩

/-- What stays the same in every release: the text and where it is cut. -/
theorem release_text {cut : Nat} {f g : StreamFilter} {final : Bool}
    {out : List Piece} (h : f.release window found cut final = (g, out)) :
    g.pending = f.pending.drop cut ∧ g.done = f.done
      ∧ out = applyMasksFrom (f.pending.take cut)
        (clipSpans cut (shiftSpans f.tail.length found)) f.isOpen := by
  unfold StreamFilter.release at h
  simp only at h
  split at h
  case h_1 =>
    cases h
    exact ⟨rfl, rfl, rfl⟩
  case h_2 =>
    split at h
    case isTrue =>
      split at h
      all_goals
        cases h
        exact ⟨rfl, rfl, rfl⟩
    case isFalse =>
      cases h
      exact ⟨rfl, rfl, rfl⟩

section Sent

variable {p : Pipeline} {f g : StreamFilter} {spans : List Span}
  {sent out : List Piece} {cut : Nat} {final : Bool}

/-- What is released stands for the held text up to the cut. -/
theorem source_release
    (hrun : p.run (f.tail ++ f.pending) Detector.live = .ok spans)
    (hrel : f.release p.streamWindow (f.withRest spans) cut final = (g, out)) :
    source (sent ++ out) = source sent ++ f.pending.take cut := by
  obtain ⟨-, -, rfl⟩ := release_text hrel
  rw [source_append, source_applyMasksFrom (ranges_clip (reported_found hrun))]

theorem tiled_release (hsent : Tiled sent)
    (hrun : p.run (f.tail ++ f.pending) Detector.live = .ok spans)
    (hrel : f.release p.streamWindow (f.withRest spans) cut final = (g, out)) :
    Tiled (sent ++ out) := by
  obtain ⟨-, -, rfl⟩ := release_text hrel
  exact hsent.append (tiled_applyMasksFrom (ranges_clip (reported_found hrun)))

/-- A push adds the delta to what the filter was given. -/
theorem received_push {delta : Text} (hlive : p.live = true)
    (hdone : c.filter.done = false)
    (hstep : channelStep p c (.push delta) = some c') :
    c'.received = c.received ++ delta := by
  obtain ⟨out, hsent, hcall⟩ := channelStep_eq_some hstep
  rcases push_cases hlive hdone hcall with ⟨rfl, hload⟩
    | ⟨g, spans, hload, hrun, hrel⟩
  · rw [Channel.received, hsent, List.append_nil, hload.pending,
      Channel.received, List.append_assoc]
  · obtain ⟨hpending, -, -⟩ := release_text hrel
    rw [Channel.received, hsent, source_release hrun hrel, hpending,
      List.append_assoc, List.take_append_drop, hload.pending,
      Channel.received, List.append_assoc]

/-- A finish releases all that the filter was given. -/
theorem source_finish (hlive : p.live = true) (hdone : c.filter.done = false)
    (hstep : channelStep p c .finish = some c') :
    source c'.sent = c.received ∧ c'.filter.pending = [] := by
  obtain ⟨out, hsent, hcall⟩ := channelStep_eq_some hstep
  rcases finish_cases hlive hdone hcall with ⟨hnil, hnil', rfl⟩
    | ⟨spans, g, hrun, hrel, hg⟩
  · rw [hsent, Channel.received, hnil, List.append_nil, List.append_nil]
    exact ⟨rfl, hnil'⟩
  · obtain ⟨hpending, -, -⟩ := release_text hrel
    rw [hsent, source_release hrun hrel, List.take_length, hg]
    exact ⟨rfl, by rw [hpending, List.drop_length]⟩

end Sent

/-- What a release leaves as context: the last window; or, for a match
that may go on, the text from its start; or, when that is too long, the
last window and a label for the rest of the channel. -/
theorem release_context {cut : Nat} {f g : StreamFilter} {final : Bool}
    {out : List Piece} (h : f.release window found cut final = (g, out)) :
    (g.isOpen = false ∧ g.maskRest = f.maskRest
        ∧ g.tail = lookBehind window (f.tail ++ f.pending.take cut))
      ∨ (g.isOpen = true ∧ g.pending = []
        ∧ ∃ s ∈ found, (f.tail ++ f.pending).length ≤ s.stop
          ∧ f.tail.length < s.stop ∧ ((g.maskRest = f.maskRest
              ∧ g.tail = (f.tail ++ f.pending.take cut).drop s.start)
            ∨ (maxOpenContextBytes
                < (f.tail ++ f.pending.take cut).length - s.start
              ∧ g.maskRest = ((clipSpans cut
                (shiftSpans f.tail.length found)).getLast?.map
                  Lib.Span.label).getD []))) := by
  unfold StreamFilter.release at h
  simp only at h
  split at h
  case h_1 =>
    cases h
    exact .inl ⟨rfl, rfl, rfl⟩
  case h_2 start hopen =>
    obtain ⟨s, hs, rfl, hlen, hbase⟩ := openStart_spec hopen
    split at h
    case isTrue hempty =>
      right
      have hnil : f.pending.drop cut = [] := by
        simp only [Bool.and_eq_true, List.isEmpty_iff] at hempty
        exact hempty.2
      split at h
      case isTrue =>
        cases h
        exact ⟨rfl, hnil, s, hs, hlen, hbase, .inl ⟨rfl, rfl⟩⟩
      case isFalse hlong =>
        cases h
        exact ⟨rfl, hnil, s, hs, hlen, hbase, .inr ⟨by omega, rfl⟩⟩
    case isFalse =>
      cases h
      exact .inl ⟨rfl, rfl, rfl⟩

end Elitea.Guardrail
