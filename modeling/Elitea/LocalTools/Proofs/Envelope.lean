/-
An envelope's update replaces its chunks.

# The chunks

`placeChunk_step` says what one chunk does: it is looked for after its
anchor, and either its old lines are found there in full (`Step.Lands`) or
they are nowhere from there on (`Step.Short`). In the second case the code
has dropped a last empty old line and looked again; a chunk lands exactly
when it is not short.

# The text

The replacements, sorted, are one after the other, so the new lines are
the original's with these replaced (`Lib.Spliced`) and the reported ranges
are where the inserted lines are. Inserted lines end with the file's usual
ending, and so does a line that had none and is no longer the last; the
lines of the new text are these and no others (`proper_endLines`).
-/
import Mathlib.Data.List.Sort
import Elitea.Lib.Splice
import Elitea.LocalTools.Proofs.EnvelopeSeek

namespace Elitea.LocalTools.Envelope

open Lib
open Lib.Lines

variable {new pattern : List Text} {pass : Pass} {length low start : Nat}

-- ==================================================================== steps

/-- What placing one chunk did: where its lines were looked for, where the
next chunk's are, and what it replaces. -/
structure Step where
  parsed : ParsedChunk
  low : Nat
  next : Nat
  replacements : List Replacement

namespace Step

/-- The lines the chunk expects. -/
def old (step : Step) : List Text := step.parsed.body.filterMap Line.old?

/-- The chunk is looked for after its anchor, which is found from the
cursor on. -/
def Anchored (ls : List Text) (cursor : Nat) (step : Step) : Prop :=
  match step.parsed.changeContext with
  | none => step.low = cursor
  | some context =>
      ∃ k pass, Seeked ls [context] cursor k pass ∧ step.low = k + 1

/-- The chunk's lines are nowhere from there on. -/
def Short (ls : List Text) (step : Step) : Prop :=
  step.old ≠ [] ∧ ∀ pass q, step.low ≤ q → ¬ MatchesAt pass ls step.old q

/-- The chunk's lines are found at `s`, and those it removes are replaced
by those it adds between the same context lines. -/
structure Found (ls : List Text) (step : Step) (s : Nat) (pass : Pass) :
    Prop where
  seeked : ∃ low, step.low ≤ low
    ∧ (low = step.low ∨ (step.parsed.isEndOfFile = true
      ∧ low = max (ls.length - step.old.length) step.low))
    ∧ Seeked ls step.old low s pass
  next : step.next = s + step.old.length
  runs : step.replacements = bodyRuns s 0 [] step.parsed.body
  removed : ∀ k, Drops step.replacements k
    ↔ RemovedAt s step.parsed.body k
  added : step.replacements.flatMap Replacement.segment
    = step.parsed.body.filterMap addedText?

/-- The chunk does what it says: without old lines it adds its lines after
its anchor or at the end; with old lines these are found and replaced. -/
def Lands (ls : List Text) (step : Step) : Prop :=
  (step.old = [] ∧ step.next = step.low
    ∧ step.replacements = [⟨if step.parsed.changeContext.isSome
        then step.low else ls.length, 0,
      step.parsed.body.filterMap addedText?⟩])
  ∨ (step.old ≠ [] ∧ ∃ s pass, step.Found ls s pass)

/-- What holds of every chunk that was placed. -/
structure Placed (ls : List Text) (cursor : Nat) (step : Step) : Prop where
  anchored : step.Anchored ls cursor
  cursor_le : cursor ≤ step.low
  low_le : step.low ≤ step.next
  next_le : step.next ≤ ls.length
  lands_iff : step.Lands ls ↔ ¬ step.Short ls
  inside : ∀ r ∈ step.replacements, r.start + r.oldLen ≤ ls.length
  flat : ∀ r ∈ step.replacements, ∀ text ∈ r.segment, '\n' ∉ text

end Step

section Placing

variable {ls : List Text} {path : Text} {parsed : ParsedChunk}
  {cursor : Nat}

theorem Seeked.stop_le {k : Nat} (h : Seeked ls pattern start k pass)
    (hne : pattern ≠ []) : k + pattern.length ≤ ls.length :=
  h.matched.length hne

theorem seekAnchor_ok {chunk : UpdateFileChunk}
    (h : seekAnchor ls path chunk cursor = .ok (low, pass)) :
    (match chunk.changeContext with
      | none => low = cursor
      | some context =>
          ∃ k pass, Seeked ls [context] cursor k pass ∧ low = k + 1)
      ∧ cursor ≤ low ∧ (cursor ≤ ls.length → low ≤ ls.length) := by
  unfold seekAnchor at h
  cases hcontext : chunk.changeContext with
  | none =>
      rw [hcontext] at h
      obtain ⟨rfl, -⟩ := Prod.mk.inj (Except.ok.inj h)
      exact ⟨rfl, Nat.le_refl _, id⟩
  | some context =>
      rw [hcontext] at h
      dsimp only at h
      split at h
      next k how hseek =>
        obtain ⟨rfl, -⟩ := Prod.mk.inj (Except.ok.inj h)
        have hne : [context] ≠ [] := List.cons_ne_nil _ _
        obtain ⟨low, -, hlow, hseeked⟩ := seekSequence_ok hne hseek
        obtain rfl : low = cursor := by
          rcases hlow with hlow | ⟨hfalse, -⟩
          · exact hlow
          · cases hfalse
        have hle := hseeked.le
        have hstop := hseeked.stop_le hne
        exact ⟨⟨k, how, hseeked, rfl⟩, by omega, fun _ => hstop⟩
      next => cases h

theorem run_inside {o n o' n' : Nat} (ho : o ≤ pattern.length)
    (ho' : o' ≤ pattern.length) :
    ∀ r ∈ run start new o n o' n',
      r.start + r.oldLen ≤ start + pattern.length
        ∧ ∀ text ∈ r.segment, text ∈ new := by
  intro r hr
  unfold run at hr
  split at hr
  · obtain rfl := List.mem_singleton.1 hr
    refine ⟨by dsimp only; omega, fun text htext => ?_⟩
    exact List.mem_of_mem_take (List.mem_of_mem_drop htext)
  · cases hr

/-- Replacements stay inside the lines that were found. -/
theorem contextRuns_inside {contexts : List (Nat × Nat)} {o n : Nat}
    (ho : o ≤ pattern.length) :
    ∀ r ∈ contextRuns start pattern new o n contexts,
      r.start + r.oldLen ≤ start + pattern.length
        ∧ ∀ text ∈ r.segment, text ∈ new := by
  induction contexts generalizing o n with
  | nil =>
      rw [contextRuns]
      exact run_inside ho (Nat.le_refl _)
  | cons context contexts ih =>
      obtain ⟨oldContext, newContext⟩ := context
      rw [contextRuns]
      split
      · exact run_inside ho (Nat.le_refl _)
      next hnot =>
        have hlt : oldContext < pattern.length := by omega
        intro r hr
        rcases List.mem_append.1 hr with hr | hr
        · exact run_inside ho (by omega) r hr
        · exact ih (by omega) r hr

/-- A chunk without old lines has added lines only. -/
theorem newText_of_no_old {body : List Line}
    (h : body.filterMap Line.old? = []) :
    body.filterMap newText? = body.filterMap addedText? := by
  induction body with
  | nil => rfl
  | cons line body ih =>
      cases line with
      | context text => cases h
      | remove text => cases h
      | add text => exact congrArg (text :: ·) (ih h)

theorem flat_newLines (parsed : ParsedChunk) :
    ∀ text ∈ parsed.chunk.newLines, '\n' ∉ text := by
  intro text htext
  rw [chunk_newLines] at htext
  obtain ⟨line, hline, htext⟩ := List.mem_filterMap.1 htext
  have hflat := parsed.flat line hline
  cases line with
  | context t =>
      obtain rfl := Option.some.inj htext
      exact hflat
  | remove t => cases htext
  | add t =>
      obtain rfl := Option.some.inj htext
      exact hflat

/-- A chunk that is located: its old lines, or all of them but a last
empty one when they are nowhere. -/
theorem seekChunk_ok {chunk : UpdateFileChunk}
    (h : seekChunk ls chunk low = .ok ((start, pass), pattern, new)) :
    (seekSequence ls chunk.oldLines low chunk.isEndOfFile
        = .ok (start, pass)
      ∧ pattern = chunk.oldLines ∧ new = chunk.newLines)
    ∨ (seekSequence ls chunk.oldLines low chunk.isEndOfFile
        = .error .notFound
      ∧ seekSequence ls pattern low chunk.isEndOfFile = .ok (start, pass)
      ∧ ∀ text ∈ new, text ∈ chunk.newLines) := by
  unfold seekChunk at h
  split at h
  next found hfound =>
    obtain ⟨rfl, hrest⟩ := Prod.mk.inj (Except.ok.inj h)
    obtain ⟨rfl, rfl⟩ := Prod.mk.inj hrest
    exact .inl ⟨hfound, rfl, rfl⟩
  next hnone =>
    split at h
    next =>
      dsimp only at h
      split at h
      next found hfound =>
        obtain ⟨rfl, hrest⟩ := Prod.mk.inj (Except.ok.inj h)
        obtain ⟨rfl, rfl⟩ := Prod.mk.inj hrest
        refine .inr ⟨hnone, hfound, fun text htext => ?_⟩
        unfold dropBlankLast at htext
        split at htext
        · exact List.dropLast_subset _ htext
        · exact htext
      next => cases h
    next => cases h
  next => cases h

theorem seekSequence_inside {k : Nat} {eof : Bool} (hlow : low ≤ ls.length)
    (h : seekSequence ls pattern low eof = .ok (k, pass)) :
    low ≤ k ∧ k + pattern.length ≤ ls.length := by
  by_cases hne : pattern = []
  · subst hne
    obtain ⟨rfl, -⟩ := Prod.mk.inj (Except.ok.inj h)
    exact ⟨Nat.le_refl _, hlow⟩
  · obtain ⟨low', hle, -, hseeked⟩ := seekSequence_ok hne h
    exact ⟨hle.trans hseeked.le, hseeked.stop_le hne⟩

/-- What placing a chunk does. -/
theorem placeChunk_step {replacements : List Replacement} {next : Nat}
    (hcursor : cursor ≤ ls.length) (h : placeChunk ls path parsed.chunk cursor
      = .ok (replacements, pass, next)) :
    ∃ low, Step.Placed ls cursor ⟨parsed, low, next, replacements⟩ := by
  unfold placeChunk at h
  obtain ⟨⟨low, chunkPass⟩, hanchor, h⟩ := bind_eq_ok.1 h
  obtain ⟨hanchored, hcursorLow, hlowLen⟩ := seekAnchor_ok hanchor
  have hlow := hlowLen hcursor
  rw [chunk_changeContext] at hanchored
  refine ⟨low, ?_⟩
  dsimp only at h
  have hold : parsed.chunk.oldLines
      = (Step.mk parsed low next replacements).old := chunk_oldLines parsed
  split at h
  next hempty =>
    obtain ⟨rfl, hrest⟩ := Prod.mk.inj (Except.ok.inj h)
    obtain ⟨-, rfl⟩ := Prod.mk.inj hrest
    have hnil : (parsed.body.filterMap Line.old?) = [] := by
      rw [← chunk_oldLines]
      exact List.isEmpty_iff.1 hempty
    have hnew := newText_of_no_old hnil
    refine ⟨hanchored, hcursorLow, Nat.le_refl _, hlow, ?_, ?_, ?_⟩
    · refine iff_of_true (.inl ⟨hnil, rfl, ?_⟩) fun hshort =>
        hshort.1 hnil
      rw [chunk_newLines, chunk_changeContext, hnew]
    · intro r hr
      obtain rfl := List.mem_singleton.1 hr
      dsimp only
      split
      · exact hlow
      · exact Nat.le_refl _
    · intro r hr text htext
      obtain rfl := List.mem_singleton.1 hr
      exact flat_newLines parsed text htext
  next hnonempty =>
    have hne : parsed.chunk.oldLines ≠ [] :=
      fun hnil => hnonempty (List.isEmpty_iff.2 hnil)
    split at h
    next => cases h
    next start how pattern new hseek =>
      obtain ⟨rfl, hrest⟩ := Prod.mk.inj (Except.ok.inj h)
      obtain ⟨-, rfl⟩ := Prod.mk.inj hrest
      have hinside : ∀ r ∈ contextRuns start pattern new 0 0
            parsed.chunk.contextLineIndices,
          r.start + r.oldLen ≤ start + pattern.length
            ∧ ∀ text ∈ r.segment, text ∈ new :=
        contextRuns_inside (Nat.zero_le _)
      rcases seekChunk_ok hseek with ⟨hfound, rfl, rfl⟩
        | ⟨hnone, hfound, hnewIn⟩
      · obtain ⟨hle, hstop⟩ := seekSequence_inside hlow hfound
        have hseeked := seekSequence_ok hne hfound
        rw [chunk_isEndOfFile] at hseeked
        refine ⟨hanchored, hcursorLow, by dsimp only; omega, hstop, ?_,
          fun r hr => (hinside r hr).1.trans hstop,
          fun r hr text htext => flat_newLines parsed text
            ((hinside r hr).2 text htext)⟩
        refine iff_of_true (.inr ⟨hold ▸ hne, start, how, ?_⟩) ?_
        · refine ⟨?_, ?_, chunk_runs parsed start, fun k => ?_, ?_⟩
          · rw [← hold]
            exact hseeked
          · rw [← hold]
          · rw [chunk_runs, drops_bodyRuns, Nat.add_zero]
            exact ⟨fun h => h.resolve_left (by omega), .inr⟩
          · rw [chunk_runs, segments_bodyRuns]
            rfl
        · rintro ⟨-, hnone⟩
          obtain ⟨low', hle', -, hseeked⟩ := hseeked
          rw [← hold] at hnone
          exact hnone how start hle hseeked.matched
      · obtain ⟨hle, hstop⟩ := seekSequence_inside hlow hfound
        have hshort : Step.Short ls ⟨parsed, low, start + pattern.length,
            contextRuns start pattern new 0 0
              parsed.chunk.contextLineIndices⟩ := by
          refine ⟨hold ▸ hne, ?_⟩
          rw [← hold]
          exact (seekSequence_notFound hne).1 hnone
        refine ⟨hanchored, hcursorLow, by dsimp only; omega, hstop, ?_,
          fun r hr => (hinside r hr).1.trans hstop,
          fun r hr text htext => flat_newLines parsed text
            (hnewIn text ((hinside r hr).2 text htext))⟩
        refine iff_of_false ?_ (not_not.2 hshort)
        rintro (⟨hnil, -⟩ | ⟨-, s, how', hfull⟩)
        · exact hshort.1 hnil
        · obtain ⟨low', hle', -, hseeked⟩ := hfull.seeked
          exact hshort.2 how' s (hle'.trans hseeked.le) hseeked.matched

/-- The steps follow each other: each chunk is looked for from where the
one before it ends. -/
def Chained (ls : List Text) : Nat → List Step → Prop
  | _, [] => True
  | cursor, step :: rest =>
      step.Placed ls cursor ∧ Chained ls step.next rest

theorem placeChunks_steps {parsed : List ParsedChunk}
    {replacements : List Replacement} {passes : List Pass}
    (hcursor : cursor ≤ ls.length)
    (h : placeChunks ls path cursor (parsed.map ParsedChunk.chunk)
      = .ok (replacements, passes)) :
    ∃ steps : List Step, steps.map Step.parsed = parsed
      ∧ Chained ls cursor steps
      ∧ replacements = steps.flatMap Step.replacements := by
  induction parsed generalizing cursor replacements passes with
  | nil =>
      obtain ⟨rfl, -⟩ := Prod.mk.inj (Except.ok.inj h)
      exact ⟨[], rfl, trivial, rfl⟩
  | cons first parsed ih =>
      rw [List.map_cons, placeChunks] at h
      obtain ⟨⟨mine, pass, next⟩, hmine, h⟩ := bind_eq_ok.1 h
      obtain ⟨⟨later, passes'⟩, hlater, h⟩ := bind_eq_ok.1 h
      obtain ⟨rfl, -⟩ := Prod.mk.inj (Except.ok.inj h)
      obtain ⟨low, hplaced⟩ := placeChunk_step hcursor hmine
      obtain ⟨steps, hsteps, hchained, rfl⟩ := ih hplaced.next_le hlater
      refine ⟨⟨first, low, next, mine⟩ :: steps, ?_, ⟨hplaced, hchained⟩,
        rfl⟩
      rw [List.map_cons, hsteps]

theorem Chained.mem {steps : List Step} (h : Chained ls cursor steps)
    {step : Step} (hstep : step ∈ steps) : ∃ c, step.Placed ls c := by
  induction steps generalizing cursor with
  | nil => cases hstep
  | cons first steps ih =>
      rcases List.mem_cons.1 hstep with rfl | hstep
      · exact ⟨cursor, h.1⟩
      · exact ih h.2 hstep

end Placing

-- ================================================================= the text

/-- A replacement as a range of lines. -/
def Replacement.block (preferred : Text) (r : Replacement) :
    Block SourceLine :=
  ⟨r.start, r.start + r.oldLen, r.segment.map (⟨·, some preferred⟩)⟩

section Applying

variable {preferred : Text} {replacements : List Replacement}

/-- Sorted replacements without a clash are one after the other. -/
theorem inOrder_of_sorted {position : Nat}
    (hsorted : replacements.Pairwise fun a b => a.start ≤ b.start)
    (hclash : clash replacements = false)
    (hinside : ∀ r ∈ replacements, r.start + r.oldLen ≤ length)
    (hfirst : ∀ r ∈ replacements.head?, position ≤ r.start) :
    InOrder position length
      (replacements.map (Replacement.block preferred)) := by
  induction replacements generalizing position with
  | nil => trivial
  | cons a rest ih =>
      obtain ⟨hlen, hlater⟩ := List.forall_mem_cons.1 hinside
      refine ⟨hfirst a rfl, Nat.le_add_right _ _, hlen, ?_⟩
      cases rest with
      | nil => trivial
      | cons b rest =>
          rw [clash, Bool.or_eq_false_iff, decide_eq_false_iff_not] at hclash
          refine ih (List.pairwise_cons.1 hsorted).2 hclash.2 hlater ?_
          intro r hr
          obtain rfl := Option.some.inj hr
          exact not_lt.1 hclash.1

theorem applyFrom_eq {position : Nat} {lines : List SourceLine}
    (h : InOrder position length
      (replacements.map (Replacement.block preferred))) :
    applyFrom preferred position lines replacements
      = Lib.splice position lines
        (replacements.map (Replacement.block preferred)) := by
  induction replacements generalizing position lines with
  | nil => rfl
  | cons r rest ih =>
      obtain ⟨hle, hstop, -, hlater⟩ := h
      change position ≤ r.start at hle
      change InOrder (r.start + r.oldLen) length _ at hlater
      have hdrop : (lines.drop (r.start - position)).drop r.oldLen
          = lines.drop (r.start + r.oldLen - position) := by
        rw [List.drop_drop]
        congr 1
        omega
      rw [applyFrom, List.map_cons, Lib.splice, hdrop, ih hlater]
      rfl

/-- The reported ranges are where the inserted lines are. -/
theorem changedFrom_eq {i j : Nat}
    (h : InOrder i length (replacements.map (Replacement.block preferred))) :
    changedFrom ((j : Int) - i) replacements
      = places i j (replacements.map (Replacement.block preferred)) := by
  induction replacements generalizing i j with
  | nil => rfl
  | cons r rest ih =>
      obtain ⟨hle, -, -, hlater⟩ := h
      change i ≤ r.start at hle
      change InOrder (r.start + r.oldLen) length _ at hlater
      have hfirst : ((r.start : Int) + ((j : Int) - i)).toNat
          = j + (r.start - i) := by
        omega
      have hshift : (j : Int) - i + ((r.segment.length : Int) - r.oldLen)
          = ((j + (r.start - i) + r.segment.length : Nat) : Int)
            - ((r.start + r.oldLen : Nat) : Int) := by
        omega
      rw [changedFrom, List.map_cons, places, hfirst, hshift, ih hlater]
      simp [Replacement.block]

end Applying

-- ================================================================== endings

/-- A line as a file can have it: ended by a line feed, or without an
ending and not empty. -/
def SourceLine.Good (line : SourceLine) : Prop :=
  (line.ending ≠ none ∧ Terminated line.raw)
    ∨ (line.ending = none ∧ line.text ≠ [] ∧ '\n' ∉ line.text)

section Endings

variable {preferred : Text}

theorem isEnding_usualEnding (text : Text) : IsEnding (usualEnding text) := by
  unfold usualEnding
  dsimp only
  split
  · exact .inr rfl
  · exact .inl rfl

theorem terminated_append {text ending : Text} (h : IsEnding ending)
    (htext : '\n' ∉ text) : Terminated (text ++ ending) := by
  rcases h with rfl | rfl
  · exact terminated_lf htext
  · exact terminated_crlf htext

theorem good_ofLine {line : Text} (h : LastLine line) :
    (SourceLine.ofLine line).Good := by
  unfold SourceLine.Good SourceLine.raw SourceLine.ofLine
  by_cases hnone : endingOf line = []
  · rw [if_pos hnone, stripEnding_of_none hnone]
    refine .inr ⟨rfl, ?_⟩
    rcases h with h | h
    · exact absurd hnone h.endingOf_ne
    · exact h
  · rw [if_neg hnone]
    refine .inl ⟨(fun h => nomatch h), ?_⟩
    have hraw : stripEnding line ++ (some (endingOf line)).getD [] = line :=
      strip_append_ending line
    rw [hraw]
    rcases h with h | ⟨-, hno⟩
    · exact h
    · refine absurd (endingOf_eq_nil_iff.2 fun t ht => hno ?_) hnone
      rw [ht]
      exact List.mem_append_right t (List.mem_singleton.2 rfl)

theorem SourceLine.Good.last {line : SourceLine} (h : line.Good) :
    LastLine line.raw := by
  rcases h with ⟨-, h⟩ | ⟨hnone, h⟩
  · exact .inl h
  · refine .inr ?_
    unfold SourceLine.raw
    rw [hnone, Option.getD_none, List.append_nil]
    exact h

/-- A line that is given an ending where it has none. -/
theorem SourceLine.Good.ended {line : SourceLine} (h : line.Good)
    (hpreferred : IsEnding preferred) :
    Terminated (SourceLine.raw
      { line with ending := some (line.ending.getD preferred) }) := by
  rcases h with ⟨hsome, h⟩ | ⟨hnone, -, hno⟩
  · obtain ⟨ending, hending⟩ := Option.ne_none_iff_exists'.1 hsome
    unfold SourceLine.raw at h ⊢
    rw [hending] at h ⊢
    exact h
  · unfold SourceLine.raw
    rw [hnone]
    exact terminated_append hpreferred hno

/-- The lines of the new text are cut where they end. -/
theorem proper_endLines {out : List SourceLine}
    (hgood : ∀ line ∈ out, line.Good) (hpreferred : IsEnding preferred) :
    Proper ((endLines preferred out).map SourceLine.raw) := by
  induction out with
  | nil => trivial
  | cons line rest ih =>
      obtain ⟨hline, hrest⟩ := List.forall_mem_cons.1 hgood
      cases rest with
      | nil => exact hline.last
      | cons next rest =>
          have hlater := ih hrest
          rw [endLines, List.map_cons]
          refine proper_cons_iff.2 (.inr ⟨?_, hline.ended hpreferred,
            hlater⟩)
          cases rest with
          | nil => exact List.cons_ne_nil _ _
          | cons more rest => exact List.cons_ne_nil _ _

end Endings

-- ============================================================== the result

/-- The replacements of all chunks, in the order of the lines. -/
def sortedReplacements (steps : List Step) : List Replacement :=
  (steps.flatMap Step.replacements).insertionSort
    fun a b => a.start ≤ b.start

theorem sortedReplacements_sorted (steps : List Step) :
    (sortedReplacements steps).Pairwise fun a b => a.start ≤ b.start := by
  have htotal : Std.Total fun a b : Replacement => a.start ≤ b.start :=
    ⟨fun a b => Nat.le_total a.start b.start⟩
  have htrans : IsTrans Replacement fun a b => a.start ≤ b.start :=
    ⟨fun _ _ _ => Nat.le_trans⟩
  exact List.pairwise_insertionSort _ _

/-- What an update is made of. -/
theorem derive_steps {original path : Text} {parsed : List ParsedChunk}
    {derived : Derived}
    (h : deriveNewContents original path (parsed.map ParsedChunk.chunk)
      = .ok derived) :
    ∃ steps : List Step, steps.map Step.parsed = parsed
      ∧ Chained ((sourceLines original).map SourceLine.text) 0 steps
      ∧ clash (sortedReplacements steps) = false
      ∧ derived.content = ((endLines (usualEnding original)
        (applyFrom (usualEnding original) 0 (sourceLines original)
          (sortedReplacements steps))).map SourceLine.raw).flatten
      ∧ derived.changed = changedFrom 0 (sortedReplacements steps) := by
  unfold deriveNewContents at h
  obtain ⟨⟨replacements, passes⟩, hcompute, h⟩ := bind_eq_ok.1 h
  obtain ⟨hclash, h⟩ := ite_error_eq_ok.1 h
  obtain rfl := Except.ok.inj h
  unfold computeReplacements at hcompute
  obtain ⟨⟨unsorted, passes'⟩, hplace, hcompute⟩ := bind_eq_ok.1 hcompute
  obtain ⟨rfl, rfl⟩ := Prod.mk.inj (Except.ok.inj hcompute)
  obtain ⟨steps, hsteps, hchained, rfl⟩ :=
    placeChunks_steps (Nat.zero_le _) hplace
  exact ⟨steps, hsteps, hchained, Bool.not_eq_true _ ▸ hclash, rfl, rfl⟩

/-- Each replacement is one of a chunk that was placed. -/
theorem mem_sortedReplacements {ls : List Text} {cursor : Nat}
    {steps : List Step} (h : Chained ls cursor steps) {r : Replacement}
    (hr : r ∈ sortedReplacements steps) :
    r.start + r.oldLen ≤ ls.length
      ∧ ∀ text ∈ r.segment, '\n' ∉ text := by
  obtain ⟨step, hstep, hr⟩ :=
    List.mem_flatMap.1 ((List.mem_insertionSort _).1 hr)
  obtain ⟨c, hplaced⟩ := h.mem hstep
  exact ⟨hplaced.inside r hr, hplaced.flat r hr⟩

/-- An update replaces its chunks. The chunks are placed one after the
other, each from where the one before ends and after its anchor; a chunk
lands, its old lines found there and those it removes replaced by those it
adds between the same context lines, exactly when it is not short. The new
lines are the original's with the replacements made and nothing else
changed; the reported ranges are those of the inserted lines; and the new
text is these lines, each with its own ending, the inserted ones and a
last line that is not last any more with the file's usual one. -/
theorem update_replaces {original path : Text} {parsed : List ParsedChunk}
    {derived : Derived}
    (h : deriveNewContents original path (parsed.map ParsedChunk.chunk)
      = .ok derived) :
    ∃ (steps : List Step) (out : List SourceLine),
      steps.map Step.parsed = parsed
      ∧ Chained ((sourceLines original).map SourceLine.text) 0 steps
      ∧ (∀ step ∈ steps,
        step.Lands ((sourceLines original).map SourceLine.text)
          ↔ ¬ step.Short ((sourceLines original).map SourceLine.text))
      ∧ Spliced 0 0 (sourceLines original)
        ((sortedReplacements steps).map
          (Replacement.block (usualEnding original))) out derived.changed
      ∧ splitInclusive derived.content
        = (endLines (usualEnding original) out).map SourceLine.raw := by
  obtain ⟨steps, hsteps, hchained, hclash, hcontent, hchanged⟩ :=
    derive_steps h
  have horder : InOrder 0 (sourceLines original).length
      ((sortedReplacements steps).map
        (Replacement.block (usualEnding original))) := by
    refine inOrder_of_sorted (sortedReplacements_sorted steps) hclash
      (fun r hr => ?_) fun _ _ => Nat.zero_le _
    have hinside := (mem_sortedReplacements hchained hr).1
    rwa [List.length_map] at hinside
  refine ⟨steps, Lib.splice 0 (sourceLines original)
    ((sortedReplacements steps).map
      (Replacement.block (usualEnding original))), hsteps, hchained,
    fun step hstep => ?_, ?_, ?_⟩
  · obtain ⟨c, hplaced⟩ := hchained.mem hstep
    exact hplaced.lands_iff
  · have hplaces := changedFrom_eq (i := 0) (j := 0) horder
    rw [hchanged]
    rw [Int.sub_self] at hplaces
    rw [hplaces]
    exact spliced_splice (by rw [Nat.zero_add]; exact horder)
  · rw [hcontent, applyFrom_eq horder]
    refine splitInclusive_flatten (proper_endLines (fun line hline => ?_)
      (isEnding_usualEnding original))
    rcases mem_splice hline with hline | ⟨block, hblock, hline⟩
    · obtain ⟨raw, hraw, rfl⟩ := List.mem_map.1 hline
      exact good_ofLine ((proper_splitInclusive original).lastLine raw hraw)
    · obtain ⟨r, hr, rfl⟩ := List.mem_map.1 hblock
      obtain ⟨text, htext, rfl⟩ := List.mem_map.1 hline
      have hflat := (mem_sortedReplacements hchained hr).2 text htext
      refine .inl ⟨(fun h => nomatch h), ?_⟩
      exact terminated_append (isEnding_usualEnding original) hflat

/-- A line replaced after a context line, and one added further down. -/
def twoChunks : List ParsedChunk :=
  [⟨none, [.context ['a'], .remove ['b'], .add ['c']], false, by
      simp [Line.Flat]⟩,
    ⟨none, [.context ['d'], .add ['e']], false, by simp [Line.Flat]⟩]

theorem update_replaces_two :
    let original : Text := "a\nb\nx\nd".toList
    deriveNewContents original [] (twoChunks.map ParsedChunk.chunk)
        = .ok ⟨"a\nc\nx\nd\ne\n".toList, [.exact, .exact],
          [(1, 2), (4, 5)]⟩
      ∧ ∃ (steps : List Step) (out : List SourceLine),
        steps.map Step.parsed = twoChunks
        ∧ Chained ((sourceLines original).map SourceLine.text) 0 steps
        ∧ (∀ step ∈ steps,
          step.Lands ((sourceLines original).map SourceLine.text)
            ↔ ¬ step.Short ((sourceLines original).map SourceLine.text))
        ∧ Spliced 0 0 (sourceLines original)
          ((sortedReplacements steps).map
            (Replacement.block (usualEnding original))) out [(1, 2), (4, 5)]
        ∧ splitInclusive "a\nc\nx\nd\ne\n".toList
          = (endLines (usualEnding original) out).map SourceLine.raw := by
  have hderive : deriveNewContents "a\nb\nx\nd".toList []
      (twoChunks.map ParsedChunk.chunk)
      = .ok ⟨"a\nc\nx\nd\ne\n".toList, [.exact, .exact],
        [(1, 2), (4, 5)]⟩ := by
    decide +kernel
  exact ⟨hderive, update_replaces hderive⟩

/-- Old lines that are not in the file. An empty context line stands
nowhere in the text: it is written with the added line, at the start of
the file when it is the only old line, and after the line before it when
there is one. -/
theorem blank_context_is_added :
    deriveNewContents "a\nb\n".toList [] [ParsedChunk.chunk ⟨none,
        [.context [], .add ['x']], false, by simp [Line.Flat]⟩]
        = .ok ⟨"\nx\na\nb\n".toList, [.exact], [(0, 2)]⟩
    ∧ deriveNewContents "a\nb\n".toList [] [ParsedChunk.chunk ⟨none,
        [.context ['a'], .context [], .add ['x']], false, by
          simp [Line.Flat]⟩]
        = .ok ⟨"a\n\nx\nb\n".toList, [.exact], [(1, 3)]⟩
    ∧ ∀ pass q, ¬ MatchesAt pass ["a".toList, "b".toList] [[]] q := by
  refine ⟨by decide +kernel, by decide +kernel, ?_⟩
  have hnone : seekSequence ["a".toList, "b".toList] [[]] 0 false
      = .error .notFound := by
    decide +kernel
  intro pass q
  exact (seekSequence_notFound (List.cons_ne_nil _ _)).1 hnone pass q
    (Nat.zero_le q)

end Elitea.LocalTools.Envelope
