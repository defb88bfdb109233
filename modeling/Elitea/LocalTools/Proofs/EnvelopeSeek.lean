/-
Where the lines of an update's chunk are found, and what replaces them.

# Seeking

`Seeked` is what a pass of the ladder finds: the first position of the
exact pass, the only one of a fuzzy pass. A sequence is not found exactly
when no pass matches it anywhere from the start on
(`seekSequence_notFound`).

# The runs of a chunk

The parser records which lines are context by their indices on both sides
(`contextIndices`). The loop over these indices makes the same runs as a
walk over the chunk's own lines (`contextRuns_body`): between two context
lines, the removed lines are replaced by the added ones. The runs cover
the removed lines and no others, and hold the added lines in their order.
-/
import Mathlib.Data.List.Forall2
import Elitea.LocalTools.Envelope

namespace Elitea.LocalTools.Envelope

open Lib
open Lib.Lines

variable {passes : List Pass} {body : List Line} {removed : Nat}
  {added : List Text}

-- ================================================================== seeking

/-- The pattern matches line for line at a position. -/
def MatchesAt (pass : Pass) (ls pattern : List Text) (k : Nat) : Prop :=
  List.Forall₂ (fun want line => pass.lineMatches line want = true) pattern
    ((ls.drop k).take pattern.length)

/-- What a pass finds from `start` on. -/
structure Seeked (ls pattern : List Text) (start k : Nat) (pass : Pass) :
    Prop where
  le : start ≤ k
  matched : MatchesAt pass ls pattern k
  first : pass = .exact →
    ∀ q, start ≤ q → MatchesAt pass ls pattern q → k ≤ q
  unique : pass ≠ .exact →
    ∀ q, start ≤ q → MatchesAt pass ls pattern q → q = k

section Seek

variable {ls pattern : List Text} {start k : Nat} {pass : Pass}

theorem MatchesAt.length (h : MatchesAt pass ls pattern k)
    (hne : pattern ≠ []) : k + pattern.length ≤ ls.length := by
  have hlen := List.Forall₂.length_eq h
  have hpos := List.length_pos_of_ne_nil hne
  rw [List.length_take, List.length_drop] at hlen
  omega

theorem seekMatches_iff (hlen : k + pattern.length ≤ ls.length) :
    seekMatches pass ls pattern k = true ↔ MatchesAt pass ls pattern k := by
  have hsame : pattern.length
      = ((ls.drop k).take pattern.length).length := by
    rw [List.length_take, List.length_drop]
    omega
  unfold seekMatches MatchesAt
  rw [List.all_eq_true, List.forall₂_iff_zip]
  constructor
  · intro h
    exact ⟨hsame, fun {a b} hab => h (a, b) hab⟩
  · rintro ⟨-, h⟩ ⟨a, b⟩ hab
    exact h hab

theorem mem_seekPositions (hne : pattern ≠ []) :
    k ∈ seekPositions ls pattern start pass
      ↔ start ≤ k ∧ MatchesAt pass ls pattern k := by
  unfold seekPositions
  by_cases hlong : pattern.length > ls.length
  · rw [if_pos (by simp [hlong])]
    refine iff_of_false List.not_mem_nil fun h => ?_
    have hlen := h.2.length hne
    omega
  · rw [if_neg (by simp [hne, hlong]), List.mem_filter, List.mem_range'_1]
    constructor
    · rintro ⟨⟨hle, hlt⟩, hmatch⟩
      exact ⟨hle, (seekMatches_iff (by omega)).1 hmatch⟩
    · rintro ⟨hle, hmatch⟩
      have hlen := hmatch.length hne
      exact ⟨⟨hle, by omega⟩, (seekMatches_iff hlen).2 hmatch⟩

theorem seekPositions_sorted :
    (seekPositions ls pattern start pass).Pairwise (· < ·) := by
  unfold seekPositions
  split
  · exact .nil
  · exact List.Pairwise.filter _ (List.pairwise_lt_range' 1)

theorem seekPass_none (hne : pattern ≠ []) :
    seekPass ls pattern start pass = .ok none
      ↔ ∀ q, start ≤ q → ¬ MatchesAt pass ls pattern q := by
  unfold seekPass
  cases hps : seekPositions ls pattern start pass with
  | nil =>
      refine iff_of_true rfl fun q hq hmatch => ?_
      have hmem := (mem_seekPositions hne).2 ⟨hq, hmatch⟩
      rw [hps] at hmem
      cases hmem
  | cons first more =>
      have hmem : first ∈ seekPositions ls pattern start pass := by
        rw [hps]
        exact List.mem_cons_self
      obtain ⟨hle, hmatch⟩ := (mem_seekPositions hne).1 hmem
      refine iff_of_false ?_ fun h => h first hle hmatch
      dsimp only
      split <;> exact fun h => nomatch h

theorem seekPass_some (hne : pattern ≠ [])
    (h : seekPass ls pattern start pass = .ok (some k)) :
    Seeked ls pattern start k pass := by
  unfold seekPass at h
  have hsorted : (seekPositions ls pattern start pass).Pairwise (· < ·) :=
    seekPositions_sorted
  have hall : ∀ q, start ≤ q → MatchesAt pass ls pattern q →
      q ∈ seekPositions ls pattern start pass :=
    fun q hq hmatch => (mem_seekPositions hne).2 ⟨hq, hmatch⟩
  cases hps : seekPositions ls pattern start pass with
  | nil =>
      rw [hps] at h
      cases h
  | cons first more =>
      rw [hps] at h hsorted hall
      dsimp only at h
      split at h
      next hcase =>
        obtain rfl := Option.some.inj (Except.ok.inj h)
        have hmem : first ∈ seekPositions ls pattern start pass := by
          rw [hps]
          exact List.mem_cons_self
        obtain ⟨hle, hmatch⟩ := (mem_seekPositions hne).1 hmem
        refine ⟨hle, hmatch, fun _ q hq hm => ?_, fun hfuzzy q hq hm => ?_⟩
        · rcases List.mem_cons.1 (hall q hq hm) with rfl | hlater
          · exact Nat.le_refl _
          · exact Nat.le_of_lt ((List.pairwise_cons.1 hsorted).1 q hlater)
        · obtain rfl := hcase.resolve_left hfuzzy
          exact List.mem_singleton.1 (hall q hq hm)
      next => cases h

theorem seekLadder_some (hne : pattern ≠ [])
    (h : seekLadder ls pattern start passes = .ok (some (k, pass))) :
    Seeked ls pattern start k pass := by
  induction passes with
  | nil => cases h
  | cons first passes ih =>
      rw [seekLadder] at h
      split at h
      next => cases h
      next found hfound =>
        obtain ⟨rfl, rfl⟩ :=
          Prod.mk.inj (Option.some.inj (Except.ok.inj h))
        exact seekPass_some hne hfound
      next => exact ih h

theorem seekLadder_none (hne : pattern ≠ []) :
    seekLadder ls pattern start passes = .ok none
      ↔ ∀ pass ∈ passes, ∀ q, start ≤ q →
        ¬ MatchesAt pass ls pattern q := by
  induction passes with
  | nil => exact iff_of_true rfl fun _ h => nomatch h
  | cons first passes ih =>
      rw [seekLadder, List.forall_mem_cons]
      cases hpass : seekPass ls pattern start first with
      | error error =>
          refine iff_of_false (fun h => nomatch h) fun h => ?_
          rw [(seekPass_none hne).2 h.1] at hpass
          cases hpass
      | ok found =>
          cases found with
          | none =>
              dsimp only
              rw [ih]
              exact ⟨fun h => ⟨(seekPass_none hne).1 hpass, h⟩, And.right⟩
          | some k =>
              refine iff_of_false (fun h => nomatch h) fun h => ?_
              rw [(seekPass_none hne).2 h.1] at hpass
              cases hpass

/-- A pass that fails found several positions. -/
theorem seekLadder_error {error : SeekError}
    (h : seekLadder ls pattern start passes = .error error) :
    error ≠ .notFound := by
  induction passes with
  | nil => cases h
  | cons first passes ih =>
      rw [seekLadder] at h
      split at h
      next error' hpass =>
        obtain rfl := Except.error.inj h
        unfold seekPass at hpass
        split at hpass
        next => cases hpass
        next =>
          split at hpass
          · cases hpass
          · obtain rfl := Except.error.inj hpass
            exact fun h => nomatch h
      next => cases h
      next => exact ih h

theorem mem_ladder (pass : Pass) : pass ∈ ladder := by
  cases pass <;> decide

theorem seekFrom_ok (hne : pattern ≠ [])
    (h : seekFrom ls pattern start = .ok (k, pass)) :
    Seeked ls pattern start k pass := by
  unfold seekFrom at h
  split at h
  next => cases h
  next found hfound =>
    obtain rfl := Except.ok.inj h
    exact seekLadder_some hne hfound
  next => cases h

theorem seekFrom_notFound (hne : pattern ≠ []) :
    seekFrom ls pattern start = .error .notFound
      ↔ ∀ pass q, start ≤ q → ¬ MatchesAt pass ls pattern q := by
  have hnone : seekLadder ls pattern start ladder = .ok none
      ↔ ∀ pass q, start ≤ q → ¬ MatchesAt pass ls pattern q := by
    rw [seekLadder_none hne]
    exact ⟨fun h pass => h pass (mem_ladder pass), fun h pass _ => h pass⟩
  rw [← hnone]
  unfold seekFrom
  cases hladder : seekLadder ls pattern start ladder with
  | error error =>
      refine iff_of_false (fun h => ?_) (fun h => nomatch h)
      exact seekLadder_error hladder (Except.error.inj h)
  | ok found =>
      cases found with
      | none => exact iff_of_true rfl rfl
      | some found =>
          exact iff_of_false (fun h => nomatch h) (fun h => nomatch h)

/-- A sequence that is found: by a pass from `start`, or from the place
that ends the file. -/
theorem seekSequence_ok {eof : Bool} (hne : pattern ≠ [])
    (h : seekSequence ls pattern start eof = .ok (k, pass)) :
    ∃ low, start ≤ low
      ∧ (low = start ∨ (eof = true
        ∧ low = max (ls.length - pattern.length) start))
      ∧ Seeked ls pattern low k pass := by
  unfold seekSequence at h
  rw [if_neg (by simpa using hne)] at h
  obtain ⟨-, h⟩ := ite_error_eq_ok.1 h
  split at h
  next heof =>
    split at h
    next => cases h
    next found hfound =>
      obtain rfl := Except.ok.inj h
      exact ⟨_, Nat.le_max_right _ _, .inr ⟨heof, rfl⟩,
        seekLadder_some hne hfound⟩
    next => exact ⟨start, Nat.le_refl _, .inl rfl, seekFrom_ok hne h⟩
  next => exact ⟨start, Nat.le_refl _, .inl rfl, seekFrom_ok hne h⟩

/-- A sequence is not found exactly when no pass matches it from `start`
on. -/
theorem seekSequence_notFound {eof : Bool} (hne : pattern ≠ []) :
    seekSequence ls pattern start eof = .error .notFound
      ↔ ∀ pass q, start ≤ q → ¬ MatchesAt pass ls pattern q := by
  unfold seekSequence
  rw [if_neg (by simpa using hne)]
  by_cases hlong : pattern.length > ls.length
  · rw [if_pos hlong]
    refine iff_of_true rfl fun pass q _ hmatch => ?_
    have hlen := hmatch.length hne
    omega
  · rw [if_neg hlong]
    cases eof with
    | false => exact seekFrom_notFound hne
    | true =>
        rw [if_pos rfl]
        cases hladder : seekLadder ls pattern
            (max (ls.length - pattern.length) start) ladder with
        | error error =>
            refine iff_of_false (fun h => ?_) fun hnone => ?_
            · exact seekLadder_error hladder (Except.error.inj h)
            · rw [(seekLadder_none hne).2 fun pass _ q hq =>
                hnone pass q (by omega)] at hladder
              cases hladder
        | ok found =>
            cases found with
            | none => exact seekFrom_notFound hne
            | some found =>
                obtain ⟨k, pass⟩ := found
                have hseeked := seekLadder_some hne hladder
                refine iff_of_false (fun h => nomatch h) fun hnone => ?_
                exact hnone pass k ((Nat.le_max_right _ _).trans hseeked.le)
                  hseeked.matched

end Seek

-- =================================================================== bodies

/-- The text a line has on the new side. -/
def newText? : Line → Option Text
  | .context text => some text
  | .remove _ => none
  | .add text => some text

/-- The text a line adds. -/
def addedText? : Line → Option Text
  | .add text => some text
  | _ => none

/-- A chunk as the parser reads it: lines without a line feed. -/
structure ParsedChunk where
  changeContext : Option Text
  body : List Line
  isEndOfFile : Bool
  flat : ∀ line ∈ body, line.Flat

/-- What the parser makes of its lines. -/
def ParsedChunk.chunk (parsed : ParsedChunk) : UpdateFileChunk :=
  parsed.body.foldl UpdateFileChunk.pushLine
    { changeContext := parsed.changeContext
      isEndOfFile := parsed.isEndOfFile }

/-- The context lines of a body, after `o` old and `n` new lines. -/
def contextIndices : Nat → Nat → List Line → List (Nat × Nat)
  | _, _, [] => []
  | o, n, .context _ :: rest => (o, n) :: contextIndices (o + 1) (n + 1) rest
  | o, n, .remove _ :: rest => contextIndices (o + 1) n rest
  | o, n, .add _ :: rest => contextIndices o (n + 1) rest

theorem foldl_pushLine (body : List Line) (chunk : UpdateFileChunk) :
    body.foldl UpdateFileChunk.pushLine chunk
      = { chunk with
          oldLines := chunk.oldLines ++ body.filterMap Line.old?
          newLines := chunk.newLines ++ body.filterMap newText?
          contextLineIndices := chunk.contextLineIndices
            ++ contextIndices chunk.oldLines.length chunk.newLines.length
              body } := by
  induction body generalizing chunk with
  | nil => simp [contextIndices]
  | cons line body ih =>
      rw [List.foldl_cons, ih]
      cases line with
      | context text =>
          simp [UpdateFileChunk.pushLine, contextIndices, Line.old?,
            newText?]
      | remove text =>
          simp [UpdateFileChunk.pushLine, contextIndices, Line.old?]
          rfl
      | add text =>
          simp [UpdateFileChunk.pushLine, contextIndices, newText?]
          rfl

/-- One run, if it changes anything. -/
def flush (start removed : Nat) (added : List Text) : List Replacement :=
  if removed = 0 ∧ added = [] then [] else [⟨start, removed, added⟩]

/-- The runs of a body that starts at line `start + removed`: between two
context lines, the removed lines are replaced by the added ones. -/
def bodyRuns (start removed : Nat) (added : List Text) :
    List Line → List Replacement
  | [] => flush start removed added
  | .context _ :: rest =>
      flush start removed added ++ bodyRuns (start + removed + 1) 0 [] rest
  | .remove _ :: rest => bodyRuns start (removed + 1) added rest
  | .add text :: rest => bodyRuns start removed (added ++ [text]) rest

theorem run_eq_flush {start o n o' n' : Nat} {new : List Text}
    (ho : o ≤ o') (hn : n ≤ n') (hlen : n' ≤ new.length) :
    run start new o n o' n'
      = flush (start + o) (o' - o) ((new.take n').drop n) := by
  have hempty : (new.take n').drop n = [] ↔ n = n' := by
    rw [List.drop_eq_nil_iff, List.length_take]
    omega
  unfold run flush
  by_cases hsame : o = o' ∧ n = n'
  · rw [if_neg (by omega), if_pos ⟨by omega, hempty.2 hsame.2⟩]
  · rw [if_pos (by omega), if_neg]
    rintro ⟨hzero, hnil⟩
    exact hsame ⟨by omega, hempty.1 hnil⟩

/-- The loop over the context indices makes the body's runs. `front` are
the new lines before the body. -/
theorem contextRuns_body (start : Nat) {o n oldStart newStart : Nat}
    {pattern front : List Text}
    (hpattern : pattern.length = o + (body.filterMap Line.old?).length)
    (hfront : front.length = n) (ho : oldStart ≤ o) (hn : newStart ≤ n) :
    contextRuns start pattern (front ++ body.filterMap newText?) oldStart
        newStart (contextIndices o n body)
      = bodyRuns (start + oldStart) (o - oldStart) (front.drop newStart)
        body := by
  induction body generalizing o n oldStart newStart front with
  | nil =>
      rw [List.filterMap_nil, List.length_nil, Nat.add_zero] at hpattern
      rw [List.filterMap_nil, List.append_nil, contextIndices, contextRuns,
        bodyRuns, hpattern, hfront, run_eq_flush ho hn (by omega), ← hfront,
        List.take_length]
  | cons line body ih =>
      cases line with
      | context text =>
          have hnew : front ++ (Line.context text :: body).filterMap
              newText? = (front ++ [text]) ++ body.filterMap newText? := by
            simp [newText?]
          have hold : pattern.length
              = o + 1 + (body.filterMap Line.old?).length := by
            rw [hpattern, List.filterMap_cons]
            simp only [Line.old?, List.length_cons]
            omega
          have hnext : (front ++ [text]).length = n + 1 := by
            rw [List.length_append, hfront, List.length_singleton]
          have hlater := ih hold hnext (Nat.le_refl _) (Nat.le_refl _)
          have htotal : n + 1 ≤ ((front ++ [text])
              ++ body.filterMap newText?).length := by
            rw [List.length_append, hnext]
            exact Nat.le_add_right _ _
          have htake : ((front ++ [text]) ++ body.filterMap
              newText?).take n = front := by
            rw [List.append_assoc, ← hfront, List.take_left]
          have hstart : start + (o + 1)
              = start + oldStart + (o - oldStart) + 1 := by
            omega
          rw [contextIndices, contextRuns, hnew, if_neg (by omega), hlater,
            run_eq_flush ho hn (by omega), bodyRuns, htake, hstart,
            Nat.sub_self, List.drop_of_length_le (Nat.le_of_eq hnext)]
      | remove text =>
          have hold : pattern.length
              = o + 1 + (body.filterMap Line.old?).length := by
            rw [hpattern, List.filterMap_cons]
            simp only [Line.old?, List.length_cons]
            omega
          have hlater := ih hold hfront (by omega : oldStart ≤ o + 1) hn
          have hnew : (Line.remove text :: body).filterMap newText?
              = body.filterMap newText? := rfl
          have hcount : o + 1 - oldStart = o - oldStart + 1 := by omega
          rw [contextIndices, hnew, hlater, bodyRuns, hcount]
      | add text =>
          have hnew : front ++ (Line.add text :: body).filterMap
              newText? = (front ++ [text]) ++ body.filterMap newText? := by
            simp [newText?]
          have hold : pattern.length
              = o + (body.filterMap Line.old?).length := by
            rw [hpattern, List.filterMap_cons]
            rfl
          have hnext : (front ++ [text]).length = n + 1 := by
            rw [List.length_append, hfront, List.length_singleton]
          have hlater := ih hold hnext ho (by omega : newStart ≤ n + 1)
          rw [contextIndices, hnew, hlater, bodyRuns,
            List.drop_append_of_le_length (by omega)]

section Chunks

variable (parsed : ParsedChunk)

theorem chunk_changeContext :
    parsed.chunk.changeContext = parsed.changeContext := by
  rw [ParsedChunk.chunk, foldl_pushLine]

theorem chunk_isEndOfFile :
    parsed.chunk.isEndOfFile = parsed.isEndOfFile := by
  rw [ParsedChunk.chunk, foldl_pushLine]

theorem chunk_oldLines :
    parsed.chunk.oldLines = parsed.body.filterMap Line.old? := by
  rw [ParsedChunk.chunk, foldl_pushLine]
  exact List.nil_append _

theorem chunk_newLines :
    parsed.chunk.newLines = parsed.body.filterMap newText? := by
  rw [ParsedChunk.chunk, foldl_pushLine]
  exact List.nil_append _

/-- The runs of a chunk whose old lines are found in full. -/
theorem chunk_runs (start : Nat) :
    contextRuns start parsed.chunk.oldLines parsed.chunk.newLines 0 0
        parsed.chunk.contextLineIndices
      = bodyRuns start 0 [] parsed.body := by
  have hindices : parsed.chunk.contextLineIndices
      = contextIndices 0 0 parsed.body := by
    rw [ParsedChunk.chunk, foldl_pushLine]
    exact List.nil_append _
  have hlength : parsed.chunk.oldLines.length
      = 0 + (parsed.body.filterMap Line.old?).length := by
    rw [chunk_oldLines, Nat.zero_add]
  have hruns := contextRuns_body start hlength
    (rfl : ([] : List Text).length = 0) (Nat.le_refl 0) (Nat.le_refl 0)
  rw [hindices, chunk_newLines]
  exact hruns

end Chunks

-- ============================================================ what runs are

/-- Line `k` of the file is one the body removes. -/
def RemovedAt : Nat → List Line → Nat → Prop
  | _, [], _ => False
  | start, .context _ :: rest, k => RemovedAt (start + 1) rest k
  | start, .remove _ :: rest, k =>
      k = start ∨ RemovedAt (start + 1) rest k
  | start, .add _ :: rest, k => RemovedAt start rest k

/-- Some replacement drops line `k`. -/
def Drops (replacements : List Replacement) (k : Nat) : Prop :=
  ∃ r ∈ replacements, r.start ≤ k ∧ k < r.start + r.oldLen

theorem drops_append {a b : List Replacement} {k : Nat} :
    Drops (a ++ b) k ↔ Drops a k ∨ Drops b k := by
  unfold Drops
  simp only [List.mem_append, or_and_right, exists_or]

theorem drops_flush {start k : Nat} :
    Drops (flush start removed added) k
      ↔ start ≤ k ∧ k < start + removed := by
  unfold Drops flush
  split
  next h => simp [h.1]
  next => simp

/-- The runs of a body drop the lines it removes, and no others. -/
theorem drops_bodyRuns {start k : Nat} :
    Drops (bodyRuns start removed added body) k
      ↔ (start ≤ k ∧ k < start + removed)
        ∨ RemovedAt (start + removed) body k := by
  induction body generalizing start removed added with
  | nil =>
      rw [bodyRuns, drops_flush, RemovedAt, or_false]
  | cons line body ih =>
      cases line with
      | context text =>
          rw [bodyRuns, drops_append, drops_flush, ih, RemovedAt,
            Nat.add_zero]
          constructor
          · rintro (h | h | h)
            · exact .inl h
            · omega
            · exact .inr h
          · rintro (h | h)
            · exact .inl h
            · exact .inr (.inr h)
      | remove text =>
          rw [bodyRuns, ih, RemovedAt, ← Nat.add_assoc]
          constructor
          · rintro (h | h)
            · by_cases hlast : k = start + removed
              · exact .inr (.inl hlast)
              · exact .inl (by omega)
            · exact .inr (.inr h)
          · rintro (h | h | h)
            · exact .inl (by omega)
            · exact .inl (by omega)
            · exact .inr h
      | add text => rw [bodyRuns, ih, RemovedAt]

/-- They hold the added lines, in their order. -/
theorem segments_bodyRuns {start : Nat} :
    (bodyRuns start removed added body).flatMap Replacement.segment
      = added ++ body.filterMap addedText? := by
  have hflush : ∀ start removed added,
      (flush start removed added).flatMap Replacement.segment = added := by
    intro start removed added
    unfold flush
    split
    next h => exact h.2.symm
    next => simp
  induction body generalizing start removed added with
  | nil => rw [bodyRuns, hflush, List.filterMap_nil, List.append_nil]
  | cons line body ih =>
      cases line with
      | context text =>
          rw [bodyRuns, List.flatMap_append, hflush, ih, List.nil_append]
          rfl
      | remove text =>
          rw [bodyRuns, ih]
          rfl
      | add text =>
          rw [bodyRuns, ih, List.append_assoc]
          rfl

end Elitea.LocalTools.Envelope
