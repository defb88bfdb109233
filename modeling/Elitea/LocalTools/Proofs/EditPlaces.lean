/-
Where a string edit is found.

Both matchers are scans that skip what they take (`Lib.Scan`): the exact
one over the positions of the text (`matchIndices_scan`), the normalised
one over its lines (`windowsFrom_scan`). A place the scan does not see is
inside one it took, so an edit that is placed once stands at one place
only exactly when its places are apart (`unambiguous_iff`).

A normalised match has one shift of the indentation for all its lines
(`windowShift_none`), and the new string's lines are moved by it. The match
compares the extra white space behind the indentation and the replacement
writes it in front, which is the same for one kind of white space
(`Shift.Fits.moves_iff`).
-/
import Elitea.LocalTools.Edit
import Elitea.Lib.Pairs
import Elitea.Lib.Scan

namespace Elitea.LocalTools.Edit

open Lib
open Lib.Lines

variable {shift : Shift} {span : Span} {front pattern t : Text}
  {wanted : List Text} {line : FileLine} {all : List FileLine}

-- ============================================================ exact matches

/-- The pattern stands at a position of the text. -/
def OccursAt (pattern text : Text) (position : Nat) : Prop :=
  pattern <+: text.drop position

theorem startsWith_iff : startsWith front t = true ↔ front <+: t :=
  List.isPrefixOf_iff_prefix

theorem stripFront_eq_some {rest : Text} :
    stripFront front t = some rest ↔ t = front ++ rest := by
  unfold stripFront
  split
  next h =>
    obtain ⟨back, rfl⟩ := startsWith_iff.1 h
    rw [List.drop_left, Option.some.injEq, List.append_cancel_left_eq]
  next h =>
    refine ⟨(fun h => nomatch h), fun heq => absurd ?_ h⟩
    exact startsWith_iff.2 ⟨rest, heq.symm⟩

theorem stripFront_eq_none :
    stripFront front t = none ↔ ∀ rest, t ≠ front ++ rest := by
  constructor
  · intro h rest heq
    rw [stripFront_eq_some.2 heq] at h
    cases h
  · intro h
    cases hstrip : stripFront front t with
    | none => rfl
    | some rest => exact absurd (stripFront_eq_some.1 hstrip) (h rest)

theorem matchFrom_scan {text : Text} (hne : pattern ≠ []) (skip : Nat)
    {position : Nat} {rest : Text} (h : text.drop position = rest) :
    Scan (OccursAt pattern text) pattern.length (position + skip)
      (matchFrom pattern position skip rest) := by
  have hpos : 0 < pattern.length := List.length_pos_of_ne_nil hne
  induction rest generalizing position skip with
  | nil =>
      rw [matchFrom, if_neg (by simpa using hne)]
      refine .done fun q hq hoccurs => hne ?_
      have hlen := List.drop_eq_nil_iff.1 h
      unfold OccursAt at hoccurs
      rw [List.drop_eq_nil_of_le (by omega)] at hoccurs
      exact List.prefix_nil.1 hoccurs
  | cons c rest ih =>
      have hnext : text.drop (position + 1) = rest := by
        rw [← List.drop_drop, h]
        rfl
      rw [matchFrom]
      by_cases hskip : 0 < skip
      · rw [if_pos hskip]
        have hstart : position + skip = position + 1 + (skip - 1) := by
          omega
        rw [hstart]
        exact ih (skip - 1) hnext
      · obtain rfl : skip = 0 := by omega
        rw [if_neg hskip]
        split
        next hstarts =>
          have hoccurs : OccursAt pattern text position := by
            unfold OccursAt
            rw [h]
            exact startsWith_iff.1 hstarts
          refine .take (Nat.le_refl _) hoccurs (fun q hq hlt => ?_) ?_
          · omega
          · have hstart : position + pattern.length
                = position + 1 + (pattern.length - 1) := by
              omega
            rw [hstart]
            exact ih (pattern.length - 1) hnext
        next hstarts =>
          have hlater := ih 0 hnext
          refine Scan.skip (fun hoccurs => hstarts ?_) hlater
          unfold OccursAt at hoccurs
          rw [Nat.add_zero, h] at hoccurs
          exact startsWith_iff.2 hoccurs

theorem matchIndices_scan {text : Text} (hne : pattern ≠ []) :
    Scan (OccursAt pattern text) pattern.length 0
      (matchIndices pattern text) :=
  matchFrom_scan hne 0 (List.drop_zero : text.drop 0 = text)

-- ================================================================== shifts

/-- The file's line is the pattern's, with its indentation shifted. -/
def Shift.Fits (shift : Shift) (file pattern : Text) : Prop :=
  trimStart file = trimStart pattern
    ∧ match shift with
      | .add extra => leading file = leading pattern ++ extra
      | .remove extra =>
          extra ≠ [] ∧ leading pattern = leading file ++ extra

/-- The line moved by the shift: with the extra in front, or without
it. -/
def Shift.Moves (shift : Shift) (line line' : Text) : Prop :=
  match shift with
  | .add extra => line' = extra ++ line
  | .remove extra => line = extra ++ line'

/-- The extra indentation is the same in front of the other indentation as
behind it. It is where both are of one kind of white space. -/
def Shift.Uniform (shift : Shift) (file pattern : Text) : Prop :=
  match shift with
  | .add extra => extra ++ leading pattern = leading pattern ++ extra
  | .remove extra => extra ++ leading file = leading file ++ extra

theorem leading_append_trimStart (line : Text) :
    leading line ++ trimStart line = line :=
  List.takeWhile_append_dropWhile

/-- The match compares the extra behind the indentation and the
replacement writes it in front: one shift where that is the same. -/
theorem Shift.Fits.moves_iff {file : Text} (h : shift.Fits file pattern) :
    shift.Moves pattern file ↔ shift.Uniform file pattern := by
  obtain ⟨htrim, hleading⟩ := h
  unfold Shift.Moves Shift.Uniform
  cases shift with
  | add extra =>
      dsimp only at hleading ⊢
      have hfile : file = leading pattern ++ extra ++ trimStart pattern := by
        rw [← hleading, ← htrim, leading_append_trimStart]
      have hmoved : extra ++ pattern
          = extra ++ leading pattern ++ trimStart pattern := by
        rw [List.append_assoc, leading_append_trimStart]
      rw [hmoved, hfile, List.append_cancel_right_eq]
      exact eq_comm
  | remove extra =>
      dsimp only at hleading ⊢
      have hpattern : pattern = leading file ++ extra ++ trimStart file := by
        rw [← hleading.2, htrim, leading_append_trimStart]
      have hmoved : extra ++ file
          = extra ++ leading file ++ trimStart file := by
        rw [List.append_assoc, leading_append_trimStart]
      rw [hmoved, hpattern, List.append_cancel_right_eq]
      exact eq_comm

theorem shiftOf_eq_some {file : Text} :
    shiftOf file pattern = some shift ↔ shift.Fits file pattern := by
  unfold shiftOf Shift.Fits
  by_cases htrim : trimStart file = trimStart pattern
  · rw [if_neg (not_not.2 htrim)]
    cases hadd : stripFront (leading pattern) (leading file) with
    | some extra =>
        have hleading := stripFront_eq_some.1 hadd
        cases shift with
        | add other =>
            simp only [Option.some.injEq, Shift.add.injEq, htrim, true_and]
            rw [hleading, List.append_cancel_left_eq]
        | remove other =>
            simp only [Option.some.injEq, reduceCtorEq, htrim, true_and,
              false_iff, not_and]
            -- each is then a front of the other
            intro hne hback
            rw [hleading, List.append_assoc] at hback
            have hnil := List.append_right_eq_self.1 hback.symm
            exact hne (List.append_eq_nil_iff.1 hnil).2
    | none =>
        have hno := stripFront_eq_none.1 hadd
        cases shift with
        | add other =>
            simp only [Option.map_eq_some_iff, reduceCtorEq, and_false,
              exists_false, htrim, true_and, false_iff]
            exact hno other
        | remove other =>
            simp only [Option.map_eq_some_iff, Shift.remove.injEq,
              exists_eq_right, htrim, true_and, stripFront_eq_some]
            refine ⟨fun heq => ⟨?_, heq⟩, And.right⟩
            rintro rfl
            refine hno [] ?_
            rw [heq, List.append_nil, List.append_nil]
  · rw [if_pos htrim]
    exact ⟨(fun h => nomatch h), fun h => absurd h.1 htrim⟩

/-- A line of the file and one of the pattern: both blank, or the same up
to trailing white space and the shift. -/
def LineFits (shift : Shift) (line want : Text) : Prop :=
  (want = [] ∧ trimEnd line = [])
    ∨ (want ≠ [] ∧ trimEnd line ≠ [] ∧ shift.Fits (trimEnd line) want)

/-- A run of lines matches the pattern's, one of which is not blank. -/
def RunFits (shift : Shift) (window wanted : List Text) : Prop :=
  List.Forall₂ (LineFits shift) window wanted ∧ ∃ want ∈ wanted, want ≠ []

theorem windowShift_cons {seen : Option Shift} {window : List FileLine}
    {want : Text} :
    windowShift seen (line :: window) (want :: wanted) = some shift ↔
      (want = [] ∧ trimEnd line.text = []
        ∧ windowShift seen window wanted = some shift)
      ∨ (want ≠ [] ∧ trimEnd line.text ≠ []
        ∧ ∃ this, this.Fits (trimEnd line.text) want
          ∧ (∀ before ∈ seen, before = this)
          ∧ windowShift (some this) window wanted = some shift) := by
  rw [windowShift]
  by_cases hwant : want = []
  · by_cases hline : trimEnd line.text = []
    · simp [hwant, hline]
    · simp [hwant, hline]
  · by_cases hline : trimEnd line.text = []
    · simp [hwant, hline]
    · simp only [List.isEmpty_iff, hwant, hline, Bool.or_eq_true, or_self,
        if_false, false_and, false_or, ne_eq, not_false_eq_true, true_and]
      cases hshift : shiftOf (trimEnd line.text) want with
      | none =>
          refine ⟨(fun h => nomatch h), ?_⟩
          rintro ⟨this, hfits, -⟩
          rw [shiftOf_eq_some.2 hfits] at hshift
          cases hshift
      | some this =>
          have hfits := shiftOf_eq_some.1 hshift
          have hone : ∀ other : Shift,
              other.Fits (trimEnd line.text) want → other = this := by
            intro other hother
            rw [shiftOf_eq_some.2 hother] at hshift
            exact Option.some.inj hshift
          cases seen with
          | none =>
              constructor
              · intro h
                exact ⟨this, hfits, (fun _ h => nomatch h), h⟩
              · rintro ⟨other, hother, -, h⟩
                rwa [hone other hother] at h
          | some before =>
              dsimp only
              split
              next heq =>
                subst heq
                constructor
                · intro h
                  refine ⟨before, hfits, fun other hother => ?_, h⟩
                  exact (Option.mem_some_iff.1 hother).symm
                · rintro ⟨other, hother, -, h⟩
                  rwa [hone other hother] at h
              next hne =>
                refine ⟨(fun h => nomatch h), ?_⟩
                rintro ⟨other, hother, hseen, -⟩
                rw [hone other hother] at hseen
                exact absurd (hseen before rfl) hne

/-- The shift of a window: the one seen before, if any, and that of all
its lines. -/
theorem windowShift_eq_some {seen : Option Shift} {window : List FileLine}
    (hlen : window.length = wanted.length) :
    windowShift seen window wanted = some shift ↔
      (∀ before ∈ seen, before = shift)
      ∧ List.Forall₂ (LineFits shift) (window.map FileLine.text) wanted
      ∧ (seen = none → ∃ want ∈ wanted, want ≠ []) := by
  induction wanted generalizing window seen with
  | nil =>
      obtain rfl := List.length_eq_zero_iff.1 hlen
      cases seen <;> simp [windowShift]
  | cons want wanted ih =>
      obtain ⟨line, window, rfl⟩ := List.exists_cons_of_length_eq_add_one hlen
      rw [windowShift_cons, List.map_cons, List.forall₂_cons]
      simp only [ih (Nat.succ.inj hlen)]
      constructor
      · rintro (⟨hwant, hline, hseen, hrest, hsome⟩
          | ⟨hwant, hline, this, hfits, hseen, hone, hrest, -⟩)
        · refine ⟨hseen, ⟨.inl ⟨hwant, hline⟩, hrest⟩, fun h => ?_⟩
          obtain ⟨other, hother, hne⟩ := hsome h
          exact ⟨other, List.mem_cons_of_mem want hother, hne⟩
        · obtain rfl := hone this rfl
          exact ⟨hseen, ⟨.inr ⟨hwant, hline, hfits⟩, hrest⟩,
            fun _ => ⟨want, List.mem_cons_self, hwant⟩⟩
      · rintro ⟨hseen, ⟨hfirst, hrest⟩, hsome⟩
        rcases hfirst with ⟨hwant, hline⟩ | ⟨hwant, hline, hfits⟩
        · refine .inl ⟨hwant, hline, hseen, hrest, fun h => ?_⟩
          obtain ⟨other, hother, hne⟩ := hsome h
          rcases List.mem_cons.1 hother with rfl | hother
          · exact absurd hwant hne
          · exact ⟨other, hother, hne⟩
        · refine .inr ⟨hwant, hline, shift, hfits, hseen, fun _ h => ?_,
            hrest, (fun h => nomatch h)⟩
          exact (Option.mem_some_iff.1 h).symm

theorem windowShift_none {window : List FileLine}
    (hlen : window.length = wanted.length) :
    windowShift none window wanted = some shift ↔
      RunFits shift (window.map FileLine.text) wanted := by
  rw [windowShift_eq_some hlen]
  exact ⟨fun h => ⟨h.2.1, h.2.2 rfl⟩,
    fun h => ⟨(fun _ h => nomatch h), h.1, fun _ => h.2⟩⟩

-- =================================================================== lines

/-- Where a line of the text starts. -/
def lineStart (text : Text) (k : Nat) : Nat :=
  ((splitInclusive text).take k).flatten.length

theorem fileLinesFrom_texts (start : Nat) (ls : List Text) :
    (fileLinesFrom start ls).map FileLine.text = ls.map stripEnding := by
  induction ls generalizing start with
  | nil => rfl
  | cons line ls ih =>
      rw [fileLinesFrom, List.map_cons, ih, List.map_cons]

theorem fileLines_texts (text : Text) :
    (fileLines text).map FileLine.text = lines text :=
  fileLinesFrom_texts 0 (splitInclusive text)

theorem length_fileLines (text : Text) :
    (fileLines text).length = (splitInclusive text).length := by
  rw [← List.length_map FileLine.text, fileLines_texts, lines,
    List.length_map]

theorem fileLinesFrom_get {start : Nat} {ls : List Text} {k : Nat}
    (h : (fileLinesFrom start ls)[k]? = some line) :
    ∃ raw, ls[k]? = some raw ∧ line.text = stripEnding raw
      ∧ line.ending = endingOf raw
      ∧ line.start = start + (ls.take k).flatten.length := by
  induction ls generalizing start k with
  | nil => simp [fileLinesFrom] at h
  | cons raw ls ih =>
      rw [fileLinesFrom] at h
      cases k with
      | zero =>
          obtain rfl := Option.some.inj h
          exact ⟨raw, rfl, rfl, rfl, rfl⟩
      | succ k =>
          obtain ⟨other, hget, htext, hending, hstart⟩ := ih h
          refine ⟨other, hget, htext, hending, ?_⟩
          rw [hstart, List.take_succ_cons, List.flatten_cons,
            List.length_append, Nat.add_assoc]

/-- A line of the file, by the lines of the text. -/
theorem fileLines_get {text : Text} {k : Nat}
    (h : (fileLines text)[k]? = some line) :
    ∃ raw, (splitInclusive text)[k]? = some raw
      ∧ line.ending = endingOf raw
      ∧ line.start = lineStart text k
      ∧ line.contentEnd = lineStart text k + (stripEnding raw).length
      ∧ line.stop = lineStart text (k + 1) := by
  obtain ⟨raw, hget, htext, hending, hstart⟩ := fileLinesFrom_get h
  rw [Nat.zero_add] at hstart
  have hraw : (stripEnding raw).length + (endingOf raw).length
      = raw.length := by
    rw [← List.length_append, strip_append_ending]
  refine ⟨raw, hget, hending, hstart, ?_, ?_⟩
  · unfold FileLine.contentEnd
    rw [hstart, htext]
    rfl
  · unfold FileLine.stop FileLine.contentEnd lineStart
    rw [hstart, htext, hending, Nat.add_assoc, hraw, List.take_add_one,
      hget, List.flatten_append, List.length_append]
    simp

theorem lineStart_mono {text : Text} {k l : Nat} (h : k ≤ l) :
    lineStart text k ≤ lineStart text l := by
  unfold lineStart
  rw [← List.take_append_drop k ((splitInclusive text).take l),
    List.take_take, Nat.min_eq_left h, List.flatten_append,
    List.length_append]
  exact Nat.le_add_right _ _

theorem lineStart_le (text : Text) (k : Nat) :
    lineStart text k ≤ text.length := by
  have hall : lineStart text (max k (splitInclusive text).length)
      = text.length := by
    unfold lineStart
    rw [List.take_of_length_le (Nat.le_max_right _ _),
      flatten_splitInclusive]
  rw [← hall]
  exact lineStart_mono (Nat.le_max_left _ _)

/-- Lines are not empty, so each starts after the one before. -/
theorem lineStart_lt {text : Text} {k : Nat}
    (h : k < (splitInclusive text).length) :
    lineStart text k < lineStart text (k + 1) := by
  have hget := List.getElem?_eq_getElem h
  have hline := (proper_splitInclusive text).lastLine _
    (List.getElem_mem h)
  have hne : (splitInclusive text)[k] ≠ [] := by
    rcases hline with ⟨t, -, heq⟩ | ⟨hne, -⟩
    · rw [heq]
      exact List.append_ne_nil_of_right_ne_nil t (List.cons_ne_nil _ _)
    · exact hne
  have hpos := List.length_pos_of_ne_nil hne
  unfold lineStart
  rw [List.take_add_one, hget, List.flatten_append, List.length_append]
  simpa using hpos

-- ======================================================= normalised matches

/-- The lines of the text that a run from line `k` on compares. -/
def window (text : Text) (edit : EditSpec) (k : Nat) : List Text :=
  ((lines text).drop k).take (wantedLines edit).length

/-- A run of whole lines matches the old string's. -/
def RunAt (text : Text) (edit : EditSpec) (k : Nat) : Prop :=
  ∃ shift, RunFits shift (window text edit k) (wantedLines edit)

/-- A line of a replacement is one of the new string's, shifted; blank
lines stay. -/
def LineShifted (shift : Shift) (line line' : Text) : Prop :=
  ((trim line = []) ∧ line' = line)
    ∨ (trim line ≠ [] ∧ shift.Moves line line')

/-- The replacement of a normalised match: the lines of the new string,
each shifted, with one ending between them. -/
def Reindented (shift : Shift) (edit : EditSpec) (new : Text) : Prop :=
  ∃ ending ls, (ending = lf ∨ ending = crlf)
    ∧ List.Forall₂ (LineShifted shift)
      ((lfOnly edit.newString).splitOn '\n') ls
    ∧ new = List.intercalate ending ls

theorem shiftLine_eq_some {line line' : Text} :
    shiftLine shift line = some line' ↔ LineShifted shift line line' := by
  unfold shiftLine LineShifted Shift.Moves
  by_cases hblank : trim line = []
  · simp [hblank, eq_comm]
  · simp only [List.isEmpty_iff, hblank, if_false, false_and, false_or,
      ne_eq, not_false_eq_true, true_and]
    cases shift with
    | add extra => simp [eq_comm]
    | remove extra => exact stripFront_eq_some

theorem mapM_shiftLine {ls out : List Text}
    (h : ls.mapM (shiftLine shift) = some out) :
    List.Forall₂ (LineShifted shift) ls out := by
  induction ls generalizing out with
  | nil =>
      obtain rfl := Option.some.inj h
      exact .nil
  | cons line ls ih =>
      rw [List.mapM_cons] at h
      obtain ⟨line', hline, h⟩ := Option.bind_eq_some_iff.1 h
      obtain ⟨rest, hrest, h⟩ := Option.bind_eq_some_iff.1 h
      obtain rfl := Option.some.inj h
      exact .cons (shiftLine_eq_some.1 hline) (ih hrest)

/-- What is replaced of a run: its lines, without the last ending unless
the old string ends with one. -/
structure RunSpan (text : Text) (edit : EditSpec) (k : Nat) (span : Span) :
    Prop where
  shifted : ∃ shift,
    RunFits shift (window text edit k) (wantedLines edit)
      ∧ Reindented shift edit span.new
  inside : k + (wantedLines edit).length ≤ (splitInclusive text).length
  start : span.start = lineStart text k
  stop : ∃ last,
    (splitInclusive text)[k + (wantedLines edit).length - 1]? = some last
      ∧ span.stop = if endsWithNewline edit
        then lineStart text (k + (wantedLines edit).length)
        else lineStart text (k + (wantedLines edit).length - 1)
          + (stripEnding last).length

theorem windowSpan_eq_ok {edit : EditSpec} {first last : FileLine}
    (h : windowSpan edit first last shift = .ok span) :
    Reindented shift edit span.new ∧ span.start = first.start
      ∧ span.stop = if endsWithNewline edit then last.stop
        else last.contentEnd := by
  unfold windowSpan at h
  dsimp only at h
  split at h
  next new hnew =>
    obtain rfl := Except.ok.inj h
    obtain ⟨ls, hls, rfl⟩ := Option.map_eq_some_iff.1 hnew
    refine ⟨⟨_, ls, ?_, mapM_shiftLine hls, rfl⟩, rfl, rfl⟩
    split
    · exact .inr rfl
    · exact .inl rfl
  next => cases h

/-- A window of the lines of the file that matches. -/
def WindowAt (all : List FileLine) (wanted : List Text) (k : Nat) : Prop :=
  k + wanted.length ≤ all.length
    ∧ (windowShift none ((all.drop k).take wanted.length) wanted).isSome

/-- The span the loop makes of it. -/
def WindowSpan (edit : EditSpec) (all : List FileLine)
    (wanted : List Text) (k : Nat) (span : Span) : Prop :=
  k + wanted.length ≤ all.length
    ∧ ∃ shift first last,
      windowShift none ((all.drop k).take wanted.length) wanted = some shift
        ∧ all[k]? = some first ∧ all[k + wanted.length - 1]? = some last
        ∧ windowSpan edit first last shift = .ok span

theorem length_window {n k : Nat} (h : k + n ≤ all.length) :
    ((all.drop k).take n).length = n := by
  rw [List.length_take, List.length_drop]
  omega

/-- The last line of a window. -/
theorem window_last {n k : Nat} {first : FileLine} (hn : 0 < n)
    (hlen : k + n ≤ all.length) :
    all[k + n - 1]?
      = some ((((all.drop k).take n).getLast?).getD first) := by
  have hlast : k + n - 1 < all.length := by omega
  rw [List.getLast?_eq_getElem?, length_window hlen,
    List.getElem?_take_of_lt (by omega), List.getElem?_drop]
  have hindex : k + (n - 1) = k + n - 1 := by omega
  rw [hindex, List.getElem?_eq_getElem hlast]
  rfl

theorem windowsFrom_scan {edit : EditSpec} (hwanted : 0 < wanted.length)
    {rest : List FileLine} {spans : List Span} (skip : Nat) {k : Nat}
    (hrest : all.drop k = rest)
    (h : windowsFrom edit wanted skip rest = .ok spans) :
    ∃ ps, Scan (WindowAt all wanted) wanted.length (k + skip) ps
      ∧ List.Forall₂ (WindowSpan edit all wanted) ps spans := by
  induction rest generalizing k skip spans with
  | nil =>
      obtain rfl := Except.ok.inj h
      have hlen := List.drop_eq_nil_iff.1 hrest
      refine ⟨[], .done fun q hq hwindow => ?_, .nil⟩
      have hinside := hwindow.1
      omega
  | cons first rest ih =>
      have hnext : all.drop (k + 1) = rest := by
        rw [← List.drop_drop, hrest]
        rfl
      have hfirst : all[k]? = some first := by
        rw [← Nat.add_zero k, ← List.getElem?_drop, hrest]
        rfl
      rw [windowsFrom] at h
      by_cases hskip : 0 < skip
      · rw [if_pos hskip] at h
        obtain ⟨ps, hscan, hspans⟩ := ih (skip - 1) hnext h
        have hstart : k + 1 + (skip - 1) = k + skip := by omega
        exact ⟨ps, hstart ▸ hscan, hspans⟩
      · obtain rfl : skip = 0 := by omega
        rw [if_neg hskip] at h
        have hlength : (first :: rest).length = all.length - k := by
          rw [← hrest, List.length_drop]
        by_cases hlong : wanted.length ≤ (first :: rest).length
        · have hinside : k + wanted.length ≤ all.length := by omega
          rw [if_pos hlong] at h
          dsimp only at h
          rw [← hrest] at h
          split at h
          next hnone =>
            obtain ⟨ps, hscan, hspans⟩ := ih 0 hnext h
            refine ⟨ps, Scan.skip (fun hwindow => ?_) hscan, hspans⟩
            have hsome := hwindow.2
            rw [Nat.add_zero, hnone] at hsome
            cases hsome
          next shift hshift =>
            obtain ⟨span, hspan, h⟩ := bind_eq_ok.1 h
            obtain ⟨later, hlater, h⟩ := bind_eq_ok.1 h
            obtain rfl := Except.ok.inj h
            obtain ⟨ps, hscan, hspans⟩ :=
              ih (wanted.length - 1) hnext hlater
            have hstart : k + 1 + (wanted.length - 1)
                = k + wanted.length := by
              omega
            rw [hstart] at hscan
            have hwindow : WindowAt all wanted k :=
              ⟨hinside, by rw [hshift]; rfl⟩
            refine ⟨k :: ps, .take (Nat.le_refl _) hwindow
              (fun q hq hlt => by omega) hscan, .cons ?_ hspans⟩
            exact ⟨hinside, shift, first, _, hshift, hfirst,
              window_last hwanted hinside, hspan⟩
        · rw [if_neg hlong] at h
          obtain rfl := Except.ok.inj h
          refine ⟨[], .done fun q hq hwindow => ?_, .nil⟩
          have hinside := hwindow.1
          omega

section Windows

variable {text : Text} {edit : EditSpec} {k : Nat}

theorem map_window : (((fileLines text).drop k).take
      (wantedLines edit).length).map FileLine.text
    = window text edit k := by
  rw [List.map_take, List.map_drop, fileLines_texts]
  rfl

theorem windowAt_iff :
    WindowAt (fileLines text) (wantedLines edit) k ↔ RunAt text edit k := by
  unfold WindowAt RunAt
  constructor
  · rintro ⟨hinside, hsome⟩
    obtain ⟨shift, hshift⟩ := Option.isSome_iff_exists.1 hsome
    rw [windowShift_none (length_window hinside), map_window] at hshift
    exact ⟨shift, hshift⟩
  · rintro ⟨shift, hfits⟩
    have hlen := hfits.1.length_eq
    have hpos : 0 < (wantedLines edit).length := by
      obtain ⟨want, hwant, -⟩ := hfits.2
      exact List.length_pos_of_mem hwant
    unfold window at hlen
    rw [List.length_take, List.length_drop] at hlen
    have htotal : (lines text).length = (fileLines text).length := by
      rw [← fileLines_texts, List.length_map]
    have hinside : k + (wantedLines edit).length
        ≤ (fileLines text).length := by
      omega
    refine ⟨hinside, ?_⟩
    rw [← map_window, ← windowShift_none (length_window hinside)] at hfits
    rw [hfits]
    rfl

theorem WindowSpan.run
    (h : WindowSpan edit (fileLines text) (wantedLines edit) k span)
    (hwanted : 0 < (wantedLines edit).length) : RunSpan text edit k span := by
  obtain ⟨hinside, shift, first, last, hshift, hfirst, hlast, hspan⟩ := h
  obtain ⟨hnew, hstart, hstop⟩ := windowSpan_eq_ok hspan
  obtain ⟨-, -, -, hfirstStart, -⟩ := fileLines_get hfirst
  obtain ⟨raw, hraw, -, -, hcontent, hend⟩ := fileLines_get hlast
  have hindex : k + (wantedLines edit).length - 1 + 1
      = k + (wantedLines edit).length := by
    omega
  rw [windowShift_none (length_window hinside), map_window] at hshift
  rw [hindex] at hend
  refine ⟨⟨shift, hshift, hnew⟩, ?_, hstart.trans hfirstStart, raw, hraw,
    ?_⟩
  · rw [← length_fileLines]
    exact hinside
  · rw [hstop, hcontent, hend]

/-- A normalised match has a line that is not blank, so it is not
empty. -/
theorem RunSpan.lt (h : RunSpan text edit k span) :
    span.start < span.stop := by
  obtain ⟨shift, ⟨hfits, want, hwant, hne⟩, -⟩ := h.shifted
  obtain ⟨last, hlast, hstop⟩ := h.stop
  have hinside := h.inside
  have hpos := List.length_pos_of_mem hwant
  rw [h.start, hstop]
  by_cases hone : (wantedLines edit).length = 1
  · -- the one line is not blank
    have htext : 0 < (stripEnding last).length := by
      refine List.length_pos_of_ne_nil fun hempty => ?_
      obtain ⟨only, honly⟩ := List.length_eq_one_iff.1 hone
      rw [honly, List.mem_singleton] at hwant
      have hwindow : window text edit k = [stripEnding last] := by
        have hget : (lines text)[k]? = some (stripEnding last) := by
          rw [hone, Nat.add_sub_cancel] at hlast
          unfold lines
          rw [List.getElem?_map, hlast]
          rfl
        have hlt := (List.getElem?_eq_some_iff.1 hget).1
        unfold window
        rw [hone, List.drop_eq_getElem_cons hlt, List.take_succ_cons,
          List.take_zero, (List.getElem?_eq_some_iff.1 hget).2]
      rw [hwindow, honly, List.forall₂_cons] at hfits
      rcases hfits.1 with ⟨hblank, -⟩ | ⟨-, hline, -⟩
      · exact hne (hwant.trans hblank)
      · exact hline (by rw [hempty]; rfl)
    have hlt : lineStart text k < lineStart text (k + 1) :=
      lineStart_lt (by omega)
    rw [hone, Nat.add_sub_cancel]
    split <;> omega
  · have hlt : lineStart text k < lineStart text (k + 1) :=
      lineStart_lt (by omega)
    have hle : lineStart text (k + 1)
        ≤ lineStart text (k + (wantedLines edit).length - 1) :=
      lineStart_mono (by omega)
    have hle' : lineStart text (k + (wantedLines edit).length - 1)
        ≤ lineStart text (k + (wantedLines edit).length) :=
      lineStart_mono (by omega)
    split <;> omega

theorem RunSpan.stop_le (h : RunSpan text edit k span) :
    span.stop ≤ text.length := by
  obtain ⟨last, hlast, hstop⟩ := h.stop
  obtain ⟨shift, ⟨-, want, hwant, -⟩, -⟩ := h.shifted
  have hpos := List.length_pos_of_mem hwant
  have hend := lineStart_le text (k + (wantedLines edit).length)
  rw [hstop]
  split
  · exact hend
  · have hstrip : (stripEnding last).length ≤ last.length := by
      rw [stripEnding]
      exact List.length_take_le' _ _
    have hnext : lineStart text (k + (wantedLines edit).length)
        = lineStart text (k + (wantedLines edit).length - 1)
          + last.length := by
      have hindex : k + (wantedLines edit).length
          = k + (wantedLines edit).length - 1 + 1 := by
        omega
      unfold lineStart
      rw [hindex, List.take_add_one, hlast, Nat.add_sub_cancel,
        List.flatten_append, List.length_append]
      simp
    omega

end Windows

-- ========================================================== where edits are

/-- An exact place: the old string stands there, and the new string is
written with the line ending of what it replaces. -/
structure ExactSpan (text : Text) (edit : EditSpec) (span : Span) :
    Prop where
  occurs : OccursAt edit.oldString text span.start
  stop : span.stop = span.start + edit.oldString.length
  new : span.new = withEndings edit.newString
    (endingFor edit.oldString (usualEnding text))

/-- What the places of an edit are. -/
inductive Found (text : Text) (edit : EditSpec) (spans : List Span) : Prop
  | exact (ps : List Nat)
      (scan : Scan (OccursAt edit.oldString text) edit.oldString.length 0 ps)
      (places : spans.map Span.start = ps)
      (each : ∀ span ∈ spans, ExactSpan text edit span)
  | normalised (ps : List Nat)
      (none : ∀ p, ¬ OccursAt edit.oldString text p)
      (scan : Scan (RunAt text edit) (wantedLines edit).length 0 ps)
      (each : List.Forall₂ (RunSpan text edit) ps spans)

section Locating

variable {text : Text} {edit : EditSpec} {spans : List Span}

theorem exactSpans_starts :
    (exactSpans text edit).map Span.start
      = matchIndices edit.oldString text := by
  unfold exactSpans
  rw [List.map_map]
  exact List.map_id _

theorem exactSpans_found (hne : edit.oldString ≠ []) :
    Found text edit (exactSpans text edit) := by
  have hscan : Scan (OccursAt edit.oldString text) _ 0 _ :=
    matchIndices_scan hne
  refine .exact _ hscan exactSpans_starts fun span hspan => ?_
  obtain ⟨p, hp, rfl⟩ := List.mem_map.1 hspan
  exact ⟨hscan.mem p hp, rfl, rfl⟩

theorem wantedLines_length (edit : EditSpec) :
    0 < (wantedLines edit).length := by
  unfold wantedLines
  rw [List.length_map]
  exact List.length_pos_of_ne_nil (List.splitOn_ne_nil _ _)

theorem normalised_found (hnone : ∀ p, ¬ OccursAt edit.oldString text p)
    (h : normalised text edit = .ok spans) : Found text edit spans := by
  unfold normalised at h
  dsimp only at h
  split at h
  next hblank =>
    obtain rfl := Except.ok.inj h
    refine .normalised [] hnone (.done fun k _ hrun => ?_) .nil
    obtain ⟨shift, -, want, hwant, hne⟩ := hrun
    exact hne (List.isEmpty_iff.1 (List.all_eq_true.1 hblank want hwant))
  next =>
    have hlen := wantedLines_length edit
    obtain ⟨ps, hscan, hspans⟩ :=
      windowsFrom_scan hlen 0 (List.drop_zero : _ = fileLines text) h
    refine .normalised ps hnone ?_ (hspans.imp fun _ _ hw => hw.run hlen)
    have hsame : WindowAt (fileLines text) (wantedLines edit)
        = RunAt text edit :=
      funext fun _ => propext windowAt_iff
    rw [← hsame]
    exact hscan

/-- An edit that is placed. -/
theorem locate_found {how : EditMatch} (hne : edit.oldString ≠ [])
    (h : locate text edit = .ok (spans, how)) :
    Found text edit spans ∧ spans ≠ []
      ∧ (edit.replaceAll = false → spans.length = 1) := by
  unfold locate at h
  obtain ⟨⟨found, how'⟩, hfound, h⟩ := bind_eq_ok.1 h
  have hspans : Found text edit found := by
    unfold candidates at hfound
    dsimp only at hfound
    split at hfound
    next hempty =>
      obtain ⟨normal, hnormal, hfound⟩ := bind_eq_ok.1 hfound
      obtain ⟨rfl, -⟩ := Prod.mk.inj (Except.ok.inj hfound)
      have hscan : Scan (OccursAt edit.oldString text) _ 0 _ :=
        matchIndices_scan hne
      rw [← exactSpans_starts, List.isEmpty_iff.1 hempty] at hscan
      exact normalised_found (Scan.nil_iff.1 hscan) hnormal
    next =>
      obtain ⟨rfl, -⟩ := Prod.mk.inj (Except.ok.inj hfound)
      exact exactSpans_found hne
  dsimp only at h
  split at h
  next => cases h
  next hone =>
    obtain ⟨rfl, -⟩ := Prod.mk.inj (Except.ok.inj h)
    refine ⟨hspans, ?_, fun _ => hone⟩
    rintro rfl
    cases hone
  next hzero _ =>
    split at h
    next => cases h
    next hall =>
      obtain ⟨rfl, -⟩ := Prod.mk.inj (Except.ok.inj h)
      refine ⟨hspans, fun hnil => hzero ?_, fun hoff => ?_⟩
      · rw [hnil]
        rfl
      · rw [hoff] at hall
        exact absurd rfl hall

/-- The old string stands at one place; or at none, and one run of whole
lines matches it. -/
def Unambiguous (text : Text) (edit : EditSpec) : Prop :=
  (∃! p, OccursAt edit.oldString text p)
    ∨ ((∀ p, ¬ OccursAt edit.oldString text p) ∧ ∃! k, RunAt text edit k)

/-- No two places of the old string overlap; nor, where there are none, do
two runs of lines. -/
def PlacesApart (text : Text) (edit : EditSpec) : Prop :=
  FarApart (OccursAt edit.oldString text) edit.oldString.length
    ∧ ((∀ p, ¬ OccursAt edit.oldString text p) →
      FarApart (RunAt text edit) (wantedLines edit).length)

/-- An edit placed once is unambiguous exactly when its places are
apart. -/
theorem unambiguous_iff (h : Found text edit spans)
    (hone : spans.length = 1) :
    Unambiguous text edit ↔ PlacesApart text edit := by
  cases h with
  | exact ps scan places each =>
      obtain ⟨span, rfl⟩ := List.length_eq_one_iff.1 hone
      subst places
      have hsome : ¬ ∀ p, ¬ OccursAt edit.oldString text p :=
        fun hnone => hnone _ (scan.mem _ List.mem_cons_self)
      unfold Unambiguous PlacesApart
      rw [scan.unique_iff]
      constructor
      · rintro (hapart | ⟨hnone, -⟩)
        · exact ⟨hapart, fun hnone => absurd hnone hsome⟩
        · exact absurd hnone hsome
      · exact fun hapart => .inl hapart.1
  | normalised ps none scan each =>
      obtain ⟨span, rfl⟩ := List.length_eq_one_iff.1 hone
      obtain ⟨p, rfl⟩ := List.length_eq_one_iff.1 each.length_eq
      unfold Unambiguous PlacesApart
      rw [scan.unique_iff]
      constructor
      · rintro (⟨p, hp, -⟩ | ⟨-, hapart⟩)
        · exact absurd hp (none p)
        · exact ⟨fun p _ hp => absurd hp (none p), fun _ => hapart⟩
      · exact fun hapart => .inr ⟨none, hapart.2 none⟩

/-- One place of an edit. -/
def Located (text : Text) (edit : EditSpec) (span : Span) : Prop :=
  ExactSpan text edit span
    ∨ ((∀ p, ¬ OccursAt edit.oldString text p)
      ∧ ∃ k, RunSpan text edit k span)

theorem Found.located (h : Found text edit spans) :
    ∀ span ∈ spans, Located text edit span := by
  cases h with
  | exact ps scan places each =>
      intro span hspan
      exact .inl (each span hspan)
  | normalised ps none scan each =>
      intro span hspan
      obtain ⟨k, -, hrun⟩ := forall₂_mem_right each hspan
      exact .inr ⟨none, k, hrun⟩

theorem Located.lt (hne : edit.oldString ≠ []) (h : Located text edit span) :
    span.start < span.stop := by
  rcases h with h | ⟨-, k, h⟩
  · have hpos := List.length_pos_of_ne_nil hne
    rw [h.stop]
    omega
  · exact h.lt

theorem Located.stop_le (hne : edit.oldString ≠ [])
    (h : Located text edit span) : span.stop ≤ text.length := by
  rcases h with h | ⟨-, k, h⟩
  · have hlen := h.occurs.length_le
    have hpos := List.length_pos_of_ne_nil hne
    rw [List.length_drop] at hlen
    rw [h.stop]
    omega
  · exact h.stop_le

end Locating

end Elitea.LocalTools.Edit
