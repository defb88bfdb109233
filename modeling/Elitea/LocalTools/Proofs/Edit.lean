/-
String edits land where they were found and change nothing else.

The spans of all edits are nonempty and, once sorted and checked, one
after the other (`Placed`). There is therefore one way to sort them,
whatever order the edits came in (`sorted_unique`), and `splice` copies
what is between them (`Lib.Spliced`). Its count of line feeds is that of
what it wrote so far, so the ranges it reports are those of the new text
(`spliceFrom_eq`).
-/
import Mathlib.Data.List.Chain
import Mathlib.Data.List.Pairwise
import Elitea.Lib.Splice
import Elitea.LocalTools.Proofs.EditPlaces

namespace Elitea.LocalTools.Edit

open Lib
open Lib.Lines

-- ================================================================= placing

/-- An edit that can be placed. -/
def Ready (text : Text) (edit : EditSpec) : Prop :=
  edit.oldString ≠ [] ∧ edit.oldString ≠ edit.newString
    ∧ ∃ found, locate text edit = .ok found

/-- The places of an edit. -/
def found (text : Text) (edit : EditSpec) : List Span :=
  match locate text edit with
  | .ok result => result.1
  | .error _ => []

section Placing

variable {text path : Text} {label : Nat → String} {edits : List EditSpec}
  {spans : List (Nat × Span)} {hows : List EditMatch}

theorem Ready.found {edit : EditSpec} (h : Ready text edit) :
    Found text edit (found text edit) ∧ found text edit ≠ []
      ∧ (edit.replaceAll = false → (found text edit).length = 1) := by
  obtain ⟨hne, -, ⟨spans, how⟩, hlocate⟩ := h
  unfold Edit.found
  rw [hlocate]
  exact locate_found hne hlocate

theorem Ready.span {edit : EditSpec} (h : Ready text edit) {span : Span}
    (hspan : span ∈ Edit.found text edit) :
    span.start < span.stop ∧ span.stop ≤ text.length := by
  have hlocated := h.found.1.located span hspan
  exact ⟨hlocated.lt h.1, hlocated.stop_le h.1⟩

theorem placedFrom_ok {index : Nat}
    (h : placedFrom text path label index edits = .ok (spans, hows)) :
    (∀ edit ∈ edits, Ready text edit)
      ∧ spans.map Prod.snd = edits.flatMap (found text)
      ∧ ∀ p ∈ spans, ∃ k edit, p.1 = index + k ∧ edits[k]? = some edit
        ∧ p.2 ∈ found text edit := by
  induction edits generalizing index spans hows with
  | nil =>
      obtain ⟨rfl, -⟩ := Prod.mk.inj (Except.ok.inj h)
      exact ⟨(fun _ h => nomatch h), rfl, (fun _ h => nomatch h)⟩
  | cons edit edits ih =>
      rw [placedFrom] at h
      obtain ⟨hempty, h⟩ := ite_error_eq_ok.1 h
      obtain ⟨hsame, h⟩ := ite_error_eq_ok.1 h
      split at h
      next => cases h
      next places how hlocate =>
        obtain ⟨⟨later, hows'⟩, hlater, h⟩ := bind_eq_ok.1 h
        obtain ⟨rfl, -⟩ := Prod.mk.inj (Except.ok.inj h)
        obtain ⟨hready, hspans, hindex⟩ := ih hlater
        have hfound : found text edit = places := by
          unfold found
          rw [hlocate]
        have hfirst : Ready text edit :=
          ⟨fun hnil => hempty (List.isEmpty_iff.2 hnil), hsame, _, hlocate⟩
        refine ⟨List.forall_mem_cons.2 ⟨hfirst, hready⟩, ?_, ?_⟩
        · rw [List.map_append, List.map_map, hspans, List.flatMap_cons,
            hfound]
          exact congrArg (· ++ _) (List.map_id _)
        · intro p hp
          rcases List.mem_append.1 hp with hp | hp
          · obtain ⟨span, hspan, rfl⟩ := List.mem_map.1 hp
            exact ⟨0, edit, rfl, rfl, hfound ▸ hspan⟩
          · obtain ⟨k, other, hk, hother, hspan⟩ := hindex p hp
            exact ⟨k + 1, other, by omega, hother, hspan⟩

theorem placedFrom_of_ready (index : Nat)
    (h : ∀ edit ∈ edits, Ready text edit) :
    ∃ placed, placedFrom text path label index edits = .ok placed := by
  induction edits generalizing index with
  | nil => exact ⟨_, rfl⟩
  | cons edit edits ih =>
      obtain ⟨⟨hne, hsame, ⟨places, how⟩, hlocate⟩, hlater⟩ :=
        List.forall_mem_cons.1 h
      obtain ⟨⟨later, hows⟩, hplaced⟩ := ih (index + 1) hlater
      have hempty : ¬ edit.oldString.isEmpty = true :=
        fun hnil => hne (List.isEmpty_iff.1 hnil)
      refine ⟨(places.map (index, ·) ++ later, how :: hows), ?_⟩
      rw [placedFrom, if_neg hempty, if_neg hsame, hlocate]
      dsimp only
      rw [hplaced]
      rfl

/-- One span ends before the next starts. -/
def Before (a b : Span) : Prop := a.stop ≤ b.start

theorem firstOverlap_eq_none :
    firstOverlap spans = none ↔ (spans.map Prod.snd).IsChain Before := by
  induction spans with
  | nil => exact iff_of_true rfl .nil
  | cons before rest ih =>
      cases rest with
      | nil => exact iff_of_true rfl (.singleton _)
      | cons after rest =>
          rw [firstOverlap, List.map_cons, List.map_cons,
            List.isChain_cons_cons, ← List.map_cons, ← ih]
          unfold Before
          by_cases hover : after.2.start < before.2.stop
          · rw [if_pos hover]
            exact iff_of_false (fun h => nomatch h)
              fun h => absurd h.1 (not_le.2 hover)
          · rw [if_neg hover]
            exact ⟨fun h => ⟨not_lt.1 hover, h⟩, And.right⟩

/-- Nonempty spans, each before the next: each before all later ones. -/
theorem pairwise_of_chain {l : List Span}
    (hlt : ∀ span ∈ l, span.start < span.stop) (h : l.IsChain Before) :
    l.Pairwise Before := by
  induction l with
  | nil => exact .nil
  | cons a l ih =>
      obtain ⟨-, hlater⟩ := List.forall_mem_cons.1 hlt
      have hrest := ih hlater h.tail
      refine List.pairwise_cons.2 ⟨fun b hb => ?_, hrest⟩
      cases l with
      | nil => cases hb
      | cons next l =>
          have hnext : a.stop ≤ next.start := (List.isChain_cons_cons.1 h).1
          rcases List.mem_cons.1 hb with rfl | hb
          · exact hnext
          · have hafter : next.stop ≤ b.start :=
              (List.pairwise_cons.1 hrest).1 b hb
            have hself := hlater next List.mem_cons_self
            show a.stop ≤ b.start
            omega

/-- What is accepted: every edit can be placed, and their places are one
after the other. -/
structure Placed (text : Text) (edits : List EditSpec)
    (spans : List Span) : Prop where
  ready : ∀ edit ∈ edits, Ready text edit
  perm : spans.Perm (edits.flatMap (found text))
  apart : spans.Pairwise Before

theorem Placed.span {spans : List Span} (h : Placed text edits spans)
    {span : Span} (hspan : span ∈ spans) :
    span.start < span.stop ∧ span.stop ≤ text.length := by
  obtain ⟨edit, hedit, hfound⟩ :=
    List.mem_flatMap.1 (h.perm.mem_iff.1 hspan)
  exact (h.ready edit hedit).span hfound

theorem sorted_starts (l : List (Nat × Span)) :
    ((l.insertionSort fun a b => a.2.start ≤ b.2.start).map
      Prod.snd).Pairwise fun a b => a.start ≤ b.start := by
  have htotal : Std.Total fun a b : Nat × Span => a.2.start ≤ b.2.start :=
    ⟨fun a b => Nat.le_total a.2.start b.2.start⟩
  have htrans : IsTrans (Nat × Span) fun a b => a.2.start ≤ b.2.start :=
    ⟨fun _ _ _ => Nat.le_trans⟩
  rw [List.pairwise_map]
  exact List.pairwise_insertionSort _ l

theorem placeEdits_ok
    (h : placeEdits text path edits label = .ok (spans, hows)) :
    Placed text edits (spans.map Prod.snd)
      ∧ ∀ p ∈ spans, ∃ edit, edits[p.1]? = some edit
        ∧ p.2 ∈ found text edit := by
  unfold placeEdits at h
  obtain ⟨⟨raw, hows'⟩, hraw, h⟩ := bind_eq_ok.1 h
  obtain ⟨hready, hspans, hindex⟩ := placedFrom_ok hraw
  dsimp only at h
  split at h
  next => cases h
  next hnone =>
    obtain ⟨rfl, -⟩ := Prod.mk.inj (Except.ok.inj h)
    have hperm := List.perm_insertionSort
      (fun a b : Nat × Span => a.2.start ≤ b.2.start) raw
    have hfound := hspans ▸ hperm.map Prod.snd
    constructor
    · refine ⟨hready, hfound, pairwise_of_chain (fun span hspan => ?_)
        (firstOverlap_eq_none.1 hnone)⟩
      obtain ⟨edit, hedit, hmem⟩ :=
        List.mem_flatMap.1 (hfound.mem_iff.1 hspan)
      exact ((hready edit hedit).span hmem).1
    · intro p hp
      obtain ⟨k, edit, hk, hedit, hmem⟩ :=
        hindex p (hperm.mem_iff.1 hp)
      rw [Nat.zero_add] at hk
      exact ⟨edit, hk ▸ hedit, hmem⟩

/-- There is one order in which accepted spans can be. -/
theorem sorted_unique {spans : List Span} {l : List Span}
    (h : Placed text edits spans)
    (hsorted : l.Pairwise fun a b => a.start ≤ b.start)
    (hperm : l.Perm spans) : l = spans := by
  have hsame : ∀ a ∈ spans, ∀ b ∈ spans, a.start = b.start → a = b := by
    intro a ha b hb heq
    by_contra hne
    have hsymm : Std.Symm fun a b => Before a b ∨ Before b a :=
      ⟨fun _ _ => Or.symm⟩
    have hpair : spans.Pairwise fun a b => Before a b ∨ Before b a :=
      h.apart.imp .inl
    have hor := hpair.forall ha hb hne
    have hlta := (h.span ha).1
    have hltb := (h.span hb).1
    unfold Before at hor
    omega
  refine List.Perm.eq_of_pairwise (fun a b ha hb hab hba => ?_) hsorted
    (h.apart.imp_of_mem fun {a b} ha hb hab => ?_) hperm
  · exact hsame a (hperm.mem_iff.1 ha) b hb (le_antisymm hab hba)
  · have hlt := (h.span ha).1
    unfold Before at hab
    show a.start ≤ b.start
    omega

/-- The order the edits are given in does not matter. -/
theorem placeEdits_perm {edits' : List EditSpec}
    (h : placeEdits text path edits label = .ok (spans, hows))
    (hperm : edits'.Perm edits) :
    ∃ spans' hows', placeEdits text path edits' label = .ok (spans', hows')
      ∧ spans'.map Prod.snd = spans.map Prod.snd := by
  obtain ⟨hplaced, -⟩ := placeEdits_ok h
  obtain ⟨⟨raw, hows'⟩, hraw⟩ :
      ∃ placed, placedFrom text path label 0 edits' = .ok placed :=
    placedFrom_of_ready 0 fun edit hedit =>
      hplaced.ready edit (hperm.mem_iff.1 hedit)
  obtain ⟨-, hspans, -⟩ := placedFrom_ok hraw
  have hsame := sorted_unique hplaced (sorted_starts raw) (by
    refine ((List.perm_insertionSort _ raw).map Prod.snd).trans ?_
    rw [hspans]
    exact (hperm.flatMap_right _).trans hplaced.perm.symm)
  refine ⟨_, hows', ?_, hsame⟩
  have hnone : firstOverlap
      (raw.insertionSort fun a b => a.2.start ≤ b.2.start) = none := by
    rw [firstOverlap_eq_none, hsame]
    exact hplaced.apart.isChain
  unfold placeEdits
  rw [hraw]
  dsimp only [Except.bind, bind]
  rw [hnone]

end Placing

-- ================================================================= splicing

/-- A span as a range of the text. -/
def Span.block (span : Span) : Block Char :=
  ⟨span.start, span.stop, span.new⟩

/-- The lines of a piece inside a text: from the line feeds before it. -/
theorem lineRange_piece (front piece back : Text) :
    lineRange (front ++ (piece ++ back)) front.length
        (front.length + piece.length)
      = if piece.isEmpty then (front.count '\n', front.count '\n')
        else if piece.getLast? = some '\n' then
          (front.count '\n', front.count '\n' + piece.count '\n')
        else (front.count '\n', front.count '\n' + piece.count '\n' + 1) := by
  have hfront : (front ++ (piece ++ back)).take front.length = front :=
    List.take_left
  have hupto : (front ++ (piece ++ back)).take
      (front.length + piece.length) = front ++ piece := by
    rw [← List.append_assoc, ← List.length_append, List.take_left]
  unfold lineRange
  rw [hfront, hupto]
  by_cases hempty : piece = []
  · subst hempty
    rw [if_pos (by simp)]
    rfl
  · have hpos := List.length_pos_of_ne_nil hempty
    have hlast : (front ++ piece).getLast? = piece.getLast? := by
      rw [List.getLast?_append_of_ne_nil front hempty]
    rw [if_neg (by omega), if_neg (by simpa using hempty)]
    dsimp only
    rw [hlast, List.count_append]
    split <;> rfl

section Splicing

variable {text : Text}

theorem inOrder_of_before {spans : List Span} {position : Nat}
    (hpair : spans.Pairwise Before)
    (h : ∀ span ∈ spans, position ≤ span.start ∧ span.start < span.stop
      ∧ span.stop ≤ text.length) :
    InOrder position text.length (spans.map Span.block) := by
  induction spans generalizing position with
  | nil => trivial
  | cons span spans ih =>
      obtain ⟨⟨hle, hlt, hstop⟩, hlater⟩ := List.forall_mem_cons.1 h
      obtain ⟨hbefore, hrest⟩ := List.pairwise_cons.1 hpair
      exact ⟨hle, le_of_lt hlt, hstop, ih hrest fun other hother =>
        ⟨hbefore other hother, (hlater other hother).2⟩⟩

/-- The loop writes the splice. `written` is what it wrote before; its
line feeds are the loop's count, so the ranges are those of the whole new
text. -/
theorem spliceFrom_eq {spans : List Span} {position : Nat}
    (h : InOrder position text.length (spans.map Span.block))
    (written : Text) :
    (spliceFrom text position (written.count '\n') spans).1
        = Lib.splice position (text.drop position) (spans.map Span.block)
      ∧ (spliceFrom text position (written.count '\n') spans).2
        = (places position written.length (spans.map Span.block)).map
          fun place => lineRange (written ++ Lib.splice position
            (text.drop position) (spans.map Span.block)) place.1 place.2 := by
  induction spans generalizing position written with
  | nil => exact ⟨rfl, rfl⟩
  | cons span spans ih =>
      obtain ⟨hle, hlt, hstop, hlater⟩ := h
      change position ≤ span.start at hle
      change span.start ≤ span.stop at hlt
      change span.stop ≤ text.length at hstop
      generalize hkept : (text.take span.start).drop position = kept
      have hfront : (text.drop position).take (span.start - position)
          = kept := by
        rw [← hkept, List.drop_take]
      have hback : (text.drop position).drop (span.stop - position)
          = text.drop span.stop := by
        rw [List.drop_drop]
        congr 1
        omega
      have hlength : kept.length = span.start - position := by
        rw [← hkept, List.length_drop, List.length_take]
        omega
      have hcount : written.count '\n' + kept.count '\n'
          + span.new.count '\n'
          = (written ++ (kept ++ span.new)).count '\n' := by
        rw [List.count_append, List.count_append, Nat.add_assoc]
      have hsum : (written ++ (kept ++ span.new)).length
          = written.length + (span.start - position) + span.new.length := by
        rw [List.length_append, List.length_append, hlength, Nat.add_assoc]
      obtain ⟨hout, hranges⟩ := ih hlater (written ++ (kept ++ span.new))
      rw [hsum] at hranges
      rw [List.map_cons, Lib.splice, places, spliceFrom]
      dsimp only [Span.block] at hout hranges ⊢
      rw [hkept, hcount, hfront, hback, hout, hranges]
      generalize Lib.splice span.stop (text.drop span.stop)
        (spans.map Span.block) = out
      refine ⟨rfl, ?_⟩
      have hrest : written ++ (kept ++ (span.new ++ out))
          = written ++ (kept ++ span.new) ++ out := by
        simp only [List.append_assoc]
      have hpiece := lineRange_piece (written ++ kept) span.new out
      rw [List.length_append, List.count_append, hlength,
        List.append_assoc] at hpiece
      rw [List.map_cons, hpiece, hrest, ← hcount]

/-- The new text is the splice, and the ranges are the lines its
replacements take. -/
theorem splice_spliced {spans : List Span}
    (h : InOrder 0 text.length (spans.map Span.block)) :
    ∃ ps, Spliced 0 0 text (spans.map Span.block) (splice text spans).1 ps
      ∧ (splice text spans).2 = ps.map fun place =>
        lineRange (splice text spans).1 place.1 place.2 := by
  obtain ⟨hout, hranges⟩ := spliceFrom_eq h []
  change (splice text spans).1 = _ at hout
  change (splice text spans).2 = _ at hranges
  refine ⟨places 0 0 (spans.map Span.block), ?_, ?_⟩
  · rw [hout]
    exact spliced_splice (by rwa [Nat.zero_add])
  · rw [hranges, hout]
    rfl

end Splicing

-- ============================================================== the result

/-- Edits land where they were found and change nothing else. Of an
accepted list: an edit that is to be placed once is unambiguous exactly
when no two of its places overlap; every span is a place of its edit,
exact or (the old string then stands nowhere) a run of whole lines with
the new string's lines shifted, which is the shift of the run exactly when
its indentation is uniform; the new text is the original with the
spans of all edits replaced, in whatever order the edits are given; and
the reported ranges are the lines of the replacements in the new text. -/
theorem edits_land {text path : Text} {edits : List EditSpec}
    {label : Nat → String} {spans : List (Nat × Span)}
    {hows : List EditMatch}
    (h : placeEdits text path edits label = .ok (spans, hows)) :
    (∀ edit ∈ edits, edit.replaceAll = false →
      (Unambiguous text edit ↔ PlacesApart text edit))
    ∧ (∀ edit ∈ edits, edit.replaceAll = false →
      ∃ span, found text edit = [span])
    ∧ (∀ p ∈ spans, ∃ edit, edits[p.1]? = some edit
      ∧ Located text edit p.2)
    ∧ (∀ (shift : Shift) (file pattern : Text),
      shift.Fits file pattern →
        (shift.Moves pattern file ↔ shift.Uniform file pattern))
    ∧ (spans.map Prod.snd).Perm (edits.flatMap (found text))
    ∧ (∃ places,
      Spliced 0 0 text ((spans.map Prod.snd).map Span.block)
        (splice text (spans.map Prod.snd)).1 places
      ∧ (splice text (spans.map Prod.snd)).2
        = places.map fun place =>
          lineRange (splice text (spans.map Prod.snd)).1 place.1 place.2)
    ∧ ∀ edits', edits'.Perm edits →
      ∃ spans' hows',
        placeEdits text path edits' label = .ok (spans', hows')
          ∧ splice text (spans'.map Prod.snd)
            = splice text (spans.map Prod.snd) := by
  obtain ⟨hplaced, hindex⟩ := placeEdits_ok h
  have hready : ∀ edit ∈ edits, edit.replaceAll = false →
      Found text edit (found text edit)
        ∧ (found text edit).length = 1 := by
    intro edit hedit honce
    obtain ⟨hfound, -, hone⟩ := (hplaced.ready edit hedit).found
    exact ⟨hfound, hone honce⟩
  refine ⟨fun edit hedit honce => ?_, fun edit hedit honce => ?_,
    fun p hp => ?_, fun _ _ _ hfits => hfits.moves_iff, hplaced.perm, ?_,
    fun edits' hperm => ?_⟩
  · obtain ⟨hfound, hone⟩ := hready edit hedit honce
    exact unambiguous_iff hfound hone
  · exact List.length_eq_one_iff.1 (hready edit hedit honce).2
  · obtain ⟨edit, hedit, hspan⟩ := hindex p hp
    have hmem := List.mem_of_getElem? hedit
    exact ⟨edit, hedit,
      (hplaced.ready edit hmem).found.1.located p.2 hspan⟩
  · have horder : InOrder 0 text.length
        ((spans.map Prod.snd).map Span.block) :=
      inOrder_of_before hplaced.apart fun span hspan =>
        ⟨Nat.zero_le _, hplaced.span hspan⟩
    exact splice_spliced horder
  · obtain ⟨spans', hows', hplace, hsame⟩ := placeEdits_perm h hperm
    exact ⟨spans', hows', hplace, by rw [hsame]⟩

/-- A file with CRLF endings, and two edits: a line found up to its
indentation and ending, and a word. -/
def crlfText : Text := "x\r\n  if a\r\ny\r\n".toList

def crlfEdits : List EditSpec :=
  [⟨"if a\n".toList, "if b\n".toList, false⟩,
    ⟨"y".toList, "z".toList, false⟩]

def crlfSpans : List (Nat × Span) :=
  [(0, ⟨3, 11, "  if b\r\n".toList⟩), (1, ⟨11, 12, "z".toList⟩)]

/-- Both land, in either order. -/
theorem edits_land_crlf :
    let out := "x\r\n  if b\r\nz\r\n".toList
    placeEdits crlfText [] crlfEdits (fun _ => "")
        = .ok (crlfSpans, [.normalised, .exact])
      ∧ (∀ edit ∈ crlfEdits,
        (Unambiguous crlfText edit ↔ PlacesApart crlfText edit)
          ∧ ∃ span, found crlfText edit = [span])
      ∧ (∀ p ∈ crlfSpans, ∃ edit, crlfEdits[p.1]? = some edit
        ∧ Located crlfText edit p.2)
      ∧ (crlfSpans.map Prod.snd).Perm (crlfEdits.flatMap (found crlfText))
      ∧ (∃ places, Spliced 0 0 crlfText
          ((crlfSpans.map Prod.snd).map Span.block) out places
        ∧ [(1, 2), (2, 3)] = places.map fun place =>
          lineRange out place.1 place.2)
      ∧ ∀ edits', edits'.Perm crlfEdits →
        ∃ spans' hows',
          placeEdits crlfText [] edits' (fun _ => "") = .ok (spans', hows')
            ∧ splice crlfText (spans'.map Prod.snd)
              = (out, [(1, 2), (2, 3)]) := by
  have hplace : placeEdits crlfText [] crlfEdits (fun _ => "")
      = .ok (crlfSpans, [.normalised, .exact]) := by decide +kernel
  have honce : ∀ edit ∈ crlfEdits, edit.replaceAll = false := by decide
  obtain ⟨hclear, hone, hlocated, -, hperm, hsplice, horder⟩ :=
    edits_land hplace
  exact ⟨hplace, fun edit hedit => ⟨hclear edit hedit (honce edit hedit),
    hone edit hedit (honce edit hedit)⟩, hlocated, hperm, hsplice, horder⟩

/-- Two places that overlap are taken for one, by both matchers: the old
string stands at two positions of the first text, and two runs of lines of
the second match. In the third the file's line has two blanks more behind
its tab, and the new line gets them in front. -/
theorem overlap_taken_for_one :
    (placeEdits "aaa".toList [] [⟨"aa".toList, "b".toList, false⟩]
        (fun _ => "") = .ok ([(0, ⟨0, 2, "b".toList⟩)], [.exact])
      ∧ OccursAt "aa".toList "aaa".toList 0
      ∧ OccursAt "aa".toList "aaa".toList 1)
    ∧ placeEdits " a\n a\n a\n".toList []
        [⟨"a\na\n".toList, "b\n".toList, false⟩] (fun _ => "")
        = .ok ([(0, ⟨0, 6, " b\n".toList⟩)], [.normalised])
      ∧ RunAt " a\n a\n a\n".toList
        ⟨"a\na\n".toList, "b\n".toList, false⟩ 0
      ∧ RunAt " a\n a\n a\n".toList
        ⟨"a\na\n".toList, "b\n".toList, false⟩ 1
      ∧ placeEdits "\t  a\n".toList []
        [⟨"\ta\n".toList, "\tb\n".toList, false⟩] (fun _ => "")
        = .ok ([(0, ⟨0, 5, "  \tb\n".toList⟩)], [.normalised]) := by
  have hrun : ∀ k ∈ [0, 1], WindowAt (fileLines " a\n a\n a\n".toList)
      (wantedLines ⟨"a\na\n".toList, "b\n".toList, false⟩) k := by
    unfold WindowAt
    decide +kernel
  refine ⟨⟨by decide +kernel, ⟨['a'], rfl⟩, ⟨[], rfl⟩⟩, by decide +kernel,
    windowAt_iff.1 (hrun 0 (by decide)), windowAt_iff.1 (hrun 1 (by decide)),
    by decide +kernel⟩

end Elitea.LocalTools.Edit
