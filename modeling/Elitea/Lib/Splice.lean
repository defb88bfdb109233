/-
Replacing ranges of a list. The ranges are given by their positions in the
original, one after the other (`InOrder`); `splice` copies what is between
them and puts each range's new elements in its place.

`Spliced` says what the result is without the positions' arithmetic: the
original is cut into kept and replaced pieces, and the result has the kept
ones as they are. It also names where each replacement is in the result.
-/
import Mathlib.Data.List.Basic

namespace Elitea.Lib

variable {α : Type}

/-- A range of a list and what replaces it. -/
structure Block (α : Type) where
  start : Nat
  stop : Nat
  new : List α
deriving DecidableEq, Repr

/-- Ranges one after the other, from a position to the end. -/
def InOrder (position length : Nat) : List (Block α) → Prop
  | [] => True
  | block :: rest =>
      position ≤ block.start ∧ block.start ≤ block.stop
        ∧ block.stop ≤ length ∧ InOrder block.stop length rest

/-- `out` is the list with the ranges replaced, and `places` are where the
replacements are in it. The list starts at position `i` of the original
and `out` at position `j` of the result. -/
inductive Spliced : Nat → Nat → List α → List (Block α) → List α →
    List (Nat × Nat) → Prop
  | rest {i j : Nat} {list : List α} : Spliced i j list [] list []
  | block {i j : Nat} {kept old list out : List α} {block : Block α}
      {blocks : List (Block α)} {places : List (Nat × Nat)}
      (start : block.start = i + kept.length)
      (stop : block.stop = block.start + old.length)
      (later : Spliced block.stop (j + kept.length + block.new.length) list
        blocks out places) :
      Spliced i j (kept ++ (old ++ list)) (block :: blocks)
        (kept ++ (block.new ++ out))
        ((j + kept.length, j + kept.length + block.new.length) :: places)

/-- The list from position `i` on, with the ranges replaced. -/
def splice (i : Nat) (list : List α) : List (Block α) → List α
  | [] => list
  | block :: rest =>
      list.take (block.start - i) ++ (block.new
        ++ splice block.stop (list.drop (block.stop - i)) rest)

/-- Where the replacements are in the result. -/
def places (i j : Nat) : List (Block α) → List (Nat × Nat)
  | [] => []
  | block :: rest =>
      let first := j + (block.start - i)
      (first, first + block.new.length)
        :: places block.stop (first + block.new.length) rest

/-- `splice` replaces the ranges and nothing else. -/
theorem spliced_splice {blocks : List (Block α)} {i j : Nat}
    {list : List α} (h : InOrder i (i + list.length) blocks) :
    Spliced i j list blocks (splice i list blocks) (places i j blocks) := by
  induction blocks generalizing i j list with
  | nil => exact .rest
  | cons block rest ih =>
      obtain ⟨hle, hstart, hstop, hlater⟩ := h
      have hkept : (list.take (block.start - i)).length
          = block.start - i := by
        rw [List.length_take]
        omega
      have hcut : list = list.take (block.start - i)
          ++ ((list.drop (block.start - i)).take (block.stop - block.start)
            ++ list.drop (block.stop - i)) := by
        have hback : list.drop (block.stop - i)
            = (list.drop (block.start - i)).drop
              (block.stop - block.start) := by
          rw [List.drop_drop]
          congr 1
          omega
        rw [hback, List.take_append_drop, List.take_append_drop]
      have hrest : InOrder block.stop
          (block.stop + (list.drop (block.stop - i)).length) rest := by
        have hlength : block.stop + (list.drop (block.stop - i)).length
            = i + list.length := by
          rw [List.length_drop]
          omega
        rw [hlength]
        exact hlater
      have hspliced := ih hrest
        (j := j + (block.start - i) + block.new.length)
      have hblock : Spliced i j (list.take (block.start - i)
            ++ ((list.drop (block.start - i)).take
              (block.stop - block.start) ++ list.drop (block.stop - i)))
          (block :: rest) (splice i list (block :: rest))
          ((j + (list.take (block.start - i)).length,
            j + (list.take (block.start - i)).length + block.new.length)
            :: places block.stop
              (j + (block.start - i) + block.new.length) rest) := by
        refine .block ?_ ?_ ?_
        · rw [hkept]
          omega
        · rw [List.length_take, List.length_drop]
          omega
        · rw [hkept]
          exact hspliced
      rw [← hcut, hkept] at hblock
      exact hblock

/-- Every element of a splice is one of the list or of a range. -/
theorem mem_splice {blocks : List (Block α)} {i : Nat} {list : List α}
    {a : α} (h : a ∈ splice i list blocks) :
    a ∈ list ∨ ∃ block ∈ blocks, a ∈ block.new := by
  induction blocks generalizing i list with
  | nil => exact .inl h
  | cons block rest ih =>
      rw [splice] at h
      rcases List.mem_append.1 h with h | h
      · exact .inl (List.mem_of_mem_take h)
      · rcases List.mem_append.1 h with h | h
        · exact .inr ⟨block, List.mem_cons_self, h⟩
        · rcases ih h with h | ⟨other, hother, h⟩
          · exact .inl (List.mem_of_mem_drop h)
          · exact .inr ⟨other, List.mem_cons_of_mem _ hother, h⟩

end Elitea.Lib
