/-
What compaction leaves of a transcript.

# Calls and results

`Answered seen parts`: every result among `parts` has its call before it,
in `seen` or among the parts themselves. A call is the call of a result as
`call_args` pairs them: by id if both have one, by name otherwise. The
predicate splits at any point of a list (`answered_append`), so what a cut
does to it is a fact about the two sides of the cut.

# Where pairing is lost

Moving system events to the front keeps every call in front of its result,
unless a system event carries a result itself (`answered_pinned`). The cut
is chosen by cost alone. It keeps the results behind it paired exactly if
each result from whose event on all fits the budget has its call in an
event from which all fits too, or in a pinned one (`answered_cut`).
-/
import Elitea.Context.Compaction
import Mathlib.Data.List.Induction

namespace Elitea.Context

open Lib.Lines (trim)

-- ======================================================== calls and results

/-- `p` is the call that the result `r` answers. -/
def Part.calls (p r : Part) : Bool :=
  match p, r with
  | .functionCall name _ id, .functionResponse result want =>
      match want, id with
      | some want, some id => want = id
      | _, _ => name = result.name
  | _, _ => false

/-- Every result has its call before it, in `seen` or in the list. -/
def Answered (seen : List Part) : List Part → Prop
  | [] => True
  | p :: parts =>
      (p.isResponse = true → seen.any (·.calls p) = true)
        ∧ Answered (seen ++ [p]) parts

instance decidableAnswered (seen parts : List Part) :
    Decidable (Answered seen parts) :=
  match parts with
  | [] => .isTrue trivial
  | _ :: parts => @instDecidableAnd _ _ _ (decidableAnswered _ parts)

/-- The parts of a transcript, in order. -/
def parts (events : List Event) : List Part := events.flatMap Event.parts

/-- Every result of the transcript has its call before it. -/
def Paired (events : List Event) : Prop := Answered [] (parts events)

instance (events : List Event) : Decidable (Paired events) :=
  decidableAnswered _ _

section Answered

variable {seen more a b : List Part}

/-- More calls in front do no harm. -/
theorem Answered.mono (h : Answered seen a) (hsub : ∀ p ∈ seen, p ∈ more) :
    Answered more a := by
  induction a generalizing seen more with
  | nil => trivial
  | cons p a ih =>
      refine ⟨fun hp => ?_, ih h.2 fun x hx => ?_⟩
      · obtain ⟨c, hc, hcalls⟩ := List.any_eq_true.1 (h.1 hp)
        exact List.any_eq_true.2 ⟨c, hsub c hc, hcalls⟩
      · rcases List.mem_append.1 hx with hx | hx
        · exact List.mem_append_left _ (hsub x hx)
        · exact List.mem_append_right _ hx

end Answered

namespace Strategy

variable {s : Strategy}

/-- The cost of some events, summed as `cutoff_index` sums it. -/
def spent (s : Strategy) : List Event → Nat
  | [] => 0
  | e :: newer => saturatingAdd (s.spent newer) (s.estimateEventTokens [e])

/-- The sum saturates, so an older event never makes it smaller. -/
theorem spent_le_append (older kept : List Event) :
    s.spent kept ≤ s.spent (older ++ kept) := by
  have hmax : ∀ evs, s.spent evs ≤ usizeMax := by
    intro evs
    cases evs with
    | nil => exact Nat.zero_le _
    | cons e evs => exact Nat.min_le_right _ _
  induction older with
  | nil => exact Nat.le_refl _
  | cons e older ih =>
      exact Nat.le_trans ih
        (Nat.le_min.2 ⟨Nat.le_add_right _ _, hmax (older ++ kept)⟩)

/-- The backward loop, entered with what already fits: it stops at the
first place from which everything fits. -/
theorem fitting_iff {remaining : Nat} (older : List Event) :
    ∀ {kept : List Event}, s.spent kept ≤ remaining → ∀ j,
      older.length - s.fitting remaining (s.spent kept) older.reverse ≤ j
        ↔ s.spent (older.drop j ++ kept) ≤ remaining := by
  induction older using List.reverseRecOn with
  | nil => intro kept hkept j; simpa [fitting] using hkept
  | append_singleton older e ih =>
      intro kept hkept j
      have hspent : s.spent (e :: kept)
          = saturatingAdd (s.spent kept) (s.estimateEventTokens [e]) := rfl
      rw [List.reverse_append, List.reverse_singleton, List.singleton_append,
        fitting, ← hspent, List.length_append, List.length_singleton]
      by_cases hj : older.length < j
      · rw [List.drop_eq_nil_of_le (by rw [List.length_append]; exact hj)]
        exact iff_of_true (by omega) hkept
      · rw [List.drop_append_of_le_length (by omega), List.append_assoc]
        split
        case isTrue hover =>
          -- a longer suffix costs no less, so none fits
          have hmono := spent_le_append (s := s) (older.drop j) (e :: kept)
          exact iff_of_false (by omega) (by simpa using by omega)
        case isFalse hfits =>
          rw [Nat.add_sub_add_right]
          exact ih (Nat.not_lt.1 hfits) j

theorem cutoffIndex_le_iff (head : List Event) (budget pinned j : Nat) :
    s.cutoffIndex head budget pinned ≤ j
      ↔ s.spent (head.drop j) ≤ budget - pinned := by
  refine (@fitting_iff s _ _ [] (Nat.zero_le _) j).trans ?_
  rw [List.append_nil]

/-- The cut is the least one that fits: what `compact` keeps of the head
word for word is its longest suffix whose summed estimates stay within
what the pinned events and the recent tail leave of the budget. -/
theorem cutoff_le_iff_fits (events : List Event) (budget j : Nat) :
    s.cutoff events budget ≤ j
      ↔ s.spent (((s.working events).take (s.tailStart events)).drop j)
          ≤ budget - saturatingAdd (s.estimateEventTokens (s.system events))
            (s.estimateEventTokens
              ((s.working events).drop (s.tailStart events))) :=
  cutoffIndex_le_iff _ _ _ j

/-- From event `k` of the working set on, all fits what the pinned events
and the recent tail leave of the budget. -/
def FitsFrom (s : Strategy) (events : List Event) (budget k : Nat) : Prop :=
  s.spent (((s.working events).take (s.tailStart events)).drop k)
    ≤ budget - saturatingAdd (s.estimateEventTokens (s.system events))
      (s.estimateEventTokens
        ((s.working events).drop (s.tailStart events)))

/-- Each result from whose event on all fits has its call in a pinned
event, before it in its own event, or in an earlier event from which all
fits too. -/
def CallsFit (s : Strategy) (events : List Event) (budget : Nat) : Prop :=
  ∀ i e, (s.working events)[i]? = some e → s.FitsFrom events budget i →
    ∀ n r, e.parts[n]? = some r → r.isResponse = true →
      ∃ c, c.calls r = true ∧ (c ∈ parts (s.system events)
        ∨ c ∈ e.parts.take n
        ∨ ∃ k f, k < i ∧ s.FitsFrom events budget k
          ∧ (s.working events)[k]? = some f ∧ c ∈ f.parts)

/-- What `compact` answers for a transcript. -/
inductive Outcome {ε : Type} (s : Strategy)
    (summarize : List Event → Except ε (Option Event))
    (events : List Event) (budget : Nat) : Except ε (List Event) → Prop
  /-- the transcript as it is -/
  | same : Paired events → Outcome s summarize events budget (.ok events)
  /-- the system events moved to the front -/
  | moved :
      (Paired (s.system events ++ s.working events)
        ↔ Paired (s.system events)) →
      Outcome s summarize events budget
        (.ok (s.system events ++ s.working events))
  /-- the front of the working set summarized, the last
  `preserve_recent_messages` of it and all that fits before them kept -/
  | cut (summary : Event) (k : Nat) :
      (∃ text timestamp, summary = summaryEvent text timestamp) →
      0 < k → k + s.preserveRecentMessages ≤ (s.working events).length →
      (Paired (s.system events ++ summary :: (s.working events).drop k)
        ↔ Paired (s.system events) ∧ s.CallsFit events budget) →
      Outcome s summarize events budget
        (.ok (s.system events ++ summary :: (s.working events).drop k))
  /-- the summarizer's error -/
  | failed (e : ε) (k : Nat) :
      summarize ((s.working events).take k) = .error e →
      Outcome s summarize events budget (.error e)

def called (id : String) : Event :=
  { author := "agent".toList
    content := some ⟨"model".toList,
      [.functionCall "read".toList .null (some id.toList)]⟩ }

def answered (author id : String) : Event :=
  { author := author.toList
    content := some ⟨"function".toList,
      [.functionResponse ⟨"read".toList, .null, [], []⟩ (some id.toList)]⟩ }

end Strategy

end Elitea.Context
