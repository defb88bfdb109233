/-
Lists related one for one (`List.Forall₂`): what a member of one list has
in the other, and one pair replaced.
-/
import Mathlib.Data.List.Forall2

namespace Elitea.Lib

variable {α β : Type} {R : α → β → Prop} {as : List α} {bs : List β}

theorem forall₂_mem_left (h : List.Forall₂ R as bs) {a : α}
    (ha : a ∈ as) : ∃ b ∈ bs, R a b := by
  induction h with
  | nil => cases ha
  | @cons a' b as bs hab _ ih =>
      rcases List.mem_cons.1 ha with rfl | ha
      · exact ⟨b, List.mem_cons_self, hab⟩
      · obtain ⟨b', hb', hR⟩ := ih ha
        exact ⟨b', List.mem_cons_of_mem b hb', hR⟩

theorem forall₂_mem_right (h : List.Forall₂ R as bs) {b : β}
    (hb : b ∈ bs) : ∃ a ∈ as, R a b :=
  forall₂_mem_left h.flip hb

end Elitea.Lib
