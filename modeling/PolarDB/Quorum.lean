import Mathlib.Data.List.Sort

/-!
# Majorities

The value that a majority has reached is the middle one of the sorted
values (`lt_two_mul_countP_middle`). Two majorities have a member in
common (`exists_mem_of_two_majorities`).
-/

namespace PolarDB

open List

variable {α : Type} [LinearOrder α] {l : List α} {x : α}

theorem length_sub_le_countP (hl : l.Pairwise (· ≤ ·)) {i : Nat} (hi : l[i]? = some x) :
    l.length - i ≤ l.countP (x ≤ ·) := by
  obtain ⟨hlt, rfl⟩ := List.getElem?_eq_some_iff.mp hi
  have hdrop := hl.drop (i := i)
  rw [drop_eq_getElem_cons hlt] at hdrop
  have hall : ∀ y ∈ l.drop i, decide (l[i] ≤ y) = true := by
    intro y hy
    rw [drop_eq_getElem_cons hlt] at hy
    rcases mem_cons.mp hy with rfl | hy
    · exact decide_eq_true (le_refl _)
    · exact decide_eq_true (rel_of_pairwise_cons hdrop hy)
  rw [← length_drop, ← countP_eq_length.mpr hall]
  exact (drop_sublist i l).countP_le

theorem lt_two_mul_countP_middle
    (hx : (l.insertionSort (· ≤ ·))[((l.insertionSort (· ≤ ·)).length - 1) / 2]? = some x) :
    l.length < 2 * l.countP (x ≤ ·) := by
  have hperm := perm_insertionSort (· ≤ ·) l
  have hcount := length_sub_le_countP (pairwise_insertionSort _ l) hx
  have hpos := (List.getElem?_eq_some_iff.mp hx).1
  rw [hperm.countP_eq, hperm.length_eq] at hcount
  rw [hperm.length_eq] at hpos
  omega

theorem exists_mem_of_two_majorities {β : Type} {m : List β} {p q : β → Bool}
    (hp : m.length < 2 * m.countP p) (hq : m.length < 2 * m.countP q) :
    ∃ y ∈ m, p y = true ∧ q y = true := by
  by_contra hnone
  push Not at hnone
  have hle : m.countP p ≤ m.countP fun y => !q y :=
    countP_mono_left fun y hy hpy => by simpa using hnone y hy hpy
  have hlen := length_eq_countP_add_countP q (l := m)
  simp only [Bool.not_eq_true, Bool.decide_eq_false] at hlen
  omega

end PolarDB
