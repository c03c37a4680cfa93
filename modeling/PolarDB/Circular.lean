import Mathlib.Logic.Function.Basic

/-!
# Circular arrays

`size` cells of an array of length `n`, from `head` on, with the index
taken modulo `n` (`window`). Writing the cell behind the window appends
to it, moving the head drops from it, and shrinking the size takes from
it, as long as the window is not larger than the array.
-/

namespace PolarDB

open Function List

variable {α : Type} {a : Nat → α} {n head size : Nat}

def window (a : Nat → α) (n head size : Nat) : List α :=
  (List.range size).map fun i => a ((head + i) % n)

@[simp] theorem window_length (a : Nat → α) (n head size : Nat) :
    (window a n head size).length = size := by
  rw [window, length_map, length_range]

theorem window_getElem? (a : Nat → α) (n head : Nat) {size i : Nat} (hi : i < size) :
    (window a n head size)[i]? = some (a ((head + i) % n)) := by
  rw [window, getElem?_map, getElem?_range hi]
  rfl

theorem mod_ne_of_lt {p q : Nat} (hpq : p < q) (hq : q < p + n) : p % n ≠ q % n := by
  intro heq
  have hzero := Nat.sub_mod_eq_zero_of_mod_eq heq.symm
  rw [Nat.mod_eq_of_lt (by omega)] at hzero
  omega

theorem window_index_ne {i j : Nat} (hij : i < j) (hj : j < n) :
    (head + i) % n ≠ (head + j) % n :=
  mod_ne_of_lt (by omega) (by omega)

theorem window_succ (a : Nat → α) (n head size : Nat) :
    window a n head (size + 1) = window a n head size ++ [a ((head + size) % n)] := by
  rw [window, range_succ, map_append]
  rfl

theorem window_update_of_ne {k : Nat} (x : α) (hne : ∀ i < size, (head + i) % n ≠ k) :
    window (update a k x) n head size = window a n head size := by
  refine map_congr_left fun i hi => ?_
  exact update_of_ne (hne i (mem_range.mp hi)) x a

theorem window_push (a : Nat → α) (head : Nat) (x : α) (hsize : size < n) :
    window (update a ((head + size) % n) x) n head (size + 1) = window a n head size ++ [x] := by
  rw [window_succ, update_self, window_update_of_ne x fun i hi => window_index_ne hi hsize]

theorem window_take (a : Nat → α) (n head : Nat) {size k : Nat} (hk : k ≤ size) :
    window a n head k = (window a n head size).take k := by
  rw [window, window, ← map_take, take_range, Nat.min_eq_left hk]

theorem window_drop (a : Nat → α) (n head k size : Nat) :
    window a n ((head + k) % n) (size - k) = (window a n head size).drop k := by
  refine ext_getElem? fun i => ?_
  rw [getElem?_drop]
  by_cases hi : i < size - k
  · rw [window_getElem? a n _ hi, window_getElem? a n head (by omega), Nat.mod_add_mod,
      Nat.add_assoc]
  · rw [getElem?_eq_none (by rw [window_length]; omega),
      getElem?_eq_none (by rw [window_length]; omega)]

end PolarDB
