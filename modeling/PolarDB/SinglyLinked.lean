import Mathlib.Data.List.Pairwise

/-!
# Singly linked lists

A queue kept as a first element and, for every element, the one behind it;
`none` ends it. `Follows next o l` says that the links from `o` on pass
through the elements of `l` and end there. An element is added behind the
last one (`Follows.snoc`) and taken from the front (`Follows.tail`).
-/

namespace PolarDB

open Function List

variable {α : Type} {next next' : α → Option α} {o : Option α} {a b : α} {l : List α}

def Follows (next : α → Option α) : Option α → List α → Prop
  | o, [] => o = none
  | o, a :: l => o = some a ∧ Follows next (next a) l

theorem Follows.head (h : Follows next o l) : o = l.head? := by
  cases l with
  | nil => exact h
  | cons a l => exact h.1

theorem Follows.congr (h : Follows next o l) (hnext : ∀ a ∈ l, next' a = next a) :
    Follows next' o l := by
  induction l generalizing o with
  | nil => exact h
  | cons a l ih =>
    refine ⟨h.1, ?_⟩
    rw [hnext a mem_cons_self]
    exact ih h.2 fun b hb => hnext b (mem_cons_of_mem a hb)

theorem Follows.snoc [DecidableEq α] (h : Follows next o l) (hl : l.getLast? = some b)
    (hnd : l.Nodup) (ha : a ∉ l) (hend : next a = none) :
    Follows (update next b (some a)) o (l ++ [a]) := by
  induction l generalizing o with
  | nil => cases hl
  | cons c l ih =>
    refine ⟨h.1, ?_⟩
    have hca : c ≠ a := fun e => ha (e ▸ mem_cons_self)
    rw [nodup_cons] at hnd
    cases l with
    | nil =>
      have hcb : c = b := by simpa using hl
      subst hcb
      rw [update_self]
      exact ⟨rfl, (update_of_ne hca.symm _ _).trans hend⟩
    | cons d l =>
      have hcb : c ≠ b := fun e => hnd.1 (e ▸ mem_of_getLast? hl)
      rw [update_of_ne hcb]
      exact ih h.2 hl hnd.2 fun hm => ha (mem_cons_of_mem c hm)

theorem Follows.tail [DecidableEq α] (h : Follows next o (a :: l)) (hnd : (a :: l).Nodup) :
    Follows (update next a none) (next a) l := by
  refine h.2.congr fun b hb => update_of_ne (fun e => ?_) _ _
  exact (nodup_cons.mp hnd).1 (e ▸ hb)

end PolarDB
