import PolarDB.Lts
import PolarDB.SinglyLinked

/-!
# Successor lists

`polar_successor_list` hands out the items `0, …, n - 1` of an array in
shared memory. The free ones are linked through an array of successors; an
item that is handed out has none. Over every run in which only items that
are out are given back, the free items, in the order of the links, and
those that are out make up all items (`items_partition`).
-/

namespace PolarDB

open Function List

/-- `polar_successor_list`. `none` is `POLAR_SUCCESSOR_LIST_NIL`. -/
structure SuccessorList where
  freeHead : Option Nat
  items : Nat → Option Nat

namespace SuccessorList

def linkItems (items : Nat → Option Nat) (totalItems : Nat) : Nat → Option Nat :=
  (range totalItems).foldl (fun items i => update items i (some (i + 1))) items

def init (list : SuccessorList) (totalItems : Nat) : SuccessorList where
  items := update (linkItems list.items totalItems) (totalItems - 1) none
  freeHead := some 0

def pop (list : SuccessorList) : Option Nat × SuccessorList :=
  match list.freeHead with
  | some freeItem => (some freeItem, ⟨list.items freeItem, update list.items freeItem none⟩)
  | none => (none, list)

def push (list : SuccessorList) (freeItem : Nat) : SuccessorList where
  items := if list.freeHead ≠ none then update list.items freeItem list.freeHead
    else update list.items freeItem none
  freeHead := some freeItem

/-! ## Runs -/

structure State where
  list : SuccessorList
  popped : List Nat

inductive Action where
  | pop
  | push (item : Nat)

/-- Only items that are out are given back. -/
def step (s : State) : Action → Option State
  | .pop => some ⟨s.list.pop.2, s.list.pop.1.toList ++ s.popped⟩
  | .push item => if item ∈ s.popped then some ⟨s.list.push item, s.popped.erase item⟩ else none

variable {list : SuccessorList} {s s' : State} {n item : Nat} {free : List Nat}

/-- The links pass through `free`, which with the items that are out makes
up all items. -/
structure Inv (n : Nat) (s : State) (free : List Nat) : Prop where
  follows : Follows s.list.items s.list.freeHead free
  perm : (free ++ s.popped).Perm (range n)

theorem linkItems_apply (items : Nat → Option Nat) (h : item < n) :
    linkItems items n item = some (item + 1) := by
  induction n with
  | zero => cases h
  | succ n ih =>
    rw [linkItems, range_succ, foldl_append]
    rcases Nat.lt_succ_iff_lt_or_eq.mp h with hlt | rfl
    · exact (update_of_ne (Nat.ne_of_lt hlt) ..).trans (ih hlt)
    · exact update_self ..

theorem follows_init (m k : Nat) (hk : k + m + 1 = n) :
    Follows (list.init n).items (some k) (range' k (m + 1)) := by
  induction m generalizing k with
  | zero => exact ⟨rfl, hk ▸ update_self ..⟩
  | succ m ih =>
    have hnext : (list.init n).items k = some (k + 1) :=
      (update_of_ne (by omega) ..).trans (linkItems_apply _ (by omega))
    refine ⟨rfl, ?_⟩
    rw [hnext]
    exact ih (k + 1) (by omega)

theorem Inv.nodup (h : Inv n s free) : (free ++ s.popped).Nodup :=
  h.perm.nodup_iff.mpr nodup_range

theorem Inv.step {a : Action} (h : Inv n s free) (hs : step s a = some s') :
    ∃ free', Inv n s' free' := by
  have hnodup := nodup_append.mp h.nodup
  cases a with
  | pop =>
    cases hs
    rw [pop, h.follows.head]
    cases free with
    | nil => exact ⟨[], h⟩
    | cons item free => exact ⟨free, h.follows.tail hnodup.1, perm_middle.trans h.perm⟩
  | push item =>
    obtain ⟨hitem, rfl⟩ := Option.ite_some_none_eq_some.mp hs
    have hitems : (s.list.push item).items = update s.list.items item s.list.freeHead := by
      rw [push]
      split
      · rfl
      · rename_i hnil
        rw [Classical.not_not.mp hnil]
    refine ⟨item :: free, ⟨rfl, ?_⟩, ?_⟩
    · rw [hitems, update_self]
      exact h.follows.congr fun b hb => update_of_ne (hnodup.2.2 b hb item hitem) ..
    · exact perm_middle.symm.trans (((perm_cons_erase hitem).symm.append_left free).trans h.perm)

/-- After every run the links from the head pass through each free item
once and end, and the free items and those that are out partition
`{0, …, n - 1}`. `pop` returns an item that is not out, and none exactly
when all are. -/
theorem items_partition {as : List Action} (hn : 1 ≤ n)
    (hs : exec step ⟨list.init n, []⟩ as = some s) :
    (∃ free, Follows s.list.items s.list.freeHead free ∧ free.Nodup ∧
      (free ++ s.popped).Perm (range n)) ∧
    (∀ item, s.list.pop.1 = some item → item ∉ s.popped) ∧
    (s.list.pop.1 = none ↔ ∀ i, i < n → i ∈ s.popped) := by
  have hinit : Inv n ⟨list.init n, []⟩ (range n) := by
    obtain ⟨m, rfl⟩ := Nat.exists_eq_add_of_le' hn
    refine ⟨?_, by rw [append_nil]⟩
    exact range_eq_range' ▸ follows_init m 0 (by omega)
  obtain ⟨free, h⟩ := exec_invariant (fun _ s => ∃ free, Inv n s free) ⟨_, hinit⟩
    (fun _ _ _ _ ⟨_, h⟩ hs => h.step hs) hs
  have hnodup := nodup_append.mp h.nodup
  refine ⟨⟨free, h.follows, hnodup.1, h.perm⟩, ?_⟩
  rw [pop, h.follows.head]
  cases free with
  | nil =>
    refine ⟨nofun, iff_of_true rfl fun i hi => ?_⟩
    exact h.perm.mem_iff.mpr (mem_range.mpr hi)
  | cons item free =>
    have hout : item ∉ s.popped := fun hm => hnodup.2.2 item mem_cons_self item hm rfl
    refine ⟨fun i hi => Option.some.inj hi ▸ hout, iff_of_false nofun fun hall => hout ?_⟩
    exact hall item (mem_range.mp (h.perm.mem_iff.mp mem_cons_self))

/-- Three items, two of them out and the first one back. -/
theorem items_partition_three : ∃ s, exec step ⟨init ⟨none, fun _ => none⟩ 3, []⟩
      [.pop, .pop, .push 0] = some s ∧ s.popped = [1] ∧
    (∃ free, Follows s.list.items s.list.freeHead free ∧ free.Nodup ∧
      (free ++ s.popped).Perm (range 3)) ∧
    (∀ item, s.list.pop.1 = some item → item ∉ s.popped) ∧
    (s.list.pop.1 = none ↔ ∀ i, i < 3 → i ∈ s.popped) := by
  have hs : exec step ⟨init ⟨none, fun _ => none⟩ 3, []⟩ [.pop, .pop, .push 0] = some _ := rfl
  exact ⟨_, hs, rfl, items_partition (by decide) hs⟩

end SuccessorList

end PolarDB
