import Mathlib.Data.List.Basic

/-!
# Shared data types

The values every component of the repository passes around: WAL
positions, relation file nodes and buffer tags. A WAL position
(`XLogRecPtr`, `uint64`) is a natural number; where a component relies
on a value that fits 64 bits, the bound is part of that component's own
statements (`uint64Max`).
-/

namespace PolarDB

def invalidXLogRecPtr : Nat := 0

/-- `UINT64_MAX`, the "no LSN yet" value of a table's `min_lsn`. -/
def uint64Max : Nat := 0xFFFFFFFFFFFFFFFF

structure RelFileNode where
  spcNode : Nat
  dbNode : Nat
  relNode : Nat
  deriving DecidableEq, Repr

structure BufferTag where
  rnode : RelFileNode
  forkNum : Nat
  blockNum : Nat
  deriving DecidableEq, Repr

def loopNextValue (id size : Nat) : Nat :=
  if id = size - 1 then 0 else id + 1

def loopPrevValue (id size : Nat) : Nat :=
  if id = 0 then size - 1 else id - 1

section

open List

variable {α : Type*} {R : α → α → Prop} {P : α → Prop} {l l' : List α} {i j : Nat} {a b : α}

theorem lt_of_getElem? (h : l[i]? = some a) : i < l.length :=
  (List.getElem?_eq_some_iff.mp h).1

theorem getElem?_append_cases (h : (l ++ l')[i]? = some a) :
    l[i]? = some a ∨ l.length ≤ i ∧ l'[i - l.length]? = some a := by
  rw [getElem?_append] at h
  split at h
  · exact .inl h
  · exact .inr ⟨by omega, h⟩

theorem rel_of_getElem? (h : l.Pairwise R) (hb : R b b) (hij : i ≤ j) (hi : l[i]? = some a)
    (hj : l[j]? = some b) : R a b := by
  obtain ⟨hi', rfl⟩ := List.getElem?_eq_some_iff.mp hi
  obtain ⟨hj', rfl⟩ := List.getElem?_eq_some_iff.mp hj
  rcases Nat.eq_or_lt_of_le hij with rfl | hlt
  · exact hb
  · exact pairwise_iff_getElem.mp h i j hi' hj' hlt

theorem rel_of_getLast? (h : l.Pairwise R) (hb : R b b) (hlast : l.getLast? = some b)
    (ha : a ∈ l) : R a b := by
  obtain ⟨pre, rfl⟩ := getLast?_eq_some_iff.mp hlast
  rcases mem_append.mp ha with ha | ha
  · exact (pairwise_append.mp h).2.2 a ha b (mem_singleton_self b)
  · exact mem_singleton.mp ha ▸ hb

theorem pairwise_snoc (h : l.Pairwise R) (ha : ∀ b ∈ l, R b a) : (l ++ [a]).Pairwise R :=
  pairwise_append.mpr ⟨h, pairwise_singleton .., fun b hb _ hx => mem_singleton.mp hx ▸ ha b hb⟩

theorem forall_mem_snoc (h : ∀ b ∈ l, P b) (ha : P a) : ∀ b ∈ l ++ [a], P b :=
  forall_mem_append.mpr ⟨h, forall_mem_singleton.mpr ha⟩

end

theorem loopNextValue_eq_mod {id size : Nat} (h : id < size) :
    loopNextValue id size = (id + 1) % size := by
  unfold loopNextValue
  split
  · have : id + 1 = size := by omega
    rw [this, Nat.mod_self]
  · rw [Nat.mod_eq_of_lt (by omega)]

theorem loopPrevValue_mod {t size : Nat} (hs : 0 < size) :
    loopPrevValue ((t + 1) % size) size = t % size := by
  have hlt := Nat.mod_lt t hs
  rw [← Nat.mod_add_mod, ← loopNextValue_eq_mod hlt]
  unfold loopNextValue loopPrevValue
  split <;> split <;> omega

end PolarDB
