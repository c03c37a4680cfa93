import PolarDB.Basic
import PolarDB.Circular

/-!
# The X-Paxos log

A log is the list of its entries; the entry with index `i` is at place
`i - 1`. `getLogMeta` reads term, operation and info of an entry through
a cache that holds those of the entries last sent (`log_meta_cache.cc`).
What is put into the cache is what comes out of it (`LogMetaCache.Holds`).
-/

namespace PolarDB.Paxos

inductive LogOperation where
  | normal
  | put
  | del
  | cas
  | tairSet
  | configureChange
  | mock
  | nop
  | commitDep
  | commitDepEnd
  deriving DecidableEq, Repr

inductive CcType where
  | memberOp
  | learnerOp
  deriving DecidableEq, Repr

inductive CcOpType where
  | addNode
  | delNode
  | configureNode
  | downgradeNode
  | syncLearnerAll
  | addLearnerAutoChange
  deriving DecidableEq, Repr

structure ConfigureChangeValue where
  ccType : CcType
  opType : CcOpType
  addrs : List (List Char)
  allServers : List (List Char)
  allLearners : List (List Char)
  serverId : Nat
  forceSync : Bool
  electionWeight : Nat
  learnerSource : Nat
  applyMode : Bool
  deriving DecidableEq, Repr

structure LogMeta where
  term : Nat
  optype : LogOperation
  info : Nat
  deriving DecidableEq, Repr

/-- `LogEntry`, with the parsed value of a configuration change. -/
structure LogEntry where
  logMeta : LogMeta
  value : Option ConfigureChangeValue
  deriving DecidableEq, Repr

def getEntry (log : List LogEntry) (index : Nat) : Option LogEntry :=
  if index = 0 then none else log[index - 1]?

def getLastLogIndex (log : List LogEntry) : Nat := log.length

variable {log : List LogEntry} {index : Nat} {e : LogEntry}

theorem getEntry_eq_some :
    getEntry log index = some e ↔ index ≠ 0 ∧ log[index - 1]? = some e :=
  Option.ite_none_left_eq_some

theorem getEntry_append_left (h : getEntry log index = some e) (log' : List LogEntry) :
    getEntry (log ++ log') index = some e := by
  obtain ⟨hpos, h⟩ := getEntry_eq_some.mp h
  exact getEntry_eq_some.mpr ⟨hpos, (List.getElem?_append_left (lt_of_getElem? h)).trans h⟩

/-! ## The cache -/

def maxEntrySize : Nat := 8192

structure LogMetaCache where
  count : Nat
  left : Nat
  right : Nat
  maxIndex : Nat
  array : Nat → Nat × LogMeta

def LogMetaCache.reset (c : LogMetaCache) : LogMetaCache :=
  { c with count := 0, left := 0, right := 0, maxIndex := 0 }

def LogMetaCache.push (c : LogMetaCache) (index : Nat) (m : LogMeta) : LogMetaCache :=
  let c := if maxEntrySize ≤ c.count then
      { c with left := (c.left + 1) % maxEntrySize, count := c.count - 1 }
    else c
  { c with
    array := Function.update c.array c.right (index, m)
    right := (c.right + 1) % maxEntrySize
    count := c.count + 1
    maxIndex := index }

def LogMetaCache.putLogMeta (c : LogMetaCache) (index : Nat) (m : LogMeta) : LogMetaCache :=
  if c.count ≠ 0 ∧ index < c.maxIndex + 1 then c
  else if c.count ≠ 0 ∧ c.maxIndex + 1 < index then c.reset.push index m
  else c.push index m

def LogMetaCache.getLogMeta (c : LogMetaCache) (index : Nat) : Option LogMeta :=
  if c.count = 0 ∨ index < (c.array c.left).1 ∨ c.maxIndex < index then none
  else some (c.array ((c.left + index - (c.array c.left).1) % maxEntrySize)).2

/-- `getLogMeta` of the log. `readable` is whether `getEntry` can read the
entry. -/
def getLogMeta (log : List LogEntry) (c : LogMetaCache) (readable : Bool) (index : Nat) :
    Option LogMeta :=
  match c.getLogMeta index with
  | some m => some m
  | none => if readable then (getEntry log index).map LogEntry.logMeta else none

/-- The cache is a window that ends with `maxIndex`, and what it holds
satisfies `P`. -/
structure LogMetaCache.Holds (c : LogMetaCache) (P : Nat → LogMeta → Prop) : Prop where
  count_le : c.count ≤ maxEntrySize
  left_lt : c.left < maxEntrySize
  right : c.right = (c.left + c.count) % maxEntrySize
  count_maxIndex : c.count ≤ c.maxIndex
  entry : ∀ j < c.count, ∃ m, P (c.maxIndex - c.count + 1 + j) m ∧
    c.array ((c.left + j) % maxEntrySize) = (c.maxIndex - c.count + 1 + j, m)

variable {c : LogMetaCache} {P P' : Nat → LogMeta → Prop} {m : LogMeta}

theorem LogMetaCache.Holds.reset (_ : c.Holds P) : c.reset.Holds P where
  count_le := Nat.zero_le _
  left_lt := show 0 < maxEntrySize by decide
  right := rfl
  count_maxIndex := Nat.le_refl _
  entry := nofun

section

variable (h : c.Holds P)
include h

theorem LogMetaCache.Holds.mono (hP : ∀ index m, P index m → P' index m) : c.Holds P' :=
  { h with
    entry := fun j hj => by
      obtain ⟨m, hm, harray⟩ := h.entry j hj
      exact ⟨m, hP _ m hm, harray⟩ }

theorem LogMetaCache.Holds.drop (hfull : maxEntrySize ≤ c.count) :
    LogMetaCache.Holds { c with left := (c.left + 1) % maxEntrySize, count := c.count - 1 } P := by
  have hpos : 0 < c.count := Nat.lt_of_lt_of_le (show 0 < maxEntrySize by decide) hfull
  have hmax := h.count_maxIndex
  refine ⟨Nat.le_trans (Nat.sub_le ..) h.count_le, Nat.mod_lt _ (by decide), ?_,
    Nat.le_trans (Nat.sub_le ..) hmax, fun j hj => ?_⟩
  · rw [h.right, Nat.mod_add_mod, Nat.add_assoc, Nat.add_sub_cancel' hpos]
  · obtain ⟨m, hm, harray⟩ := h.entry (j + 1) (Nat.add_lt_of_lt_sub hj)
    have hidx : c.maxIndex - (c.count - 1) + 1 + j = c.maxIndex - c.count + 1 + (j + 1) := by omega
    refine ⟨m, hidx ▸ hm, ?_⟩
    rw [Nat.mod_add_mod, hidx, ← harray, Nat.add_assoc, Nat.add_comm 1]

/-- An entry behind the last one, or the first one, in a cache that is not
full. -/
theorem LogMetaCache.Holds.put (hlt : c.count < maxEntrySize) (hpos : 0 < index)
    (hm : P index m) (hnext : c.count = 0 ∨ index = c.maxIndex + 1) :
    LogMetaCache.Holds { c with
      array := Function.update c.array c.right (index, m)
      right := (c.right + 1) % maxEntrySize
      count := c.count + 1
      maxIndex := index } P := by
  have hmax := h.count_maxIndex
  have hle : c.count + 1 ≤ index := by
    rcases hnext with hz | hz
    · omega
    · omega
  refine ⟨hlt, h.left_lt, ?_, hle, fun j hj => ?_⟩
  · rw [h.right, Nat.mod_add_mod, Nat.add_assoc]
  · rcases Nat.lt_succ_iff_lt_or_eq.mp hj with hj | rfl
    · obtain ⟨m', hm', harray⟩ := h.entry j hj
      have hidx : index - (c.count + 1) + 1 + j = c.maxIndex - c.count + 1 + j := by
        rcases hnext with hz | hz
        · omega
        · omega
      refine ⟨m', hidx ▸ hm', ?_⟩
      rw [hidx, ← harray, h.right]
      exact Function.update_of_ne (window_index_ne hj hlt) ..
    · have hidx : index - (c.count + 1) + 1 + c.count = index := by omega
      refine ⟨m, hidx.symm ▸ hm, ?_⟩
      rw [hidx, ← h.right]
      exact Function.update_self ..

theorem LogMetaCache.Holds.push (hpos : 0 < index) (hm : P index m)
    (hnext : c.count = 0 ∨ index = c.maxIndex + 1) : (c.push index m).Holds P := by
  rw [LogMetaCache.push]
  split
  · rename_i hfull
    have hcount : 0 < c.count := Nat.lt_of_lt_of_le (show 0 < maxEntrySize by decide) hfull
    have hle := h.count_le
    refine (h.drop hfull).put ?_ hpos hm (.inr ?_)
    · exact Nat.lt_of_lt_of_le (Nat.sub_lt hcount Nat.one_pos) hle
    · exact hnext.resolve_left (Nat.ne_of_gt hcount)
  · rename_i hroom
    exact h.put (Nat.not_le.mp hroom) hpos hm hnext

theorem LogMetaCache.Holds.putLogMeta (hpos : 0 < index) (hm : P index m) :
    (c.putLogMeta index m).Holds P := by
  rw [LogMetaCache.putLogMeta]
  split
  · exact h
  · split
    · exact h.reset.push hpos hm (.inl rfl)
    · refine h.push hpos hm ?_
      by_cases hz : c.count = 0
      · exact .inl hz
      · exact .inr (by omega)

theorem LogMetaCache.Holds.getLogMeta (hm : c.getLogMeta index = some m) : P index m := by
  obtain ⟨hin, hm⟩ := Option.ite_none_left_eq_some.mp hm
  obtain ⟨m0, -, hleft⟩ := h.entry 0 (by omega)
  rw [Nat.add_zero, Nat.mod_eq_of_lt h.left_lt] at hleft
  rw [hleft] at hin hm
  obtain ⟨j, rfl⟩ : ∃ j, index = c.maxIndex - c.count + 1 + j :=
    ⟨index - (c.maxIndex - c.count + 1), by simp only at hin; omega⟩
  obtain ⟨m', hm', harray⟩ := h.entry j (by omega)
  rw [show c.left + (c.maxIndex - c.count + 1 + j) - (c.maxIndex - c.count + 1) =
    c.left + j by omega, harray] at hm
  exact Option.some.inj hm ▸ hm'

/-- What `getLogMeta` returns is what the cache promises, or what the log
has. -/
theorem getLogMeta_of_holds {readable : Bool}
    (hm : getLogMeta log c readable index = some m) :
    P index m ∨ ∃ e, getEntry log index = some e ∧ e.logMeta = m := by
  rw [getLogMeta] at hm
  split at hm
  · rename_i m' hcache
    cases hm
    exact .inl (h.getLogMeta hcache)
  · split at hm
    · exact .inr (Option.map_eq_some_iff.mp hm)
    · cases hm

end

end PolarDB.Paxos
