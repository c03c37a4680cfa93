import Mathlib.Tactic.MkIffOfInductiveProp
import PolarDB.Lts
import PolarDB.PaxosConfigString
import PolarDB.PaxosConfigView

/-!
# The pending configuration change

A configuration change is applied when its entry is committed. Until then
`ccMgr_` remembers its index, only one at a time, and after a restart
`init` finds it again by a scan of the log from a stored index.

Several steps of this go wrong. The leader stores the index before its
change; if an older change is there, it is found instead
(`appliedTwice`). `init` clears the stored index at once, so that a second
restart finds nothing. A follower writes the entry first and the index
afterwards. A second change makes the first one applied, committed or not.
A call that waits for its change may come back late and forget, or keep,
the one that came after it. Where none of this happens (`CcOk`), every
change is applied when it is committed, once and in order
(`changesApplied_of_ccOk`).
-/

namespace PolarDB.Paxos

open List Option

/-! ## The state -/

/-- `waiting` is the index for which `sendConfigureAndWait_` waits.
`passed` and `applied` are history: the largest commit index so far, and
what `applyConfigureChangeNoLock_` has applied. -/
structure CcServer where
  node : Node
  commitIndex : Nat
  waiting : Option Nat
  passed : Nat
  applied : List (Nat × LogEntry)
  deriving DecidableEq, Repr

namespace CcServer

def applyConfigureChange (s : CcServer) (logIndex : Nat) : Option CcServer :=
  (Paxos.applyConfigureChange s.node logIndex).map fun n => { s with
    node := n
    applied := s.applied ++ ((getEntry s.node.log logIndex).map fun e => (logIndex, e)).toList }

def setPrepared (s : CcServer) (index : Nat) : CcServer :=
  { s with node := { s.node with
    ccMgr := { s.node.ccMgr with prepared := true, preparedIndex := index }
    scanIndex := index } }

def clear (s : CcServer) : CcServer :=
  { s with node := { s.node with ccMgr := s.node.ccMgr.clear } }

/-- A change that is still pending is applied for the new one. -/
def prepareConfigureChangeEntry (s : CcServer) (index : Nat) : Option CcServer :=
  if s.node.ccMgr.prepared = false then some (s.setPrepared index)
  else (s.applyConfigureChange s.node.ccMgr.preparedIndex).map (·.setPrepared index)

def prepareEntries : CcServer → Nat → List LogEntry → Option CcServer
  | s, _, [] => some s
  | s, index, e :: es =>
    if e.logMeta.optype = .configureChange then
      (s.prepareConfigureChangeEntry index).bind fun s => prepareEntries s (index + 1) es
    else prepareEntries s (index + 1) es

def applyCommitted (s : CcServer) (commitindex : Nat) : Option CcServer :=
  let m := s.node.ccMgr
  if m.prepared = true ∧ m.preparedIndex ≤ commitindex ∧ s.commitIndex < m.preparedIndex then
    (s.applyConfigureChange m.preparedIndex).map fun s =>
      if s.node.ccMgr.needNotify then s else s.clear
  else some s

def setCommitIndex (s : CcServer) (commitIndex : Nat) : CcServer :=
  { s with commitIndex := commitIndex, passed := max s.passed commitIndex }

def append (s : CcServer) (es : List LogEntry) : CcServer :=
  { s with node := { s.node with log := s.node.log ++ es } }

def onAppendLog (s : CcServer) (es : List LogEntry) (commitindex : Nat) : Option CcServer :=
  (prepareEntries (s.append es) (s.node.log.length + 1) es).bind fun s =>
    if s.commitIndex < commitindex then
      (s.applyCommitted commitindex).map fun s =>
        s.setCommitIndex (min commitindex (getLastLogIndex s.node.log))
    else some s

def tryUpdateCommitIndex (s : CcServer) (newCommitIndex : Nat) : Option CcServer :=
  (s.applyCommitted newCommitIndex).map (·.setCommitIndex newCommitIndex)

def truncateBackward (s : CcServer) (firstIndex : Nat) : CcServer :=
  let m := s.node.ccMgr
  { s with node := { s.node with
    ccMgr := if m.prepared = true ∧ firstIndex ≤ m.preparedIndex then
      { m with aborted := true, preparedIndex := 0 } else m
    log := s.node.log.take (firstIndex - 1) } }

def changeEntry (val : ConfigureChangeValue) (term : Nat) : LogEntry :=
  ⟨⟨term, .configureChange, 0⟩, some val⟩

/-- `sendConfigureAndWait_`, up to the wait. `single` is whether the entry
is committed at once. -/
def sendConfigure (s : CcServer) (val : ConfigureChangeValue) (term : Nat) (single : Bool) :
    Option CcServer :=
  if s.node.ccMgr.prepared = true then some s
  else
    let lastLogIndex := getLastLogIndex s.node.log
    let s := CcServer.append { s with node := { s.node with scanIndex := lastLogIndex } }
      [changeEntry val term]
    if single then
      ((s.setCommitIndex (lastLogIndex + 1)).applyConfigureChange (lastLogIndex + 1)).map clear
    else
      let ccMgr := { s.node.ccMgr with
        prepared := true, preparedIndex := lastLogIndex + 1, needNotify := true }
      some { s with node := { s.node with ccMgr := ccMgr }, waiting := some (lastLogIndex + 1) }

def wake (s : CcServer) (index : Nat) : Option CcServer :=
  let m := s.node.ccMgr
  let s := { s with waiting := none }
  if m.aborted then some s.clear
  else if s.node.state = .follower ∧ m.preparedIndex ≠ index then
    some { s with node := { s.node with ccMgr := { m with
      aborted := false, applied := false, needNotify := false } } }
  else if m.preparedIndex ≠ index then none
  else some s.clear

def timeout (s : CcServer) : CcServer :=
  { s with
    node := { s.node with ccMgr := { s.node.ccMgr with needNotify := false } }
    waiting := none }

def restart (s : CcServer) (st : Stored) : Option CcServer :=
  (init st [] 0).map fun n => { s with node := n, commitIndex := 0, waiting := none }

/-- What is stored when the server crashes while it applies its pending
change: the texts are written one by one, the scan index at the end. -/
def storedInApply (s : CcServer) (members learners : Bool) : Option Stored := do
  let entry ← getEntry s.node.log s.node.ccMgr.preparedIndex
  let val ← entry.value
  let n ← applyConfigureChangeValue s.node val
  some { s.node.stored with
    memberConfigure := if members then n.memberConfigure else s.node.memberConfigure
    learnerConfigure := if learners then n.learnerConfigure else s.node.learnerConfigure }

end CcServer

/-! ## Steps -/

/-- `crashAppend`, `crashSend` and `crashApply` are a crash inside of
`onAppendLog`, `sendConfigureAndWait_` and `applyConfigureChangeNoLock_`:
after the entries are written and the first `k` of them are looked at,
before the entry is written, and before the scan index is cleared. -/
inductive CcAction where
  | onAppendLog (es : List LogEntry) (commitindex : Nat)
  | replicateLog (e : LogEntry)
  | sendConfigure (val : ConfigureChangeValue) (term : Nat) (single : Bool)
  | tryUpdateCommitIndex (newCommitIndex : Nat)
  | truncateBackward (firstIndex : Nat)
  | wake
  | timeout
  | role (state : State)
  | restart
  | crashAppend (es : List LogEntry) (k : Nat)
  | crashSend
  | crashApply (members learners : Bool)
  deriving DecidableEq, Repr

/-- One step of a server that is not removed. Only entries behind the
largest commit index are cut. -/
def ccStep (s : CcServer) (a : CcAction) : Option CcServer :=
  if s.node.stopped then none
  else match a with
  | .onAppendLog es commitindex =>
    if s.node.state ≠ .leader then s.onAppendLog es commitindex else none
  | .replicateLog e =>
    if s.node.state = .leader ∧ e.logMeta.optype ≠ .configureChange then some (s.append [e])
    else none
  | .sendConfigure val term single =>
    if s.node.state = .leader ∧ (single → getServerNumLockFree s.node.config = 1) then
      s.sendConfigure val term single
    else none
  | .tryUpdateCommitIndex newCommitIndex =>
    if s.node.state = .leader ∧ s.commitIndex < newCommitIndex ∧
        newCommitIndex ≤ getLastLogIndex s.node.log then
      s.tryUpdateCommitIndex newCommitIndex
    else none
  | .truncateBackward firstIndex =>
    if s.passed < firstIndex then some (s.truncateBackward firstIndex) else none
  | .wake =>
    if s.node.ccMgr.applied ∨ s.node.ccMgr.aborted then s.waiting.bind s.wake else none
  | .timeout =>
    if s.waiting.isSome ∧ s.node.ccMgr.applied = false ∧ s.node.ccMgr.aborted = false then
      some s.timeout
    else none
  | .role state =>
    if s.node.state ≠ .learner ∧ state ≠ .learner then
      some { s with node := { s.node with state := state } }
    else none
  | .restart => s.restart s.node.stored
  | .crashAppend es k =>
    if s.node.state ≠ .leader then
      ((s.append es).prepareEntries (s.node.log.length + 1) (es.take k)).bind fun s =>
        s.restart s.node.stored
    else none
  | .crashSend =>
    if s.node.state = .leader ∧ s.node.ccMgr.prepared = false then
      s.restart { s.node.stored with scanIndex := getLastLogIndex s.node.log }
    else none
  | .crashApply members learners =>
    if s.node.ccMgr.prepared = true ∧ s.commitIndex < s.node.ccMgr.preparedIndex then
      (s.storedInApply members learners).bind s.restart
    else none

/-! ## The changes in a log -/

def changeAt (log : List LogEntry) (i : Nat) : Option (Nat × LogEntry) :=
  (getEntry log i).bind fun e => if e.logMeta.optype = .configureChange then some (i, e) else none

def IsChange (log : List LogEntry) (i : Nat) : Prop := (changeAt log i).isSome = true

def changesBetween (log : List LogEntry) (a b : Nat) : List (Nat × LogEntry) :=
  (List.range' (a + 1) (b - a)).filterMap (changeAt log)

variable {log log' : List LogEntry} {a b i j q : Nat} {e : LogEntry}
  {x : Nat × LogEntry} {c commitindex : Nat} {es : List LogEntry}

theorem changeAt_eq_some : changeAt log i = some x ↔
      ∃ e, getEntry log i = some e ∧ e.logMeta.optype = .configureChange ∧ x = (i, e) := by
  rw [changeAt, bind_eq_some_iff]
  refine exists_congr fun e => and_congr_right fun _ => ?_
  split
  · rename_i hop
    exact ⟨fun h => ⟨hop, (some.inj h).symm⟩, fun h => congrArg some h.2.symm⟩
  · rename_i hop
    refine ⟨fun h => ?_, fun h => absurd h.1 hop⟩
    cases h

theorem changeAt_le_length (h : IsChange log i) : 1 ≤ i ∧ i ≤ log.length := by
  obtain ⟨x, hx⟩ := isSome_iff_exists.mp h
  obtain ⟨e, he, -⟩ := changeAt_eq_some.mp hx
  obtain ⟨hpos, he⟩ := getEntry_eq_some.mp he
  have := lt_of_getElem? he
  omega

theorem changesBetween_split (hab : a ≤ b) (hbc : b ≤ c) :
    changesBetween log a c = changesBetween log a b ++ changesBetween log b c := by
  rw [changesBetween, changesBetween, changesBetween, ← filterMap_append]
  rw [show c - a = (b - a) + (c - b) by omega, ← range'_append_1,
    show a + 1 + (b - a) = b + 1 by omega]

theorem changesBetween_eq_nil (h : ∀ i, a < i → i ≤ b → ¬IsChange log i) :
    changesBetween log a b = [] := by
  refine filterMap_eq_nil_iff.mpr fun i hi => ?_
  obtain ⟨k, hk, rfl⟩ := mem_range'.mp hi
  exact not_isSome_iff_eq_none.mp (h (a + 1 + 1 * k) (by omega) (by omega))

theorem changesBetween_single (hai : a < i) (hib : i ≤ b) (hx : changeAt log i = some x)
    (h : ∀ k, a < k → k ≤ b → IsChange log k → k = i) :
    changesBetween log a b = [x] := by
  have hnone : ∀ k, a < k → k ≤ b → k ≠ i → ¬IsChange log k :=
    fun k hak hkb hne hk => hne (h k hak hkb hk)
  rw [changesBetween_split (Nat.le_sub_one_of_lt hai) (show i - 1 ≤ b by omega),
    changesBetween_split (show i - 1 ≤ i by omega) hib,
    changesBetween_eq_nil fun k hk hk' => hnone k hk (by omega) (by omega),
    changesBetween_eq_nil fun k hk hk' => hnone k (by omega) hk' (by omega)]
  rw [changesBetween, show i - (i - 1) = 1 by omega, show i - 1 + 1 = i by omega, range'_one,
    filterMap_cons_some hx]
  rfl

theorem changeAt_congr (h : getEntry log i = getEntry log' i) :
    changeAt log i = changeAt log' i := by
  rw [changeAt, changeAt, h]

theorem IsChange.congr (hi : IsChange log i) (h : getEntry log i = getEntry log' i) :
    IsChange log' i := by
  rwa [IsChange, ← changeAt_congr h]

theorem changesBetween_congr (h : ∀ i, i ≤ b → getEntry log i = getEntry log' i) :
    changesBetween log a b = changesBetween log' a b := by
  refine filterMap_congr fun i hi => ?_
  obtain ⟨k, hk, rfl⟩ := mem_range'.mp hi
  exact changeAt_congr (h _ (by omega))

theorem getEntry_append_of_le (hi : i ≤ log.length) (log' : List LogEntry) :
    getEntry (log ++ log') i = getEntry log i := by
  rw [getEntry, getEntry]
  split
  · rfl
  · rw [getElem?_append_left (by omega)]

theorem getEntry_concat (log : List LogEntry) (e : LogEntry) :
    getEntry (log ++ [e]) (log.length + 1) = some e := by
  exact getElem?_concat_length

theorem getEntry_take_of_lt (hi : i < j) : getEntry (log.take (j - 1)) i = getEntry log i := by
  rw [getEntry, getEntry]
  split
  · rfl
  · rw [getElem?_take_of_lt (by omega)]

/-! ## The invariant -/

/-- The configuration that the changes make, one after the other. -/
def applyAll (n0 : Node) : List (Nat × LogEntry) → Option Node
  | [] => some n0
  | x :: xs => (x.2.value.bind (applyConfigureChangeValue n0)).bind fun n => applyAll n xs

theorem applyAll_append (n0 : Node) (xs ys : List (Nat × LogEntry)) :
    applyAll n0 (xs ++ ys) = (applyAll n0 xs).bind fun n => applyAll n ys := by
  induction xs generalizing n0 with
  | nil => rfl
  | cons x xs ih =>
    rw [cons_append, applyAll, applyAll]
    cases x.2.value.bind (applyConfigureChangeValue n0) with
    | none => rfl
    | some n => exact ih n

variable {n0 : Node} {s s' : CcServer} {st : Stored}

/-- The changes up to index `q` have been applied, and nothing else. -/
structure AppliedUpTo (n0 : Node) (s : CcServer) (q : Nat) : Prop where
  le_length : q ≤ s.node.log.length
  applied : s.applied = changesBetween s.node.log 0 q
  config : ∃ m, applyAll n0 s.applied = some m ∧ Agree m s.node

/-- Of the changes behind `q` up to `j` there is at most one, and it is
pending; what is prepared is that one, nothing, or one that has been
applied and for which a call still waits. -/
structure PendingUpTo (s : CcServer) (q j : Nat) : Prop where
  pending : ∀ i, q < i → i ≤ j → IsChange s.node.log i →
    s.node.ccMgr.prepared = true ∧ s.node.ccMgr.preparedIndex = i
  prepared : s.node.ccMgr.prepared = true → s.node.ccMgr.preparedIndex = 0 ∨
    (q < s.node.ccMgr.preparedIndex ∧ s.node.ccMgr.preparedIndex ≤ j ∧
      IsChange s.node.log s.node.ccMgr.preparedIndex) ∨
    (s.node.ccMgr.preparedIndex ≤ s.commitIndex ∧ s.node.ccMgr.needNotify = true ∧
      s.node.ccMgr.applied = true)

structure CcInv (n0 : Node) (s : CcServer) : Prop where
  commit_le : s.commitIndex ≤ s.passed
  applied : AppliedUpTo n0 s s.passed
  pending : PendingUpTo s s.passed s.node.log.length

theorem AppliedUpTo.same (h : AppliedUpTo n0 s q) (hlen : q ≤ s'.node.log.length)
    (hlog : ∀ i, i ≤ q → getEntry s'.node.log i = getEntry s.node.log i)
    (happlied : s'.applied = s.applied) (hagree : Agree s.node s'.node) : AppliedUpTo n0 s' q where
  le_length := hlen
  applied := by rw [happlied, h.applied, changesBetween_congr hlog]
  config := by
    obtain ⟨m, hm, hma⟩ := h.config
    exact ⟨m, happlied ▸ hm, hma.trans hagree⟩

theorem AppliedUpTo.extend (h : AppliedUpTo n0 s q) (hqj : q ≤ j) (hj : j ≤ s.node.log.length)
    (hnone : ∀ i, q < i → i ≤ j → ¬IsChange s.node.log i) : AppliedUpTo n0 s j where
  le_length := hj
  applied := by
    rw [changesBetween_split (Nat.zero_le q) hqj, changesBetween_eq_nil hnone, append_nil,
      h.applied]
  config := h.config

theorem PendingUpTo.none_of (h : PendingUpTo s q j)
    (hprep : s.node.ccMgr.prepared = true → s.node.ccMgr.preparedIndex ≤ q) (hqi : q < i)
    (hij : i ≤ j) : ¬IsChange s.node.log i := by
  intro hchange
  obtain ⟨hp, rfl⟩ := h.pending i hqi hij hchange
  exact absurd (hprep hp) (not_le.mpr hqi)

section

variable (h : PendingUpTo s q j) (hmgr : s'.node.ccMgr = s.node.ccMgr)
  (hcommit : s'.commitIndex = s.commitIndex)
  (hlog : ∀ i, i ≤ j → getEntry s'.node.log i = getEntry s.node.log i)
include h hmgr hcommit hlog

/-- The log behind `j` may change, if the entries up to `k` are no changes. -/
theorem PendingUpTo.extend {k : Nat} (hjk : j ≤ k)
    (hnone : ∀ i, j < i → i ≤ k → ¬IsChange s'.node.log i) :
    PendingUpTo s' q k where
  pending := by
    intro i hqi hik hi
    rcases lt_or_ge j i with hji | hij
    · exact absurd hi (hnone i hji hik)
    · rw [hmgr]
      exact h.pending i hqi hij (hi.congr (hlog i hij))
  prepared := by
    rw [hmgr, hcommit]
    exact fun hprep => (h.prepared hprep).imp_right (Or.imp_left fun ⟨hqi, hij, hi⟩ =>
      ⟨hqi, hij.trans hjk, hi.congr (hlog _ hij).symm⟩)

theorem PendingUpTo.same : PendingUpTo s' q j :=
  h.extend hmgr hcommit hlog le_rfl fun _ hji hij => absurd hij (not_le.mpr hji)

end

theorem changeAt_eq_none_of (he : getEntry log i = some e)
    (hop : e.logMeta.optype ≠ .configureChange) : ¬IsChange log i := by
  rw [IsChange, changeAt, he, bind_some, if_neg hop]
  exact Bool.false_ne_true

/-! ## Applying a change -/

/-- What `applyConfigureChangeNoLock_` and the loop of `onAppendLog` leave
as it was. -/
structure SameLog (s s' : CcServer) : Prop where
  log : s'.node.log = s.node.log
  commitIndex : s'.commitIndex = s.commitIndex
  passed : s'.passed = s.passed

theorem SameLog.refl (s : CcServer) : SameLog s s := ⟨rfl, rfl, rfl⟩

theorem SameLog.trans {s'' : CcServer} (h : SameLog s s') (h' : SameLog s' s'') : SameLog s s'' :=
  ⟨h'.log.trans h.log, h'.commitIndex.trans h.commitIndex, h'.passed.trans h.passed⟩

section

variable (hs : s.applyConfigureChange i = some s')
include hs

/-- What applying the change with index `i` does: nothing for index zero. -/
theorem applyConfigureChange_cases : (i = 0 ∧ s' = s) ∨
    ∃ e val n, changeAt s.node.log i = some (i, e) ∧ e.value = some val ∧
      applyConfigureChangeValue s.node val = some n ∧
      s' = { s with node := finishChange n i, applied := s.applied ++ [(i, e)] } := by
  obtain ⟨n, hn, rfl⟩ := map_eq_some_iff.mp hs
  rw [Paxos.applyConfigureChange] at hn
  split at hn
  · rename_i hi
    cases hn
    subst hi
    refine .inl ⟨rfl, ?_⟩
    rw [getEntry, if_pos rfl, map_none, toList_none, append_nil]
  · obtain ⟨e, he, hn⟩ := bind_eq_some_iff.mp hn
    split at hn
    · cases hn
    rename_i hop
    obtain ⟨val, hval, hn⟩ := bind_eq_some_iff.mp hn
    obtain ⟨n1, hn1, hn⟩ := bind_eq_some_iff.mp hn
    cases hn
    refine .inr ⟨e, val, n1, changeAt_eq_some.mpr ⟨e, he, not_not.mp hop, rfl⟩, hval, hn1, ?_⟩
    rw [he]
    rfl

theorem applyConfigureChange_sameLog : SameLog s s' := by
  obtain ⟨-, rfl⟩ | ⟨e, val, n, -, -, hn, rfl⟩ := applyConfigureChange_cases hs
  · exact SameLog.refl _
  · exact ⟨(finishChange_frame n i).1.log.trans (applyConfigureChangeValue_frame hn).log, rfl, rfl⟩

/-- The pending change stays as it is, and a waiting call is told. -/
theorem applyConfigureChange_ccMgr (hi : i ≠ 0) : s'.node.ccMgr.prepared = s.node.ccMgr.prepared ∧
    s'.node.ccMgr.preparedIndex = s.node.ccMgr.preparedIndex ∧
    (s'.node.ccMgr.needNotify = true → s'.node.ccMgr.applied = true) := by
  obtain ⟨hi', -⟩ | ⟨e, val, n, -, -, hn, rfl⟩ := applyConfigureChange_cases hs
  · exact absurd hi' hi
  · have hframe := applyConfigureChangeValue_frame hn
    obtain ⟨hfinish, htold, -⟩ := finishChange_frame n i
    exact ⟨hfinish.prepared.trans hframe.prepared, hfinish.preparedIndex.trans hframe.preparedIndex,
      fun h => htold (hfinish.needNotify.symm.trans h)⟩

end

theorem AppliedUpTo.apply (h : AppliedUpTo n0 s q) (hqi : q < i)
    (hone : ∀ k, q < k → k ≤ i → IsChange s.node.log k → k = i)
    (hs : s.applyConfigureChange i = some s') : AppliedUpTo n0 s' i := by
  have hlog := (applyConfigureChange_sameLog hs).log
  obtain ⟨rfl, -⟩ | ⟨e, val, n, hx, hval, hn, rfl⟩ := applyConfigureChange_cases hs
  · exact absurd hqi (Nat.not_lt_zero q)
  refine ⟨?_, ?_, ?_⟩
  · rw [hlog]
    exact (changeAt_le_length (isSome_of_eq_some hx)).2
  · rw [hlog, changesBetween_split (Nat.zero_le q) hqi.le,
      changesBetween_single hqi (Nat.le_refl i) hx hone, h.applied]
  · obtain ⟨m, hm, hma⟩ := h.config
    have hrel := applyConfigureChangeValue_agree { Frame.refl m, hma with } val
    rw [hn] at hrel
    cases hm1 : applyConfigureChangeValue m val with
    | none =>
      rw [hm1] at hrel
      cases hrel
    | some m1 =>
      rw [hm1] at hrel
      refine ⟨m1, ?_, ?_⟩
      · rw [applyAll_append, hm, bind_some, applyAll, hval, bind_some, hm1]
        rfl
      · cases hrel with
        | some hrel => exact hrel.toAgree.trans (finishChange_frame n i).2.2

theorem AppliedUpTo.applyPending (happ : AppliedUpTo n0 s q) (hpend : PendingUpTo s q j)
    (hqi : q < s.node.ccMgr.preparedIndex) (hij : s.node.ccMgr.preparedIndex ≤ j)
    (hs : s.applyConfigureChange s.node.ccMgr.preparedIndex = some s') :
    AppliedUpTo n0 s' s.node.ccMgr.preparedIndex ∧
    ∀ k, s.node.ccMgr.preparedIndex < k → k ≤ j → ¬IsChange s'.node.log k := by
  have hone : ∀ k, q < k → k ≤ j → IsChange s.node.log k → k = s.node.ccMgr.preparedIndex :=
    fun k hqk hkj hk => (hpend.pending k hqk hkj hk).2.symm
  refine ⟨happ.apply hqi (fun k hqk hki => hone k hqk (hki.trans hij)) hs, fun k hk hkj h => ?_⟩
  rw [(applyConfigureChange_sameLog hs).log] at h
  exact hk.ne' (hone k (hqi.trans hk) hkj h)

/-! ## New entries -/

/-- A change behind `q` is applied early only if it is committed and the
commit index has not passed it. `commitindex` is that of the message. -/
def EarlyOk (commitindex : Nat) : CcServer → Nat → List LogEntry → Prop
  | _, _, [] => True
  | s, index, e :: es =>
    if e.logMeta.optype = .configureChange then
      (s.node.ccMgr.prepared = true → s.node.ccMgr.preparedIndex = 0 ∨
        (s.commitIndex < s.node.ccMgr.preparedIndex ∧ s.node.ccMgr.preparedIndex ≤ commitindex)) ∧
      ∀ s' ∈ s.prepareConfigureChangeEntry index, EarlyOk commitindex s' (index + 1) es
    else EarlyOk commitindex s (index + 1) es

instance EarlyOk.decidable (commitindex : Nat) :
    ∀ s index es, Decidable (EarlyOk commitindex s index es)
  | _, _, [] => .isTrue trivial
  | _, index, e :: es =>
    have : ∀ s', Decidable (EarlyOk commitindex s' (index + 1) es) :=
      fun s' => EarlyOk.decidable commitindex s' (index + 1) es
    if hop : e.logMeta.optype = .configureChange then
      decidable_of_iff _ (iff_of_eq (if_pos hop)).symm
    else decidable_of_iff _ (iff_of_eq (if_neg hop)).symm

theorem prepareConfigureChangeEntry_sameLog (hs : s.prepareConfigureChangeEntry i = some s') :
    SameLog s s' := by
  rw [CcServer.prepareConfigureChangeEntry] at hs
  split at hs
  · cases hs
    exact ⟨rfl, rfl, rfl⟩
  · obtain ⟨s1, hs1, rfl⟩ := map_eq_some_iff.mp hs
    exact { applyConfigureChange_sameLog hs1 with }

theorem prepareEntries_sameLog {index : Nat}
    (hs : s.prepareEntries index es = some s') : SameLog s s' := by
  induction es generalizing s index with
  | nil =>
    cases hs
    exact SameLog.refl _
  | cons e es ih =>
    rw [CcServer.prepareEntries] at hs
    split at hs
    · obtain ⟨s1, hs1, hs⟩ := bind_eq_some_iff.mp hs
      exact (prepareConfigureChangeEntry_sameLog hs1).trans (ih hs)
    · exact ih hs

theorem pendingUpTo_setPrepared (hqj : q ≤ j) (hnone : ∀ i, q < i → i ≤ j → ¬IsChange s.node.log i)
    (hchange : IsChange s.node.log (j + 1)) :
    PendingUpTo (s.setPrepared (j + 1)) q (j + 1) where
  pending := by
    intro i hqi hij hi
    rcases Nat.lt_or_ge j i with hji | hij'
    · exact ⟨rfl, Nat.le_antisymm hji hij⟩
    · exact absurd hi (hnone i hqi hij')
  prepared := fun _ => .inr (.inl ⟨Nat.lt_succ_of_le hqj, Nat.le_refl _, hchange⟩)

theorem AppliedUpTo.setPrepared (h : AppliedUpTo n0 s q) (index : Nat) :
    AppliedUpTo n0 (s.setPrepared index) q :=
  h.same h.le_length (fun _ _ => rfl) rfl { Agree.refl s.node with }

section

variable (happ : AppliedUpTo n0 s q) (hpend : PendingUpTo s q j) (hqj : q ≤ j)
include happ hpend hqj

theorem prepareConfigureChangeEntry_spec (hchange : IsChange s.node.log (j + 1))
    (hok : s.node.ccMgr.prepared = true → s.node.ccMgr.preparedIndex = 0 ∨
      (s.commitIndex < s.node.ccMgr.preparedIndex ∧ s.node.ccMgr.preparedIndex ≤ commitindex))
    (hs : s.prepareConfigureChangeEntry (j + 1) = some s') :
    ∃ q', AppliedUpTo n0 s' q' ∧ PendingUpTo s' q' (j + 1) ∧ q ≤ q' ∧ q' ≤ j + 1 ∧
      (q' = q ∨ s.commitIndex < q' ∧ q' ≤ commitindex) := by
  rw [CcServer.prepareConfigureChangeEntry] at hs
  split at hs
  · rename_i hprep
    cases hs
    have hnone : s.node.ccMgr.prepared = true → s.node.ccMgr.preparedIndex ≤ q :=
      fun h => nomatch hprep.symm.trans h
    exact ⟨q, happ.setPrepared _, pendingUpTo_setPrepared hqj (fun _ => hpend.none_of hnone)
      hchange,
      Nat.le_refl q, by omega, .inl rfl⟩
  · rename_i hprep
    have hprep := (Bool.not_eq_false _).mp hprep
    obtain ⟨s1, hs1, rfl⟩ := map_eq_some_iff.mp hs
    rcases hok hprep with hzero | ⟨hlt, hle⟩
    · obtain ⟨-, rfl⟩ | ⟨e, -, -, he, -⟩ := applyConfigureChange_cases hs1
      · exact ⟨q, happ.setPrepared _,
          pendingUpTo_setPrepared hqj (fun _ => hpend.none_of fun _ => hzero ▸ Nat.zero_le q)
            hchange,
          Nat.le_refl q, by omega, .inl rfl⟩
      · have := (changeAt_le_length (isSome_of_eq_some he)).1
        omega
    · obtain hzero | ⟨hqi, hij, -⟩ | ⟨hpassed, -⟩ := hpend.prepared hprep
      · omega
      · obtain ⟨happ1, hnone⟩ := happ.applyPending hpend hqi hij hs1
        have hlog := (applyConfigureChange_sameLog hs1).log
        exact ⟨_, happ1.setPrepared _, pendingUpTo_setPrepared hij hnone (hlog ▸ hchange), hqi.le,
          by omega, .inr ⟨hlt, hle⟩⟩
      · omega

theorem prepareEntries_spec (hlog : s.node.log.drop j = es) (hj : j + es.length = s.node.log.length)
    (hok : EarlyOk commitindex s (j + 1) es) (hs : s.prepareEntries (j + 1) es = some s') :
    ∃ q', AppliedUpTo n0 s' q' ∧ PendingUpTo s' q' s'.node.log.length ∧ q ≤ q' ∧
      (q' = q ∨ s.commitIndex < q' ∧ q' ≤ commitindex) := by
  induction es generalizing s q j with
  | nil =>
    cases hs
    exact ⟨q, happ, hj ▸ hpend, Nat.le_refl q, .inl rfl⟩
  | cons e es ih =>
    have hentry : getEntry s.node.log (j + 1) = some e := by
      rw [getEntry, Nat.add_sub_cancel, ← head?_drop, hlog]
      rfl
    have hlog' : s.node.log.drop (j + 1) = es := by
      rw [← tail_drop, hlog]
      rfl
    rw [length_cons] at hj
    rw [CcServer.prepareEntries] at hs
    rw [EarlyOk] at hok
    split at hs
    · rename_i hop
      rw [if_pos hop] at hok
      obtain ⟨s1, hs1, hs⟩ := bind_eq_some_iff.mp hs
      have hchange := isSome_of_eq_some (changeAt_eq_some.mpr ⟨e, hentry, hop, rfl⟩)
      have hsame1 := prepareConfigureChangeEntry_sameLog hs1
      obtain ⟨q1, happ1, hpend1, hqq1, hq1j, hq1⟩ :=
        prepareConfigureChangeEntry_spec happ hpend hqj hchange hok.1 hs1
      obtain ⟨q', happ', hpend', hqq', hq'⟩ := ih happ1 hpend1 hq1j
        (hsame1.log ▸ hlog') (by rw [hsame1.log]; omega) (hok.2 s1 hs1) hs
      refine ⟨q', happ', hpend', hqq1.trans hqq', ?_⟩
      rw [hsame1.commitIndex] at hq'
      rcases hq' with rfl | hq'
      · exact hq1
      · exact .inr hq'
    · rename_i hop
      rw [if_neg hop] at hok
      have hnone : ∀ i, j < i → i ≤ j + 1 → ¬IsChange s.node.log i := by
        intro i hji hij
        obtain rfl : i = j + 1 := by omega
        exact changeAt_eq_none_of hentry hop
      exact ih happ (hpend.extend rfl rfl (fun _ _ => rfl) (Nat.le_succ j) hnone)
        (Nat.le_succ_of_le hqj) hlog' (by omega) hok hs

end

/-! ## Committing -/

section

variable (happ : AppliedUpTo n0 s q) (hpend : PendingUpTo s q s.node.log.length)
  (hcommit : s.commitIndex ≤ s.passed) (hpassed : s.passed ≤ q) (hq : q = s.passed ∨ q ≤ c)
  (hlt : s.commitIndex < c)
include happ hpend hcommit hpassed hq hlt

theorem ccInv_setCommitIndex
    (hnot : ¬(s.node.ccMgr.prepared = true ∧ s.node.ccMgr.preparedIndex ≤ c ∧
      s.commitIndex < s.node.ccMgr.preparedIndex)) :
    CcInv n0 (s.setCommitIndex (min c s.node.log.length)) := by
  have hlen := happ.le_length
  have hbehind : s.node.ccMgr.prepared = true → q < s.node.ccMgr.preparedIndex →
      max s.passed (min c s.node.log.length) < s.node.ccMgr.preparedIndex := by
    intro hprep hqi
    have : ¬s.node.ccMgr.preparedIndex ≤ c := fun hle => hnot ⟨hprep, hle, by omega⟩
    omega
  refine ⟨Nat.le_max_right _ _, ?_, ?_, ?_⟩
  · have hext := happ.extend (j := max s.passed (min c s.node.log.length)) (by omega) (by omega) ?_
    · exact hext.same hext.le_length (fun _ _ => rfl) rfl (Agree.refl _)
    · intro i hqi hi hchange
      obtain ⟨hprep, rfl⟩ := hpend.pending i hqi (by omega) hchange
      exact absurd hi (not_le.mpr (hbehind hprep hqi))
  · intro i hi hlen' hchange
    have hi : max s.passed (min c s.node.log.length) < i := hi
    exact hpend.pending i (by omega) hlen' hchange
  · intro hprep
    refine (hpend.prepared hprep).imp_right (Or.imp (fun ⟨hqi, hij, hi⟩ =>
      ⟨hbehind hprep hqi, hij, hi⟩) fun ⟨_, hwait⟩ => ⟨?_, hwait⟩)
    change s.node.ccMgr.preparedIndex ≤ min c s.node.log.length
    omega

theorem ccInv_applyCommitted (hs : s.applyCommitted c = some s') :
    CcInv n0 (s'.setCommitIndex (min c s'.node.log.length)) := by
  rw [CcServer.applyCommitted] at hs
  split at hs
  · rename_i hprep
    obtain ⟨hprep, hle, hgt⟩ := hprep
    obtain ⟨s1, hs1, rfl⟩ := map_eq_some_iff.mp hs
    obtain hzero | ⟨hqi, hij, -⟩ | ⟨hpassed', -⟩ := hpend.prepared hprep
    · omega
    · have hsame := applyConfigureChange_sameLog hs1
      have hlen1 : s1.node.log.length = s.node.log.length := congrArg length hsame.log
      obtain ⟨happ1, hnone⟩ := happ.applyPending hpend hqi hij hs1
      rw [← hlen1] at hnone
      obtain ⟨_, hidx1, htold⟩ := applyConfigureChange_ccMgr hs1 (by omega)
      have hmax : s.node.ccMgr.preparedIndex ≤ max s1.passed (min c s1.node.log.length) := by omega
      have hext := happ1.extend hmax (by have := hsame.passed; have := happ.le_length; omega)
        (fun k hk hk' => hnone k hk (by have := hsame.passed; have := happ.le_length; omega))
      split
      · rename_i hnotify
        refine ⟨Nat.le_max_right _ _, hext.same hext.le_length (fun _ _ => rfl) rfl (Agree.refl _),
          fun k hk hkj hchange => absurd hchange (hnone k (hmax.trans_lt hk) hkj),
          fun _ => .inr (.inr ⟨?_, hnotify, htold hnotify⟩)⟩
        change s1.node.ccMgr.preparedIndex ≤ min c s1.node.log.length
        omega
      · exact ⟨Nat.le_max_right _ _, hext.same hext.le_length (fun _ _ => rfl) rfl
          { Agree.refl s1.node with },
          fun k hk hkj hchange => absurd hchange (hnone k (hmax.trans_lt hk) hkj),
          nofun⟩
    · omega
  · rename_i hnot
    cases hs
    exact ccInv_setCommitIndex happ hpend hcommit hpassed hq hlt hnot

end

/-! ## The steps of a running server -/

theorem CcInv.append (h : CcInv n0 s) (es : List LogEntry) :
    AppliedUpTo n0 (s.append es) s.passed ∧
      PendingUpTo (s.append es) s.passed s.node.log.length := by
  have hlog : ∀ i, i ≤ s.node.log.length →
      getEntry (s.append es).node.log i = getEntry s.node.log i :=
    fun i hi => getEntry_append_of_le hi es
  refine ⟨h.applied.same ?_ (fun i hi => hlog i (hi.trans h.applied.le_length)) rfl
    { Agree.refl s.node with }, h.pending.same rfl rfl hlog⟩
  exact h.applied.le_length.trans (length_append ▸ Nat.le_add_right _ _)

theorem CcInv.onAppendLog (h : CcInv n0 s)
    (hok : EarlyOk commitindex (s.append es) (s.node.log.length + 1) es)
    (hs : s.onAppendLog es commitindex = some s') : CcInv n0 s' := by
  obtain ⟨s1, hs1, hs⟩ := bind_eq_some_iff.mp hs
  obtain ⟨happ, hpend⟩ := h.append es
  have hsame := prepareEntries_sameLog hs1
  obtain ⟨q, happ1, hpend1, hpq, hq⟩ := prepareEntries_spec happ hpend h.applied.le_length
    drop_left length_append.symm hok hs1
  have hpassed : s1.passed = s.passed := hsame.passed
  have hcommit : s1.commitIndex = s.commitIndex := hsame.commitIndex
  have hcommit1 : s1.commitIndex ≤ s1.passed := hcommit ▸ hpassed ▸ h.commit_le
  split at hs
  · rename_i hlt
    obtain ⟨s2, hs2, rfl⟩ := map_eq_some_iff.mp hs
    exact ccInv_applyCommitted happ1 hpend1 hcommit1 (hpassed ▸ hpq)
      (hq.imp (fun hq => hq.trans hpassed.symm) (·.2)) hlt hs2
  · cases hs
    obtain rfl : q = s'.passed := by omega
    exact ⟨hcommit1, happ1, hpend1⟩

theorem CcInv.replicateLog (h : CcInv n0 s) (hop : e.logMeta.optype ≠ .configureChange) :
    CcInv n0 (s.append [e]) := by
  obtain ⟨happ, hpend⟩ := h.append [e]
  have hlen : (s.append [e]).node.log.length = s.node.log.length + 1 := length_append
  refine ⟨h.commit_le, happ, hpend.extend rfl rfl (fun _ _ => rfl)
    (hlen ▸ Nat.le_succ _) fun i hlt hle => ?_⟩
  obtain rfl : i = s.node.log.length + 1 := by omega
  exact changeAt_eq_none_of (getEntry_concat s.node.log e) hop

theorem applyCommitted_log (hs : s.applyCommitted c = some s') : s'.node.log = s.node.log := by
  rw [CcServer.applyCommitted] at hs
  split at hs
  · obtain ⟨s1, hs1, rfl⟩ := map_eq_some_iff.mp hs
    have hlog := (applyConfigureChange_sameLog hs1).log
    split
    · exact hlog
    · exact hlog
  · cases hs
    rfl

section

variable (h : CcInv n0 s)
include h

theorem CcInv.tryUpdateCommitIndex {newCommitIndex : Nat}
    (hlt : s.commitIndex < newCommitIndex) (hle : newCommitIndex ≤ getLastLogIndex s.node.log)
    (hs : s.tryUpdateCommitIndex newCommitIndex = some s') : CcInv n0 s' := by
  obtain ⟨s1, hs1, rfl⟩ := map_eq_some_iff.mp hs
  have hinv := ccInv_applyCommitted h.applied h.pending h.commit_le le_rfl (.inl rfl) hlt hs1
  have hmin : min newCommitIndex s.node.log.length = newCommitIndex := Nat.min_eq_left hle
  rwa [applyCommitted_log hs1, hmin] at hinv

/-- What is left when only the pending change and what does not matter
are different. -/
theorem CcInv.same (hcommit : s'.commitIndex = s.commitIndex)
    (hpassed : s'.passed = s.passed) (hlog : s'.node.log = s.node.log)
    (happlied : s'.applied = s.applied) (hagree : Agree s.node s'.node)
    (hpend : PendingUpTo s' s.passed s.node.log.length) : CcInv n0 s' where
  commit_le := hcommit ▸ hpassed ▸ h.commit_le
  applied := hpassed ▸ h.applied.same (hlog ▸ h.applied.le_length) (fun _ _ => hlog ▸ rfl)
    happlied hagree
  pending := by rwa [hpassed, hlog]

/-- A leader has written its change; nothing else was pending. -/
theorem CcInv.sendConfigure {val : ConfigureChangeValue} {term : Nat} {single : Bool}
    (hs : s.sendConfigure val term single = some s') : CcInv n0 s' := by
  rw [CcServer.sendConfigure] at hs
  split at hs
  · cases hs
    exact h
  rename_i hprep
  have h1 : CcInv n0 { s with node := { s.node with scanIndex := getLastLogIndex s.node.log } } :=
    h.same rfl rfl rfl rfl { Agree.refl s.node with } (h.pending.same rfl rfl fun _ _ => rfl)
  obtain ⟨happ, hpend⟩ := h1.append [CcServer.changeEntry val term]
  have hlen : (s.node.log ++ [CcServer.changeEntry val term]).length = s.node.log.length + 1 :=
    length_append
  have hentry := getEntry_concat s.node.log (CcServer.changeEntry val term)
  have hchange := isSome_of_eq_some (changeAt_eq_some.mpr ⟨_, hentry, rfl, rfl⟩)
  have hone : ∀ k, s.passed < k → k ≤ s.node.log.length + 1 →
      IsChange (s.node.log ++ [CcServer.changeEntry val term]) k →
      k = s.node.log.length + 1 := by
    intro k hk hkl hkc
    rcases lt_or_ge s.node.log.length k with hlt | hge
    · omega
    · exact absurd (hpend.pending k hk hge hkc).1 hprep
  have hlt : s.passed < s.node.log.length + 1 := Nat.lt_succ_of_le h.applied.le_length
  split at hs
  · obtain ⟨s1, hs1, rfl⟩ := map_eq_some_iff.mp hs
    have hsame := applyConfigureChange_sameLog hs1
    have happ1 : AppliedUpTo n0 s1 (s.node.log.length + 1) := by
      refine AppliedUpTo.apply ?_ hlt hone hs1
      exact happ.same happ.le_length (fun _ _ => rfl) rfl (Agree.refl _)
    have hlen1 : s1.node.log.length = s.node.log.length + 1 :=
      (congrArg length hsame.log).trans hlen
    have hpassed : s1.passed = s.node.log.length + 1 := hsame.passed.trans (Nat.max_eq_right hlt.le)
    refine ⟨?_, ?_, ?_, nofun⟩
    · exact (hsame.commitIndex.trans hpassed.symm).le
    · change AppliedUpTo n0 s1.clear s1.passed
      rw [hpassed]
      exact happ1.same happ1.le_length (fun _ _ => rfl) rfl { Agree.refl s1.node with }
    · intro i hi hi' _
      have hi : s1.passed < i := hi
      have hi' : i ≤ s1.node.log.length := hi'
      omega
  · cases hs
    refine ⟨h.commit_le, happ.same happ.le_length (fun _ _ => rfl) rfl { Agree.refl s.node with },
      ?_, ?_⟩
    · intro i hi hi' hic
      exact ⟨rfl, (hone i hi (hi'.trans hlen.le) hic).symm⟩
    · exact fun _ => .inr (.inl ⟨hlt, hlen.ge, hchange⟩)

theorem CcInv.truncateBackward {firstIndex : Nat} (hfirst : s.passed < firstIndex) :
    CcInv n0 (s.truncateBackward firstIndex) := by
  have hlog : ∀ i, i < firstIndex →
      getEntry (s.truncateBackward firstIndex).node.log i = getEntry s.node.log i :=
    fun i hi => getEntry_take_of_lt hi
  have hlen :
      (s.truncateBackward firstIndex).node.log.length = min (firstIndex - 1) s.node.log.length :=
    length_take
  have hpassed := h.applied.le_length
  refine ⟨h.commit_le, h.applied.same (by omega) (fun i hi => hlog i (hi.trans_lt hfirst)) rfl
    { Agree.refl s.node with }, ?_, ?_⟩
  · intro i hpi hi hchange
    obtain ⟨hprep, hidx⟩ := h.pending.pending i hpi (by omega) (hchange.congr (hlog i (by omega)))
    have hkeep : ¬(s.node.ccMgr.prepared = true ∧ firstIndex ≤ s.node.ccMgr.preparedIndex) := by
      rintro ⟨-, hle⟩
      omega
    simp only [CcServer.truncateBackward, if_neg hkeep]
    exact ⟨hprep, hidx⟩
  · simp only [CcServer.truncateBackward]
    split
    · exact fun _ => .inl rfl
    · rename_i hkeep
      intro hprep
      have hlt : s.node.ccMgr.preparedIndex < firstIndex := not_le.mp fun hle => hkeep ⟨hprep, hle⟩
      refine (h.pending.prepared hprep).imp_right (Or.imp_left fun ⟨hqi, _, hi⟩ => ⟨hqi, ?_, ?_⟩)
      · rw [length_take]
        omega
      · exact hi.congr (getEntry_take_of_lt hlt).symm

/-- The waiting call finds its own change where it clears, and another
one, that has not been committed, where it does not. -/
def WakeOk (s : CcServer) : Prop :=
  s.node.ccMgr.prepared = true → s.node.ccMgr.preparedIndex = 0 ∨
    if s.node.ccMgr.aborted = true ∨ s.waiting = some s.node.ccMgr.preparedIndex then
      s.node.ccMgr.preparedIndex ≤ s.commitIndex
    else s.commitIndex < s.node.ccMgr.preparedIndex

instance (s : CcServer) : Decidable (WakeOk s) := inferInstanceAs (Decidable (_ → _))

theorem CcInv.clear (hprep : s.node.ccMgr.prepared = true → s.node.ccMgr.preparedIndex ≤ s.passed)
    (waiting : Option Nat) : CcInv n0 { s with waiting := waiting }.clear := by
  refine h.same rfl rfl rfl rfl { Agree.refl s.node with } ⟨?_, nofun⟩
  intro i hi hi' hic
  exact absurd hic (h.pending.none_of hprep hi hi')

theorem CcInv.wake (hok : WakeOk s) {index : Nat} (hwait : s.waiting = some index)
    (hs : s.wake index = some s') : CcInv n0 s' := by
  have hcommit := h.commit_le
  have hclear : s.node.ccMgr.aborted = true ∨ s.waiting = some s.node.ccMgr.preparedIndex →
      s.node.ccMgr.prepared = true → s.node.ccMgr.preparedIndex ≤ s.passed := by
    intro hbranch hprep
    have hle := hok hprep
    rw [if_pos hbranch] at hle
    omega
  rw [CcServer.wake] at hs
  split at hs
  · rename_i haborted
    cases hs
    exact h.clear (hclear (.inl haborted)) none
  · rename_i haborted
    split at hs
    · rename_i hother
      cases hs
      have hbranch :
          ¬(s.node.ccMgr.aborted = true ∨ s.waiting = some s.node.ccMgr.preparedIndex) := by
        rintro (h | h)
        · exact haborted h
        · exact hother.2 (some.inj (h.symm.trans hwait))
      refine h.same rfl rfl rfl rfl { Agree.refl s.node with } ⟨h.pending.pending, fun hprep => ?_⟩
      have hlt := hok hprep
      rw [if_neg hbranch] at hlt
      obtain hzero | hpend | ⟨hle, -⟩ := h.pending.prepared hprep
      · exact .inl hzero
      · exact .inr (.inl hpend)
      · exact .inl (hlt.resolve_right (not_lt.mpr hle))
    · split at hs
      · cases hs
      · rename_i hidx
        cases hs
        exact h.clear (hclear (.inr (hwait.trans (congrArg some (not_not.mp hidx).symm)))) none

theorem CcInv.timeout (happlied : s.node.ccMgr.applied = false) : CcInv n0 s.timeout := by
  refine h.same rfl rfl rfl rfl { Agree.refl s.node with } ⟨h.pending.pending, fun hprep => ?_⟩
  refine (h.pending.prepared hprep).imp_right (Or.imp_right fun ⟨_, _, htold⟩ => ?_)
  exact nomatch happlied.symm.trans htold

theorem CcInv.role {state : State} (hstate : s.node.state ≠ .learner)
    (hstate' : state ≠ .learner) : CcInv n0 { s with node := { s.node with state := state } } :=
  h.same rfl rfl rfl rfl { Agree.refl s.node with learner := iff_of_false hstate hstate' }
    (h.pending.same rfl rfl fun _ _ => rfl)

end

/-! ## Restarts -/

def scanned (st : Stored) : List (Nat × LogEntry) :=
  if st.scanIndex = 0 then [] else changesBetween st.log (st.scanIndex - 1) st.log.length

/-- The texts are those of the configuration, and a text can hold it: the ids
are those of the slots, no member is force sync, the last learner is not cut,
and the last slot with the local address is that of the local server. -/
@[mk_iff]
structure TextsOk (n : Node) : Prop where
  state : n.state ≠ .learner
  number : n.config.serversNum = getServerNum n.config
  length : n.config.servers.length < uint64Size
  members : ∀ o ∈ n.config.servers, ∀ s ∈ o, MemberOk s
  memberSlots : n.config.servers.mapIdx (fun k => Option.map fun s =>
    { restoredMember k s with forceSync := false }) = n.config.servers
  learners : ∀ o ∈ n.config.learners, ∀ s ∈ o, LearnerOk s
  learnerSlots :
    n.config.learners.mapIdx (fun k => Option.map (restoredLearner k)) = n.config.learners
  last : ∀ o ∈ n.config.learners.getLast?, ∀ s ∈ o, ¬SourceCut s
  slot : ∀ s ∈ localServer n, findLocalIndex s.strAddr 1 n.config.servers 0 = n.localSlot + 1
  memberText : (localServer n).bind (fun s => membersToStringAt n.config.servers s.strAddr)
    = some n.memberConfigure
  learnerText : learnersToString n.config.learners = some n.learnerConfigure

instance (n : Node) : Decidable (TextsOk n) := decidable_of_iff' _ (textsOk_iff n)

def CcServer.pendingIndex (s : CcServer) : Option Nat :=
  if s.node.ccMgr.prepared = true ∧ s.commitIndex < s.node.ccMgr.preparedIndex then
    some s.node.ccMgr.preparedIndex
  else none

/-- The changes of a log that wait for their commit: the one that `s` waits for
and those that were written since. -/
def CcServer.pendingChanges (s : CcServer) (log : List LogEntry) : List (Nat × LogEntry) :=
  (changesBetween log 0 log.length).filter fun x =>
    s.pendingIndex = some x.1 ∨ s.node.log.length < x.1

/-- A restart with what is stored in `st`: the texts are those of the
configuration, at most one change was pending, and it is what the stored index
lets the scan see. -/
@[mk_iff]
structure StoredOk (s : CcServer) (st : Stored) : Prop where
  texts : TextsOk s.node
  members : st.memberConfigure = s.node.memberConfigure
  learners : st.learnerConfigure = s.node.learnerConfigure
  scan : scanned st = s.pendingChanges st.log
  single : (s.pendingChanges st.log).length ≤ 1

instance (s : CcServer) (st : Stored) : Decidable (StoredOk s st) :=
  decidable_of_iff' _ (storedOk_iff s st)

theorem stringToVector_fst {str : List Char} {r : List (List Char) × Nat}
    (h : stringToVector str i = some r) : ∃ n, stringToVector str 0 = some (r.1, n) := by
  unfold stringToVector at h ⊢
  dsimp only at h ⊢
  split at h
  · split at h
    · cases h
      exact ⟨0, if_pos ‹_›⟩
    · cases h
      exact ⟨0, if_neg ‹_›⟩
  · split at h
    · cases h
      exact ⟨0, if_pos ‹_›⟩
    · obtain ⟨n, hn, rfl⟩ := map_eq_some_iff.mp h
      refine ⟨n, ?_⟩
      rw [if_neg ‹_›, hn]
      rfl

section

variable {n n' : Node} (h : TextsOk n)
include h

theorem TextsOk.installConfig {r : List (List Char) × Nat} {config : StableConfiguration}
    (hr : stringToVector n.memberConfigure 0 = some r)
    (hconfig : installConfig emptyConfiguration r.1 r.2 none = some config) :
    config = { n.config with learners := [] } ∧ r.2 = n.localSlot + 1 := by
  obtain ⟨s, hs, htext⟩ := bind_eq_some_iff.mp h.memberText
  have hback := restoreMembers_eq (fun s hs => h.members _ hs s rfl) h.length
    (join_eq_some_iff.mp hs)
  have hrestore : restoreMembers n.memberConfigure = some (config.servers, r.2) := by
    rw [restoreMembers, hr, bind_some]
    exact congrArg (Option.map _) hconfig
  rw [htext, bind_some, hrestore, h.memberSlots, h.slot s hs] at hback
  obtain ⟨hservers, hslot⟩ := Prod.mk.inj (Option.some.inj hback)
  obtain ⟨servers, -, rfl⟩ := map_eq_some_iff.mp hconfig
  subst hservers
  exact ⟨congrArg (StableConfiguration.mk · _ []) ((Nat.zero_add _).trans h.number.symm), hslot⟩

theorem TextsOk.addLearners {strs : List (List Char)} {k : Nat}
    (hstrs : stringToVector n.learnerConfigure 0 = some (strs, k)) :
    addLearnersLoop true 1 strs [] = some n.config.learners := by
  have hback := restoreLearners_eq (fun s hs => h.learners _ hs s rfl) fun s hs => h.last _ hs s rfl
  rw [h.learnerText, bind_some, h.learnerSlots, restoreLearners, hstrs, bind_some] at hback
  obtain ⟨c, hc, hlearners⟩ := map_eq_some_iff.mp hback
  obtain ⟨learners, hloop, rfl⟩ := map_eq_some_iff.mp hc
  exact hlearners ▸ hloop

theorem TextsOk.init (hmembers : st.memberConfigure = n.memberConfigure)
    (hlearners : st.learnerConfigure = n.learnerConfigure) (hinit : init st [] 0 = some n') :
    Agree n n' := by
  obtain ⟨members, hm, hinit⟩ := bind_eq_some_iff.mp hinit
  obtain ⟨learners, hl, hinit⟩ := bind_eq_some_iff.mp hinit
  rw [if_pos rfl] at hinit
  split at hinit
  · cases hinit
  rw [installNode] at hinit
  split at hinit
  · cases hinit
  obtain ⟨config, hconfig, hinit⟩ := bind_eq_some_iff.mp hinit
  obtain ⟨rfl, hslot⟩ := h.installConfig (hmembers ▸ hm) hconfig
  obtain ⟨k, hstrs⟩ := stringToVector_fst hl
  have hloop := h.addLearners (hlearners ▸ hstrs)
  have hrole : n.state = .learner ↔ State.follower = .learner := iff_of_false h.state nofun
  rw [addLearnersAndStore] at hinit
  split at hinit
  · rename_i hnil
    cases hinit
    rw [hnil] at hloop
    have hnil : [] = n.config.learners := some.inj hloop
    exact ⟨by rw [hnil], by rw [hslot]; rfl, hrole, hmembers.symm, hlearners.symm⟩
  · rw [Paxos.addLearners, hloop] at hinit
    obtain ⟨str, hstr, rfl⟩ := map_eq_some_iff.mp hinit
    have hstr : str = n.learnerConfigure := some.inj (hstr.symm.trans h.learnerText)
    exact ⟨rfl, by rw [hslot]; rfl, hrole, hmembers.symm, hstr.symm⟩

end

theorem mem_changesBetween (h : x ∈ changesBetween log a b) :
    a < x.1 ∧ x.1 ≤ b ∧ IsChange log x.1 := by
  obtain ⟨i, hi, hx⟩ := mem_filterMap.mp h
  obtain ⟨k, hk, rfl⟩ := mem_range'.mp hi
  obtain ⟨e, -, -, rfl⟩ := changeAt_eq_some.mp hx
  exact ⟨by omega, by omega, isSome_of_eq_some hx⟩

theorem CcInv.pendingChanges_eq (h : CcInv n0 s) (hlen : s.passed ≤ log.length)
    (hlog : ∀ i, i ≤ s.node.log.length → getEntry log i = getEntry s.node.log i) :
    s.pendingChanges log = changesBetween log s.passed log.length := by
  have hcommit := h.commit_le
  have hpassed := h.applied.le_length
  have hpending : ∀ x, s.pendingIndex = some x → s.passed < x := by
    intro x hx
    obtain ⟨⟨hprep, hlt⟩, rfl⟩ := ite_some_none_eq_some.mp hx
    obtain hzero | ⟨hlt, -⟩ | ⟨hle, -⟩ := h.pending.prepared hprep
    · omega
    · exact hlt
    · omega
  rw [CcServer.pendingChanges, changesBetween_split (Nat.zero_le _) hlen, filter_append,
    filter_eq_nil_iff.mpr, filter_eq_self.mpr]
  · rfl
  · intro x hx
    obtain ⟨hlt, hle, hchange⟩ := mem_changesBetween hx
    refine decide_eq_true (or_iff_not_imp_right.mpr fun hnew => ?_)
    have hnew := not_lt.mp hnew
    obtain ⟨hprep, hidx⟩ := h.pending.pending x.1 hlt hnew (hchange.congr (hlog _ hnew))
    rw [CcServer.pendingIndex, hidx, if_pos ⟨hprep, by omega⟩]
  · intro x hx hmem
    obtain ⟨-, hle, -⟩ := mem_changesBetween hx
    rcases of_decide_eq_true hmem with hmem | hmem
    · exact absurd hle (not_le.mpr (hpending _ hmem))
    · omega

theorem find?_change (l : List Nat) :
    (l.find? fun i => (getEntry log i).any (·.logMeta.optype = .configureChange)) =
      (l.filterMap (changeAt log)).head?.map Prod.fst := by
  induction l with
  | nil => rfl
  | cons i l ih =>
    rw [find?_cons, filterMap_cons, changeAt]
    cases getEntry log i with
    | none => exact ih
    | some e =>
      rw [bind_some, any_some]
      by_cases hop : e.logMeta.optype = .configureChange
      · rw [if_pos hop, decide_eq_true hop]
        rfl
      · rwa [if_neg hop, decide_eq_false hop]

theorem scanLog_eq (st : Stored) : scanLog st.log st.scanIndex = match (scanned st).head? with
      | some x => { newCcMgr with prepared := true, preparedIndex := x.1 }
      | none => newCcMgr := by
  rw [scanLog, scanned]
  split
  · rfl
  · rename_i hne
    rw [find?_change, changesBetween, Nat.sub_add_cancel (Nat.pos_of_ne_zero hne),
      show st.log.length + 1 - st.scanIndex = st.log.length - (st.scanIndex - 1) by omega]
    cases (filterMap (changeAt st.log)
      (range' st.scanIndex (st.log.length - (st.scanIndex - 1)))).head? with
    | none => rfl
    | some x => rfl

theorem init_stored_frame {n : Node} (h : init st [] 0 = some n) :
    n.log = st.log ∧ n.ccMgr.prepared = (scanLog st.log st.scanIndex).prepared ∧
    n.ccMgr.preparedIndex = (scanLog st.log st.scanIndex).preparedIndex := by
  obtain ⟨members, -, h⟩ := bind_eq_some_iff.mp h
  obtain ⟨learners, -, h⟩ := bind_eq_some_iff.mp h
  rw [if_pos rfl] at h
  split at h
  · cases h
  rw [installNode] at h
  split at h
  · cases h
  obtain ⟨config, -, h⟩ := bind_eq_some_iff.mp h
  have hframe := frame_of_rel (addLearnersAndStore_agree (.refl _) _ _) h
  exact ⟨hframe.log, hframe.prepared, hframe.preparedIndex⟩

theorem exists_mem_changesBetween (hai : a < i) (hib : i ≤ b) (h : IsChange log i) :
    ∃ x ∈ changesBetween log a b, x.1 = i := by
  obtain ⟨x, hx⟩ := isSome_iff_exists.mp h
  obtain ⟨e, -, -, rfl⟩ := changeAt_eq_some.mp hx
  refine ⟨(i, e), mem_filterMap.mpr ⟨i, mem_range'.mpr ⟨i - (a + 1), ?_, ?_⟩, hx⟩, rfl⟩
  · omega
  · omega

/-- `s1` is the server at the crash, with the history of `s`. -/
theorem CcInv.restart {s1 : CcServer} (h : CcInv n0 s) (hok : StoredOk s st)
    (hlen : s.node.log.length ≤ st.log.length)
    (hlog : ∀ i, i ≤ s.node.log.length → getEntry st.log i = getEntry s.node.log i)
    (hpassed : s1.passed = s.passed) (happlied : s1.applied = s.applied)
    (hs : s1.restart st = some s') : CcInv n0 s' := by
  obtain ⟨n, hn, rfl⟩ := map_eq_some_iff.mp hs
  obtain ⟨hnlog, hprep, hidx⟩ := init_stored_frame hn
  have hle := h.applied.le_length
  refine ⟨Nat.zero_le _, ?_, ?_⟩
  · rw [hpassed]
    exact h.applied.same (hnlog ▸ hle.trans hlen) (fun i hi => hnlog ▸ hlog i (hi.trans hle))
      happlied
      (hok.texts.init hok.members hok.learners hn)
  · rw [hpassed, hnlog]
    rw [scanLog_eq] at hprep hidx
    have hscan := hok.scan.trans (h.pendingChanges_eq (hle.trans hlen) hlog)
    have hsingle := hok.scan ▸ hok.single
    cases hl : scanned st with
    | nil =>
      rw [hl] at hprep hscan
      refine ⟨fun i hi hi' hic => ?_, fun hc => nomatch hprep.symm.trans hc⟩
      obtain ⟨x, hx, -⟩ := exists_mem_changesBetween hi hi' (hnlog ▸ hic)
      exact absurd (hscan ▸ hx) not_mem_nil
    | cons x l =>
      rw [hl] at hprep hidx hscan hsingle
      obtain rfl : l = [] :=
        eq_nil_of_length_eq_zero (Nat.le_zero.mp (Nat.le_of_succ_le_succ hsingle))
      obtain ⟨hpx, hxl, hxc⟩ := mem_changesBetween (hscan ▸ mem_singleton_self x)
      refine ⟨fun i hi hi' hic => ⟨hprep, ?_⟩, fun _ => .inr (.inl ?_)⟩
      · obtain ⟨y, hy, rfl⟩ := exists_mem_changesBetween hi hi' (hnlog ▸ hic)
        rw [← hscan, mem_singleton] at hy
        exact hidx.trans (congrArg Prod.fst hy.symm)
      · rw [hidx, hnlog]
        exact ⟨hpx, hxl, hxc⟩

/-! ## Runs -/

def CcOk (s : CcServer) : CcAction → Prop
  | .onAppendLog es commitindex => EarlyOk commitindex (s.append es) (s.node.log.length + 1) es
  | .wake => WakeOk s
  | .restart => StoredOk s s.node.stored
  | .crashAppend es k => ∀ s1 ∈ (s.append es).prepareEntries (s.node.log.length + 1) (es.take k),
      s1.applied = s.applied ∧ StoredOk s s1.node.stored
  | .crashSend => StoredOk s { s.node.stored with scanIndex := getLastLogIndex s.node.log }
  | .crashApply members learners => ∀ st ∈ s.storedInApply members learners, StoredOk s st
  | _ => True

instance (s : CcServer) : ∀ a, Decidable (CcOk s a)
  | .onAppendLog _ _ => EarlyOk.decidable _ _ _ _
  | .wake => inferInstanceAs (Decidable (WakeOk s))
  | .restart => inferInstanceAs (Decidable (StoredOk s _))
  | .crashAppend es k =>
    inferInstanceAs (Decidable (∀ s1 ∈ (s.append es).prepareEntries _ (es.take k),
      s1.applied = s.applied ∧ StoredOk s s1.node.stored))
  | .crashSend => inferInstanceAs (Decidable (StoredOk s _))
  | .crashApply members learners =>
    inferInstanceAs (Decidable (∀ st ∈ s.storedInApply members learners, StoredOk s st))
  | .replicateLog _ | .sendConfigure _ _ _ | .tryUpdateCommitIndex _ | .truncateBackward _
  | .timeout | .role _ => .isTrue trivial

theorem CcInv.crashAppend (h : CcInv n0 s) {k : Nat}
    (hok : CcOk s (.crashAppend es k))
    (hs : (((s.append es).prepareEntries (s.node.log.length + 1) (es.take k)).bind fun s =>
      s.restart s.node.stored) = some s') : CcInv n0 s' := by
  obtain ⟨s1, hs1, hs⟩ := bind_eq_some_iff.mp hs
  obtain ⟨happlied, hstored⟩ := hok s1 hs1
  have hsame := prepareEntries_sameLog hs1
  have hlog : s1.node.stored.log = s.node.log ++ es := hsame.log
  refine h.restart hstored ?_ (fun i hi => ?_) hsame.passed happlied hs
  · rw [hlog, length_append]
    exact Nat.le_add_right _ _
  · rw [hlog]
    exact getEntry_append_of_le hi es

theorem CcInv.ccStep (h : CcInv n0 s) {a : CcAction} (hok : CcOk s a) (hs : ccStep s a = some s') :
    CcInv n0 s' := by
  rw [Paxos.ccStep.eq_def] at hs
  split at hs
  · cases hs
  cases a with
  | onAppendLog es commitindex =>
    obtain ⟨-, hs⟩ := ite_none_right_eq_some.mp hs
    exact h.onAppendLog hok hs
  | replicateLog e =>
    obtain ⟨⟨-, hop⟩, rfl⟩ := ite_some_none_eq_some.mp hs
    exact h.replicateLog hop
  | sendConfigure val term single =>
    obtain ⟨-, hs⟩ := ite_none_right_eq_some.mp hs
    exact h.sendConfigure hs
  | tryUpdateCommitIndex newCommitIndex =>
    obtain ⟨⟨-, hlt, hle⟩, hs⟩ := ite_none_right_eq_some.mp hs
    exact h.tryUpdateCommitIndex hlt hle hs
  | truncateBackward firstIndex =>
    obtain ⟨hfirst, rfl⟩ := ite_some_none_eq_some.mp hs
    exact h.truncateBackward hfirst
  | wake =>
    obtain ⟨-, hs⟩ := ite_none_right_eq_some.mp hs
    obtain ⟨index, hwait, hs⟩ := bind_eq_some_iff.mp hs
    exact h.wake hok hwait hs
  | timeout =>
    obtain ⟨⟨-, happlied, -⟩, rfl⟩ := ite_some_none_eq_some.mp hs
    exact h.timeout happlied
  | role state =>
    obtain ⟨⟨hstate, hstate'⟩, rfl⟩ := ite_some_none_eq_some.mp hs
    exact h.role hstate hstate'
  | restart => exact h.restart hok le_rfl (fun _ _ => rfl) rfl rfl hs
  | crashAppend es k =>
    obtain ⟨-, hs⟩ := ite_none_right_eq_some.mp hs
    exact h.crashAppend hok hs
  | crashSend =>
    obtain ⟨-, hs⟩ := ite_none_right_eq_some.mp hs
    exact h.restart hok le_rfl (fun _ _ => rfl) rfl rfl hs
  | crashApply members learners =>
    obtain ⟨-, hs⟩ := ite_none_right_eq_some.mp hs
    obtain ⟨st, hst, hs⟩ := bind_eq_some_iff.mp hs
    have hlog : st.log = s.node.log := by
      obtain ⟨e, -, hst⟩ := bind_eq_some_iff.mp hst
      obtain ⟨val, -, hst⟩ := bind_eq_some_iff.mp hst
      obtain ⟨n, -, hst⟩ := bind_eq_some_iff.mp hst
      cases hst
      rfl
    exact h.restart (hok st hst) (hlog ▸ le_rfl) (fun _ _ => hlog ▸ rfl) rfl rfl hs

def freshServer (n : Node) : CcServer := ⟨n, 0, none, 0, []⟩

theorem ccInv_freshServer (hlog : n0.log = []) (hprep : n0.ccMgr.prepared = false) :
    CcInv n0 (freshServer n0) where
  commit_le := Nat.le_refl 0
  applied := ⟨Nat.zero_le _, rfl, n0, rfl, Agree.refl n0⟩
  pending := by
    refine ⟨fun i hi hi' _ => ?_, fun hc => nomatch hprep.symm.trans hc⟩
    have hi' : i ≤ n0.log.length := hi'
    rw [hlog] at hi'
    exact absurd hi' (not_le.mpr hi)

/-- After every run whose steps are as they should be, the changes that
have been applied are those up to the largest commit index, each once and
in the order of the log, and the stored configuration is what they make of
the first one. -/
theorem changesApplied_of_ccOk (hlog : n0.log = []) (hprep : n0.ccMgr.prepared = false)
    {as : List CcAction} (hm : Meets ccStep CcOk (freshServer n0) as)
    (hs : exec ccStep (freshServer n0) as = some s) :
    s.commitIndex ≤ s.passed ∧ s.passed ≤ s.node.log.length ∧
    s.applied = changesBetween s.node.log 0 s.passed ∧
    ∃ m, applyAll n0 s.applied = some m ∧ s.node.memberConfigure = m.memberConfigure ∧
      s.node.learnerConfigure = m.learnerConfigure := by
  have hinv := exec_invariant_of_meets (fun _ s => CcInv n0 s) (fun _ s a s' h hok => h.ccStep hok)
    (ccInv_freshServer hlog hprep) hm hs
  obtain ⟨m, hm, hagree⟩ := hinv.applied.config
  exact ⟨hinv.commit_le, hinv.applied.le_length, hinv.applied.applied, m, hm,
    hagree.memberConfigure.symm, hagree.learnerConfigure.symm⟩

def firstOfTwo : Node :=
  (init ⟨[], 0, [], []⟩ [['a', ':', '1'], ['b', ':', '1']] 1).get rfl

def addLearner (host : Char) : CcAction :=
  .sendConfigure ⟨.learnerOp, .addNode, [[host, ':', '1']], [], [], 0, false, 0, 0, false⟩ 1 false

/-- The change behind an ordinary entry is found again after a restart. -/
def scanRun : List CcAction :=
  [.role .leader, .replicateLog ⟨⟨1, .normal, 0⟩, none⟩, addLearner 'c', .restart,
    .onAppendLog [] 2]

theorem changesApplied_scanRun :
    ∃ s, exec ccStep (freshServer firstOfTwo) scanRun = some s ∧ s.applied.map Prod.fst = [2] ∧
      s.commitIndex ≤ s.passed ∧ s.passed ≤ s.node.log.length ∧
      s.applied = changesBetween s.node.log 0 s.passed ∧
      ∃ m, applyAll firstOfTwo s.applied = some m ∧ s.node.memberConfigure = m.memberConfigure ∧
        s.node.learnerConfigure = m.learnerConfigure := by
  have hm : Meets ccStep CcOk (freshServer firstOfTwo) scanRun := by decide
  exact ⟨_, rfl, rfl, changesApplied_of_ccOk rfl rfl hm rfl⟩

/-- The restart finds the change before the one that is pending. -/
def twoChanges : List CcAction :=
  [.role .leader, addLearner 'c', .tryUpdateCommitIndex 1, .wake, addLearner 'd', .restart,
    .onAppendLog [] 2]

/-- Both changes are committed. The first one has been applied twice, the
second one not at all. -/
theorem appliedTwice : (exec ccStep (freshServer firstOfTwo) twoChanges).map (fun s =>
      (s.passed, s.applied.map Prod.fst, (changesBetween s.node.log 0 s.passed).map Prod.fst)) =
        some (2, [1, 1], [1, 2]) := by
  decide

end PolarDB.Paxos
