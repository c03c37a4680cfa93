import PolarDB.Lts
import PolarDB.Quorum
import PolarDB.PaxosConfigView

/-!
# The commit index of a leader

`tryUpdateCommitIndex` moves the commit index to what a majority has
(`quorumMin`), or to what all force sync members have if that is less
(`forceMin`), if the entry there is of the current term. If it is one of
a group of dependent entries, the index goes back to the last entry in
front of the group. A configuration change that is passed is applied.

Between the calls anything may happen that a leader allows: match
indexes, members and the pending change are what they are, entries are
appended and sent, and the recovery of dependent entries cuts off
entries of older terms. The leader rule is `leaderCommit_ok`.

The two reads of `lastNonCommitDepIndex` are one.
-/

namespace PolarDB.Paxos

open List Option

structure Leader where
  node : Node
  currentTerm : Nat
  commitIndex : Nat
  metaCache : LogMetaCache
  leaderForceSyncStatus : Bool
  lastNonCommitDepIndex : Nat
  consensusAsync : Bool

def commitCandidate (s : Leader) : Option Nat :=
  (quorumMin s.node.config Server.matchIndex).map fun newCommitIndex =>
    let forceCommitIndex := forceMin s.node.config Server.matchIndex
    if forceCommitIndex < newCommitIndex ∧ s.leaderForceSyncStatus then forceCommitIndex
    else newCommitIndex

/-- The check of the entry, with the index to go back to; `none` if the
index stays. -/
def checkCommitEntry (s : Leader) (readable : Bool) (newCommitIndex : Nat) : Option Nat :=
  if s.consensusAsync then some newCommitIndex
  else
    match getLogMeta s.node.log s.metaCache readable newCommitIndex with
    | none => none
    | some m =>
      if m.term ≠ s.currentTerm then none
      else if m.optype = .commitDep then
        if newCommitIndex < s.lastNonCommitDepIndex then none else some s.lastNonCommitDepIndex
      else some newCommitIndex

/-- The pending change if it is passed, with the indexes that
`applyConfigureChangeNoLock_` is called with. -/
def applyPrepared (s : Leader) (newCommitIndex : Nat) : Option (Node × List Nat) :=
  if s.node.ccMgr.prepared ∧ s.node.ccMgr.preparedIndex ≤ newCommitIndex ∧
      s.commitIndex < s.node.ccMgr.preparedIndex then
    (applyConfigureChange s.node s.node.ccMgr.preparedIndex).map fun n =>
      (if n.ccMgr.needNotify then n else { n with ccMgr := n.ccMgr.clear },
        [s.node.ccMgr.preparedIndex])
  else some (s.node, [])

def tryUpdateCommitIndex (s : Leader) (readable : Bool) : Option (Leader × List Nat) :=
  if s.node.state ≠ .leader ∨ s.node.stopped then some (s, [])
  else
    (commitCandidate s).bind fun k =>
      if k ≤ s.commitIndex ∨ getLastLogIndex s.node.log < k then some (s, [])
      else
        match checkCommitEntry s readable k with
        | none => some (s, [])
        | some newCommitIndex =>
          if newCommitIndex ≤ s.commitIndex then some (s, [])
          else (applyPrepared s newCommitIndex).map fun r =>
            ({ s with node := r.1, commitIndex := newCommitIndex }, r.2)

/-! ## What enough servers have -/

variable {c : StableConfiguration} {f : Server → Nat} {v : Nat}

theorem quorumMin_majority (hne : c.servers ≠ []) (h : quorumMin c f = some v) :
    (presentServers c).length < 2 * (presentServers c).countP (v ≤ f ·) := by
  rw [quorumMin, if_neg hne] at h
  have hmiddle := lt_two_mul_countP_middle h
  rwa [length_map, countP_map] at hmiddle

theorem forceMin_le (hne : c.servers ≠ []) {t : Server} (ht : t ∈ presentServers c)
    (hforce : t.forceSync = true) : forceMin c f ≤ f t := by
  have hfold : ∀ (l : List Server) (n : Nat),
      l.foldl (fun value s => if s.forceSync ∧ f s < value then f s else value) n ≤ n ∧
      ∀ t ∈ l, t.forceSync = true →
        l.foldl (fun value s => if s.forceSync ∧ f s < value then f s else value) n ≤ f t := by
    intro l
    induction l with
    | nil => exact fun n => ⟨Nat.le_refl n, nofun⟩
    | cons s l ih =>
      intro n
      have hstep : (if s.forceSync ∧ f s < n then f s else n) ≤ n := by
        split
        · omega
        · exact Nat.le_refl n
      obtain ⟨hle, hall⟩ := ih (if s.forceSync ∧ f s < n then f s else n)
      refine ⟨hle.trans hstep, fun t ht hforce => ?_⟩
      rcases mem_cons.mp ht with rfl | ht
      · refine hle.trans ?_
        split
        · exact le_rfl
        · rename_i hnot
          exact not_lt.mp fun hlt => hnot ⟨hforce, hlt⟩
      · exact hall t ht hforce
  rw [forceMin, if_neg hne]
  exact (hfold _ _).2 t ht hforce

variable {s s' : Leader} {k : Nat} {readable : Bool} {applied : List Nat}

structure Reached (s : Leader) (k : Nat) : Prop where
  majority : (presentServers s.node.config).length <
    2 * (presentServers s.node.config).countP (k ≤ ·.matchIndex)
  force : s.leaderForceSyncStatus = true → ∀ t ∈ presentServers s.node.config,
    t.forceSync = true → k ≤ t.matchIndex

theorem commitCandidate_reached (hpos : 0 < k) (h : commitCandidate s = some k) : Reached s k := by
  obtain ⟨v, hv, hk⟩ := map_eq_some_iff.mp h
  have hne : s.node.config.servers ≠ [] := by
    intro hnil
    rw [quorumMin, if_pos hnil] at hv
    cases hv
    simp only [Nat.not_lt_zero, false_and, if_false] at hk
    omega
  have hmajority := quorumMin_majority hne hv
  have hforce := fun t ht hf => forceMin_le (f := Server.matchIndex) (t := t) hne ht hf
  simp only at hk
  split at hk
  · rename_i hlt
    subst hk
    refine ⟨hmajority.trans_le (Nat.mul_le_mul_left 2 ?_), fun _ => hforce⟩
    refine countP_mono_left fun t _ ht => decide_eq_true ?_
    exact hlt.1.le.trans (of_decide_eq_true ht)
  · rename_i hnot
    subst hk
    refine ⟨hmajority, fun hstatus t ht hf => Nat.le_trans ?_ (hforce t ht hf)⟩
    exact not_lt.mp fun hlt => hnot ⟨hlt, hstatus⟩

/-! ## One call -/

def CacheTrue (term : Nat) (log : List LogEntry) (index : Nat) (m : LogMeta) : Prop :=
  m.term = term → ∃ e, getEntry log index = some e ∧ e.logMeta.term = term

structure LeaderOk (s : Leader) : Prop where
  cache : s.metaCache.Holds (CacheTrue s.currentTerm s.node.log)
  commit_le : s.commitIndex ≤ getLastLogIndex s.node.log

theorem leaderOk_of_reset {c : LogMetaCache} (hcache : s.metaCache = c.reset)
    (hcommit : s.commitIndex ≤ getLastLogIndex s.node.log) : LeaderOk s where
  cache := by
    rw [hcache]
    exact ⟨Nat.zero_le _, show 0 < maxEntrySize by decide, rfl, le_rfl, nofun⟩
  commit_le := hcommit

/-- The entry is of the current term and not in front of the new commit
index. -/
theorem checkCommitEntry_term (h : LeaderOk s) (hasync : s.consensusAsync = false) {n : Nat}
    (hn : checkCommitEntry s readable k = some n) :
    n ≤ k ∧ ∃ e, getEntry s.node.log k = some e ∧ e.logMeta.term = s.currentTerm := by
  rw [checkCommitEntry, hasync, if_neg Bool.false_ne_true] at hn
  split at hn
  · cases hn
  · rename_i m hm
    obtain ⟨hterm, hn⟩ := ite_none_left_eq_some.mp hn
    have hentry : ∃ e, getEntry s.node.log k = some e ∧ e.logMeta.term = s.currentTerm := by
      rcases getLogMeta_of_holds h.cache hm with hcache | ⟨e, he, rfl⟩
      · exact hcache (not_not.mp hterm)
      · exact ⟨e, he, not_not.mp hterm⟩
    refine ⟨?_, hentry⟩
    split at hn
    · split at hn
      · cases hn
      · cases hn
        omega
    · cases hn
      exact Nat.le_refl k

/-- What a call does: nothing, or it moves the commit index. -/
theorem tryUpdateCommitIndex_cases (h : tryUpdateCommitIndex s readable = some (s', applied)) :
    (s' = s ∧ applied = []) ∨
    ∃ k newCommitIndex n, commitCandidate s = some k ∧ s.commitIndex < k ∧
      k ≤ getLastLogIndex s.node.log ∧ checkCommitEntry s readable k = some newCommitIndex ∧
      s.commitIndex < newCommitIndex ∧ applyPrepared s newCommitIndex = some (n, applied) ∧
      s' = { s with node := n, commitIndex := newCommitIndex } := by
  rw [tryUpdateCommitIndex] at h
  split at h
  · cases h
    exact .inl ⟨rfl, rfl⟩
  · obtain ⟨k, hk, h⟩ := bind_eq_some_iff.mp h
    split at h
    · cases h
      exact .inl ⟨rfl, rfl⟩
    · split at h
      · cases h
        exact .inl ⟨rfl, rfl⟩
      · rename_i newCommitIndex hcheck
        split at h
        · cases h
          exact .inl ⟨rfl, rfl⟩
        · obtain ⟨⟨n, applied⟩, hr, heq⟩ := map_eq_some_iff.mp h
          cases heq
          exact .inr ⟨k, newCommitIndex, n, hk, by omega, by omega, hcheck, by omega, hr, rfl⟩

theorem applyConfigureChange_log {n n' : Node} {logIndex : Nat}
    (h : applyConfigureChange n logIndex = some n') : n'.log = n.log := by
  rw [applyConfigureChange] at h
  split at h
  · cases h
    rfl
  · obtain ⟨e, -, h⟩ := bind_eq_some_iff.mp h
    obtain ⟨-, h⟩ := ite_none_left_eq_some.mp h
    obtain ⟨val, -, h⟩ := bind_eq_some_iff.mp h
    obtain ⟨n1, h1, h⟩ := bind_eq_some_iff.mp h
    cases h
    exact (finishChange_frame n1 _).1.log.trans (applyConfigureChangeValue_frame h1).log

variable {n : Node} {i : Nat} {index : Nat} {e : LogEntry} {a : LeaderAction}

def Passed (s : Leader) (newCommitIndex : Nat) : Prop :=
  s.node.ccMgr.prepared = true ∧ s.commitIndex < s.node.ccMgr.preparedIndex ∧
    s.node.ccMgr.preparedIndex ≤ newCommitIndex

theorem applyPrepared_cases (h : applyPrepared s i = some (n, applied)) :
    (¬Passed s i ∧ applied = [] ∧ n = s.node) ∨
    Passed s i ∧ applied = [s.node.ccMgr.preparedIndex] ∧
      ∃ n1, applyConfigureChange s.node s.node.ccMgr.preparedIndex = some n1 ∧
        n = { n1 with ccMgr := if n1.ccMgr.needNotify then n1.ccMgr else n1.ccMgr.clear } := by
  rw [applyPrepared] at h
  split at h
  · rename_i hcond
    obtain ⟨n1, h1, heq⟩ := map_eq_some_iff.mp h
    cases heq
    refine .inr ⟨⟨hcond.1, hcond.2.2, hcond.2.1⟩, rfl, n1, h1, ?_⟩
    split
    · rfl
    · rfl
  · rename_i hcond
    cases h
    exact .inl ⟨fun hc => hcond ⟨hc.1, hc.2.2, hc.2.1⟩, rfl, rfl⟩

theorem applyPrepared_log (h : applyPrepared s i = some (n, applied)) : n.log = s.node.log := by
  rcases applyPrepared_cases h with ⟨-, -, rfl⟩ | ⟨-, -, n1, h1, rfl⟩
  · rfl
  · exact (applyConfigureChange_log h1 : n1.log = s.node.log)

theorem LeaderOk.tryUpdateCommitIndex (h : LeaderOk s) (hasync : s.consensusAsync = false)
    (hs : tryUpdateCommitIndex s readable = some (s', applied)) : LeaderOk s' := by
  rcases tryUpdateCommitIndex_cases hs with ⟨rfl, -⟩ | ⟨k, i, n, -, -, hk, hcheck, -, hn, rfl⟩
  · exact h
  · have hle := (checkCommitEntry_term h hasync hcheck).1
    refine ⟨?_, ?_⟩
    · rw [show n.log = s.node.log from applyPrepared_log hn]
      exact h.cache
    · rw [show n.log = s.node.log from applyPrepared_log hn]
      exact hle.trans hk

/-! ## Runs -/

inductive LeaderAction where
  | tryUpdate (readable : Bool)
  | change (config : StableConfiguration) (ccMgr : CcMgr) (leaderForceSyncStatus : Bool)
      (lastNonCommitDepIndex : Nat)
  | append (entries : List LogEntry)
  | send (index : Nat)
  | resetLog (lastIndex : Nat)

/-- One step. A leader sends entries that it reads from its log.
`commitDepResetLog` cuts off entries that were not written in this term
and are not committed. -/
def leaderStep (s : Leader) : LeaderAction → Option Leader
  | .tryUpdate readable => (tryUpdateCommitIndex s readable).map Prod.fst
  | .change config ccMgr leaderForceSyncStatus lastNonCommitDepIndex =>
    some { s with
      node := { s.node with config := config, ccMgr := ccMgr }
      leaderForceSyncStatus := leaderForceSyncStatus
      lastNonCommitDepIndex := lastNonCommitDepIndex }
  | .append entries => some { s with node := { s.node with log := s.node.log ++ entries } }
  | .send index =>
    (getEntry s.node.log index).map fun e =>
      { s with metaCache := s.metaCache.putLogMeta index e.logMeta }
  | .resetLog lastIndex =>
    if s.commitIndex ≤ lastIndex ∧ lastIndex ≤ s.node.log.length ∧
        ∀ e ∈ s.node.log.drop lastIndex, e.logMeta.term ≠ s.currentTerm then
      some { s with node := { s.node with log := s.node.log.take lastIndex } }
    else none

theorem LeaderOk.append (h : LeaderOk s) (entries : List LogEntry) :
    LeaderOk { s with node := { s.node with log := s.node.log ++ entries } } where
  cache := h.cache.mono fun _ _ hcache hterm => by
    obtain ⟨e, he, ht⟩ := hcache hterm
    exact ⟨e, getEntry_append_left he entries, ht⟩
  commit_le := by
    rw [getLastLogIndex, length_append]
    exact h.commit_le.trans (Nat.le_add_right ..)

theorem LeaderOk.send (h : LeaderOk s) (he : getEntry s.node.log index = some e) :
    LeaderOk { s with metaCache := s.metaCache.putLogMeta index e.logMeta } where
  cache := h.cache.putLogMeta (Nat.pos_of_ne_zero (getEntry_eq_some.mp he).1) fun hterm =>
    ⟨e, he, hterm⟩
  commit_le := h.commit_le

theorem LeaderOk.resetLog (h : LeaderOk s) {lastIndex : Nat} (hcommit : s.commitIndex ≤ lastIndex)
    (hlast : lastIndex ≤ s.node.log.length)
    (hterm : ∀ e ∈ s.node.log.drop lastIndex, e.logMeta.term ≠ s.currentTerm) :
    LeaderOk { s with node := { s.node with log := s.node.log.take lastIndex } } where
  cache := h.cache.mono fun index m hcache ht => by
    obtain ⟨e, he, hte⟩ := hcache ht
    obtain ⟨hpos, he⟩ := getEntry_eq_some.mp he
    refine ⟨e, getEntry_eq_some.mpr ⟨hpos, ?_⟩, hte⟩
    by_cases hlt : index - 1 < lastIndex
    · rw [getElem?_take_of_lt hlt, he]
    · refine absurd hte (hterm e (mem_of_getElem? (i := index - 1 - lastIndex) ?_))
      rw [getElem?_drop, ← he]
      congr 1
      omega
  commit_le := by
    rwa [getLastLogIndex, length_take, Nat.min_eq_left hlast]

theorem leaderStep_frame (hs : leaderStep s a = some s') :
    s'.consensusAsync = s.consensusAsync ∧ s.commitIndex ≤ s'.commitIndex := by
  cases a with
  | tryUpdate readable =>
    obtain ⟨⟨s1, applied⟩, h, rfl⟩ := map_eq_some_iff.mp hs
    rcases tryUpdateCommitIndex_cases h with ⟨rfl, -⟩ | ⟨_, _, _, -, -, -, -, hlt, -, rfl⟩
    · exact ⟨rfl, le_rfl⟩
    · exact ⟨rfl, hlt.le⟩
  | change | append =>
    cases hs
    exact ⟨rfl, le_rfl⟩
  | send =>
    obtain ⟨e, -, rfl⟩ := map_eq_some_iff.mp hs
    exact ⟨rfl, le_rfl⟩
  | resetLog =>
    obtain ⟨-, rfl⟩ := ite_some_none_eq_some.mp hs
    exact ⟨rfl, le_rfl⟩

theorem LeaderOk.step (h : LeaderOk s) (hasync : s.consensusAsync = false)
    (hs : leaderStep s a = some s') : LeaderOk s' := by
  cases a with
  | tryUpdate readable =>
    obtain ⟨⟨s1, applied⟩, hcall, rfl⟩ := map_eq_some_iff.mp hs
    exact h.tryUpdateCommitIndex hasync hcall
  | change config ccMgr status index =>
    cases hs
    exact { h with }
  | append entries =>
    cases hs
    exact h.append entries
  | send index =>
    obtain ⟨e, he, rfl⟩ := map_eq_some_iff.mp hs
    exact h.send he
  | resetLog lastIndex =>
    obtain ⟨⟨hcommit, hlast, hterm⟩, rfl⟩ := ite_some_none_eq_some.mp hs
    exact h.resetLog hcommit hlast hterm

/-- After any run of a leader, for the next call: the commit index does
not go down and stays inside of the log. If it moves, some entry of the
current term that is not in front of it is at a majority of the members
and, while force sync is active, at every force sync member. A pending
change is applied if and only if it is passed, once, and no other one;
without that the server stays as it is. -/
theorem leaderCommit_ok {s0 : Leader} (h0 : LeaderOk s0) (hasync : s0.consensusAsync = false)
    {as : List LeaderAction} (hs : exec leaderStep s0 as = some s)
    (hcall : tryUpdateCommitIndex s readable = some (s', applied)) :
    s0.commitIndex ≤ s.commitIndex ∧ s.commitIndex ≤ s'.commitIndex ∧
    s'.commitIndex ≤ getLastLogIndex s'.node.log ∧
    (s'.commitIndex ≠ s.commitIndex → ∃ k e, s'.commitIndex ≤ k ∧
      getEntry s.node.log k = some e ∧ e.logMeta.term = s.currentTerm ∧
      (presentServers s.node.config).length <
        2 * (presentServers s.node.config).countP (k ≤ ·.matchIndex) ∧
      (s.leaderForceSyncStatus = true → ∀ t ∈ presentServers s.node.config,
        t.forceSync = true → k ≤ t.matchIndex)) ∧
    (applied = if s.node.ccMgr.prepared = true ∧ s.commitIndex < s.node.ccMgr.preparedIndex ∧
      s.node.ccMgr.preparedIndex ≤ s'.commitIndex then [s.node.ccMgr.preparedIndex] else []) ∧
    (applied = [] → s'.node = s.node) ∧
    (applied ≠ [] → ∃ n, applyConfigureChange s.node s.node.ccMgr.preparedIndex = some n ∧
      s'.node = { n with ccMgr := if n.ccMgr.needNotify then n.ccMgr else n.ccMgr.clear }) := by
  obtain ⟨hok, hoff, hle⟩ :
    LeaderOk s ∧ s.consensusAsync = false ∧ s0.commitIndex ≤ s.commitIndex :=
    exec_invariant (fun _ s => LeaderOk s ∧ s.consensusAsync = false ∧
      s0.commitIndex ≤ s.commitIndex)
      ⟨h0, hasync, le_rfl⟩
      (fun _ _ _ _ ⟨h, hasync, hle⟩ hs => ⟨h.step hasync hs, (leaderStep_frame hs).1.trans hasync,
        hle.trans (leaderStep_frame hs).2⟩) hs
  have hok' := hok.tryUpdateCommitIndex hoff hcall
  refine ⟨hle, ?_, hok'.commit_le, ?_⟩
  · exact (leaderStep_frame (a := .tryUpdate readable) (by rw [leaderStep, hcall]; rfl)).2
  · rcases tryUpdateCommitIndex_cases hcall with
      ⟨rfl, rfl⟩ | ⟨k, i, n, hk, hlt, -, hcheck, -, hn, rfl⟩
    · exact ⟨fun hne => absurd rfl hne, (if_neg fun hc => by omega).symm, fun _ => rfl,
        fun hne => absurd rfl hne⟩
    · obtain ⟨hik, e, he, hterm⟩ := checkCommitEntry_term hok hoff hcheck
      have hreached := commitCandidate_reached (Nat.zero_lt_of_lt hlt) hk
      refine ⟨fun _ => ⟨k, e, hik, he, hterm, hreached.majority, hreached.force⟩, ?_⟩
      rcases applyPrepared_cases hn with ⟨hnot, rfl, rfl⟩ | ⟨hpassed, rfl, n1, h1, rfl⟩
      · exact ⟨(if_neg hnot).symm, fun _ => rfl, fun hne => absurd rfl hne⟩
      · exact ⟨(if_pos hpassed).symm, fun hnil => absurd hnil (cons_ne_nil _ _), fun _ =>
          ⟨n1, h1, rfl⟩⟩

/-- A leader in term 2 with a pending change at index 2. Entry 4 depends on
what follows it; of the members at slots 1, 3 and 4 the second one is force
sync and the last one is behind. -/
def dependentLeader : Leader where
  node :=
    { state := .leader
      config := ⟨3, [some ⟨1, ['a', ':', '1'], false, 5, 0, false, 4⟩, none,
        some ⟨3, ['b', ':', '1'], true, 5, 0, false, 4⟩,
        some ⟨4, ['c', ':', '1'], false, 5, 0, false, 2⟩], []⟩
      localSlot := 0
      log := [⟨⟨1, .nop, 0⟩, none⟩,
        ⟨⟨2, .configureChange, 0⟩,
          some ⟨.learnerOp, .addNode, [['d', ':', '1']], [], [], 0, false, 0, 0, false⟩⟩,
        ⟨⟨2, .normal, 0⟩, none⟩, ⟨⟨2, .commitDep, 0⟩, none⟩]
      ccMgr := { newCcMgr with prepared := true, preparedIndex := 2 }
      stopped := false
      scanIndex := 2
      memberConfigure := []
      learnerConfigure := [] }
  currentTerm := 2
  commitIndex := 1
  metaCache := LogMetaCache.reset ⟨0, 0, 0, 0, fun _ => (0, ⟨0, .normal, 0⟩)⟩
  leaderForceSyncStatus := true
  lastNonCommitDepIndex := 3
  consensusAsync := false

def sentLeader : Leader :=
  { dependentLeader with metaCache := dependentLeader.metaCache.putLogMeta 4 ⟨2, .commitDep, 0⟩ }

/-- The commit index goes to 3, and the change is applied. -/
theorem leaderCommit_ok_dependent :
    ∃ s', tryUpdateCommitIndex sentLeader true = some (s', [2]) ∧ s'.commitIndex = 3 ∧
      s'.commitIndex ≤ getLastLogIndex s'.node.log ∧
      ∃ n, applyConfigureChange sentLeader.node 2 = some n ∧ s'.node.config = n.config := by
  have hrun : exec leaderStep dependentLeader [.send 4] = some sentLeader := rfl
  have hcall : ∃ s', tryUpdateCommitIndex sentLeader true = some (s', [2]) ∧ s'.commitIndex = 3 :=
    ⟨_, rfl, rfl⟩
  obtain ⟨s', hcall, hcommit⟩ := hcall
  obtain ⟨-, -, hle, -, -, -, happly⟩ :=
    leaderCommit_ok (leaderOk_of_reset rfl (by decide)) rfl hrun hcall
  obtain ⟨n, hn, hnode⟩ := happly (by decide)
  exact ⟨s', hcall, hcommit, hle, n, hn, by rw [hnode]⟩

end PolarDB.Paxos
