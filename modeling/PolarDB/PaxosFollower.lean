import PolarDB.Lts
import PolarDB.PaxosLogCache

/-!
# Terms along the log of a follower

Entries that come too early wait in `logRecvCache_`. `newTerm` empties
it, `requestVote` does not, and so entries of an old leader can get
behind entries of a new one (`staleCache`). If the cache is empty
whenever the server asks for votes, everything in the cache is of the
current term, and terms never decrease along the log
(`logOrder_of_cacheEmpty`).

The leaders are not modelled beyond what they promise: one log for each
term, which only grows and along which terms do not decrease.
-/

namespace PolarDB.Paxos

open List Option

variable {n : Nat} {r r' : Replica} {log L : List LogEntry} {e : LogEntry}

/-! ## Ordered logs -/

def Ordered (log : List LogEntry) : Prop := log.Pairwise fun e e' => e.term ≤ e'.term

instance (log : List LogEntry) : Decidable (Ordered log) :=
  inferInstanceAs (Decidable (List.Pairwise _ _))

theorem termAt_succ (i : Nat) : termAt log (i + 1) = (log[i]?.map LogEntry.term).getD 0 := rfl

theorem termAt_succ_of_lt {i : Nat} (hi : i < log.length) : termAt log (i + 1) = log[i].term := by
  rw [termAt_succ, getElem?_eq_getElem hi]
  rfl

variable {m p t : Nat} {msg : AppendLogMsg}

section

variable (h : Ordered log)
include h

theorem Ordered.le_termAt_of_mem_take (hm : m ≤ log.length)
    (he : e ∈ log.take m) : e.term ≤ termAt log m := by
  obtain ⟨i, hi, rfl⟩ := mem_take_iff_getElem.mp he
  obtain ⟨m, rfl⟩ : ∃ k, m = k + 1 := ⟨m - 1, by omega⟩
  rw [termAt_succ_of_lt hm]
  rcases lt_or_ge i m with hlt | hge
  · exact pairwise_iff_getElem.mp h i m _ _ hlt
  · obtain rfl : i = m := by omega
    exact le_refl _

theorem Ordered.termAt_le_of_mem_drop (he : e ∈ log.drop m) : termAt log m ≤ e.term := by
  cases m with
  | zero => exact Nat.zero_le _
  | succ m =>
    obtain ⟨j, hj, rfl⟩ := mem_drop_iff_getElem.mp he
    rw [termAt_succ_of_lt (by omega)]
    exact pairwise_iff_getElem.mp h m (m + 1 + j) _ _ (by omega)

theorem Ordered.le_getLastLogTerm (he : e ∈ log) : e.term ≤ getLastLogTerm log :=
  h.le_termAt_of_mem_take le_rfl (by rwa [getLastLogIndex, take_length])

/-- A part of `L` behind a part of `log` that ends with the same term. -/
theorem Ordered.splice (hL : Ordered L) (hm : m ≤ log.length)
    (heq : termAt log m = termAt L m) (k : Nat) : Ordered (log.take m ++ (L.drop m).take k) := by
  refine pairwise_append.mpr ⟨h.sublist (take_sublist m log),
    hL.sublist ((take_sublist k _).trans (drop_sublist m L)), fun a ha b hb => ?_⟩
  calc a.term ≤ termAt log m := h.le_termAt_of_mem_take hm ha
    _ = termAt L m := heq
    _ ≤ b.term := hL.termAt_le_of_mem_drop (mem_of_mem_take hb)

end

def CacheOf (cache : List PaxosLogCacheNode) (t : Nat) : Prop :=
  ∀ node ∈ cache, ∀ e ∈ node.entries, e.term = t

variable {cache : List PaxosLogCacheNode} {entries : List LogEntry} {newTermFlag : Bool}

theorem CacheOf.put (h : CacheOf cache t)
    {newNode : PaxosLogCacheNode} (hnew : ∀ e ∈ newNode.entries, e.term = t) :
    CacheOf (PaxosLogCache.put cache newNode) t := by
  refine PaxosLogCache.put_forall ?_ ?_ h hnew
  · exact fun a b ha hb _ => forall_mem_append.mpr ⟨ha, hb⟩
  · exact fun a b ha hb _ _ _ =>
      forall_mem_append.mpr ⟨ha, fun e he => hb e (mem_of_mem_drop he)⟩

theorem CacheOf.get (h : CacheOf cache t) {beginIndex : Nat}
    {node : PaxosLogCacheNode} (hnode : (PaxosLogCache.get cache beginIndex).1 = some node) :
    ∀ e ∈ node.entries, e.term = t := by
  obtain ⟨node', hmem, -, -, rfl⟩ := PaxosLogCache.get_node hnode
  exact fun e he => h node' hmem e (mem_of_mem_drop he)

/-! ## Receiving a part of a log -/

def SentFrom (L : List LogEntry) (msg : AppendLogMsg) : Prop :=
  match msg.prev with
  | none => msg.entries = []
  | some (prevLogIndex, prevLogTerm) =>
    prevLogIndex ≤ L.length ∧ prevLogTerm = termAt L prevLogIndex ∧
      msg.entries = (L.drop prevLogIndex).take msg.entries.length

instance (L : List LogEntry) : (msg : AppendLogMsg) → Decidable (SentFrom L msg)
  | ⟨_, _, _, none, _, _⟩ => inferInstanceAs (Decidable (_ = _))
  | ⟨_, _, _, some (_, _), _, _⟩ => inferInstanceAs (Decidable (_ ∧ _ ∧ _))

theorem getElem?_segment {j : Nat}
    (h : entries = (L.drop p).take entries.length) (hj : j < entries.length) :
    entries[j]? = L[p + j]? := by
  rw [h, getElem?_take_of_lt hj, getElem?_drop]

theorem duplicates_spec (log entries : List LogEntry) (p : Nat) :
    ∀ j < duplicates log p entries, ∃ e e', log[p + j]? = some e ∧ entries[j]? = some e' ∧
      e.term = e'.term := by
  induction entries generalizing p with
  | nil => exact nofun
  | cons e' entries ih =>
    intro j hj
    rw [duplicates] at hj
    split at hj
    · rename_i en hen
      split at hj
      · rename_i hterm
        cases j with
        | zero => exact ⟨en, e', hen, rfl, hterm⟩
        | succ j =>
          obtain ⟨e1, e2, h1, h2, h⟩ := ih (p + 1) j (by omega)
          exact ⟨e1, e2, by rwa [Nat.add_right_comm] at h1, h2, h⟩
      · cases hj
    · cases hj

/-- The answer to a message with entries names the last of them. -/
theorem appendEntries_snd (r : Replica) (newTermFlag : Bool) (p : Nat) (entries : List LogEntry) :
    (appendEntries r newTermFlag p entries).2 = p + entries.length := by
  simp only [appendEntries]
  split
  · rfl
  split
  · rfl
  split
  · rfl
  · rfl

/-- Nothing is done since the last entry of the message is there, or the
log is cut behind an entry of the same term as in `L` and goes on as `L`
does. -/
theorem appendEntries_cases (newTermFlag : Bool) (hp : p ≤ r.log.length)
    (heq : termAt r.log p = termAt L p) (hentries : entries = (L.drop p).take entries.length) :
    ((appendEntries r newTermFlag p entries).1 = r.log ∧ p + entries.length ≤ r.log.length ∧
      (termAt r.log (p + entries.length) = termAt L (p + entries.length) ∨
        entries.getLast?.map LogEntry.term = some r.currentTerm ∧ termAt r.log p = r.currentTerm)) ∨
    ∃ m, p ≤ m ∧ m ≤ p + entries.length ∧ m ≤ r.log.length ∧ termAt r.log m = termAt L m ∧
      (appendEntries r newTermFlag p entries).1 =
        r.log.take m ++ (L.drop m).take (p + entries.length - m) := by
  rw [appendEntries]
  simp only
  split
  · rename_i hlast
    refine .inr ⟨p, Nat.le_refl p, Nat.le_add_right _ _, hp, heq, ?_⟩
    rw [Nat.add_sub_cancel_left, ← hentries, ← hlast, getLastLogIndex, take_length]
  split
  · rename_i hsame
    exact .inl ⟨rfl, hsame.2.1, .inr ⟨hsame.2.2.2.1, hsame.2.2.2.2⟩⟩
  have hdup := duplicates_spec r.log entries p
  generalize duplicates r.log p entries = d at hdup ⊢
  have hle : d ≤ entries.length := by
    by_contra hlt
    obtain ⟨-, e', -, he', -⟩ := hdup entries.length (by omega)
    exact absurd (lt_of_getElem? he') (lt_irrefl _)
  have hcut : p + d ≤ r.log.length ∧ termAt r.log (p + d) = termAt L (p + d) := by
    cases d with
    | zero => exact ⟨hp, heq⟩
    | succ d =>
      obtain ⟨e, e', hlog, hent, hterm⟩ := hdup d (Nat.lt_succ_self d)
      rw [getElem?_segment hentries hle] at hent
      refine ⟨(lt_of_getElem? hlog), ?_⟩
      rwa [← Nat.add_assoc, termAt_succ, termAt_succ, hlog, hent]
  split
  · rename_i hall
    rw [hall] at hcut
    exact .inl ⟨rfl, hcut.1, .inl hcut.2⟩
  · refine .inr ⟨p + d, Nat.le_add_right p d, Nat.add_le_add_left hle p, hcut.1, hcut.2, ?_⟩
    simp only
    congr 1
    conv_lhs => rw [hentries]
    rw [drop_take, drop_drop]
    congr 1
    omega

theorem receiveEntries_cases (r : Replica) (msg : AppendLogMsg) (newTermFlag : Bool) :
    (∃ rsp, receiveEntries r msg newTermFlag = (r, rsp) ∧ rsp.isSuccess = false) ∨
    (∃ p t, msg.prev = some (p, t) ∧ getLastLogIndex r.log < p ∧
      msg.entries.head?.map LogEntry.term = some r.currentTerm ∧
      msg.entries.getLast?.map LogEntry.term = some r.currentTerm ∧
      receiveEntries r msg newTermFlag = ({ r with logRecvCache := (PaxosLogCache.put r.logRecvCache
            ⟨p + 1, p + msg.entries.length, msg.entries⟩) },
          ⟨r.currentTerm, msg.serverId, true, false, getLastLogIndex r.log⟩)) ∨
    ∃ p t, msg.prev = some (p, t) ∧ p ≤ getLastLogIndex r.log ∧ termAt r.log p = t ∧
      receiveEntries r msg newTermFlag = receiveMatch r msg p newTermFlag := by
  cases hprev : msg.prev with
  | none =>
    left
    rw [receiveEntries, hprev]
    exact ⟨_, rfl, rfl⟩
  | some prev =>
    obtain ⟨p, t⟩ := prev
    rw [receiveEntries, hprev]
    simp only
    split
    · rename_i hgap
      rw [receiveGap]
      split
      · rename_i hcache
        exact .inr (.inl ⟨p, t, rfl, hgap, hcache.2.2.1, hcache.2.2.2, rfl⟩)
      · exact .inl ⟨_, rfl, rfl⟩
    split
    · exact .inl ⟨_, rfl, rfl⟩
    · rename_i hmatch
      exact .inr (.inr ⟨p, t, rfl, by omega, not_not.mp hmatch, rfl⟩)

theorem acceptTerm_cases (h : acceptTerm r t = some (r', newTermFlag)) :
    (r' = newTerm r t ∧ (r.currentTerm < t ∨ t < r.currentTerm ∧ downgrades r t)) ∨
    t = r.currentTerm ∧ (r' = r ∧ r.state ≠ .leader ∨ r' = changeState r .follower) := by
  rw [acceptTerm] at h
  split at h
  · rename_i hlt
    obtain ⟨-, h⟩ := ite_none_right_eq_some.mp h
    cases h
    exact .inl ⟨rfl, .inl hlt⟩
  split at h
  · rename_i hlt
    obtain ⟨hdown, h⟩ := ite_none_right_eq_some.mp h
    cases h
    exact .inl ⟨rfl, .inr ⟨hlt, hdown⟩⟩
  have hterm : t = r.currentTerm := by omega
  split at h
  · cases h
    exact .inr ⟨hterm, .inr rfl⟩
  · rename_i hstate
    cases h
    exact .inr ⟨hterm, .inl ⟨rfl, fun hl => hstate (by rw [hl]; decide)⟩⟩

/-! ## What a server keeps -/

/-- Terms do not decrease along the log and do not exceed the current
term, and what is in the cache is of that term. -/
structure LogInv (r : Replica) : Prop where
  ordered : Ordered r.log
  le_term : ∀ e ∈ r.log, e.term ≤ r.currentTerm
  cache : CacheOf r.logRecvCache r.currentTerm

theorem LogInv.newTerm (h : LogInv r) (ht : r.currentTerm < t ∨ getLastLogTerm r.log ≤ t) :
    LogInv (newTerm r t) where
  ordered := h.ordered
  le_term := by
    intro e he
    rcases ht with hlt | hle
    · exact (h.le_term e he).trans hlt.le
    · exact (h.ordered.le_getLastLogTerm he).trans hle
  cache := forall_mem_nil _

theorem LogInv.acceptTerm (h : LogInv r)
    (ha : acceptTerm r t = some (r', newTermFlag)) : LogInv r' ∧ r'.currentTerm = t := by
  rcases acceptTerm_cases ha with ⟨rfl, ht⟩ | ⟨rfl, ⟨rfl, -⟩ | rfl⟩
  · exact ⟨h.newTerm (ht.imp id fun hd => hd.2.1), rfl⟩
  · exact ⟨h, rfl⟩
  · exact ⟨{ h with }, rfl⟩

theorem Ordered.eq_of_head_getLast (h : Ordered log)
    (hhead : log.head?.map LogEntry.term = some t)
    (hlast : log.getLast?.map LogEntry.term = some t) : ∀ e ∈ log, e.term = t := by
  intro e he
  obtain ⟨first, hfirst, rfl⟩ := map_eq_some_iff.mp hhead
  obtain ⟨last, hlast, hterm⟩ := map_eq_some_iff.mp hlast
  apply Nat.le_antisymm
  · exact (rel_of_getLast? h (le_refl last.term) hlast he).trans_eq hterm
  · obtain ⟨rest, rfl⟩ := head?_eq_some_iff.mp hfirst
    rcases mem_cons.mp he with rfl | he
    · exact le_refl _
    · exact (pairwise_cons.mp h).1 e he

section

variable (h : LogInv r) (hL : Ordered L) (hle : ∀ e ∈ L, e.term ≤ r.currentTerm)
include h hL hle

/-- `receiveMatch` appends a part of the sender's log and then what the
cache has behind it. -/
theorem LogInv.receiveMatch (hp : p ≤ r.log.length) (heq : termAt r.log p = termAt L p)
    (hentries : msg.entries = (L.drop p).take msg.entries.length) (newTermFlag : Bool) :
    LogInv (receiveMatch r msg p newTermFlag).1 := by
  rw [Paxos.receiveMatch]
  split
  · exact { h with }
  have hbase :
      Ordered (appendEntries { r with enableLogCache := true } newTermFlag p msg.entries).1 ∧
      ∀ e ∈ (appendEntries { r with enableLogCache := true } newTermFlag p msg.entries).1,
        e.term ≤ r.currentTerm := by
    rcases appendEntries_cases (r := { r with enableLogCache := true }) newTermFlag hp heq
      hentries with
      ⟨hlog, -⟩ | ⟨m, -, -, hm, hmeq, hlog⟩
    · rw [hlog]
      exact ⟨h.ordered, h.le_term⟩
    · rw [hlog]
      refine ⟨h.ordered.splice hL hm hmeq _, forall_mem_append.mpr ⟨?_, ?_⟩⟩
      · exact fun e he => h.le_term e (mem_of_mem_take he)
      · exact fun e he => hle e (mem_of_mem_drop (mem_of_mem_take he))
  simp only [appendCached]
  generalize (appendEntries { r with enableLogCache := true } newTermFlag p msg.entries).1 = base
    at hbase ⊢
  have hrest := PaxosLogCache.get_rest_subset r.logRecvCache (getLastLogIndex base + 1)
  split
  · rename_i rest hget
    rw [hget] at hrest
    exact ⟨hbase.1, hbase.2, fun node hnode => h.cache node (hrest hnode)⟩
  · rename_i node rest hget
    rw [hget] at hrest
    have hnode := h.cache.get (congrArg Prod.fst hget)
    refine ⟨pairwise_append.mpr ⟨hbase.1, ?_, ?_⟩, forall_mem_append.mpr ⟨hbase.2, ?_⟩,
      fun node hnode => h.cache node (hrest hnode)⟩
    · exact pairwise_of_forall_mem_list fun a ha b hb => (hnode a ha ▸ hnode b hb ▸ le_refl _)
    · exact fun a ha b hb => (hnode b hb).symm ▸ hbase.2 a ha
    · exact fun e he => (hnode e he).le

theorem LogInv.receiveEntries (hmsg : SentFrom L msg) (newTermFlag : Bool) :
    LogInv (receiveEntries r msg newTermFlag).1 := by
  rcases receiveEntries_cases r msg newTermFlag with ⟨rsp, hrecv, -⟩ |
      ⟨p, t, hprev, -, hhead, hlast, hrecv⟩ | ⟨p, t, hprev, hp, hterm, hrecv⟩
  · rwa [hrecv]
  · rw [SentFrom, hprev] at hmsg
    rw [hrecv]
    have hordered : Ordered msg.entries := by
      rw [hmsg.2.2]
      exact hL.sublist ((take_sublist _ _).trans (drop_sublist p L))
    exact ⟨h.ordered, h.le_term, h.cache.put (hordered.eq_of_head_getLast hhead hlast)⟩
  · rw [SentFrom, hprev] at hmsg
    rw [hrecv]
    exact h.receiveMatch hL hle hp (hterm.trans hmsg.2.1) hmsg.2.2 newTermFlag

end

theorem LogInv.onAppendLog (h : LogInv r) (hL : Ordered L)
    (hle : ∀ e ∈ L, e.term ≤ msg.term) (hmsg : SentFrom L msg) :
    LogInv (onAppendLog n r msg).1 := by
  rw [Paxos.onAppendLog]
  split
  · exact h
  split
  · exact h
  · rename_i r1 newTermFlag haccept
    obtain ⟨h1, hterm⟩ := h.acceptTerm haccept
    exact LogInv.receiveEntries (r := { r1 with leaderId := msg.leaderId })
      { h1 with } hL (hterm ▸ hle) hmsg newTermFlag

theorem LogInv.requestVote (h : LogInv r) (hcache : r.logRecvCache = []) {force : Bool}
    {msg : RequestVoteMsg} (hr : requestVote n r force = some (r', msg)) : LogInv r' := by
  have hle : ∀ e ∈ r.log, e.term ≤ r.currentTerm + 1 :=
    fun e he => Nat.le_succ_of_le (h.le_term e he)
  have hempty : CacheOf r.logRecvCache (r.currentTerm + 1) := hcache ▸ forall_mem_nil _
  obtain ⟨-, hr⟩ := ite_none_left_eq_some.mp hr
  cases hr
  split
  · exact ⟨pairwise_snoc h.ordered hle, forall_mem_snoc hle (le_refl _), hempty⟩
  · exact ⟨h.ordered, hle, hempty⟩

theorem LogInv.onRequestVote (h : LogInv r) (msg : RequestVoteMsg) (stage : Bool) :
    LogInv (onRequestVote r msg stage).1 := by
  have hvote : ∀ r1, LogInv r1 → LogInv (vote r1 msg (logCheck r msg)).1 := by
    intro r1 h1
    rw [vote]
    split
    · exact { h1 with }
    · exact h1
  rw [Paxos.onRequestVote]
  split
  · exact h
  split
  · exact h
  split
  · exact h
  · apply hvote
    split
    · rename_i hlt
      exact h.newTerm (.inl hlt)
    · exact h

/-! ## A follower and its leaders -/

/-- A server, and the log of the leader of each term; it is empty as long
as there is none. -/
structure Follower where
  server : Replica
  leaderLogs : Nat → List LogEntry

/-- `elect` and `write` are about another server, the leader of the
term. -/
inductive FollowerAction where
  | elect (term : Nat) (log : List LogEntry)
  | write (term : Nat) (optype : LogOperation) (info : Nat)
  | onAppendLog (msg : AppendLogMsg)
  | requestVote (force : Bool)
  | onRequestVote (msg : RequestVoteMsg) (stage : Bool)
  | newTerm (term : Nat)
  deriving DecidableEq, Repr

/-- One step. `newTerm` is called with a larger term, or with a smaller
one that is not below the last one of the log. -/
def followerStep (n : Nat) (s : Follower) : FollowerAction → Option Follower
  | .elect term log =>
    if s.leaderLogs term = [] ∧ Ordered log ∧ ∀ e ∈ log, e.term ≤ term then
      some { s with leaderLogs := Function.update s.leaderLogs term (log ++ [emptyEntry term]) }
    else none
  | .write term optype info =>
    if s.leaderLogs term ≠ [] then
      let log := s.leaderLogs term ++ [⟨⟨term, optype, info⟩, none⟩]
      some { s with leaderLogs := Function.update s.leaderLogs term log }
    else none
  | .onAppendLog msg =>
    if s.leaderLogs msg.term ≠ [] ∧ SentFrom (s.leaderLogs msg.term) msg then
      some { s with server := (onAppendLog n s.server msg).1 }
    else none
  | .requestVote force => (requestVote n s.server force).map fun x => { s with server := x.1 }
  | .onRequestVote msg stage => some { s with server := (onRequestVote s.server msg stage).1 }
  | .newTerm term =>
    if s.server.currentTerm < term ∨ getLastLogTerm s.server.log ≤ term then
      some { s with server := newTerm s.server term }
    else none

structure FollowerStart (s : Follower) : Prop where
  ordered : Ordered s.server.log
  le_term : ∀ e ∈ s.server.log, e.term ≤ s.server.currentTerm
  cache : s.server.logRecvCache = []
  leaderLogs : ∀ t, s.leaderLogs t = []

/-- The cache is empty when the server asks for votes. -/
def CacheEmpty (s : Follower) : FollowerAction → Prop
  | .requestVote _ => s.server.logRecvCache = []
  | _ => True

instance (s : Follower) : (a : FollowerAction) → Decidable (CacheEmpty s a)
  | .requestVote _ => inferInstanceAs (Decidable (_ = _))
  | .elect _ _ => .isTrue trivial
  | .write _ _ _ => .isTrue trivial
  | .onAppendLog _ => .isTrue trivial
  | .onRequestVote _ _ => .isTrue trivial
  | .newTerm _ => .isTrue trivial

structure FollowerInv (s : Follower) : Prop where
  server : LogInv s.server
  ordered : ∀ t, Ordered (s.leaderLogs t)
  le_term : ∀ t, ∀ e ∈ s.leaderLogs t, e.term ≤ t

variable {s : Follower}

theorem FollowerStart.inv (h : FollowerStart s) : FollowerInv s where
  server := ⟨h.ordered, h.le_term, h.cache ▸ forall_mem_nil _⟩
  ordered := fun t => h.leaderLogs t ▸ List.Pairwise.nil
  le_term := fun t => h.leaderLogs t ▸ forall_mem_nil _

theorem FollowerInv.lead (h : FollowerInv s) {log : List LogEntry}
    (hlog : Ordered log) (hle : ∀ e ∈ log, e.term ≤ t) {e : LogEntry} (he : e.term = t) :
    FollowerInv { s with leaderLogs := Function.update s.leaderLogs t (log ++ [e]) } where
  server := h.server
  ordered := by
    refine (Function.forall_update_iff s.leaderLogs fun _ log => Ordered log).mpr
      ⟨?_, fun t' _ => h.ordered t'⟩
    exact pairwise_snoc hlog fun a ha => he ▸ hle a ha
  le_term := by
    refine (Function.forall_update_iff s.leaderLogs fun t log => ∀ e ∈ log, e.term ≤ t).mpr
      ⟨?_, fun t' _ => h.le_term t'⟩
    exact forall_mem_snoc hle he.le

theorem FollowerInv.step {s' : Follower} (h : FollowerInv s) {a : FollowerAction}
    (hcache : CacheEmpty s a) (hs : followerStep n s a = some s') : FollowerInv s' := by
  cases a with
  | elect term log =>
    obtain ⟨hlog, rfl⟩ := ite_some_none_eq_some.mp hs
    exact h.lead hlog.2.1 hlog.2.2 rfl
  | write term optype info =>
    obtain ⟨-, rfl⟩ := ite_some_none_eq_some.mp hs
    exact h.lead (h.ordered term) (h.le_term term) rfl
  | onAppendLog msg =>
    obtain ⟨hmsg, rfl⟩ := ite_some_none_eq_some.mp hs
    exact ⟨h.server.onAppendLog (h.ordered _) (h.le_term _) hmsg.2, h.ordered, h.le_term⟩
  | requestVote force =>
    obtain ⟨⟨r, msg⟩, hr, rfl⟩ := map_eq_some_iff.mp hs
    exact ⟨h.server.requestVote hcache hr, h.ordered, h.le_term⟩
  | onRequestVote msg stage =>
    cases hs
    exact ⟨h.server.onRequestVote msg stage, h.ordered, h.le_term⟩
  | newTerm term =>
    obtain ⟨hterm, rfl⟩ := ite_some_none_eq_some.mp hs
    exact ⟨h.server.newTerm hterm, h.ordered, h.le_term⟩

/-! ## What comes out of the cache -/

/-- The entries that `onAppendLog` takes out of the cache and appends:
what the log gets more than with an empty cache. -/
def takenFromCache (n : Nat) (r : Replica) (msg : AppendLogMsg) : List LogEntry :=
  (onAppendLog n r msg).1.log.drop
    (getLastLogIndex (onAppendLog n { r with logRecvCache := [] } msg).1.log)

theorem acceptTerm_clear (r : Replica) (t : Nat) : acceptTerm { r with logRecvCache := [] } t =
      (acceptTerm r t).map fun x => ({ x.1 with logRecvCache := [] }, x.2) := by
  have hdown : downgrades { r with logRecvCache := [] } t ↔ downgrades r t := Iff.rfl
  simp only [acceptTerm, hdown]
  split_ifs <;> rfl

theorem receiveEntries_log (r : Replica) (msg : AppendLogMsg) (newTermFlag : Bool) :
    (receiveEntries r msg newTermFlag).1.log =
        (receiveEntries { r with logRecvCache := [] } msg newTermFlag).1.log ∨
      ∃ index node, (PaxosLogCache.get r.logRecvCache index).1 = some node ∧
        (receiveEntries r msg newTermFlag).1.log =
          (receiveEntries { r with logRecvCache := [] } msg newTermFlag).1.log ++ node.entries := by
  cases hprev : msg.prev with
  | none =>
    simp only [receiveEntries, hprev]
    exact .inl trivial
  | some prev =>
    simp only [receiveEntries, hprev]
    split_ifs
    · left
      simp only [receiveGap]
      split_ifs <;> rfl
    · exact .inl rfl
    · simp only [receiveMatch]
      split_ifs
      · exact .inl rfl
      · simp only [appendCached]
        have hbase :
            ∀ cache, (appendEntries { r with logRecvCache := cache, enableLogCache := true }
          newTermFlag prev.1 msg.entries).1 = (appendEntries { r with enableLogCache := true }
          newTermFlag prev.1 msg.entries).1 := fun _ => rfl
        rw [hbase []]
        split
        · exact .inl rfl
        · rename_i node rest hget
          exact .inr ⟨_, node, congrArg Prod.fst hget, rfl⟩

/-- What comes out of the cache is of the term of the message. -/
theorem LogInv.takenFromCache (h : LogInv r) (msg : AppendLogMsg) :
    (Paxos.onAppendLog n r msg).1.log =
      (Paxos.onAppendLog n { r with logRecvCache := [] } msg).1.log ++
        Paxos.takenFromCache n r msg ∧ ∀ e ∈ Paxos.takenFromCache n r msg, e.term = msg.term := by
  obtain ⟨taken, hlog, htaken⟩ : ∃ taken, (Paxos.onAppendLog n r msg).1.log =
      (Paxos.onAppendLog n { r with logRecvCache := [] } msg).1.log ++ taken ∧
      ∀ e ∈ taken, e.term = msg.term := by
    simp only [Paxos.onAppendLog, acceptTerm_clear]
    split_ifs
    · exact ⟨[], (append_nil _).symm, forall_mem_nil _⟩
    cases haccept : Paxos.acceptTerm r msg.term with
    | none => exact ⟨[], (append_nil _).symm, forall_mem_nil _⟩
    | some x =>
      obtain ⟨h1, hterm⟩ := h.acceptTerm haccept
      rcases receiveEntries_log { x.1 with leaderId := msg.leaderId } msg x.2 with
        hlog | ⟨index, node, hget, hlog⟩
      · exact ⟨[], hlog.trans (append_nil _).symm, forall_mem_nil _⟩
      · exact ⟨node.entries, hlog, hterm ▸ h1.cache.get hget⟩
  have heq : Paxos.takenFromCache n r msg = taken := by
    rw [Paxos.takenFromCache, hlog]
    exact drop_left
  rw [heq]
  exact ⟨hlog, htaken⟩

/-- If the cache is empty whenever the server asks for votes, terms do not
decrease along its log, and what comes out of the cache is of the term of
the message. -/
theorem logOrder_of_cacheEmpty {s0 s : Follower} {as : List FollowerAction} (h0 : FollowerStart s0)
    (hm : Meets (followerStep n) CacheEmpty s0 as) (hs : exec (followerStep n) s0 as = some s) :
    Ordered s.server.log ∧ ∀ msg s', followerStep n s (.onAppendLog msg) = some s' →
      s'.server.log = (onAppendLog n { s.server with logRecvCache := [] } msg).1.log ++
          takenFromCache n s.server msg ∧
        ∀ e ∈ takenFromCache n s.server msg, e.term = msg.term := by
  have h : FollowerInv s := exec_invariant_of_meets (fun _ s => FollowerInv s)
    (fun _ _ _ _ h hcache hs => h.step hcache hs) h0.inv hm hs
  refine ⟨h.server.ordered, fun msg s' hs' => ?_⟩
  obtain ⟨-, rfl⟩ := ite_some_none_eq_some.mp hs'
  exact h.server.takenFromCache msg

def freshFollower : Follower := ⟨newReplica 1 1 0 [], fun _ => []⟩

theorem freshFollower_start : FollowerStart freshFollower :=
  ⟨List.Pairwise.nil, forall_mem_nil _, rfl, fun _ => rfl⟩

/-- The leader of term 2 writes three entries; the follower gets the first
one and then the third one, which waits in the cache. -/
def gapRun : List FollowerAction :=
  [.elect 2 [],
    .write 2 .normal 0,
    .write 2 .normal 0,
    .onAppendLog ⟨2, 2, 1, some (0, 0), [emptyEntry 2], true⟩,
    .onAppendLog ⟨2, 2, 1, some (2, 2), [⟨⟨2, .normal, 0⟩, none⟩], false⟩]

/-- The second entry, and the third one out of the cache. -/
theorem logOrder_gapRun : ∃ s, exec (followerStep 3) freshFollower gapRun = some s ∧
      takenFromCache 3 s.server ⟨2, 2, 1, some (1, 2), [⟨⟨2, .normal, 0⟩, none⟩], false⟩ =
        [⟨⟨2, .normal, 0⟩, none⟩] ∧
      Ordered s.server.log :=
  have hmeets : Meets (followerStep 3) CacheEmpty freshFollower gapRun := by decide
  ⟨_, rfl, rfl, (logOrder_of_cacheEmpty freshFollower_start hmeets rfl).1⟩

/-- Now the follower asks for votes in term 3. Another server wins and
sends its first entry: the third entry of term 2 comes behind it. -/
def staleRun : List FollowerAction :=
  gapRun ++
  [.requestVote false,
    .elect 3 [emptyEntry 2],
    .onAppendLog ⟨3, 3, 1, some (1, 2), [emptyEntry 3], false⟩]

theorem staleCache : ∃ s, exec (followerStep 3) freshFollower staleRun = some s ∧
      s.server.log.map LogEntry.term = [2, 3, 2] ∧ ¬Ordered s.server.log :=
  ⟨_, rfl, rfl, by decide⟩

end PolarDB.Paxos
