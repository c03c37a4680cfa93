import PolarDB.PaxosFollower

/-!
# Log matching

`L t` is the log of the leader of term `t`. A log is rooted in them if
each of its beginnings that ends with an entry of term `t` is the
beginning of `L t` (`Rooted`). Two rooted logs with entries of the same
term at one index are the same up to there (`Rooted.take_eq`), which is
what makes the check of `prevlogterm` enough.

A follower answers a message with entries with the index of the last of
them, and up to there its log is the leader's. An empty message, and one
whose entries it has to keep in the cache, it answers with its own last
index, which it has not checked (`OwnLast`); this is right if the leader
has the same entry there (`LastMatches`).
-/

namespace PolarDB.Paxos

open List

variable {n : Nat} {r r' : Replica} {log log' : List LogEntry} {L L' : Nat → List LogEntry}
  {e : LogEntry}

/-! ## Rooted logs -/

/-- Each beginning of the log is the beginning of the log of the leader
that wrote its last entry. -/
def Rooted (L : Nat → List LogEntry) (log : List LogEntry) : Prop :=
  ∀ m, 1 ≤ m → m ≤ log.length → log.take m = (L (termAt log m)).take m

variable {m p : Nat} {l : List LogEntry} {msg : AppendLogMsg} {k : Nat} {l' : List LogEntry}
  {node : PaxosLogCacheNode} {cache : List PaxosLogCacheNode}

theorem termAt_take (h : m ≤ k) : termAt (log.take k) m = termAt log m := by
  cases m with
  | zero => rfl
  | succ m => rw [termAt_succ, termAt_succ, getElem?_take_of_lt h]

theorem termAt_append_left (h : m ≤ log.length) (log' : List LogEntry) :
    termAt (log ++ log') m = termAt log m := by
  cases m with
  | zero => rfl
  | succ m => rw [termAt_succ, termAt_succ, getElem?_append_left h]

theorem termAt_length_snoc (log : List LogEntry) (e : LogEntry) :
    termAt (log ++ [e]) (log.length + 1) = e.term := by
  rw [termAt_succ, getElem?_concat_length]
  rfl

theorem rooted_nil (L : Nat → List LogEntry) : Rooted L [] :=
  fun _ hpos hle => absurd (hpos.trans hle) (Nat.not_lt_zero 0)

/-- Rooted logs that have entries of the same term at an index are the
same up to there. -/
theorem Rooted.take_eq (h : Rooted L log) (h' : Rooted L log') (hm : m ≤ log.length)
    (hm' : m ≤ log'.length) (heq : termAt log m = termAt log' m) : log.take m = log'.take m := by
  rcases Nat.eq_zero_or_pos m with rfl | hpos
  · rw [take_zero, take_zero]
  · rw [h m hpos hm, h' m hpos hm', heq]

theorem Rooted.take (h : Rooted L log) (k : Nat) : Rooted L (log.take k) := by
  intro m hpos hm
  rw [length_take] at hm
  have hmk : m ≤ k := hm.trans (Nat.min_le_left k _)
  rw [termAt_take hmk, take_take, Nat.min_eq_left hmk]
  exact h m hpos (hm.trans (Nat.min_le_right k _))

theorem Rooted.le_length (h : Rooted L log) (hpos : 1 ≤ m) (hm : m ≤ log.length) :
    m ≤ (L (termAt log m)).length := by
  have hlen := congrArg length (h m hpos hm)
  rw [length_take, length_take] at hlen
  omega

theorem take_of_begins (h : l <+: l') (hm : m ≤ l.length) : l'.take m = l.take m := by
  obtain ⟨x, rfl⟩ := h
  exact take_append_of_le_length hm

theorem Rooted.mono (h : Rooted L log) (hgrow : ∀ t, L t <+: L' t) : Rooted L' log := by
  intro m hpos hm
  rw [take_of_begins (hgrow _) (h.le_length hpos hm)]
  exact h m hpos hm

theorem Rooted.snoc (h : Rooted L log) (hgrow : ∀ t, L t <+: L' t) (he : L' e.term = log ++ [e]) :
    Rooted L' (log ++ [e]) := by
  intro m hpos hm
  rw [length_append, length_singleton] at hm
  rcases lt_or_ge log.length m with hlt | hle
  · obtain rfl : m = log.length + 1 := by omega
    rw [termAt_length_snoc, he]
  · rw [termAt_append_left hle, take_append_of_le_length hle]
    exact h.mono hgrow m hpos hle

/-! ## Parts of a leader's log -/

structure Seg (l : List LogEntry) (node : PaxosLogCacheNode) : Prop where
  pos : 1 ≤ node.beginIndex
  begin_le : node.beginIndex ≤ node.endIndex
  end_le : node.endIndex ≤ l.length
  entries : node.entries = (l.take node.endIndex).drop (node.beginIndex - 1)

theorem Seg.mono (h : Seg l node) (hl : l <+: l') : Seg l' node :=
  { h with
    end_le := h.end_le.trans hl.length_le
    entries := by rw [take_of_begins hl h.end_le, h.entries] }

theorem drop_take_append (l : List LogEntry) {a b c : Nat} (hab : a ≤ b) (hbc : b ≤ c)
    (hc : c ≤ l.length) : (l.take b).drop a ++ (l.take c).drop b = (l.take c).drop a := by
  have hsplit : l.take c = l.take b ++ (l.take c).drop b := by
    conv_lhs => rw [← take_append_drop b (l.take c), take_take, Nat.min_eq_left hbc]
  have hlen : a ≤ (l.take b).length := by
    rw [length_take]
    omega
  conv_rhs => rw [hsplit, drop_append_of_le_length hlen]

theorem Seg.put (h : ∀ node ∈ cache, Seg l node)
    {newNode : PaxosLogCacheNode} (hnew : Seg l newNode) :
    ∀ node ∈ PaxosLogCache.put cache newNode, Seg l node := by
  refine PaxosLogCache.put_forall ?_ ?_ h hnew
  · intro a b ha hb hadj
    have hab := ha.begin_le
    have hb' := hb.begin_le
    refine ⟨ha.pos, by simp only; omega, hb.end_le, ?_⟩
    have hbegin : b.beginIndex - 1 = a.endIndex := by omega
    rw [ha.entries, hb.entries, hbegin]
    exact drop_take_append l (by omega) (by omega) hb.end_le
  · intro a b ha hb hle hover hend
    have hpos := hb.pos
    refine ⟨ha.pos, ha.begin_le.trans hend.le, hb.end_le, ?_⟩
    have hdrop : b.beginIndex - 1 + (a.endIndex - b.beginIndex + 1) = a.endIndex := by omega
    rw [PaxosLogCacheNode.merge]
    rw [ha.entries, hb.entries, drop_drop, hdrop]
    exact drop_take_append l (by omega) hend.le hb.end_le

/-- What `get` returns for the index behind a beginning of `l` makes it a
longer beginning. -/
theorem Seg.get_append (h : ∀ node ∈ cache, Seg l node)
    (hnode : (PaxosLogCache.get cache (k + 1)).1 = some node) :
    l.take k ++ node.entries = l.take node.endIndex := by
  obtain ⟨node', hmem, hle, hend, rfl⟩ := PaxosLogCache.get_node hnode
  have hseg := h node' hmem
  have hpos := hseg.pos
  have hbegin := hseg.begin_le
  have hdrop : node'.beginIndex - 1 + (k + 1 - node'.beginIndex) = k := by omega
  rw [hseg.entries, drop_drop, hdrop]
  have := drop_take_append l (Nat.zero_le k) (by omega) hseg.end_le
  rwa [drop_zero, drop_zero] at this

/-! ## What a server keeps -/

structure LeaderLogOk (L : Nat → List LogEntry) (t : Nat) : Prop where
  rooted : Rooted L (L t)
  ordered : Ordered (L t)
  le_term : ∀ e ∈ L t, e.term ≤ t

structure ReplicaInv (L : Nat → List LogEntry) (r : Replica) : Prop where
  rooted : Rooted L r.log
  ordered : Ordered r.log
  le_term : ∀ e ∈ r.log, e.term ≤ r.currentTerm
  /-- The cache has entries of the current leader, -/
  cache : ∀ node ∈ r.logRecvCache, Seg (L r.currentTerm) node
  /-- and while there are any the log is a beginning of the leader's. -/
  cached : r.logRecvCache ≠ [] → r.log <+: L r.currentTerm
  leader : r.state = .leader → r.log = L r.currentTerm

section

variable (h : ReplicaInv L r)
include h

theorem ReplicaInv.same (hlog : r'.log = r.log)
    (hcache : r'.logRecvCache = r.logRecvCache) (hterm : r'.currentTerm = r.currentTerm)
    (hlead : r'.state = .leader → r.state = .leader) : ReplicaInv L r' where
  rooted := hlog ▸ h.rooted
  ordered := hlog ▸ h.ordered
  le_term := by
    rw [hlog, hterm]
    exact h.le_term
  cache := by
    rw [hcache, hterm]
    exact h.cache
  cached := by
    rw [hcache, hterm, hlog]
    exact h.cached
  leader := by
    rw [hlog, hterm]
    exact fun hl => h.leader (hlead hl)

theorem ReplicaInv.newTerm (hlog : r'.log <+: r.log) (hcache : r'.logRecvCache = [])
    (ht : r.currentTerm ≤ r'.currentTerm ∨ getLastLogTerm r.log ≤ r'.currentTerm)
    (hlead : r'.state ≠ .leader) : ReplicaInv L r' where
  rooted := prefix_iff_eq_take.mp hlog ▸ h.rooted.take _
  ordered := h.ordered.sublist hlog.sublist
  le_term := by
    intro e he
    rcases ht with hle | hle
    · exact (h.le_term e (hlog.subset he)).trans hle
    · exact (h.ordered.le_getLastLogTerm (hlog.subset he)).trans hle
  cache := hcache ▸ forall_mem_nil _
  cached := fun hne => absurd hcache hne
  leader := fun hl => absurd hl hlead

theorem ReplicaInv.mono (hgrow : ∀ t, L t <+: L' t)
    (hlead : r.state = .leader → L' r.currentTerm = L r.currentTerm) : ReplicaInv L' r :=
  { h with
    rooted := h.rooted.mono hgrow
    cache := fun node hnode => (h.cache node hnode).mono (hgrow _)
    cached := fun hne => (h.cached hne).trans (hgrow _)
    leader := fun hl => (h.leader hl).trans (hlead hl).symm }

theorem ReplicaInv.take (hL : LeaderLogOk L r.currentTerm) {q : Nat}
    (hlog : r'.log = (L r.currentTerm).take q) (hcache : r'.logRecvCache ⊆ r.logRecvCache)
    (hterm : r'.currentTerm = r.currentTerm) (hlead : r'.state ≠ .leader) : ReplicaInv L r' where
  rooted := hlog ▸ hL.rooted.take q
  ordered := hlog ▸ hL.ordered.sublist (take_sublist q _)
  le_term := by
    intro e he
    rw [hlog] at he
    rw [hterm]
    exact hL.le_term e (mem_of_mem_take he)
  cache := fun node hnode => hterm ▸ h.cache node (hcache hnode)
  cached := fun _ => ⟨(L r'.currentTerm).drop q, by rw [hlog, hterm, take_append_drop]⟩
  leader := fun hl => absurd hl hlead

end

/-! ## Answers -/

def LastMatches (l log : List LogEntry) : Prop :=
  getLastLogIndex log ≤ l.length ∧ getLastLogTerm log = termAt l (getLastLogIndex log)

instance (l log : List LogEntry) : Decidable (LastMatches l log) :=
  inferInstanceAs (Decidable (_ ∧ _))

/-- `prevlogindex` of the message; it is 0 if it is not set. -/
def AppendLogMsg.prevLogIndex (msg : AppendLogMsg) : Nat := (msg.prev.map Prod.fst).getD 0

/-- The server answers the message with its own last index. -/
def OwnLast (n : Nat) (r : Replica) (msg : AppendLogMsg) : Prop :=
  (onAppendLog n r msg).2.isSuccess = true ∧
    (msg.entries = [] ∨ getLastLogIndex r.log < msg.prevLogIndex)

instance (n : Nat) (r : Replica) (msg : AppendLogMsg) : Decidable (OwnLast n r msg) :=
  inferInstanceAs (Decidable (_ ∧ _))

def AckOk (L : Nat → List LogEntry) (log : List LogEntry) (rsp : AppendLogRsp) : Prop :=
  rsp.isSuccess = true → rsp.lastLogIndex ≤ log.length ∧
    log.take rsp.lastLogIndex = (L rsp.term).take rsp.lastLogIndex

theorem LastMatches.begins (h : LastMatches (L r.currentTerm) r.log) (hr : ReplicaInv L r)
    (hL : LeaderLogOk L r.currentTerm) : r.log <+: L r.currentTerm := by
  have := hr.rooted.take_eq hL.rooted le_rfl h.1 h.2
  rw [take_length] at this
  exact prefix_iff_eq_take.mpr this

theorem ReplicaInv.termAt_eq (h : ReplicaInv L r) (hpm : p < m) (hm : m ≤ r.log.length)
    (hp : termAt r.log p = r.currentTerm) : termAt r.log m = r.currentTerm := by
  obtain ⟨k, rfl⟩ : ∃ k, m = k + 1 := ⟨m - 1, by omega⟩
  have hmem : r.log[k] ∈ r.log.drop p := mem_drop_iff_getElem.mpr
    ⟨k - p, by omega, by simp only [Nat.add_sub_cancel' (Nat.le_of_lt_succ hpm)]⟩
  rw [termAt_succ_of_lt hm]
  exact (h.le_term _ (getElem_mem _)).antisymm (hp ▸ h.ordered.termAt_le_of_mem_drop hmem)

section

variable (h : ReplicaInv L r) (hL : LeaderLogOk L r.currentTerm) (newTermFlag : Bool)
  (hp : p ≤ r.log.length) (hpL : p ≤ (L r.currentTerm).length)
  (heq : termAt r.log p = termAt (L r.currentTerm) p)
include h hL newTermFlag hp hpL heq

/-- Behind the entries of a message the log is what it was or a beginning
of the leader's, and up to the last of them it is the leader's. -/
theorem ReplicaInv.appendEntries {entries : List LogEntry}
    (hentries : entries = ((L r.currentTerm).drop p).take entries.length) (hne : entries ≠ []) :
    ((appendEntries r newTermFlag p entries).1 = r.log ∨
      (appendEntries r newTermFlag p entries).1 = (L r.currentTerm).take (p + entries.length)) ∧
    p + entries.length ≤ (appendEntries r newTermFlag p entries).1.length ∧
    (appendEntries r newTermFlag p entries).1.take (p + entries.length) =
      (L r.currentTerm).take (p + entries.length) := by
  have hpos : 0 < entries.length := length_pos_iff.mpr hne
  have hlen : p + entries.length ≤ (L r.currentTerm).length := by
    have := congrArg length hentries
    rw [length_take, length_drop] at this
    omega
  rcases appendEntries_cases newTermFlag hp heq hentries with
    ⟨hlog, hle, hterm⟩ | ⟨m, _, hmk, hm, hmeq, hlog⟩
  · rw [hlog]
    refine ⟨.inl rfl, hle, h.rooted.take_eq hL.rooted hle hlen ?_⟩
    rcases hterm with hterm | ⟨hlast, hprev⟩
    · exact hterm
    · rw [h.termAt_eq (Nat.lt_add_of_pos_right hpos) hle hprev]
      obtain ⟨last, hlast, hlt⟩ := Option.map_eq_some_iff.mp hlast
      rw [getLast?_eq_getElem?, getElem?_segment hentries (by omega)] at hlast
      have hidx : p + entries.length = p + (entries.length - 1) + 1 := by omega
      rw [hidx, termAt_succ, hlast]
      exact hlt.symm
  · have htake := h.rooted.take_eq hL.rooted hm (hmk.trans hlen) hmeq
    have hbase : (Paxos.appendEntries r newTermFlag p entries).1 =
        (L r.currentTerm).take (p + entries.length) := by
      rw [hlog, htake]
      conv_rhs => rw [← Nat.add_sub_cancel' hmk, take_add]
    rw [hbase]
    refine ⟨.inr rfl, ?_, by rw [take_take, Nat.min_self]⟩
    rw [length_take, Nat.min_eq_left hlen]

/-- A message whose entries follow an entry that is there. -/
theorem ReplicaInv.receiveMatch
    (hentries : msg.entries = ((L r.currentTerm).drop p).take msg.entries.length)
    (hlead : r.state ≠ .leader) (hlast : msg.entries = [] → LastMatches (L r.currentTerm) r.log) :
    ReplicaInv L (receiveMatch r msg p newTermFlag).1 ∧
      AckOk L (receiveMatch r msg p newTermFlag).1.log (receiveMatch r msg p newTermFlag).2 := by
  rw [Paxos.receiveMatch]
  split
  · rename_i hempty
    refine ⟨h.same rfl rfl rfl id, fun _ => ⟨le_rfl, ?_⟩⟩
    rw [getLastLogIndex, take_length]
    exact prefix_iff_eq_take.mp ((hlast hempty).begins h hL)
  rename_i hne
  have h1 : ReplicaInv L { r with enableLogCache := true } := h.same rfl rfl rfl id
  obtain ⟨hbase, hle, htake⟩ := h1.appendEntries hL newTermFlag hp hpL heq hentries hne
  have hsnd := appendEntries_snd { r with enableLogCache := true } newTermFlag p msg.entries
  simp only [appendCached]
  generalize hx :
    Paxos.appendEntries { r with enableLogCache := true } newTermFlag p msg.entries = x
    at hbase hle htake hsnd ⊢
  obtain ⟨base, lli⟩ := x
  simp only at hbase hle htake hsnd ⊢
  subst hsnd
  have hrest := PaxosLogCache.get_rest_subset r.logRecvCache (getLastLogIndex base + 1)
  split
  · rename_i rest hget
    rw [hget] at hrest
    refine ⟨?_, fun _ => ⟨hle, htake⟩⟩
    rcases hbase with rfl | rfl
    · exact ⟨h.rooted, h.ordered, h.le_term, fun node hnode => h.cache node (hrest hnode),
        fun hne' => h.cached fun hnil => hne' (subset_nil.mp (hnil ▸ hrest)), h.leader⟩
    · exact h.take hL rfl hrest rfl hlead
  · rename_i node rest hget
    have hnode := congrArg Prod.fst hget
    rw [hget] at hrest
    have hcache : r.logRecvCache ≠ [] := by
      intro hnil
      rw [hnil] at hnode
      cases hnode
    have hpre : base <+: L r.currentTerm := by
      rcases hbase with rfl | rfl
      · exact h.cached hcache
      · exact take_prefix _ _
    have hlog : base ++ node.entries = (L r.currentTerm).take node.endIndex := by
      rw [← Seg.get_append h.cache hnode]
      exact congrArg (· ++ node.entries) (prefix_iff_eq_take.mp hpre)
    refine ⟨h.take hL hlog hrest rfl hlead, fun _ => ⟨le_rfl, ?_⟩⟩
    simp only
    rw [hlog, getLastLogIndex, take_length, length_take]
    exact take_eq_take_min

end

theorem ReplicaInv.receiveEntries (h : ReplicaInv L r) (hL : LeaderLogOk L r.currentTerm)
    (hmsg : SentFrom (L r.currentTerm) msg) (newTermFlag : Bool)
    (hlead : r.state ≠ .leader)
    (hlast : (receiveEntries r msg newTermFlag).2.isSuccess = true →
      (msg.entries = [] ∨ getLastLogIndex r.log < msg.prevLogIndex) →
      LastMatches (L r.currentTerm) r.log) :
    ReplicaInv L (receiveEntries r msg newTermFlag).1 ∧
      AckOk L (receiveEntries r msg newTermFlag).1.log (receiveEntries r msg newTermFlag).2 := by
  rcases receiveEntries_cases r msg newTermFlag with ⟨rsp, hrecv, hfail⟩ |
      ⟨p, t, hprev, hgap, hhead, -, hrecv⟩ | ⟨p, t, hprev, hp, hterm, hrecv⟩
  · rw [hrecv]
    refine ⟨h, fun hs => ?_⟩
    rw [hfail] at hs
    cases hs
  · rw [hrecv] at hlast ⊢
    have hown :=
      (hlast rfl (.inr (by rw [AppendLogMsg.prevLogIndex, hprev]; exact hgap))).begins h hL
    rw [SentFrom, hprev] at hmsg
    have hpos : 0 < msg.entries.length := by
      cases hnil : msg.entries with
      | nil =>
        rw [hnil] at hhead
        cases hhead
      | cons e es => exact Nat.succ_pos _
    have hlen : p + msg.entries.length ≤ (L r.currentTerm).length := by
      have := congrArg length hmsg.2.2
      rw [length_take, length_drop] at this
      omega
    have hseg : Seg (L r.currentTerm) ⟨p + 1, p + msg.entries.length, msg.entries⟩ := by
      refine ⟨Nat.le_add_left 1 p, by simp only; omega, hlen, ?_⟩
      simp only
      rw [Nat.add_sub_cancel, drop_take, Nat.add_sub_cancel_left]
      exact hmsg.2.2
    refine ⟨⟨h.rooted, h.ordered, h.le_term, Seg.put h.cache hseg, fun _ => hown, h.leader⟩,
      fun _ => ⟨le_rfl, ?_⟩⟩
    simp only
    rw [getLastLogIndex, take_length]
    exact prefix_iff_eq_take.mp hown
  · rw [hrecv] at hlast ⊢
    rw [SentFrom, hprev] at hmsg
    refine h.receiveMatch hL newTermFlag hp hmsg.1 (hterm.trans hmsg.2.1) hmsg.2.2 hlead
      fun hempty => ?_
    refine hlast ?_ (.inl hempty)
    rw [Paxos.receiveMatch, if_pos hempty]

theorem receiveEntries_log_eq (h : msg.entries = [] ∨ getLastLogIndex r.log < msg.prevLogIndex)
    (newTermFlag : Bool) : (receiveEntries r msg newTermFlag).1.log = r.log := by
  rcases receiveEntries_cases r msg newTermFlag with ⟨rsp, hrecv, -⟩ | ⟨p, t, -, -, -, -, hrecv⟩ |
      ⟨p, t, hprev, hp, -, hrecv⟩
  · rw [hrecv]
  · rw [hrecv]
  · have hempty : msg.entries = [] := by
      refine h.resolve_right fun hgap => absurd hp (Nat.not_le.mpr ?_)
      rwa [AppendLogMsg.prevLogIndex, hprev] at hgap
    rw [hrecv, receiveMatch, if_pos hempty]

/-- With its own last index a server answers without touching the log. -/
theorem OwnLast.log_eq (h : OwnLast n r msg) : (onAppendLog n r msg).1.log = r.log := by
  rw [onAppendLog]
  split
  · rfl
  split
  · rfl
  rename_i r1 newTermFlag haccept
  have hlog : r1.log = r.log := by
    rcases acceptTerm_cases haccept with ⟨rfl, -⟩ | ⟨-, ⟨rfl, -⟩ | rfl⟩ <;> rfl
  rw [receiveEntries_log_eq (r := { r1 with leaderId := msg.leaderId }) (hlog ▸ h.2), hlog]

/-- A message of a leader keeps the log of the server in order, and the
answer is right, if the own last index is given only where the leader has
the same entry. -/
theorem ReplicaInv.onAppendLog (h : ReplicaInv L r) (hL : LeaderLogOk L msg.term)
    (hmsg : SentFrom (L msg.term) msg) (hlast : OwnLast n r msg → LastMatches (L msg.term) r.log) :
    ReplicaInv L (onAppendLog n r msg).1 ∧
      AckOk L (onAppendLog n r msg).1.log (onAppendLog n r msg).2 := by
  have hfail : ∀ rsp : AppendLogRsp, rsp.isSuccess = false → AckOk L r.log rsp := by
    intro rsp hrsp hs
    rw [hrsp] at hs
    cases hs
  rw [OwnLast] at hlast
  rw [Paxos.onAppendLog] at hlast ⊢
  split
  · exact ⟨h, hfail _ rfl⟩
  rename_i hn
  rw [if_neg hn] at hlast
  split
  · exact ⟨h, hfail _ rfl⟩
  rename_i r1 newTermFlag haccept
  rw [haccept] at hlast
  obtain ⟨h1, hterm, hlog, hlead⟩ :
      ReplicaInv L r1 ∧ r1.currentTerm = msg.term ∧ r1.log = r.log ∧ r1.state ≠ .leader := by
    rcases acceptTerm_cases haccept with ⟨rfl, ht⟩ | ⟨hterm, ⟨rfl, hstate⟩ | rfl⟩
    · exact ⟨h.newTerm prefix_rfl rfl (ht.imp Nat.le_of_lt fun hd => hd.2.1)
        (newTerm_not_leader r _),
        rfl, rfl, newTerm_not_leader r _⟩
    · exact ⟨h, hterm.symm, rfl, hstate⟩
    · have hstate : (changeState r .follower).state ≠ .leader := State.noConfusion
      exact ⟨h.same rfl rfl rfl fun hl => absurd hl hstate, hterm.symm, rfl, hstate⟩
  rw [← hterm] at hL hmsg
  refine ReplicaInv.receiveEntries (r := { r1 with leaderId := msg.leaderId })
    (h1.same rfl rfl rfl id) hL hmsg newTermFlag hlead fun hs hown => ?_
  have := hlast ⟨hs, hlog ▸ hown⟩
  rwa [← hterm, ← hlog] at this

end PolarDB.Paxos
