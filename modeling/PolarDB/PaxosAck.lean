import PolarDB.PaxosElection
import PolarDB.PaxosLogMatch

/-!
# What an acknowledgement means

The leader takes the index in a successful answer for the end of what the
follower has of its log. A follower with a longer log of an older leader
that has to keep entries in the cache answers with its own last index: the
leader then counts entries that are not its own (`unverifiedAck`).

If every server that answers with its own last index has the leader's
entry there, no server asks for votes with something in its cache, and no
term is led twice (`Checked`), then what a leader counts for a follower
the follower had when it answered (`acknowledged_same`), and logs match
(`logMatching_of_checked`).
-/

namespace PolarDB.Paxos

open Function List

variable {n i : Nat} {r r' : Replica} {c c' : Cluster} {L : Nat → List LogEntry}

/-! ## The cluster -/

def NoLog (msgs : List (Nat × Msg)) : Prop :=
  ∀ d m, (d, m) ∈ msgs → (∀ q, m ≠ .appendLog q) ∧ ∀ q, m ≠ .appendLogResponce q

variable {msgs : List (Nat × Msg)} {L' : Nat → List LogEntry} {t : Nat}

theorem Refusals.noLog (h : Refusals msgs) : NoLog msgs := by
  intro d m hm
  obtain ⟨q, rfl, -⟩ := h d m hm
  exact ⟨nofun, nofun⟩

theorem noLog_requestVote (ds : List Nat) (msg : RequestVoteMsg) :
    NoLog (ds.map fun d => (d, .requestVote msg)) := by
  intro d m h
  obtain ⟨d', -, hx⟩ := mem_map.mp h
  cases hx
  exact ⟨nofun, nofun⟩

theorem noLog_requestVoteResponce (d : Nat) (msg : RequestVoteRsp) :
    NoLog [(d, .requestVoteResponce msg)] := by
  intro d' m h
  cases mem_singleton.mp h
  exact ⟨nofun, nofun⟩

theorem becameLeader_of_not_leader (h : r.state ≠ .leader) :
    (becameLeader r).state = .leader ∧ (becameLeader r).currentTerm = r.currentTerm ∧
    (becameLeader r).log = r.log ++ [emptyEntry r.currentTerm] ∧
    (becameLeader r).logRecvCache = r.logRecvCache := by
  rw [becameLeader, if_neg h]
  exact ⟨rfl, rfl, rfl, rfl⟩

variable {log : List LogEntry} {a : ServerAction} {rsp : AppendLogRsp}

theorem SentFrom.mono {l l' : List LogEntry} {msg : AppendLogMsg} (h : SentFrom l msg)
    (hl : l <+: l') : SentFrom l' msg := by
  obtain ⟨x, rfl⟩ := hl
  revert h
  rw [SentFrom, SentFrom]
  cases msg.prev with
  | none => exact id
  | some prev =>
    rintro ⟨hp, hterm, hentries⟩
    refine ⟨hp.trans (by rw [length_append]; exact Nat.le_add_right _ _), ?_, ?_⟩
    · rwa [termAt_append_left hp]
    · have hlen := congrArg length hentries
      rw [length_take] at hlen
      rwa [drop_append_of_le_length hp, take_append_of_le_length (by omega)]

theorem AckOk.mono (h : AckOk L log rsp) (hgrow : ∀ t, L t <+: L' t) : AckOk L' log rsp := by
  intro hs
  obtain ⟨hle, htake⟩ := h hs
  refine ⟨hle, htake.trans (take_of_begins (hgrow _) ?_).symm⟩
  have hlen := congrArg length htake
  rw [length_take, length_take] at hlen
  omega

theorem LeaderLogOk.mono (h : LeaderLogOk L t)
    (hgrow : ∀ t, L t <+: L' t) (ht : L' t = L t) : LeaderLogOk L' t :=
  ⟨ht ▸ h.rooted.mono hgrow, ht ▸ h.ordered, ht ▸ h.le_term⟩

structure MatchInv (c : Cluster) : Prop where
  servers : ∀ i, ReplicaInv c.leaderLogs (c.servers i)
  logs : ∀ t, LeaderLogOk c.leaderLogs t
  led : ∀ i, (c.servers i).state = .leader → ((c.servers i).currentTerm, i) ∈ c.elected
  unique : ∀ t i j, (t, i) ∈ c.elected → (t, j) ∈ c.elected → i = j
  unled : ∀ t, (∀ j, (t, j) ∉ c.elected) → c.leaderLogs t = []
  sent : ∀ d msg, (d, Msg.appendLog msg) ∈ c.sent → SentFrom (c.leaderLogs msg.term) msg
  acks : ∀ rsp log, (rsp, log) ∈ c.acks → AckOk c.leaderLogs log rsp
  answered : ∀ d rsp, (d, Msg.appendLogResponce rsp) ∈ c.sent → ∃ log, (rsp, log) ∈ c.acks

theorem matchInv_init : MatchInv initCluster where
  servers := fun _ => ⟨rooted_nil _, List.Pairwise.nil, forall_mem_nil _, forall_mem_nil _,
    fun h => absurd rfl h, State.noConfusion⟩
  logs := fun _ => ⟨rooted_nil _, List.Pairwise.nil, forall_mem_nil _⟩
  led := fun _ => State.noConfusion
  unique := fun _ _ _ h => absurd h not_mem_nil
  unled := fun _ _ => rfl
  sent := fun _ _ h => absurd h not_mem_nil
  acks := fun _ _ h => absurd h not_mem_nil
  answered := fun _ _ h => absurd h not_mem_nil

theorem put_leaderLogs_of_not_leader (h : r.state ≠ .leader) :
    (c.put i r msgs).leaderLogs = c.leaderLogs :=
  if_neg h

theorem put_leaderLogs_of_leader (h : r.state = .leader) :
    (c.put i r msgs).leaderLogs = update c.leaderLogs r.currentTerm r.log :=
  if_pos h

theorem put_leaderLogs_self (h : r.state = .leader) :
    (c.put i r msgs).leaderLogs r.currentTerm = r.log := by
  rw [put_leaderLogs_of_leader h, update_self]

theorem mem_put_acks : (rsp, log) ∈ (c.put i r msgs).acks ↔
      (rsp, log) ∈ c.acks ∨ (∃ d, (d, .appendLogResponce rsp) ∈ msgs) ∧ log = r.log := by
  rw [Cluster.put, mem_append, mem_filterMap]
  refine or_congr_right ⟨?_, ?_⟩
  · rintro ⟨⟨d, m⟩, hm, hack⟩
    cases m with
    | appendLogResponce q =>
      cases hack
      exact ⟨⟨d, hm⟩, rfl⟩
    | _ => cases hack
  · rintro ⟨⟨d, hm⟩, rfl⟩
    exact ⟨(d, .appendLogResponce rsp), hm, rfl⟩

theorem put_leaderLogs_other (ht : r.state = .leader → t ≠ r.currentTerm) :
    (c.put i r msgs).leaderLogs t = c.leaderLogs t := by
  by_cases hl : r.state = .leader
  · rw [put_leaderLogs_of_leader hl, update_of_ne (ht hl)]
  · rw [put_leaderLogs_of_not_leader hl]

theorem put_leaderLogs_grow (hgrow : r.state = .leader → c.leaderLogs r.currentTerm <+: r.log)
    (t : Nat) : c.leaderLogs t <+: (c.put i r msgs).leaderLogs t := by
  by_cases ht : r.state = .leader ∧ t = r.currentTerm
  · rw [ht.2, put_leaderLogs_self ht.1]
    exact hgrow ht.1
  · exact (put_leaderLogs_other fun hl heq => ht ⟨hl, heq⟩) ▸ prefix_rfl

theorem put_leaderLogs_same (h : ReplicaInv c.leaderLogs r) :
    (c.put i r msgs).leaderLogs = c.leaderLogs := by
  by_cases hl : r.state = .leader
  · rw [put_leaderLogs_of_leader hl, h.leader hl, update_eq_self]
  · rw [put_leaderLogs_of_not_leader hl]

/-- What server `i` has to bring along when it becomes `r` and sends
`msgs`. -/
theorem MatchInv.put (h : MatchInv c)
    (hgrow : r.state = .leader → c.leaderLogs r.currentTerm <+: r.log)
    (hsrv : ReplicaInv (c.put i r msgs).leaderLogs r)
    (hlead : r.state = .leader →
      (c.servers i).state = .leader ∧ r.currentTerm = (c.servers i).currentTerm ∨
      (c.servers i).state ≠ .leader ∧ ∀ j, (r.currentTerm, j) ∉ c.elected)
    (hsent : ∀ d q, (d, Msg.appendLog q) ∈ msgs → SentFrom ((c.put i r msgs).leaderLogs q.term) q)
    (hacks : ∀ d q, (d, Msg.appendLogResponce q) ∈ msgs →
      AckOk (c.put i r msgs).leaderLogs r.log q) :
    MatchInv (c.put i r msgs) := by
  have hgrow' : ∀ t, _ <+: (c.put i r msgs).leaderLogs t := put_leaderLogs_grow hgrow
  have hone : r.state = .leader → ∀ j, (r.currentTerm, j) ∈ c.elected → j = i := by
    intro hl j hj
    rcases hlead hl with ⟨hold, hterm⟩ | ⟨-, hnone⟩
    · exact h.unique _ _ _ hj (hterm ▸ h.led i hold)
    · exact absurd hj (hnone j)
  have hself : r.state = .leader → (r.currentTerm, i) ∈ (c.put i r msgs).elected := by
    intro hl
    refine mem_put_elected.mpr ?_
    rcases hlead hl with ⟨hold, hterm⟩ | ⟨hnot, -⟩
    · exact .inl (hterm ▸ h.led i hold)
    · exact .inr ⟨hnot, hl, rfl, rfl⟩
  constructor
  case servers =>
    refine (forall_update_iff c.servers fun _ => ReplicaInv _).mpr ⟨hsrv, fun j hj => ?_⟩
    refine (h.servers j).mono hgrow' fun hl => put_leaderLogs_other fun hl' hterm => hj ?_
    exact hone hl' j (hterm ▸ h.led j hl)
  case logs =>
    intro t
    by_cases ht : r.state = .leader ∧ t = r.currentTerm
    · obtain ⟨hl, rfl⟩ := ht
      have hlog : (c.put i r msgs).leaderLogs r.currentTerm = r.log := (hsrv.leader hl).symm
      exact ⟨hlog ▸ hsrv.rooted, hlog ▸ hsrv.ordered, hlog ▸ hsrv.le_term⟩
    · exact (h.logs t).mono hgrow' (put_leaderLogs_other fun hl heq => ht ⟨hl, heq⟩)
  case led =>
    refine (forall_update_iff c.servers fun j s => s.state = .leader → (s.currentTerm, j) ∈ _).mpr
      ⟨hself, fun j _ hj => ?_⟩
    exact mem_put_elected.mpr (.inl (h.led j hj))
  case unique =>
    intro t j k hj hk
    rcases mem_put_elected.mp hj with hj' | ⟨-, hl, rfl, rfl⟩
    · rcases mem_put_elected.mp hk with hk' | ⟨-, hl, rfl, rfl⟩
      · exact h.unique t j k hj' hk'
      · exact hone hl j hj'
    · rcases mem_put_elected.mp hk with hk' | ⟨-, -, -, rfl⟩
      · exact (hone hl k hk').symm
      · rfl
  case unled =>
    intro t ht
    have hnone : ∀ j, (t, j) ∉ c.elected := fun j hj => ht j (mem_put_elected.mpr (.inl hj))
    rw [put_leaderLogs_other, h.unled t hnone]
    rintro hl rfl
    exact ht i (hself hl)
  case sent =>
    intro d q hm
    rcases mem_put_sent.mp hm with hm | hm
    · exact (h.sent d q hm).mono (hgrow' _)
    · exact hsent d q hm
  case acks =>
    intro rsp log hm
    rcases mem_put_acks.mp hm with hold | ⟨⟨d, hnew⟩, rfl⟩
    · exact (h.acks rsp log hold).mono hgrow'
    · exact hacks d rsp hnew
  case answered =>
    intro d rsp hm
    rcases mem_put_sent.mp hm with hm | hm
    · obtain ⟨log, hlog⟩ := h.answered d rsp hm
      exact ⟨log, mem_put_acks.mpr (.inl hlog)⟩
    · exact ⟨r.log, mem_put_acks.mpr (.inr ⟨⟨d, hm⟩, rfl⟩)⟩

theorem MatchInv.put_same (h : MatchInv c) (hsrv : ReplicaInv c.leaderLogs r)
    (hlead : r.state = .leader →
      (c.servers i).state = .leader ∧ r.currentTerm = (c.servers i).currentTerm)
    (hsent : ∀ d q, (d, Msg.appendLog q) ∈ msgs → SentFrom (c.leaderLogs q.term) q)
    (hacks : ∀ d q, (d, Msg.appendLogResponce q) ∈ msgs → AckOk c.leaderLogs r.log q) :
    MatchInv (c.put i r msgs) := by
  have hsame : (c.put i r msgs).leaderLogs = _ := put_leaderLogs_same hsrv
  refine h.put (fun hl => hsrv.leader hl ▸ prefix_rfl) ?_ (fun hl => .inl (hlead hl)) ?_ ?_
  · rwa [hsame]
  · rwa [hsame]
  · rwa [hsame]

theorem NoLog.sent (h : NoLog msgs) {P : Nat → AppendLogMsg → Prop} :
    ∀ d q, (d, Msg.appendLog q) ∈ msgs → P d q :=
  fun d q hm => absurd rfl ((h d _ hm).1 q)

theorem NoLog.acks (h : NoLog msgs) {P : Nat → AppendLogRsp → Prop} :
    ∀ d q, (d, Msg.appendLogResponce q) ∈ msgs → P d q :=
  fun d q hm => absurd rfl ((h d _ hm).2 q)

theorem ReplicaInv.snoc (h : ReplicaInv L r) (hgrow : ∀ t, L t <+: L' t)
    {e : LogEntry} (he : e.term = r'.currentTerm) (hterm : r.currentTerm ≤ r'.currentTerm)
    (hlog : r'.log = r.log ++ [e]) (hL' : L' r'.currentTerm = r'.log)
    (hcache : ∀ node ∈ r'.logRecvCache, Seg (L r'.currentTerm) node) : ReplicaInv L' r' where
  rooted := hlog ▸ h.rooted.snoc hgrow (he ▸ hlog ▸ hL')
  ordered := hlog ▸ pairwise_snoc h.ordered fun a ha => he ▸ (h.le_term a ha).trans hterm
  le_term := hlog ▸ forall_mem_snoc (fun a ha => (h.le_term a ha).trans hterm) he.le
  cache := fun node hnode => (hcache node hnode).mono (hgrow _)
  cached := fun _ => hL' ▸ prefix_rfl
  leader := fun _ => hL'.symm

/-! ## Runs -/

def CacheCleared (r : Replica) : ServerAction → Prop
  | .requestVote _ => r.logRecvCache = []
  | _ => True

/-- A server that answers with its own last index has the leader's entry
there. -/
def LastVerified (n : Nat) (c : Cluster) (i : Nat) : ServerAction → Prop
  | .receive (.appendLog msg) _ =>
    OwnLast n (c.servers i) msg → LastMatches (c.leaderLogs msg.term) (c.servers i).log
  | _ => True

/-- A server becomes leader only in a term that had no leader. -/
def FirstLeader (n : Nat) (c : Cluster) (i : Nat) (a : ServerAction) : Prop :=
  ∀ x ∈ serverStep n (c.servers i) a, (c.servers i).state ≠ .leader → x.1.state = .leader →
    ∀ y ∈ c.elected, y.1 ≠ x.1.currentTerm

def Checked (n : Nat) (c : Cluster) : ClusterAction → Prop
  | .act i a => CacheCleared (c.servers i) a ∧ LastVerified n c i a ∧ FirstLeader n c i a
  | _ => True

instance (r : Replica) : (a : ServerAction) → Decidable (CacheCleared r a)
  | .requestVote _ => inferInstanceAs (Decidable (_ = _))
  | .receive _ _ | .epochTimer | .replicateLog _ _ | .appendLog _ _ _ _ | .resetNextIndex _ _ =>
    .isTrue trivial

instance (n : Nat) (c : Cluster) (i : Nat) : (a : ServerAction) → Decidable (LastVerified n c i a)
  | .receive (.appendLog _) _ => inferInstanceAs (Decidable (_ → _))
  | .receive (.requestVote _) _ | .receive (.requestVoteResponce _) _
  | .receive (.appendLogResponce _) _ | .requestVote _ | .epochTimer | .replicateLog _ _
  | .appendLog _ _ _ _ | .resetNextIndex _ _ => .isTrue trivial

instance (n : Nat) (c : Cluster) (i : Nat) (a : ServerAction) : Decidable (FirstLeader n c i a) :=
  inferInstanceAs (Decidable (∀ x ∈ serverStep n (c.servers i) a, _))

instance (n : Nat) (c : Cluster) : (b : ClusterAction) → Decidable (Checked n c b)
  | .act _ _ => inferInstanceAs (Decidable (_ ∧ _ ∧ _))
  | .crash _ => .isTrue trivial
  | .crashMid _ _ _ => .isTrue trivial

theorem MatchInv.elect (h : MatchInv c) (hnot : (c.servers i).state ≠ .leader)
    (hlead : r.state = .leader) (hlog : r.log = (c.servers i).log ++ [emptyEntry r.currentTerm])
    (hterm : (c.servers i).currentTerm ≤ r.currentTerm)
    (hcache : ∀ node ∈ r.logRecvCache, Seg (c.leaderLogs r.currentTerm) node)
    (hunled : ∀ j, (r.currentTerm, j) ∉ c.elected) (hmsgs : NoLog msgs) :
    MatchInv (c.put i r msgs) := by
  have hgrow : c.leaderLogs r.currentTerm <+: r.log := h.unled _ hunled ▸ nil_prefix
  refine h.put (fun _ => hgrow) ?_ (fun _ => .inr ⟨hnot, hunled⟩) hmsgs.sent hmsgs.acks
  exact (h.servers i).snoc (put_leaderLogs_grow fun _ => hgrow) rfl hterm hlog
    (put_leaderLogs_self hlead) hcache

theorem MatchInv.act (h : MatchInv c) {a : ServerAction}
    (hcan : canAct n c i a) (hcheck : Checked n c (.act i a))
    (hs : serverStep n (c.servers i) a = some (r, msgs)) : MatchInv (c.put i r msgs) := by
  obtain ⟨hclear, hlast, hfirst⟩ := hcheck
  have hsrv := h.servers i
  have hunled : (c.servers i).state ≠ .leader → r.state = .leader →
      ∀ j, (r.currentTerm, j) ∉ c.elected :=
    fun hnot hlead j hj => hfirst (r, msgs) hs hnot hlead _ hj rfl
  have hnew := newTerm_not_leader (c.servers i)
  cases serverStep_case hs with
  | peers peers _ hmsgs =>
    exact h.put_same (hsrv.same rfl rfl rfl id) (fun hl => ⟨hl, rfl⟩) hmsgs.noLog.sent
      hmsgs.noLog.acks
  | newTerm t ht hmsgs =>
    exact h.put_same (hsrv.newTerm prefix_rfl rfl (ht.imp Nat.le_of_lt And.right) (hnew t))
      (fun hl => absurd hl (hnew t)) hmsgs.noLog.sent hmsgs.noLog.acks
  | granted msg stage r1 hr =>
    have hmsgs :=
      noLog_requestVoteResponce msg.candidateId ⟨msg.term, (c.servers i).serverId, true, false⟩
    rcases hr with ⟨rfl, -⟩ | ⟨rfl, hlt⟩
    · exact h.put_same (hsrv.same rfl rfl rfl id) (fun hl => ⟨hl, rfl⟩) hmsgs.sent hmsgs.acks
    · exact h.put_same (hsrv.newTerm prefix_rfl rfl (.inl hlt.le) (hnew msg.term))
        (fun hl => absurd hl (hnew msg.term)) hmsgs.sent hmsgs.acks
  | asked force msg r' _ hr =>
    have hmsgs := noLog_requestVote (others n (c.servers i).serverId) msg
    rcases hr with rfl | ⟨-, hnot, rfl⟩
    · exact h.put_same (hsrv.newTerm prefix_rfl hclear (.inl (Nat.le_succ _)) State.noConfusion)
        State.noConfusion hmsgs.sent hmsgs.acks
    · obtain ⟨hlead, hterm, hlog, hcache⟩ :=
        becameLeader_of_not_leader (r := candidate (c.servers i) force) State.noConfusion
      refine h.elect hnot hlead (hterm ▸ hlog) (hterm ▸ Nat.le_succ _) ?_ (hunled hnot hlead) hmsgs
      rw [hcache.trans hclear]
      exact forall_mem_nil _
  | counted msg flag r' _ _ hr =>
    have hmsgs := refusals_nil.noLog
    rcases hr with rfl | ⟨-, rfl⟩
    · exact h.put_same (hsrv.same rfl rfl rfl id) (fun hl => ⟨hl, rfl⟩) hmsgs.sent hmsgs.acks
    · by_cases hnot : (c.servers i).state = .leader
      · rw [becameLeader, if_pos (show (withVote _ _).state = .leader from hnot)]
        exact h.put_same (hsrv.same rfl rfl rfl id) (fun hl => ⟨hl, rfl⟩) hmsgs.sent hmsgs.acks
      · obtain ⟨hlead, hterm, hlog, hcache⟩ :=
          becameLeader_of_not_leader (r := withVote (c.servers i) msg.serverId) hnot
        refine h.elect hnot hlead (hterm ▸ hlog) hterm.ge ?_ (hunled hnot hlead) hmsgs
        rw [hcache, hterm]
        exact hsrv.cache
  | wrote e he hstate =>
    have hgrow : c.leaderLogs (c.servers i).currentTerm <+: (c.servers i).log ++ [e] := by
      rw [hsrv.leader hstate]
      exact prefix_append _ _
    have hmsgs := refusals_nil.noLog
    refine h.put (fun _ => hgrow) ?_ (fun _ => .inl ⟨hstate, rfl⟩) hmsgs.sent hmsgs.acks
    exact hsrv.snoc (put_leaderLogs_grow fun _ => hgrow) he le_rfl rfl
      (put_leaderLogs_self (by exact hstate)) hsrv.cache
  | sent j msg peers _ hstate hterm hfrom =>
    refine h.put_same (hsrv.same rfl rfl rfl id) (fun _ => ⟨hstate, rfl⟩) ?_ ?_
    · intro d q hm
      cases mem_singleton.mp hm
      rwa [hterm, ← hsrv.leader hstate]
    · intro d q hm
      cases mem_singleton.mp hm
  | received msg flag =>
    obtain ⟨hinv, hack⟩ := hsrv.onAppendLog (h.logs msg.term) (h.sent i msg hcan.2.2) hlast
    refine h.put_same hinv (fun hl => ?_) ?_ ?_
    · rcases onAppendLog_quiet n (c.servers i) msg flag with hq | ⟨-, hnot, -⟩
      · exact ⟨hq.leader hl, hq.currentTerm⟩
      · exact absurd hl hnot
    · intro d q hm
      cases mem_singleton.mp hm
    · intro d q hm
      cases mem_singleton.mp hm
      exact hack

/-- Before its last entry the log of a server that takes a step has
nothing new, or it comes from a message of a leader. -/
theorem MatchInv.take_log (h : MatchInv c) (hcan : canAct n c i a)
    (hs : serverStep n (c.servers i) a = some (r, msgs)) {k : Nat} (hk : k < r.log.length) :
    r.log.take k <+: (c.servers i).log ∨ ReplicaInv c.leaderLogs r := by
  have hsnoc : ∀ e, r.log = (c.servers i).log ++ [e] → r.log.take k <+: (c.servers i).log := by
    intro e hlog
    rw [hlog, length_append, length_singleton] at hk
    rw [hlog, take_append_of_le_length (Nat.le_of_lt_succ hk)]
    exact take_prefix _ _
  cases serverStep_case hs with
  | asked force msg r' _ hr =>
    rcases hr with rfl | ⟨-, -, rfl⟩
    · exact .inl ( take_prefix _ _)
    · exact .inl (hsnoc _ (becameLeader_of_not_leader State.noConfusion).2.2.1)
  | counted msg flag r' _ _ hr =>
    rcases hr with rfl | ⟨-, rfl⟩
    · exact .inl ( take_prefix _ _)
    · by_cases hnot : (c.servers i).state = .leader
      · rw [becameLeader, if_pos (show (withVote _ _).state = .leader from hnot)]
        exact .inl ( take_prefix _ _)
      · exact .inl (hsnoc _ (becameLeader_of_not_leader (r := withVote _ _) hnot).2.2.1)
  | wrote e => exact .inl (hsnoc e rfl)
  | granted msg stage r1 hr =>
    rcases hr with ⟨rfl, -⟩ | ⟨rfl, -⟩ <;> exact .inl ( take_prefix _ _)
  | received msg flag =>
    by_cases hown : OwnLast n (c.servers i) msg
    · exact .inl (hown.log_eq ▸ take_prefix _ _)
    · exact .inr ((h.servers i).onAppendLog (h.logs msg.term) (h.sent i msg hcan.2.2)
        fun h => absurd h hown).1
  | _ => exact .inl ( take_prefix _ _)

theorem MatchInv.clusterStep (h : MatchInv c) {b : ClusterAction} (hcheck : Checked n c b)
    (hs : clusterStep n c b = some c') : MatchInv c' := by
  have hrestart : ∀ {i r}, ReplicaInv c.leaderLogs r → r.state ≠ .leader →
    MatchInv (c.put i r []) :=
    fun hr hlead => h.put_same hr (fun hl => absurd hl hlead) refusals_nil.noLog.sent
      refusals_nil.noLog.acks
  rcases clusterStep_cases hs with ⟨i, a, r, msgs, rfl, hcan, hr, rfl⟩ | ⟨i, rfl, rfl⟩ |
      ⟨i, a, p, r, msgs, rfl, hcan, hr, hp, rfl⟩
  · exact h.act hcan hcheck hr
  · exact hrestart ((h.servers i).newTerm prefix_rfl rfl (.inl le_rfl) State.noConfusion)
      State.noConfusion
  · have hle := (serverStep_case hr).le_term.imp_right And.right
    cases p with
    | term | newTerm =>
      exact hrestart ((h.servers i).newTerm prefix_rfl rfl hle State.noConfusion) State.noConfusion
    | log k =>
      rcases h.take_log hcan hr hp.1 with hpre | hinv
      · exact hrestart ((h.servers i).newTerm hpre rfl hle State.noConfusion) State.noConfusion
      · exact hrestart (hinv.newTerm ( take_prefix _ _) rfl (.inl le_rfl) State.noConfusion)
          State.noConfusion

/-! ## Acknowledgements -/

def SameTerms (log log' : List LogEntry) (m : Nat) : Prop :=
  ∀ k, 1 ≤ k → k ≤ m → ∃ e e', getEntry log k = some e ∧ getEntry log' k = some e' ∧
    e.term = e'.term

theorem sameTerms_of_take_eq {log' : List LogEntry} {m : Nat} (hm : m ≤ log.length)
    (h : log.take m = log'.take m) : SameTerms log log' m := by
  intro k hpos hk
  have hlt : k - 1 < log.length := by omega
  have hget : log[k - 1]? = log'[k - 1]? := by
    rw [← getElem?_take_of_lt (show k - 1 < m by omega), h, getElem?_take_of_lt (by omega)]
  refine ⟨log[k - 1], log[k - 1], ?_, ?_, rfl⟩
  · exact getEntry_eq_some.mpr ⟨by omega, getElem?_eq_getElem hlt⟩
  · exact getEntry_eq_some.mpr ⟨by omega, hget ▸ getElem?_eq_getElem hlt⟩

theorem Peer.acknowledge_raises {p : Peer} {lastLogIndex : Nat}
    (h : p.matchIndex < (p.acknowledge lastLogIndex).matchIndex) :
    (p.acknowledge lastLogIndex).matchIndex = lastLogIndex := by
  rw [Peer.acknowledge] at h ⊢
  split at h
  · exact absurd h (lt_irrefl _)
  · rename_i hskip
    rw [if_neg hskip]
    simp only at h ⊢
    omega

theorem Peer.refuse_le (p : Peer) (lastLogIndex : Nat) (autoReset : Bool) :
    (p.refuse lastLogIndex autoReset).matchIndex ≤ p.matchIndex := by
  rw [Peer.refuse]
  split
  · exact Nat.zero_le _
  · split
    · exact le_rfl
    · exact le_rfl

/-- Only a leader raises `matchIndex`, on a success in its term, and to
the index in the answer. -/
theorem onAppendLogResponce_raises {autoReset : Bool}
    (h : (r.peers rsp.serverId).matchIndex <
      ((onAppendLogResponce r rsp autoReset).peers rsp.serverId).matchIndex) :
    r.state = .leader ∧ rsp.term = r.currentTerm ∧ rsp.isSuccess = true ∧
      ((onAppendLogResponce r rsp autoReset).peers rsp.serverId).matchIndex = rsp.lastLogIndex := by
  rw [onAppendLogResponce] at h ⊢
  split at h
  · exact absurd h (lt_irrefl _)
  rename_i hlead
  rw [if_neg hlead]
  split at h
  · rw [setPeer_self] at h
    split at h
    · exact absurd h (Nat.not_lt_zero _)
    · exact absurd h (lt_irrefl _)
  rename_i hle
  rw [if_neg hle]
  split at h
  · exact absurd h (lt_irrefl _)
  rename_i hge
  rw [if_neg hge]
  split at h
  · rename_i hsuccess
    rw [if_pos hsuccess]
    rw [setPeer_self] at h ⊢
    exact ⟨not_not.mp hlead, by omega, hsuccess, Peer.acknowledge_raises h⟩
  split at h
  · exact absurd h (lt_irrefl _)
  · rw [setPeer_self] at h
    exact absurd h (Nat.not_lt_of_le (Peer.refuse_le _ _ _))

/-- In a run whose steps are all checked, whenever a server raises
`matchIndex` of another one on an answer, the log from which the answer
was made has entries of the same terms up to the new value. -/
theorem acknowledged_same {as : List ClusterAction}
    (hm : Meets (clusterStep n) (Checked n) initCluster as)
    (hs : exec (clusterStep n) initCluster as = some c) (rsp : AppendLogRsp) (autoReset : Bool)
    (hsent : (i, .appendLogResponce rsp) ∈ c.sent)
    (hraise : ((c.servers i).peers rsp.serverId).matchIndex <
      ((onAppendLogResponce (c.servers i) rsp autoReset).peers rsp.serverId).matchIndex) :
    (∃ log, (rsp, log) ∈ c.acks) ∧ ∀ log, (rsp, log) ∈ c.acks → SameTerms log (c.servers i).log
        ((onAppendLogResponce (c.servers i) rsp autoReset).peers rsp.serverId).matchIndex := by
  have h : MatchInv c := exec_invariant_of_meets (fun _ c => MatchInv c)
    (fun _ _ _ _ h hcheck hs => h.clusterStep hcheck hs) matchInv_init hm hs
  obtain ⟨hlead, hterm, hsuccess, hindex⟩ := onAppendLogResponce_raises hraise
  refine ⟨h.answered i rsp hsent, fun log hlog => ?_⟩
  obtain ⟨hle, htake⟩ := h.acks rsp log hlog hsuccess
  rw [hterm, ← (h.servers i).leader hlead] at htake
  rw [hindex]
  exact sameTerms_of_take_eq hle htake

/-- Server 1 is elected in term 2 and sends its first entry to server
2. -/
def firstAck : List ClusterAction :=
  [.act 1 (.requestVote false),
    .act 2 (.receive (.requestVote ⟨2, 1, false, 0, 0⟩) false),
    .act 1 (.receive (.requestVoteResponce ⟨2, 2, true, false⟩) false),
    .act 1 (.appendLog 2 1 true false),
    .act 2 (.receive (.appendLog ⟨2, 1, 2, some (0, 0), [emptyEntry 2], true⟩) false)]

/-- Server 1 sends a second entry to server 2 and crashes while it writes
a third one. Server 2 is elected in term 3, writes two entries and finds
out that server 3 has none. After the first entry it sends the others two
by two. The last two come first, and server 3 keeps them in the cache
until the other two are there. Then comes a heartbeat. -/
def catchUp : List ClusterAction :=
  firstAck ++
  [.act 1 (.receive (.appendLogResponce ⟨2, 2, true, false, 1⟩) false),
    .act 1 (.replicateLog .normal 0),
    .act 1 (.appendLog 2 1 true true),
    .act 2 (.receive (.appendLog ⟨2, 1, 2, some (1, 2), [⟨⟨2, .normal, 0⟩, none⟩], false⟩) false),
    .crashMid 1 (.replicateLog .normal 0) (.log 2),
    .act 2 (.requestVote false),
    .act 3 (.receive (.requestVote ⟨3, 2, false, 2, 2⟩) false),
    .act 2 (.receive (.requestVoteResponce ⟨3, 3, true, false⟩) false),
    .act 2 (.replicateLog .normal 0),
    .act 2 (.replicateLog .normal 1),
    .act 2 (.appendLog 3 1 true true),
    .act 3 (.receive (.appendLog ⟨3, 2, 3, some (2, 2), [emptyEntry 3], true⟩) false),
    .act 2 (.receive (.appendLogResponce ⟨3, 3, false, false, 0⟩) false),
    .act 2 (.appendLog 3 1 true true),
    .act 3 (.receive (.appendLog ⟨3, 2, 3, some (0, 0), [emptyEntry 2], true⟩) false),
    .act 2 (.receive (.appendLogResponce ⟨3, 3, true, false, 1⟩) false),
    .act 2 (.appendLog 3 2 true true),
    .act 2 (.appendLog 3 2 true true),
    .act 3 (.receive (.appendLog ⟨3, 2, 3, some (3, 3),
      [⟨⟨3, .normal, 0⟩, none⟩, ⟨⟨3, .normal, 1⟩, none⟩], false⟩) false),
    .act 3 (.receive (.appendLog ⟨3, 2, 3, some (1, 2),
      [⟨⟨2, .normal, 0⟩, none⟩, emptyEntry 3], false⟩) false),
    .act 2 (.appendLog 3 1 true true),
    .act 3 (.receive (.appendLog ⟨3, 2, 3, some (5, 3), [], true⟩) false)]

theorem meets_catchUp : Meets (clusterStep 3) (Checked 3) initCluster catchUp := by decide +kernel

theorem acknowledged_catchUp : ∃ c, exec (clusterStep 3) initCluster catchUp = some c ∧
      ((c.servers 2).peers 3).matchIndex = 1 ∧ ∃ log, (⟨3, 3, true, false, 5⟩, log) ∈ c.acks ∧
      log.map LogEntry.term = [2, 2, 3, 3, 3] ∧ SameTerms log (c.servers 2).log 5 := by
  refine exec_eval (E := fun c => (2, .appendLogResponce ⟨3, 3, true, false, 5⟩) ∈ c.sent ∧
      ((c.servers 2).peers 3).matchIndex = 1 ∧
      ((onAppendLogResponce (c.servers 2) ⟨3, 3, true, false, 5⟩ false).peers 3).matchIndex = 5 ∧
      ∃ ack ∈ c.acks, ack.1 = ⟨3, 3, true, false, 5⟩ ∧ ack.2.map LogEntry.term = [2, 2, 3, 3, 3])
    (by decide +kernel) ?_
  rintro c hs ⟨hsent, hold, hnew, ⟨_, log⟩, hack, rfl, hterms⟩
  have hraise : ((c.servers 2).peers 3).matchIndex <
      ((onAppendLogResponce (c.servers 2) ⟨3, 3, true, false, 5⟩ false).peers 3).matchIndex := by
    rw [hold, hnew]
    decide
  obtain ⟨-, hsame⟩ := acknowledged_same meets_catchUp hs _ false hsent hraise
  exact ⟨hold, log, hack, hterms, hnew ▸ hsame log hack⟩

/-- Log matching: in such a run two servers with entries of one term at an
index have the same log up to there. -/
theorem logMatching_of_checked {as : List ClusterAction}
    (hm : Meets (clusterStep n) (Checked n) initCluster as)
    (hs : exec (clusterStep n) initCluster as = some c) {i j k : Nat}
    (hi : k ≤ (c.servers i).log.length) (hj : k ≤ (c.servers j).log.length)
    (hterm : termAt (c.servers i).log k = termAt (c.servers j).log k) :
    (c.servers i).log.take k = (c.servers j).log.take k := by
  have h : MatchInv c := exec_invariant_of_meets (fun _ c => MatchInv c)
    (fun _ _ _ _ h hcheck hs => h.clusterStep hcheck hs) matchInv_init hm hs
  exact (h.servers i).rooted.take_eq (h.servers j).rooted hi hj hterm

theorem logMatching_catchUp : ∃ c, exec (clusterStep 3) initCluster catchUp = some c ∧
    (c.servers 2).log.take 5 = (c.servers 3).log.take 5 ∧
    (c.servers 1).log.take 2 = (c.servers 3).log.take 2 := by
  refine exec_eval (E := fun c => (c.servers 1).log.length = 2 ∧ (c.servers 2).log.length = 5 ∧
      (c.servers 3).log.length = 5 ∧ termAt (c.servers 2).log 5 = termAt (c.servers 3).log 5 ∧
      termAt (c.servers 1).log 2 = termAt (c.servers 3).log 2) (by decide +kernel) ?_
  rintro c hs ⟨h1, h2, h3, hfive, htwo⟩
  exact ⟨logMatching_of_checked meets_catchUp hs h2.ge h3.ge hfive,
    logMatching_of_checked meets_catchUp hs h1.ge (by rw [h3]; decide) htwo⟩

/-- Server 3 gets the entry as well, is elected in term 3 and writes
two entries that nobody gets. Server 2 is elected in term 4 and writes
four entries; server 3 acknowledges the first entry, so that more of them
are sent at once. Of those the last one comes first, and server 3 keeps
it in the cache. -/
def pipelineRun : List ClusterAction :=
  firstAck ++
  [.act 1 (.appendLog 3 1 true false),
    .act 3 (.receive (.appendLog ⟨2, 1, 3, some (0, 0), [emptyEntry 2], true⟩) false),
    .act 3 (.requestVote false),
    .act 2 (.receive (.requestVote ⟨3, 3, false, 1, 2⟩) false),
    .act 3 (.receive (.requestVoteResponce ⟨3, 2, true, false⟩) false),
    .act 3 (.replicateLog .normal 0),
    .crash 1,
    .crash 3,
    .act 2 (.requestVote false),
    .act 1 (.receive (.requestVote ⟨4, 2, false, 1, 2⟩) false),
    .act 2 (.receive (.requestVoteResponce ⟨4, 1, true, false⟩) false),
    .act 2 (.resetNextIndex 3 true),
    .act 2 (.replicateLog .normal 0),
    .act 2 (.replicateLog .normal 0),
    .act 2 (.replicateLog .normal 0),
    .act 2 (.appendLog 3 1 true false),
    .act 3 (.receive (.appendLog ⟨4, 2, 3, some (0, 0), [emptyEntry 2], true⟩) false),
    .act 2 (.receive (.appendLogResponce ⟨4, 3, true, false, 1⟩) false),
    .act 2 (.appendLog 3 3 true true),
    .act 2 (.appendLog 3 1 true true),
    .act 3 (.receive (.appendLog ⟨4, 2, 3, some (4, 4), [⟨⟨4, .normal, 0⟩, none⟩], false⟩) false)]

/-- Server 3 answers with index 3, and the leader takes that for
`matchIndex`; but its entries 2 and 3 are of term 4, those of server 3 of
term 3. -/
theorem unverifiedAck : ∃ c log, exec (clusterStep 3) initCluster pipelineRun = some c ∧
      c.elected = [(2, 1), (3, 3), (4, 2)] ∧
      (2, .appendLogResponce ⟨4, 3, true, false, 3⟩) ∈ c.sent ∧
      c.acks.filter (·.1 = ⟨4, 3, true, false, 3⟩) = [(⟨4, 3, true, false, 3⟩, log)] ∧
      ((c.servers 2).peers 3).matchIndex = 1 ∧
      ((onAppendLogResponce (c.servers 2) ⟨4, 3, true, false, 3⟩ false).peers 3).matchIndex = 3 ∧
      log.map LogEntry.term = [2, 3, 3] ∧
      (c.servers 2).log.map LogEntry.term = [2, 4, 4, 4, 4] ∧
      ¬ SameTerms log (c.servers 2).log 3 := by
  refine ⟨_, _, rfl, rfl, by decide, rfl, rfl, rfl, rfl, rfl, fun hsame => ?_⟩
  obtain ⟨e, e', he, he', hterm⟩ := hsame 2 (by decide) (by decide)
  cases he
  cases he'
  exact absurd hterm (by decide)

end PolarDB.Paxos
