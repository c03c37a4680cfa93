import PolarDB.PaxosCluster
import PolarDB.PaxosFollower
import PolarDB.Quorum

/-!
# One leader in each term

A server that gets back to a smaller term forgets its vote, and can vote
in a later term for the second time: two servers then become leader in
one term (`twoLeaders`). As long as no server goes back (`TermKept`), at
most one server becomes leader in each term (`oneLeader_of_termKept`).

The proof names for each server and term the vote it has cast, if any:
`V v t = some k`. It is never cast again, since the server is in that
term with the vote stored, or in a later one. Votes that a candidate has
counted were cast in its term, so a leader has a majority of them
(`ElectionInv`).
-/

namespace PolarDB.Paxos

open List Option

variable {n i : Nat} {r r' : Replica} {c c' : Cluster}

/-! ## What a step does -/

def Downgrade (r : Replica) : ServerAction → Prop
  | .receive (.requestVoteResponce msg) _ =>
    msg.term < r.currentTerm ∧ msg.force = true ∧ getLastLogTerm r.log ≤ msg.term
  | .receive (.appendLog msg) _ => msg.term < r.currentTerm ∧ downgrades r msg.term
  | _ => False

instance (r : Replica) : (a : ServerAction) → Decidable (Downgrade r a)
  | .receive (.requestVoteResponce _) _ => inferInstanceAs (Decidable (_ ∧ _ ∧ _))
  | .receive (.appendLog _) _ => inferInstanceAs (Decidable (_ ∧ _))
  | .receive (.requestVote _) _ | .receive (.appendLogResponce _) _ | .requestVote _ | .epochTimer
  | .replicateLog _ _ | .appendLog _ _ _ _ | .resetNextIndex _ _ => .isFalse id

def Refusals (msgs : List (Nat × Msg)) : Prop :=
  ∀ d m, (d, m) ∈ msgs → ∃ q, m = .requestVoteResponce q ∧ q.voteGranted = false

theorem refusals_nil : Refusals [] := nofun

theorem refusals_one (d : Nat) {msg : RequestVoteRsp} (h : msg.voteGranted = false) :
    Refusals [(d, .requestVoteResponce msg)] := by
  intro d' m hm
  cases mem_singleton.mp hm
  exact ⟨msg, rfl, h⟩

def candidate (r : Replica) (force : Bool) : Replica :=
  { changeState { r with
      currentTerm := r.currentTerm + 1
      leaderId := 0
      peers := fun j => { r.peers j with hasVote := false }
      forceRequestMode := force } .candidate with votedFor := r.serverId }

def withVote (r : Replica) (j : Nat) : Replica :=
  setPeer r j { r.peers j with hasVote := true }

inductive ServerCase (n : Nat) (r : Replica) :
    ServerAction → Replica → List (Nat × Msg) → Prop where
  | peers {a : ServerAction} {msgs : List (Nat × Msg)} (peers : Nat → Peer)
      (hvote : ∀ j, (peers j).hasVote = (r.peers j).hasVote) (hmsgs : Refusals msgs) :
      ServerCase n r a { r with peers := peers } msgs
  | newTerm {a : ServerAction} {msgs : List (Nat × Msg)} (t : Nat)
      (ht : r.currentTerm < t ∨ Downgrade r a ∧ getLastLogTerm r.log ≤ t) (hmsgs : Refusals msgs) :
      ServerCase n r a (newTerm r t) msgs
  | granted (msg : RequestVoteMsg) (stage : Bool) (r1 : Replica)
      (hr : r1 = r ∧ r.currentTerm = msg.term ∧ r.votedFor = 0 ∨
        r1 = Paxos.newTerm r msg.term ∧ r.currentTerm < msg.term) :
      ServerCase n r (.receive (.requestVote msg) stage) { r1 with votedFor := msg.candidateId }
        [(msg.candidateId, .requestVoteResponce ⟨msg.term, r.serverId, true, false⟩)]
  | asked (force : Bool) (msg : RequestVoteMsg) (r' : Replica)
      (hmsg : msg.term = r.currentTerm + 1 ∧ msg.candidateId = r.serverId)
      (hr : r' = candidate r force ∨ n = 1 ∧ r.state ≠ .leader ∧
        r' = becameLeader (candidate r force)) :
      ServerCase n r (.requestVote force) r'
        ((others n r.serverId).map fun j => (j, .requestVote msg))
  | counted (msg : RequestVoteRsp) (flag : Bool) (r' : Replica) (hg : msg.voteGranted = true)
      (hterm : msg.term = r.currentTerm)
      (hr : r' = withVote r msg.serverId ∨
        quorumVotes n (withVote r msg.serverId) = true ∧
          r' = becameLeader (withVote r msg.serverId)) :
      ServerCase n r (.receive (.requestVoteResponce msg) flag) r' []
  | wrote {a : ServerAction} (e : LogEntry) (he : e.term = r.currentTerm)
      (hstate : r.state = .leader) : ServerCase n r a { r with log := r.log ++ [e] } []
  | sent {a : ServerAction} (j : Nat) (msg : AppendLogMsg) (peers : Nat → Peer)
      (hvote : ∀ j, (peers j).hasVote = (r.peers j).hasVote) (hstate : r.state = .leader)
      (hterm : msg.term = r.currentTerm) (hfrom : SentFrom r.log msg) :
      ServerCase n r a { r with peers := peers } [(j, .appendLog msg)]
  | received (msg : AppendLogMsg) (flag : Bool) :
      ServerCase n r (.receive (.appendLog msg) flag) (onAppendLog n r msg).1
        [(msg.leaderId, .appendLogResponce (onAppendLog n r msg).2)]

variable {a : ServerAction} {t : Nat} {msgs : List (Nat × Msg)}

theorem ServerCase.same (hmsgs : Refusals msgs) : ServerCase n r a r msgs :=
  .peers r.peers (fun _ => rfl) hmsgs

variable {j k : Nat} {p : Peer}

theorem hasVote_update (h : p.hasVote = (r.peers j).hasVote) (k : Nat) :
    (Function.update r.peers j p k).hasVote = (r.peers k).hasVote := by
  rw [Function.update_apply]
  split
  · next hk => rw [hk, h]
  · rfl

theorem ServerCase.setPeer (h : p.hasVote = (r.peers j).hasVote) :
    ServerCase n r a (setPeer r j p) [] :=
  .peers _ (hasVote_update h) refusals_nil

/-! ### The handlers -/

theorem requestVote_case {force : Bool} {msg : RequestVoteMsg}
    (h : requestVote n r force = some (r', msg)) :
    ServerCase n r (.requestVote force) r'
      ((others n r.serverId).map fun j => (j, .requestVote msg)) := by
  obtain ⟨hstate, h⟩ := ite_none_left_eq_some.mp h
  cases h
  refine .asked force _ _ ⟨rfl, rfl⟩ ?_
  split
  · rename_i hn
    exact .inr ⟨hn, fun hl => hstate (.inl hl), rfl⟩
  · exact .inl rfl

theorem onRequestVote_case (msg : RequestVoteMsg) (stage : Bool) :
    ServerCase n r (.receive (.requestVote msg) stage) (onRequestVote r msg stage).1
      [(msg.candidateId, .requestVoteResponce (onRequestVote r msg stage).2)] := by
  rw [onRequestVote]
  split
  · exact .same (refusals_one _ rfl)
  split
  · exact .same (refusals_one _ rfl)
  split
  · exact .same (refusals_one _ rfl)
  by_cases hlt : r.currentTerm < msg.term
  · rw [if_pos hlt, vote]
    split
    · exact .granted msg stage _ (.inr ⟨rfl, hlt⟩)
    · exact .newTerm _ (.inl hlt) (refusals_one _ rfl)
  · have hterm : r.currentTerm = msg.term := by omega
    rw [if_neg hlt, vote]
    split
    · rename_i hfree
      have hcase := ServerCase.granted (n := n) msg stage r (.inl ⟨rfl, hterm, hfree.2⟩)
      rwa [← hterm] at hcase
    · exact .same (refusals_one _ rfl)

theorem onRequestVoteResponce_case (msg : RequestVoteRsp) (flag : Bool) :
    ServerCase n r (.receive (.requestVoteResponce msg) flag) (onRequestVoteResponce n r msg)
      [] := by
  rw [onRequestVoteResponce]
  split
  · rename_i hlt
    exact .newTerm _ (.inl hlt) refusals_nil
  split
  · rename_i hlt
    split
    · rename_i hdown
      exact .newTerm _ (.inr ⟨⟨hlt, hdown⟩, hdown.2⟩) refusals_nil
    · exact .same refusals_nil
  split
  · rename_i hg
    refine .counted msg flag _ hg (by omega) ?_
    rw [countVote]
    split
    · rename_i hquorum
      exact .inr ⟨hquorum, rfl⟩
    · exact .inl rfl
  · exact .same refusals_nil

theorem Peer.acknowledge_hasVote (p : Peer) (lastLogIndex : Nat) :
    (p.acknowledge lastLogIndex).hasVote = p.hasVote := by
  rw [Peer.acknowledge]
  split <;> rfl

theorem Peer.refuse_hasVote (p : Peer) (lastLogIndex : Nat) (autoReset : Bool) :
    (p.refuse lastLogIndex autoReset).hasVote = p.hasVote := by
  rw [Peer.refuse]
  by_cases h : autoReset = true ∧ p.hasMatched = false ∧ lastLogIndex < p.matchIndex
  · simp only
    split <;> rfl
  · rw [if_neg h]
    split <;> rfl

theorem onAppendLogResponce_case (msg : AppendLogRsp) (autoReset : Bool) :
    ServerCase n r a (onAppendLogResponce r msg autoReset) [] := by
  rw [onAppendLogResponce]
  split
  · exact .same refusals_nil
  split
  · refine .setPeer ?_
    split <;> rfl
  split
  · exact .same refusals_nil
  split
  · exact .setPeer (Peer.acknowledge_hasVote _ _)
  split
  · exact .same refusals_nil
  · exact .setPeer (Peer.refuse_hasVote _ _ _)

theorem sentFrom_segment {log : List LogEntry} {p count : Nat} (hp : p ≤ log.length)
    (term leaderId serverId : Nat) (nocache : Bool) :
    SentFrom log ⟨term, leaderId, serverId, some (p, termAt log p), (log.drop p).take count,
      nocache⟩ := by
  refine ⟨hp, rfl, ?_⟩
  rw [length_take, ← take_eq_take_min]

theorem appendLogFillForEach_case (j count : Nat) (fill normal : Bool)
    (hstate : r.state = .leader) :
    ServerCase n r a (appendLogFillForEach r j count fill normal).1
      [(j, .appendLog (appendLogFillForEach r j count fill normal).2)] := by
  rw [appendLogFillForEach]
  split
  · exact .sent j _ r.peers (fun _ => rfl) hstate rfl (show [] = [] from rfl)
  · rename_i hfill
    have hp : (r.peers j).nextIndex - 1 ≤ r.log.length := by
      by_contra hlt
      exact hfill (.inr (.inr (Nat.lt_of_not_le hlt)))
    split
    · exact .sent j _ _ (hasVote_update rfl) hstate rfl (sentFrom_segment hp _ _ _ _)
    · exact .sent j _ r.peers (fun _ => rfl) hstate rfl (sentFrom_segment hp _ _ _ _)

theorem serverStep_case (h : serverStep n r a = some (r', msgs)) : ServerCase n r a r' msgs := by
  cases a with
  | requestVote force =>
    obtain ⟨⟨r1, msg⟩, hreq, hx⟩ := map_eq_some_iff.mp h
    cases hx
    exact requestVote_case hreq
  | receive m flag =>
    cases m with
    | requestVote msg =>
      cases h
      exact onRequestVote_case msg flag
    | requestVoteResponce msg =>
      cases h
      exact onRequestVoteResponce_case msg flag
    | appendLog msg =>
      cases h
      exact .received msg flag
    | appendLogResponce msg =>
      cases h
      exact onAppendLogResponce_case msg flag
  | epochTimer =>
    obtain ⟨-, h⟩ := ite_none_right_eq_some.mp h
    cases h
    exact .newTerm _ (.inl (Nat.lt_succ_self _)) refusals_nil
  | replicateLog optype info =>
    obtain ⟨r1, hrep, hx⟩ := map_eq_some_iff.mp h
    cases hx
    obtain ⟨hstate, rfl⟩ := ite_some_none_eq_some.mp hrep
    exact .wrote _ rfl hstate
  | appendLog j count fill normal =>
    obtain ⟨hcan, h⟩ := ite_none_right_eq_some.mp h
    cases h
    exact appendLogFillForEach_case j count fill normal hcan.1
  | resetNextIndex j connected =>
    obtain ⟨-, h⟩ := ite_none_right_eq_some.mp h
    cases h
    rw [resetNextIndex]
    split
    · exact .setPeer rfl
    split
    · exact .setPeer rfl
    · exact .same refusals_nil

/-! ### Elections -/

structure Quiet (r r' : Replica) : Prop where
  serverId : r'.serverId = r.serverId
  currentTerm : r'.currentTerm = r.currentTerm
  votedFor : r'.votedFor = r.votedFor
  hasVote : ∀ j, (r'.peers j).hasVote = true → (r.peers j).hasVote = true
  leader : r'.state = .leader → r.state = .leader

theorem Quiet.refl (r : Replica) : Quiet r r :=
  ⟨rfl, rfl, rfl, fun _ => id, id⟩

theorem receiveEntries_quiet (r : Replica) (msg : AppendLogMsg) (newTermFlag : Bool) :
    Quiet r (receiveEntries r msg newTermFlag).1 := by
  rw [receiveEntries]
  split
  · exact Quiet.refl r
  split
  · rw [receiveGap]
    split
    · exact ⟨rfl, rfl, rfl, fun _ => id, id⟩
    · exact Quiet.refl r
  split
  · exact Quiet.refl r
  · rw [receiveMatch]
    split
    · exact ⟨rfl, rfl, rfl, fun _ => id, id⟩
    · simp only [appendCached]
      split <;> exact ⟨rfl, rfl, rfl, fun _ => id, id⟩

theorem onAppendLog_quiet (n : Nat) (r : Replica) (msg : AppendLogMsg) (flag : Bool) :
    Quiet r (onAppendLog n r msg).1 ∨
    (onAppendLog n r msg).1.serverId = r.serverId ∧ (onAppendLog n r msg).1.state ≠ .leader ∧
      (onAppendLog n r msg).1.currentTerm = msg.term ∧
      (r.currentTerm < msg.term ∨
        Downgrade r (.receive (.appendLog msg) flag) ∧ getLastLogTerm r.log ≤ msg.term) := by
  rw [onAppendLog]
  split
  · exact .inl (Quiet.refl r)
  split
  · exact .inl (Quiet.refl r)
  rename_i r1 newTermFlag haccept
  have hq := receiveEntries_quiet { r1 with leaderId := msg.leaderId } msg newTermFlag
  rcases acceptTerm_cases haccept with ⟨rfl, ht⟩ | ⟨-, ⟨rfl, -⟩ | rfl⟩
  · exact .inr ⟨hq.serverId, fun hl => newTerm_not_leader r msg.term (hq.leader hl), hq.currentTerm,
      ht.imp_right fun hd => ⟨hd, hd.2.1⟩⟩
  · exact .inl { hq with }
  · exact .inl ⟨hq.serverId, hq.currentTerm, hq.votedFor, hq.hasVote,
      fun hl => by cases hq.leader hl⟩

theorem becameLeader_keeps (r : Replica) :
    (becameLeader r).serverId = r.serverId ∧ (becameLeader r).currentTerm = r.currentTerm ∧
    (becameLeader r).votedFor = r.votedFor ∧
    ∀ j, ((becameLeader r).peers j).hasVote = (r.peers j).hasVote := by
  rw [becameLeader]
  split
  · exact ⟨rfl, rfl, rfl, fun _ => rfl⟩
  · exact ⟨rfl, rfl, rfl, fun _ => rfl⟩

theorem quorumVotes_becameLeader (r : Replica) :
    quorumVotes n (becameLeader r) = quorumVotes n r := by
  obtain ⟨hid, -, hvote, hhas⟩ := becameLeader_keeps r
  have hhave : haveVote (becameLeader r) = haveVote r := by
    funext j
    rw [haveVote, haveVote, hid, hvote, hhas]
  rw [quorumVotes, quorumVotes, hhave]

/-- A step back stops at the last term of the log. -/
theorem ServerCase.le_term (h : ServerCase n r a r' msgs) :
    r.currentTerm ≤ r'.currentTerm ∨ Downgrade r a ∧ getLastLogTerm r.log ≤ r'.currentTerm := by
  cases h with
  | newTerm t ht => exact ht.imp_left Nat.le_of_lt
  | granted msg stage r1 hr =>
    rcases hr with ⟨rfl, -⟩ | ⟨rfl, hlt⟩
    · exact .inl le_rfl
    · exact .inl hlt.le
  | asked force msg r' _ hr =>
    rcases hr with rfl | ⟨-, -, rfl⟩
    · exact .inl (Nat.le_succ _)
    · rw [(becameLeader_keeps _).2.1]
      exact .inl (Nat.le_succ _)
  | counted msg flag r' _ _ hr =>
    rcases hr with rfl | ⟨-, rfl⟩
    · exact .inl le_rfl
    · rw [(becameLeader_keeps _).2.1]
      exact .inl le_rfl
  | received msg flag =>
    rcases onAppendLog_quiet n r msg flag with hq | ⟨-, -, hterm, ht⟩
    · exact .inl hq.currentTerm.ge
    · exact hterm ▸ ht.imp_left Nat.le_of_lt
  | _ => exact .inl le_rfl

/-- In one term a server either keeps its vote or appends nothing. -/
theorem ServerCase.votedFor_or_log (h : ServerCase n r a r' msgs)
    (hlt : ¬ r.currentTerm < r'.currentTerm) (hup : ¬Downgrade r a) :
    r'.votedFor = r.votedFor ∨ r'.log = r.log := by
  cases h with
  | newTerm t ht => exact absurd (ht.resolve_right fun hd => hup hd.1) hlt
  | granted msg stage r1 hr => rcases hr with ⟨rfl, -⟩ | ⟨rfl, -⟩ <;> exact .inr rfl
  | asked force msg r' _ hr =>
    rcases hr with rfl | ⟨-, -, rfl⟩
    · exact absurd (Nat.lt_succ_self _) hlt
    · rw [(becameLeader_keeps _).2.1] at hlt
      exact absurd (Nat.lt_succ_self _) hlt
  | counted msg flag r' _ _ hr =>
    rcases hr with rfl | ⟨-, rfl⟩
    · exact .inl rfl
    · exact .inl (becameLeader_keeps _).2.2.1
  | received msg flag =>
    rcases onAppendLog_quiet n r msg flag with hq | ⟨-, -, hterm, ht⟩
    · exact .inl hq.votedFor
    · exact absurd (hterm ▸ ht.resolve_right fun hd => hup hd.1) hlt
  | _ => exact .inl rfl

def Silent (msgs : List (Nat × Msg)) : Prop :=
  ∀ d m, (d, m) ∈ msgs →
    (∀ q, m ≠ .requestVote q) ∧ ∀ q, m = .requestVoteResponce q → q.voteGranted = false

theorem Refusals.silent (h : Refusals msgs) : Silent msgs := by
  intro d m hm
  obtain ⟨q, rfl, hq⟩ := h d m hm
  exact ⟨nofun, fun q hq => by cases hq; assumption⟩

theorem silent_one (d : Nat) {m : Msg} (hask : ∀ q, m ≠ .requestVote q)
    (hvote : ∀ q, m ≠ .requestVoteResponce q) : Silent [(d, m)] := by
  intro d' m' h
  cases mem_singleton.mp h
  exact ⟨hask, fun q hq => absurd hq (hvote q)⟩

/-! ## Votes -/

variable {V V' : Nat → Nat → Option Nat}

def Majority (n : Nat) (V : Nat → Nat → Option Nat) (t i : Nat) : Prop :=
  n < 2 * (List.range' 1 n).countP fun v => V v t = some i

/-- `V v t = some k`: server `v` has voted for `k` in term `t`. -/
structure ElectionInv (n : Nat) (V : Nat → Nat → Option Nat) (c : Cluster) : Prop where
  serverId : ∀ i, (c.servers i).serverId = i
  cast : ∀ v t k, V v t = some k → k ≠ 0 ∧
    (t < (c.servers v).currentTerm ∨ t = (c.servers v).currentTerm ∧ (c.servers v).votedFor = k)
  asked : ∀ d q, (d, Msg.requestVote q) ∈ c.sent →
    d ≠ q.candidateId ∧ V q.candidateId q.term = some q.candidateId
  granted : ∀ d q, (d, Msg.requestVoteResponce q) ∈ c.sent → q.voteGranted = true →
    V q.serverId q.term = some d ∧ V d q.term = some d
  hasVote : ∀ i j, ((c.servers i).peers j).hasVote = true →
    V i (c.servers i).currentTerm = some i → V j (c.servers i).currentTerm = some i
  elected : ∀ t i, (t, i) ∈ c.elected → Majority n V t i

theorem electionInv_init : ElectionInv n (fun _ _ => none) initCluster where
  serverId := fun _ => rfl
  cast := nofun
  asked := nofun
  granted := nofun
  hasVote := nofun
  elected := nofun

/-- What server `i` has to bring along when it becomes `r`, sends `msgs`
and has cast the new votes of `V'`. -/
theorem ElectionInv.put (h : ElectionInv n V c)
    (hle : ∀ v t k, V v t = some k → V' v t = some k) (hoff : ∀ v, v ≠ i → V' v = V v)
    (hid : r.serverId = i)
    (hcast : ∀ t k, V' i t = some k → k ≠ 0 ∧
      (t < r.currentTerm ∨ t = r.currentTerm ∧ r.votedFor = k))
    (hasked : ∀ d q, (d, Msg.requestVote q) ∈ msgs →
      d ≠ q.candidateId ∧ V' q.candidateId q.term = some q.candidateId)
    (hgranted : ∀ d q, (d, Msg.requestVoteResponce q) ∈ msgs → q.voteGranted = true →
      V' q.serverId q.term = some d ∧ V' d q.term = some d)
    (hhas : ∀ j, (r.peers j).hasVote = true → V' i r.currentTerm = some i →
      V' j r.currentTerm = some i)
    (hlead : (c.servers i).state ≠ .leader → r.state = .leader → Majority n V' r.currentTerm i) :
    ElectionInv n V' (c.put i r msgs) where
  serverId := (Function.forall_update_iff c.servers fun j s => s.serverId = j).mpr
    ⟨hid, fun j _ => h.serverId j⟩
  cast := (Function.forall_update_iff c.servers fun v s => ∀ t k, V' v t = some k → k ≠ 0 ∧
      (t < s.currentTerm ∨ t = s.currentTerm ∧ s.votedFor = k)).mpr
    ⟨hcast, fun v hvi t k hv => h.cast v t k (hoff v hvi ▸ hv)⟩
  asked := by
    intro d q hm
    rcases mem_put_sent.mp hm with hm | hm
    · exact ⟨(h.asked d q hm).1, hle _ _ _ (h.asked d q hm).2⟩
    · exact hasked d q hm
  granted := by
    intro d q hm hg
    rcases mem_put_sent.mp hm with hm | hm
    · exact ⟨hle _ _ _ (h.granted d q hm hg).1, hle _ _ _ (h.granted d q hm hg).2⟩
    · exact hgranted d q hm hg
  hasVote := (Function.forall_update_iff c.servers fun v s => ∀ j, (s.peers j).hasVote = true →
      V' v s.currentTerm = some v → V' j s.currentTerm = some v).mpr
    ⟨hhas, fun v hvi j hj hv => hle _ _ _ (h.hasVote v j hj (hoff v hvi ▸ hv))⟩
  elected := by
    intro t j hm
    rcases mem_put_elected.mp hm with hm | ⟨hnot, his, rfl, rfl⟩
    · refine (h.elected t j hm).trans_le (Nat.mul_le_mul_left 2 (countP_mono_left ?_))
      intro v _ hv
      exact decide_eq_true (hle _ _ _ (of_decide_eq_true hv))
    · exact hlead hnot his

theorem ElectionInv.put_silent (h : ElectionInv n V c) (hmsgs : Silent msgs) (hid : r.serverId = i)
    (hterm : (c.servers i).currentTerm < r.currentTerm ∨
      (c.servers i).currentTerm = r.currentTerm ∧ r.votedFor = (c.servers i).votedFor ∧
        ∀ j, (r.peers j).hasVote = true → ((c.servers i).peers j).hasVote = true)
    (hlead : r.state = .leader → (c.servers i).state = .leader) :
    ElectionInv n V (c.put i r msgs) := by
  refine h.put (fun _ _ _ => id) (fun _ _ => rfl) hid ?_ ?_ ?_ ?_
    (fun hnot his => absurd (hlead his) hnot)
  · intro t k hk
    obtain ⟨hne, hk⟩ := h.cast i t k hk
    refine ⟨hne, ?_⟩
    rcases hterm with hlt | ⟨heq, hvote, -⟩
    · left; omega
    · rwa [← heq, hvote]
  · exact fun d q hm => absurd rfl ((hmsgs d _ hm).1 q)
  · intro d q hm hg
    rw [(hmsgs d _ hm).2 q rfl] at hg
    cases hg
  · intro j hj hi
    rcases hterm with hlt | ⟨heq, -, hhas⟩
    · have := (h.cast i _ _ hi).2
      omega
    · rw [← heq] at hi ⊢
      exact h.hasVote i j (hhas j hj) hi

def castVote (V : Nat → Nat → Option Nat) (i t k : Nat) : Nat → Nat → Option Nat :=
  fun v t' => if v = i ∧ t' = t then some k else V v t'

theorem castVote_self (V : Nat → Nat → Option Nat) (i t k : Nat) : castVote V i t k i t = some k :=
  if_pos ⟨rfl, rfl⟩

theorem castVote_of_ne {v : Nat} (h : v ≠ i) (t k : Nat) : castVote V i t k v = V v := by
  funext t'
  exact if_neg fun hv => h hv.1

theorem castVote_le (hnone : V i t = none) {v t' k' : Nat} (h : V v t' = some k') :
    castVote V i t k v t' = some k' := by
  rw [castVote, if_neg]
  · exact h
  · rintro ⟨rfl, rfl⟩
    rw [hnone] at h
    cases h

/-- No vote has been cast in a later term, or in this one while
`votedFor_` is 0. -/
theorem ElectionInv.not_voted (h : ElectionInv n V c) (ht : (c.servers i).currentTerm ≤ t)
    (hfree : (c.servers i).currentTerm = t → (c.servers i).votedFor = 0) : V i t = none := by
  cases hv : V i t with
  | none => rfl
  | some k =>
    obtain ⟨hne, hlt | ⟨heq, hvote⟩⟩ := h.cast i t k hv
    · omega
    · exact absurd (hvote.symm.trans (hfree heq.symm)) hne

/-- A new vote is cast with the term and `votedFor_` that are stored. -/
theorem ElectionInv.cast_castVote (h : ElectionInv n V c) (hk : k ≠ 0)
    (hle : (c.servers i).currentTerm ≤ r.currentTerm) (hvote : r.votedFor = k)
    {k' : Nat} (hv : castVote V i r.currentTerm k i t = some k') :
    k' ≠ 0 ∧ (t < r.currentTerm ∨ t = r.currentTerm ∧ r.votedFor = k') := by
  rw [castVote] at hv
  split at hv
  · rename_i heq
    cases hv
    exact ⟨hk, .inr ⟨heq.2, hvote⟩⟩
  · obtain ⟨hne, hold⟩ := h.cast i t k' hv
    exact ⟨hne, .inl (by omega)⟩

/-- The votes that a candidate counts are votes of its term, and with
enough of them it has a majority. -/
theorem majority_of_quorumVotes (hid : r.serverId = i)
    (hhas : ∀ j, (r.peers j).hasVote = true → V j r.currentTerm = some i)
    (hself : V i r.currentTerm = some i) (hq : quorumVotes n r = true) :
    Majority n V r.currentTerm i := by
  unfold Majority
  have hcount : n / 2 + 1 ≤ (range' 1 n).countP (haveVote r) := of_decide_eq_true hq
  have hle : (range' 1 n).countP (haveVote r) ≤
      (range' 1 n).countP fun v => V v r.currentTerm = some i := by
    refine countP_mono_left fun v _ hv => decide_eq_true ?_
    rw [haveVote] at hv
    split at hv
    · rename_i hvi
      rwa [hvi, hid]
    · exact hhas v hv
  omega

theorem ElectionInv.act (h : ElectionInv n V c) (hcan : canAct n c i a)
    (hup : ¬Downgrade (c.servers i) a) (hstep : ServerCase n (c.servers i) a r msgs) :
    ∃ V', ElectionInv n V' (c.put i r msgs) := by
  have hid := h.serverId i
  cases hstep with
  | peers peers hvote hmsgs =>
    exact ⟨V, h.put_silent hmsgs.silent hid (.inr ⟨rfl, rfl, fun j hj => hvote j ▸ hj⟩) id⟩
  | newTerm t ht hmsgs =>
    exact ⟨V, h.put_silent hmsgs.silent hid (.inl (ht.resolve_right fun hd => hup hd.1))
      fun hl => absurd hl (newTerm_not_leader _ t)⟩
  | granted msg stage r1 hr =>
    obtain ⟨hid', hle, hfree, hterm, hlead⟩ : r1.serverId = i ∧
        (c.servers i).currentTerm ≤ msg.term ∧
        ((c.servers i).currentTerm = msg.term → (c.servers i).votedFor = 0) ∧
        r1.currentTerm = msg.term ∧ (r1.state = .leader → (c.servers i).state = .leader) := by
      rcases hr with ⟨rfl, hterm, hfree⟩ | ⟨rfl, hlt⟩
      · exact ⟨hid, hterm.le, fun _ => hfree, hterm, id⟩
      · exact ⟨hid, hlt.le, fun heq => absurd heq hlt.ne, rfl,
          fun hl => absurd hl (newTerm_not_leader _ _)⟩
    obtain ⟨hne, hcand⟩ := h.asked i msg hcan.2.2
    have hnone : V i msg.term = none := h.not_voted hle hfree
    have hle' : ∀ v t k, V v t = some k → castVote V i msg.term msg.candidateId v t = some k :=
      fun v t k => castVote_le hnone
    refine ⟨castVote V i msg.term msg.candidateId, h.put hle' (fun v hv => castVote_of_ne hv _ _)
      hid' ?_ ?_ ?_ ?_ fun hnot his => absurd (hlead his) hnot⟩
    · intro t k hk
      rw [← hterm] at hk hle
      exact h.cast_castVote (r := { r1 with votedFor := msg.candidateId }) (h.cast _ _ _ hcand).1
        hle
        rfl hk
    · intro d q hm
      cases mem_singleton.mp hm
    · intro d q hm _
      cases mem_singleton.mp hm
      refine ⟨?_, hle' _ _ _ hcand⟩
      rw [hid]
      exact castVote_self V i _ _
    · intro j _ hi
      rw [hterm, castVote_self] at hi
      exact absurd (some.inj hi).symm hne
  | asked force msg r' hmsg hr =>
    obtain ⟨hid', hterm, hvote, hnever, hlead⟩ : r.serverId = i ∧
        r.currentTerm = (c.servers i).currentTerm + 1 ∧ r.votedFor = i ∧
        (∀ j, (r.peers j).hasVote = false) ∧ (r.state = .leader → n = 1) := by
      rcases hr with rfl | ⟨hn, -, rfl⟩
      · exact ⟨hid, rfl, hid, fun _ => rfl, nofun⟩
      · obtain ⟨hid', hterm, hvote, hhas⟩ := becameLeader_keeps (candidate (c.servers i) force)
        exact ⟨hid'.trans hid, hterm, hvote.trans hid, hhas, fun _ => hn⟩
    rw [hid] at hmsg ⊢
    have hle : (c.servers i).currentTerm ≤ r.currentTerm := by omega
    have hnone : V i r.currentTerm = none := h.not_voted hle fun _ => by omega
    refine ⟨castVote V i r.currentTerm i, h.put (fun v t k => castVote_le hnone)
      (fun v hv => castVote_of_ne hv _ _) hid' ?_ ?_ ?_ ?_ ?_⟩
    · intro t k hk
      have hpos := hcan.1
      exact h.cast_castVote (by omega) hle hvote hk
    · intro d q hm
      obtain ⟨j, hj, hx⟩ := mem_map.mp hm
      cases hx
      rw [hmsg.2, hmsg.1, ← hterm]
      exact ⟨of_decide_eq_true (mem_filter.mp hj).2, castVote_self V i _ _⟩
    · intro d q hm _
      obtain ⟨j, -, hx⟩ := mem_map.mp hm
      cases hx
    · intro j hj
      rw [hnever j] at hj
      cases hj
    · intro _ hl
      obtain rfl := hlead hl
      have hi : i = 1 := Nat.le_antisymm hcan.2.1 hcan.1
      subst hi
      simp [Majority, castVote_self]
  | counted msg flag r' hg hmterm hr =>
    obtain ⟨hid', hterm, hvote, hhas, hlead⟩ : r.serverId = i ∧
        r.currentTerm = (c.servers i).currentTerm ∧ r.votedFor = (c.servers i).votedFor ∧
        (∀ j, (r.peers j).hasVote = ((withVote (c.servers i) msg.serverId).peers j).hasVote) ∧
        (r.state = .leader → (c.servers i).state = .leader ∨ quorumVotes n r = true) := by
      rcases hr with rfl | ⟨hquorum, rfl⟩
      · exact ⟨hid, rfl, rfl, fun _ => rfl, .inl⟩
      · obtain ⟨hid', hterm, hvote, hhas⟩ :=
          becameLeader_keeps (withVote (c.servers i) msg.serverId)
        exact ⟨hid'.trans hid, hterm, hvote, hhas,
          fun _ => .inr ((quorumVotes_becameLeader _).trans hquorum)⟩
    obtain ⟨hvoter, hself⟩ := h.granted i msg hcan.2.2 hg
    rw [hmterm, ← hterm] at hvoter hself
    have hall : ∀ j, (r.peers j).hasVote = true → V j r.currentTerm = some i := by
      intro j hj
      by_cases hjm : j = msg.serverId
      · exact hjm ▸ hvoter
      · rw [hhas, withVote, setPeer_of_ne _ hjm] at hj
        rw [hterm] at hself ⊢
        exact h.hasVote i j hj hself
    refine ⟨V, h.put (fun _ _ _ => id) (fun _ _ => rfl) hid' ?_ nofun nofun
      (fun j hj _ => hall j hj) ?_⟩
    · intro t k hk
      rw [hterm, hvote]
      exact h.cast i t k hk
    · intro hnot hl
      rcases hlead hl with hl | hq
      · exact absurd hl hnot
      · exact majority_of_quorumVotes hid' hall hself hq
  | wrote e _ _ =>
    exact ⟨V, h.put_silent refusals_nil.silent hid (.inr ⟨rfl, rfl, fun _ => id⟩) id⟩
  | sent j msg peers hvote _ _ _ =>
    exact ⟨V, h.put_silent (silent_one j nofun nofun)
      hid (.inr ⟨rfl, rfl, fun j hj => hvote j ▸ hj⟩) id⟩
  | received msg flag =>
    refine ⟨V, ?_⟩
    rcases onAppendLog_quiet n (c.servers i) msg flag with hq | ⟨hid', hlead, hterm, ht⟩
    · exact h.put_silent (silent_one _ nofun nofun) (hq.serverId.trans hid)
        (.inr ⟨hq.currentTerm.symm, hq.votedFor, hq.hasVote⟩) hq.leader
    · exact h.put_silent (silent_one _ nofun nofun) (hid'.trans hid)
        (.inl (hterm ▸ ht.resolve_right fun hd => hup hd.1)) fun hl => absurd hl hlead

/-! ## Runs -/

def TermKept (c : Cluster) : ClusterAction → Prop
  | .act i a => ¬Downgrade (c.servers i) a
  | .crash _ => True
  | .crashMid i a _ => ¬Downgrade (c.servers i) a

instance (c : Cluster) : (b : ClusterAction) → Decidable (TermKept c b)
  | .act _ _ => inferInstanceAs (Decidable (¬_))
  | .crash _ => .isTrue trivial
  | .crashMid _ _ _ => inferInstanceAs (Decidable (¬_))

theorem ElectionInv.clusterStep (h : ElectionInv n V c) {b : ClusterAction} (hkept : TermKept c b)
    (hs : clusterStep n c b = some c') : ∃ V', ElectionInv n V' c' := by
  rcases clusterStep_cases hs with ⟨i, a, r, msgs, rfl, hcan, hr, rfl⟩ | ⟨i, rfl, rfl⟩ |
      ⟨i, a, p, r, msgs, rfl, _, hr, hp, rfl⟩
  · exact h.act hcan hkept (serverStep_case hr)
  · exact ⟨V, h.put_silent refusals_nil.silent (h.serverId i) (.inr ⟨rfl, rfl, nofun⟩) nofun⟩
  · have hle := (serverStep_case hr).le_term.resolve_right fun hd => hkept hd.1
    cases p with
    | term =>
      refine ⟨V, h.put_silent refusals_nil.silent (h.serverId i) ?_ nofun⟩
      exact hle.lt_or_eq.imp_right fun heq => ⟨heq, rfl, nofun⟩
    | newTerm =>
      refine ⟨V, h.put_silent refusals_nil.silent (h.serverId i) ?_ nofun⟩
      exact .inl (hle.lt_of_ne hp.1)
    | log k =>
      refine ⟨V, h.put_silent refusals_nil.silent (h.serverId i) ?_ nofun⟩
      refine or_iff_not_imp_left.mpr fun hlt => ⟨hle.eq_of_not_lt hlt, ?_, nofun⟩
      refine ((serverStep_case hr).votedFor_or_log hlt hkept).resolve_right fun hlog => hp.2 ?_
      rw [hlog]
      exact take_prefix _ _

/-- In a run in which no server goes back to a smaller term, at most one
server becomes leader in each term. -/
theorem oneLeader_of_termKept {as : List ClusterAction}
    (hm : Meets (clusterStep n) TermKept initCluster as)
    (hs : exec (clusterStep n) initCluster as = some c) {t i j : Nat}
    (hi : (t, i) ∈ c.elected) (hj : (t, j) ∈ c.elected) : i = j := by
  obtain ⟨V, h⟩ := exec_invariant_of_meets (fun _ c => ∃ V, ElectionInv n V c)
    (fun _ _ _ _ hinv hkept hstep => hinv.elim fun _ h => h.clusterStep hkept hstep)
    ⟨_, electionInv_init⟩ hm hs
  have hcount : ∀ k, (t, k) ∈ c.elected →
      (range' 1 n).length < 2 * (range' 1 n).countP fun v => V v t = some k := by
    intro k hk
    rw [length_range']
    exact h.elected t k hk
  obtain ⟨v, -, hvi, hvj⟩ := exists_mem_of_two_majorities (hcount i hi) (hcount j hj)
  exact some.inj ((of_decide_eq_true hvi).symm.trans (of_decide_eq_true hvj))

/-- Server 3 becomes leader of term 2 with the vote of server 1. -/
def firstElection : List ClusterAction :=
  [.act 3 (.requestVote false),
    .act 1 (.receive (.requestVote ⟨2, 3, false, 0, 0⟩) false),
    .act 3 (.receive (.requestVoteResponce ⟨2, 1, true, false⟩) false)]

theorem oneLeader_firstElection :
    ∃ c, exec (clusterStep 3) initCluster firstElection = some c ∧ (2, 3) ∈ c.elected ∧
      ∀ j, (2, j) ∈ c.elected → 3 = j :=
  have hmeets : Meets (clusterStep 3) TermKept initCluster firstElection := by decide
  ⟨_, rfl, by decide, fun _ => oneLeader_of_termKept hmeets rfl (by decide)⟩

/-- In such a run nobody votes for two candidates in one term. -/
theorem oneVote_of_termKept {as : List ClusterAction}
    (hm : Meets (clusterStep n) TermKept initCluster as)
    (hs : exec (clusterStep n) initCluster as = some c) {i j : Nat} {q q' : RequestVoteRsp}
    (hi : (i, .requestVoteResponce q) ∈ c.sent) (hj : (j, .requestVoteResponce q') ∈ c.sent)
    (hq : q.voteGranted = true) (hq' : q'.voteGranted = true)
    (hvoter : q.serverId = q'.serverId) (hterm : q.term = q'.term) : i = j := by
  obtain ⟨V, h⟩ := exec_invariant_of_meets (fun _ c => ∃ V, ElectionInv n V c)
    (fun _ _ _ _ hinv hkept hstep => hinv.elim fun _ h => h.clusterStep hkept hstep)
    ⟨_, electionInv_init⟩ hm hs
  have hvote := (h.granted i q hi hq).1
  rw [hvoter, hterm] at hvote
  exact some.inj (hvote.symm.trans (h.granted j q' hj hq').1)

theorem oneVote_firstElection : ∃ c, exec (clusterStep 3) initCluster firstElection = some c ∧
    ∀ j, (j, .requestVoteResponce ⟨2, 1, true, false⟩) ∈ c.sent → 3 = j :=
  have hmeets : Meets (clusterStep 3) TermKept initCluster firstElection := by decide
  ⟨_, rfl, fun _ hj => oneVote_of_termKept hmeets rfl (q := ⟨2, 1, true, false⟩) (by decide) hj rfl
    rfl rfl rfl⟩

/-- Server 2 asks for votes in the terms 2 and 3. The leader rejects both
requests, server 1 votes for it in term 3. The first rejection takes server
2 back to term 2, where it gets to vote for server 3 in term 3. The second
one takes it back once more, and it counts the vote of server 1 for its
next request in term 3. -/
def stickinessRun : List ClusterAction :=
  firstElection ++
  [.act 2 (.requestVote false),
    .act 2 (.requestVote false),
    .act 3 (.receive (.requestVote ⟨2, 2, false, 0, 0⟩) false),
    .act 3 (.receive (.requestVote ⟨3, 2, false, 0, 0⟩) false),
    .act 1 (.receive (.requestVote ⟨3, 2, false, 0, 0⟩) false),
    .act 2 (.receive (.requestVoteResponce ⟨2, 3, false, true⟩) false),
    .crash 3,
    .act 3 (.requestVote false),
    .act 2 (.receive (.requestVote ⟨3, 3, false, 1, 2⟩) false),
    .act 3 (.receive (.requestVoteResponce ⟨3, 2, true, false⟩) false),
    .act 2 (.receive (.requestVoteResponce ⟨2, 3, false, true⟩) false),
    .act 2 (.requestVote false),
    .act 2 (.receive (.requestVoteResponce ⟨3, 1, true, false⟩) false)]

/-- Servers 2 and 3 both become leader in term 3. -/
theorem twoLeaders : ∃ c, exec (clusterStep 3) initCluster stickinessRun = some c ∧
      (3, 2) ∈ c.elected ∧ (3, 3) ∈ c.elected :=
  ⟨_, rfl, by decide, by decide⟩

end PolarDB.Paxos
