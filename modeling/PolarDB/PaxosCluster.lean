import PolarDB.Lts
import PolarDB.PaxosReplica

/-!
# A cluster of servers

`n` servers that send messages. All messages ever sent are kept, and a
step may deliver any of them again, so messages are lost, duplicated,
delayed and reordered in any way. A server may crash: between two steps,
or inside of one, before all that the step stores is there
(`CrashPoint`).

`elected`, `leaderLogs` and `acks` are history: who ran `becameLeader_`
in which term, the log that the leader of each term had when it was last
leader, and the log from which each answer to `AppendLog` was made.
-/

namespace PolarDB.Paxos

open Option

structure Cluster where
  servers : Nat → Replica
  sent : List (Nat × Msg)
  elected : List (Nat × Nat)
  leaderLogs : Nat → List LogEntry
  acks : List (AppendLogRsp × List LogEntry)

def initCluster : Cluster where
  servers := fun i => newReplica i 1 0 []
  sent := []
  elected := []
  leaderLogs := fun _ => []
  acks := []

def ackOf (log : List LogEntry) : Nat × Msg → Option (AppendLogRsp × List LogEntry)
  | (_, .appendLogResponce rsp) => some (rsp, log)
  | _ => none

def Cluster.put (c : Cluster) (i : Nat) (r : Replica) (msgs : List (Nat × Msg)) : Cluster where
  servers := Function.update c.servers i r
  sent := c.sent ++ msgs
  elected := if (c.servers i).state ≠ .leader ∧ r.state = .leader then
      c.elected ++ [(r.currentTerm, i)] else c.elected
  leaderLogs := if r.state = .leader then Function.update c.leaderLogs r.currentTerm r.log
    else c.leaderLogs
  acks := c.acks ++ msgs.filterMap (ackOf r.log)

/-- What a step has stored when its server crashes: the new term; then
the 0 that `newTerm_` stores for the vote; then the vote and the log up to
entry `k`. -/
inductive CrashPoint where
  | term
  | newTerm
  | log (k : Nat)
  deriving DecidableEq, Repr

/-- The step `a` from `r` to `r'` comes to that point: `requestVote` does
not use `newTerm_`, and behind entry `k` the step has something to append. -/
def CrashPoint.Reached (r : Replica) (a : ServerAction) (r' : Replica) : CrashPoint → Prop
  | .term => True
  | .newTerm => r.currentTerm ≠ r'.currentTerm ∧ ¬(a matches .requestVote _)
  | .log k => k < r'.log.length ∧ ¬ r'.log.take (k + 1) <+: r.log

instance (r r' : Replica) (a : ServerAction) : (p : CrashPoint) → Decidable (p.Reached r a r')
  | .term => .isTrue trivial
  | .newTerm | .log _ => inferInstanceAs (Decidable (_ ∧ ¬_))

def CrashPoint.restart (r r' : Replica) : CrashPoint → Replica
  | .term => newReplica r.serverId r'.currentTerm r.votedFor r.log
  | .newTerm => newReplica r.serverId r'.currentTerm 0 r.log
  | .log k => newReplica r.serverId r'.currentTerm r'.votedFor (r'.log.take k)

inductive ClusterAction where
  | act (i : Nat) (a : ServerAction)
  | crash (i : Nat)
  | crashMid (i : Nat) (a : ServerAction) (p : CrashPoint)
  deriving DecidableEq, Repr

def canAct (n : Nat) (c : Cluster) (i : Nat) (a : ServerAction) : Prop :=
  1 ≤ i ∧ i ≤ n ∧
    match a with
    | .receive msg _ => (i, msg) ∈ c.sent
    | _ => True

instance (n : Nat) (c : Cluster) (i : Nat) : (a : ServerAction) → Decidable (canAct n c i a)
  | .receive _ _ => inferInstanceAs (Decidable (_ ∧ _ ∧ _ ∈ _))
  | .requestVote _ => inferInstanceAs (Decidable (_ ∧ _ ∧ True))
  | .epochTimer => inferInstanceAs (Decidable (_ ∧ _ ∧ True))
  | .replicateLog _ _ => inferInstanceAs (Decidable (_ ∧ _ ∧ True))
  | .appendLog _ _ _ _ => inferInstanceAs (Decidable (_ ∧ _ ∧ True))
  | .resetNextIndex _ _ => inferInstanceAs (Decidable (_ ∧ _ ∧ True))

def clusterStep (n : Nat) (c : Cluster) : ClusterAction → Option Cluster
  | .act i a =>
    if canAct n c i a then (serverStep n (c.servers i) a).map fun x => c.put i x.1 x.2 else none
  | .crash i =>
    let r := c.servers i
    if 1 ≤ i ∧ i ≤ n then some (c.put i (newReplica r.serverId r.currentTerm r.votedFor r.log) [])
    else none
  | .crashMid i a p =>
    let r := c.servers i
    if canAct n c i a then
      (serverStep n r a).bind fun x =>
        if p.Reached r a x.1 then some (c.put i (p.restart r x.1) []) else none
    else none

variable {n : Nat} {c c' : Cluster} {i : Nat}

/-- What a step of the cluster is: a step of a server, or a restart from
what was stored before a step or inside of it. -/
theorem clusterStep_cases {b : ClusterAction} (h : clusterStep n c b = some c') :
    (∃ i a r msgs, b = .act i a ∧ canAct n c i a ∧ serverStep n (c.servers i) a = some (r, msgs) ∧
      c' = c.put i r msgs) ∨
    (∃ i, b = .crash i ∧ c' = c.put i (newReplica (c.servers i).serverId (c.servers i).currentTerm
      (c.servers i).votedFor (c.servers i).log) []) ∨
    ∃ i a p r msgs, b = .crashMid i a p ∧ canAct n c i a ∧
      serverStep n (c.servers i) a = some (r, msgs) ∧ p.Reached (c.servers i) a r ∧
      c' = c.put i (p.restart (c.servers i) r) [] := by
  cases b with
  | act i a =>
    obtain ⟨hcan, h⟩ := ite_none_right_eq_some.mp h
    obtain ⟨⟨r, msgs⟩, hr, rfl⟩ := map_eq_some_iff.mp h
    exact .inl ⟨i, a, r, msgs, rfl, hcan, hr, rfl⟩
  | crash i =>
    obtain ⟨-, rfl⟩ := ite_some_none_eq_some.mp h
    exact .inr (.inl ⟨i, rfl, rfl⟩)
  | crashMid i a p =>
    obtain ⟨hcan, h⟩ := ite_none_right_eq_some.mp h
    obtain ⟨⟨r, msgs⟩, hr, h⟩ := bind_eq_some_iff.mp h
    obtain ⟨hp, rfl⟩ := ite_some_none_eq_some.mp h
    exact .inr (.inr ⟨i, a, p, r, msgs, rfl, hcan, hr, hp, rfl⟩)

theorem mem_put_sent {d : Nat} {m : Msg} {r : Replica} {msgs : List (Nat × Msg)} :
    (d, m) ∈ (c.put i r msgs).sent ↔ (d, m) ∈ c.sent ∨ (d, m) ∈ msgs :=
  List.mem_append

theorem mem_put_elected {t j : Nat} {r : Replica} {msgs : List (Nat × Msg)} :
    (t, j) ∈ (c.put i r msgs).elected ↔ (t, j) ∈ c.elected ∨
      ((c.servers i).state ≠ .leader ∧ r.state = .leader ∧ t = r.currentTerm ∧ j = i) := by
  rw [Cluster.put]
  split
  · rename_i hcond
    rw [List.mem_append, List.mem_singleton, Prod.mk.injEq]
    exact or_congr_right ⟨fun h => ⟨hcond.1, hcond.2, h⟩, fun h => h.2.2⟩
  · rename_i hcond
    exact (or_iff_left fun h => hcond ⟨h.1, h.2.1⟩).symm

end PolarDB.Paxos
