import PolarDB.PaxosConfigureChange

/-!
# Elections and log replication of one server

`Replica` is what elections and log replication read and write of a
server in a cluster of `n` members with the ids 1 to `n` (`paxos.cc`).
Each handler is a function from the server's state and a message to the
new state and the answer. `serverStep` puts together all that a server
can do by itself or on a message.

Left out are learners that pull from followers, commit indexes (see
`PolarDB.PaxosCommit`), configuration changes (see
`PolarDB.PaxosConfigureChange`), mock entries, checksums and I/O errors.
What depends on timers or on sizes of packets is an argument.
-/

namespace PolarDB.Paxos

/-! ## The log -/

def LogEntry.term (e : LogEntry) : Nat := e.logMeta.term

def termAt (log : List LogEntry) (index : Nat) : Nat :=
  ((getEntry log index).map LogEntry.term).getD 0

def getLastLogTerm (log : List LogEntry) : Nat := termAt log (getLastLogIndex log)

/-- `getEmptyEntry`, with the term of the leader that writes it. -/
def emptyEntry (term : Nat) : LogEntry := ⟨⟨term, .nop, 0⟩, none⟩

/-! ## The cache for entries that came too early -/

structure PaxosLogCacheNode where
  beginIndex : Nat
  endIndex : Nat
  entries : List LogEntry
  deriving DecidableEq, Repr

def PaxosLogCacheNode.merge (leftNode rightNode : PaxosLogCacheNode) : PaxosLogCacheNode where
  beginIndex := leftNode.beginIndex
  endIndex := rightNode.endIndex
  entries := leftNode.entries ++
    rightNode.entries.drop (leftNode.endIndex - rightNode.beginIndex + 1)

def PaxosLogCache.put : List PaxosLogCacheNode → PaxosLogCacheNode → List PaxosLogCacheNode
  | [], newNode => [newNode]
  | node :: rest, newNode =>
    if node.endIndex < newNode.beginIndex then
      if node.endIndex + 1 ≠ newNode.beginIndex then node :: put rest newNode
      else put rest ⟨node.beginIndex, newNode.endIndex, node.entries ++ newNode.entries⟩
    else if newNode.endIndex < node.beginIndex then
      if node.beginIndex ≠ newNode.endIndex + 1 then newNode :: node :: rest
      else ⟨newNode.beginIndex, node.endIndex, newNode.entries ++ node.entries⟩ :: rest
    else if newNode.beginIndex < node.beginIndex then
      if newNode.endIndex < node.endIndex then put rest (newNode.merge node) else put rest newNode
    else
      if node.endIndex < newNode.endIndex then put rest (node.merge newNode) else node :: rest

def PaxosLogCache.get :
    List PaxosLogCacheNode → Nat → Option PaxosLogCacheNode × List PaxosLogCacheNode
  | [], _ => (none, [])
  | node :: rest, beginIndex =>
    if node.beginIndex = beginIndex then (some node, rest)
    else if node.beginIndex < beginIndex then
      if node.endIndex < beginIndex then get rest beginIndex
      else (some ⟨beginIndex, node.endIndex, node.entries.drop (beginIndex - node.beginIndex)⟩,
      rest)
    else (none, node :: rest)

/-! ## The state -/

/-- `RemoteServer`. -/
structure Peer where
  nextIndex : Nat
  matchIndex : Nat
  hasMatched : Bool
  hasVote : Bool
  deriving DecidableEq, Repr

def newPeer : Peer := ⟨1, 0, false, false⟩

def Peer.resetMatchIndex (p : Peer) (matchIndex : Nat) : Peer :=
  { p with matchIndex := matchIndex, hasMatched := false }

def Peer.stepDown (p : Peer) : Peer := { p.resetMatchIndex 0 with nextIndex := 1 }

def Peer.beginLeadership (p : Peer) (lastLogIndex : Nat) : Peer :=
  { p.resetMatchIndex 0 with nextIndex := lastLogIndex + 1 }

/-- `class Paxos`. `currentTerm`, `votedFor` and the log survive a
restart. -/
structure Replica where
  serverId : Nat
  state : State
  currentTerm : Nat
  votedFor : Nat
  leaderId : Nat
  forceRequestMode : Bool
  log : List LogEntry
  logRecvCache : List PaxosLogCacheNode
  enableLogCache : Bool
  peers : Nat → Peer

/-- The constructor, and `init` with what is stored. -/
def newReplica (serverId currentTerm votedFor : Nat) (log : List LogEntry) : Replica where
  serverId := serverId
  state := .follower
  currentTerm := currentTerm
  votedFor := votedFor
  leaderId := 0
  forceRequestMode := false
  log := log
  logRecvCache := []
  enableLogCache := false
  peers := fun _ => newPeer

def setPeer (r : Replica) (j : Nat) (p : Peer) : Replica :=
  { r with peers := Function.update r.peers j p }

@[simp] theorem setPeer_self (r : Replica) (j : Nat) (p : Peer) : (setPeer r j p).peers j = p :=
  Function.update_self ..

theorem setPeer_of_ne (r : Replica) {j k : Nat} (h : k ≠ j) (p : Peer) :
    (setPeer r j p).peers k = r.peers k :=
  Function.update_of_ne h ..

/-! ## Messages -/

structure RequestVoteMsg where
  term : Nat
  candidateId : Nat
  force : Bool
  lastLogIndex : Nat
  lastLogTerm : Nat
  deriving DecidableEq, Repr

structure RequestVoteRsp where
  term : Nat
  serverId : Nat
  voteGranted : Bool
  force : Bool
  deriving DecidableEq, Repr

/-- `prev` is the index and the term before the entries, if they are
filled in. -/
structure AppendLogMsg where
  term : Nat
  leaderId : Nat
  serverId : Nat
  prev : Option (Nat × Nat)
  entries : List LogEntry
  nocache : Bool
  deriving DecidableEq, Repr

structure AppendLogRsp where
  term : Nat
  serverId : Nat
  isSuccess : Bool
  ignoreCheck : Bool
  lastLogIndex : Nat
  deriving DecidableEq, Repr

inductive Msg where
  | requestVote (msg : RequestVoteMsg)
  | requestVoteResponce (msg : RequestVoteRsp)
  | appendLog (msg : AppendLogMsg)
  | appendLogResponce (msg : AppendLogRsp)
  deriving DecidableEq, Repr

/-! ## Terms and roles -/

def changeState (r : Replica) (newState : State) : Replica :=
  { r with
    state := newState
    forceRequestMode := if newState = .candidate then r.forceRequestMode else false
    leaderId := if newState = .leader then r.serverId else r.leaderId }

def newTerm (r : Replica) (newTerm : Nat) : Replica :=
  { changeState { r with currentTerm := newTerm, leaderId := 0, votedFor := 0 }
      (if r.state = .learner then .learner else .follower) with
    logRecvCache := []
    peers := fun j => (r.peers j).stepDown }

theorem newTerm_not_leader (r : Replica) (t : Nat) : (newTerm r t).state ≠ .leader := by
  change (if r.state = .learner then State.learner else State.follower) ≠ .leader
  split <;> decide

def becameLeader (r : Replica) : Replica :=
  if r.state = .leader then r
  else
    { changeState r .leader with
      peers := fun j => (r.peers j).beginLeadership (getLastLogIndex r.log)
      log := r.log ++ [emptyEntry r.currentTerm] }

def haveVote (r : Replica) (j : Nat) : Bool :=
  if j = r.serverId then r.votedFor = r.serverId else (r.peers j).hasVote

/-- `quorumAll(&Server::haveVote)`. -/
def quorumVotes (n : Nat) (r : Replica) : Bool :=
  n / 2 + 1 ≤ (List.range' 1 n).countP (haveVote r)

def requestVote (n : Nat) (r : Replica) (force : Bool) : Option (Replica × RequestVoteMsg) :=
  if r.state = .leader ∨ r.state = .learner then none
  else
    let r := changeState { r with
      currentTerm := r.currentTerm + 1
      leaderId := 0
      peers := fun j => { r.peers j with hasVote := false }
      forceRequestMode := force } .candidate
    let r := { r with votedFor := r.serverId }
    some (if n = 1 then becameLeader r else r,
      ⟨r.currentTerm, r.serverId, force, getLastLogIndex r.log, getLastLogTerm r.log⟩)

def logCheck (r : Replica) (msg : RequestVoteMsg) : Prop :=
  getLastLogTerm r.log < msg.lastLogTerm ∨
    msg.lastLogTerm = getLastLogTerm r.log ∧ getLastLogIndex r.log ≤ msg.lastLogIndex

instance (r : Replica) (msg : RequestVoteMsg) : Decidable (logCheck r msg) :=
  inferInstanceAs (Decidable (_ ∨ _))

/-- There is a leader that has not been silent: `stage` is whether the
election timer is in its first stage. -/
def leaderStickiness (r : Replica) (stage : Bool) : Prop :=
  r.state = .leader ∨ r.state = .follower ∧ stage = true ∧ r.leaderId ≠ 0

instance (r : Replica) (stage : Bool) : Decidable (leaderStickiness r stage) :=
  inferInstanceAs (Decidable (_ ∨ _))

def vote (r : Replica) (msg : RequestVoteMsg) (check : Bool) : Replica × RequestVoteRsp :=
  if check ∧ r.votedFor = 0 then
    ({ r with votedFor := msg.candidateId }, ⟨r.currentTerm, r.serverId, true, false⟩)
  else (r, ⟨r.currentTerm, r.serverId, false, false⟩)

def onRequestVote (r : Replica) (msg : RequestVoteMsg) (stage : Bool) : Replica × RequestVoteRsp :=
  if r.state = .learner then (r, ⟨msg.term, r.serverId, false, false⟩)
  else if msg.term < r.currentTerm then (r, ⟨r.currentTerm, r.serverId, false, false⟩)
  else if msg.force = false ∧ leaderStickiness r stage then
    (r, ⟨r.currentTerm, r.serverId, false, r.state = .leader⟩)
  else vote (if r.currentTerm < msg.term then newTerm r msg.term else r) msg (logCheck r msg)

def countVote (n : Nat) (r : Replica) (j : Nat) : Replica :=
  let r := setPeer r j { r.peers j with hasVote := true }
  if quorumVotes n r then becameLeader r else r

/-- An answer of a leader with a smaller term takes the term back. -/
def onRequestVoteResponce (n : Nat) (r : Replica) (msg : RequestVoteRsp) : Replica :=
  if r.currentTerm < msg.term then newTerm r msg.term
  else if msg.term < r.currentTerm then
    if msg.force = true ∧ getLastLogTerm r.log ≤ msg.term then newTerm r msg.term else r
  else if msg.voteGranted then countVote n r msg.serverId
  else r

/-! ## Sending entries -/

def replicateLog (r : Replica) (optype : LogOperation) (info : Nat) : Option Replica :=
  if r.state = .leader then some { r with log := r.log ++ [⟨⟨r.currentTerm, optype, info⟩, none⟩] }
  else none

/-- `appendLogFillForEach` with the first `count` entries that can be read
and sent. `fill` is whether it is called at all, `normal` whether the
mode is the normal one. -/
def appendLogFillForEach (r : Replica) (j count : Nat) (fill normal : Bool) :
    Replica × AppendLogMsg :=
  let p := r.peers j
  let prevLogIndex := p.nextIndex - 1
  let entries := (r.log.drop prevLogIndex).take count
  if fill = false ∨ p.nextIndex = 0 ∨ getLastLogIndex r.log < prevLogIndex then
    (r, ⟨r.currentTerm, r.serverId, j, none, [], true⟩)
  else if p.matchIndex ≠ 0 ∧ normal = true ∧ entries ≠ [] then
    (setPeer r j { p with nextIndex := prevLogIndex + entries.length + 1 },
      ⟨r.currentTerm, r.serverId, j, some (prevLogIndex, termAt r.log prevLogIndex),
        entries, false⟩)
  else
    (r, ⟨r.currentTerm, r.serverId, j, some (prevLogIndex, termAt r.log prevLogIndex),
      entries, true⟩)

/-- `resetNextIndexForServer`, and the end of pipelining: `connected` is
whether it is the former. -/
def resetNextIndex (r : Replica) (j : Nat) (connected : Bool) : Replica :=
  let p := r.peers j
  let lastLogIndex := getLastLogIndex r.log
  if p.matchIndex ≠ 0 then
    setPeer r j { p with
      nextIndex := p.matchIndex + 1
      hasMatched := if connected then false else p.hasMatched }
  else if connected then
    setPeer r j { p with
      nextIndex := if 1 < lastLogIndex then lastLogIndex - 1 else lastLogIndex
      hasMatched := false }
  else r

/-! ## Receiving entries -/

def duplicates (log : List LogEntry) : Nat → List LogEntry → Nat
  | _, [] => 0
  | index, e :: entries =>
    match getEntry log (index + 1) with
    | some en => if en.term = e.term then duplicates log (index + 1) entries + 1 else 0
    | none => 0

/-- The log with the entries behind `prevLogIndex`, and the
`lastlogindex` of the answer. -/
def appendEntries (r : Replica) (newTermFlag : Bool) (prevLogIndex : Nat)
    (entries : List LogEntry) : List LogEntry × Nat :=
  let msgLastIndex := prevLogIndex + entries.length
  if getLastLogIndex r.log = prevLogIndex then (r.log ++ entries, msgLastIndex)
  else if newTermFlag = false ∧ msgLastIndex ≤ getLastLogIndex r.log ∧
      entries.head?.map LogEntry.term = some r.currentTerm ∧
      entries.getLast?.map LogEntry.term = some r.currentTerm ∧
      termAt r.log prevLogIndex = r.currentTerm then
    -- entries between two of one term are of that term: nothing to do
    (r.log, msgLastIndex)
  else
    let dupcnt := duplicates r.log prevLogIndex entries
    if dupcnt = entries.length then (r.log, msgLastIndex)
    else (r.log.take (prevLogIndex + dupcnt) ++ entries.drop dupcnt, msgLastIndex)

def appendCached (r : Replica) (lastLogIndex : Nat) : Replica × Nat :=
  match PaxosLogCache.get r.logRecvCache (getLastLogIndex r.log + 1) with
  | (none, rest) => ({ r with logRecvCache := rest }, lastLogIndex)
  | (some node, rest) =>
    ({ r with log := r.log ++ node.entries, logRecvCache := rest },
      getLastLogIndex (r.log ++ node.entries))

def receiveGap (r : Replica) (msg : AppendLogMsg) (prevLogIndex : Nat) : Replica × AppendLogRsp :=
  let lastLogIndex := getLastLogIndex r.log
  if r.enableLogCache = true ∧ msg.nocache = false ∧
      msg.entries.head?.map LogEntry.term = some r.currentTerm ∧
      msg.entries.getLast?.map LogEntry.term = some r.currentTerm then
    let node := ⟨prevLogIndex + 1, prevLogIndex + msg.entries.length, msg.entries⟩
    ({ r with logRecvCache := PaxosLogCache.put r.logRecvCache node },
      ⟨r.currentTerm, msg.serverId, true, false, lastLogIndex⟩)
  else (r, ⟨r.currentTerm, msg.serverId, false, false, lastLogIndex⟩)

def receiveMatch (r : Replica) (msg : AppendLogMsg) (prevLogIndex : Nat) (newTermFlag : Bool) :
    Replica × AppendLogRsp :=
  let r := { r with enableLogCache := true }
  if msg.entries = [] then
    (r, ⟨r.currentTerm, msg.serverId, true, false, getLastLogIndex r.log⟩)
  else
    let a := appendEntries r newTermFlag prevLogIndex msg.entries
    let b := appendCached { r with log := a.1 } a.2
    (b.1, ⟨r.currentTerm, msg.serverId, true, false, b.2⟩)

/-- A smaller term is taken back for a leader that was there before. -/
def downgrades (r : Replica) (term : Nat) : Prop :=
  getLastLogTerm r.log ≤ term ∧
    (r.forceRequestMode = false ∧ r.leaderId = 0 ∧ r.state = .candidate ∨ r.state = .learner)

instance (r : Replica) (term : Nat) : Decidable (downgrades r term) :=
  inferInstanceAs (Decidable (_ ∧ _))

/-- The term check of `onAppendLog`, with `newTermFlag`; `none` if the
message is rejected. -/
def acceptTerm (r : Replica) (term : Nat) : Option (Replica × Bool) :=
  if r.currentTerm < term then
    if r.state ≠ .leader then some (newTerm r term, true) else none
  else if term < r.currentTerm then
    if downgrades r term then some (newTerm r term, false) else none
  else if r.state ≠ .follower ∧ r.state ≠ .learner then some (changeState r .follower, false)
  else some (r, false)

def receiveEntries (r : Replica) (msg : AppendLogMsg) (newTermFlag : Bool) :
    Replica × AppendLogRsp :=
  let lastLogIndex := getLastLogIndex r.log
  match msg.prev with
  | none => (r, ⟨r.currentTerm, msg.serverId, false, true, lastLogIndex⟩)
  | some (prevLogIndex, prevLogTerm) =>
    if lastLogIndex < prevLogIndex then receiveGap r msg prevLogIndex
    else if termAt r.log prevLogIndex ≠ prevLogTerm then
      (r, ⟨r.currentTerm, msg.serverId, false, false, lastLogIndex⟩)
    else receiveMatch r msg prevLogIndex newTermFlag

def onAppendLog (n : Nat) (r : Replica) (msg : AppendLogMsg) : Replica × AppendLogRsp :=
  let lastLogIndex := getLastLogIndex r.log
  if n = 1 ∧ r.state ≠ .learner then (r, ⟨r.currentTerm, msg.serverId, false, true, lastLogIndex⟩)
  else
    match acceptTerm r msg.term with
    | none => (r, ⟨r.currentTerm, msg.serverId, false, false, lastLogIndex⟩)
    | some (r, newTermFlag) => receiveEntries { r with leaderId := msg.leaderId } msg newTermFlag

def Peer.acknowledge (p : Peer) (lastLogIndex : Nat) : Peer :=
  if p.nextIndex = lastLogIndex + 1 ∧ p.matchIndex = 0 ∨
      lastLogIndex < p.nextIndex ∧ p.matchIndex = 0 then p
  else
    { p with
      hasMatched := true
      matchIndex := max p.matchIndex lastLogIndex
      nextIndex := max p.nextIndex (max p.matchIndex lastLogIndex + 1) }

/-- A failure in the leader's term. `autoReset` is whether lost entries
are looked for. -/
def Peer.refuse (p : Peer) (lastLogIndex : Nat) (autoReset : Bool) : Peer :=
  let p := if autoReset = true ∧ p.hasMatched = false ∧ lastLogIndex < p.matchIndex then
      p.resetMatchIndex 0 else p
  if 0 < p.matchIndex then { p with nextIndex := p.matchIndex + 1 }
  else
    let nextIndex := if 1 < p.nextIndex then p.nextIndex - 1 else p.nextIndex
    { p with nextIndex := min nextIndex (lastLogIndex + 1) }

/-- `onAppendLogResponce`. Only a leader looks at the answer of a
member. -/
def onAppendLogResponce (r : Replica) (msg : AppendLogRsp) (autoReset : Bool) : Replica :=
  let p := r.peers msg.serverId
  if r.state ≠ .leader then r
  else if r.currentTerm < msg.term then
    setPeer r msg.serverId (if p.matchIndex ≠ 0 then p.resetMatchIndex 0 else p)
  else if msg.term < r.currentTerm then r
  else if msg.isSuccess then setPeer r msg.serverId (p.acknowledge msg.lastLogIndex)
  else if msg.ignoreCheck then r
  else setPeer r msg.serverId (p.refuse msg.lastLogIndex autoReset)

/-! ## Steps -/

/-- What a server can do. `flag` stands for what a handler reads of
timers and options. -/
inductive ServerAction where
  | requestVote (force : Bool)
  | receive (msg : Msg) (flag : Bool)
  | epochTimer
  | replicateLog (optype : LogOperation) (info : Nat)
  | appendLog (j count : Nat) (fill normal : Bool)
  | resetNextIndex (j : Nat) (connected : Bool)
  deriving DecidableEq, Repr

def others (n i : Nat) : List Nat := (List.range' 1 n).filter (· ≠ i)

def serverStep (n : Nat) (r : Replica) : ServerAction → Option (Replica × List (Nat × Msg))
  | .requestVote force =>
    (requestVote n r force).map fun x =>
      (x.1, (others n r.serverId).map fun j => (j, .requestVote x.2))
  | .receive (.requestVote msg) stage =>
    let x := onRequestVote r msg stage
    some (x.1, [(msg.candidateId, .requestVoteResponce x.2)])
  | .receive (.requestVoteResponce msg) _ => some (onRequestVoteResponce n r msg, [])
  | .receive (.appendLog msg) _ =>
    let x := onAppendLog n r msg
    some (x.1, [(msg.leaderId, .appendLogResponce x.2)])
  | .receive (.appendLogResponce msg) autoReset => some (onAppendLogResponce r msg autoReset, [])
  | .epochTimer => if r.state = .leader then some (newTerm r (r.currentTerm + 1), []) else none
  | .replicateLog optype info => (replicateLog r optype info).map fun r => (r, [])
  | .appendLog j count fill normal =>
    if r.state = .leader ∧ j ∈ others n r.serverId then
      let x := appendLogFillForEach r j count fill normal
      some (x.1, [(j, .appendLog x.2)])
    else none
  | .resetNextIndex j connected =>
    if r.state = .leader then some (resetNextIndex r j connected, []) else none

end PolarDB.Paxos
