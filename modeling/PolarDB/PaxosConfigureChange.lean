import PolarDB.PaxosConfiguration
import PolarDB.PaxosLog

/-!
# Applying a configuration change

`Node` is the part of a server that a configuration change reads and
writes: its role, its configuration, its log, the change it waits for,
and what is stored as metadata (`paxos.cc`). The local server is the one
in slot `localSlot`.

`applyConfigureChange` is `applyConfigureChangeNoLock_` on the value of
the entry. A failed `assert`, an exception and a read outside of a vector
are `none`.
-/

namespace PolarDB.Paxos

open Option

inductive State where
  | follower
  | candidate
  | leader
  | learner
  | norole
  deriving DecidableEq, Repr

/-- `ConfigureChangeManager`, without its condition variables. -/
structure CcMgr where
  prepared : Bool
  applied : Bool
  aborted : Bool
  needNotify : Bool
  preparedIndex : Nat
  autoChangeAddr : List Char
  autoChangeRet : Int
  deriving DecidableEq, Repr

def CcMgr.clear (m : CcMgr) : CcMgr :=
  { m with
    prepared := false
    applied := false
    aborted := false
    needNotify := false
    preparedIndex := 0 }

/-- A server, as configuration changes see it. `stopped` is set by
`Paxos::stop`; the last three fields are metadata in the log's store. -/
structure Node where
  state : State
  config : StableConfiguration
  localSlot : Nat
  log : List LogEntry
  ccMgr : CcMgr
  stopped : Bool
  scanIndex : Nat
  memberConfigure : List Char
  learnerConfigure : List Char
  deriving DecidableEq, Repr

section

variable (n : Node) (val : ConfigureChangeValue) (addr : List Char)

def localServer : Option Server := (n.config.servers[n.localSlot]?).join

def updateLocalServer (f : Server → Server) : Node :=
  { n with config := { n.config with
    servers := n.config.servers.modify n.localSlot (Option.map f) } }

def storeMembers : Option Node := do
  let s ← localServer n
  let str ← membersToStringAt n.config.servers s.strAddr
  some { n with memberConfigure := str }

def storeLearners : Option Node :=
  (learnersToString n.config.learners).map fun str => { n with learnerConfigure := str }

/-- `setMetaData` of a learner: the members without a local index. -/
def storeLearnerNode : Option Node := do
  let n ← storeLearners n
  let str ← membersToString n.config.servers
  some { n with memberConfigure := str }

/-! ## The operations with what they store -/

def addMemberAndStore : Option Node :=
  let r := addMember n.config addr
  if r.2 then (storeLearners { n with config := r.1 }).bind storeMembers else some n

def delMemberAndStore : Option Node :=
  (delMember n.config addr).bind fun r =>
    if r.2 then storeMembers { n with config := r.1 } else some n

def addLearnersAndStore (strConfig : List (List Char)) (replaceAll : Bool) : Option Node :=
  if strConfig = [] then some n
  else (addLearners n.config strConfig replaceAll).bind fun c =>
    storeLearners { n with config := c }

def delLearnersAndStore (strConfig : List (List Char)) : Option Node :=
  storeLearners { n with config := delLearners n.config strConfig }

def replaceLearners (strConfig : List (List Char)) : Option Node :=
  addLearnersAndStore { n with config := delAllLearners n.config } strConfig true

/-! ## The changes -/

def lastPlace (strs : List (List Char)) : Nat :=
  strs.length - strs.reverse.idxOf addr

def learnerToFollower : Option Node :=
  let index := lastPlace addr val.allServers
  if index = 0 then none
  else do
    let config ← installConfig n.config val.allServers index (getServer n.config 1)
    let n := { n with config := config, localSlot := index - 1, state := .follower }
    let s ← localServer n
    let n ← replaceLearners n (val.allLearners.filter (· ≠ s.strAddr))
    (storeLearners n).bind storeMembers

def autoChangeDone (ret : Int) : Node :=
  { n with ccMgr := { n.ccMgr with autoChangeAddr := [], autoChangeRet := ret } }

def addMemberByRole (localAddr : List Char) : Option Node :=
  if n.state ≠ .learner then addMemberAndStore n addr
  else if addr = localAddr then learnerToFollower n val addr
  else delLearnersAndStore n [addr]

def applyAddMember : Option Node :=
  if val.addrs.length ≠ 1 then none
  else do
    let s ← localServer n
    let n ← addMemberByRole n val addr s.strAddr
    some (if n.ccMgr.autoChangeAddr = addr then autoChangeDone n 0 else n)

def applyDelMember : Option Node :=
  if n.state = .learner then some n
  else do
    let s ← localServer n
    if addr ≠ s.strAddr then delMemberAndStore n addr
    else
      -- "This node is removed from the cluster, shutdown myself"
      some { updateLocalServer n fun s => { s with serverId := s.serverId + 1000 } with
        stopped := true }

def followerToLearner : Option Node := do
  let s ← localServer n
  let old ← getServer n.config s.serverId
  let config ← installConfig n.config [addr] 1 (some old)
  let n ← addLearnersAndStore { n with config := config, localSlot := 0 } [addr] false
  let n ← storeLearnerNode n
  some { updateLocalServer n fun s => { s with serverId := 100 } with state := .learner }

def applyDowngradeMember : Option Node :=
  if n.state = .learner then addLearnersAndStore n [addr] false
  else do
    let s ← localServer n
    if addr ≠ s.strAddr then
      (delMemberAndStore n addr).bind fun n => addLearnersAndStore n [addr] false
    else followerToLearner n addr

def applyConfigureMember : Option Node :=
  if n.state = .learner then some n
  else
    match getServer n.config val.serverId with
    | none => some n
    | some s =>
      if addr ≠ s.strAddr then some n
      else storeMembers { n with
        config := configureMember n.config val.serverId val.forceSync val.electionWeight }

def refreshLearners (localAddr : List Char) : Option Node :=
  if isServerInVector localAddr val.addrs then replaceLearners n val.allLearners else some n

def applyAddLearners : Option Node := do
  let s ← localServer n
  let n ← refreshLearners n val s.strAddr
  let n ← addLearnersAndStore n val.addrs false
  if val.opType = .addLearnerAutoChange then
    val.addrs.head?.map fun addr => { n with ccMgr := { n.ccMgr with autoChangeAddr := addr } }
  else some n

def applyDelLearners : Option Node :=
  (delLearnersAndStore n val.addrs).map fun n =>
    if n.ccMgr.autoChangeAddr ≠ [] ∧ n.ccMgr.autoChangeAddr ∈ val.addrs then autoChangeDone n (-2)
    else n

def applyConfigureLearner : Option Node :=
  match getServer n.config val.serverId with
  | none => some n
  | some s =>
    if addr ≠ s.strAddr then some n
    else
      (storeLearners { n with
        config := configureLearner n.config val.serverId val.learnerSource }).map fun n =>
          { n with config := updateServer n.config val.serverId fun s =>
            { s with sendByAppliedIndex := val.applyMode } }

def applySyncLearnerAll : Option Node := do
  let strLearners ← learnersToString n.config.learners
  if (val.allLearners.intersperse [';']).flatten ≠ strLearners then
    (replaceLearners n val.allLearners).bind storeLearners
  else some n

/-- The configuration part of `applyConfigureChangeNoLock_`. A member
operation for learners only, and the other way round, does nothing. -/
def applyConfigureChangeValue : Option Node :=
  match val.ccType, val.opType with
  | .memberOp, opType => do
      let addr ← val.addrs.head?
      match opType with
      | .addNode => applyAddMember n val addr
      | .delNode => applyDelMember n addr
      | .downgradeNode => applyDowngradeMember n addr
      | .configureNode => applyConfigureMember n val addr
      | _ => some n
  | .learnerOp, .addNode => applyAddLearners n val
  | .learnerOp, .addLearnerAutoChange => applyAddLearners n val
  | .learnerOp, .delNode => applyDelLearners n val
  | .learnerOp, .configureNode =>
    (val.addrs.head?).bind fun addr => applyConfigureLearner n val addr
  | .learnerOp, .syncLearnerAll => applySyncLearnerAll n val
  | .learnerOp, .downgradeNode => some n

def finishChange (logIndex : Nat) : Node :=
  let n := if n.scanIndex ≤ logIndex then { n with scanIndex := 0 } else n
  if n.ccMgr.needNotify then
    { n with ccMgr := { n.ccMgr with applied := true, aborted := false } } else n

def applyConfigureChange (logIndex : Nat) : Option Node :=
  if logIndex = 0 then some n
  else do
    let entry ← getEntry n.log logIndex
    if entry.logMeta.optype ≠ .configureChange then none
    else
      let val ← entry.value
      let n ← applyConfigureChangeValue n val
      some (finishChange n logIndex)

def dropOthers (localAddr : List Char) : Option Node := do
  let str ← membersToStringAt (n.config.servers.map fun t => t.filter (·.strAddr = localAddr))
    localAddr
  let config ← delAllRemoteServer n.config localAddr
  some { n with config := config, memberConfigure := str }

/-- A learner that goes on alone. -/
def promoteLearner : Node :=
  let n := updateLocalServer n fun s => { s with serverId := 1 }
  { n with state := .follower, config := delAllLearners n.config }

def dropMembers (localAddr : List Char) : Option Node :=
  if n.state = .learner then some (promoteLearner n) else dropOthers n localAddr

def forceSingleLeader : Option Node := do
  let s ← localServer n
  let n ← dropMembers n s.strAddr
  let n ← storeLearners n
  storeMembers n

end

/-! ## Starting -/

structure Stored where
  log : List LogEntry
  scanIndex : Nat
  memberConfigure : List Char
  learnerConfigure : List Char
  deriving DecidableEq, Repr

def Node.stored (n : Node) : Stored where
  log := n.log
  scanIndex := n.scanIndex
  memberConfigure := n.memberConfigure
  learnerConfigure := n.learnerConfigure

def emptyConfiguration : StableConfiguration := ⟨0, [], []⟩

def newCcMgr : CcMgr := ⟨false, false, false, false, 0, [], 0⟩

/-- The scan of `Paxos::init`: the first configuration change at or behind
`startScanIndex`. -/
def scanLog (log : List LogEntry) (startScanIndex : Nat) : CcMgr :=
  if startScanIndex = 0 then newCcMgr
  else
    match (List.range' startScanIndex (log.length + 1 - startScanIndex)).find? fun i =>
        (getEntry log i).any (·.logMeta.optype = .configureChange) with
    | some i => { newCcMgr with prepared := true, preparedIndex := i }
    | none => newCcMgr

/-- The node before its configuration is installed. The scan index is
cleaned up in any case. -/
def bareNode (st : Stored) (state : State) (ccMgr : CcMgr) : Node where
  state := state
  config := emptyConfiguration
  localSlot := 0
  log := st.log
  ccMgr := ccMgr
  stopped := false
  scanIndex := 0
  memberConfigure := st.memberConfigure
  learnerConfigure := st.learnerConfigure

def installNode (st : Stored) (strs strLearners : List (List Char)) (index : Nat) : Option Node :=
  if index = 0 ∨ strs.length < index then none
  else do
    let config ← installConfig emptyConfiguration strs index none
    addLearnersAndStore { bareNode st .follower (scanLog st.log st.scanIndex) with
      config := config
      localSlot := index - 1 } strLearners true

/-- `Paxos::init`. An empty `strConfig` means that the stored members are
used. -/
def init (st : Stored) (strConfig : List (List Char)) (current : Nat) : Option Node := do
  let members ← stringToVector st.memberConfigure 0
  let learners ← stringToVector st.learnerConfigure members.2
  if strConfig = [] then
    if members.2 = 0 then none else installNode st members.1 learners.1 members.2
  else do
    let n ← installNode st strConfig learners.1 current
    let n ← storeLearners n
    storeMembers n

/-- The node of a learner, with its id behind those of the members. -/
def installLearner (st : Stored) (strMember : List Char) (strLearners : List (List Char)) :
    Option Node := do
  let config ← installConfig emptyConfiguration [strMember] 1 none
  addLearnersAndStore (updateLocalServer { bareNode st .learner newCcMgr with
    config := config
    scanIndex := st.scanIndex } fun s => { s with serverId := s.serverId + 100 }) strLearners true

/-- `Paxos::initAsLearner`. An empty `strConfig` means that the stored
member is used, which in an old format is the stored learner. -/
def initAsLearner (st : Stored) (strConfig : List Char) : Option Node :=
  if strConfig ≠ [] then (installLearner st strConfig []).bind storeLearnerNode
  else if st.memberConfigure ≠ [] then
    (stringToVector st.learnerConfigure 0).bind fun learners =>
      installLearner st st.memberConfigure learners.1
  else (installLearner st st.learnerConfigure []).bind storeLearnerNode

/-! ## What a change leaves alone -/

structure Frame (n n' : Node) : Prop where
  log : n'.log = n.log
  scanIndex : n'.scanIndex = n.scanIndex
  prepared : n'.ccMgr.prepared = n.ccMgr.prepared
  preparedIndex : n'.ccMgr.preparedIndex = n.ccMgr.preparedIndex
  needNotify : n'.ccMgr.needNotify = n.ccMgr.needNotify

variable {n n' : Node}

theorem Frame.refl (n : Node) : Frame n n := ⟨rfl, rfl, rfl, rfl, rfl⟩

structure Keeps (n n' : Node) : Prop where
  servers : n'.config.servers = n.config.servers
  serversNum : n'.config.serversNum = n.config.serversNum
  localSlot : n'.localSlot = n.localSlot
  state : n'.state = n.state
  stopped : n'.stopped = n.stopped

theorem Keeps.refl (n : Node) : Keeps n n := ⟨rfl, rfl, rfl, rfl, rfl⟩

theorem Keeps.trans {n'' : Node} (h : Keeps n n') (h' : Keeps n' n'') : Keeps n n'' :=
  ⟨h'.servers.trans h.servers, h'.serversNum.trans h.serversNum,
    h'.localSlot.trans h.localSlot, h'.state.trans h.state, h'.stopped.trans h.stopped⟩

theorem storeLearners_keeps (h : storeLearners n = some n') : Keeps n n' := by
  obtain ⟨str, -, rfl⟩ := map_eq_some_iff.mp h
  exact { Keeps.refl n with }

theorem storeMembers_keeps (h : storeMembers n = some n') : Keeps n n' := by
  obtain ⟨s, -, h⟩ := bind_eq_some_iff.mp h
  obtain ⟨str, -, h⟩ := bind_eq_some_iff.mp h
  cases h
  exact { Keeps.refl n with }

theorem storeLearnerNode_keeps (h : storeLearnerNode n = some n') : Keeps n n' := by
  obtain ⟨n1, h1, h⟩ := bind_eq_some_iff.mp h
  obtain ⟨str, -, h⟩ := bind_eq_some_iff.mp h
  cases h
  exact { storeLearners_keeps h1 with }

variable {strConfig : List (List Char)}

theorem addLearnersAndStore_keeps {replaceAll : Bool}
    (h : addLearnersAndStore n strConfig replaceAll = some n') : Keeps n n' := by
  rw [addLearnersAndStore] at h
  split at h
  · cases h
    exact Keeps.refl n
  · obtain ⟨c, hc, h⟩ := bind_eq_some_iff.mp h
    obtain ⟨learners, -, rfl⟩ := map_eq_some_iff.mp hc
    exact { storeLearners_keeps h with }

theorem delLearnersAndStore_keeps (h : delLearnersAndStore n strConfig = some n') : Keeps n n' :=
  { storeLearners_keeps h with }

theorem replaceLearners_keeps (h : replaceLearners n strConfig = some n') : Keeps n n' :=
  { addLearnersAndStore_keeps h with }

variable {val : ConfigureChangeValue}

theorem applyAddLearners_keeps (h : applyAddLearners n val = some n') : Keeps n n' := by
  obtain ⟨s, -, h⟩ := bind_eq_some_iff.mp h
  obtain ⟨n1, h1, h⟩ := bind_eq_some_iff.mp h
  obtain ⟨n2, h2, h⟩ := bind_eq_some_iff.mp h
  have hkeeps : Keeps n n2 := by
    refine Keeps.trans ?_ (addLearnersAndStore_keeps h2)
    rw [refreshLearners] at h1
    split at h1
    · exact replaceLearners_keeps h1
    · cases h1
      exact Keeps.refl n
  split at h
  · obtain ⟨addr, -, rfl⟩ := map_eq_some_iff.mp h
    exact { hkeeps with }
  · cases h
    exact hkeeps

theorem applyDelLearners_keeps (h : applyDelLearners n val = some n') : Keeps n n' := by
  obtain ⟨n1, h1, rfl⟩ := map_eq_some_iff.mp h
  split
  · exact { delLearnersAndStore_keeps h1 with }
  · exact delLearnersAndStore_keeps h1

theorem applySyncLearnerAll_keeps (h : applySyncLearnerAll n val = some n') : Keeps n n' := by
  obtain ⟨str, -, h⟩ := bind_eq_some_iff.mp h
  split at h
  · obtain ⟨n1, h1, h⟩ := bind_eq_some_iff.mp h
    exact (replaceLearners_keeps h1).trans (storeLearners_keeps h)
  · cases h
    exact Keeps.refl n

end PolarDB.Paxos
