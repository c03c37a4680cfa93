import Mathlib.Data.List.DropRight
import Mathlib.Data.List.Sort
import Mathlib.Data.Nat.Digits.Defs
import PolarDB.Basic

/-!
# The X-Paxos configuration

Members and learners of a cluster (`configuration.cc`). A vector of
server pointers is a list of `Option Server`; a freed slot is `none` and
keeps its place, so that the slot number and the server's id agree.
Strings are lists of characters.

The configuration is stored as text: members as `addr#wF`, learners as
`addr$xy`, with `;` between them and, behind the members, `@` and the
place of the local server. Numbers are stored as one character `'0' + n`,
also for `n` above nine.

An exception or a failed `assert` is `none`. Timers and connections of
the servers are left out.
-/

namespace PolarDB.Paxos

/-- `Server`. `matchIndex` is what `getMatchIndex` returns: the
`matchIndex` of a remote server, the `lastSyncedIndex` of the local
one. -/
structure Server where
  serverId : Nat
  strAddr : List Char
  forceSync : Bool
  electionWeight : Nat
  learnerSource : Nat
  sendByAppliedIndex : Bool
  matchIndex : Nat
  deriving DecidableEq, Repr

def newServer (serverId : Nat) : Server := ⟨serverId, [], false, 5, 0, false, 0⟩

structure StableConfiguration where
  serversNum : Nat
  servers : List (Option Server)
  learners : List (Option Server)
  deriving DecidableEq, Repr

def getServerNum (c : StableConfiguration) : Nat := c.servers.countP Option.isSome

def getServerNumLockFree (c : StableConfiguration) : Nat := c.serversNum

/-! ## Text -/

def charOf (n : Nat) : Char := Char.ofNat ((n + 48) % 256)

/-- `c - '0'`, as an unsigned number below `m`. -/
def digitOf (c : Char) (m : Nat) : Nat :=
  let v : Int := if c.toNat < 128 then c.toNat else (c.toNat : Int) - 256
  ((v - 48) % m).toNat

def uint32Size : Nat := 4294967296

def uint64Size : Nat := 18446744073709551616

def memberToString (s : Server) : List Char :=
  s.strAddr ++ ['#', charOf s.electionWeight, if s.forceSync then 'F' else 'N']

def learnerToString (s : Server) : List Char :=
  s.strAddr ++ ['$', charOf (s.learnerSource / 10), charOf (s.learnerSource % 10)]

def slotToString (member : Bool) : Option Server → List Char
  | some s => if member then memberToString s else learnerToString s
  | none => ['0']

/-- The `localIndex` of `configToString`: the last slot with the local
address, counted from `i`. -/
def findLocalIndex (localAddr : List Char) : Nat → List (Option Server) → Nat → Nat
  | _, [], localIndex => localIndex
  | i, some s :: servers, localIndex =>
    findLocalIndex localAddr (i + 1) servers (if s.strAddr = localAddr then i else localIndex)
  | i, none :: servers, localIndex => findLocalIndex localAddr (i + 1) servers localIndex

def decimal (n : Nat) : List Char := if n = 0 then ['0'] else (Nat.digits 10 n).reverse.map charOf

def configToString (servers : List (Option Server)) (localAddr : List Char) (forceMember : Bool) :
    Option (List Char) :=
  let member := localAddr ≠ [] || forceMember
  let body := (servers.map (slotToString member)).intersperse [';'] |>.flatten
  if servers = [] then some []
  else if localAddr ≠ [] then
    let localIndex := findLocalIndex localAddr 1 servers 0
    if localIndex = 0 then none else some (body ++ '@' :: decimal localIndex)
  else some body

/-- `membersToString(localAddr)`. -/
def membersToStringAt (servers : List (Option Server)) (localAddr : List Char) :
    Option (List Char) :=
  configToString servers localAddr false

def membersToString (servers : List (Option Server)) : Option (List Char) :=
  configToString servers [] true

def learnersToString (learners : List (Option Server)) : Option (List Char) :=
  configToString learners [] false

def initServerFromString (s : Server) (str : List Char) (isLearner : Bool) : Option Server :=
  if str.length < 3 then none
  else if str[str.length - 3]? = some '#' then do
    let sync ← str[str.length - 1]?
    let weight ← str[str.length - 2]?
    some { s with
      forceSync := sync = 'S'
      electionWeight := digitOf weight uint32Size
      strAddr := str.take (str.length - 3) }
  else if '$' ∈ str then do
    let pos := str.idxOf '$'
    let tens ← str[pos + 1]?
    let ones ← str[pos + 2]?
    some { s with
      learnerSource := (digitOf tens uint64Size * 10 + digitOf ones uint64Size) % uint64Size
      forceSync := false
      electionWeight := 5
      strAddr := str.take pos }
  else
    some { s with
      forceSync := false
      electionWeight := if isLearner then 0 else 5
      strAddr := str }

def initServerDefault (s : Server) : Server := { s with forceSync := false, electionWeight := 5 }

def find (str : List Char) (c : Char) (start : Nat) : Option Nat :=
  ((str.drop start).idxOf? c).map (start + ·)

def substr (str : List Char) (start n : Nat) : List Char := (str.drop start).take n

/-- The separator that ends the piece at `start`. A `;` behind a `$` is a
learner source of 11x. -/
def findEnd (str : List Char) (start : Nat) : Option Nat :=
  (find str ';' start).bind fun stop =>
    if 1 < stop ∧ str[stop - 1]? = some '$' then find str ';' (stop + 1) else some stop

/-- The loop of `stringToVector`, with `fuel` turns left: the pieces that
end in a separator and the start of the last one. -/
def splitLoop (str : List Char) : Nat → Nat → List (List Char) × Nat
  | 0, start => ([], start)
  | fuel + 1, start =>
    match findEnd str start with
    | none => ([], start)
    | some stop =>
      let r := splitLoop str fuel (stop + 1)
      (substr str start (stop - start) :: r.1, r.2)

/-- `std::stoull` on text without blanks or a sign. -/
def stoull (str : List Char) : Option Nat :=
  let digits := str.takeWhile Char.isDigit
  if digits = [] then none
  else
    let n := Nat.ofDigits 10 (digits.reverse.map fun c => c.toNat - 48)
    if n < uint64Size then some n else none

def stringToVector (str : List Char) (currentIndex : Nat) : Option (List (List Char) × Nat) :=
  let (pieces, start) := splitLoop str (str.length + 1) 0
  match find str '@' start with
  | none =>
    if str.length ≠ 0 then some (pieces ++ [str.drop start], currentIndex)
    else some (pieces, currentIndex)
  | some stop =>
    if 1 < stop ∧ str[stop - 1]? = some '$' then
      some (pieces ++ [substr str start (stop - start)], currentIndex)
    else
      (stoull (str.drop (stop + 1))).map fun n =>
        (pieces ++ [substr str start (stop - start)], n)

/-! ## Slots -/

def takeOut (p : Server → Bool) : List (Option Server) → Option (Server × List (Option Server))
  | [] => none
  | some s :: l =>
    if p s then some (s, none :: l) else (takeOut p l).map fun r => (r.1, some s :: r.2)
  | none :: l => (takeOut p l).map fun r => (r.1, none :: r.2)

/-- The first free slot, or a new one. `place` makes the server from its
id; `id` is the id of the slot before. -/
def fillSlot (place : Nat → Server) : Nat → List (Option Server) → List (Option Server)
  | id, [] => [some (place (id + 1))]
  | id, none :: l => some (place (id + 1)) :: l
  | id, some s :: l => some s :: fillSlot place (id + 1) l

def addServer (servers : List (Option Server)) (place : Nat → Server) (useAppend : Bool) :
    List (Option Server) :=
  if useAppend then servers ++ [some (place (servers.length + 1))] else fillSlot place 0 servers

def recycle (l : List (Option Server)) : List (Option Server) := l.rdropWhile Option.isNone

def getServer (c : StableConfiguration) (serverId : Nat) : Option Server :=
  if serverId = 0 then none
  else if serverId < 100 then (c.servers[serverId - 1]?).join
  else c.learners.reduceOption.find? (·.serverId = serverId)

def updateServer (c : StableConfiguration) (serverId : Nat) (f : Server → Server) :
    StableConfiguration :=
  if serverId = 0 then c
  else if serverId < 100 then { c with servers := c.servers.modify (serverId - 1) (Option.map f) }
  else
    { c with
      learners := c.learners.modify
        (c.learners.findIdx fun s => s.any (·.serverId = serverId)) (Option.map f) }

def getAddr (addr : List Char) : List Char :=
  if '$' ∈ addr then addr.take (addr.idxOf '$') else addr.take (addr.idxOf '#')

def isServerInVector (server : List Char) (strConfig : List (List Char)) : Bool :=
  strConfig.any fun str => getAddr server = getAddr str

/-! ## Operations -/

def installServers (current : Nat) (localServer : Option Server) :
    Nat → List (List Char) → Option (List (Option Server))
  | _, [] => some []
  | i, str :: strs =>
    if str = ['0'] then (installServers current localServer (i + 1) strs).map (none :: ·)
    else do
      let s ← initServerFromString
        (if i ≠ current then newServer i
          else { localServer.getD (newServer i) with serverId := i }) str false
      let rest ← installServers current localServer (i + 1) strs
      some (some s :: rest)

variable (c : StableConfiguration)

def installConfig (strConfig : List (List Char)) (current : Nat)
    (localServer : Option Server) : Option StableConfiguration :=
  (installServers current localServer 1 strConfig).map fun servers =>
    { c with
      servers := servers
      serversNum := c.serversNum + servers.countP Option.isSome }

def addMember (strAddr : List Char) : StableConfiguration × Bool :=
  match takeOut (·.strAddr = strAddr) c.learners with
  | none => (c, false)
  | some (s, learners) =>
    ({ serversNum := c.serversNum + 1
       servers := addServer c.servers (fun id => initServerDefault { s with serverId := id }) false
       learners := recycle learners }, true)

/-- `delMember`, with its result. The loop that recycles slots reads
before the vector if no server is left. -/
def delMember (strAddr : List Char) : Option (StableConfiguration × Bool) :=
  match takeOut (·.strAddr = strAddr) c.servers with
  | none => some (c, false)
  | some (s, servers) =>
    let c := { c with serversNum := c.serversNum - 1 }
    if s.serverId = servers.length then
      if recycle servers = [] then none
      else some ({ c with servers := recycle servers }, true)
    else some ({ c with servers := servers }, true)

def configureLearner (serverId source : Nat) : StableConfiguration :=
  updateServer c serverId fun s => { s with learnerSource := source }

def configureMember (serverId : Nat) (forceSync : Bool)
    (electionWeight : Nat) : StableConfiguration :=
  updateServer c serverId fun s =>
    { s with forceSync := forceSync, electionWeight := electionWeight }

def addLearnersLoop (replaceAll : Bool) :
    Nat → List (List Char) → List (Option Server) → Option (List (Option Server))
  | _, [], learners => some learners
  | i, str :: strs, learners =>
    if str = ['0'] then
      if i ≤ learners.length then
        addLearnersLoop replaceAll (i + 1) strs (learners.set (i - 1) none)
      else if learners.length = i - 1 then
        addLearnersLoop replaceAll (i + 1) strs (learners ++ [none])
      else none
    else
      (initServerFromString (newServer 0) str false).bind fun s =>
        addLearnersLoop replaceAll (i + 1) strs
          (addServer learners (fun id => { s with serverId := id + 99 }) replaceAll)

def addLearners (strConfig : List (List Char)) (replaceAll : Bool) : Option StableConfiguration :=
  (addLearnersLoop replaceAll 1 strConfig c.learners).map fun learners =>
    { c with learners := learners }

def delLearners (strConfig : List (List Char)) : StableConfiguration :=
  { c with
    learners := recycle <| strConfig.foldl (fun learners str =>
      ((takeOut (·.strAddr = str) learners).map Prod.snd).getD learners) c.learners }

def delAllLearners : StableConfiguration := { c with learners := [] }

def delAllRemoteServer (localStrAddr : List Char) : Option StableConfiguration :=
  let servers := c.servers.map fun s => s.filter (·.strAddr = localStrAddr)
  let serversNum := c.serversNum - (c.servers.countP Option.isSome - servers.countP Option.isSome)
  if serversNum ≠ 1 then none
  else if recycle servers = [] ∧ servers ≠ [] then none
  else some { c with servers := recycle servers, serversNum := serversNum }

def presentServers : List Server := c.servers.reduceOption

/-- `quorumMin`: the middle one of the sorted values. Without a server
`at` throws. -/
def quorumMin (getValue : Server → Nat) : Option Nat :=
  if c.servers = [] then some 0
  else
    let values := ((presentServers c).map getValue).insertionSort (· ≤ ·)
    values[(values.length - 1) / 2]?

/-- `forceMin`: `UINT64_MAX` without a force sync server. -/
def forceMin (getValue : Server → Nat) : Nat :=
  if c.servers = [] then 0
  else
    (presentServers c).foldl
      (fun value s => if s.forceSync ∧ getValue s < value then getValue s else value) uint64Max

end PolarDB.Paxos
