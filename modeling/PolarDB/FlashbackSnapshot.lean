import Mathlib.Data.List.InsertIdx
import PolarDB.TransactionId

/-!
# Snapshots replayed from the WAL

A flashback table takes the snapshot stored with a flashback point and
replays the WAL on it up to the wanted time: `polar_flashback_xact_redo`
takes completed transactions out of the running ones and raises the next
transaction id.

The running transactions are the cells of `xip`, in the order of their
ids. A completed one stays in its cell; its position is kept in
`removedXidPos`, and the cells are compacted when 128 positions have come
together. Memory behind the cells in use holds anything: the contents of
freshly allocated memory are the argument `junk`.
-/

namespace PolarDB.FlashbackSnapshot

def maxKeepRemovedXids : Nat := 128

def enlargeXipSizeOnce : Nat := 256

/-- `flashback_rel_snapshot_t` with the fields of its snapshot. The length
of `removedXidPos` is `removed_size`. -/
structure RelSnapshot where
  xmin : Nat
  xmax : Nat
  xcnt : Nat
  xip : Nat → Nat
  removedXidPos : List Nat
  xipSize : Nat
  enlarged : Nat
  nextClogSubdirNo : Nat
  nextXid : Nat

def RelSnapshot.used (rs : RelSnapshot) : Nat := rs.xcnt + rs.removedXidPos.length

/-! ## Searching -/

def flashbackXidComparator (xid1 xid2 : Nat) : Ordering :=
  if xid1 = xid2 then .eq else if transactionIdPrecedes xid1 xid2 then .lt else .gt

def bsearchLoop (xid : Nat) (xip : Nat → Nat) (start : Nat) : Nat → Nat → Nat → Option Nat
  | 0, _, _ => none
  | fuel + 1, l, u =>
    if l < u then
      let idx := (l + u) / 2
      match flashbackXidComparator xid (xip (start + idx)) with
      | .lt => bsearchLoop xid xip start fuel l idx
      | .gt => bsearchLoop xid xip start fuel (idx + 1) u
      | .eq => some (start + idx)
    else none

def bsearch (xid : Nat) (xip : Nat → Nat) (start n : Nat) : Option Nat :=
  bsearchLoop xid xip start n 0 n

/-- The loop of `bsearch_xip` over the removed positions from number
`removedPos` on; the cells before `start` are searched. -/
def bsearchXipLoop (xid : Nat) (xip : Nat → Nat) (used : Nat) :
    List Nat → Nat → Nat → Option Nat × Nat
  | [], removedPos, start => (bsearch xid xip start (used - start), removedPos)
  | last :: rest, removedPos, start =>
    if last = 0 then bsearchXipLoop xid xip used rest (removedPos + 1) start
    else if transactionIdPrecedes xid (xip last) then
      (bsearch xid xip start (last - start), removedPos)
    else bsearchXipLoop xid xip used rest (removedPos + 1) last

/-- `bsearch_xip`: the position of `xid`, and where that position belongs
among the removed ones. -/
def bsearchXip (rs : RelSnapshot) (xid : Nat) : Option Nat × Nat :=
  bsearchXipLoop xid rs.xip rs.used rs.removedXidPos 0 0

/-- The loop of `get_next_valid_xid` from cell `i` on: the id found, its
position and the removed position before it. -/
def nextValidLoop (xip : Nat → Nat) (removedXidPos : List Nat) :
    Nat → Nat → Nat → Nat → Nat × Nat × Nat
  | 0, _, xipPos, removedPos => (invalidTransactionId, xipPos, removedPos)
  | fuel + 1, i, xipPos, removedPos =>
    if removedXidPos[removedPos + 1]? = some i then
      nextValidLoop xip removedXidPos fuel (i + 1) xipPos (removedPos + 1)
    else (xip i, i, removedPos)

def getNextValidXid (xip : Nat → Nat) (xipPos xcnt : Nat) (removedXidPos : List Nat)
    (removedPos : Nat) : Nat × Nat × Nat :=
  nextValidLoop xip removedXidPos (xcnt + removedXidPos.length - (xipPos + 1)) (xipPos + 1)
    xipPos removedPos

def compactLoop (xcnt : Nat) (removedXidPos : List Nat) :
    Nat → (Nat → Nat) → Nat → Nat → Nat → Nat → Nat
  | 0, xip, _, _, _ => xip
  | n + 1, xip, newPos, oldPos, i =>
    let next := getNextValidXid xip oldPos xcnt removedXidPos i
    compactLoop xcnt removedXidPos n (Function.update xip newPos next.1) (newPos + 1)
      next.2.1 next.2.2

def compactRemovedXids (rs : RelSnapshot) : RelSnapshot :=
  match rs.removedXidPos with
  | [] => rs
  | first :: _ =>
    { rs with
      xip := compactLoop rs.xcnt rs.removedXidPos (rs.xcnt - first) rs.xip first first 0
      removedXidPos := [] }

def compactXip (rs : RelSnapshot) : RelSnapshot :=
  if rs.xcnt = 0 then rs else compactRemovedXids rs

/-! ## Updating -/

def compactIfFull (rs : RelSnapshot) : RelSnapshot :=
  if rs.removedXidPos.length = maxKeepRemovedXids then compactRemovedXids rs else rs

def removeFound (rs : RelSnapshot) (xid : Nat) : RelSnapshot :=
  match bsearchXip rs xid with
  | (none, _) => rs
  | (some xipPos, removedPos) =>
    let removedXidPos := rs.removedXidPos.insertIdx removedPos xipPos
    let rs' := { rs with xcnt := rs.xcnt - 1, removedXidPos := removedXidPos }
    if xid = rs.xmin then
      -- the count before the removal, the positions after it
      let nextXid := (getNextValidXid rs.xip xipPos rs.xcnt removedXidPos removedPos).1
      { rs' with xmin := if nextXid ≠ invalidTransactionId then nextXid else rs.xmax }
    else rs'

def removeXidFromRunningXids (rs : RelSnapshot) (xid : Nat) : RelSnapshot :=
  if transactionIdPrecedes xid rs.xmin then rs else removeFound (compactIfFull rs) xid

def fillLoop : Nat → (Nat → Nat) → Nat → Nat → Nat → Nat
  | 0, xip, _, _ => xip
  | n + 1, xip, pos, tmp =>
    fillLoop n (Function.update xip pos tmp) (pos + 1) (transactionIdAdvance tmp)

def insertCnt (xid xmax : Nat) : Nat :=
  xidDiff xid xmax - if xid < xmax then firstNormalTransactionId else 0

def insertXidIntoRunningXids (junk : Nat → Nat → Nat) (rs : RelSnapshot) (xid : Nat) :
    RelSnapshot :=
  let cnt := insertCnt xid rs.xmax
  if cnt = 0 then rs
  else
    let size := if rs.xipSize = 0 then rs.xcnt else rs.xipSize
    let rs := if size < rs.used + cnt then
        { rs with
          xip := fun i => if i < rs.used then rs.xip i else junk rs.enlarged i
          xipSize := rs.used + cnt + enlargeXipSizeOnce
          enlarged := rs.enlarged + 1 }
      else { rs with xipSize := size }
    { rs with
      xcnt := rs.xcnt + cnt
      xip := fillLoop cnt rs.xip rs.used rs.xmax }

def updateFlashbackSnapshot (junk : Nat → Nat → Nat) (rs : RelSnapshot) (xid : Nat) :
    RelSnapshot :=
  if transactionIdPrecedes xid rs.xmax then removeXidFromRunningXids rs xid
  else { insertXidIntoRunningXids junk rs xid with xmax := transactionIdAdvance xid }

def xidInFlashbackSnapshot (rs : RelSnapshot) (xid : Nat) : Bool :=
  if transactionIdPrecedes xid rs.xmin then false
  else if transactionIdFollowsOrEquals xid rs.xmax then true
  else (bsearch xid rs.xip 0 rs.xcnt).isSome

/-! ## Transaction records -/

def rmXactId : Nat := 1

def xlogXactOpmask : Nat := 0x70

def xlogXactHasInfo : Nat := 0x80

def xactXinfoHasSubxacts : Nat := 2

def xactXinfoHasTwophase : Nat := 16

inductive XactOp where
  | commit
  | abort
  | commitPrepared
  | abortPrepared
  | other
  deriving DecidableEq, Repr

def XactOp.ofInfo (info : Nat) : XactOp :=
  if info = 0x00 then .commit
  else if info = 0x20 then .abort
  else if info = 0x30 then .commitPrepared
  else if info = 0x40 then .abortPrepared
  else .other

structure XactBody where
  xactTime : Int
  xinfo : Nat
  subxacts : List Nat
  twophaseXid : Nat
  deriving DecidableEq, Repr

structure WalRecord where
  xlXid : Nat
  xlRmid : Nat
  xlInfo : Nat
  body : XactBody
  deriving DecidableEq, Repr

structure ParsedXact where
  subxacts : List Nat
  twophaseXid : Nat

/-- `ParseCommitRecord` and `ParseAbortRecord`: what follows the time is
there only with its flag, and the flags only with `XLOG_XACT_HAS_INFO`. -/
def parseXactRecord (info : Nat) (body : XactBody) : ParsedXact :=
  let xinfo := if info &&& xlogXactHasInfo ≠ 0 then body.xinfo else 0
  { subxacts := if xinfo &&& xactXinfoHasSubxacts ≠ 0 then body.subxacts else []
    twophaseXid := if xinfo &&& xactXinfoHasTwophase ≠ 0 then body.twophaseXid
      else invalidTransactionId }

def WalRecord.op (r : WalRecord) : XactOp :=
  if r.xlRmid = rmXactId then .ofInfo (r.xlInfo &&& xlogXactOpmask) else .other

def WalRecord.completedXids (r : WalRecord) : List Nat :=
  let parsed := parseXactRecord r.xlInfo r.body
  match r.op with
  | .commit | .abort => r.xlXid :: parsed.subxacts
  | .commitPrepared | .abortPrepared => parsed.twophaseXid :: parsed.subxacts
  | .other => []

def updateNextXid (rs : RelSnapshot) (xid : Nat) : RelSnapshot :=
  if xid ≠ invalidTransactionId ∧ rs.nextXid = xid then
    { rs with
      nextXid := transactionIdAdvance rs.nextXid
      nextClogSubdirNo :=
        if xid = firstNormalTransactionId then rs.nextClogSubdirNo + 1 else rs.nextClogSubdirNo }
  else rs

/-- `polar_flashback_xact_redo`: the snapshot, and whether the end time is
reached. -/
def flashbackXactRedo (junk : Nat → Nat → Nat) (endTime : Int) (rs : RelSnapshot)
    (r : WalRecord) : RelSnapshot × Bool :=
  if r.op = .other then (updateNextXid rs r.xlXid, false)
  else if endTime < r.body.xactTime then (rs, true)
  else
    let parsed := parseXactRecord (r.xlInfo &&& xlogXactOpmask) r.body
    let rs := (r.xlXid :: parsed.subxacts).foldl (updateFlashbackSnapshot junk) rs
    (updateNextXid rs r.xlXid, decide (r.body.xactTime = endTime))

def applyWal (junk : Nat → Nat → Nat) (endTime : Int) : RelSnapshot → List WalRecord → RelSnapshot
  | rs, [] => rs
  | rs, r :: wal =>
    match flashbackXactRedo junk endTime rs r with
    | (rs', true) => rs'
    | (rs', false) => applyWal junk endTime rs' wal

def flashbackTableApplyWal (junk : Nat → Nat → Nat) (endTime : Int) (rs : RelSnapshot)
    (wal : List WalRecord) : RelSnapshot :=
  compactXip (applyWal junk endTime rs wal)

/-- The records `applyWal` replays: those before the first transaction that
completed after the end time, and none after one that completed at it. -/
def replayed (endTime : Int) : List WalRecord → List WalRecord
  | [] => []
  | r :: wal =>
    if r.op = .other then r :: replayed endTime wal
    else if endTime < r.body.xactTime then []
    else if r.body.xactTime = endTime then [r]
    else r :: replayed endTime wal

/-- The subtransactions are behind a flag that the mask takes away. -/
theorem parseXactRecord_opmask (info : Nat) (body : XactBody) :
    (parseXactRecord (info &&& xlogXactOpmask) body).subxacts = [] := by
  have hmask : info &&& xlogXactOpmask &&& xlogXactHasInfo = 0 := by
    rw [Nat.and_assoc]
    exact Nat.and_zero info
  simp [parseXactRecord, hmask]

end PolarDB.FlashbackSnapshot
