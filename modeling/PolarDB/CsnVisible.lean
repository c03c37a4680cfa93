import Mathlib.Algebra.Group.Int.Defs
import Mathlib.Algebra.Group.Nat.Defs
import PolarDB.CsnLog
import PolarDB.Lts

/-!
# Visibility by commit sequence number

A commit marks its transaction as committing, draws the next CSN and stamps
the entries of the transaction and its subtransactions with it, children
before parents. A snapshot is the next CSN at a moment: what was stamped with
a smaller one is visible. A check that finds the mark waits on
`CommitSeqNoLock`, which the commit holds in shared mode from the mark to the
last stamp, and looks again.

A step is one access to shared memory; what a process computes from its own
variables belongs to the access before. Transactions are named by their
top-level id. Readers take snapshots and make checks, with the session
variables `TransactionXmin` and the cached status of one transaction; a check
that is over is kept in the history. `polar_oldest_active_xid` is moved over
transactions that have ended, in any way. Transaction ids are numbers
without a bound, see `PolarDB.CsnLog`.
-/

namespace PolarDB.CsnVisible

open Csn Function

/-! ## CSN values -/

def frozenCsn : Nat := 3

def code : Entry → Nat
  | .inprogress | .subtrans _ => 0
  | .aborted => 1
  | .committing => 2
  | .frozen => frozenCsn
  | .normal csn => csn

def ofCode : Nat → Entry
  | 0 => .inprogress
  | 1 => .aborted
  | 2 => .committing
  | 3 => .frozen
  | csn => .normal csn

/-- A 64-bit number kept in an `int` and compared as a 64-bit number again. -/
def throughInt (n : Nat) : Nat := (Int.bmod n (2 ^ 32) % 2 ^ 64).toNat

def specialEntry (xid : Nat) : Entry := if xid = 0 then .aborted else .frozen

def firstNormalXid : Nat := 3

/-- How far a transaction has come. The lists are its subtransactions and
what is still to be stamped. -/
inductive TxPc where
  | none
  | running
  | assigning (xid parent : Nat)
  | latest (subxids : List Nat)
  | marking (subxids : List Nat)
  | drawing (subxids : List Nat)
  | bounding (todo : List Nat) (csn : Nat)
  | stamping (todo : List Nat) (csn : Nat)
  | releasing
  | aborting (xid : Nat) (subxids : List Nat)
  | abortStamping (xid : Nat) (todo : List Nat)
  deriving DecidableEq, Repr

def TxPc.holdsLock : TxPc → Bool
  | .latest _ | .marking _ | .drawing _ | .bounding _ _ | .stamping _ _ | .releasing => true
  | _ => false

def TxPc.isOver : TxPc → Bool
  | .none | .releasing => true
  | _ => false

/-! ## Readers -/

/-- A snapshot; `subxip` are the running transactions of an xid snapshot. -/
structure Snap where
  id : Nat
  xmin : Nat
  xmax : Nat
  csn : Nat
  xidSnapshot : Bool
  subxip : List Nat
  suboverflowed : Bool
  deriving DecidableEq, Repr

/-- `TransactionIdStatus`. -/
inductive Hint where
  | inprogress
  | committed
  | aborted
  deriving DecidableEq, Repr

/-- A check: of `CommittedXidVisibleInSnapshotCSN` if `committed` is set and of
`XidVisibleInSnapshotCSN` otherwise, with the snapshot as it is or with
`polar_csn_xid_snapshot` cleared. -/
structure Query where
  snap : Snap
  xid : Nat
  committed : Bool
  cleared : Bool
  deriving DecidableEq, Repr

def Query.byXid (q : Query) : Bool := q.snap.xidSnapshot && !q.cleared

structure Check where
  query : Query
  visible : Bool
  hint : Hint
  deriving DecidableEq, Repr

/-- How far `polar_xact_get_csn` has come: about to read the upper bound, the
commit log, the entry of an id on the way to the top (with the children seen
on the way), the entry of the last child again with what was found above it,
or about to wait for the lock. `again` is the second look after the wait. -/
inductive Fetch where
  | bound
  | clog
  | down (again : Bool) (children : List Nat) (xid : Nat)
  | up (again : Bool) (child : Nat) (children : List Nat) (found : Entry)
  | wait
  deriving DecidableEq, Repr

inductive ReaderPc where
  | idle
  | recheck (byXid : Bool) (xmin : Nat)
  | csn (byXid : Bool) (xmin : Nat)
  | xmax (byXid : Bool) (xmin csn : Nat)
  | scan (snap : Snap) (cur : Nat)
  | check (q : Query) (f : Fetch)
  | panic
  deriving DecidableEq, Repr

/-- `xmin` is `TransactionXmin` while the transaction of the reader has a
snapshot, `snaps` are its snapshots, `cache` the cached status. -/
structure Reader where
  xmin : Option Nat
  snaps : List Snap
  cache : Option (Nat × Entry)
  pc : ReaderPc
  deriving DecidableEq, Repr

/-! ## State -/

/-- `maxSubxids` is `GetMaxSnapshotSubxidCount()`, and `subtransTop` what
`SubTransGetTopmostTransaction` makes of `pg_subtrans`. -/
structure Conf where
  maxSubxids : Nat
  upperboundEnable : Bool
  subtransTop : Nat → Nat

/-- `top` and `parent` say to which transaction an id belongs and below which
id it was assigned, `drawn` the CSN a transaction has drawn. -/
structure State where
  log : Log
  upperbound : Nat → Nat
  clog : Nat → Bool
  nextXid : Nat
  nextCsn : Nat
  latestCompleted : Nat
  oldest : Nat
  top : Nat → Nat
  parent : Nat → Nat
  drawn : Nat → Option Nat
  txs : Nat → TxPc
  readers : Nat → Reader
  nextSnap : Nat
  history : List Check

def wasCommitted (committed : Nat → Bool) (x : Nat) : Bool :=
  if x < firstNormalXid then x ≠ 0 else committed x

/-- A server on which `csns` commits were made and none is running;
`committed` says which of the ids below `firstNormalXid + xids` did. -/
def State.init (xids csns : Nat) (committed : Nat → Bool) : State where
  log := fun x =>
    if x < firstNormalXid + xids then
      if wasCommitted committed x then .frozen else .aborted
    else .inprogress
  upperbound := fun _ => frozenCsn
  clog := fun x => x < firstNormalXid + xids && wasCommitted committed x
  nextXid := firstNormalXid + xids
  nextCsn := firstNormal + csns
  latestCompleted := firstNormalXid + xids - 1
  oldest := firstNormalXid + xids
  top := id
  parent := id
  drawn := fun x =>
    if x < firstNormalXid + xids ∧ wasCommitted committed x then some frozenCsn else none
  txs := fun _ => .none
  readers := fun _ => ⟨none, [], none, .idle⟩
  nextSnap := 0
  history := []

namespace State

variable (s : State)

def setTx (t : Nat) (pc : TxPc) : State := { s with txs := update s.txs t pc }

def setEntry (x : Nat) (e : Entry) : State := { s with log := update s.log x e }

def setReader (r : Nat) (k : Reader) : State :=
  { s with readers := update s.readers r k }

theorem setEntry_self {s : State} (x : Nat) (e : Entry) : (s.setEntry x e).log x = e :=
  update_self ..

theorem setEntry_of_ne {s : State} {x y : Nat} (h : y ≠ x) (e : Entry) :
    (s.setEntry x e).log y = s.log y :=
  update_of_ne h ..

def InTree (t x : Nat) : Prop := x < s.nextXid ∧ s.top x = t

instance (t x : Nat) : Decidable (s.InTree t x) := inferInstanceAs (Decidable (_ ∧ _))

/-- The subtransactions of a transaction that are not aborted, in ascending
order: `xactGetCommittedChildren` of the top-level transaction. -/
def AllSubxids (t : Nat) (subxids : List Nat) : Prop :=
  subxids.Pairwise (· < ·)
    ∧ (∀ x ∈ subxids, s.InTree t x ∧ x ≠ t ∧ (s.log x).isSubtrans)
    ∧ ∀ x < s.nextXid, s.top x = t → x = t ∨ x ∈ subxids ∨ s.log x = .aborted

instance (t : Nat) (subxids : List Nat) : Decidable (s.AllSubxids t subxids) :=
  inferInstanceAs (Decidable (_ ∧ _ ∧ _))

def SubxidsBelow (t p : Nat) (subxids : List Nat) : Prop :=
  subxids.Pairwise (· < ·)
    ∧ (∀ x ∈ subxids, s.InTree t x ∧ p < x ∧ (s.log x).isSubtrans)
    ∧ ∀ x < s.nextXid, s.top x = t ∧ (s.log x).isSubtrans ∧
      (s.parent x = p ∨ s.parent x ∈ subxids) →
      x ∈ subxids

instance (t p : Nat) (subxids : List Nat) : Decidable (s.SubxidsBelow t p subxids) :=
  inferInstanceAs (Decidable (_ ∧ _ ∧ _))

def LockFree : Prop := ∀ t < s.nextXid, (s.txs t).holdsLock = false

instance : Decidable s.LockFree := Nat.decidableBallLT s.nextXid _

end State

/-! ## Steps of a transaction -/

/-- `TransactionIdLatest`. -/
def latestOf (xid : Nat) (subxids : List Nat) : Nat := subxids.foldl max xid

def State.newXid (s : State) (t parent : Nat) (pc : TxPc) : State :=
  { s with
    nextXid := s.nextXid + 1
    log := update s.log s.nextXid .inprogress
    top := update s.top s.nextXid t
    parent := update s.parent s.nextXid parent
    txs := update s.txs t pc }

def State.startCommit (s : State) (t : Nat) (subxids : List Nat) : State :=
  { s with
    clog := fun x => s.clog x || decide (x = t ∨ x ∈ subxids)
    txs := update s.txs t (.latest subxids) }

def State.raiseUpperbound (s : State) (c : Conf) (x csn : Nat) : Nat → Nat :=
  if c.upperboundEnable then
    update s.upperbound (pageNo x) (max (s.upperbound (pageNo x)) csn)
  else s.upperbound

def txStep (c : Conf) (s : State) (t : Nat) : Option State :=
  match s.txs t with
  | .none | .running => none
  | .assigning xid parent =>
    some ({ s with log := setParent s.log xid parent }.setTx t .running)
  | .latest subxids =>
    some ({ s with latestCompleted := max s.latestCompleted (latestOf t subxids) }.setTx t
      (.marking subxids))
  | .marking subxids => some ((s.setEntry t .committing).setTx t (.drawing subxids))
  | .drawing subxids =>
    some ({ s with
      nextCsn := s.nextCsn + 1
      drawn := update s.drawn t (some s.nextCsn) }.setTx t
        (.bounding (setCsnOrder t subxids) s.nextCsn))
  | .bounding [] _ => none
  | .bounding (x :: todo) csn =>
    some ({ s with upperbound := s.raiseUpperbound c x csn }.setTx t
      (.stamping (x :: todo) csn))
  | .stamping [] _ => none
  | .stamping [x] csn => some ((s.setEntry x (.normal csn)).setTx t .releasing)
  | .stamping (x :: todo) csn =>
    some ((s.setEntry x (.normal csn)).setTx t (.bounding todo csn))
  | .releasing => some (s.setTx t .none)
  | .aborting xid subxids =>
    some ({ s with latestCompleted := max s.latestCompleted (latestOf xid subxids) }.setTx t
      (.abortStamping xid (setCsnOrder xid subxids)))
  | .abortStamping _ [] => none
  | .abortStamping xid [x] =>
    some ((s.setEntry x .aborted).setTx t (if xid = t then .none else .running))
  | .abortStamping xid (x :: todo) =>
    some ((s.setEntry x .aborted).setTx t (.abortStamping xid todo))

/-! ## Steps of a reader -/

namespace Reader

variable (k : Reader)

def addSnap (snap : Snap) : Reader := { k with snaps := snap :: k.snaps, pc := .idle }

def remember (xid : Nat) (e : Entry) : Reader :=
  if e.isCommitted ∨ e = .aborted then { k with cache := some (xid, e) } else k

end Reader

/-- `XidInMVCCSnapshotCSN`. The top-level array of an xid snapshot is empty, so
all its xids are in `subxip`. -/
def inSnapshot (c : Conf) (snap : Snap) (xid : Nat) : Bool :=
  if xid < snap.xmin then false
  else if snap.xmax ≤ xid then true
  else
    let xid := if snap.suboverflowed then c.subtransTop xid else xid
    if snap.suboverflowed && xid < snap.xmin then false
    else xid ∈ snap.subxip

def verdict (q : Query) (e : Entry) : Bool × Hint :=
  let hint : Hint := if e.isCommitted then .committed
    else if e = .aborted ∨ q.byXid then .aborted else .inprogress
  if q.byXid then (e.isCommitted, hint)
  else if q.committed then (!e.isCommitted || code e < q.snap.csn, .inprogress)
  else (e.isCommitted && code e < q.snap.csn, hint)

section

variable (s : State) (c : Conf) (r : Nat) (k : Reader) (q : Query)

def State.conclude (e : Entry) : State :=
  { s with history := ⟨q, (verdict q e).1, (verdict q e).2⟩ :: s.history }.setReader r
    { k with pc := .idle }

def State.answer (visible : Bool) : State :=
  { s with history := ⟨q, visible, .inprogress⟩ :: s.history }.setReader r { k with pc := .idle }

def fetchStart : Fetch :=
  if k.xmin.any (q.xid < ·) then .clog else .down false [] q.xid

def State.fetch : State :=
  match k.cache.filter (·.1 = q.xid) with
  | some (_, e) => s.conclude r k q e
  | none =>
    if q.xid < firstNormalXid then s.conclude r k q (specialEntry q.xid)
    else if c.upperboundEnable && q.committed && !q.byXid then
      s.setReader r { k with pc := .check q .bound }
    else s.setReader r { k with pc := .check q (fetchStart k q) }

def State.startCheck : State :=
  if q.byXid then
    let running := inSnapshot c q.snap q.xid
    if q.committed then s.answer r k q !running
    else if running then s.answer r k q false
    else s.fetch c r k q
  else if q.committed && q.xid < q.snap.xmin then s.answer r k q true
  else if q.snap.xmax ≤ q.xid then s.answer r k q false
  else s.fetch c r k q

/-- `polar_csnlog_get_csn_recursive` returns a status for a child of the last
call, or for the id that was asked for. -/
def State.found (again : Bool) (children : List Nat) (e : Entry) : State :=
  match children with
  | child :: children => s.setReader r { k with pc := .check q (.up again child children e) }
  | [] =>
    if e = .committing ∧ again = false then s.setReader r { k with pc := .check q .wait }
    else s.conclude r (k.remember q.xid e) q e

def fetchStep : Fetch → Option State
  | .bound =>
    let bound := throughInt (s.upperbound (pageNo q.xid))
    if bound < q.snap.csn then some (s.conclude r k q (ofCode bound))
    else some (s.setReader r { k with pc := .check q (fetchStart k q) })
  | .clog =>
    let e : Entry := if s.clog q.xid then .frozen else .aborted
    some (s.conclude r { k with cache := some (q.xid, e) } q e)
  | .down again children xid =>
    match s.log xid with
    | .subtrans parent =>
      some (s.setReader r { k with pc := .check q (.down again (xid :: children) parent) })
    | e => some (s.found r k q again children e)
  | .up again child children found =>
    match s.log child with
    | .subtrans _ =>
      if found = .inprogress ∨ found = .committing then
        some (s.found r k q again children found)
      else some (s.setReader r { k with pc := .panic })
    | e => some (s.found r k q again children e)
  | .wait =>
    if s.LockFree then some (s.setReader r { k with pc := .check q (.down true [] q.xid) })
    else none

end

def scanned (csn : Nat) (e : Entry) : Bool :=
  e.isActive || e.isCommitted && csn ≤ code e

def readerStep (c : Conf) (s : State) (r : Nat) : Option State :=
  let k := s.readers r
  match k.pc with
  | .idle | .panic => none
  | .recheck byXid _ =>
    some (s.setReader r { k with xmin := some s.oldest, pc := .csn byXid s.oldest })
  | .csn byXid xmin => some (s.setReader r { k with pc := .xmax byXid xmin s.nextCsn })
  | .xmax byXid xmin csn =>
    let snap : Snap := ⟨s.nextSnap, xmin, s.latestCompleted + 1, csn, byXid, [], false⟩
    let s := { s with nextSnap := s.nextSnap + 1 }
    if byXid ∧ xmin < snap.xmax then some (s.setReader r { k with pc := .scan snap xmin })
    else some (s.setReader r (k.addSnap snap))
  | .scan snap cur =>
    if scanned snap.csn (s.log cur) then
      if snap.subxip.length = c.maxSubxids then
        some (s.setReader r (k.addSnap { snap with suboverflowed := true }))
      else
        let snap := { snap with subxip := snap.subxip ++ [cur] }
        some (s.setReader r
          (if cur + 1 < snap.xmax then { k with pc := .scan snap (cur + 1) } else k.addSnap snap))
    else some (s.setReader r
      (if cur + 1 < snap.xmax then { k with pc := .scan snap (cur + 1) } else k.addSnap snap))
  | .check q f => fetchStep s r k q f

/-! ## The system -/

inductive Action where
  | begin
  | assignSub (t parent : Nat)
  | commit (t : Nat) (subxids : List Nat)
  | abort (t : Nat) (subxids : List Nat)
  | abortSub (t xid : Nat) (subxids : List Nat)
  | tx (t : Nat)
  | advance (xid : Nat)
  | snapshot (r : Nat) (byXid : Bool)
  | check (r : Nat) (q : Query)
  | endXact (r : Nat)
  | reader (r : Nat)
  deriving DecidableEq, Repr

def step (c : Conf) (s : State) : Action → Option State
  | .begin => some (s.newXid s.nextXid s.nextXid .running)
  | .assignSub t parent =>
    if s.txs t = .running ∧ s.InTree t parent
        ∧ (s.log parent = .inprogress ∨ (s.log parent).isSubtrans) then
      some (s.newXid t parent (.assigning s.nextXid parent))
    else none
  | .commit t subxids =>
    if s.txs t = .running ∧ s.AllSubxids t subxids then some (s.startCommit t subxids) else none
  | .abort t subxids =>
    if s.txs t = .running ∧ s.AllSubxids t subxids then some (s.setTx t (.aborting t subxids))
    else none
  | .abortSub t xid subxids =>
    if s.txs t = .running ∧ s.InTree t xid ∧ xid ≠ t ∧ (s.log xid).isSubtrans
        ∧ s.SubxidsBelow t xid subxids then
      some (s.setTx t (.aborting xid subxids))
    else none
  | .tx t => txStep c s t
  | .advance xid =>
    if s.oldest ≤ xid ∧ xid ≤ s.nextXid ∧ ∀ x < xid, (s.txs (s.top x)).isOver then
      some { s with oldest := xid }
    else none
  | .snapshot r byXid =>
    let k := s.readers r
    if k.pc = .idle then
      match k.xmin with
      | none => some (s.setReader r { k with xmin := some s.oldest, pc := .recheck byXid s.oldest })
      | some _ => some (s.setReader r { k with pc := .csn byXid s.oldest })
    else none
  | .check r q =>
    let k := s.readers r
    if k.pc = .idle ∧ q.snap ∈ k.snaps ∧ (q.committed → (s.log q.xid).isCommitted) then
      some (s.startCheck c r k q)
    else none
  | .endXact r =>
    let k := s.readers r
    if k.pc = .idle then some (s.setReader r { k with xmin := none, snaps := [] }) else none
  | .reader r => readerStep c s r

end PolarDB.CsnVisible
