import PolarDB.CsnLog
import PolarDB.Lts

/-!
# The oldest active transaction

`polar_oldest_active_xid` is kept without a lock. A transaction that has
ended looks whether it was the oldest one; only then it scans the log for the
next entry that has not ended and moves the value there with a compare and
swap. The one it found may have ended in between, and saw then that it was
not the oldest; so the scan is repeated from there until nothing changes.

A step of the model is one access to shared memory. A transaction is named by
its top-level id and stands for the process that runs it, from the moment the
id is assigned until the call of `AdvanceOldestActiveXidCSN` is over; a
prepared one is finished by whatever process. A restart keeps the prepared
transactions and sets up the log and the value anew. Transaction ids are
numbers without a bound, see `PolarDB.CsnLog`.
-/

namespace PolarDB.CsnOldest

open Csn Function

/-! ## Processes -/

/-- How far `AdvanceOldestActiveXidCSN` has come: about to read the value, to
read `nextXid` and scan from `xid`, to read the entry of `xid`, or to swap. -/
inductive Call where
  | read
  | next (oldValue xid : Nat)
  | scan (oldValue xid endXid : Nat)
  | swap (oldValue xid : Nat)
  deriving DecidableEq, Repr

/-- How far a transaction has come. `todo` are the entries still to be
stamped, the one of the transaction itself last. -/
inductive Pc where
  | none
  | running
  | assigning (xid parent : Nat)
  | prepared (subxids : List Nat)
  | committing (subxids : List Nat)
  | drawing (subxids : List Nat)
  | stamping (todo : List Nat) (csn : Entry)
  | ended
  | call (c : Call)
  deriving DecidableEq, Repr

def Pc.isLive : Pc → Bool
  | .none | .ended | .call _ => false
  | _ => true

def Pc.isCall : Pc → Bool
  | .call _ => true
  | _ => false

def Pc.recorded : Pc → List Nat
  | .prepared subxids => subxids
  | _ => []

def Pc.isPrepared : Pc → Bool
  | .prepared _ => true
  | _ => false

/-- `top` says for each id which transaction it belongs to. -/
structure State where
  log : Log
  nextXid : Nat
  nextCsn : Nat
  oldest : Nat
  top : Nat → Nat
  procs : Nat → Pc

def State.init (xid : Nat) : State where
  log := fun _ => .inprogress
  nextXid := xid
  nextCsn := firstNormal
  oldest := xid
  top := id
  procs := fun _ => .none

namespace State

variable (s : State)

def setPc (t : Nat) (pc : Pc) : State := { s with procs := update s.procs t pc }

def setEntry (xid : Nat) (e : Entry) : State := { s with log := update s.log xid e }

def newXid (t : Nat) (pc : Pc) : State :=
  { s with
    nextXid := s.nextXid + 1
    log := update s.log s.nextXid .inprogress
    top := update s.top s.nextXid t
    procs := update s.procs t pc }

def Subxids (t : Nat) (subxids : List Nat) : Prop :=
  subxids.Pairwise (· < ·) ∧ ∀ x ∈ subxids, x < s.nextXid ∧ s.top x = t ∧ x ≠ t

instance (t : Nat) (subxids : List Nat) : Decidable (s.Subxids t subxids) :=
  inferInstanceAs (Decidable (_ ∧ _))

/-! ## Restart -/

def oldestPrepared (next : Nat) : Nat :=
  ((List.range next).find? fun t => (s.procs t).isPrepared).getD next

def Recorded (x : Nat) : Prop := x ∈ (s.procs (s.top x)).recorded

instance (x : Nat) : Decidable (s.Recorded x) := inferInstanceAs (Decidable (_ ∈ _))

/-- The log after `polar_csnlog_startup`, which freezes what the commit log
says was committed, and `RecoverPreparedTransactions`, which sets the parents
of the subtransactions in the state files. -/
def restartLog (next : Nat) (committed : List Nat) : Log := fun x =>
  if s.oldestPrepared next ≤ x ∧ x < next then
    if x ∈ committed then .frozen
    else if s.Recorded x then .subtrans (s.top x)
    else .inprogress
  else .inprogress

/-- A restart: `next` is the next id after the replay of the log, and
`committed` are the ids the commit log has as committed. -/
def restart (next : Nat) (committed : List Nat) : State where
  log := s.restartLog next committed
  nextXid := next
  nextCsn := firstNormal
  oldest := s.oldestPrepared next
  top := s.top
  procs := fun t => if (s.procs t).isPrepared then s.procs t else .none

def CanRestart (next : Nat) (committed : List Nat) : Prop :=
  ∀ t < s.nextXid, (s.procs t).isPrepared →
    t < next ∧ t ∉ committed ∧ ∀ x ∈ (s.procs t).recorded, x < next

instance (next : Nat) (committed : List Nat) : Decidable (s.CanRestart next committed) :=
  Nat.decidableBallLT s.nextXid _

end State

/-! ## Steps -/

inductive Action where
  | begin
  | assignSub (t parent : Nat)
  | abortSub (t x : Nat)
  | prepare (t : Nat) (subxids : List Nat)
  | commit (t : Nat) (subxids : List Nat)
  | abort (t : Nat) (subxids : List Nat)
  | proc (t : Nat)
  | restart (next : Nat) (committed : List Nat)
  deriving DecidableEq, Repr

/-- The transaction may be ended: `COMMIT PREPARED` and `ROLLBACK PREPARED`
end it with the subtransactions in its state file. -/
def Pc.canEnd (pc : Pc) (subxids : List Nat) : Bool :=
  match pc with
  | .running => true
  | .prepared recorded => recorded = subxids
  | _ => false

def callStep (s : State) (t : Nat) : Call → State
  | .read =>
    s.setPc t (if t = s.oldest then .call (.next t (t + 1)) else .none)
  | .next oldValue xid =>
    s.setPc t (if xid < s.nextXid then .call (.scan oldValue xid s.nextXid)
      else if xid = oldValue then .none else .call (.swap oldValue xid))
  | .scan oldValue xid endXid =>
    s.setPc t (if (s.log xid).isActive then
        (if xid = oldValue then .none else .call (.swap oldValue xid))
      else if xid + 1 < endXid then .call (.scan oldValue (xid + 1) endXid)
      else .call (.swap oldValue (xid + 1)))
  | .swap oldValue xid =>
    if s.oldest = oldValue then
      { s with oldest := xid }.setPc t (.call (.next xid xid))
    else s.setPc t .none

def procStep (s : State) (t : Nat) : Option State :=
  match s.procs t with
  | .none | .running | .prepared _ => none
  | .assigning xid parent =>
    some ({ s with log := setParent s.log xid parent }.setPc t .running)
  | .committing subxids =>
    some ((s.setEntry t .committing).setPc t (.drawing subxids))
  | .drawing subxids =>
    some ({ s with nextCsn := s.nextCsn + 1 }.setPc t
      (.stamping (setCsnOrder t subxids) (.normal s.nextCsn)))
  | .stamping [] _ => none
  | .stamping [x] csn => some ((s.setEntry x csn).setPc t .ended)
  | .stamping (x :: todo) csn => some ((s.setEntry x csn).setPc t (.stamping todo csn))
  | .ended => some (s.setPc t (.call .read))
  | .call c => some (callStep s t c)

def step (s : State) : Action → Option State
  | .begin => some (s.newXid s.nextXid .running)
  | .assignSub t parent =>
    if s.procs t = .running ∧ parent < s.nextXid ∧ s.top parent = t then
      some (s.newXid t (.assigning s.nextXid parent))
    else none
  | .abortSub t x =>
    if s.procs t = .running ∧ x < s.nextXid ∧ s.top x = t ∧ x ≠ t then
      some (s.setEntry x .aborted)
    else none
  | .prepare t subxids =>
    if s.procs t = .running ∧ s.Subxids t subxids then some (s.setPc t (.prepared subxids))
    else none
  | .commit t subxids =>
    if (s.procs t).canEnd subxids ∧ s.Subxids t subxids then
      some (s.setPc t (.committing subxids))
    else none
  | .abort t subxids =>
    if (s.procs t).canEnd subxids ∧ s.Subxids t subxids then
      some (s.setPc t (.stamping (setCsnOrder t subxids) .aborted))
    else none
  | .proc t => procStep s t
  | .restart next committed =>
    if s.CanRestart next committed then some (s.restart next committed) else none

end PolarDB.CsnOldest
