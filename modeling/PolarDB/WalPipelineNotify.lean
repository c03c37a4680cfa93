import Mathlib.Algebra.Group.Nat.Defs
import PolarDB.Lts

/-!
# Waiting for a commit in the WAL pipeline

A backend that commits waits in `polar_wal_pipeline_commit_wait` until the
shared flush position has reached the end of its record. It spins for a while
and then waits on a condition variable; the variables are slots of a ring,
chosen by the position. The notify workers walk along the ring from the
position they notified last up to the flush position, and each of them
broadcasts on the slots it owns.

A step is one operation on a mutex or one access to the shared positions.
Waiting on the condition variable gives up the mutex of the slot and blocks in
one step. A blocked backend goes on after a broadcast, but also at any other
time, and has to take the mutex again first.
-/

namespace PolarDB.WalPipeline

open Function

/-! ## Slots -/

/-- The settings: sizes are powers of two. -/
structure Conf where
  slotSizeLog : Nat
  arraySizeLog : Nat
  notifyWorkerNum : Nat
  spinDelay : Nat

namespace Conf

variable (c : Conf)

def slotSize : Nat := 2 ^ c.slotSizeLog

def arraySize : Nat := 2 ^ c.arraySizeLog

/-- `polar_wal_pipeline_flush_event_get_slot_no`. A position is the end of a
record, so one on a boundary belongs to the slot before it. -/
def slotNo (lsn : Nat) : Nat := (lsn - 1) / c.slotSize &&& (c.arraySize - 1)

def owner (lsn : Nat) : Nat := c.slotNo lsn % c.notifyWorkerNum

def alignedEnd (endLsn : Nat) : Nat := (endLsn + c.slotSize - 1) / c.slotSize * c.slotSize

variable {c}

theorem slotSize_pos : 0 < c.slotSize := Nat.two_pow_pos _

theorem slotNo_congr {l l' : Nat} (h : (l - 1) / c.slotSize = (l' - 1) / c.slotSize) :
    c.slotNo l = c.slotNo l' := by
  rw [slotNo, slotNo, h]

theorem alignedEnd_eq {e : Nat} (he : 0 < e) :
    c.alignedEnd e = ((e - 1) / c.slotSize + 1) * c.slotSize := by
  rw [alignedEnd, show e + c.slotSize - 1 = (e - 1) + c.slotSize by omega,
    Nat.add_div_right _ slotSize_pos]

theorem alignedEnd_mono {l e : Nat} (h : l ≤ e) : c.alignedEnd l ≤ c.alignedEnd e :=
  Nat.mul_le_mul_right _ (Nat.div_le_div_right (by omega))

/-- From a start below a position, the walk in steps of the slot size meets
the position's slot before it is over. -/
theorem exists_visit {start lsn e : Nat} (hs : start < lsn) (he : lsn ≤ e) :
    ∃ k, start + k * c.slotSize ≤ c.alignedEnd e
      ∧ c.slotNo (start + k * c.slotSize) = c.slotNo lsn := by
  have hpos := c.slotSize_pos
  have hlsn : 0 < lsn := by omega
  suffices h : ∃ k, 0 < start + k * c.slotSize
      ∧ (start + k * c.slotSize - 1) / c.slotSize = (lsn - 1) / c.slotSize by
    obtain ⟨k, hk, hdiv⟩ := h
    refine ⟨k, ?_, slotNo_congr hdiv⟩
    refine Nat.le_trans ?_ (alignedEnd_mono he)
    rw [alignedEnd_eq hlsn, ← hdiv]
    have := Nat.lt_mul_div_succ (start + k * c.slotSize - 1) hpos
    rw [Nat.mul_comm c.slotSize] at this
    omega
  rcases Nat.eq_zero_or_pos start with rfl | hstart
  · refine ⟨(lsn - 1) / c.slotSize + 1, by rw [Nat.add_one_mul]; omega, ?_⟩
    rw [show 0 + ((lsn - 1) / c.slotSize + 1) * c.slotSize - 1
        = (c.slotSize - 1) + (lsn - 1) / c.slotSize * c.slotSize by rw [Nat.add_one_mul]; omega,
      Nat.add_mul_div_right _ _ hpos, Nat.div_eq_of_lt (by omega), Nat.zero_add]
  · refine ⟨(lsn - 1) / c.slotSize - (start - 1) / c.slotSize, by omega, ?_⟩
    have hle : (start - 1) / c.slotSize ≤ (lsn - 1) / c.slotSize := Nat.div_le_div_right (by omega)
    rw [Nat.sub_add_comm hstart, Nat.add_mul_div_right _ _ hpos, Nat.add_sub_cancel' hle]

/-- The walk only meets slots of positions from the start to the end. -/
theorem visit_in_range {start cur e : Nat} (hs : start ≤ cur) (hse : start < e)
    (he : cur ≤ c.alignedEnd e) :
    ∃ lsn, start ≤ lsn ∧ lsn ≤ e ∧ c.slotNo lsn = c.slotNo cur := by
  by_cases hle : cur ≤ e
  · exact ⟨cur, hs, hle, rfl⟩
  · refine ⟨e, by omega, Nat.le_refl e, slotNo_congr ?_⟩
    have hpos := c.slotSize_pos
    rw [alignedEnd_eq (by omega)] at he
    have hlow := Nat.div_le_div_right (c := c.slotSize) (show e - 1 ≤ cur - 1 by omega)
    have hhigh : (cur - 1) / c.slotSize < (e - 1) / c.slotSize + 1 :=
      (Nat.div_lt_iff_lt_mul hpos).mpr (by omega)
    omega

end Conf

/-! ## Processes -/

inductive CommitPc where
  | idle
  | request (flushLsn : Nat)
  | spin (flushLsn : Nat) (spins : Nat)
  | toLock (flushLsn : Nat)
  | locked (flushLsn : Nat)
  | blocked (flushLsn : Nat)
  | woken (flushLsn : Nat)
  | reread (flushLsn : Nat)
  deriving DecidableEq, Repr

structure Backend where
  flush : Nat
  pc : CommitPc
  deriving DecidableEq, Repr

/-- How far `polar_wal_pipeline_notify` has come: the position the walk is at,
the end of the call, and the slots it has broadcast on so far. -/
inductive NotifyPc where
  | idle
  | walk (cur endLsn : Nat) (slots : List Nat)
  | locked (cur endLsn : Nat) (slots : List Nat)
  | broadcasted (cur endLsn : Nat) (slots : List Nat)
  deriving DecidableEq, Repr

inductive Proc where
  | backend (b : Nat)
  | notifier (w : Nat)
  deriving DecidableEq, Repr

/-- `flush` is the shared `LogwrtResult.Flush`, `rqstWrite` and `rqstFlush`
the shared `LogwrtRqst`. -/
structure State where
  flush : Nat
  rqstWrite : Nat
  rqstFlush : Nat
  mutex : Nat → Option Proc
  lastNotify : Nat → Nat
  backends : Nat → Backend
  notifiers : Nat → NotifyPc

def State.init (flush : Nat) : State where
  flush := flush
  rqstWrite := flush
  rqstFlush := flush
  mutex := fun _ => none
  lastNotify := fun _ => flush
  backends := fun _ => ⟨0, .idle⟩
  notifiers := fun _ => .idle

namespace State

variable (s : State)

def setBackend (b : Nat) (k : Backend) : State :=
  { s with backends := update s.backends b k }

def setNotifier (w : Nat) (pc : NotifyPc) : State :=
  { s with notifiers := update s.notifiers w pc }

def lock (slot : Nat) (p : Proc) : Option State :=
  if s.mutex slot = none then some { s with mutex := update s.mutex slot (some p) }
  else none

def unlock (slot : Nat) : State :=
  { s with mutex := update s.mutex slot none }

end State

/-- A broadcast on a slot wakes up the backends blocked on it. -/
def Backend.wake (c : Conf) (slot : Nat) (k : Backend) : Backend :=
  match k.pc with
  | .blocked lsn => if c.slotNo lsn = slot then { k with pc := .woken lsn } else k
  | _ => k

def State.broadcast (c : Conf) (s : State) (slot : Nat) : State :=
  { s with backends := fun b => (s.backends b).wake c slot }

inductive Action where
  | flushed (lsn : Nat)
  | refresh (b : Nat)
  | commitWait (b : Nat) (flushLsn : Nat)
  | backend (b : Nat)
  | wake (b : Nat)
  | notify (w : Nat)
  | notifier (w : Nat)
  deriving DecidableEq, Repr

def commitStep (c : Conf) (s : State) (b : Nat) : Option State :=
  let k := s.backends b
  match k.pc with
  | .idle => none
  | .request lsn =>
    -- the section under info_lck
    let s := { s with rqstWrite := max s.rqstWrite lsn, rqstFlush := max s.rqstFlush lsn }
    some (s.setBackend b ⟨s.flush, if lsn ≤ s.flush then .idle else .spin lsn 0⟩)
  | .spin lsn spins =>
    if c.spinDelay ≤ spins then some (s.setBackend b { k with pc := .toLock lsn })
    else some (s.setBackend b ⟨s.flush, if lsn ≤ s.flush then .idle else .spin lsn (spins + 1)⟩)
  | .toLock lsn =>
    -- the own copy is not read again before it is compared
    (s.lock (c.slotNo lsn) (.backend b)).map fun s => s.setBackend b { k with pc := .locked lsn }
  | .locked lsn =>
    some ((s.unlock (c.slotNo lsn)).setBackend b
      { k with pc := if lsn ≤ k.flush then .idle else .blocked lsn })
  | .blocked _ => none
  | .woken lsn =>
    (s.lock (c.slotNo lsn) (.backend b)).map fun s => s.setBackend b { k with pc := .reread lsn }
  | .reread lsn => some (s.setBackend b ⟨s.flush, .locked lsn⟩)

def notifyStep (c : Conf) (s : State) (w : Nat) : Option State :=
  match s.notifiers w with
  | .idle => none
  | .walk cur endLsn slots =>
    if cur ≤ c.alignedEnd endLsn then
      if c.owner cur = w then
        (s.lock (c.slotNo cur) (.notifier w)).map fun s =>
          s.setNotifier w (.locked cur endLsn slots)
      else some (s.setNotifier w (.walk (cur + c.slotSize) endLsn slots))
    else
      some ({ s with lastNotify := update s.lastNotify w endLsn }.setNotifier w .idle)
  | .locked cur endLsn slots =>
    some ((s.broadcast c (c.slotNo cur)).setNotifier w
      (.broadcasted cur endLsn (c.slotNo cur :: slots)))
  | .broadcasted cur endLsn slots =>
    some ((s.unlock (c.slotNo cur)).setNotifier w (.walk (cur + c.slotSize) endLsn slots))

/-- One step. The copy of an idle backend may also be refreshed by the other
functions that read the shared position. -/
def step (c : Conf) (s : State) : Action → Option State
  | .flushed lsn => if s.flush ≤ lsn then some { s with flush := lsn } else none
  | .refresh b =>
    if (s.backends b).pc = .idle then some (s.setBackend b ⟨s.flush, .idle⟩) else none
  | .commitWait b lsn =>
    if (s.backends b).pc = .idle then
      if lsn ≤ (s.backends b).flush then some s
      else some (s.setBackend b { s.backends b with pc := .request lsn })
    else none
  | .backend b => commitStep c s b
  | .wake b =>
    match (s.backends b).pc with
    | .blocked lsn => some (s.setBackend b { s.backends b with pc := .woken lsn })
    | _ => none
  | .notify w =>
    if w < c.notifyWorkerNum ∧ s.notifiers w = .idle then
      if s.lastNotify w = s.flush then some s
      else some (s.setNotifier w (.walk (s.lastNotify w) s.flush []))
    else none
  | .notifier w => notifyStep c s w

end PolarDB.WalPipeline
