import Mathlib.Algebra.Group.Nat.Defs
import PolarDB.Basic

/-!
# When a buffer is copied

`polar_buffer_copy_is_satisfied` decides whether a buffer that cannot be
flushed yet gets a copy buffer (`polar_copybuf.c`). Among the conditions is
that the buffer holds back the consistent LSN: its oldest LSN is near it.
The lag, a difference of two 64-bit LSNs, is kept in a `uint32`.
-/

namespace PolarDB.CopyBuffer

inductive ForkNumber where
  | main
  | fsm
  | visibilitymap
  | init
  deriving DecidableEq, Repr

/-- The settings, with the limits of `guc.c`: the threshold is in MB, and in
bytes it fits an `int`. -/
structure Guc where
  polarEnableSharedStorageMode : Bool
  polarEnableCopyBuffer : Bool
  polarEnableControlVmFlush : Bool
  polarBufferCopyMinModifiedCount : Nat
  polarBufferCopyLsnLagWithConsLsn : Nat
  lag_pos : 1 ≤ polarBufferCopyLsnLagWithConsLsn
  lag_le : polarBufferCopyLsnLagWithConsLsn ≤ 1000

/-- What is read of `BufferDesc` and the page; `permanent` and `ioInProgress`
are `BM_PERMANENT` and `BM_IO_IN_PROGRESS`. -/
structure BufferDesc where
  forkNum : ForkNumber
  lsn : Nat
  oldestLsn : Nat
  copyBuffer : Bool
  permanent : Bool
  ioInProgress : Bool
  recentlyModifiedCount : Nat

def donotControlVmBuffer (g : Guc) (buf : BufferDesc) : Bool :=
  buf.forkNum = .visibilitymap && !g.polarEnableControlVmFlush

def lsnSub (a b : Nat) : Nat := (2 ^ 64 + a - b) % 2 ^ 64

def Guc.lagBytes (g : Guc) : Nat := g.polarBufferCopyLsnLagWithConsLsn * 1024 * 1024

def bufferCopyIsSatisfied (g : Guc) (inReplicaMode : Bool) (consistentLsn : Nat) (buf : BufferDesc)
    (oldestApplyLsn : Nat) (checkIo : Bool) : Bool :=
  if !(g.polarEnableSharedStorageMode && g.polarEnableCopyBuffer) then false
  else if !g.polarEnableSharedStorageMode || inReplicaMode || oldestApplyLsn = invalidXLogRecPtr
      || buf.forkNum = .fsm || buf.forkNum = .init || donotControlVmBuffer g buf
      || buf.lsn ≤ oldestApplyLsn then false
  else if buf.copyBuffer then false
  else if buf.oldestLsn = invalidXLogRecPtr then false
  else if !buf.permanent || checkIo && buf.ioInProgress then false
  else
    let lsnLagWithConsLsn := lsnSub buf.oldestLsn consistentLsn % 2 ^ 32
    (buf.recentlyModifiedCount > g.polarBufferCopyMinModifiedCount
        && lsnLagWithConsLsn < g.lagBytes)
      || lsnLagWithConsLsn < g.lagBytes / 2

/-- The lag is below the threshold, below half of it unless the buffer was
modified often. -/
def Near (g : Guc) (buf : BufferDesc) (lag : Nat) : Prop :=
  lag < g.lagBytes
    ∧ (buf.recentlyModifiedCount ≤ g.polarBufferCopyMinModifiedCount → lag < g.lagBytes / 2)

instance (g : Guc) (buf : BufferDesc) (lag : Nat) : Decidable (Near g buf lag) :=
  inferInstanceAs (Decidable (_ ∧ _))

def Candidate (g : Guc) (inReplicaMode : Bool) (buf : BufferDesc) (oldestApplyLsn : Nat)
    (checkIo : Bool) : Prop :=
  g.polarEnableSharedStorageMode ∧ g.polarEnableCopyBuffer ∧ ¬inReplicaMode ∧
    oldestApplyLsn ≠ invalidXLogRecPtr ∧ buf.forkNum ≠ .fsm ∧ buf.forkNum ≠ .init ∧
    ¬donotControlVmBuffer g buf ∧ oldestApplyLsn < buf.lsn ∧ ¬buf.copyBuffer ∧
    buf.oldestLsn ≠ invalidXLogRecPtr ∧ buf.permanent ∧ ¬(checkIo ∧ buf.ioInProgress)

variable {g : Guc} {inReplicaMode checkIo : Bool} {consistentLsn oldestApplyLsn : Nat}
  {buf : BufferDesc}

theorem near_iff {lag : Nat} : Near g buf lag ↔
    buf.recentlyModifiedCount > g.polarBufferCopyMinModifiedCount ∧ lag < g.lagBytes ∨
      lag < g.lagBytes / 2 := by
  unfold Near
  omega

/-- What the criterion measures is the lag as kept in 32 bits. -/
theorem bufferCopyIsSatisfied_iff :
    bufferCopyIsSatisfied g inReplicaMode consistentLsn buf oldestApplyLsn checkIo = true ↔
      Candidate g inReplicaMode buf oldestApplyLsn checkIo ∧
        Near g buf (lsnSub buf.oldestLsn consistentLsn % 2 ^ 32) := by
  rw [near_iff]
  unfold bufferCopyIsSatisfied Candidate
  grind

theorem lsnSub_eq {a b : Nat} (ha : a < 2 ^ 64) (hb : b ≤ a) : lsnSub a b = a - b := by
  unfold lsnSub
  omega

theorem Near.lt {lag : Nat} (h : Near g buf lag) : lag < 2 ^ 32 := by
  have hlt : lag < g.polarBufferCopyLsnLagWithConsLsn * 1024 * 1024 := h.1
  have hle := g.lag_le
  omega

/-- A call keeps to the criterion if and only if the lag fits 32 bits, or the
buffer is no candidate, or the low 32 bits of the lag are no small number. -/
theorem bufferCopy_near_iff (holdest : buf.oldestLsn < 2 ^ 64)
    (hle : consistentLsn ≤ buf.oldestLsn) :
    (bufferCopyIsSatisfied g inReplicaMode consistentLsn buf oldestApplyLsn checkIo = true →
        Near g buf (buf.oldestLsn - consistentLsn)) ↔
      (Candidate g inReplicaMode buf oldestApplyLsn checkIo →
        Near g buf ((buf.oldestLsn - consistentLsn) % 2 ^ 32) →
        buf.oldestLsn - consistentLsn < 2 ^ 32) := by
  rw [bufferCopyIsSatisfied_iff, lsnSub_eq holdest hle, and_imp]
  refine forall₂_congr fun _ hlow => ⟨Near.lt, fun hlt => ?_⟩
  rwa [Nat.mod_eq_of_lt hlt] at hlow

def defaultGuc : Guc where
  polarEnableSharedStorageMode := true
  polarEnableCopyBuffer := true
  polarEnableControlVmFlush := true
  polarBufferCopyMinModifiedCount := 5
  polarBufferCopyLsnLagWithConsLsn := 100
  lag_pos := Nat.le_of_ble_eq_true rfl
  lag_le := Nat.le_of_ble_eq_true rfl

def dirtyBuffer (oldestLsn : Nat) : BufferDesc :=
  ⟨.main, oldestLsn, oldestLsn, false, true, false, 0⟩

theorem bufferCopy_near_1000 :
    bufferCopyIsSatisfied defaultGuc false 100 (dirtyBuffer 1000) 1 false = true ∧
      Near defaultGuc (dirtyBuffer 1000) (1000 - 100) := by
  have h : bufferCopyIsSatisfied defaultGuc false 100 (dirtyBuffer 1000) 1 false = true := by
    decide +kernel
  have hlt : (1000 : Nat) - 100 < 2 ^ 32 := by decide +kernel
  exact ⟨h, (bufferCopy_near_iff (by decide +kernel) (by decide)).mpr (fun _ _ => hlt) h⟩

/-- A buffer that is 4 GB behind the consistent LSN is taken for one that is
at it. -/
theorem bufferCopy_far :
    bufferCopyIsSatisfied defaultGuc false 1000 (dirtyBuffer (2 ^ 32 + 1000)) 10 false = true
      ∧ ¬Near defaultGuc (dirtyBuffer (2 ^ 32 + 1000)) (2 ^ 32 + 1000 - 1000) :=
  by decide +kernel

end PolarDB.CopyBuffer
