import PolarDB.FlushList

/-!
# The consistent LSN

Recovery starts at the consistent LSN, so every modification whose record
starts before it has to be on storage. `polar_cal_cur_consistent_lsn`
takes it from the head of the flush list and from the copy buffers
(`polar_bufmgr.c`, `polar_copybuf.c`).

A page image is the list of the starts of the records whose modifications
it holds. `mods` has, for each page, the modifications that were logged;
`storage` is the image on storage. A page that is dropped loses both.

A modification is made under the buffer's exclusive content lock;
writing, copying and freeing a copy hold it shared, together with the
buffer's I/O lock. What only a holder of these locks reads or writes is
changed in one step. The calculation reads the list in one step and then
each copy buffer in a step of its own, with anything in between.

`Enabled` says which steps the locks allow. A failed `Assert` is `none`.
-/

namespace PolarDB.ConsistentLsn

open FlushList Function

structure CopyBufferDesc where
  oldestLsn : Nat
  used : Bool
  block : List Nat
  deriving DecidableEq

/-- How far the holder of a buffer's I/O lock is: nobody holds it, the
buffer is written, its copy is written, or the buffer is written (or
dropped) and its copy is freed. -/
inductive Io where
  | idle
  | written
  | copyWritten
  | freed
  deriving DecidableEq, Repr

/-- `BufferDesc` with its block. `contentLock` is set while the content
lock is held exclusively, to the insert LSN of the last
`MarkBufferDirty` under it. -/
structure BufferDesc where
  tag : Option BufferTag
  block : List Nat
  dirty : Bool
  justDirtied : Bool
  oldestLsnIsFake : Bool
  firstTouchedAfterCopy : Bool
  recentlyModifiedCount : Nat
  copyBuffer : Option Nat
  contentLock : Option Nat
  io : Io
  deriving DecidableEq

/-- The locals of a running `polar_cal_cur_consistent_lsn`, with the loop
variable of `polar_copy_buffers_get_oldest_lsn`. -/
structure Cal where
  lsn : Nat
  clsn : Nat
  i : Nat
  deriving DecidableEq

structure Sys where
  insertLsn : Nat
  flushList : Ctl
  buf : Nat → BufferDesc
  bufTable : BufferTag → Option Nat
  copyBuf : Nat → CopyBufferDesc
  freeList : List Nat
  cal : Option Cal
  results : List Nat
  storage : BufferTag → List Nat
  mods : BufferTag → List Nat

/-- `polar_copy_buffers` copy buffers, all in the freelist, and no page in
any buffer. -/
def initSys (polarCopyBuffers insertLsn : Nat) : Sys where
  insertLsn := insertLsn
  flushList := initCtl
  buf _ := ⟨none, [], false, false, false, false, 0, none, none, .idle⟩
  bufTable _ := none
  copyBuf _ := ⟨invalidXLogRecPtr, false, []⟩
  freeList := List.range polarCopyBuffers
  cal := none
  results := []
  storage _ := []
  mods _ := []

def Sys.oldestLsn (s : Sys) (b : Nat) : Nat := s.flushList.oldestLsn b

def Sys.setBuf (s : Sys) (b : Nat) (d : BufferDesc) : Sys :=
  { s with buf := update s.buf b d }

def ofPage (f : BufferTag → List Nat) (tag : Option BufferTag) : List Nat := tag.elim [] f

def setPage (f : BufferTag → List Nat) (tag : Option BufferTag) (x : List Nat) :
    BufferTag → List Nat :=
  tag.elim f fun p => update f p x

/-! ## The steps -/

def firstTouchAfterCopy (d : BufferDesc) : Bool := d.copyBuffer.isSome && !d.firstTouchedAfterCopy

def setBufferFakeOldestLsn (s : Sys) (b : Nat) : Option Sys :=
  let d := s.buf b
  if s.oldestLsn b = invalidXLogRecPtr then
    (putBufferToFlushList s.flushList b invalidXLogRecPtr s.insertLsn).map fun fl =>
      { s with flushList := fl }.setBuf b { d with
        oldestLsnIsFake := true
        recentlyModifiedCount := d.recentlyModifiedCount + 1 }
  else if firstTouchAfterCopy d then
    (adjustPositionInFlushList s.flushList b s.insertLsn).map fun fl =>
      { s with flushList := fl }.setBuf b { d with
        firstTouchedAfterCopy := true
        recentlyModifiedCount := d.recentlyModifiedCount + 1 }
  else some (s.setBuf b { d with recentlyModifiedCount := d.recentlyModifiedCount + 1 })

def markBufferDirty (s : Sys) (b : Nat) : Option Sys :=
  setBufferFakeOldestLsn
    (s.setBuf b { s.buf b with
      dirty := true
      justDirtied := true
      contentLock := some s.insertLsn }) b

def freeCopyBuffer (s : Sys) (b : Nat) : Sys :=
  match (s.buf b).copyBuffer with
  | none => s
  | some c =>
    { s with
      copyBuf := update s.copyBuf c { s.copyBuf c with
        oldestLsn := invalidXLogRecPtr
        used := false }
      freeList := c :: s.freeList }.setBuf b { s.buf b with
        copyBuffer := none
        firstTouchedAfterCopy := false }

def resetBufferOldestLsn (s : Sys) (b : Nat) : Option Sys :=
  let d := s.buf b
  if s.oldestLsn b = invalidXLogRecPtr then
    if d.recentlyModifiedCount = 0 ∧ d.oldestLsnIsFake = false ∧
      d.firstTouchedAfterCopy = false then
      some s
    else none
  else
    (removeBufferFromFlushList s.flushList b).map fun fl =>
      { s with flushList := fl }.setBuf b { d with
        recentlyModifiedCount := 0
        oldestLsnIsFake := false
        firstTouchedAfterCopy := false }

/-- `copy_buffer_alloc`, where the settings and LSNs that
`polar_buffer_copy_is_satisfied` compares allow it. -/
def copyBufferAlloc (s : Sys) (b : Nat) : Option Sys :=
  let d := s.buf b
  if d.dirty = false ∨ d.copyBuffer.isSome ∨ s.oldestLsn b = invalidXLogRecPtr then some s
  else
    match s.freeList with
    | [] => some s
    | c :: freeList =>
      if (s.copyBuf c).used then none
      else
        some ({ s with
          copyBuf := update s.copyBuf c ⟨s.oldestLsn b, true, d.block⟩
          freeList := freeList }.setBuf b { d with copyBuffer := some c })

def flushCopyBuffer (s : Sys) (b : Nat) : Sys :=
  let d := s.buf b
  match d.dirty, d.copyBuffer with
  | true, some c =>
    { s with storage := setPage s.storage d.tag (s.copyBuf c).block }.setBuf b { d with
      io := .copyWritten }
  | _, _ => s

def flushBuffer (s : Sys) (b : Nat) : Sys :=
  let d := s.buf b
  if d.dirty then
    { s with storage := setPage s.storage d.tag d.block }.setBuf b { d with
      justDirtied := false
      io := .written }
  else s

def freeWritten (s : Sys) (b : Nat) : Sys :=
  let s' := freeCopyBuffer s b
  s'.setBuf b { s'.buf b with io := if (s.buf b).io = .written then .freed else .idle }

def finishBuffer (s : Sys) (b : Nat) : Option Sys :=
  (resetBufferOldestLsn s b).map fun s =>
    let d := s.buf b
    s.setBuf b { d with dirty := d.dirty && d.justDirtied, io := .idle }

def invalidateBuffer (s : Sys) (b : Nat) : Sys :=
  let tag := (s.buf b).tag
  let s := freeCopyBuffer s b
  { s with
    bufTable := tag.elim s.bufTable fun p => update s.bufTable p none
    storage := setPage s.storage tag []
    mods := setPage s.mods tag [] }.setBuf b { s.buf b with
      tag := none
      dirty := false
      justDirtied := false
      io := .freed }

def loadPage (s : Sys) (b : Nat) (p : BufferTag) : Sys :=
  let d := s.buf b
  { s with
    bufTable := update (d.tag.elim s.bufTable fun p => update s.bufTable p none)
      p (some b) }.setBuf b { d with
    tag := some p
    block := s.storage p }

def logModification (s : Sys) (b start : Nat) : Sys :=
  let d := s.buf b
  { s with mods := setPage s.mods d.tag (start :: ofPage s.mods d.tag) }.setBuf b { d with
    block := start :: d.block }

def calStart (s : Sys) : Option Sys :=
  if flushListIsEmpty s.flushList then some { s with results := s.insertLsn :: s.results }
  else
    match s.flushList.firstFlushBuffer with
    | .node b => some { s with cal := some ⟨s.oldestLsn b, invalidXLogRecPtr, 0⟩ }
    | _ => none

def calRead (polarCopyBuffers : Nat) (s : Sys) (k : Cal) : Sys :=
  if k.i < polarCopyBuffers then
    let curLsn := (s.copyBuf k.i).oldestLsn
    if curLsn = invalidXLogRecPtr then { s with cal := some { k with i := k.i + 1 } }
    else if k.clsn = invalidXLogRecPtr ∨ curLsn < k.clsn then
      { s with cal := some { k with clsn := curLsn, i := k.i + 1 } }
    else { s with cal := some { k with i := k.i + 1 } }
  else
    { s with
      cal := none
      results := (if k.clsn = invalidXLogRecPtr then k.lsn else min k.lsn k.clsn) :: s.results }

inductive Action where
  | insert (lsn : Nat)
  | load (b : Nat) (p : BufferTag)
  | mark (b : Nat)
  | log (b start : Nat)
  | unlock (b : Nat)
  | hint (b : Nat)
  | copy (b : Nat)
  | flushCopy (b : Nat)
  | flush (b : Nat)
  | free (b : Nat)
  | finish (b : Nat)
  | drop (b : Nat)
  | calStart
  | calRead
  deriving DecidableEq, Repr

def step (polarCopyBuffers : Nat) (s : Sys) : Action → Option Sys
  | .insert lsn => some { s with insertLsn := lsn }
  | .load b p => some (loadPage s b p)
  | .mark b => markBufferDirty s b
  | .log b start => some (logModification s b start)
  | .unlock b => some (s.setBuf b { s.buf b with contentLock := none })
  | .hint b => some (s.setBuf b { s.buf b with dirty := true, justDirtied := true })
  | .copy b => copyBufferAlloc s b
  | .flushCopy b => some (flushCopyBuffer s b)
  | .flush b => some (flushBuffer s b)
  | .free b => some (freeWritten s b)
  | .finish b => finishBuffer s b
  | .drop b => some (invalidateBuffer s b)
  | .calStart => calStart s
  | .calRead => s.cal.map (calRead polarCopyBuffers s)

def Unlocked (d : BufferDesc) : Prop := d.tag.isSome ∧ d.contentLock = none ∧ d.io = .idle

instance (d : BufferDesc) : Decidable (Unlocked d) := inferInstanceAs (Decidable (_ ∧ _))

/-- What the locks allow, and the insert LSN does not decrease. A record
starts at or behind the insert LSN that its `MarkBufferDirty` saw. -/
def Enabled (s : Sys) : Action → Prop
  | .insert lsn => s.insertLsn ≤ lsn
  | .load b p => (s.buf b).contentLock = none ∧ (s.buf b).io = .idle ∧ (s.buf b).dirty = false ∧
      s.bufTable p = none
  | .mark b => (s.buf b).tag.isSome ∧ (s.buf b).io = .idle
  | .log b start => ∃ lsn ∈ (s.buf b).contentLock, lsn ≤ start
  | .unlock _ => True
  | .hint b => (s.buf b).tag.isSome
  | .copy b | .flushCopy b | .flush b | .drop b => Unlocked (s.buf b)
  | .free b => (s.buf b).io = .written ∨ (s.buf b).io = .copyWritten
  | .finish b => (s.buf b).io = .freed
  | .calStart => s.cal = none
  | .calRead => s.cal.isSome

instance (s : Sys) : (a : Action) → Decidable (Enabled s a)
  | .insert _ => inferInstanceAs (Decidable (_ ≤ _))
  | .load .. => inferInstanceAs (Decidable (_ ∧ _))
  | .mark _ => inferInstanceAs (Decidable (_ ∧ _))
  | .log .. => inferInstanceAs (Decidable (∃ _ ∈ _, _))
  | .unlock _ => .isTrue trivial
  | .hint _ => inferInstanceAs (Decidable (_ = _))
  | .copy _ | .flushCopy _ | .flush _ | .drop _ => inferInstanceAs (Decidable (Unlocked _))
  | .free _ => inferInstanceAs (Decidable (_ ∨ _))
  | .finish _ => inferInstanceAs (Decidable (_ = _))
  | .calStart => inferInstanceAs (Decidable (_ = _))
  | .calRead => inferInstanceAs (Decidable (_ = _))

end PolarDB.ConsistentLsn
