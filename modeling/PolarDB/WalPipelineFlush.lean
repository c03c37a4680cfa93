import PolarDB.Lts

/-!
# Writing and flushing in the WAL pipeline

In the pipeline the write worker runs `XLogWrite`, which opens the segment
files and writes pages to them, but does not sync or close a file. Where it
would have, it appends an entry to a ring: the file descriptor, the segment,
the position up to which WAL was written, and whether the segment is complete.
The flush worker takes the entries in order, merges those for one file, syncs
the file, publishes the position as flushed, and closes the file of a complete
segment.

A request to write is an action of its own, and so is every step of a worker
that others can see: an iteration of the page loop, an append, the publication
of a position, a look at the ring, a sync, a close. An `open` returns any
descriptor that is not in use; where the WAL buffers end in the middle of a
request is open. What was written to the files, what of it is synced, which
segments were opened and closed and which entries are from requests whose
position was published is kept beside the state.
-/

namespace PolarDB.WalFlush

inductive SyncMethod where
  | fsync
  | fdatasync
  | open
  | fsyncWritethrough
  | openDsync
  deriving DecidableEq, Repr

def SyncMethod.isOpen : SyncMethod → Bool
  | .open | .openDsync => true
  | _ => false

/-- `XLOG_BLCKSZ`, the pages of a segment, the slots of the ring. -/
structure Conf where
  blcksz : Nat
  segPages : Nat
  arraySize : Nat
  syncMethod : SyncMethod
  blcksz_pos : 0 < blcksz
  segPages_pos : 0 < segPages
  two_le : 2 ≤ arraySize

/-- `wal_segment_size`. -/
def Conf.segSize (c : Conf) : Nat := c.segPages * c.blcksz

/-- The segment of the byte before a position: `XLByteToPrevSeg`. -/
def Conf.prevSeg (c : Conf) (lsn : Nat) : Nat := (lsn - 1) / c.segSize

structure Unflushed where
  fd : Nat
  segNo : Nat
  endLsn : Nat
  needClose : Bool
  deriving DecidableEq, Repr

/-- The write worker for a request to write and flush up to two positions: in
the page loop with the pages that are still to be dumped, about to append the
entry of a complete segment, behind the loop, about to append the entry of a
flush request, about to publish the position. -/
inductive Writer where
  | idle
  | page (write flush npages startOffset : Nat)
  | appendSeg (write flush : Nat)
  | flushRequest (flush : Nat)
  | appendFlush
  | publish
  deriving DecidableEq, Repr

/-- The flush worker: with the number of the entry it is at, and whether the
file is to be closed and the loop left. -/
inductive Flusher where
  | idle
  | start
  | look (curr : Nat)
  | sync (curr : Nat) (close stop : Bool)
  | setFlush (curr : Nat) (close stop : Bool)
  | close (curr : Nat) (stop : Bool)
  | release (curr : Nat) (stop : Bool)
  | panic
  deriving DecidableEq, Repr

/-- `localWrite` and `localFlush` are `LogwrtResult` of the write worker,
`openLogFile` and `openLogSegNo` its file; `sharedWrite` and `sharedFlush` are
`LogwrtResult` in shared memory. `files` are the open descriptors. -/
structure State where
  localWrite : Nat
  localFlush : Nat
  openLogFile : Option Nat
  openLogSegNo : Nat
  writer : Writer
  sharedWrite : Nat
  sharedFlush : Nat
  slots : Nat → Option Unflushed
  addSlotNo : Nat
  delSlotNo : Nat
  flusher : Flusher
  files : Nat → Option Nat
  opened : List Nat
  closed : List Nat
  written : Nat
  synced : Nat → Nat
  /-- Entries before this one are from calls that have published `Write`. -/
  published : Nat

/-- WAL is written and flushed up to `lsn`; the write worker has not looked at
the flushed position yet. -/
def State.init (lsn : Nat) : State where
  localWrite := lsn
  localFlush := 0
  openLogFile := none
  openLogSegNo := 0
  writer := .idle
  sharedWrite := lsn
  sharedFlush := lsn
  slots := fun _ => none
  addSlotNo := 0
  delSlotNo := 0
  flusher := .idle
  files := fun _ => none
  opened := []
  closed := []
  written := lsn
  synced := fun _ => lsn
  published := 0

/-! ## The write worker -/

section Write

variable (c : Conf) (s : State)

def State.openFile (segNo fd : Nat) : Option State :=
  if s.files fd = none then
    some { s with
      openLogFile := some fd
      openLogSegNo := segNo
      files := Function.update s.files fd (some segNo)
      opened := segNo :: s.opened }
  else none

def State.switchFile (endPtr fd : Nat) : Option State :=
  if s.openLogFile = none ∨ c.prevSeg endPtr ≠ s.openLogSegNo then s.openFile (c.prevSeg endPtr) fd
  else some s

def State.dump (lsn : Nat) : State :=
  { s with
    written := lsn
    synced := if c.syncMethod.isOpen then Function.update s.synced s.openLogSegNo
      lsn else s.synced }

/-- An iteration of the page loop; `cacheEnd` says that the page is the last
one of the WAL buffers. -/
def pageStep (write flush npages startOffset fd : Nat) (cacheEnd : Bool) : Option State :=
  let endPtr := (s.localWrite / c.blcksz + 1) * c.blcksz
  let partialPage := decide (write < endPtr)
  (s.switchFile c endPtr fd).map fun s =>
    let startOffset := if npages = 0 then (endPtr - c.blcksz) % c.segSize else startOffset
    let npages := npages + 1
    let lastIteration := decide (write ≤ endPtr)
    let finishingSeg := !partialPage && decide (c.segSize ≤ startOffset + npages * c.blcksz)
    let lsn := if partialPage then write else endPtr
    if lastIteration || cacheEnd || finishingSeg then
      { s.dump c lsn with
        localWrite := lsn
        writer :=
          if finishingSeg then .appendSeg write flush
          else if partialPage then .flushRequest flush
          else .page write flush 0 startOffset }
    else { s with localWrite := lsn, writer := .page write flush npages startOffset }

def State.append (fd : Nat) (needClose : Bool) : Option State :=
  if s.slots (s.addSlotNo % c.arraySize) = none then
    some { s with
      slots := Function.update s.slots (s.addSlotNo % c.arraySize)
        (some ⟨fd, s.openLogSegNo, s.localWrite, needClose⟩)
      addSlotNo := s.addSlotNo + 1
      localFlush := s.localWrite }
  else none

def writerStep (fd : Nat) (cacheEnd : Bool) : Option State :=
  match s.writer with
  | .idle => none
  | .page write flush npages startOffset =>
    if s.localWrite < write then pageStep c s write flush npages startOffset fd cacheEnd
    else some { s with writer := .flushRequest flush }
  | .appendSeg write flush =>
    s.openLogFile.bind fun fd => (s.append c fd true).map fun s =>
      { s with writer := .page write flush 0 0 }
  | .flushRequest flush =>
    if s.localFlush < flush ∧ s.localFlush < s.localWrite then
      if c.syncMethod.isOpen then
        some { s with localFlush := s.localWrite, writer := .publish }
      else if s.openLogFile = none then
        (s.openFile (c.prevSeg s.localWrite) fd).map fun s => { s with writer := .appendFlush }
      else some { s with writer := .appendFlush }
    else some { s with writer := .publish }
  | .appendFlush =>
    s.openLogFile.bind fun fd => (s.append c fd false).map fun s => { s with writer := .publish }
  | .publish =>
    some { s with sharedWrite := s.localWrite, published := s.addSlotNo, writer := .idle }

def startWrite (write flush : Nat) : Option State :=
  if s.writer = .idle then
    let s := { s with localWrite := s.sharedWrite }
    if write ≤ s.localWrite ∧ flush ≤ s.localFlush then some s
    else some { s with writer := .page write flush 0 0 }
  else none

end Write

/-! ## The flush worker -/

section Flush

variable (c : Conf) (s : State)

/-- What is done with an entry, from what is in the next slot: sync, close,
leave the loop. -/
def decideFlush (curr : Unflushed) : Option Unflushed → Bool × Bool × Bool
  | none => (true, curr.needClose, true)
  | some next =>
    if curr.fd ≠ next.fd then (true, true, false)
    else if next.needClose then (true, false, false)
    else (false, false, false)

def flusherStep : Option State :=
  match s.flusher with
  | .idle | .panic => none
  | .start =>
    if s.slots (s.delSlotNo % c.arraySize) = none then some { s with flusher := .idle }
    else some { s with flusher := .look s.delSlotNo }
  | .look curr =>
    (s.slots (curr % c.arraySize)).map fun entry =>
      let s := { s with delSlotNo := s.delSlotNo + 1 }
      let (flush, close, stop) := decideFlush entry (s.slots (s.delSlotNo % c.arraySize))
      { s with
        flusher := if flush then .sync curr close stop else .release curr stop }
  | .sync curr close stop =>
    (s.slots (curr % c.arraySize)).map fun entry =>
      match s.files entry.fd with
      | none => { s with flusher := .panic }
      | some segNo =>
        { s with
          synced := Function.update s.synced segNo s.written
          flusher := .setFlush curr close stop }
  | .setFlush curr close stop =>
    (s.slots (curr % c.arraySize)).map fun entry =>
      { s with
        sharedFlush := entry.endLsn
        flusher := if close then .close curr stop else .release curr stop }
  | .close curr stop =>
    (s.slots (curr % c.arraySize)).map fun entry =>
      match s.files entry.fd with
      | none => { s with flusher := .panic }
      | some segNo =>
        { s with
          files := Function.update s.files entry.fd none
          closed := segNo :: s.closed
          flusher := .release curr stop }
  | .release curr stop =>
    some { s with
      slots := Function.update s.slots (curr % c.arraySize) none
      flusher := if stop then .idle else .look (curr + 1) }

/-- `polar_wal_pipeline_flush`. -/
def startFlush : Option State :=
  if s.flusher = .idle then
    if s.sharedWrite ≤ s.sharedFlush then some s else some { s with flusher := .start }
  else none

end Flush

inductive Action where
  | write (write flush : Nat)
  | writer (fd : Nat) (cacheEnd : Bool)
  | flush
  | flusher
  deriving DecidableEq, Repr

def step (c : Conf) (s : State) : Action → Option State
  | .write write flush => startWrite s write flush
  | .writer fd cacheEnd => writerStep c s fd cacheEnd
  | .flush => startFlush s
  | .flusher => flusherStep c s

end PolarDB.WalFlush
