import Mathlib.Data.List.Basic
import PolarDB.Lts

/-!
# The page cache of the consensus log

The pages of the consensus log go through a cache of `num_slots` buffers
(`consensus_slru.c`). Changed pages are kept in a list in page order. A page
is written from the offset of its first unsaved entry if it is the first of
the list, and as a whole otherwise.

One lock protects all of this. It is released around physical reads and
writes, around the `fsync` of a flush and while a thread waits for the I/O of
another; a step is what a thread does from one of these points to the next, and
the I/O itself is a step of its own.

One appender adds entries to the last page or starts the next one, one
flusher calls `ConsensusSimpleLruFlush`, and any number of readers fetch
pages, which makes them evict and write others. A page is the list of its
entries; the trailer with their number is part of every write.
-/

namespace PolarDB.ConsensusSlru

open Function

def pagesPerSegment : Nat := 32

def segno (pageno : Nat) : Nat := pageno / pagesPerSegment

inductive PageStatus where
  | empty
  | readInProgress
  | valid
  | writeInProgress
  deriving DecidableEq, Repr

structure Slot where
  status : PageStatus
  pageNumber : Nat
  dirty : Bool
  buffer : List Nat
  deriving DecidableEq, Repr

/-! ## Threads -/

/-- What a thread needs a page for. `extend` asks for a new page
(`ConsensusSimpleLruZeroPage`). -/
inductive Goal where
  | read (pageno : Nat)
  | append (pageno : Nat) (extend : Bool) (entry : Nat) (flush : Bool)
  deriving DecidableEq, Repr

def Goal.pageno : Goal → Nat
  | .read pageno => pageno
  | .append pageno _ _ _ => pageno

def Goal.extend : Goal → Bool
  | .read _ => false
  | .append _ extend _ _ => extend

/-- Who called `consensus_slru_internal_write_page`. `next` is what
`ConsensusSimpleLruFlush` read as the next dirty slot, `opened` says that it
has the file of segment `segno` open. `before` is what the pages held when
`ConsensusSimpleLruWritePage` or `ConsensusSimpleLruFlush` was called. -/
inductive Caller where
  | victim (g : Goal)
  | writePage (pageno : Nat) (before : List Nat)
  | flush (limit segno : Nat) (next : Option Nat) (opened : Bool) (before : Nat → List Nat)

inductive Pc where
  | idle
  | select (g : Goal)
  | reading (slotno : Nat) (g : Goal)
  | readDone (slotno : Nat) (g : Goal) (ok : Bool)
  | check (slotno pageno : Nat) (k : Caller)
  | writing (slotno pageno offset : Nat) (k : Caller)
  | wrote (slotno pageno : Nat) (ok : Bool) (k : Caller)
  | flushTop (limit : Nat) (before : Nat → List Nat)
  | syncing (limit segno : Nat) (opened ok : Bool) (before : Nat → List Nat)
  | written (ok : Bool) (pageno : Nat) (before : List Nat)
  | flushed (ok : Bool) (limit : Nat) (before : Nat → List Nat)

/-! ## The cache and the files -/

/-- The shared state and the files. `file` is what is read back from the
files, `durable` the part that an `fsync` has covered. `content` is what the
appender has put into each page. -/
structure Store where
  slots : Nat → Slot
  firstDirtySlot : Option Nat
  lastDirtySlot : Option Nat
  firstDirtyOffset : Nat
  nextDirtySlot : Nat → Option Nat
  latestPageNumber : Option Nat
  file : Nat → List Nat
  durable : Nat → List Nat
  content : Nat → List Nat

def Store.init : Store where
  slots := fun _ => ⟨.empty, 0, false, []⟩
  firstDirtySlot := none
  lastDirtySlot := none
  firstDirtyOffset := 0
  nextDirtySlot := fun _ => none
  latestPageNumber := none
  file := fun _ => []
  durable := fun _ => []
  content := fun _ => []

def Store.setSlot (m : Store) (i : Nat) (x : Slot) : Store :=
  { m with slots := update m.slots i x }

def Store.setStatus (m : Store) (i : Nat) (status : PageStatus) : Store :=
  m.setSlot i { m.slots i with status := status }

def Store.setDirty (m : Store) (i : Nat) (dirty : Bool) : Store :=
  m.setSlot i { m.slots i with dirty := dirty }

def Store.pushDirty (m : Store) (i offset : Nat) (head : Bool) : Store :=
  if (m.slots i).dirty then m
  else
    match m.firstDirtySlot with
    | none =>
      { m.setDirty i true with
        firstDirtySlot := some i
        lastDirtySlot := some i
        firstDirtyOffset := offset }
    | some first =>
      if head then
        { m.setDirty i true with
          nextDirtySlot := update m.nextDirtySlot i (some first)
          firstDirtySlot := some i }
      else
        { m.setDirty i true with
          nextDirtySlot := match m.lastDirtySlot with
            | none => m.nextDirtySlot
            | some last => update m.nextDirtySlot last (some i)
          lastDirtySlot := some i }

def Store.popDirty (m : Store) (i : Nat) : Store :=
  if (m.slots i).dirty then
    { m.setDirty i false with
      firstDirtySlot := m.nextDirtySlot i
      firstDirtyOffset := 0
      nextDirtySlot := update m.nextDirtySlot i none
      lastDirtySlot := if m.nextDirtySlot i = none then none else m.lastDirtySlot }
  else m

def writeFrom (old : List Nat) (offset : Nat) (buffer : List Nat) : List Nat :=
  (List.range buffer.length).map fun i =>
    if i < offset then old.getD i 0 else buffer.getD i 0

def Store.writePage (m : Store) (i pageno offset : Nat) : Store :=
  { m with
    file := update m.file pageno
      (writeFrom (m.file pageno) offset (m.slots i).buffer) }

def Store.sync (m : Store) (seg : Nat) : Store :=
  { m with durable := fun p => if segno p = seg then m.file p else m.durable p }

/-! ## Writing a page -/

def flushNext (m : Store) (ok : Bool) (limit seg : Nat) (next : Option Nat) (opened : Bool)
    (before : Nat → List Nat) : Pc :=
  match ok, next with
  | true, some j =>
    if (0 < limit ∧ limit < (m.slots j).pageNumber) ∨ segno (m.slots j).pageNumber ≠ seg then
      .syncing limit seg opened true before
    else
      .check j (m.slots j).pageNumber (.flush limit seg (m.nextDirtySlot j) opened before)
  | ok, _ => .syncing limit seg opened ok before

/-- What the caller does with the result of `consensus_slru_internal_write_page`.
A victim's write is tried once, whatever comes of it. -/
def returnTo (m : Store) (ok : Bool) : Caller → Pc
  | .victim g => .select g
  | .writePage pageno before => .written ok pageno before
  | .flush limit seg next opened before => flushNext m ok limit seg next opened before

/-- `consensus_slru_internal_write_page` up to the write: a write in progress
is waited for, a page that is clean or no longer there needs no write. -/
def internalWritePage (m : Store) (i pageno : Nat) (k : Caller) : Store × Pc :=
  if (m.slots i).status = .writeInProgress ∧ (m.slots i).pageNumber = pageno then
    (m, .check i pageno k)
  else if (m.slots i).dirty = false ∨ (m.slots i).status ≠ .valid
      ∨ (m.slots i).pageNumber ≠ pageno then
    (m, returnTo m true k)
  else
    (m.setStatus i .writeInProgress, .writing i pageno m.firstDirtyOffset k)

def finishWrite (m : Store) (i : Nat) (ok : Bool) (k : Caller) : Store × Pc :=
  let m' := (if ok then m.popDirty i else m).setStatus i .valid
  (m', returnTo m' ok k)

def Caller.withFile : Caller → Caller
  | .flush limit seg next _ before => .flush limit seg next true before
  | k => k

def Store.zeroPage (m : Store) (i pageno : Nat) : Store :=
  let m' := (m.setSlot i { m.slots i with status := .valid, pageNumber := pageno }).pushDirty
    i 0 false
  { m'.setSlot i { m'.slots i with buffer := [] } with
    latestPageNumber := some pageno
    content := update m'.content pageno [] }

/-- `consensus_log_append_fixed_length_log` changes the page and marks it dirty
from the new entry on. -/
def Store.appendEntry (m : Store) (i pageno entry : Nat) : Store :=
  Store.pushDirty
    { m.setSlot i { m.slots i with buffer := (m.slots i).buffer ++ [entry] } with
      content := update m.content pageno (m.content pageno ++ [entry]) }
    i (m.slots i).buffer.length false

def deliver (m : Store) (i : Nat) : Goal → Store × Pc
  | .read _ => (m, .idle)
  | .append pageno extend entry flush =>
    let m' := (if extend then m.zeroPage i pageno else m).appendEntry i pageno entry
    if flush then internalWritePage m' i pageno (.writePage pageno (m'.content pageno))
    else (m', .idle)

/-! ## Selecting a slot -/

/-- What `consensus_slru_select_lru_page` comes to when no slot holds the page:
the usage counts and the window of slots it looks at are left open, as is what
`before_flush_hook` says. -/
inductive Choice where
  | use (slotno : Nat)
  | wait
  | write
  deriving DecidableEq, Repr

def findSlot (numSlots : Nat) (m : Store) (pageno : Nat) : Option Nat :=
  (List.range numSlots).find? fun i =>
    (m.slots i).pageNumber = pageno ∧ (m.slots i).status ≠ .empty

def Freeable (m : Store) (i : Nat) : Prop :=
  (m.slots i).status = .empty
    ∨ (m.slots i).status = .valid ∧ (m.slots i).dirty = false
      ∧ m.latestPageNumber ≠ some (m.slots i).pageNumber

instance (m : Store) (i : Nat) : Decidable (Freeable m i) :=
  inferInstanceAs (Decidable (_ ∨ _))

/-- `ConsensusSimpleLruReadPage` waits for a page that is being read, but not
for one that is being written. -/
def Waits (m : Store) (i : Nat) (g : Goal) : Prop :=
  g.extend = false ∧ (m.slots i).status = .readInProgress

instance (m : Store) (i : Nat) (g : Goal) : Decidable (Waits m i g) :=
  inferInstanceAs (Decidable (_ ∧ _))

def startRead (m : Store) (i : Nat) (g : Goal) : Store × Pc :=
  (m.setSlot i ⟨.readInProgress, g.pageno, false, (m.slots i).buffer⟩, .reading i g)

/-- One turn of the loop of `consensus_slru_select_lru_page` for
`ConsensusSimpleLruReadPage` or `ConsensusSimpleLruZeroPage`. -/
def selectLruPage (numSlots : Nat) (m : Store) (c : Choice) (g : Goal) : Option (Store × Pc) :=
  match findSlot numSlots m g.pageno, c with
  | some i, _ => some (if Waits m i g then (m, .select g) else deliver m i g)
  | none, .use i =>
    if i < numSlots ∧ Freeable m i then
      some (if g.extend then deliver m i g else startRead m i g)
    else none
  | none, .wait => some (m, .select g)
  | none, .write =>
    match m.firstDirtySlot with
    | none => some (m, .select g)
    | some i => some (internalWritePage m i (m.slots i).pageNumber (.victim g))

/-! ## Steps -/

def flushLoop (m : Store) (limit : Nat) (before : Nat → List Nat) : Store × Pc :=
  match m.firstDirtySlot with
  | none => (m, .flushed true limit before)
  | some i =>
    if 0 < limit ∧ limit < (m.slots i).pageNumber then (m, .flushed true limit before)
    else
      internalWritePage m i (m.slots i).pageNumber
        (.flush limit (segno (m.slots i).pageNumber) (m.nextDirtySlot i) false before)

def lockedStep (numSlots : Nat) (m : Store) (c : Choice) : Pc → Option (Store × Pc)
  | .select g => selectLruPage numSlots m c g
  | .readDone i g ok =>
    some (if ok then deliver (m.setStatus i .valid) i g else (m.setStatus i .empty, .idle))
  | .check i pageno k => some (internalWritePage m i pageno k)
  | .wrote i _ ok k => some (finishWrite m i ok k)
  | .flushTop limit before => some (flushLoop m limit before)
  | _ => none

/-- What comes of an I/O call. `syncFailed` is a write that reached the file
without being known to be durable. -/
inductive IoResult where
  | done
  | failed
  | syncFailed
  deriving DecidableEq, Repr

def ioRead (m : Store) (i : Nat) (g : Goal) (r : IoResult) : Option (Store × Pc) :=
  if r = .done then
    if m.file g.pageno = [] then none
    else some (m.setSlot i { m.slots i with buffer := m.file g.pageno }, .readDone i g true)
  else some (m, .readDone i g false)

def ioWrite (m : Store) (i pageno offset : Nat) (k : Caller) : IoResult → Store × Pc
  | .done =>
    let m' := m.writePage i pageno offset
    (match k with
      | .flush .. => m'
      | _ => m'.sync (segno pageno),
      .wrote i pageno true k.withFile)
  | .failed => (m, .wrote i pageno false k)
  | .syncFailed => (m.writePage i pageno offset, .wrote i pageno false k)

def ioSync (m : Store) (limit seg : Nat) (opened ok : Bool) (before : Nat → List Nat)
    (r : IoResult) : Store × Pc :=
  let pc := if ok then Pc.flushTop limit before else .flushed false limit before
  if opened then
    if r = .done then (m.sync seg, pc) else (m, .flushed false limit before)
  else (m, pc)

def ioStep (m : Store) (r : IoResult) : Pc → Option (Store × Pc)
  | .reading i g => ioRead m i g r
  | .writing i pageno offset k => some (ioWrite m i pageno offset k r)
  | .syncing limit seg opened ok before => some (ioSync m limit seg opened ok before r)
  | _ => none

structure State where
  store : Store
  threads : Nat → Pc

def State.init : State where
  store := Store.init
  threads := fun _ => .idle

def State.put (s : State) (t : Nat) (r : Store × Pc) : State where
  store := r.1
  threads := update s.threads t r.2

def appender : Nat := 0

def flusher : Nat := 1

def Known (m : Store) (pageno : Nat) : Prop :=
  ∃ latest ∈ m.latestPageNumber, pageno ≤ latest

instance (m : Store) (pageno : Nat) : Decidable (Known m pageno) :=
  inferInstanceAs (Decidable (∃ latest ∈ m.latestPageNumber, pageno ≤ latest))

def appendPage (m : Store) (extend : Bool) : Option Nat :=
  match m.latestPageNumber, extend with
  | none, true => some 0
  | some latest, true => some (latest + 1)
  | latest, false => latest

inductive Action where
  | append (extend : Bool) (entry : Nat) (flush : Bool)
  | flush (limit : Nat)
  | read (t pageno : Nat)
  | locked (t : Nat) (c : Choice)
  | io (t : Nat) (r : IoResult)
  | leave (t : Nat)
  deriving DecidableEq, Repr

def Pc.isIdle : Pc → Bool
  | .idle => true
  | _ => false

def Pc.returned : Pc → Bool
  | .written true _ _ => true
  | .flushed true _ _ => true
  | _ => false

def step (numSlots : Nat) (s : State) : Action → Option State
  | .append extend entry flush =>
    if (s.threads appender).isIdle then
      (appendPage s.store extend).map fun pageno =>
        s.put appender (s.store, .select (.append pageno extend entry flush))
    else none
  | .flush limit =>
    if (s.threads flusher).isIdle then
      some (s.put flusher (s.store, .flushTop limit s.store.content))
    else none
  | .read t pageno =>
    if t ≠ appender ∧ t ≠ flusher ∧ (s.threads t).isIdle ∧ Known s.store pageno then
      some (s.put t (s.store, .select (.read pageno)))
    else none
  | .locked t c => (lockedStep numSlots s.store c (s.threads t)).map (s.put t)
  | .io t r => (ioStep s.store r (s.threads t)).map (s.put t)
  | .leave t => if (s.threads t).returned then some (s.put t (s.store, .idle)) else none

end PolarDB.ConsensusSlru
