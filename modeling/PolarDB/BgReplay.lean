import PolarDB.Lts

/-!
# Background replay from the logindex

In parallel replay the startup process adds an entry per page of a WAL record
to the logindex and publishes the start of the record in
`last_replayed_read_ptr` and its end in `lastReplayedEndRecPtr`. A dispatcher
gives the entries in order to a pool of workers as tasks; a worker looks at the
page and applies the record, or does not have to, or puts the task off because
a backend is at work on the page. `bg_replayed_lsn` says how far this has come:
workers move it to the record at the head of the running queue, and the
dispatcher, with nothing left to do, to what was replayed before it looked.

Any task in the running queue can be worked on at any time, with any steps of
the rest of the server in between: others read, replay, write and evict pages,
the primary moves its consistent position, relations are truncated. When
finished tasks are removed and when the pool refuses a task is open. An entry
is known by its position in the logindex, whose iterator gives every entry once
and in order.
-/

namespace PolarDB.BgReplay

/-! ## Entries and pages -/

/-- An entry of the logindex, with what a worker reads from the record: where
it ends and whether it has an image of the page to restore. -/
structure Entry (Tag : Type) where
  tag : Tag
  lsn : Nat
  endPtr : Nat
  image : Bool
  deriving DecidableEq, Repr

structure RedoState where
  readIoEnd : Bool
  outdate : Bool
  replaying : Bool
  invalidate : Bool
  deriving DecidableEq, Repr

structure Buffer where
  valid : Bool
  redoState : RedoState
  newOrEmpty : Bool
  pageLsn : Nat
  deriving DecidableEq, Repr

/-- What the workers share with the rest of the server: the buffer pool, the
positions of the pages on the storage, the answers of the relation size cache,
whether the node is a replica, the consistent position of the primary. -/
structure Server (Tag : Type) where
  pool : Tag → Option Buffer
  storage : Tag → Option Nat
  relBlockValid : Tag → Nat → Bool
  replica : Bool
  primaryConsistPtr : Nat

variable {Tag : Type}

inductive BufReplayStat where
  | needReplay
  | isReplaying
  | isReplayed
  | isTruncated
  deriving DecidableEq, Repr

def pinBufferForReplay (buffer : Option Buffer) : Option Buffer :=
  buffer.bind fun buf =>
    if buf.valid then some buf
    else if buf.redoState.readIoEnd && buf.redoState.outdate && !buf.redoState.replaying then
      some buf
    else none

def bufferNeedReplay (srv : Server Tag) (buf : Buffer) (e : Entry Tag) : BufReplayStat :=
  if buf.redoState.invalidate then .isTruncated
  else if buf.redoState.replaying then .isReplaying
  else if buf.newOrEmpty then if srv.relBlockValid e.tag e.lsn then .needReplay else .isTruncated
  else if buf.pageLsn ≠ 0 ∧ e.lsn < buf.pageLsn then .isReplayed
  else .needReplay

/-- `polar_logindex_apply_one_record`: a redo function leaves a page that has
the record and sets the position of another one to the end of the record. -/
def applyOneRecord (e : Entry Tag) (buf : Buffer) : Buffer :=
  if e.endPtr ≤ buf.pageLsn then buf else { buf with pageLsn := e.endPtr }

def applyReadRecord (e : Entry Tag) (buf : Buffer) : Buffer :=
  if buf.pageLsn ≤ e.lsn then applyOneRecord e buf else buf

/-- `XLogReadBufferExtended`: a page that is not in the pool comes from the
storage, at the position `lsn` there. -/
def readBuffer [DecidableEq Tag] (srv : Server Tag) (tag : Tag) (lsn : Nat) : Server Tag :=
  let buf := (srv.pool tag).getD ⟨true, ⟨true, false, false, false⟩, lsn = 0, lsn⟩
  { srv with pool := Function.update srv.pool tag (some { buf with valid := true }) }

/-! ## The state -/

/-- A task is to be done, its buffer is pinned or could not be, the record is to
be applied to the page if that could be read, the code goes on with an invalid
buffer, about which nothing is known; it was handled, was seen to be for the
record at the head of the queue, is finished. -/
inductive Status where
  | waiting
  | pinned
  | unpinned
  | apply (buffer : Bool)
  | invalidBuffer
  | handled
  | first
  | finished
  deriving DecidableEq, Repr

structure Task (Tag : Type) where
  pos : Nat
  entry : Entry Tag
  status : Status
  deriving DecidableEq, Repr

def Task.lsn (t : Task Tag) : Nat := t.entry.lsn

structure Report where
  buffer : Option Buffer
  relBlockValid : Bool
  primaryConsistPtr : Nat
  deriving DecidableEq, Repr

def Server.report (srv : Server Tag) (e : Entry Tag) : Report where
  buffer := srv.pool e.tag
  relBlockValid := srv.relBlockValid e.tag e.lsn
  primaryConsistPtr := srv.primaryConsistPtr

/-- The startup process: a record's pages are added to the logindex, then the
start and the end of the record are published. -/
inductive Startup (Tag : Type) where
  | idle
  | adding (lsn endPtr : Nat) (pages : List (Tag × Bool))
  | setRead (lsn endPtr : Nat)
  | setEnd (endPtr : Nat)
  deriving DecidableEq, Repr

/-- The dispatcher in `polar_logindex_bg_dispatch`, with `xlog_replayed_lsn`
while it is in use, then with `dispatch_done` and the position it has read. -/
inductive Dispatcher where
  | idle
  | remove
  | readEnd
  | fetch (xlogReplayedLsn : Nat)
  | check (xlogReplayedLsn : Nat)
  | add (xlogReplayedLsn : Nat)
  | checkEmpty (xlogReplayedLsn : Nat)
  | setReplayed (xlogReplayedLsn : Nat)
  | readReplayed (dispatchDone : Bool)
  | setOldest (dispatchDone : Bool) (bgReplayedLsn : Nat)
  | promote (dispatchDone : Bool)
  deriving DecidableEq, Repr

inductive BgRedoState where
  | parallelReplaying
  | onlinePromote
  | notStart
  deriving DecidableEq, Repr

/-- `iter` is the position of the iterator, `replayPage` the entry it gave last
if that was not dispatched; `report` is what a worker left of the page of an
entry. -/
structure State (Tag : Type) where
  entries : List (Entry Tag)
  lastReplayedReadPtr : Nat
  lastReplayedEndRecPtr : Nat
  startup : Startup Tag
  bgRedoState : BgRedoState
  bgReplayedLsn : Nat
  promoteOldestLsn : Nat
  iter : Nat
  replayPage : Option (Nat × Entry Tag)
  maxDispatchedLsn : Nat
  canHold : Bool
  dispatcher : Dispatcher
  queue : List (Task Tag)
  server : Server Tag
  report : Nat → Option Report

/-- Where the dispatcher starts: `bg_replayed_lsn` was set to a position that
was replayed, the last record is published, and the logindex has the entries of
the records so far. -/
structure Start (Tag : Type) where
  server : Server Tag
  bgReplayedLsn : Nat
  readPtr : Nat
  endRecPtr : Nat
  entries : List (Entry Tag)
  replayed : bgReplayedLsn ≤ endRecPtr
  lt : readPtr < endRecPtr
  sorted : entries.Pairwise fun e e' => e.lsn ≤ e'.lsn
  added : ∀ e ∈ entries, e.lsn ≤ readPtr
  ends : ∀ e ∈ entries, e.lsn < e.endPtr

def Start.iter (st : Start Tag) : Nat :=
  (st.entries.takeWhile fun e => decide (e.lsn < st.bgReplayedLsn)).length

def Start.init (st : Start Tag) : State Tag where
  entries := st.entries
  lastReplayedReadPtr := st.readPtr
  lastReplayedEndRecPtr := st.endRecPtr
  startup := .idle
  bgRedoState := .parallelReplaying
  bgReplayedLsn := st.bgReplayedLsn
  promoteOldestLsn := st.bgReplayedLsn
  iter := st.iter
  replayPage := none
  maxDispatchedLsn := 0
  canHold := false
  dispatcher := .idle
  queue := []
  server := st.server
  report := fun _ => none

/-! ## Steps -/

section Steps

variable (s : State Tag)

def readRecord (lsn endPtr : Nat) (pages : List (Tag × Bool)) : Option (State Tag) :=
  match s.startup with
  | .idle =>
    if s.lastReplayedEndRecPtr ≤ lsn ∧ lsn < endPtr then
      some { s with startup := .adding lsn endPtr pages }
    else none
  | _ => none

def startupStep : Option (State Tag) :=
  match s.startup with
  | .idle => none
  | .adding lsn endPtr ((tag, image) :: pages) =>
    some { s with
      entries := s.entries ++ [⟨tag, lsn, endPtr, image⟩]
      startup := .adding lsn endPtr pages }
  | .adding lsn endPtr [] => some { s with startup := .setRead lsn endPtr }
  | .setRead lsn endPtr => some { s with lastReplayedReadPtr := lsn, startup := .setEnd endPtr }
  | .setEnd endPtr => some { s with lastReplayedEndRecPtr := endPtr, startup := .idle }

def startDispatch : Option (State Tag) :=
  if s.dispatcher = .idle ∧ s.bgRedoState ≠ .notStart then
    some { s with canHold := false, dispatcher := .remove }
  else none

/-- The next step of the dispatcher. The pool takes the task or refuses it;
`backendMinLsn` is the smallest position of a backend, 0 if there is none. -/
def dispatcherStep (accept : Bool) (backendMinLsn : Nat) : Option (State Tag) :=
  match s.dispatcher with
  | .idle => none
  | .remove => some { s with dispatcher := .readEnd }
  | .readEnd => some { s with dispatcher := .fetch s.lastReplayedEndRecPtr }
  | .fetch x =>
    match s.replayPage with
    | some _ => some { s with dispatcher := .check x }
    | none =>
      match s.entries[s.iter]? with
      | some e => some { s with
          replayPage := some (s.iter, e), iter := s.iter + 1, dispatcher := .check x }
      | none => some { s with dispatcher := .checkEmpty x }
  | .check x =>
    s.replayPage.map fun p =>
      if s.lastReplayedReadPtr < p.2.lsn then { s with dispatcher := .checkEmpty x }
      else { s with dispatcher := .add x }
  | .add _ =>
    s.replayPage.map fun p =>
      if accept then
        { s with
          queue := s.queue ++ [⟨p.1, p.2, .waiting⟩]
          maxDispatchedLsn := p.2.lsn
          replayPage := none
          dispatcher := .readEnd }
      else { s with canHold := true, dispatcher := .readReplayed false }
  | .checkEmpty x =>
    some { s with dispatcher := if s.queue.isEmpty then .setReplayed x else .readReplayed false }
  | .setReplayed x =>
    some { s with
      bgReplayedLsn := max x s.maxDispatchedLsn
      dispatcher := .readReplayed true }
  | .readReplayed dispatchDone =>
    some { s with dispatcher := .setOldest dispatchDone s.bgReplayedLsn }
  | .setOldest dispatchDone bgReplayedLsn =>
    some { s with
      promoteOldestLsn := if backendMinLsn = 0 then bgReplayedLsn else backendMinLsn
      dispatcher := if s.bgRedoState = .onlinePromote then .promote dispatchDone else .idle }
  | .promote dispatchDone =>
    some { s with
      bgRedoState := if dispatchDone ∧ backendMinLsn = 0 then .notStart else s.bgRedoState
      dispatcher := .idle }

def remove (i : Nat) : Option (State Tag) :=
  match s.dispatcher with
  | .remove | .add _ =>
    s.queue[i]?.bind fun t =>
      if t.status = .finished then some { s with queue := s.queue.eraseIdx i } else none
  | _ => none

def setTask (i : Nat) (t : Task Tag) (srv : Server Tag) (status : Status) : State Tag :=
  { s with server := srv, queue := s.queue.set i { t with status := status } }

def setHandled (i : Nat) (t : Task Tag) (srv : Server Tag) : State Tag :=
  { setTask s i t srv .handled with
    report := Function.update s.report t.pos (some (srv.report t.entry)) }

/-- The next step of a worker in `handle_parallel_replay_task`. A pinned buffer
stays in the pool. -/
def workerStep [DecidableEq Tag] (i : Nat) (evicted : Bool) : Option (State Tag) :=
  s.queue[i]?.bind fun t =>
    let e := t.entry
    let srv := s.server
    match t.status with
    | .waiting =>
      some (setTask s i t srv
        (if (pinBufferForReplay (srv.pool e.tag)).isSome then .pinned else .unpinned))
    | .pinned =>
      (srv.pool e.tag).map fun buf =>
        match bufferNeedReplay srv buf e with
        | .isReplaying => setTask s i t srv .waiting
        | .isReplayed | .isTruncated => setHandled s i t srv
        | .needReplay =>
          if srv.replica = true ∧ e.lsn < srv.primaryConsistPtr ∧ evicted = true then
            setHandled s i t { srv with pool := Function.update srv.pool e.tag none }
          else setTask s i t srv (.apply true)
    | .unpinned =>
      if e.lsn < srv.primaryConsistPtr then some (setHandled s i t srv)
      else if srv.relBlockValid e.tag e.lsn then
        match srv.storage e.tag with
        | some lsn => some (setTask s i t (readBuffer srv e.tag lsn) (.apply true))
        | none => some (setTask s i t srv (.apply false))
      else some (setHandled s i t srv)
    | .apply true =>
      (srv.pool e.tag).map fun buf =>
        setHandled s i t
          { srv with pool := Function.update srv.pool e.tag (some (applyReadRecord e buf)) }
    | .apply false =>
      if e.image then
        if srv.relBlockValid e.tag e.lsn then
          -- `RBM_ZERO_ON_ERROR`
          some (setTask s i t (readBuffer srv e.tag ((srv.storage e.tag).getD 0)) (.apply true))
        else some (setHandled s i t srv)
      else some (setTask s i t srv .invalidBuffer)
    | .invalidBuffer | .handled | .first | .finished => none

def taskFinished (i : Nat) : Option (State Tag) :=
  s.queue[i]?.bind fun t =>
    match t.status with
    | .handled =>
      s.queue.head?.map fun head =>
        let status := if head.lsn = t.lsn then .first else .finished
        { s with queue := s.queue.set i { t with status := status } }
    | .first =>
      some { s with
        bgReplayedLsn := if s.bgReplayedLsn < t.lsn then t.lsn else s.bgReplayedLsn
        queue := s.queue.set i { t with status := .finished } }
    | _ => none

end Steps

inductive Action (Tag : Type) where
  | readRecord (lsn endPtr : Nat) (pages : List (Tag × Bool))
  | startup
  | onlinePromote
  | dispatch
  | dispatcher (accept : Bool) (backendMinLsn : Nat)
  | remove (i : Nat)
  | worker (i : Nat) (evicted : Bool)
  | taskFinished (i : Nat)
  | others (srv : Server Tag)

def step [DecidableEq Tag] (s : State Tag) : Action Tag → Option (State Tag)
  | .readRecord lsn endPtr pages => readRecord s lsn endPtr pages
  | .startup => startupStep s
  | .onlinePromote =>
    if s.bgRedoState = .parallelReplaying then
      some { s with bgRedoState := .onlinePromote } else none
  | .dispatch => startDispatch s
  | .dispatcher accept backendMinLsn => dispatcherStep s accept backendMinLsn
  | .remove i => remove s i
  | .worker i evicted => workerStep s i evicted
  | .taskFinished i => taskFinished s i
  | .others srv => some { s with server := srv }

end PolarDB.BgReplay
