import PolarDB.FlashbackPoint
import PolarDB.Lts

/-!
# Looking up flashback points while they are made

The checkpointer makes one flashback point at a time
(`polar_fra_do_fbpoint`): it backs up the snapshot, puts the record into
the buffer and the file, raises the record number, looks for the oldest
point it has to keep, writes the control file and removes the segment
files below. Backends look points up meanwhile: the record number without
the buffer lock, the buffer under it, older segments in their files. The
server may stop at any moment.

A lookup is right (`Search.Right`) when it returns what it has to over the
points kept when it began or when it ended. This holds if no backend
searches the buffer while it holds another segment than expected (`StepOk`):
after a restart at a segment boundary the buffer is empty, and the first
record of a segment clears it before the record number is raised.
-/

namespace PolarDB.FlashbackPoint

def snapshotHeaderSize : Nat := 12

/-- Where `polar_backup_snapshot_to_fra` begins to write (downwards): the
header is not split. -/
def snapshotStart (endPos : FbpointPos) : FbpointPos :=
  if endPos.offset - recEndPos < snapshotHeaderSize then ⟨endPos.segNo + 1, segSize⟩ else endPos

def snapshotPos (start : FbpointPos) (totalSize : Nat) : FbpointPos :=
  if start.offset - recEndPos < totalSize then ⟨start.segNo, recEndPos⟩
  else ⟨start.segNo, start.offset - totalSize⟩

/-! ## States -/

structure CtlFile where
  nextFbpointRecNo : Nat
  snapshotEndPos : FbpointPos

/-- Where the checkpointer is in `polar_fra_do_fbpoint`; `r` is its
`rec_data`, `endPos` its local `snapshot_end_pos`. -/
inductive Pc where
  | idle
  /-- `totalSize` bytes of the snapshot are left, to be written below `pos`. -/
  | backup (r : FbpointRec) (totalSize : Nat) (pos : FbpointPos)
  | backedUp (r : FbpointRec) (endPos : FbpointPos)
  | inserted (r : FbpointRec) (endPos : FbpointPos)
  | written (r : FbpointRec) (endPos : FbpointPos)
  | flushed (r : FbpointRec) (endPos : FbpointPos)
  | kept (r : FbpointRec) (endPos : FbpointPos) (keepTime : Int)
      (res : Option (FbpointRec × Nat))
  | saved (r : FbpointRec) (segNo : Nat)
  | truncating (segNo : Nat)

inductive Phase where
  | buffer (maxRecNo : Nat)
  | file (maxRecNo segNo : Nat)
  /-- It returned `res`; `after` are the points kept at that moment. -/
  | done (res : Option FbpointRec) (after : List FbpointRec)

/-- A lookup of a backend. `before` are the points kept when it began. -/
structure Search where
  targetTime : Int
  before : List FbpointRec
  phase : Phase

structure State where
  nextFbpointRecNo : Nat
  buf : SegBuf
  snapshotEndPos : FbpointPos
  files : Files
  ctlFile : Option CtlFile
  pc : Pc
  searches : List Search
  failed : Bool
  /-- History: the records put into the buffer, cut at a restart to those
  the control file knows. -/
  recs : List FbpointRec
  /-- History: no truncation has removed this segment or a later one. -/
  floor : Nat
  /-- History: the buffer was loaded at startup or filled since. -/
  loaded : Bool

def State.retained (s : State) : List FbpointRec :=
  points s.recs s.floor s.nextFbpointRecNo

def State.init : State where
  nextFbpointRecNo := 0
  buf := zeroBuf
  snapshotEndPos := ⟨0, segSize⟩
  files := fun _ => none
  ctlFile := none
  pc := .idle
  searches := []
  failed := false
  recs := []
  floor := 0
  loaded := false

/-! ## The checkpointer -/

def truncateStart (r : FbpointRec) (segNo : Nat) : Pc :=
  if 0 < segNo then
    let keep := min r.snapshotPos.segNo segNo
    if keep = 0 then .idle else .truncating (keep - 1)
  else .idle

/-- The next step of the checkpointer within `polar_fra_do_fbpoint`.
`keepTime` is the oldest time to keep, for the step that looks it up. -/
def checkpointerStep (s : State) (keepTime : Int) : Option State :=
  match s.pc with
  | .idle => none
  | .backup r totalSize pos =>
    let writeSize := min totalSize (pos.offset - recEndPos)
    some { s with
      files := fbpointFileInit s.files pos.segNo
      pc := if 0 < totalSize - writeSize then
          .backup r (totalSize - writeSize) ⟨pos.segNo + 1, segSize⟩
        else .backedUp r ⟨pos.segNo, pos.offset - writeSize⟩ }
  | .backedUp r endPos =>
    some { s with
      buf := insertFbpointRec s.buf s.nextFbpointRecNo r
      recs := s.recs ++ [r]
      loaded := true
      pc := .inserted r endPos }
  | .inserted r endPos =>
    some { s with
      buf := writeFbpointRecBuf s.buf s.nextFbpointRecNo
      files := writeFbpointRecFiles s.buf s.files s.nextFbpointRecNo
      pc := .written r endPos }
  | .written r endPos =>
    some { s with nextFbpointRecNo := s.nextFbpointRecNo + 1, pc := .flushed r endPos }
  | .flushed r endPos =>
    match getRightFbpoint s.buf s.files s.nextFbpointRecNo keepTime true with
    | .found res => some { s with pc := .kept r endPos keepTime res }
    | .corrupt => some { s with failed := true, pc := .idle }
  | .kept r endPos _ res =>
    -- nothing found leaves `rec_data` and a segment number of zero
    some { s with
      snapshotEndPos := endPos
      ctlFile := some ⟨s.nextFbpointRecNo, endPos⟩
      pc := .saved (res.getD (r, 0)).1 (res.getD (r, 0)).2 }
  | .saved r segNo => some { s with pc := truncateStart r segNo }
  | .truncating segNo =>
    match s.files segNo with
    | none => some { s with pc := .idle }
    | some _ => some { s with
        files := Function.update s.files segNo none
        floor := max s.floor (segNo + 1)
        pc := if segNo = 0 then .idle else .truncating (segNo - 1) }

def Search.turn (q : Search) (buf : SegBuf) (maxRecNo segNo : Nat)
    (after : List FbpointRec) : Search :=
  { q with phase :=
      match searchSeg buf q.targetTime segNo maxRecNo with
      | some r => .done (some r) after
      | none => if segNo = 0 then .done none after else .file maxRecNo (segNo - 1) }

def Search.next (q : Search) (s : State) : Option (Search × Bool) :=
  match q.phase with
  | .buffer maxRecNo => some (q.turn s.buf maxRecNo (maxRecNo / recPerSeg) s.retained, false)
  | .file maxRecNo segNo =>
    match readFbpointRecords s.files segNo maxRecNo with
    | .ok buf => some (q.turn buf maxRecNo segNo s.retained, false)
    | .noent => some ({ q with phase := .done none s.retained }, false)
    | .corrupt => some ({ q with phase := .done none s.retained }, true)
  | .done _ _ => none

/-- `polar_startup_fra` and `polar_startup_flashback_point` over the files
that are left. -/
def State.restart (s : State) : State :=
  let nextNo := s.ctlFile.elim 0 CtlFile.nextFbpointRecNo
  let endPos := s.ctlFile.elim ⟨0, 0⟩ CtlFile.snapshotEndPos
  let s' : State := { s with
    nextFbpointRecNo := nextNo
    buf := zeroBuf
    snapshotEndPos := if endPos = ⟨0, 0⟩ then ⟨0, segSize⟩ else endPos
    pc := .idle
    searches := []
    recs := s.recs.take nextNo
    loaded := false }
  -- `startup_fbpoint_rec_buf`
  if nextNo % recPerSeg ≠ 0 then
    match readFbpointRecords s.files (nextNo / recPerSeg) (nextNo - 1) with
    | .ok buf => { s' with buf := buf, loaded := true }
    | _ => { s' with failed := true }
  else s'

/-! ## Runs -/

inductive Action where
  /-- The checkpointer begins a flashback point with these contents (the
  snapshot's position apart) and `dataSize` bytes of snapshot data. -/
  | fbpoint (r : FbpointRec) (dataSize : Nat)
  | checkpointer (keepTime : Int)
  | search (targetTime : Int)
  | searchNext (i : Nat)
  | restart

/-- One step. A flashback point is never older than those before it. -/
def step (s : State) : Action → Option State
  | .fbpoint r dataSize =>
    match s.pc with
    | .idle =>
      if ∀ r' ∈ s.recs, r'.time ≤ r.time then
        let totalSize := snapshotHeaderSize + dataSize
        let start := snapshotStart s.snapshotEndPos
        some { s with
          pc := .backup { r with snapshotPos := snapshotPos start totalSize } totalSize start }
      else none
    | _ => none
  | .checkpointer keepTime => checkpointerStep s keepTime
  | .search targetTime =>
    some { s with searches := s.searches ++
      [{ targetTime := targetTime
         before := s.retained
         phase := if s.nextFbpointRecNo = 0 then .done none s.retained
           else .buffer (s.nextFbpointRecNo - 1) }] }
  | .searchNext i =>
    s.searches[i]?.bind fun q => (q.next s).map fun p =>
      { s with searches := s.searches.set i p.1, failed := s.failed || p.2 }
  | .restart => some s.restart

/-- The buffer is searched only while it holds the segment of the record
number that was read before. -/
def Phase.BufOk (s : State) : Phase → Prop
  | .buffer maxRecNo =>
    s.loaded = true ∧ maxRecNo / recPerSeg = (s.recs.length - 1) / recPerSeg
  | .file _ _ => True
  | .done _ _ => True

def StepOk (s : State) : Action → Prop
  | .searchNext i => ∀ q ∈ s.searches[i]?, q.phase.BufOk s
  | .fbpoint _ _ | .checkpointer _ | .search _ | .restart => True

/-- A finished lookup returned what it has to return over the points kept
when it began or when it ended. -/
def Search.Right (q : Search) : Prop :=
  ∀ res after, q.phase = .done res after →
    IsRight q.before q.targetTime res ∨ IsRight after q.targetTime res

end PolarDB.FlashbackPoint
