import PolarDB.Lts
import PolarDB.XlogPosition

/-!
# Links of written WAL

With the WAL pipeline an inserter that has copied a piece of its record to the
WAL buffers adds a link for it: in the slot of the byte position where the
piece starts, modulo the size of the ring, it stores the length of the piece.
The advance worker follows the links from the ready position on, clears their
slots and then publishes how far it came. A link may be added only if its
start is less than a ring ahead of the ready position.

`copyXLogRecordToWal` computes the links of a record in order: one for each part
of a data piece on one page, one for each page that an xlog-switch skips, one
for the padding. A step is one access to a slot or to the ready position.
-/

namespace PolarDB.WalPipeline

open Function Xlog

abbrev Link := Nat × Nat

def sizeOfXLogRecord : Nat := 24

/-! ## Copying a record -/

section Copy

variable (g : Geometry)

/-- The loop over the pages that a data piece fills; what is left of the piece
then fits. -/
def copyPages : Nat → Nat → Nat → Nat → List Link × Nat × Nat × Nat
  | 0, curr, freespace, len => ([], curr, freespace, len)
  | fuel + 1, curr, freespace, len =>
    if freespace < len then
      let next := curr + freespace
      let body := next + (if g.segmentOffset next = 0 then sizeOfLongPhd else sizeOfShortPhd)
      let r := copyPages fuel body (g.insertFreespace body) (len - freespace)
      ((if freespace ≠ 0 then [(curr, next)] else []) ++ r.1, r.2)
    else ([], curr, freespace, len)

def copyPiece (curr freespace len : Nat) : List Link × Nat × Nat :=
  let (links, curr, freespace, len) := copyPages g (len + 1) curr freespace len
  (links ++ (if len ≠ 0 then [(curr, curr + len)] else []), curr + len, freespace - len)

def copyData : List Nat → Nat → Nat → List Link × Nat × Nat
  | [], curr, freespace => ([], curr, freespace)
  | len :: lens, curr, freespace =>
    let (links, curr, freespace) := copyPiece g curr freespace len
    let (links', curr, freespace) := copyData lens curr freespace
    (links ++ links', curr, freespace)

def switchPages : Nat → Nat → Nat → List Link × Nat
  | 0, curr, _ => ([], curr)
  | fuel + 1, curr, endPos =>
    if curr < endPos then
      let r := switchPages fuel (curr + g.blcksz) endPos
      ((curr, curr + g.blcksz) :: r.1, r.2)
    else ([], curr)

/-- `CopyXLogRecordToWAL`: the links, and the position that has to be the end
of the record. -/
def copyXLogRecordToWal (isLogSwitch : Bool) (lens : List Nat) (startPos endPos : Nat) :
    List Link × Nat :=
  let (links, curr, freespace) := copyData g lens startPos (g.insertFreespace startPos)
  if isLogSwitch ∧ g.segmentOffset curr ≠ 0 then
    let next := curr + freespace
    let (pages, curr') := switchPages g (endPos - next) next endPos
    (links ++ (if freespace ≠ 0 then [(curr, next)] else []) ++ pages, curr')
  else (links ++ (if curr ≠ endPos then [(curr, endPos)] else []), maxAlign curr)

structure Reserved where
  startPos : Nat
  endPos : Nat
  endBytePos : Nat

def reserveXLogInsertLocation (currBytePos size : Nat) : Reserved :=
  let endBytePos := currBytePos + maxAlign size
  ⟨g.bytePosToRecPtr currBytePos, g.bytePosToEndRecPtr endBytePos, endBytePos⟩

/-- `ReserveXLogSwitch`: nothing is reserved at the start of a segment. -/
def reserveXLogSwitch (currBytePos : Nat) : Option Reserved :=
  if g.segmentOffset (g.bytePosToEndRecPtr currBytePos) = 0 then none
  else
    let endBytePos := currBytePos + maxAlign sizeOfXLogRecord
    let startPos := g.bytePosToRecPtr currBytePos
    let endPos := g.bytePosToEndRecPtr endBytePos
    let segleft := g.walSegmentSize - g.segmentOffset endPos
    if segleft ≠ g.walSegmentSize then
      some ⟨startPos, endPos + segleft, g.recPtrToBytePos (endPos + segleft)⟩
    else some ⟨startPos, endPos, endBytePos⟩

end Copy

/-! ## The system -/

/-- An inserter is about to look for space for the first of its links, or to
write it. -/
inductive Inserter where
  | idle
  | wait (links : List Link) (ok : Bool)
  | write (links : List Link) (ok : Bool)
  | panic
  deriving DecidableEq, Repr

def Inserter.links : Inserter → List Link
  | .wait links _ | .write links _ => links
  | _ => []

/-- The inserter has added its last link; `ok` says whether it came to the end
of what was reserved. -/
def Inserter.next (links : List Link) (ok : Bool) : Inserter :=
  match links with
  | [] => if ok then .idle else .panic
  | link :: links => .wait (link :: links) ok

/-- A call of `polar_wal_pipeline_recent_written_advance`: about to read the
slot of the tail, to clear it, or to publish the tail. -/
inductive Advance where
  | idle
  | read (oldPos tailPos : Nat)
  | clear (oldPos tailPos distance : Nat)
  | publish (tailPos : Nat)
  deriving DecidableEq, Repr

/-- The ring has `2 ^ sizeLog` slots; `writeMaxSize` is the limit of one call. -/
structure WrittenConf where
  geometry : Geometry
  sizeLog : Nat
  writeMaxSize : Nat

/-- `recent_written_position_slots` and `ready_write_position`, the insert
position, the processes; `reserved` are the links of all records so far,
`added` those that were added, and `lastEnd` is the end of the last record. -/
structure Written where
  slots : Nat → Nat
  readyPos : Nat
  currBytePos : Nat
  inserters : Nat → Inserter
  advance : Advance
  reserved : List Link
  added : List Link
  lastEnd : Nat

namespace WrittenConf

variable (c : WrittenConf)

def size : Nat := 2 ^ c.sizeLog

def slot (pos : Nat) : Nat := pos &&& (c.size - 1)

/-- The records so far end at `bytePos`, and none is being inserted. -/
def init (bytePos : Nat) : Written where
  slots := fun _ => 0
  readyPos := bytePos
  currBytePos := bytePos
  inserters := fun _ => .idle
  advance := .idle
  reserved := []
  added := []
  lastEnd := c.geometry.bytePosToEndRecPtr bytePos

def readyWriteLsn (s : Written) : Nat := c.geometry.bytePosToEndRecPtr s.readyPos

def hasSpace (s : Written) (startLsn : Nat) : Bool :=
  c.geometry.recPtrToBytePos startLsn < s.readyPos + c.size

def linkSlot (link : Link) : Nat := c.slot (c.geometry.recPtrToBytePos link.1)

def distance (link : Link) : Nat :=
  c.geometry.recPtrToBytePos link.2 - c.geometry.recPtrToBytePos link.1

end WrittenConf

section Steps

variable (c : WrittenConf) (s : Written)

def Written.insert (i : Nat) (isLogSwitch : Bool) (lens : List Nat) (r : Reserved) : Written :=
  let (links, curr) := copyXLogRecordToWal c.geometry isLogSwitch lens r.startPos r.endPos
  { s with
    currBytePos := r.endBytePos
    inserters := update s.inserters i (.next links (curr = r.endPos))
    reserved := s.reserved ++ links
    lastEnd := r.endPos }

def inserterStep (i : Nat) : Option Written :=
  match s.inserters i with
  | .idle | .panic | .wait [] _ | .write [] _ => none
  | .wait (link :: links) ok =>
    if c.hasSpace s link.1 then
      some { s with inserters := update s.inserters i (.write (link :: links) ok) }
    else none
  | .write (link :: links) ok =>
    some { s with
      slots := update s.slots (c.linkSlot link) (c.distance link)
      inserters := update s.inserters i (.next links ok)
      added := link :: s.added }

def advanceStep : Written :=
  match s.advance with
  | .idle => { s with advance := .read s.readyPos s.readyPos }
  | .read oldPos tailPos =>
    let distance := s.slots (c.slot tailPos)
    if distance = 0 then
      { s with advance := if oldPos < tailPos then .publish tailPos else .idle }
    else { s with advance := .clear oldPos tailPos distance }
  | .clear oldPos tailPos distance =>
    let tailPos' := tailPos + distance
    { s with
      slots := update s.slots (c.slot tailPos) 0
      advance :=
        if c.writeMaxSize ≠ 0 ∧ c.writeMaxSize < tailPos' - oldPos then .publish tailPos'
        else .read oldPos tailPos' }
  | .publish tailPos => { s with readyPos := tailPos, advance := .idle }

def Written.ReturnsFalse : Prop :=
  ∃ oldPos tailPos, s.advance = .read oldPos tailPos ∧ s.slots (c.slot tailPos) = 0
    ∧ ¬oldPos < tailPos

inductive WrittenAction where
  | insert (i : Nat) (lens : List Nat)
  | insertSwitch (i : Nat) (lens : List Nat)
  | inserter (i : Nat)
  | advance
  deriving DecidableEq, Repr

/-- A record has data behind its header, the one of an xlog-switch has none. -/
def writtenStep : WrittenAction → Option Written
  | .insert i lens =>
    if s.inserters i = .idle ∧ sizeOfXLogRecord < maxAlign lens.sum then
      some (s.insert c i false lens
        (reserveXLogInsertLocation c.geometry s.currBytePos lens.sum))
    else none
  | .insertSwitch i lens =>
    if s.inserters i = .idle ∧ lens.sum = sizeOfXLogRecord then
      match reserveXLogSwitch c.geometry s.currBytePos with
      | none => some s
      | some r => some (s.insert c i true lens r)
    else none
  | .inserter i => inserterStep c s i
  | .advance => some (advanceStep c s)

end Steps

end PolarDB.WalPipeline
