import PolarDB.LogIndexTable
import PolarDB.Lts

/-!
# The ring of logindex tables

The shared state of a writable logindex snapshot - the ring of memory
tables, the meta data, the table files and the bloom pages - and the
processes that work on it, translated from `polar_logindex.c`:

* the inserter, `polar_logindex_add_lsn` with `log_index_insert_lsn`,
  `log_index_next_free_seg` and `log_index_wait_active`;
* the background flusher, `log_index_flush_table`;
* readers, which may replace a FLUSHED slot in `log_index_read_table`.

Table `tid` lives in ring slot `(tid - 1) % mem_tbl_size` and, once
saved, at position `(tid - 1) % 64` of segment file `(tid - 1) / 64`.

An action is one section of a process under its table lock or, for the
inserter, between two such sections, with what the environment decides:
the answer of `table_flushable`, the outcome of a conditional lock, the
table a flusher picked before it got the lock. `none` stands for the FATAL
and PANIC exits. I/O errors, promotion and the optional local file cache
are not modelled.
-/

namespace PolarDB.LogIndex

/-! ## State -/

/-- `LOG_INDEX_TABLE_NUM_PER_FILE`: two tables per bloom block, 32 pages
per SLRU segment. -/
def tableNumPerFile : Nat := 64

def bloomNumPerBlock : Nat := 2

/-- What is fixed when a snapshot is created. `tagHash` is `tag_hash`,
and a snapshot has at least three memory tables. -/
structure Config where
  memTblSize : Nat
  tagHash : BufferTag → Nat
  bloom : BloomFilter
  three_le : 3 ≤ memTblSize

def Config.hashPage (cfg : Config) (tag : BufferTag) : Nat := cfg.tagHash tag % memTblHashNum

structure LogIndexFileSegment where
  segmentNo : Nat
  maxLsn : Nat
  maxIdxTableId : Nat
  minIdxTableId : Nat
  deriving DecidableEq, Repr

/-- `log_index_meta_t`. `written` stands for a nonzero `crc`: the meta
data has been written at least once. -/
structure LogIndexMeta where
  maxIdxTableId : Nat
  minSegmentInfo : LogIndexFileSegment
  startLsn : Nat
  maxLsn : Nat
  written : Bool
  deriving DecidableEq, Repr

abbrev SegFile := Nat → Option LogIdxTableData

structure Snapshot (cfg : Config) where
  memTable : Nat → LogMemTable
  maxLsn : Nat
  activeTable : Nat
  maxIdxTableId : Nat
  logMeta : LogIndexMeta
  maxAllocatedSegNo : Nat
  adding : Bool
  files : Nat → Option SegFile
  bloomPages : Nat → Option (LogFileTableBloom cfg.bloom)

section Snapshot

variable {cfg : Config}

def Config.slotOf (cfg : Config) (tid : Nat) : Nat := (tid - 1) % cfg.memTblSize

def segmentNo (tid : Nat) : Nat := (tid - 1) / tableNumPerFile

def segmentOffset (tid : Nat) : Nat := (tid - 1) % tableNumPerFile

variable (s : Snapshot cfg)

def Snapshot.setTable (mid : Nat) (m : LogMemTable) : Snapshot cfg :=
  { s with memTable := Function.update s.memTable mid m }

def Snapshot.setState (mid : Nat) (state : MemTblState) : Snapshot cfg :=
  s.setTable mid { s.memTable mid with state := state }

/-! ## Writing a table -/

/-- `log_index_save_bloom`. The first table of a bloom page zeroes it. -/
def saveBloom (tid : Nat) (bloom : LogFileTableBloom cfg.bloom) : Snapshot cfg :=
  if (tid - 1) % bloomNumPerBlock = 0 then
    { s with
      bloomPages := Function.update (Function.update s.bloomPages (tid + 1) none) tid (some bloom) }
  else { s with bloomPages := Function.update s.bloomPages tid (some bloom) }

/-- `log_index_open_table_file` for writing: only the first table of a
segment creates the file. -/
def openTableFile (tid : Nat) : Option SegFile :=
  match s.files (segmentNo tid) with
  | some file => some file
  | none => if segmentOffset tid = 0 then some fun _ => none else none

/-- `log_index_write_table_data` with `log_index_save_table`: the bloom
data first, then the table with the LSN range the bloom data found. -/
def writeTableData (mid : Nat) : Option (Snapshot cfg) :=
  let table := s.memTable mid
  let tid := table.data.idxTableId
  match openTableFile s tid with
  | none => none
  | some file =>
    let bloom := getBloomData cfg.bloom table.data tid
    let data := { table.data with minLsn := bloom.minLsn, maxLsn := bloom.maxLsn }
    let s' := (saveBloom s tid bloom).setTable mid { table with data := data }
    some { s' with
      files := Function.update s'.files (segmentNo tid)
        (some (Function.update file (segmentOffset tid) (some data))) }

def writeMeta (m : LogIndexMeta) : Snapshot cfg :=
  { s with
    logMeta := { m with
      startLsn := if m.maxLsn ≠ invalidXLogRecPtr then m.maxLsn else m.startLsn
      written := true } }

/-- The meta update of `log_index_write_table` for a table that is not
active any more. -/
def metaAddTable (m : LogIndexMeta) (tid maxLsn : Nat) : LogIndexMeta :=
  let minSeg := { m.minSegmentInfo with
    segmentNo := min m.minSegmentInfo.segmentNo (segmentNo tid) }
  { m with
    maxIdxTableId := max m.maxIdxTableId tid
    maxLsn := max m.maxLsn maxLsn
    minSegmentInfo :=
      if minSeg.segmentNo = segmentNo tid then
        { minSeg with
          maxLsn := max maxLsn minSeg.maxLsn
          maxIdxTableId := max tid minSeg.maxIdxTableId
          minIdxTableId := minSeg.segmentNo * tableNumPerFile + 1 }
      else minSeg }

/-- `log_index_write_table`. Tables are saved in id order; the meta data
moves only for a table that is no longer active. -/
def writeTable (mid : Nat) : Option (Snapshot cfg × Bool) :=
  let tid := (s.memTable mid).data.idxTableId
  if tid = s.logMeta.maxIdxTableId + 1 then
    match writeTableData s mid with
    | none => none
    | some s' =>
      if (s'.memTable mid).state = .active then some (s', true)
      else
        some ((writeMeta s' (metaAddTable s'.logMeta tid (s'.memTable mid).data.maxLsn)).setState
          mid .flushed, true)
  else some (s, false)

def forceSaveTable (mid : Nat) (flushable : Bool) : Option (Snapshot cfg) :=
  if flushable then
    match writeTable s mid with
    | some (s', true) => some s'
    | _ => none
  else some s

/-- One locked section of `log_index_flush_table` on slot `mid`. The slot
was chosen, and its state first looked at, before the lock was taken, so
neither is assumed here. -/
def flushTable (mid : Nat) (flushActive flushable : Bool)
    (lastFlushMaxLsn : Nat) : Option (Snapshot cfg) :=
  let table := s.memTable mid
  if flushActive && table.state = .active && lastFlushMaxLsn = table.data.maxLsn &&
      !memTblIsNew table then
    some s
  else if (table.state = .inactive || table.state = .active) && flushable then
    match writeTable s mid with
    | none => none
    | some (s', false) => some s'
    | some (s', true) =>
      if (s'.memTable mid).state = .inactive then some (s'.setState mid .flushed) else some s'
  else some s

/-! ## Reading a table -/

structure TableCache where
  minIdxTableId : Nat
  maxIdxTableId : Nat
  data : SegFile

def emptyCache : TableCache := ⟨tableInvalidId, tableInvalidId, fun _ => none⟩

def readTableData (tid : Nat) : Option LogIdxTableData :=
  match s.files (segmentNo tid) with
  | none => none
  | some file => file (segmentOffset tid)

/-- The backward search of `log_index_read_seg_file` for the last saved
table of a segment: a recycled file ends with tables of its old life. -/
def cacheMaxTid (file : SegFile) (minTid maxSaved : Nat) : Nat → Nat
  | 0 => tableInvalidId
  | i + 1 =>
    match file i with
    | some data =>
      if minTid ≤ data.idxTableId ∧ data.idxTableId ≤ maxSaved then data.idxTableId
      else cacheMaxTid file minTid maxSaved i
    | none => cacheMaxTid file minTid maxSaved i

def readSegFile (segno : Nat) : Option TableCache :=
  match s.files segno with
  | none => none
  | some file =>
    match file 0 with
    | none => none
    | some first =>
      let minTid := segno * tableNumPerFile + 1
      if first.idxTableId ≠ minTid ∨ s.logMeta.maxIdxTableId < minTid then none
      else some ⟨minTid, cacheMaxTid file minTid s.logMeta.maxIdxTableId tableNumPerFile, file⟩

/-- The part of `log_index_read_table` behind the lookup in shared
memory: the table comes from the process's cache, refilled if needed. -/
def readTableCache (cache : TableCache) (tid : Nat) : Option (LogIdxTableData × TableCache) :=
  let cache? :=
    if tid < cache.minIdxTableId ∨ cache.maxIdxTableId < tid then readSegFile s (segmentNo tid)
    else some cache
  match cache? with
  | none => none
  | some cache =>
    if tid < cache.minIdxTableId ∨ cache.maxIdxTableId < tid then none
    else (cache.data (tid - cache.minIdxTableId)).map fun data => (data, cache)

/-- `log_index_read_table`. `shared` and `exclusive` are the outcomes of
the two conditional lock attempts on the ring slot. -/
def readTable (cache : TableCache) (tid : Nat) (shared exclusive : Bool) :
    Option (LogIdxTableData × Snapshot cfg × TableCache) :=
  let mid := cfg.slotOf tid
  let table := s.memTable mid
  if shared && table.state = .flushed && tid = table.data.idxTableId then
    some (table.data, s, cache)
  else
    match readTableCache s cache tid with
    | none => none
    | some (data, cache) =>
      if exclusive && table.state = .flushed && tid ≠ table.data.idxTableId then
        some (data, s.setTable mid { table with data := data }, cache)
      else some (data, s, cache)

/-! ## The inserter -/

/-- The local variables of `log_index_insert_lsn` and
`log_index_next_free_seg`; table pointers are slot numbers. -/
structure InsertCall where
  info : LogIndexLsn
  newItem : Bool
  head : Nat
  oldActive : Nat
  active : Nat
  nextMemId : Option Nat
  table : Nat
  deriving DecidableEq, Repr

inductive InsertPc where
  | idle
  | nextFreeSeg (c : InsertCall)
  | waitActive (c : InsertCall)
  | setActive (c : InsertCall)
  deriving DecidableEq, Repr

def newActive (mid lsn : Nat) : Snapshot cfg :=
  { s.setTable mid (memTblNewActive (s.memTable mid) (s.maxIdxTableId + 1) lsn) with
    maxIdxTableId := s.maxIdxTableId + 1 }

def waitActiveTurn (mid lsn : Nat) (flushable : Bool) : Option (Snapshot cfg × Bool) :=
  let saved :=
    if (s.memTable mid).state = .inactive then forceSaveTable s mid flushable else some s
  match saved with
  | none => none
  | some s =>
    let s := if (s.memTable mid).state = .flushed then s.setTable mid zeroMemTable else s
    let s := if (s.memTable mid).state = .free then newActive s mid lsn else s
    some (s, (s.memTable mid).state = .active && !memTblFull (s.memTable mid))

/-- The loop of `log_index_exists_in_saved_table` from order `i` down. -/
def existsInSavedLoop (t : LogIdxTableData) (info : LogIndexLsn) : Nat → Bool
  | 0 => false
  | i + 1 =>
    match getOrderLsn t i with
    | none => false
    | some saved =>
      if saved.lsn ≠ info.lsn then false
      else if info.tag = saved.tag then true
      else existsInSavedLoop t info i

def existsInSavedTable (info : LogIndexLsn) : Bool :=
  let table := s.memTable (loopPrevValue s.activeTable cfg.memTblSize)
  if table.state ≠ .flushed then false
  else existsInSavedLoop table.data info table.data.idxOrder.length

/-- The overlap filters of `polar_logindex_add_lsn` while the snapshot is
not yet ADDING: the entry is already in a saved table. -/
def alreadySaved (info : LogIndexLsn) : Bool :=
  info.lsn < s.logMeta.startLsn || info.lsn < s.logMeta.maxLsn ||
    (s.logMeta.maxLsn = info.lsn && existsInSavedTable s info)

/-- The first part of `log_index_insert_lsn`: look for the page's item in
the active table. -/
def startCall (info : LogIndexLsn) : InsertCall :=
  let active := s.memTable s.activeTable
  let head :=
    if active.state = .active && sameTableLsnPrefix active.data info.lsn then
      memTblExistsPage info.tag active.data (cfg.hashPage info.tag)
    else tblInvalidSeg
  { info := info, newItem := head = tblInvalidSeg, head := head, oldActive := s.activeTable,
    active := s.activeTable, nextMemId := none, table := s.activeTable }

def appendInPlace (c : InsertCall) : Bool :=
  !c.newItem && !memSegFull (s.memTable c.active).data c.head

def setData (mid : Nat) (data : LogIdxTableData) : Snapshot cfg :=
  { s.setTable mid { s.memTable mid with data := data } with maxLsn := data.maxLsn }

def finishInsert (c : InsertCall) (dst : Nat) : Snapshot cfg :=
  setData s c.active (insertEntry (s.memTable c.active).data
    (c.newItem || c.active ≠ c.oldActive) c.head dst (cfg.hashPage c.info.tag) c.info)

def addLsn (info : LogIndexLsn) : Snapshot cfg × InsertPc :=
  if !s.adding && alreadySaved s info then (s, .idle)
  else
    let s := { s with adding := true }
    let c := startCall s info
    if appendInPlace s c then
      (setData s c.active (appendEntry (s.memTable c.active).data c.head info), .idle)
    else (s, .nextFreeSeg c)

/-- One turn of the loop in `log_index_next_free_seg`. It ends in an
insertion or in a wait: for the next slot when the active table is full
or of another LSN prefix, for the active slot itself when it is not
active yet. -/
def nextFreeSeg (c : InsertCall) : Snapshot cfg × InsertPc :=
  let active := s.memTable s.activeTable
  if active.state = .active then
    if memTblIsNew active then
      let active' := { active with
        freeHead := active.freeHead + 1
        data := { active.data with prefixLsn := lsnPrefix c.info.lsn } }
      (finishInsert (s.setTable s.activeTable active') c active.freeHead, .idle)
    else if memTblFull active || !sameTableLsnPrefix active.data c.info.lsn then
      let next := loopNextValue s.activeTable cfg.memTblSize
      (s.setState s.activeTable .inactive,
        .waitActive { c with active := next, nextMemId := some next, table := next })
    else
      (finishInsert (s.setTable s.activeTable { active with freeHead := active.freeHead + 1 }) c
        active.freeHead, .idle)
  else
    match c.nextMemId with
    | none => (s, .waitActive { c with table := s.activeTable })
    | some next => (s, .waitActive { c with active := next, table := next })

def setActive (c : InsertCall) : Snapshot cfg :=
  match c.nextMemId with
  | none => s
  | some next => { s with activeTable := next }

end Snapshot

/-! ## The system -/

structure Sys (cfg : Config) where
  snap : Snapshot cfg
  inserter : InsertPc
  caches : Nat → TableCache

inductive Action where
  | addLsn (info : LogIndexLsn)
  | nextFreeSeg
  | waitActive (flushable : Bool)
  | setActive
  | flushTable (mid : Nat) (flushActive flushable : Bool) (lastFlushMaxLsn : Nat)
  | readTable (proc tid : Nat) (shared exclusive : Bool)
  deriving DecidableEq, Repr

variable {cfg : Config}

def step (s : Sys cfg) : Action → Option (Sys cfg)
  | .addLsn info =>
    match s.inserter with
    | .idle =>
      let (snap, pc) := addLsn s.snap info
      some { s with snap := snap, inserter := pc }
    | _ => none
  | .nextFreeSeg =>
    match s.inserter with
    | .nextFreeSeg c =>
      let (snap, pc) := nextFreeSeg s.snap c
      some { s with snap := snap, inserter := pc }
    | _ => none
  | .waitActive flushable =>
    match s.inserter with
    | .waitActive c =>
      match waitActiveTurn s.snap c.table c.info.lsn flushable with
      | none => none
      | some (snap, done) =>
        some { s with snap := snap, inserter := if done then .setActive c else .waitActive c }
    | _ => none
  | .setActive =>
    match s.inserter with
    | .setActive c => some { s with snap := setActive s.snap c, inserter := .nextFreeSeg c }
    | _ => none
  | .flushTable mid flushActive flushable lastFlushMaxLsn =>
    if mid < cfg.memTblSize then
      (flushTable s.snap mid flushActive flushable lastFlushMaxLsn).map fun snap =>
        { s with snap := snap }
    else none
  | .readTable proc tid shared exclusive =>
    -- readers ask for tables of kept segments only
    if 0 < tid ∧ s.snap.logMeta.minSegmentInfo.minIdxTableId ≤ tid then
      (readTable s.snap (s.caches proc) tid shared exclusive).map fun (_, snap, cache) =>
        { s with snap := snap, caches := Function.update s.caches proc cache }
    else none

def zeroMeta : LogIndexMeta :=
  { maxIdxTableId := 0, minSegmentInfo := ⟨0, 0, 0, 0⟩, startLsn := 0, maxLsn := 0,
    written := false }

def initSys (cfg : Config) : Sys cfg :=
  { snap :=
      { memTable := fun _ => zeroMemTable, maxLsn := 0, activeTable := 0, maxIdxTableId := 0,
        logMeta := zeroMeta, maxAllocatedSegNo := 0, adding := false,
        files := fun _ => none, bloomPages := fun _ => none }
    inserter := .idle
    caches := fun _ => emptyCache }

def InsertPc.pending : InsertPc → List LogIndexLsn
  | .idle => []
  | .nextFreeSeg c => [c.info]
  | .waitActive c => [c.info]
  | .setActive c => [c.info]

def addCalls (as : List Action) : List LogIndexLsn :=
  as.filterMap fun
    | .addLsn info => some info
    | _ => none

end PolarDB.LogIndex
