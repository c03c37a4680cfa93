import PolarDB.LogIndexPageIter

/-!
# Reading the log index from an LSN on

The LSN iterator of `polar_logindex_iterator.c`: the entries of all pages
from `start_lsn` on, in the order they were added. The first call of
`polar_logindex_lsn_iterator_next` searches the tables, in the ring and
then on storage, from the newest to the oldest for the place to start.
From there on the iterator keeps a table id and an order within the
table, and moves on at the end of a table that is no longer ACTIVE. A
search that finds nothing to return yet leaves `idx_table_id` invalid,
and the next call searches again.

`none` stands for the ERROR and PANIC exits. The iterator runs next to
the inserter and the flusher (`iterStep`), one call at a time.
-/

namespace PolarDB.LogIndex

/-- `log_index_lsn_iter_data_t`; what `lsn_info` points to is returned by
`lsnIteratorNext`. -/
structure LsnIter where
  startLsn : Nat
  state : IterState
  idxTableId : Nat
  idx : Nat
  lastSearchTid : Nat
  deriving DecidableEq, Repr

def setSearchTable (iter : LsnIter) (table : LogIdxTableData) : LsnIter :=
  let iter' :=
    if table.maxLsn ≠ invalidXLogRecPtr then
      if table.maxLsn < iter.startLsn then
        if iter.lastSearchTid = tableInvalidId then { iter with state := .finished }
        else { iter with idxTableId := table.idxTableId + 1, state := .backward }
      else if table.minLsn ≤ iter.startLsn then
        { iter with
          idxTableId := table.idxTableId
          state := if iter.startLsn ≠ table.minLsn then .backward else iter.state }
      else iter
    else iter
  { iter' with lastSearchTid := table.idxTableId }

/-- The order of the first entry from `startLsn` on, if there is one. -/
def startOrder (table : LogIdxTableData) (startLsn : Nat) : Option Nat :=
  (List.range table.idxOrder.length).find? fun order =>
    (getOrderLsn table order).any fun info => startLsn ≤ info.lsn

def setSearchStartOrder (iter : LsnIter) (table : LogIdxTableData) : LsnIter :=
  if table.idxTableId ≠ iter.idxTableId then iter
  else { iter with idx := (startOrder table iter.startLsn).getD iter.idx }

/-- The outcomes of the two conditional lock attempts of
`log_index_read_table` on the slot of a table. -/
structure ReadLocks where
  shared : Bool
  exclusive : Bool

/-- The outcomes in one call of `polar_logindex_lsn_iterator_next`, for
each table: in the search, when the order to start at is set, and in the
loop that reads. -/
structure IterLocks where
  search : Nat → ReadLocks
  start : Nat → ReadLocks
  next : Nat → ReadLocks

section Search

variable {cfg : Config}

/-- `log_index_get_table_data`: the data (NULL for a table that does not
exist yet), and the state of the ring slot if the data is from there. -/
def getTableData (s : Snapshot cfg) (cache : TableCache) (iter : LsnIter)
    (locks : Nat → ReadLocks) :
    Option (Option (LogIdxTableData × Option MemTblState) × Snapshot cfg × TableCache) :=
  let table := s.memTable (cfg.slotOf iter.idxTableId)
  if table.data.idxTableId = iter.idxTableId then
    some (some (table.data, some table.state), s, cache)
  else if s.logMeta.maxIdxTableId < iter.idxTableId then some (none, s, cache)
  else
    -- the slot holds another table, so `log_index_read_table` does not hit it
    (readTable s cache iter.idxTableId (locks iter.idxTableId).shared
      (locks iter.idxTableId).exclusive).map fun (data, s, cache) => (some (data, none), s, cache)

def setStartOrder (s : Snapshot cfg) (cache : TableCache) (locks : IterLocks) (iter : LsnIter) :
    Option (LsnIter × Snapshot cfg × TableCache) :=
  if iter.state = .backward then
    (getTableData s cache iter locks.start).map fun (data, s, cache) =>
      (match data with
        | none => iter
        | some (data, _) => setSearchStartOrder iter data, s, cache)
  else some (iter, s, cache)

/-- The loop of `log_index_search_mem_tbl_lsn`; `mid` is the slot that is
looked at for table `tid`. -/
def searchMemTblLoop (s : Snapshot cfg) : Nat → Nat → LsnIter → LsnIter
  | 0, _, iter => iter
  | tid + 1, mid, iter =>
    let table := s.memTable mid
    if tid + 1 = table.data.idxTableId ∧ table.state ≠ .free then
      let iter := setSearchTable iter table.data
      if iter.state = .forward then
        searchMemTblLoop s tid (loopPrevValue mid cfg.memTblSize) iter
      else iter
    else iter

variable (s : Snapshot cfg) (cache : TableCache) (locks : IterLocks) (iter : LsnIter)

def searchMemTblLsn : Option (LsnIter × Snapshot cfg × TableCache) :=
  setStartOrder s cache locks
    (searchMemTblLoop s s.maxIdxTableId (cfg.slotOf s.maxIdxTableId) iter)

/-- `log_index_next_search_file_tid`; `none` is a hollow. -/
def nextSearchFileTid (prev : Nat) (logMeta : LogIndexMeta) : Option Nat :=
  if prev = tableInvalidId then some logMeta.maxIdxTableId
  else if prev - 1 = tableInvalidId then some tableInvalidId
  else if logMeta.maxIdxTableId < prev - 1 then none
  else some (prev - 1)

def searchFileTblLoop (minIdxTableId : Nat) (locks : Nat → ReadLocks) :
    Nat → LsnIter → Snapshot cfg → TableCache → Option (LsnIter × Snapshot cfg × TableCache)
  | 0, iter, s, cache => some (iter, s, cache)
  | tid + 1, iter, s, cache =>
    if minIdxTableId ≤ tid + 1 ∧ iter.state = .forward then
      match readTable s cache (tid + 1) (locks (tid + 1)).shared (locks (tid + 1)).exclusive with
      | none => none
      | some (data, s, cache) =>
        searchFileTblLoop minIdxTableId locks tid (setSearchTable iter data) s cache
    else some (iter, s, cache)

def searchFileTblLsn : Option (LsnIter × Snapshot cfg × TableCache) :=
  let minIdxTableId := s.logMeta.minSegmentInfo.minIdxTableId
  if s.logMeta.maxLsn < iter.startLsn then
    if iter.lastSearchTid = tableInvalidId then some ({ iter with state := .finished }, s, cache)
    else some ({ iter with idxTableId := iter.lastSearchTid, state := .backward }, s, cache)
  else
    match nextSearchFileTid iter.lastSearchTid s.logMeta with
    | none => none
    | some tid =>
      match searchFileTblLoop minIdxTableId locks.search tid iter s cache with
      | none => none
      | some (iter, s, cache) =>
        setStartOrder s cache locks
          (if iter.state = .forward then
            { iter with idxTableId := minIdxTableId, state := .backward }
          else iter)

def createLsnIterator (s : Snapshot cfg) (lsn : Nat) : Option LsnIter :=
  if lsn = invalidXLogRecPtr then
    if 1 < s.logMeta.minSegmentInfo.minIdxTableId then none
    else some ⟨lsn, .forward, 1, 0, tableInvalidId⟩
  else some ⟨lsn, .forward, tableInvalidId, 0, tableInvalidId⟩

/-- `log_index_lsn_iterator_update`; the flag says that the iterator has
moved to the next table. -/
def lsnIteratorUpdate (iter : LsnIter) (state : Option MemTblState) (table : LogIdxTableData) :
    LsnIter × Bool :=
  if state ≠ some .active ∧ iter.idx = table.idxOrder.length then
    ({ iter with idx := 0, idxTableId := iter.idxTableId + 1 }, true)
  else (iter, false)

def lsnIteratorLoop (locks : Nat → ReadLocks) :
    Nat → LsnIter → Snapshot cfg → TableCache →
      Option (Option LogIndexLsn × LsnIter × Snapshot cfg × TableCache)
  | 0, _, _, _ => none
  | fuel + 1, iter, s, cache =>
    match getTableData s cache iter locks with
    | none => none
    | some (none, s, cache) => some (none, iter, s, cache)
    | some (some (data, state), s, cache) =>
      match getOrderLsn data iter.idx with
      | some info =>
        some (some info,
          (lsnIteratorUpdate { iter with idx := iter.idx + 1 } state data).1, s, cache)
      | none =>
        let (iter, newTable) := lsnIteratorUpdate iter state data
        if newTable then lsnIteratorLoop locks fuel iter s cache
        else some (none, iter, s, cache)

def lsnIteratorSearch : Option (LsnIter × Snapshot cfg × TableCache) :=
  let found :=
    if iter.idxTableId = tableInvalidId then
      searchMemTblLsn s cache locks
        { iter with state := .forward, lastSearchTid := tableInvalidId }
    else some (iter, s, cache)
  match found with
  | none => none
  | some (iter, s, cache) =>
    if iter.state = .forward then searchFileTblLsn s cache locks iter else some (iter, s, cache)

/-- `polar_logindex_lsn_iterator_next`. Every turn of its loop but the
last moves on to the next table, so `max_idx_table_id + 2` turns are
enough. -/
def lsnIteratorNext : Option (Option LogIndexLsn × LsnIter × Snapshot cfg × TableCache) :=
  match lsnIteratorSearch s cache locks iter with
  | none => none
  | some (iter, s, cache) =>
    if iter.state = .backward then
      lsnIteratorLoop locks.next (s.maxIdxTableId + 2) iter s cache
    else some (none, iter, s, cache)

/-! ## The iterator next to the inserter -/

/-- The log index and one iterator, with what its calls have returned. -/
structure IterSys (cfg : Config) where
  sys : Sys cfg
  iter : LsnIter
  results : List (Option LogIndexLsn)

inductive IterAction where
  | ring (a : Action)
  | next (proc : Nat) (locks : IterLocks)

def iterStep (x : IterSys cfg) : IterAction → Option (IterSys cfg)
  | .ring a => (step x.sys a).map fun sys => { x with sys := sys }
  | .next proc locks =>
    (lsnIteratorNext x.sys.snap (x.sys.caches proc) locks x.iter).map
      fun (result, iter, snap, cache) =>
        { sys := { x.sys with snap := snap, caches := Function.update x.sys.caches proc cache }
          iter := iter
          results := x.results ++ [result] }

def ringActions (as : List IterAction) : List Action :=
  as.filterMap fun
    | .ring a => some a
    | .next .. => none

end Search

end PolarDB.LogIndex
