import PolarDB.LogIndexRing

/-!
# Looking up the LSNs of a page

The page iterator of `polar_logindex_iterator.c`: which LSNs of a page lie
between `min_lsn` and `max_lsn`. `polar_logindex_create_page_iterator`
searches the tables from the newest to the oldest - first those in the
ring, then those on storage - and pushes what it finds, largest LSN
first, onto a stack with one element per table; each element is a list of
chunks of at most 64 LSNs. `polar_logindex_page_iterator_next` pops them
in ascending order.

`none` stands for the ERROR and PANIC exits. Reading a table may replace
a FLUSHED slot and refill the cache of the process. The outcomes of the
conditional locks are a parameter (`TableLocks`). `before_promote` is not
modelled.
-/

namespace PolarDB.LogIndex

inductive IterState where
  | forward
  | backward
  | finished
  | hollow
  | corrupted
  deriving DecidableEq, Repr

/-! ## The stack of LSNs -/

def pageStackItemSize : Nat := 64

structure PageLsn where
  iterPos : Nat
  lsn : List Nat
  prevLsn : Nat
  deriving DecidableEq, Repr

structure TblStack where
  prevPageLsn : Nat
  head : List PageLsn
  deriving DecidableEq, Repr

def tblStackPush (stack : TblStack) (lsn prevLsn : Nat) : TblStack :=
  match stack.head with
  | [] => { stack with head := [⟨1, [lsn], prevLsn⟩] }
  | item :: items =>
    if item.lsn.length = pageStackItemSize then
      { stack with head := ⟨1, [lsn], prevLsn⟩ :: item :: items }
    else
      { stack with head := ⟨item.lsn.length + 1, item.lsn ++ [lsn], prevLsn⟩ :: items }

def tblStackPopLsn (stack : TblStack) : Option ((Nat × Nat) × TblStack) :=
  match stack.head with
  | [] => none
  | item :: items =>
    let idx := item.iterPos - 1
    let prevLsn :=
      if item.iterPos = item.lsn.length then item.prevLsn else item.lsn.getD (idx + 1) 0
    let head := if idx = 0 then items else { item with iterPos := idx } :: items
    some ((item.lsn.getD idx 0, prevLsn), { stack with head := head })

/-! ## The iterator -/

structure PageIter where
  tag : BufferTag
  minLsn : Nat
  maxLsn : Nat
  iterPrevLsn : Nat
  iterMaxLsn : Nat
  maxIdxTableId : Nat
  lsnStack : List TblStack
  key : Nat
  state : IterState
  deriving DecidableEq, Repr

def PageIter.push (iter : PageIter) (lsn prevLsn : Nat) : PageIter :=
  match iter.lsnStack with
  | [] => iter
  | stack :: rest => { iter with lsnStack := tblStackPush stack lsn prevLsn :: rest }

/-- The loop of `log_index_page_iterate_push_lsn` over the first `n`
entries of cell `segId`, last one first. The flag is `prev_correct`. -/
def pageIteratePushLsnLoop (t : LogIdxTableData) (segId : Nat) :
    Nat → PageIter → Bool → Option (PageIter × Bool)
  | 0, iter, prevCorrect => some (iter, prevCorrect)
  | idx + 1, iter, prevCorrect =>
    let l := combineLsn t ((t.segment segId).suffixLsn.getD idx 0)
    let prevCorrect := prevCorrect || l = iter.iterPrevLsn
    if iter.minLsn ≤ l ∧ l ≤ iter.iterMaxLsn then
      if !prevCorrect then none
      else
        let iter := iter.push l (getSegPrevLsn t segId idx)
        if l = iter.minLsn then some ({ iter with state := .finished }, prevCorrect)
        else pageIteratePushLsnLoop t segId idx iter prevCorrect
    else if l < iter.minLsn then
      if !prevCorrect then none
      else some ({ iter with state := .finished }, prevCorrect)
    else pageIteratePushLsnLoop t segId idx iter prevCorrect

def pageIteratePushLsn (iter : PageIter) (t : LogIdxTableData) (segId : Nat) (prevCorrect : Bool) :
    Option (PageIter × Bool) :=
  pageIteratePushLsnLoop t segId (t.segment segId).suffixLsn.length iter prevCorrect

/-- The loop of `log_index_iterate_table_data` from the tail segment back
to the head; it returns the cell it stopped at. -/
def iterateSegs (t : LogIdxTableData) (head : Nat) :
    Nat → Nat → PageIter → Bool → Option (Nat × PageIter × Bool)
  | 0, _, _, _ => none
  | fuel + 1, id, iter, prevCorrect =>
    if id = head then some (id, iter, prevCorrect)
    else
      match itemSeg t id with
      | none => none
      | some seg =>
        if seg.suffixLsn.length = 0 then none
        else
          match pageIteratePushLsn iter t id prevCorrect with
          | none => none
          | some (iter, prevCorrect) =>
            if iter.state = .forward then iterateSegs t head fuel seg.prevSeg iter prevCorrect
            else some (seg.prevSeg, iter, prevCorrect)

def iterateTableData (iter : PageIter) (t : LogIdxTableData) (item : LogItemHead) :
    Option PageIter :=
  if item.suffixLsn.length = 0 then none
  else
    let prevCorrect := decide (iter.iterPrevLsn = invalidXLogRecPtr)
    let iter := { iter with lsnStack := ⟨item.prevPageLsn, []⟩ :: iter.lsnStack }
    match iterateSegs t item.headSeg memTblSegNum item.tailSeg iter prevCorrect with
    | none => none
    | some (id, iter, prevCorrect) =>
      if iter.state = .forward then (pageIteratePushLsn iter t id prevCorrect).map (·.1)
      else some iter

def PageIter.setPrevLsn (iter : PageIter) : PageIter :=
  match iter.lsnStack with
  | [] => iter
  | prevStack :: _ =>
    if prevStack.prevPageLsn ≠ invalidXLogRecPtr then
      { iter with iterPrevLsn := prevStack.prevPageLsn }
    else iter

def pushTblLsn (iter : PageIter) (t : LogIdxTableData) : Option PageIter :=
  match tblFind iter.tag t iter.key with
  | none => some iter
  | some item =>
    let minLsn := itemMinLsn t item
    let maxLsn := itemMaxLsn t item
    let iter := iter.setPrevLsn
    if iter.maxLsn < minLsn then some iter
    else if maxLsn < iter.minLsn then some { iter with state := .finished }
    else (iterateTableData iter t item).map fun iter => { iter with iterMaxLsn := maxLsn + 1 }

section Search

variable {cfg : Config}

def tableInRange (iter : PageIter) (table : LogMemTable) : PageIter × Bool :=
  if table.state = .active then (iter, true)
  else if iter.maxLsn < table.data.minLsn then (iter, false)
  else if table.data.maxLsn < iter.minLsn then ({ iter with state := .finished }, false)
  else (iter, true)

/-- The loop of `log_index_push_mem_tbl_lsn`; `mid` is the slot that is
looked at for table `tid`. It returns the first table it has not
searched. -/
def pushMemTblLoop (s : Snapshot cfg) : Nat → Nat → PageIter → Option (Nat × PageIter)
  | 0, _, iter => some (tableInvalidId, iter)
  | tid + 1, mid, iter =>
    let table := s.memTable mid
    if tid + 1 = table.data.idxTableId ∧ table.state ≠ .free then
      let (iter, ok) := tableInRange iter table
      match if ok then pushTblLsn iter table.data else some iter with
      | none => none
      | some iter =>
        if iter.state = .forward then
          pushMemTblLoop s tid (loopPrevValue mid cfg.memTblSize) iter
        else some (tid, iter)
    else some (tid + 1, iter)

def pushMemTblLsn (s : Snapshot cfg) (iter : PageIter) : Option (Nat × PageIter) :=
  match pushMemTblLoop s iter.maxIdxTableId (cfg.slotOf iter.maxIdxTableId) iter with
  | none => none
  | some (tid, iter) =>
    some (tid, if tid = tableInvalidId then { iter with state := .finished } else iter)

/-- `log_index_check_bloom_not_exists`. A page without the bloom data of
the table is a PANIC. -/
def checkBloomNotExists (s : Snapshot cfg) (iter : PageIter) (tid : Nat) :
    Option (PageIter × Bool) :=
  match s.bloomPages tid with
  | none => none
  | some bloom =>
    if tid ≠ bloom.idxTableId then none
    else if bloom.maxLsn < iter.minLsn then some ({ iter with state := .finished }, false)
    else some (iter, cfg.bloom.lacksElement bloom.bloomBytes iter.tag)

/-- The outcomes of the conditional lock attempts of a lookup on the slot
of one table: its own one, and the two of `log_index_read_table`. -/
structure TableLocks where
  slot : Bool
  shared : Bool
  exclusive : Bool

def pushFileTblLoop (minIdxTableId : Nat) (locks : Nat → TableLocks) :
    Nat → PageIter → Snapshot cfg → TableCache → Option (PageIter × Snapshot cfg × TableCache)
  | 0, iter, s, cache => some (iter, s, cache)
  | tid + 1, iter, s, cache =>
    if minIdxTableId ≤ tid + 1 ∧ iter.state = .forward then
      let table := s.memTable (cfg.slotOf (tid + 1))
      if (locks (tid + 1)).slot && table.state = .flushed &&
          tid + 1 = table.data.idxTableId then
        match pushTblLsn iter table.data with
        | none => none
        | some iter => pushFileTblLoop minIdxTableId locks tid iter s cache
      else
        match checkBloomNotExists s iter (tid + 1) with
        | none => none
        | some (iter, notExists) =>
          if !notExists && iter.state = .forward then
            match readTable s cache (tid + 1) (locks (tid + 1)).shared
                (locks (tid + 1)).exclusive with
            | none => none
            | some (data, s, cache) =>
              match pushTblLsn iter data with
              | none => none
              | some iter => pushFileTblLoop minIdxTableId locks tid iter s cache
          else pushFileTblLoop minIdxTableId locks tid iter s cache
    else some (iter, s, cache)

def pushFileTblLsn (s : Snapshot cfg) (cache : TableCache) (locks : Nat → TableLocks)
    (iter : PageIter) (tid : Nat) : Option (PageIter × Snapshot cfg × TableCache) :=
  if s.logMeta.maxIdxTableId < tid then none
  else pushFileTblLoop s.logMeta.minSegmentInfo.minIdxTableId locks tid iter s cache

def createPageIterator (s : Snapshot cfg) (cache : TableCache) (locks : Nat → TableLocks)
    (tag : BufferTag) (minLsn maxLsn : Nat) : Option (PageIter × Snapshot cfg × TableCache) :=
  let iter : PageIter :=
    { tag := tag, minLsn := minLsn, maxLsn := maxLsn, iterPrevLsn := invalidXLogRecPtr,
      iterMaxLsn := maxLsn, maxIdxTableId := s.maxIdxTableId, lsnStack := [],
      key := cfg.hashPage tag, state := .forward }
  match pushMemTblLsn s iter with
  | none => none
  | some (tid, iter) =>
    if iter.state = .forward then
      (pushFileTblLsn s cache locks iter tid).map fun (iter, s, cache) =>
        ({ iter with state := .finished }, s, cache)
    else some (iter, s, cache)

end Search

/-- The loop of `polar_logindex_page_iterator_next`: exhausted tables are
dropped from the stack. -/
def pageIteratorNextLoop : List TblStack → Option ((Nat × Nat) × List TblStack)
  | [] => none
  | stack :: rest =>
    match tblStackPopLsn stack with
    | some (lsn, stack) => some (lsn, stack :: rest)
    | none => pageIteratorNextLoop rest

def pageIteratorNext (iter : PageIter) : Option (LogIndexLsn × PageIter) :=
  (pageIteratorNextLoop iter.lsnStack).map fun ((lsn, prevLsn), rest) =>
    (⟨iter.tag, lsn, prevLsn⟩, { iter with lsnStack := rest })

/-- Calling `polar_logindex_page_iterator_next` until it returns NULL
returns the entries `es`. -/
inductive PageIter.Returns : PageIter → List LogIndexLsn → Prop where
  | done {iter : PageIter} (h : pageIteratorNext iter = none) : Returns iter []
  | next {iter iter' : PageIter} {e : LogIndexLsn} {es : List LogIndexLsn}
      (h : pageIteratorNext iter = some (e, iter')) (hs : Returns iter' es) :
      Returns iter (e :: es)

end PolarDB.LogIndex
