import Mathlib.Data.Nat.Bitwise
import Mathlib.Tactic.IntervalCases
import PolarDB.Basic

/-!
# Logindex tables

The memory layout of one logindex table and the operations that touch a
single table, translated from `polar_logindex.c` and
`polar_logindex_internal.h`.

A table keeps, for every page it has seen, one *item*: a head
(`log_item_head_t`, up to 2 LSNs) and a list of segments
(`log_item_seg_t`, up to 10 LSNs each), all taken from one array of
4096 cells. A cell is addressed by its id; id 0 is `INVALID_SEG`, and id
`i` is the array element `segment[i - 1]` of the source. Items of one
hash bucket are linked through `next_item`, the cells of one item
through `next_seg`/`prev_seg`, and `idx_order` lists the (cell, index)
pairs in insertion order.

The `number` live entries of a cell's `suffix_lsn` array are a list, and
`last_order` is the length of `idxOrder`; the `crc` of a table is not
modelled.
-/

namespace PolarDB.LogIndex

/-! ## Constants -/

def memTblSegNum : Nat := 4096

def memTblHashNum : Nat := memTblSegNum / 2

def tableInvalidId : Nat := 0

def tblInvalidSeg : Nat := 0

def itemHeadLsnNum : Nat := 2

def itemSegLsnNum : Nat := 10

/-! ## Data types -/

structure LogIndexLsn where
  tag : BufferTag
  lsn : Nat
  prevLsn : Nat
  deriving DecidableEq, Repr

structure LogItemHead where
  headSeg : Nat
  nextItem : Nat
  nextSeg : Nat
  tailSeg : Nat
  tag : BufferTag
  prevPageLsn : Nat
  suffixLsn : List Nat
  deriving DecidableEq, Repr

structure LogItemSeg where
  headSeg : Nat
  nextSeg : Nat
  prevSeg : Nat
  suffixLsn : List Nat
  deriving DecidableEq, Repr

/-- `log_tbl_seg_t`: a zeroed cell, an item head or a segment. -/
inductive LogTblSeg where
  | free
  | itemHead (head : LogItemHead)
  | itemSeg (seg : LogItemSeg)
  deriving DecidableEq, Repr

/-- Head and segment both start with `head_seg`, so the source reads it
through either view of the union. -/
def LogTblSeg.headSeg : LogTblSeg → Nat
  | .free => 0
  | .itemHead h => h.headSeg
  | .itemSeg s => s.headSeg

def LogTblSeg.suffixLsn : LogTblSeg → List Nat
  | .free => []
  | .itemHead h => h.suffixLsn
  | .itemSeg s => s.suffixLsn

structure LogIdxTableData where
  idxTableId : Nat
  minLsn : Nat
  maxLsn : Nat
  prefixLsn : Nat
  idxOrder : List Nat
  hash : Nat → Nat
  segment : Nat → LogTblSeg

inductive MemTblState where
  | free
  | active
  | inactive
  | flushed
  deriving DecidableEq, Repr

structure LogMemTable where
  freeHead : Nat
  state : MemTblState
  data : LogIdxTableData

def zeroTableData : LogIdxTableData :=
  { idxTableId := 0, minLsn := 0, maxLsn := 0, prefixLsn := 0, idxOrder := [],
    hash := fun _ => 0, segment := fun _ => .free }

def zeroMemTable : LogMemTable :=
  { freeHead := 0, state := .free, data := zeroTableData }

/-! ## LSN prefix and suffix -/

def lsnPrefix (lsn : Nat) : Nat := lsn >>> 32

/-- `((lsn) << 32) >> 32` on 64 bits: the lower half of an LSN. -/
def lsnSuffix (lsn : Nat) : Nat := lsn % 2 ^ 32

def combineLsn (t : LogIdxTableData) (suffix : Nat) : Nat :=
  (t.prefixLsn <<< 32) ||| suffix

def sameTableLsnPrefix (t : LogIdxTableData) (lsn : Nat) : Bool :=
  t.prefixLsn = lsnPrefix lsn

theorem combineLsn_lsnSuffix {t : LogIdxTableData} {lsn : Nat}
    (h : lsnPrefix lsn = t.prefixLsn) : combineLsn t (lsnSuffix lsn) = lsn := by
  have hlt : lsnSuffix lsn < 2 ^ 32 := Nat.mod_lt _ (by decide)
  rw [combineLsn, ← Nat.shiftLeft_add_eq_or_of_lt hlt, ← h, lsnPrefix, lsnSuffix]
  omega

/-! ## Order entries -/

/-- The value `LOG_INDEX_MEM_TBL_ADD_ORDER` stores: segment id in the
lower 12 bits, index inside the segment in the upper 4. -/
def orderEntry (segId idx : Nat) : Nat :=
  (segId &&& 0x0FFF) ||| ((idx <<< 12) &&& 0xF000)

def segOrder (order : Nat) : Nat := order &&& 0x0FFF

def idOrder (order : Nat) : Nat := (order &&& 0xF000) >>> 12

theorem orderEntry_eq {segId idx : Nat} (hs : segId < 4096) (hi : idx < 16) :
    orderEntry segId idx = idx <<< 12 + segId := by
  have h1 : segId &&& 0x0FFF = segId := by
    rw [show (0x0FFF : Nat) = 2 ^ 12 - 1 by rfl, Nat.and_two_pow_sub_one_eq_mod]
    exact Nat.mod_eq_of_lt hs
  have h2 : (idx <<< 12) &&& 0xF000 = idx <<< 12 := by
    interval_cases idx <;> rfl
  rw [orderEntry, h1, h2, Nat.or_comm, Nat.shiftLeft_add_eq_or_of_lt hs]

theorem segOrder_orderEntry {segId idx : Nat} (hs : segId < 4096) (hi : idx < 16) :
    segOrder (orderEntry segId idx) = segId := by
  rw [orderEntry_eq hs hi, segOrder, show (0x0FFF : Nat) = 2 ^ 12 - 1 by rfl,
    Nat.and_two_pow_sub_one_eq_mod]
  omega

theorem idOrder_orderEntry {segId idx : Nat} (hs : segId < 4096) (hi : idx < 16) :
    idOrder (orderEntry segId idx) = idx := by
  have h2 : orderEntry segId idx &&& 0xF000 = idx <<< 12 := by
    rw [orderEntry_eq hs hi, Nat.shiftLeft_add_eq_or_of_lt hs, Nat.and_or_distrib_right]
    have h3 : segId &&& 0xF000 = 0 := by
      apply Nat.eq_of_testBit_eq
      intro i
      rw [Nat.testBit_and, Nat.zero_testBit]
      rcases Nat.lt_or_ge i 12 with h | h
      · have : Nat.testBit 0xF000 i = false := by interval_cases i <;> rfl
        rw [this, Bool.and_false]
      · rw [Nat.testBit_lt_two_pow (lt_of_lt_of_le hs (Nat.pow_le_pow_right Nat.two_pos h)),
          Bool.false_and]
    have h4 : (idx <<< 12) &&& 0xF000 = idx <<< 12 := by interval_cases idx <;> rfl
    rw [h3, h4, Nat.or_zero]
  rw [idOrder, h2, Nat.shiftLeft_shiftRight]

/-! ## Cells -/

variable (t : LogIdxTableData)

def itemHead (head : Nat) : Option LogItemHead :=
  if head = tblInvalidSeg then none
  else match t.segment head with
    | .itemHead h => some h
    | _ => none

def itemSeg (seg : Nat) : Option LogItemSeg :=
  if seg = tblInvalidSeg then none
  else match t.segment seg with
    | .itemSeg s => some s
    | _ => none

def LogIdxTableData.setSeg (id : Nat) (c : LogTblSeg) : LogIdxTableData :=
  { t with segment := Function.update t.segment id c }

def itemMinLsn (item : LogItemHead) : Nat :=
  combineLsn t (item.suffixLsn.headD 0)

def itemMaxLsn (item : LogItemHead) : Nat :=
  if item.headSeg = item.tailSeg then combineLsn t (item.suffixLsn.getLastD 0)
  else combineLsn t ((t.segment item.tailSeg).suffixLsn.getLastD 0)

/-- The loop of `log_index_mem_tbl_exists_page` along `next_item`. -/
def memTblExistsPageLoop (tag : BufferTag) (t : LogIdxTableData) : Nat → Nat → Nat
  | 0, _ => tblInvalidSeg
  | fuel + 1, id =>
    match itemHead t id with
    | none => id
    | some item =>
      if item.tag = tag then id else memTblExistsPageLoop tag t fuel item.nextItem

/-- `log_index_mem_tbl_exists_page`: the id of the page's item, 0 if the
page is not in the table. An item chain has at most one cell per id. -/
def memTblExistsPage (tag : BufferTag) (t : LogIdxTableData) (key : Nat) : Nat :=
  memTblExistsPageLoop tag t memTblSegNum (t.hash key)

def tblFind (tag : BufferTag) (t : LogIdxTableData) (key : Nat) : Option LogItemHead :=
  itemHead t (memTblExistsPage tag t key)

/-! ## Adding an entry -/

/-- `log_index_mem_seg_full`: no room for one more LSN in the tail cell
of the item `head`. -/
def memSegFull (head : Nat) : Bool :=
  match itemHead t head with
  | none => false
  | some item =>
    if item.tailSeg = head then item.suffixLsn.length = itemHeadLsnNum
    else (t.segment item.tailSeg).suffixLsn.length = itemSegLsnNum

/-- `log_index_insert_new_item`. The new item is put in front of its
bucket, so `next_item` is the old slot value, be it invalid or not. -/
def insertNewItem (info : LogIndexLsn) (t : LogIdxTableData) (key newItemId : Nat) :
    LogIdxTableData :=
  let newItem : LogItemHead :=
    { headSeg := newItemId, nextItem := t.hash key, nextSeg := tblInvalidSeg,
      tailSeg := newItemId, tag := info.tag, prevPageLsn := info.prevLsn,
      suffixLsn := [lsnSuffix info.lsn] }
  { t.setSeg newItemId (.itemHead newItem) with hash := Function.update t.hash key newItemId }

/-- `log_index_insert_new_seg`: link a fresh segment behind the tail of
the item `head`. -/
def insertNewSeg (head segId : Nat) (info : LogIndexLsn) : LogIdxTableData :=
  match itemHead t head with
  | none => t
  | some item =>
    let newSeg : LogItemSeg :=
      { headSeg := head, prevSeg := item.tailSeg, nextSeg := tblInvalidSeg,
        suffixLsn := [lsnSuffix info.lsn] }
    if item.tailSeg = head then
      (t.setSeg head (.itemHead { item with nextSeg := segId, tailSeg := segId })).setSeg
        segId (.itemSeg newSeg)
    else
      match itemSeg t item.tailSeg with
      | none => t
      | some preSeg =>
        ((t.setSeg item.tailSeg (.itemSeg { preSeg with nextSeg := segId })).setSeg
          head (.itemHead { item with tailSeg := segId })).setSeg segId (.itemSeg newSeg)

/-- `log_index_append_lsn`: add the LSN to the item's tail cell; returns
the index used there. -/
def appendLsn (head : Nat) (info : LogIndexLsn) : LogIdxTableData × Nat :=
  match itemHead t head with
  | none => (t, 0)
  | some item =>
    if item.tailSeg = head then
      (t.setSeg head
        (.itemHead { item with suffixLsn := item.suffixLsn ++ [lsnSuffix info.lsn] }),
       item.suffixLsn.length)
    else
      match itemSeg t item.tailSeg with
      | none => (t, 0)
      | some seg =>
        (t.setSeg item.tailSeg
          (.itemSeg { seg with suffixLsn := seg.suffixLsn ++ [lsnSuffix info.lsn] }),
         seg.suffixLsn.length)

def addOrder (segId idx : Nat) : LogIdxTableData :=
  { t with idxOrder := t.idxOrder ++ [orderEntry segId idx] }

def updateLsnRange (lsn : Nat) : LogIdxTableData :=
  { t with maxLsn := max lsn t.maxLsn, minLsn := min lsn t.minLsn }

/-- The branch of `log_index_insert_lsn` that extends the tail cell of an
item that already exists. -/
def appendEntry (head : Nat) (info : LogIndexLsn) : LogIdxTableData :=
  let (t', idx) := appendLsn t head info
  let tail := ((itemHead t' head).map (·.tailSeg)).getD tblInvalidSeg
  updateLsnRange (addOrder t' tail idx) info.lsn

/-- The branch of `log_index_insert_lsn` that uses the fresh cell `dst`:
a new item, or a new segment of the item `head`. -/
def insertEntry (newItem : Bool) (head dst key : Nat) (info : LogIndexLsn) : LogIdxTableData :=
  let t' := if newItem then insertNewItem info t key dst else insertNewSeg t head dst info
  updateLsnRange (addOrder t' dst 0) info.lsn

def memTblIsNew (m : LogMemTable) : Bool :=
  m.data.maxLsn = invalidXLogRecPtr && m.data.minLsn = uint64Max &&
    m.data.prefixLsn = 0 && m.freeHead = 1

def memTblFull (m : LogMemTable) : Bool := m.freeHead = memTblSegNum

def memTblNewActive (m : LogMemTable) (tid lsn : Nat) : LogMemTable :=
  { freeHead := 1, state := .active,
    data := { m.data with
      idxTableId := tid, maxLsn := invalidXLogRecPtr, minLsn := uint64Max,
      prefixLsn := lsnPrefix lsn } }

/-! ## Reading an entry by its order -/

def getSegPageTag (segId : Nat) : Option BufferTag :=
  (itemHead t (t.segment segId).headSeg).map (·.tag)

/-- `log_index_get_seg_prev_lsn`: the LSN of the same page before entry
`idx` of cell `segId`. -/
def getSegPrevLsn (segId idx : Nat) : Nat :=
  match t.segment segId with
  | .free => invalidXLogRecPtr
  | .itemHead head =>
    if idx = 0 then head.prevPageLsn
    else combineLsn t (head.suffixLsn.getD (idx - 1) 0)
  | .itemSeg seg =>
    if 0 < idx then combineLsn t (seg.suffixLsn.getD (idx - 1) 0)
    else combineLsn t ((t.segment seg.prevSeg).suffixLsn.getLastD 0)

/-- `log_index_get_order_lsn`: the entry with order number `order`, NULL
(`InvalidXLogRecPtr`) behind the last one. -/
def getOrderLsn (order : Nat) : Option LogIndexLsn :=
  match t.idxOrder[order]? with
  | none => none
  | some o =>
    let segId := segOrder o
    let idx := idOrder o
    (getSegPageTag t segId).map fun tag =>
      { tag := tag, lsn := combineLsn t ((t.segment segId).suffixLsn.getD idx 0),
        prevLsn := getSegPrevLsn t segId idx }

def tblEntries : List (BufferTag × Nat) :=
  (List.range t.idxOrder.length).filterMap fun i =>
    (getOrderLsn t i).map fun e => (e.tag, e.lsn)

/-! ## The bloom filter of a table -/

/-- The interface of `lib/bloomfilter.c` that logindex uses, with the one
property it is used for: an element that was added is never reported as
lacking. -/
structure BloomFilter where
  Bits : Type
  init : Bits
  addElement : Bits → BufferTag → Bits
  lacksElement : Bits → BufferTag → Bool
  no_false_negative : ∀ (tags : List BufferTag) (tag : BufferTag), tag ∈ tags →
    lacksElement (tags.foldl addElement init) tag = false

structure LogFileTableBloom (bf : BloomFilter) where
  idxTableId : Nat
  minLsn : Nat
  maxLsn : Nat
  bloomBytes : bf.Bits

/-- The inner loop of `log_index_calc_bloom` along one hash chain. -/
def calcBloomChain (bf : BloomFilter) (t : LogIdxTableData) :
    Nat → Nat → LogFileTableBloom bf → LogFileTableBloom bf
  | 0, _, bloom => bloom
  | fuel + 1, id, bloom =>
    match itemHead t id with
    | none => bloom
    | some item =>
      calcBloomChain bf t fuel item.nextItem
        { bloom with
          maxLsn := max bloom.maxLsn (itemMaxLsn t item)
          minLsn := min bloom.minLsn (itemMinLsn t item)
          bloomBytes := bf.addElement bloom.bloomBytes item.tag }

def calcBloom (bf : BloomFilter) (t : LogIdxTableData) (bloom : LogFileTableBloom bf) :
    LogFileTableBloom bf :=
  (List.range memTblHashNum).foldl
    (fun bloom i => calcBloomChain bf t memTblSegNum (t.hash i) bloom)
    { bloom with bloomBytes := bf.init }

def getBloomData (bf : BloomFilter) (t : LogIdxTableData) (tid : Nat) : LogFileTableBloom bf :=
  calcBloom bf t
    { idxTableId := tid, maxLsn := invalidXLogRecPtr, minLsn := uint64Max, bloomBytes := bf.init }

end PolarDB.LogIndex
