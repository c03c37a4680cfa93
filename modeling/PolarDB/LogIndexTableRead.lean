import PolarDB.LogIndexTableRep

/-!
# Reading a logindex table

Readers reach the entries of a table in three ways: by order number
(`log_index_get_order_lsn`), by page (`log_index_tbl_find` and the cells
behind the item), and as a whole when a table is written and its bloom
filter computed (`log_index_calc_bloom`). Each is related here to the
list of entries the table holds.
-/

namespace PolarDB.LogIndex

open List

section TblRep

variable {key : BufferTag → Nat} {t : LogIdxTableData} {free : Nat}
  {es : List LogIndexLsn} {lay : Layout}

/-! ## Cells -/

variable {l : List Nat} {α : Type} {i : Nat} {es : List LogIndexLsn}
  {tag : BufferTag} {c j : Nat} {e : LogIndexLsn}

theorem ItemRep.suffixLsn {cs : List Nat} {prev next : Nat}
    (h : ItemRep t tag cs l prev next) (hc : cs[j]? = some c) :
    (t.segment c).headSeg = cs.getD 0 tblInvalidSeg ∧
      (t.segment c).suffixLsn = (cellContent j l).map lsnSuffix := by
  cases j with
  | zero | succ j => rw [h.cell hc]; exact ⟨rfl, rfl⟩

theorem TblRep.combineLsn_suffix (h : TblRep key t free es lay) {l : Nat}
    (hl : l ∈ tagLsns tag es) : combineLsn t (lsnSuffix l) = l := by
  obtain ⟨e, he, -, rfl⟩ := mem_tagLsns.mp hl
  exact combineLsn_lsnSuffix (h.prefix_eq e he)

section

variable (h : TblRep key t free es lay) (hc : (lay.cells tag)[j]? = some c)
include h hc

/-- Entry `p` of cell `j` of a page is LSN `cellStart j + p` of the page. -/
theorem TblRep.combineLsn_cell {p l : Nat} (hp : p < cellSize j)
    (hl : (tagLsns tag es)[cellStart j + p]? = some l) :
    (t.segment c).suffixLsn[p]? = some (lsnSuffix l) ∧
      combineLsn t ((t.segment c).suffixLsn.getD p 0) = l := by
  have hget : (t.segment c).suffixLsn[p]? = some (lsnSuffix l) := by
    rw [((h.item tag).suffixLsn hc).2, getElem?_map, cellContent_getElem? _ hp, hl]
    rfl
  refine ⟨hget, ?_⟩
  rw [getD_eq_getElem?_getD, hget]
  exact h.combineLsn_suffix (mem_of_getElem? hl)

theorem TblRep.combineLsn_cell_last {l : Nat}
    (hl : (tagLsns tag es)[cellStart (j + 1) - 1]? = some l) :
    combineLsn t ((t.segment c).suffixLsn.getLastD 0) = l := by
  have hpos := cellSize_pos j
  have hlt := lt_of_getElem? hl
  rw [cellStart_succ] at hl hlt
  have hlen : (t.segment c).suffixLsn.length = cellSize j := by
    rw [((h.item tag).suffixLsn hc).2, length_map,
      cellContent_length_full (by rw [cellStart_succ]; omega)]
  obtain ⟨_, hcomb⟩ := h.combineLsn_cell hc (p := cellSize j - 1) (by omega)
    (by rw [← hl]; congr 1; omega)
  rwa [getLastD_eq_getLast?, getLast?_eq_getElem?, hlen]

end

/-! ## By order number -/

/-- The previous LSN of the page of entry `i` in this table, or the
`prev_lsn` the entry came with. -/
def prevLsnAt (es : List LogIndexLsn) (i : Nat) (e : LogIndexLsn) : Nat :=
  (tagLsns e.tag (es.take i)).getLastD e.prevLsn

theorem tagLsns_append (tag : BufferTag) (es es' : List LogIndexLsn) :
    tagLsns tag (es ++ es') = tagLsns tag es ++ tagLsns tag es' := by
  simp [tagLsns]

theorem take_append_drop_succ {l : List α} {a : α} (h : l[i]? = some a) :
    l = l.take i ++ a :: l.drop (i + 1) := by
  obtain ⟨hi, rfl⟩ := List.getElem?_eq_some_iff.mp h
  rw [getElem_cons_drop, take_append_drop]

theorem tagLsns_getElem? (he : es[i]? = some e) :
    (tagLsns e.tag es)[(tagLsns e.tag (es.take i)).length]? = some e.lsn := by
  conv_lhs => rw [take_append_drop_succ he]
  rw [take_left' (by
      rw [length_take]; have := lt_of_getElem? he; omega)]
  simp [tagLsns]

theorem getSegPageTag_eq (h : TblRep key t free es lay)
    (hc : (lay.cells tag)[j]? = some c) : getSegPageTag t c = some tag := by
  have hne : lay.cells tag ≠ [] := fun hnil => by simp [hnil] at hc
  rw [getSegPageTag, ((h.item tag).suffixLsn hc).1]
  have := h.itemHead_head hne
  rw [Layout.head] at this
  rw [this]
  rfl

theorem firstPrev_eq (he : es[i]? = some e)
    (hnil : tagLsns e.tag (es.take i) = []) : firstPrev e.tag es = e.prevLsn := by
  have hnone : ((es.take i).find? fun e' => decide (e'.tag = e.tag)) = none :=
    find?_eq_none.mpr fun e' he' => by simpa using tagLsns_eq_nil.mp hnil e' he'
  rw [firstPrev, take_append_drop_succ he]
  simp [hnone]

theorem getSegPrevLsn_eq (h : TblRep key t free es lay) {i : Nat}
    (he : es[i]? = some e) {p : Nat} (hc : (lay.cells e.tag)[j]? = some c)
    (hp : p < cellSize j) (hrank : cellStart j + p = (tagLsns e.tag (es.take i)).length) :
    getSegPrevLsn t c p = prevLsnAt es i e := by
  have hlast : ∀ r, (tagLsns e.tag (es.take i)).length = r + 1 →
      (tagLsns e.tag es)[r]? = some (prevLsnAt es i e) := by
    intro r hr
    conv_lhs => rw [take_append_drop_succ he]
    rw [tagLsns_append, getElem?_append_left (by omega), prevLsnAt,
      getLastD_eq_getLast?, getLast?_eq_getElem?, hr, Nat.add_sub_cancel,
      getElem?_eq_getElem (by omega)]
    rfl
  cases j with
  | zero =>
    rw [getSegPrevLsn, (h.item e.tag).cell hc]
    cases p with
    | zero =>
      have hnil : tagLsns e.tag (es.take i) = [] := length_eq_zero_iff.mp (by rw [← hrank]; rfl)
      rw [firstPrev_eq he hnil, prevLsnAt, hnil]
      rfl
    | succ p =>
      have hcell := (h.combineLsn_cell hc (p := p) (by omega) (hlast _ (by rw [← hrank]; omega))).2
      rw [(h.item e.tag).cell hc] at hcell
      simpa [itemCell, LogTblSeg.suffixLsn] using hcell
  | succ j =>
    have hseg := (h.item e.tag).cell hc
    rw [getSegPrevLsn, hseg]
    cases p with
    | zero =>
      have hj : (lay.cells e.tag)[j]? = some ((lay.cells e.tag).getD j tblInvalidSeg) :=
        getElem?_getD (by have := lt_of_getElem? hc; omega)
      have hpos := cellSize_pos j
      have hstep := cellStart_succ j
      exact h.combineLsn_cell_last hj (hlast _ (by omega))
    | succ p =>
      have hcell := (h.combineLsn_cell hc (p := p) (by omega) (hlast _ (by rw [← hrank]; omega))).2
      rw [hseg] at hcell
      simpa [itemCell, LogTblSeg.suffixLsn] using hcell

/-- `log_index_get_order_lsn` returns the entries in the order they were
added, each with the previous LSN of its page. -/
theorem TblRep.getOrderLsn (h : TblRep key t free es lay) (i : Nat) :
    getOrderLsn t i = es[i]?.map fun e => { e with prevLsn := prevLsnAt es i e } := by
  cases he : es[i]? with
  | none =>
    have hle : t.idxOrder.length ≤ i := h.order_length ▸ getElem?_eq_none_iff.mp he
    rw [LogIndex.getOrderLsn, getElem?_eq_none hle]
    rfl
  | some e =>
    obtain ⟨j, p, c, hc, hp, hrank, ho⟩ := h.order he
    have hc4 : c < 4096 := (h.bound (mem_of_getElem? hc)).2.trans_le h.free_le
    have hp16 : p < 16 := by have := cellSize_le j; omega
    have hlsn := (h.combineLsn_cell hc hp (hrank ▸ tagLsns_getElem? he)).2
    rw [LogIndex.getOrderLsn, ho]
    simp only [segOrder_orderEntry hc4 hp16, idOrder_orderEntry hc4 hp16,
      getSegPageTag_eq h hc, Option.map_some, hlsn, getSegPrevLsn_eq h he hc hp hrank]

theorem filterMap_getElem?_range (l : List α) :
    (range l.length).filterMap (fun i => l[i]?) = l := by
  induction l with
  | nil => rfl
  | cons a l ih =>
    rw [length_cons, range_succ_eq_map]
    simpa [filterMap_map] using ih

section

variable (h : TblRep key t free es lay)
include h

/-- A table gives back the entries that were added, in that order. -/
theorem TblRep.tblEntries : tblEntries t = es.map fun e => (e.tag, e.lsn) := by
  have hread : ∀ i, (LogIndex.getOrderLsn t i).map (fun e => (e.tag, e.lsn)) =
      (es.map fun e => (e.tag, e.lsn))[i]? := by
    intro i
    rw [h.getOrderLsn, getElem?_map, Option.map_map]
    rfl
  rw [LogIndex.tblEntries, h.order_length]
  simp only [hread]
  conv_rhs => rw [← filterMap_getElem?_range (es.map fun e => (e.tag, e.lsn))]
  rw [length_map]

/-! ## By page -/

theorem TblRep.itemMinLsn (hne : tagLsns tag es ≠ []) :
    itemMinLsn t (lay.item tag es) = (tagLsns tag es).headD 0 := by
  obtain ⟨l, ls, hl⟩ := exists_cons_of_ne_nil hne
  have := h.combineLsn_suffix (show l ∈ tagLsns tag es by rw [hl]; exact mem_cons_self)
  simp only [LogIndex.itemMinLsn, headCell, hl]
  simpa [cellContent, cellStart, cellSize, itemHeadLsnNum] using this

theorem TblRep.combineLsn_tail (hne : tagLsns tag es ≠ []) :
    combineLsn t ((t.segment ((lay.cells tag).getD ((lay.cells tag).length - 1)
      tblInvalidSeg)).suffixLsn.getLastD 0) = (tagLsns tag es).getLastD 0 := by
  have hpos := h.cells_pos hne
  have hc : (lay.cells tag)[(lay.cells tag).length - 1]? = some _ := getElem?_getD (by omega)
  have hstart := (h.item tag).cellStart_le (j := (lay.cells tag).length - 1) (by omega)
  have hle := (h.item tag).length_le
  have hstep := cellStart_succ ((lay.cells tag).length - 1)
  rw [Nat.sub_add_cancel hpos] at hstep
  rw [((h.item tag).suffixLsn hc).2, getLastD_eq_getLast?, getLastD_eq_getLast?,
    getLast?_map, getLast?_eq_getElem?, getLast?_eq_getElem?,
    cellContent_length (by rw [Nat.sub_add_cancel hpos]; exact hle),
    cellContent_getElem? _ (by omega),
    show cellStart ((lay.cells tag).length - 1) + ((tagLsns tag es).length -
      cellStart ((lay.cells tag).length - 1) - 1) = (tagLsns tag es).length - 1 by omega,
    getElem?_eq_getElem (by omega)]
  exact h.combineLsn_suffix (getElem_mem _)

theorem TblRep.itemMaxLsn (hne : tagLsns tag es ≠ []) :
    itemMaxLsn t (lay.item tag es) = (tagLsns tag es).getLastD 0 := by
  rw [← h.combineLsn_tail hne, LogIndex.itemMaxLsn]
  split
  · rename_i heq
    have heq : lay.head tag = (lay.cells tag).getD ((lay.cells tag).length - 1) tblInvalidSeg := heq
    rw [← heq, Layout.head, (h.item tag).cell (getElem?_getD (h.cells_pos hne))]
    rfl
  · rfl

theorem TblRep.tblFind (tag : BufferTag) : tblFind tag t (key tag) =
      if tagLsns tag es = [] then none
      else some (lay.item tag es) := by
  rw [LogIndex.tblFind, h.existsPage]
  split
  · rename_i hnil
    rw [h.head_eq_zero.mpr hnil]
    rfl
  · rename_i hne
    exact h.itemHead_head (h.cells_eq_nil.not.mpr hne)

/-! ## The bloom filter -/

def visitItem (bf : BloomFilter) (es : List LogIndexLsn) (bloom : LogFileTableBloom bf)
    (tag : BufferTag) : LogFileTableBloom bf :=
  { bloom with
    maxLsn := max bloom.maxLsn ((tagLsns tag es).getLastD 0)
    minLsn := min bloom.minLsn ((tagLsns tag es).headD 0)
    bloomBytes := bf.addElement bloom.bloomBytes tag }

theorem TblRep.calcBloomChain (bf : BloomFilter) {id : Nat}
    {tags : List BufferTag} (hc : ItemChain lay id tags) :
    ∀ {fuel} {bloom : LogFileTableBloom bf}, (∀ tag ∈ tags, lay.cells tag ≠ []) → id < fuel →
      calcBloomChain bf t fuel id bloom = tags.foldl (visitItem bf es) bloom := by
  induction hc with
  | nil =>
    intro fuel bloom _ hf
    obtain ⟨n, rfl⟩ : ∃ n, fuel = n + 1 := ⟨fuel - 1, by omega⟩
    rfl
  | @cons tag tags hlt _ ih =>
    intro fuel bloom hin hf
    obtain ⟨n, rfl⟩ : ∃ n, fuel = n + 1 := ⟨fuel - 1, by omega⟩
    have hcs := hin tag mem_cons_self
    have hne := h.cells_eq_nil.not.mp hcs
    rw [LogIndex.calcBloomChain, h.itemHead_head hcs, foldl_cons]
    simp only [h.itemMaxLsn hne, h.itemMinLsn hne]
    exact ih (fun x hx => hin x (mem_cons_of_mem _ hx)) (show lay.next tag < n by omega)

end

theorem foldl_visitItem (bf : BloomFilter) (es : List LogIndexLsn) (tags : List BufferTag) :
    ∀ bloom : LogFileTableBloom bf, tags.foldl (visitItem bf es) bloom =
      { idxTableId := bloom.idxTableId
        minLsn := tags.foldl (fun m tag => min m ((tagLsns tag es).headD 0)) bloom.minLsn
        maxLsn := tags.foldl (fun m tag => max m ((tagLsns tag es).getLastD 0)) bloom.maxLsn
        bloomBytes := tags.foldl bf.addElement bloom.bloomBytes } := by
  induction tags with
  | nil => exact fun _ => rfl
  | cons tag tags ih =>
    intro bloom
    simp only [foldl_cons]
    rw [ih]
    rfl

/-- The bloom data visits every page of the table. -/
theorem TblRep.getBloomData_eq (h : TblRep key t free es lay) (bf : BloomFilter)
    (hkey : ∀ tag, key tag < memTblHashNum) (tid : Nat) :
    ∃ tags : List BufferTag, (∀ tag, tag ∈ tags ↔ tagLsns tag es ≠ []) ∧
      getBloomData bf t tid = tags.foldl (visitItem bf es)
        { idxTableId := tid, maxLsn := invalidXLogRecPtr, minLsn := uint64Max,
          bloomBytes := bf.init } := by
  choose tags hc hmem using h.bucket
  refine ⟨(range memTblHashNum).flatMap tags, fun tag => ?_, ?_⟩
  · simp only [mem_flatMap, mem_range, hmem]
    exact ⟨fun ⟨_, _, _, hne⟩ => h.cells_eq_nil.not.mp hne,
      fun hne => ⟨key tag, hkey tag, rfl, h.cells_eq_nil.not.mpr hne⟩⟩
  · rw [getBloomData, calcBloom, foldl_flatMap]
    congr 1
    funext bloom k
    exact h.calcBloomChain bf (hc k) (fun tag htag => ((hmem k tag).mp htag).2)
      ((h.hash_lt k).trans_le h.free_le)

theorem foldl_max_le_iff (f : α → Nat) (l : List α) (a x : Nat) :
    l.foldl (fun m e => max m (f e)) a ≤ x ↔ a ≤ x ∧ ∀ e ∈ l, f e ≤ x := by
  induction l generalizing a with
  | nil => simp
  | cons e l ih =>
    rw [foldl_cons, ih, Nat.max_le, forall_mem_cons, and_assoc]

theorem le_foldl_min_iff (f : α → Nat) (l : List α) (a x : Nat) :
    x ≤ l.foldl (fun m e => min m (f e)) a ↔ x ≤ a ∧ ∀ e ∈ l, x ≤ f e := by
  induction l generalizing a with
  | nil => simp
  | cons e l ih =>
    rw [foldl_cons, ih, Nat.le_min, forall_mem_cons, and_assoc]

def LsnSorted (es : List LogIndexLsn) : Prop := es.Pairwise fun a b => a.lsn ≤ b.lsn

theorem LsnSorted.tagLsns (hs : LsnSorted es) (tag : BufferTag) :
    (tagLsns tag es).Pairwise (· ≤ ·) :=
  pairwise_map.mpr (List.Pairwise.filter _ hs)

theorem le_getLastD (hs : l.Pairwise (· ≤ ·)) {x : Nat} (hx : x ∈ l) : x ≤ l.getLastD 0 := by
  have hlast := getLast?_eq_getLast_of_ne_nil (ne_nil_of_mem hx)
  rw [getLastD_eq_getLast?, hlast]
  exact rel_of_getLast? hs le_rfl hlast hx

theorem headD_le (hs : l.Pairwise (· ≤ ·)) {x : Nat} (hx : x ∈ l) : l.headD 0 ≤ x := by
  cases l with
  | nil => simp at hx
  | cons a l =>
    rcases mem_cons.mp hx with rfl | hx
    · exact le_rfl
    · exact (pairwise_cons.mp hs).1 x hx

theorem headD_mem (hne : l ≠ []) : l.headD 0 ∈ l := by
  cases l with
  | nil => exact absurd rfl hne
  | cons a l => exact mem_cons_self

theorem getLastD_mem (hne : l ≠ []) : l.getLastD 0 ∈ l := by
  rw [getLastD_eq_getLast?, getLast?_eq_getLast_of_ne_nil hne]
  exact getLast_mem hne

theorem TblRep.getBloomData (h : TblRep key t free es lay) (bf : BloomFilter)
    (hkey : ∀ tag, key tag < memTblHashNum) (hs : LsnSorted es) (tid : Nat) :
    (getBloomData bf t tid).idxTableId = tid ∧ (getBloomData bf t tid).minLsn = t.minLsn ∧
      (getBloomData bf t tid).maxLsn = t.maxLsn ∧
      ∀ e ∈ es, bf.lacksElement (getBloomData bf t tid).bloomBytes e.tag = false := by
  obtain ⟨tags, hmem, heq⟩ := h.getBloomData_eq bf hkey tid
  have hin : ∀ {tag l}, l ∈ tagLsns tag es → tag ∈ tags := fun hl =>
    (hmem _).mpr (ne_nil_of_mem hl)
  have hself : ∀ e ∈ es, e.lsn ∈ tagLsns e.tag es := fun e he =>
    mem_tagLsns.mpr ⟨e, he, rfl, rfl⟩
  have hmin : tags.foldl (fun m tag => min m ((tagLsns tag es).headD 0)) uint64Max = t.minLsn := by
    rw [h.min_eq]
    refine eq_of_forall_le_iff fun x => ?_
    rw [le_foldl_min_iff, le_entriesMinLsn_iff]
    refine and_congr_right fun _ => ⟨fun hx e he => ?_, fun hx tag htag => ?_⟩
    · exact (hx e.tag (hin (hself e he))).trans (headD_le (hs.tagLsns _) (hself e he))
    · obtain ⟨e, he, -, heq⟩ := mem_tagLsns.mp (headD_mem ((hmem tag).mp htag))
      exact heq ▸ hx e he
  have hmax : tags.foldl (fun m tag => max m ((tagLsns tag es).getLastD 0)) invalidXLogRecPtr =
      t.maxLsn := by
    rw [h.max_eq]
    refine eq_of_forall_ge_iff fun x => ?_
    rw [foldl_max_le_iff, entriesMaxLsn_le_iff]
    refine ⟨fun hx e he => ?_, fun hx => ⟨Nat.zero_le _, fun tag htag => ?_⟩⟩
    · exact (le_getLastD (hs.tagLsns _) (hself e he)).trans (hx.2 e.tag (hin (hself e he)))
    · obtain ⟨e, he, -, heq⟩ := mem_tagLsns.mp (getLastD_mem ((hmem tag).mp htag))
      exact heq ▸ hx e he
  rw [heq, foldl_visitItem]
  exact ⟨rfl, hmin, hmax, fun e he => bf.no_false_negative _ _ (hin (hself e he))⟩

end TblRep

end PolarDB.LogIndex
