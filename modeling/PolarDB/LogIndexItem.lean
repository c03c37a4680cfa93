import Mathlib.Data.List.Nodup
import PolarDB.LogIndexTable

/-!
# The cells of one logindex item

All entries of one page in a table form an item: a list of cells, head
first, whose LSNs, read in order, are the page's LSNs. The cells are
filled one after the other - 2 LSNs in the head, 10 in each segment - so
the number of cells and the content of each is a function of the LSN
list (`cellNum`, `cellContent`).

`ItemRep` ties the linked cells of the source to that function, and it
is closed under the three writes of `log_index_insert_lsn`: an LSN in
the last cell (`ItemRep.appendLsn`), a new segment
(`ItemRep.insertNewSeg`) and a new head (`itemRep_insertNewItem`).
-/

namespace PolarDB.LogIndex

open List

/-! ## The cells of one item -/

/-- Number of LSNs in front of cell `j` of an item. -/
def cellStart : Nat → Nat
  | 0 => 0
  | j + 1 => itemHeadLsnNum + itemSegLsnNum * j

def cellSize : Nat → Nat
  | 0 => itemHeadLsnNum
  | _ + 1 => itemSegLsnNum

def cellNum (n : Nat) : Nat :=
  if n = 0 then 0 else 1 + (n - itemHeadLsnNum + (itemSegLsnNum - 1)) / itemSegLsnNum

def needsCell (n : Nat) : Bool := n = cellStart (cellNum n)

theorem cellStart_succ (j : Nat) : cellStart (j + 1) = cellStart j + cellSize j := by
  cases j with
  | zero => rfl
  | succ j => simp only [cellStart, cellSize, itemSegLsnNum]; omega

theorem cellSize_pos (j : Nat) : 0 < cellSize j := by
  cases j <;> simp [cellSize, itemHeadLsnNum, itemSegLsnNum]

theorem cellSize_le (j : Nat) : cellSize j ≤ 10 := by
  cases j <;> simp [cellSize, itemHeadLsnNum, itemSegLsnNum]

variable {j : Nat} {es : List LogIndexLsn}

theorem lt_cellNum_iff {n : Nat} : j < cellNum n ↔ cellStart j < n := by
  unfold cellNum itemHeadLsnNum itemSegLsnNum
  split
  · omega
  · cases j with
    | zero => simp only [cellStart]; omega
    | succ j => simp only [cellStart, itemHeadLsnNum, itemSegLsnNum]; omega

theorem le_cellStart_cellNum (n : Nat) : n ≤ cellStart (cellNum n) :=
  Nat.le_of_not_lt fun h => lt_irrefl _ (lt_cellNum_iff.mpr h)

theorem cellStart_mono {i : Nat} (h : i ≤ j) : cellStart i ≤ cellStart j := by
  induction h with
  | refl => exact le_rfl
  | step _ ih => rw [cellStart_succ]; omega

theorem cellNum_succ (n : Nat) :
    cellNum (n + 1) = if needsCell n then cellNum n + 1 else cellNum n := by
  cases n with
  | zero => rfl
  | succ n =>
    have hstart : cellStart (cellNum (n + 1)) = 2 + 10 * ((n - 1 + 9) / 10) := by
      rw [cellNum, if_neg (Nat.succ_ne_zero n), Nat.add_comm 1]
      rfl
    simp only [needsCell, hstart, decide_eq_true_eq]
    simp only [cellNum, Nat.succ_ne_zero, if_false, itemHeadLsnNum, itemSegLsnNum]
    split <;> omega

def cellContent (j : Nat) (l : List Nat) : List Nat :=
  (l.drop (cellStart j)).take (cellSize j)

variable {l : List Nat} {tag : BufferTag} {e : LogIndexLsn} {t : LogIdxTableData} {c : Nat}

theorem cellContent_append_before (x : Nat)
    (h : cellStart (j + 1) ≤ l.length) : cellContent j (l ++ [x]) = cellContent j l := by
  rw [cellStart_succ] at h
  rw [cellContent, drop_append_of_le_length (by omega),
    take_append_of_le_length (by rw [length_drop]; omega), cellContent]

theorem cellContent_append_tail (x : Nat)
    (hs : cellStart j ≤ l.length) (he : l.length < cellStart (j + 1)) :
    cellContent j (l ++ [x]) = cellContent j l ++ [x] := by
  rw [cellStart_succ] at he
  have hlen : (l.drop (cellStart j)).length < cellSize j := by rw [length_drop]; omega
  rw [cellContent, cellContent, drop_append_of_le_length hs,
    take_of_length_le (by rw [length_append]; simp only [length_singleton]; omega),
    take_of_length_le (by omega)]

theorem cellContent_length (h : l.length ≤ cellStart (j + 1)) :
    (cellContent j l).length = l.length - cellStart j := by
  rw [cellStart_succ] at h
  rw [cellContent, length_take, length_drop]
  omega

theorem cellContent_length_full (h : cellStart (j + 1) ≤ l.length) :
    (cellContent j l).length = cellSize j := by
  rw [cellStart_succ] at h
  rw [cellContent, length_take, length_drop]
  omega

theorem cellContent_getElem? {p : Nat} (l : List Nat) (h : p < cellSize j) :
    (cellContent j l)[p]? = l[cellStart j + p]? := by
  rw [cellContent, getElem?_take_of_lt h, getElem?_drop]

/-! ## Entries of one page -/

def tagLsns (tag : BufferTag) (es : List LogIndexLsn) : List Nat :=
  (es.filter fun e => e.tag = tag).map (·.lsn)

/-- The `prev_lsn` given with the first entry of a page. -/
def firstPrev (tag : BufferTag) (es : List LogIndexLsn) : Nat :=
  ((es.find? fun e => e.tag = tag).map (·.prevLsn)).getD invalidXLogRecPtr

theorem tagLsns_append_self (es : List LogIndexLsn) (e : LogIndexLsn) :
    tagLsns e.tag (es ++ [e]) = tagLsns e.tag es ++ [e.lsn] := by
  simp [tagLsns]

theorem tagLsns_append_other (es : List LogIndexLsn)
    (h : e.tag ≠ tag) : tagLsns tag (es ++ [e]) = tagLsns tag es := by
  simp [tagLsns, h]

theorem firstPrev_append_other (es : List LogIndexLsn)
    (h : e.tag ≠ tag) : firstPrev tag (es ++ [e]) = firstPrev tag es := by
  simp [firstPrev, h]

theorem tagLsns_eq_nil : tagLsns tag es = [] ↔ ∀ e ∈ es, e.tag ≠ tag := by
  simp [tagLsns]

theorem firstPrev_append_self (e : LogIndexLsn)
    (h : tagLsns tag es ≠ []) : firstPrev tag (es ++ [e]) = firstPrev tag es := by
  have hfind : (es.find? fun e => decide (e.tag = tag)) ≠ none := by
    intro hnone
    refine h (tagLsns_eq_nil.mpr fun e' he' htag => ?_)
    exact absurd (decide_eq_true htag) (find?_eq_none.mp hnone e' he')
  obtain ⟨x, hx⟩ := Option.ne_none_iff_exists'.mp hfind
  simp [firstPrev, hx]

theorem firstPrev_append_new (h : tagLsns e.tag es = []) :
    firstPrev e.tag (es ++ [e]) = e.prevLsn := by
  have hnone : (es.find? fun e' => decide (e'.tag = e.tag)) = none :=
    find?_eq_none.mpr fun e' he' => by
      simpa using tagLsns_eq_nil.mp h e' he'
  simp [firstPrev, hnone]

theorem mem_tagLsns {l : Nat} : l ∈ tagLsns tag es ↔ ∃ e ∈ es, e.tag = tag ∧ e.lsn = l := by
  simp only [tagLsns, mem_map, mem_filter, decide_eq_true_eq, and_assoc]

def cellsUsedRev : List LogIndexLsn → Nat
  | [] => 0
  | e :: es => cellsUsedRev es + if needsCell (tagLsns e.tag es).length then 1 else 0

def cellsUsed (es : List LogIndexLsn) : Nat := cellsUsedRev es.reverse

theorem cellsUsed_append (es : List LogIndexLsn) (e : LogIndexLsn) : cellsUsed (es ++ [e]) =
      cellsUsed es + if needsCell (tagLsns e.tag es).length then 1 else 0 := by
  have hrev : (tagLsns e.tag es.reverse).length = (tagLsns e.tag es).length := by
    simp [tagLsns]
  rw [cellsUsed, reverse_append, reverse_singleton, singleton_append, cellsUsedRev, hrev, cellsUsed]

/-! ## The representation of one item -/

@[simp] theorem setSeg_segment_self (t : LogIdxTableData) (c : Nat) (x : LogTblSeg) :
    (t.setSeg c x).segment c = x := by
  simp [LogIdxTableData.setSeg]

theorem setSeg_segment_of_ne (t : LogIdxTableData) {c c' : Nat} (x : LogTblSeg)
    (h : c' ≠ c) : (t.setSeg c x).segment c' = t.segment c' := by
  simp [LogIdxTableData.setSeg, Function.update_of_ne h]

theorem itemHead_eq_some {item : LogItemHead} :
    itemHead t c = some item ↔ c ≠ tblInvalidSeg ∧ t.segment c = .itemHead item := by
  unfold itemHead
  split
  · simp_all
  · cases hc : t.segment c <;> simp_all

theorem itemSeg_eq_some {seg : LogItemSeg} :
    itemSeg t c = some seg ↔ c ≠ tblInvalidSeg ∧ t.segment c = .itemSeg seg := by
  unfold itemSeg
  split
  · simp_all
  · cases hc : t.segment c <;> simp_all

def headCell (tag : BufferTag) (cs l : List Nat) (prev next : Nat) : LogItemHead :=
  { headSeg := cs.getD 0 tblInvalidSeg, nextItem := next,
    nextSeg := cs.getD 1 tblInvalidSeg, tailSeg := cs.getD (cs.length - 1) tblInvalidSeg,
    tag := tag, prevPageLsn := prev, suffixLsn := (cellContent 0 l).map lsnSuffix }

def segCell (cs l : List Nat) (j : Nat) : LogItemSeg :=
  { headSeg := cs.getD 0 tblInvalidSeg, nextSeg := cs.getD (j + 2) tblInvalidSeg,
    prevSeg := cs.getD j tblInvalidSeg, suffixLsn := (cellContent (j + 1) l).map lsnSuffix }

def itemCell (tag : BufferTag) (cs l : List Nat) (prev next : Nat) : Nat → LogTblSeg
  | 0 => .itemHead (headCell tag cs l prev next)
  | j + 1 => .itemSeg (segCell cs l j)

/-- The table spells the LSNs `l` of page `tag` in the cells `cs`. -/
structure ItemRep (t : LogIdxTableData) (tag : BufferTag) (cs l : List Nat)
    (prev next : Nat) : Prop where
  length_eq : cs.length = cellNum l.length
  cell : ∀ {j c : Nat}, cs[j]? = some c → t.segment c = itemCell tag cs l prev next j

/-- Cell ids are valid, and a cell determines its position. -/
structure CellsOk (cs : List Nat) : Prop where
  pos : ∀ {c}, c ∈ cs → 0 < c
  inj : ∀ {i j c : Nat}, cs[i]? = some c → cs[j]? = some c → i = j

section ItemRep

variable {t' : LogIdxTableData} {cs : List Nat} {prev next : Nat}

theorem ItemRep.frame (h : ItemRep t tag cs l prev next)
    (hf : ∀ c ∈ cs, t'.segment c = t.segment c) : ItemRep t' tag cs l prev next where
  length_eq := h.length_eq
  cell hc := (hf _ (mem_of_getElem? hc)).trans (h.cell hc)

theorem getElem?_getD {i : Nat} (h : i < cs.length) : cs[i]? = some (cs.getD i tblInvalidSeg) := by
  rw [getD_eq_getElem _ _ h, getElem?_eq_getElem h]

theorem ItemRep.itemHead_eq (h : ItemRep t tag cs l prev next) (hok : CellsOk cs)
    (hne : 0 < cs.length) :
    itemHead t (cs.getD 0 tblInvalidSeg) = some (headCell tag cs l prev next) := by
  have hc := getElem?_getD hne
  exact itemHead_eq_some.mpr ⟨(hok.pos (mem_of_getElem? hc)).ne', h.cell hc⟩

theorem ItemRep.itemSeg_eq (h : ItemRep t tag cs l prev next) (hok : CellsOk cs) {j : Nat}
    (hj : j + 1 < cs.length) :
    itemSeg t (cs.getD (j + 1) tblInvalidSeg) = some (segCell cs l j) := by
  have hc := getElem?_getD hj
  exact itemSeg_eq_some.mpr ⟨(hok.pos (mem_of_getElem? hc)).ne', h.cell hc⟩

theorem CellsOk.getD_ne (hok : CellsOk cs) {i j : Nat} (hi : i < cs.length)
    (hj : j < cs.length) (hij : i ≠ j) :
    cs.getD i tblInvalidSeg ≠ cs.getD j tblInvalidSeg := fun heq =>
  hij (hok.inj (getElem?_getD hi) (heq ▸ getElem?_getD hj))

theorem CellsOk.nodup (hok : CellsOk cs) : cs.Nodup :=
  nodup_iff_getElem?_ne_getElem?.mpr fun _ _ hij hj heq =>
    hij.ne (hok.inj (heq ▸ getElem?_getD hj) (getElem?_getD hj))

theorem ne_getD {c i : Nat} (hc : c ∉ cs) (hi : i < cs.length) : c ≠ cs.getD i tblInvalidSeg :=
  fun heq => hc (heq ▸ mem_of_getElem? (getElem?_getD hi))

theorem CellsOk.tailSeg_cases (hok : CellsOk cs) (hne : 0 < cs.length) (tag : BufferTag)
    (l : List Nat) (prev next : Nat) :
    cs.length = 1 ∧ (headCell tag cs l prev next).tailSeg = cs.getD 0 tblInvalidSeg ∨
    ∃ j, cs.length = j + 2 ∧ (headCell tag cs l prev next).tailSeg = cs.getD (j + 1) tblInvalidSeg ∧
      cs.getD (j + 1) tblInvalidSeg ≠ cs.getD 0 tblInvalidSeg := by
  by_cases h1 : cs.length = 1
  · exact .inl ⟨h1, by rw [headCell, h1]⟩
  · obtain ⟨j, hj⟩ : ∃ j, cs.length = j + 2 := ⟨cs.length - 2, by omega⟩
    refine .inr ⟨j, hj, ?_, hok.getD_ne (by omega) hne (by omega)⟩
    rw [headCell, hj, show j + 2 - 1 = j + 1 by omega]

section

variable (h : ItemRep t tag cs l prev next)
include h

theorem ItemRep.cellStart_le {j : Nat} (hj : j < cs.length) : cellStart j < l.length :=
  lt_cellNum_iff.mp (h.length_eq ▸ hj)

theorem ItemRep.length_le : l.length ≤ cellStart cs.length := h.length_eq ▸ le_cellStart_cellNum _

theorem ItemRep.needsCell_iff : needsCell l.length = true ↔ l.length = cellStart cs.length := by
  rw [needsCell, decide_eq_true_eq, h.length_eq]

/-- Other LSNs that differ in the last cell, when that cell is written. -/
theorem ItemRep.setTail (hok : CellsOk cs) (hne : 0 < cs.length) {l' : List Nat}
    (hnum : cellNum l'.length = cellNum l.length)
    (hbefore : ∀ j, j + 1 < cs.length → cellContent j l' = cellContent j l) :
    ItemRep (t.setSeg (cs.getD (cs.length - 1) tblInvalidSeg)
      (itemCell tag cs l' prev next (cs.length - 1))) tag cs l' prev next where
  length_eq := h.length_eq.trans hnum.symm
  cell {j c} hc := by
    have hj := lt_of_getElem? hc
    obtain rfl : c = cs.getD j tblInvalidSeg := Option.some.inj (hc ▸ getElem?_getD hj)
    by_cases hlast : j = cs.length - 1
    · rw [hlast, setSeg_segment_self]
    · rw [setSeg_segment_of_ne _ _ (hok.getD_ne hj (by omega) hlast), h.cell hc]
      have := hbefore j (by omega)
      cases j <;> simp only [itemCell, headCell, segCell, this]

theorem ItemRep.appendLsn (hok : CellsOk cs)
    (hne : 0 < cs.length) (hroom : l.length < cellStart cs.length) (info : LogIndexLsn) :
    ∃ t', appendLsn t (cs.getD 0 tblInvalidSeg) info = (t', l.length - cellStart (cs.length - 1)) ∧
      ItemRep t' tag cs (l ++ [info.lsn]) prev next ∧
      (∀ c, c ∉ cs → t'.segment c = t.segment c) ∧
      t' = { t with segment := t'.segment } := by
  have hlast : cellStart (cs.length - 1) < l.length := h.cellStart_le (by omega)
  have hnum : cellNum (l ++ [info.lsn]).length = cellNum l.length := by
    rw [length_append, length_singleton, cellNum_succ, if_neg]
    rw [h.needsCell_iff]
    omega
  have hlen : (cellContent (cs.length - 1) l).length = l.length - cellStart (cs.length - 1) :=
    cellContent_length (by rw [Nat.sub_add_cancel hne]; omega)
  have htail : cellContent (cs.length - 1) (l ++ [info.lsn]) =
      cellContent (cs.length - 1) l ++ [info.lsn] :=
    cellContent_append_tail _ (by omega) (by rw [Nat.sub_add_cancel hne]; omega)
  refine ⟨_, ?_, h.setTail hok hne hnum fun j hj => cellContent_append_before _
    (h.cellStart_le hj).le, fun c hc => setSeg_segment_of_ne _ _ (ne_getD hc (by omega)), rfl⟩
  rw [LogIndex.appendLsn, h.itemHead_eq hok hne, ← hlen]
  obtain ⟨h1, htl⟩ | ⟨j, hj, htl, hneq⟩ := hok.tailSeg_cases hne tag l prev next
  · rw [h1, Nat.sub_self] at htail
    simp only [if_true, h1, Nat.sub_self, itemCell, headCell, htail, map_append,
      map_singleton, length_map]
  · rw [hj, show j + 2 - 1 = j + 1 by omega] at htail
    simp only [htl, if_neg hneq, h.itemSeg_eq hok (show j + 1 < cs.length by omega), hj,
      show j + 2 - 1 = j + 1 by omega, itemCell, segCell, htail, map_append, map_singleton,
      length_map]

theorem ItemRep.insertNewSeg (hok : CellsOk cs) (hne : 0 < cs.length)
    (hfull : l.length = cellStart cs.length) {dst : Nat} (hdst : dst ∉ cs) (info : LogIndexLsn) :
    ∃ t', insertNewSeg t (cs.getD 0 tblInvalidSeg) dst info = t' ∧
      ItemRep t' tag (cs ++ [dst]) (l ++ [info.lsn]) prev next ∧
      (∀ c, c ∉ cs ++ [dst] → t'.segment c = t.segment c) ∧
      t' = { t with segment := t'.segment } := by
  have hbefore : ∀ j, j < cs.length → cellContent j (l ++ [info.lsn]) = cellContent j l :=
    fun j hj => cellContent_append_before _ (hfull ▸ cellStart_mono hj)
  have hnew : cellContent cs.length (l ++ [info.lsn]) = [info.lsn] := by
    rw [cellContent_append_tail _ (by omega)
      (by rw [cellStart_succ]; have := cellSize_pos cs.length; omega)]
    have : (cellContent cs.length l).length = 0 := by
      rw [cellContent_length (by rw [cellStart_succ]; omega)]; omega
    rw [length_eq_zero_iff.mp this, nil_append]
  have hold : ∀ i, i < cs.length → (cs ++ [dst]).getD i tblInvalidSeg =
      cs.getD i tblInvalidSeg := fun i hi => getD_append _ _ _ _ hi
  have hend : (cs ++ [dst]).getD cs.length tblInvalidSeg = dst := by simp
  have hlen' : (cs ++ [dst]).length = cs.length + 1 := by simp
  have hrep : ∀ t', (∀ i, i < cs.length → t'.segment (cs.getD i tblInvalidSeg) =
        itemCell tag (cs ++ [dst]) (l ++ [info.lsn]) prev next i) →
      t'.segment dst = itemCell tag (cs ++ [dst]) (l ++ [info.lsn]) prev next cs.length →
      ItemRep t' tag (cs ++ [dst]) (l ++ [info.lsn]) prev next := by
    refine fun t' hcs hd => ⟨?_, fun {i c} hc => ?_⟩
    · rw [hlen', length_append, length_singleton, cellNum_succ,
        if_pos (h.needsCell_iff.mpr hfull), h.length_eq]
    · have hi := lt_of_getElem? hc
      obtain rfl : c = (cs ++ [dst]).getD i tblInvalidSeg := Option.some.inj (hc ▸ getElem?_getD hi)
      rcases Nat.lt_or_eq_of_le (Nat.le_of_lt_succ (hlen' ▸ hi)) with hi | rfl
      · rw [hold i hi, hcs i hi]
      · rw [hend, hd]
  rw [LogIndex.insertNewSeg, h.itemHead_eq hok hne]
  obtain ⟨h1, htl⟩ | ⟨k, hk, htl, hneq⟩ := hok.tailSeg_cases hne tag l prev next
  · simp only [htl, if_true]
    refine ⟨_, rfl, hrep _ (fun i hi => ?_) ?_, fun c hc => ?_, rfl⟩
    · obtain rfl : i = 0 := by omega
      rw [h1] at hend
      rw [setSeg_segment_of_ne _ _ (ne_getD hdst hi).symm, setSeg_segment_self]
      simp only [itemCell, headCell, hlen', h1, hend, hold 0 hne, hbefore 0 hne, Nat.add_sub_cancel]
    · rw [h1] at hnew ⊢
      simp [itemCell, segCell, hnew, h1]
    · simp only [mem_append, mem_singleton, not_or] at hc
      rw [setSeg_segment_of_ne _ _ hc.2, setSeg_segment_of_ne _ _ (ne_getD hc.1 hne)]
  · simp only [htl, if_neg hneq, h.itemSeg_eq hok (show k + 1 < cs.length by omega)]
    refine ⟨_, rfl, hrep _ (fun i hi => ?_) ?_, fun c hc => ?_, rfl⟩
    · rw [setSeg_segment_of_ne _ _ (ne_getD hdst hi).symm]
      cases i with
      | zero =>
        rw [setSeg_segment_self]
        simp only [itemCell, headCell, hlen', hend, hold 0 hne, hold 1 (by omega), hbefore 0 hne,
          Nat.add_sub_cancel]
      | succ j =>
        rw [setSeg_segment_of_ne _ _ (hok.getD_ne hi hne (by omega))]
        by_cases hj : j = k
        · subst hj
          rw [hk] at hend
          rw [setSeg_segment_self]
          simp only [itemCell, segCell, hend, hold 0 hne, hold j (by omega), hbefore (j + 1) hi]
        · rw [setSeg_segment_of_ne _ _ (hok.getD_ne hi (by omega) (by omega)),
            h.cell (getElem?_getD hi)]
          simp only [itemCell, segCell, hold 0 hne, hold j (by omega), hold (j + 2) (by omega),
            hbefore (j + 1) hi]
    · rw [hk] at hnew ⊢
      simp [itemCell, segCell, hnew, hk]
    · simp only [mem_append, mem_singleton, not_or] at hc
      rw [setSeg_segment_of_ne _ _ hc.2, setSeg_segment_of_ne _ _ (ne_getD hc.1 hne),
        setSeg_segment_of_ne _ _ (ne_getD hc.1 (by omega))]

end

theorem itemRep_insertNewItem (t : LogIdxTableData) (info : LogIndexLsn) (key dst : Nat) :
    ItemRep (insertNewItem info t key dst) info.tag [dst] [info.lsn] info.prevLsn
      (t.hash key) where
  length_eq := by simp [cellNum, itemHeadLsnNum, itemSegLsnNum]
  cell {j c} hc := by
    obtain ⟨rfl, rfl⟩ : j = 0 ∧ dst = c := by simpa [getElem?_singleton] using hc
    simp [insertNewItem, itemCell, headCell, cellContent, cellStart, cellSize, itemHeadLsnNum]

end ItemRep

end PolarDB.LogIndex
