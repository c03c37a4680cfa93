import Mathlib.Data.List.Induction
import PolarDB.LogIndexItem

/-!
# What a logindex table stands for

A table is filled by one inserter, entry by entry, so it stands for the
list `es` of the entries added to it. `TblRep` says how the table spells
that list: every page of `es` has one item (`ItemRep`), items of
different pages share no cell, each hash bucket chains the items of its
pages, and `idx_order` names the cell and index of each entry of `es`.

The representation is closed under the three ways an entry can be added
(`TblRep.appendEntry`, `TblRep.insertSeg`, `TblRep.insertItem`). A new
cell is needed exactly when the page's LSNs fill its cells (`needsCell`),
so the number of cells in use (`cellsUsed`), and with it the moment the
table is full, is a function of `es`.
-/

namespace PolarDB.LogIndex

open Function List

/-! ## Hash chains -/

/-- Where the items of a table are: the cells of each page, head first,
and the item behind it in its hash bucket. -/
structure Layout where
  cells : BufferTag → List Nat
  next : BufferTag → Nat

def Layout.head (lay : Layout) (tag : BufferTag) : Nat := (lay.cells tag).getD 0 tblInvalidSeg

def Layout.extend (lay : Layout) (tag : BufferTag) (new : List Nat) (next : Nat) : Layout :=
  ⟨update lay.cells tag (lay.cells tag ++ new), update lay.next tag next⟩

section

variable (lay : Layout) (tag : BufferTag) (new : List Nat) (next : Nat)
include lay tag new next

@[simp] theorem Layout.extend_cells_self
    : (lay.extend tag new next).cells tag = lay.cells tag ++ new :=
  update_self ..

@[simp] theorem Layout.extend_next_self : (lay.extend tag new next).next tag = next :=
  update_self ..

end

variable {tag tag' : BufferTag}

theorem Layout.extend_cells_of_ne (lay : Layout) (new : List Nat)
    (next : Nat) (h : tag' ≠ tag) : (lay.extend tag new next).cells tag' = lay.cells tag' :=
  update_of_ne h ..

theorem Layout.extend_next_of_ne (lay : Layout) (new : List Nat)
    (next : Nat) (h : tag' ≠ tag) : (lay.extend tag new next).next tag' = lay.next tag' :=
  update_of_ne h ..

/-- The chain that starts at `id` runs through the items of `tags`. New
items go in front, so cell ids decrease along a chain. -/
inductive ItemChain (lay : Layout) : Nat → List BufferTag → Prop
  | nil : ItemChain lay tblInvalidSeg []
  | cons {tag : BufferTag} {tags : List BufferTag} :
      lay.next tag < lay.head tag → ItemChain lay (lay.next tag) tags →
      ItemChain lay (lay.head tag) (tag :: tags)

theorem ItemChain.congr {lay lay' : Layout} {id : Nat} {tags : List BufferTag}
    (h : ItemChain lay id tags)
    (hf : ∀ tag ∈ tags, lay'.head tag = lay.head tag ∧ lay'.next tag = lay.next tag) :
    ItemChain lay' id tags := by
  induction h with
  | nil => exact .nil
  | @cons tag tags hlt _ ih =>
    obtain ⟨hh, hn⟩ := hf tag mem_cons_self
    have ih' := ih fun tag' htag' => hf tag' (mem_cons_of_mem _ htag')
    rw [← hh]
    exact .cons (by rw [hh, hn]; exact hlt) (by rw [hn]; exact ih')

/-! ## The representation of a table -/

def entriesMaxLsn (es : List LogIndexLsn) : Nat :=
  es.foldl (fun m e => max e.lsn m) invalidXLogRecPtr

def entriesMinLsn (es : List LogIndexLsn) : Nat :=
  es.foldl (fun m e => min e.lsn m) uint64Max

section

variable (es : List LogIndexLsn)
include es

theorem entriesMaxLsn_append (e : LogIndexLsn) :
    entriesMaxLsn (es ++ [e]) = max e.lsn (entriesMaxLsn es) := by
  simp [entriesMaxLsn]

theorem entriesMinLsn_append (e : LogIndexLsn) :
    entriesMinLsn (es ++ [e]) = min e.lsn (entriesMinLsn es) := by
  simp [entriesMinLsn]

theorem entriesMaxLsn_le_iff (x : Nat) : entriesMaxLsn es ≤ x ↔ ∀ e ∈ es, e.lsn ≤ x := by
  induction es using reverseRecOn with
  | nil => simp [entriesMaxLsn, invalidXLogRecPtr]
  | append_singleton es e ih =>
    rw [entriesMaxLsn_append, Nat.max_le, ih, forall_mem_append, forall_mem_singleton, and_comm]

theorem le_entriesMinLsn_iff (x : Nat) :
    x ≤ entriesMinLsn es ↔ x ≤ uint64Max ∧ ∀ e ∈ es, x ≤ e.lsn := by
  induction es using reverseRecOn with
  | nil => simp [entriesMinLsn]
  | append_singleton es e ih =>
    rw [entriesMinLsn_append, Nat.le_min, ih, forall_mem_append, forall_mem_singleton,
      and_comm, and_assoc]

end

/-- Table `t` with the free list head `free` holds the entries `es`, laid
out as `lay` says. -/
structure TblRep (key : BufferTag → Nat) (t : LogIdxTableData) (free : Nat)
    (es : List LogIndexLsn) (lay : Layout) : Prop where
  item : ∀ tag, ItemRep t tag (lay.cells tag) (tagLsns tag es) (firstPrev tag es) (lay.next tag)
  bound : ∀ {tag c}, c ∈ lay.cells tag → 0 < c ∧ c < free
  inj : ∀ {tag tag' : BufferTag} {i j c : Nat}, (lay.cells tag)[i]? = some c →
    (lay.cells tag')[j]? = some c →
    tag = tag' ∧ i = j
  bucket : ∀ k, ∃ tags, ItemChain lay (t.hash k) tags ∧
    ∀ tag, tag ∈ tags ↔ key tag = k ∧ lay.cells tag ≠ []
  free_eq : free = 1 + cellsUsed es
  free_le : free ≤ memTblSegNum
  order_length : t.idxOrder.length = es.length
  order : ∀ {i : Nat} {e}, es[i]? = some e → ∃ j p c : Nat, (lay.cells e.tag)[j]? = some c ∧
    p < cellSize j ∧ cellStart j + p = (tagLsns e.tag (es.take i)).length ∧
    t.idxOrder[i]? = some (orderEntry c p)
  prefix_eq : ∀ e ∈ es, lsnPrefix e.lsn = t.prefixLsn
  max_eq : t.maxLsn = entriesMaxLsn es
  min_eq : t.minLsn = entriesMinLsn es

abbrev Layout.item (lay : Layout) (tag : BufferTag) (es : List LogIndexLsn) : LogItemHead :=
  headCell tag (lay.cells tag) (tagLsns tag es) (firstPrev tag es) (lay.next tag)

section TblRep

variable {key : BufferTag → Nat} {t : LogIdxTableData} {free : Nat}
  {es : List LogIndexLsn} {lay : Layout}

theorem TblRep.cellsOk (h : TblRep key t free es lay) (tag : BufferTag) : CellsOk (lay.cells tag) :=
  ⟨fun hc => (h.bound hc).1, fun hi hj => (h.inj hi hj).2⟩

variable {tag : BufferTag} {e : LogIndexLsn}

theorem TblRep.cells_eq_nil (h : TblRep key t free es lay) :
    lay.cells tag = [] ↔ tagLsns tag es = [] := by
  have hl := (h.item tag).length_eq
  constructor
  · intro hc
    by_contra hne
    have := lt_cellNum_iff (j := 0).mpr (length_pos_iff.mpr hne)
    rw [← hl, hc] at this
    exact absurd this (by decide)
  · intro hn
    rw [hn] at hl
    exact length_eq_zero_iff.mp hl

theorem TblRep.cells_pos (h : TblRep key t free es lay) (hne : tagLsns tag es ≠ []) :
    0 < (lay.cells tag).length :=
  length_pos_iff.mpr (h.cells_eq_nil.not.mpr hne)

theorem tblRep_empty (key : BufferTag → Nat) {t : LogIdxTableData} (hhash : ∀ k, t.hash k = 0)
    (hord : t.idxOrder = []) (hmax : t.maxLsn = invalidXLogRecPtr) (hmin : t.minLsn = uint64Max) :
    TblRep key t 1 [] ⟨fun _ => [], fun _ => tblInvalidSeg⟩ where
  item _ := ⟨rfl, fun hc => by simp at hc⟩
  bound hc := by simp at hc
  inj hc := by simp at hc
  bucket k := ⟨[], hhash k ▸ .nil, by simp⟩
  free_eq := rfl
  free_le := by decide
  order_length := by rw [hord]; rfl
  order he := by simp at he
  prefix_eq := by simp
  max_eq := hmax
  min_eq := hmin

section

variable (h : TblRep key t free es lay)
include h

/-- Everything about adding an entry that does not depend on which cells
of its item change. `new` is the list of cells the item gains. -/
theorem TblRep.add {t1 : LogIdxTableData}
    (new : List Nat) {next : Nat} {j p c : Nat} (hpre : lsnPrefix e.lsn = t.prefixLsn)
    (ht1 : t1 = { t with segment := t1.segment, hash := t1.hash })
    (hitem : ItemRep t1 e.tag (lay.cells e.tag ++ new) (tagLsns e.tag es ++ [e.lsn])
      (firstPrev e.tag (es ++ [e])) next)
    (hnew : ∀ c ∈ new, c = free) (hone : new.length ≤ 1)
    (hfit : free + new.length ≤ memTblSegNum)
    (hframe : ∀ c, c ∉ lay.cells e.tag ++ new → t1.segment c = t.segment c)
    (hbucket : ∀ k, ∃ tags, ItemChain (lay.extend e.tag new next) (t1.hash k) tags ∧
      ∀ tag, tag ∈ tags ↔ key tag = k ∧ (tag = e.tag ∨ lay.cells tag ≠ []))
    (hj : (lay.cells e.tag ++ new)[j]? = some c) (hp : p < cellSize j)
    (hjp : cellStart j + p = (tagLsns e.tag es).length) :
    TblRep key (updateLsnRange (addOrder t1 c p) e.lsn) (free + new.length) (es ++ [e])
      (lay.extend e.tag new next) := by
  have hcells : ∀ tag, tag ≠ e.tag → (lay.extend e.tag new next).cells tag = lay.cells tag :=
    fun tag htag => lay.extend_cells_of_ne new next htag
  have hself : (lay.extend e.tag new next).cells e.tag = lay.cells e.tag ++ new :=
    lay.extend_cells_self ..
  have hfresh : ∀ {tag} {i c : Nat}, (lay.cells tag)[i]? = some c → c ∉ new := fun hc hmem =>
    absurd (h.bound (mem_of_getElem? hc)).2 (by rw [hnew _ hmem]; omega)
  have hcase : ∀ {tag} {i c : Nat}, ((lay.extend e.tag new next).cells tag)[i]? = some c →
      (lay.cells tag)[i]? = some c ∨ (tag = e.tag ∧ i = (lay.cells e.tag).length ∧ c ∈ new) := by
    intro tag i c hc
    by_cases htag : tag = e.tag
    · subst htag
      rw [hself] at hc
      refine (getElem?_append_cases hc).imp_right fun ⟨_, hn⟩ => ?_
      have hlt := lt_of_getElem? hn
      exact ⟨rfl, by omega, mem_of_getElem? hn⟩
    · exact .inl (by rwa [hcells tag htag] at hc)
  have hord : (addOrder t1 c p).idxOrder = t.idxOrder ++ [orderEntry c p] := by rw [ht1]; rfl
  constructor
  case item =>
    intro tag
    by_cases htag : tag = e.tag
    · subst htag
      rw [hself, Layout.extend_next_self, tagLsns_append_self]
      exact hitem.frame fun _ _ => rfl
    · rw [hcells tag htag, Layout.extend_next_of_ne _ _ _ htag,
        tagLsns_append_other es (Ne.symm htag),
        firstPrev_append_other es (Ne.symm htag)]
      refine (h.item tag).frame fun c hc => hframe c fun hmem => ?_
      obtain ⟨i, hi⟩ := getElem?_of_mem hc
      rcases mem_append.mp hmem with hmem | hmem
      · obtain ⟨k, hk⟩ := getElem?_of_mem hmem
        exact htag (h.inj hi hk).1
      · exact hfresh hi hmem
  case bound =>
    intro tag c hc
    obtain ⟨i, hi⟩ := getElem?_of_mem hc
    rcases hcase hi with ho | ⟨-, -, hn⟩
    · have := h.bound (mem_of_getElem? ho)
      omega
    · have := length_pos_of_mem hn
      have := h.free_eq
      rw [hnew c hn]
      omega
  case inj =>
    intro tag tag' i i' c hi hi'
    rcases hcase hi with ho | ⟨rfl, rfl, hn⟩ <;> rcases hcase hi' with ho' | ⟨rfl, rfl, hn'⟩
    · exact h.inj ho ho'
    · exact absurd hn' (hfresh ho)
    · exact absurd hn (hfresh ho')
    · exact ⟨rfl, rfl⟩
  case bucket =>
    intro k
    obtain ⟨tags, hchain, hmem⟩ := hbucket k
    refine ⟨tags, hchain, fun tag => (hmem tag).trans (and_congr_right fun _ => ?_)⟩
    by_cases htag : tag = e.tag
    · subst htag
      have : lay.cells e.tag ++ new ≠ [] := fun hnil => by rw [hnil] at hj; simp at hj
      simp [this]
    · rw [hcells tag htag]
      simp [htag]
  case free_eq =>
    have hl := hitem.length_eq
    rw [length_append, (h.item e.tag).length_eq, length_append,
      length_singleton, cellNum_succ] at hl
    rw [cellsUsed_append, h.free_eq]
    split at hl <;> rename_i hn <;> simp only [hn, if_true, Bool.false_eq_true, if_false] <;> omega
  case free_le => exact hfit
  case order_length =>
    change (addOrder t1 c p).idxOrder.length = _
    rw [hord, length_append, length_append, h.order_length]
    rfl
  case order =>
    intro i e' he'
    rcases getElem?_append_cases he' with he' | ⟨hle, hn⟩
    · have hi := lt_of_getElem? he'
      obtain ⟨j', p', c', hc', hp', hrank, ho⟩ := h.order he'
      refine ⟨j', p', c', ?_, hp', ?_, ?_⟩
      · by_cases htag : e'.tag = e.tag
        · rw [htag] at hc' ⊢
          rwa [hself, getElem?_append_left (lt_of_getElem? hc')]
        · rwa [hcells _ htag]
      · rwa [take_append_of_le_length hi.le]
      · change (addOrder t1 c p).idxOrder[i]? = _
        rw [hord, getElem?_append_left (by rw [h.order_length]; exact hi)]
        exact ho
    · have hlt := lt_of_getElem? hn
      rw [length_singleton] at hlt
      obtain rfl : i = es.length := by omega
      obtain rfl := mem_singleton.mp (mem_of_getElem? hn)
      refine ⟨j, p, c, by rw [hself]; exact hj, hp, ?_, ?_⟩
      · rwa [take_left]
      · change (addOrder t1 c p).idxOrder[es.length]? = _
        rw [hord, ← h.order_length, getElem?_concat_length]
  case prefix_eq =>
    rw [ht1]
    exact forall_mem_snoc h.prefix_eq hpre
  case max_eq => rw [entriesMaxLsn_append, ← h.max_eq, ht1]; rfl
  case min_eq => rw [entriesMinLsn_append, ← h.min_eq, ht1]; rfl

/-! ## Finding a page -/

theorem TblRep.head_lt (hne : lay.cells tag ≠ []) : 0 < lay.head tag ∧ lay.head tag < free :=
  h.bound (mem_of_getElem? (getElem?_getD (length_pos_iff.mpr hne)))

theorem TblRep.itemHead_head (hne : lay.cells tag ≠ []) :
    itemHead t (lay.head tag) = some (lay.item tag es) :=
  (h.item tag).itemHead_eq (h.cellsOk tag) (length_pos_iff.mpr hne)

theorem TblRep.hash_lt (k : Nat) : t.hash k < free := by
  obtain ⟨tags, hc, hmem⟩ := h.bucket k
  have hfree := h.free_eq
  generalize t.hash k = id at hc
  cases hc with
  | nil => simp only [tblInvalidSeg]; omega
  | @cons tag _ _ _ => exact (h.head_lt ((hmem tag).mp mem_cons_self).2).2

theorem TblRep.existsPageLoop (tag : BufferTag) {id : Nat}
    {tags : List BufferTag} (hc : ItemChain lay id tags) :
    ∀ {fuel}, (∀ tag ∈ tags, lay.cells tag ≠ []) → id < fuel →
      memTblExistsPageLoop tag t fuel id = if tag ∈ tags then lay.head tag else tblInvalidSeg := by
  induction hc with
  | nil =>
    intro fuel _ hf
    obtain ⟨n, rfl⟩ : ∃ n, fuel = n + 1 := ⟨fuel - 1, by omega⟩
    simp [memTblExistsPageLoop, itemHead]
  | @cons tag' tags hlt _ ih =>
    intro fuel hin hf
    obtain ⟨n, rfl⟩ : ∃ n, fuel = n + 1 := ⟨fuel - 1, by omega⟩
    rw [memTblExistsPageLoop, h.itemHead_head (hin tag' mem_cons_self)]
    by_cases htag : tag' = tag
    · subst htag
      simp [headCell]
    · have := ih (fun x hx => hin x (mem_cons_of_mem _ hx)) (show _ < n by omega)
      simp [headCell, htag, Ne.symm htag, this]

theorem TblRep.existsPage (tag : BufferTag) : memTblExistsPage tag t (key tag) = lay.head tag := by
  obtain ⟨tags, hc, hmem⟩ := h.bucket (key tag)
  have hin : ∀ tag ∈ tags, lay.cells tag ≠ [] := fun tag htag => ((hmem tag).mp htag).2
  rw [memTblExistsPage, h.existsPageLoop tag hc hin ((h.hash_lt _).trans_le h.free_le)]
  split
  · rfl
  · rename_i hnot
    by_contra hne
    refine hnot ((hmem tag).mpr ⟨rfl, fun hnil => hne ?_⟩)
    rw [Layout.head, hnil]
    rfl

theorem TblRep.head_eq_zero : lay.head tag = tblInvalidSeg ↔ tagLsns tag es = [] := by
  rw [← h.cells_eq_nil]
  constructor
  · intro hz
    by_contra hne
    exact absurd (h.head_lt hne).1 (by rw [hz]; decide)
  · intro hnil
    rw [Layout.head, hnil]
    rfl

theorem TblRep.memSegFull (hne : tagLsns tag es ≠ []) :
    memSegFull t (lay.head tag) = needsCell (tagLsns tag es).length := by
  have hpos := h.cells_pos hne
  have hi := h.item tag
  have hlast := hi.cellStart_le (j := (lay.cells tag).length - 1) (by omega)
  have hle := hi.length_le
  rw [LogIndex.memSegFull, h.itemHead_head (length_pos_iff.mp hpos), Bool.eq_iff_iff,
    hi.needsCell_iff]
  obtain ⟨h1, htl⟩ | ⟨k, hk, htl, hneq⟩ := (h.cellsOk tag).tailSeg_cases hpos tag
    (tagLsns tag es) (firstPrev tag es) (lay.next tag)
  · rw [h1] at hle ⊢
    simp only [htl, Layout.head, if_true]
    simp only [headCell, length_map, decide_eq_true_eq]
    rw [cellContent_length hle]
    simp only [cellStart, itemHeadLsnNum]
    omega
  · have hseg := hi.cell (getElem?_getD (i := k + 1) (by omega))
    rw [hk] at hle hlast ⊢
    rw [show k + 2 - 1 = k + 1 by omega] at hlast
    simp only [htl, Layout.head, if_neg hneq, hseg]
    simp only [itemCell, LogTblSeg.suffixLsn, segCell, length_map, decide_eq_true_eq]
    rw [cellContent_length hle, cellStart_succ (k + 1)]
    simp only [cellSize]
    omega

/-! ## Adding an entry -/

/-- The chains survive when one item gains cells behind its head. -/
theorem TblRep.bucket_extend (new : List Nat) (hne : lay.cells tag ≠ []) (k : Nat) :
    ∃ tags, ItemChain (lay.extend tag new (lay.next tag)) (t.hash k) tags ∧
      ∀ tag', tag' ∈ tags ↔ key tag' = k ∧ (tag' = tag ∨ lay.cells tag' ≠ []) := by
  obtain ⟨tags, hc, hmem⟩ := h.bucket k
  refine ⟨tags, hc.congr fun tag' _ => ?_, fun tag' => (hmem tag').trans ?_⟩
  · by_cases heq : tag' = tag
    · subst heq
      refine ⟨?_, Layout.extend_next_self ..⟩
      rw [Layout.head, Layout.extend_cells_self, getD_append _ _ _ _
        (length_pos_iff.mpr hne), Layout.head]
    · rw [Layout.head, Layout.extend_cells_of_ne _ _ _ heq, Layout.extend_next_of_ne _ _ _ heq]
      exact ⟨rfl, rfl⟩
  · refine and_congr_right fun _ => ⟨.inr, ?_⟩
    rintro (rfl | hne')
    · exact hne
    · exact hne'

section

variable (hpre : lsnPrefix e.lsn = t.prefixLsn)
include hpre

theorem TblRep.appendEntry (hne : tagLsns e.tag es ≠ [])
    (hroom : needsCell (tagLsns e.tag es).length = false) :
    TblRep key (appendEntry t (lay.head e.tag) e) free (es ++ [e])
      (lay.extend e.tag [] (lay.next e.tag)) := by
  have hpos := h.cells_pos hne
  have hi := h.item e.tag
  have hlt : (tagLsns e.tag es).length < cellStart (lay.cells e.tag).length :=
    hi.length_le.lt_of_ne fun heq => by simp [hi.needsCell_iff.mpr heq] at hroom
  have hlast := hi.cellStart_le (j := (lay.cells e.tag).length - 1) (by omega)
  have hstep := cellStart_succ ((lay.cells e.tag).length - 1)
  rw [Nat.sub_add_cancel hpos] at hstep
  obtain ⟨t', heq, hi', hframe, ht'⟩ := hi.appendLsn (h.cellsOk e.tag) hpos hlt e
  have htail : ((itemHead t' (lay.head e.tag)).map (·.tailSeg)).getD tblInvalidSeg =
      (lay.cells e.tag).getD ((lay.cells e.tag).length - 1) tblInvalidSeg := by
    rw [Layout.head, hi'.itemHead_eq (h.cellsOk e.tag) hpos]
    rfl
  rw [LogIndex.appendEntry, Layout.head, heq]
  rw [Layout.head] at htail
  simp only [htail]
  refine h.add [] (j := (lay.cells e.tag).length - 1) hpre (by rw [ht']) ?_ (by simp) (by simp)
    h.free_le ?_ ?_ (by rw [append_nil]; exact getElem?_getD (by omega)) ?_ ?_
  · rwa [append_nil, firstPrev_append_self e hne]
  · rwa [append_nil]
  · rw [ht']
    exact h.bucket_extend [] (length_pos_iff.mp hpos)
  · omega
  · omega

theorem TblRep.insertSeg (hne : tagLsns e.tag es ≠ [])
    (hfull : needsCell (tagLsns e.tag es).length = true) (hfree : free < memTblSegNum) :
    TblRep key (insertEntry t false (lay.head e.tag) free (key e.tag) e) (free + 1) (es ++ [e])
      (lay.extend e.tag [free] (lay.next e.tag)) := by
  have hpos := h.cells_pos hne
  have hi := h.item e.tag
  have hdst : free ∉ lay.cells e.tag := fun hmem => lt_irrefl _ (h.bound hmem).2
  have hstart := hi.needsCell_iff.mp hfull
  obtain ⟨t', heq, hi', hframe, ht'⟩ := hi.insertNewSeg (h.cellsOk e.tag) hpos hstart hdst e
  rw [insertEntry, Layout.head, heq, if_neg Bool.false_ne_true]
  refine h.add [free] (j := (lay.cells e.tag).length) hpre (by rw [ht']) ?_ (by simp) (by simp)
    hfree hframe ?_ (by simp) (cellSize_pos _) (by omega)
  · rwa [firstPrev_append_self e hne]
  · rw [ht']
    exact h.bucket_extend [free] (length_pos_iff.mp hpos)

/-- Adding the first entry of a page: its item goes in front of the bucket. -/
theorem TblRep.insertItem (hnil : tagLsns e.tag es = [])
    (hfree : free < memTblSegNum) (head : Nat) :
    TblRep key (insertEntry t true head free (key e.tag) e) (free + 1) (es ++ [e])
      (lay.extend e.tag [free] (t.hash (key e.tag))) := by
  have hcs : lay.cells e.tag = [] := h.cells_eq_nil.mpr hnil
  rw [insertEntry, if_pos rfl]
  refine h.add [free] (j := 0) hpre rfl ?_ (by simp) (by simp) hfree ?_ ?_
    (by simp [hcs]) (cellSize_pos _) (by rw [hnil]; rfl)
  · rw [hcs, hnil, firstPrev_append_new hnil]
    exact itemRep_insertNewItem t e (key e.tag) free
  · intro c hc
    rw [hcs, nil_append, mem_singleton] at hc
    exact setSeg_segment_of_ne _ _ hc
  · intro k
    obtain ⟨tags, hc, hmem⟩ := h.bucket k
    have hin : ∀ tag ∈ tags, lay.cells tag ≠ [] := fun tag htag => ((hmem tag).mp htag).2
    have hother : ∀ tag ∈ tags, tag ≠ e.tag := fun tag htag heq => hin tag htag (heq ▸ hcs)
    have hc' : ItemChain (lay.extend e.tag [free] (t.hash (key e.tag))) (t.hash k) tags := by
      refine hc.congr fun tag htag => ?_
      rw [Layout.head, Layout.extend_cells_of_ne _ _ _ (hother tag htag),
        Layout.extend_next_of_ne _ _ _ (hother tag htag)]
      exact ⟨rfl, rfl⟩
    have hhead : (lay.extend e.tag [free] (t.hash (key e.tag))).head e.tag = free := by
      rw [Layout.head, Layout.extend_cells_self, hcs]
      rfl
    by_cases hk : k = key e.tag
    · subst hk
      refine ⟨e.tag :: tags, ?_, fun tag => ?_⟩
      · have hnew : (insertNewItem e t (key e.tag) free).hash (key e.tag) = free := update_self ..
        rw [hnew]
        have hcons := @ItemChain.cons (lay.extend e.tag [free] (t.hash (key e.tag))) e.tag tags
          (by rw [hhead, Layout.extend_next_self]; exact h.hash_lt _)
          (by rw [Layout.extend_next_self]; exact hc')
        rwa [hhead] at hcons
      · rw [mem_cons, hmem tag]
        constructor
        · rintro (rfl | ⟨hk, hne⟩)
          · exact ⟨rfl, .inl rfl⟩
          · exact ⟨hk, .inr hne⟩
        · rintro ⟨hk, rfl | hne⟩
          · exact .inl rfl
          · exact .inr ⟨hk, hne⟩
    · refine ⟨tags, ?_, fun tag => ?_⟩
      · rwa [show (insertNewItem e t (key e.tag) free).hash k = t.hash k from update_of_ne hk ..]
      · rw [hmem tag]
        refine and_congr_right fun hkey => ⟨.inr, ?_⟩
        rintro (rfl | hne)
        · exact absurd hkey.symm hk
        · exact hne

end

end

end TblRep

/-! ## Tables up to layout -/

def TblHolds (key : BufferTag → Nat) (t : LogIdxTableData) (free : Nat)
    (es : List LogIndexLsn) : Prop := ∃ lay, TblRep key t free es lay

section TblHolds

variable {key : BufferTag → Nat} {t : LogIdxTableData} {free : Nat} {es : List LogIndexLsn}

section

variable (h : TblHolds key t free es)
include h

theorem TblHolds.existsPage_eq_zero (tag : BufferTag) :
    memTblExistsPage tag t (key tag) = tblInvalidSeg ↔ tagLsns tag es = [] := by
  obtain ⟨lay, h⟩ := h
  rw [h.existsPage, h.head_eq_zero]

theorem TblHolds.memSegFull {tag : BufferTag} (hne : tagLsns tag es ≠ []) :
    memSegFull t (memTblExistsPage tag t (key tag)) = needsCell (tagLsns tag es).length := by
  obtain ⟨lay, h⟩ := h
  rw [h.existsPage, h.memSegFull hne]

variable {e : LogIndexLsn}

theorem TblHolds.appendEntry (hpre : lsnPrefix e.lsn = t.prefixLsn) (hne : tagLsns e.tag es ≠ [])
    (hroom : needsCell (tagLsns e.tag es).length = false) :
    TblHolds key (appendEntry t (memTblExistsPage e.tag t (key e.tag)) e) free (es ++ [e]) := by
  obtain ⟨lay, h⟩ := h
  rw [h.existsPage]
  exact ⟨_, h.appendEntry hpre hne hroom⟩

/-- With a fresh cell: a new item or a new segment, as the page is new
to the table or not. -/
theorem TblHolds.insertEntry (hpre : lsnPrefix e.lsn = t.prefixLsn)
    (hfull : needsCell (tagLsns e.tag es).length = true) (hfree : free < memTblSegNum)
    {newItem : Bool} {head : Nat} (hnew : newItem = true ↔ tagLsns e.tag es = [])
    (hhead : newItem = false → head = memTblExistsPage e.tag t (key e.tag)) :
    TblHolds key (insertEntry t newItem head free (key e.tag) e) (free + 1) (es ++ [e]) := by
  obtain ⟨lay, h⟩ := h
  cases newItem with
  | true => exact ⟨_, h.insertItem hpre (hnew.mp rfl) hfree head⟩
  | false =>
    rw [hhead rfl, h.existsPage]
    exact ⟨_, h.insertSeg hpre (fun hnil => by simp [hnil] at hnew) hfull hfree⟩

end

end TblHolds

theorem appendLsn_idxTableId (t : LogIdxTableData) (head : Nat) (info : LogIndexLsn) :
    (appendLsn t head info).1.idxTableId = t.idxTableId := by
  unfold appendLsn
  split
  · rfl
  · split
    · rfl
    · split <;> rfl

theorem insertNewSeg_idxTableId (t : LogIdxTableData) (head dst : Nat) (info : LogIndexLsn) :
    (insertNewSeg t head dst info).idxTableId = t.idxTableId := by
  unfold insertNewSeg
  split
  · rfl
  · split
    · rfl
    · split <;> rfl

theorem insertEntry_idxTableId (t : LogIdxTableData) (newItem : Bool) (head dst key : Nat)
    (info : LogIndexLsn) :
    (insertEntry t newItem head dst key info).idxTableId = t.idxTableId := by
  cases newItem with
  | true => rfl
  | false => exact insertNewSeg_idxTableId ..

end PolarDB.LogIndex
