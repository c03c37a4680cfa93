import Mathlib.Data.List.Perm.Subperm
import PolarDB.LogIndexTableRead
import PolarDB.LogIndexRing

/-!
# Filling one logindex table

`log_index_insert_lsn` as long as it stays in the active table: the
entry goes into the last cell of its item, or into a fresh cell of the
table. When the table is full or of another LSN prefix the next table
is taken, and the filling of this one is over (`insertLsn` is `none`).

`TblOk` says in terms of the table alone what it looks like after any
such sequence: hash chains, the doubly linked segments of each item and
the order array.
-/

namespace PolarDB.LogIndex

open Function List

/-! ## What the inserter sees in the active table -/

theorem TblHolds.setPrefix {key : BufferTag → Nat} {d : LogIdxTableData} {free : Nat}
    (hh : TblHolds key d free []) (x : Nat) : TblHolds key { d with prefixLsn := x } free [] := by
  obtain ⟨lay, hr⟩ := hh
  refine ⟨lay, fun tag => (hr.item tag).frame fun _ _ => rfl, hr.bound, hr.inj, hr.bucket,
    hr.free_eq, hr.free_le, hr.order_length, hr.order, by simp, hr.max_eq, hr.min_eq⟩

variable {cfg : Config} {s s' : Snapshot cfg} {es : List LogIndexLsn} {free : Nat}
  {info : LogIndexLsn}

theorem startCall_head (s : Snapshot cfg) (info : LogIndexLsn) : (startCall s info).head =
      if (s.memTable s.activeTable).state = .active ∧
          sameTableLsnPrefix (s.memTable s.activeTable).data info.lsn = true then
        memTblExistsPage info.tag (s.memTable s.activeTable).data (cfg.hashPage info.tag)
      else tblInvalidSeg := by
  simp [startCall]

theorem startCall_newItem (s : Snapshot cfg) (info : LogIndexLsn) :
    (startCall s info).newItem = decide ((startCall s info).head = tblInvalidSeg) := rfl

theorem startCall_active (s : Snapshot cfg) (info : LogIndexLsn) :
    (startCall s info).active = s.activeTable := rfl

theorem appendInPlace_cond (happ : appendInPlace s (startCall s info) = true) :
    (s.memTable s.activeTable).state = .active ∧
      sameTableLsnPrefix (s.memTable s.activeTable).data info.lsn = true := by
  by_contra hc
  rw [appendInPlace, startCall_newItem, startCall_head, if_neg hc] at happ
  exact absurd happ (by simp)

section

variable (hh : TblHolds cfg.hashPage (s.memTable s.activeTable).data free es)
include hh

theorem TblHolds.of_appendInPlace (happ : appendInPlace s (startCall s info) = true) :
    tagLsns info.tag es ≠ [] ∧ needsCell (tagLsns info.tag es).length = false ∧
    TblHolds cfg.hashPage (LogIndex.appendEntry (s.memTable s.activeTable).data
      (startCall s info).head info) free (es ++ [info]) := by
  have hcond := appendInPlace_cond happ
  have hhead := startCall_head s info
  rw [if_pos hcond] at hhead
  simp only [appendInPlace, startCall_newItem, startCall_active, hhead, Bool.and_eq_true,
    Bool.not_eq_true', decide_eq_false_iff_not, hh.existsPage_eq_zero] at happ
  obtain ⟨hne, hroom⟩ := happ
  rw [hh.memSegFull hne] at hroom
  exact ⟨hne, hroom, hhead ▸ hh.appendEntry (of_decide_eq_true hcond.2).symm hne hroom⟩

/-- An entry of the table's LSN prefix that is not added in place needs a
fresh cell. -/
theorem TblHolds.needsCell_of_not_append
    (hcond : (s.memTable s.activeTable).state = .active ∧
      sameTableLsnPrefix (s.memTable s.activeTable).data info.lsn = true)
    (happ : appendInPlace s (startCall s info) = false) :
    needsCell (tagLsns info.tag es).length = true := by
  have hhead := startCall_head s info
  rw [if_pos hcond] at hhead
  by_cases hnil : tagLsns info.tag es = []
  · rw [hnil]
    rfl
  · have hne : ¬(startCall s info).head = tblInvalidSeg := by
      rwa [hhead, hh.existsPage_eq_zero]
    rw [← hh.memSegFull hnil, ← hhead]
    rw [appendInPlace, startCall_newItem, decide_eq_false hne, startCall_active] at happ
    simpa using happ

end

theorem TblHolds.isNew_iff {m : LogMemTable} (hh : TblHolds cfg.hashPage m.data m.freeHead es) :
    memTblIsNew m = true ↔ es = [] ∧ m.data.prefixLsn = 0 := by
  obtain ⟨lay, hr⟩ := hh
  simp only [memTblIsNew, Bool.and_eq_true, decide_eq_true_eq]
  constructor
  · rintro ⟨⟨⟨hmax, hmin⟩, hp⟩, -⟩
    refine ⟨eq_nil_iff_forall_not_mem.mpr fun e he => ?_, hp⟩
    have h1 := (entriesMaxLsn_le_iff es 0).mp (hr.max_eq ▸ hmax.le) e he
    have h2 := ((le_entriesMinLsn_iff es _).mp (hr.min_eq ▸ hmin.ge)).2 e he
    simp only [uint64Max] at h2
    omega
  · rintro ⟨rfl, hp⟩
    exact ⟨⟨⟨hr.max_eq, hr.min_eq⟩, hp⟩, hr.free_eq⟩

theorem TblHolds.newItem_of_nil
    (hh : TblHolds cfg.hashPage (s.memTable s.activeTable).data free []) :
    (startCall s info).newItem = true := by
  rw [startCall_newItem, startCall_head, decide_eq_true_eq]
  split
  · exact (hh.existsPage_eq_zero _).mpr rfl
  · rfl

/-! ## The filling of the active table -/

/-- `log_index_insert_lsn` into the active table, `none` when it moves on
to the next one. -/
def insertLsn (s : Snapshot cfg) (info : LogIndexLsn) : Option (Snapshot cfg) :=
  let c := startCall s info
  if appendInPlace s c then
    some (setData s c.active (appendEntry (s.memTable c.active).data c.head info))
  else
    match nextFreeSeg s c with
    | (s', .idle) => some s'
    | _ => none

def Filled (s : Snapshot cfg) (es : List LogIndexLsn) : Prop :=
  (s.memTable s.activeTable).state = .active ∧
    TblHolds cfg.hashPage (s.memTable s.activeTable).data (s.memTable s.activeTable).freeHead es

theorem filled_finishInsert {m : LogMemTable} (hstate : m.state = .active)
    (hm : m.freeHead = free + 1) (hh : TblHolds cfg.hashPage m.data free es)
    (hpre : lsnPrefix info.lsn = m.data.prefixLsn)
    (hneed : needsCell (tagLsns info.tag es).length = true) (hfree : free < memTblSegNum)
    (hnew : (startCall s info).newItem = true ↔ tagLsns info.tag es = [])
    (hhead : (startCall s info).newItem = false →
      (startCall s info).head = memTblExistsPage info.tag m.data (cfg.hashPage info.tag)) :
    Filled (finishInsert (s.setTable s.activeTable m) (startCall s info) free)
      (es ++ [info]) := by
  have hend : (finishInsert (s.setTable s.activeTable m) (startCall s info) free).memTable
      s.activeTable = ⟨m.freeHead, m.state, insertEntry m.data (startCall s info).newItem
        (startCall s info).head free (cfg.hashPage info.tag) info⟩ := by
    rw [finishInsert]
    simp [setData, Snapshot.setTable, startCall]
  have hins := hh.insertEntry hpre hneed hfree hnew hhead
  rw [← hm] at hins
  exact (congrArg (fun x : LogMemTable => x.state = .active ∧
    TblHolds cfg.hashPage x.data x.freeHead (es ++ [info])) hend).mpr ⟨hstate, hins⟩

theorem Filled.insertLsn (hf : Filled s es) (hs : insertLsn s info = some s') :
    Filled s' (es ++ [info]) := by
  obtain ⟨hstate, hh⟩ := hf
  have hhead := startCall_head s info
  unfold LogIndex.insertLsn at hs
  by_cases happ : appendInPlace s (startCall s info) = true
  · rw [if_pos happ] at hs
    cases hs
    refine ⟨?_, ?_⟩ <;> simp only [setData, Snapshot.setTable, startCall, update_self]
    · exact hstate
    · exact (hh.of_appendInPlace happ).2.2
  · rw [if_neg happ, nextFreeSeg, if_pos hstate] at hs
    rw [Bool.not_eq_true] at happ
    by_cases hn : memTblIsNew (s.memTable s.activeTable) = true
    · rw [if_pos hn] at hs
      cases hs
      obtain ⟨rfl, -⟩ := hh.isNew_iff.mp hn
      have hfresh : (startCall s info).newItem = true := hh.newItem_of_nil
      refine filled_finishInsert hstate rfl (hh.setPrefix _) rfl rfl ?_
        ⟨fun _ => rfl, fun _ => hfresh⟩ fun hf => absurd hf (by rw [hfresh]; decide)
      simp only [memTblIsNew, Bool.and_eq_true, decide_eq_true_eq] at hn
      rw [hn.2]
      decide
    · rw [if_neg hn] at hs
      by_cases hfull : (memTblFull (s.memTable s.activeTable) ||
          !sameTableLsnPrefix (s.memTable s.activeTable).data (startCall s info).info.lsn) = true
      · rw [if_pos hfull] at hs
        exact nomatch hs
      · rw [if_neg hfull] at hs
        cases hs
        simp only [Bool.or_eq_true, Bool.not_eq_true', not_or, Bool.not_eq_true,
          Bool.not_eq_false] at hfull
        obtain ⟨hnotfull, hpre⟩ := hfull
        rw [if_pos ⟨hstate, hpre⟩] at hhead
        refine filled_finishInsert hstate rfl hh (of_decide_eq_true hpre).symm
          (hh.needsCell_of_not_append ⟨hstate, hpre⟩ happ) ?_ ?_ fun _ => hhead
        · obtain ⟨lay, hr⟩ := hh
          exact lt_of_le_of_ne hr.free_le (of_decide_eq_false hnotfull)
        · rw [startCall_newItem, hhead, decide_eq_true_eq, hh.existsPage_eq_zero]

/-! ## The table after any number of entries -/

def maxOrderNum : Nat := memTblSegNum * itemSegLsnNum

inductive HashChain (t : LogIdxTableData) : Nat → List (Nat × LogItemHead) → Prop
  | nil : HashChain t tblInvalidSeg []
  | cons {id : Nat} {item : LogItemHead} {items : List (Nat × LogItemHead)} :
      itemHead t id = some item → HashChain t item.nextItem items →
      HashChain t id ((id, item) :: items)

structure SegList (t : LogIdxTableData) (id : Nat) (item : LogItemHead) (cs : List Nat) :
    Prop where
  nodup : cs.Nodup
  head : cs[0]? = some id ∧ item.headSeg = id ∧ item.nextSeg = cs.getD 1 tblInvalidSeg
  tail : cs.getLast? = some item.tailSeg
  seg : ∀ {j c : Nat}, cs[j + 1]? = some c → ∃ seg, itemSeg t c = some seg ∧
    seg.headSeg = id ∧ cs[j]? = some seg.prevSeg ∧ seg.nextSeg = cs.getD (j + 2) tblInvalidSeg
  head_full : 1 < cs.length → item.suffixLsn.length = itemHeadLsnNum
  seg_full : ∀ {j c : Nat}, j + 2 < cs.length → cs[j + 1]? = some c →
    (t.segment c).suffixLsn.length = itemSegLsnNum

structure TblOk (key : BufferTag → Nat) (t : LogIdxTableData) (es : List LogIndexLsn) :
    Prop where
  bucket : ∀ k, ∃ items, HashChain t (t.hash k) items ∧ (items.map (·.1)).Nodup ∧
    (items.map (·.2.tag)).Nodup ∧
    (∀ tag, tag ∈ items.map (·.2.tag) ↔ key tag = k ∧ ∃ e ∈ es, e.tag = tag) ∧
    ∀ x ∈ items, ∃ cs, SegList t x.1 x.2 cs
  prefix_eq : ∀ e ∈ es, lsnPrefix e.lsn = t.prefixLsn
  order_le : t.idxOrder.length ≤ maxOrderNum
  order_length : t.idxOrder.length = es.length
  order : ∀ i, getOrderLsn t i = es[i]?.map fun e => { e with prevLsn := prevLsnAt es i e }

section TblRep

variable {key : BufferTag → Nat} {t : LogIdxTableData} {lay : Layout} {id : Nat}
  {tags : List BufferTag}

theorem ItemChain.nodup (hc : ItemChain lay id tags) :
    (∀ tag ∈ tags, lay.head tag ≤ id) ∧ (tags.map lay.head).Nodup := by
  induction hc with
  | nil => exact ⟨nofun, nodup_nil⟩
  | @cons tag tags hlt _ ih =>
    have hbelow : ∀ tag' ∈ tags, lay.head tag' < lay.head tag := fun tag' h =>
      (ih.1 tag' h).trans_lt hlt
    refine ⟨forall_mem_cons.mpr ⟨le_rfl, fun tag' h => (hbelow tag' h).le⟩,
      nodup_cons.mpr ⟨fun hmem => ?_, ih.2⟩⟩
    obtain ⟨tag', h, heq⟩ := mem_map.mp hmem
    exact (hbelow tag' h).ne heq

section

variable (h : TblRep key t free es lay)
include h

theorem TblRep.hashChain (hc : ItemChain lay id tags) (hne : ∀ tag ∈ tags, lay.cells tag ≠ []) :
    HashChain t id (tags.map fun tag => (lay.head tag, lay.item tag es)) := by
  induction hc with
  | nil => exact .nil
  | cons _ _ ih =>
    obtain ⟨hself, hrest⟩ := forall_mem_cons.mp hne
    exact .cons (h.itemHead_head hself) (ih hrest)

theorem TblRep.segList {tag : BufferTag} (hne : lay.cells tag ≠ []) :
    SegList t (lay.head tag) (lay.item tag es) (lay.cells tag) := by
  have hr := h.item tag
  have hpos := length_pos_iff.mpr hne
  have hfull : ∀ {j : Nat}, j + 1 < (lay.cells tag).length →
      (cellContent j (tagLsns tag es)).length = cellSize j := fun hj =>
    cellContent_length_full (hr.cellStart_le hj).le
  refine ⟨(h.cellsOk tag).nodup, ⟨getElem?_getD hpos, rfl, rfl⟩, ?_, ?_, ?_, ?_⟩
  · rw [getLast?_eq_getElem?]
    exact getElem?_getD (by omega)
  · intro j c hc
    have hj := lt_of_getElem? hc
    have hseg := itemSeg_eq_some.mpr ⟨((h.cellsOk tag).pos (mem_of_getElem? hc)).ne', hr.cell hc⟩
    exact ⟨_, hseg, rfl, getElem?_getD (by omega), rfl⟩
  · intro hlen
    rw [Layout.item, headCell, length_map, hfull hlen]
    rfl
  · intro j c hlen hc
    rw [(hr.suffixLsn hc).2, length_map, hfull hlen]
    rfl

/-- No two entries share an order value, and there are no more than cells
times LSNs of a segment. -/
theorem TblRep.order_le : t.idxOrder.length ≤ maxOrderNum := by
  have hval : ∀ {i o : Nat}, t.idxOrder[i]? = some o → ∃ e j p c, es[i]? = some e ∧
      (lay.cells e.tag)[j]? = some c ∧ cellStart j + p = (tagLsns e.tag (es.take i)).length ∧
      p < 10 ∧ c < 4096 ∧ o = p * 4096 + c := by
    intro i o ho
    have hi := h.order_length ▸ (lt_of_getElem? ho)
    obtain ⟨j, p, c, hc, hp, hrank, ho'⟩ := h.order (getElem?_eq_getElem hi)
    have hp10 := hp.trans_le (cellSize_le j)
    have hc4 := (h.bound (mem_of_getElem? hc)).2.trans_le h.free_le
    refine ⟨_, j, p, c, getElem?_eq_getElem hi, hc, hrank, hp10, hc4, ?_⟩
    rw [Option.some.inj (ho.symm.trans ho'), orderEntry_eq hc4 (by omega), Nat.shiftLeft_eq]
  have hnodup : t.idxOrder.Nodup := by
    refine nodup_iff_getElem?_ne_getElem?.mpr fun i i' hlt hi' heq => ?_
    obtain ⟨e', j', p', c', _, hcell', hrank', hp', hc', hv'⟩ := hval (getElem?_eq_getElem hi')
    obtain ⟨e, j, p, c, he, hcell, hrank, _, hc, hv⟩ := hval (heq.trans (getElem?_eq_getElem hi'))
    obtain ⟨rfl, rfl⟩ : c = c' ∧ p = p' := by omega
    obtain ⟨htag, rfl⟩ := h.inj hcell hcell'
    have hbefore := tagLsns_getElem? (by rw [getElem?_take_of_lt hlt]; exact he)
    have hshort := lt_of_getElem? hbefore
    rw [take_take, Nat.min_eq_left hlt.le, htag, ← hrank', ← htag, ← hrank] at hshort
    exact lt_irrefl _ hshort
  have hsub : t.idxOrder ⊆ range maxOrderNum := by
    intro o ho
    obtain ⟨i, hi⟩ := getElem?_of_mem ho
    obtain ⟨e, j, p, c, -, -, -, hp, hc, rfl⟩ := hval hi
    exact mem_range.mpr (by simp only [maxOrderNum, memTblSegNum, itemSegLsnNum]; omega)
  exact (hnodup.subperm hsub).length_le.trans length_range.le

theorem TblRep.tblOk : TblOk key t es where
  bucket k := by
    obtain ⟨tags, hc, hmem⟩ := h.bucket k
    have hne : ∀ tag ∈ tags, lay.cells tag ≠ [] := fun tag ht => ((hmem tag).mp ht).2
    have hnodup := hc.nodup.2
    refine ⟨_, h.hashChain hc hne, ?_, ?_, fun tag => ?_, ?_⟩
    · rwa [map_map]
    · rw [map_map]
      exact (map_id tags).symm ▸ Nodup.of_map _ hnodup
    · rw [map_map]
      show tag ∈ tags.map id ↔ _
      rw [map_id, hmem, Ne, h.cells_eq_nil, tagLsns_eq_nil]
      simp
    · rintro _ hx
      obtain ⟨tag, htag, rfl⟩ := mem_map.mp hx
      exact ⟨_, h.segList (hne tag htag)⟩
  prefix_eq := h.prefix_eq
  order_le := h.order_le
  order_length := h.order_length
  order := h.getOrderLsn

end

end TblRep

/-- A table that was just made active, with any number of entries put
into it. -/
theorem exec_insertLsn_tblOk {tid lsn : Nat}
    (hnew : s.memTable s.activeTable = memTblNewActive zeroMemTable tid lsn)
    (hs : exec insertLsn s es = some s') :
    TblOk cfg.hashPage (s'.memTable s'.activeTable).data es := by
  have hinit : Filled s [] := by
    rw [Filled, hnew]
    exact ⟨rfl, _, tblRep_empty _ (fun _ => rfl) rfl rfl rfl⟩
  obtain ⟨-, lay, hr⟩ := exec_invariant (fun es s => Filled s es) hinit
    (fun _ _ _ _ hf hstep => hf.insertLsn hstep) hs
  exact hr.tblOk

/-- A ring of three tables; a bloom filter that never reports a page as
lacking. -/
def smallConfig : Config where
  memTblSize := 3
  tagHash tag := tag.blockNum
  bloom := ⟨Unit, (), fun _ _ => (), fun _ _ => false, fun _ _ _ => rfl⟩
  three_le := Nat.le_refl 3

def pageEntry (blockNum lsn : Nat) : LogIndexLsn :=
  ⟨⟨⟨1663, 1, 16384⟩, 0, blockNum⟩, lsn, invalidXLogRecPtr⟩

/-- Two pages of one bucket, the first with a segment behind its head. -/
theorem tblOk_twoPages : ∃ s' : Snapshot smallConfig,
    exec insertLsn (newActive (initSys smallConfig).snap 0 1)
      [pageEntry 7 1, pageEntry 2055 2, pageEntry 7 3, pageEntry 7 4] = some s' ∧
    TblOk smallConfig.hashPage (s'.memTable s'.activeTable).data
      [pageEntry 7 1, pageEntry 2055 2, pageEntry 7 3, pageEntry 7 4] := by
  have hrun : (exec insertLsn (newActive (initSys smallConfig).snap 0 1)
      [pageEntry 7 1, pageEntry 2055 2, pageEntry 7 3, pageEntry 7 4]).isSome = true := by
    decide +kernel
  obtain ⟨s', hs⟩ := Option.isSome_iff_exists.mp hrun
  exact ⟨s', hs, exec_insertLsn_tblOk rfl hs⟩

end PolarDB.LogIndex
