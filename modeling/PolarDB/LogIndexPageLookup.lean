import PolarDB.LogIndexPageStack
import PolarDB.LogIndexRingSafety

/-!
# The page lookup is exact

From one cell to one table to all tables. `pushTblLsn` searches one table
(`TblRep.pushTblLsn`); the two loops of
`polar_logindex_create_page_iterator` search the tables in the ring and
on storage from the newest to the oldest. After the tables above `tid`
the stack holds what was asked for from them, and if the search has
stopped, nothing below is asked for (`Searched`).
-/

namespace PolarDB.LogIndex

open Function List

/-! ## One table -/

section TblRep

variable {key : BufferTag → Nat} {t : LogIdxTableData} {free : Nat}
  {es : List LogIndexLsn} {lay : Layout} {tag : BufferTag} {iter : PageIter}

structure Searching (iter : PageIter) : Prop where
  state : iter.state = .forward
  nonempty : iter.lsnStack ≠ []
  wf : StackWf iter.lsnStack
  range : iter.minLsn ≤ iter.iterMaxLsn

theorem Scanned.searching {iter' : PageIter} {ls : List Nat} (h : Scanned iter iter' ls)
    (hi : Searching iter) (hst : iter'.state = .forward) : Searching iter' :=
  ⟨hst, h.nonempty, h.wf, by rw [h.minLsn, h.iterMaxLsn]; exact hi.range⟩

theorem TblRep.pageIteratePushLsn (h : TblRep key t free es lay)
    (hs : (tagLsns tag es).Pairwise (· < ·)) {j c : Nat} (hc : (lay.cells tag)[j]? = some c)
    (hi : Searching iter) :
    ∃ iter', pageIteratePushLsn iter t c true = some (iter', true) ∧
      Scanned iter iter' (cellContent j (tagLsns tag es)) := by
  have hlen : (t.segment c).suffixLsn.length = (cellContent j (tagLsns tag es)).length := by
    rw [((h.item tag).suffixLsn hc).2, length_map]
  rw [LogIndex.pageIteratePushLsn, hlen]
  refine pageIteratePushLsnLoop_scanned _ ?_ (fun idx l hl => ?_) hi.state hi.nonempty hi.wf
    hi.range
  · exact List.Pairwise.sublist ((take_sublist ..).trans (drop_sublist ..)) hs
  · have hidx : idx < cellSize j := by
      have := lt_of_getElem? hl
      rw [cellContent, length_take] at this
      omega
    rw [cellContent_getElem? _ hidx] at hl
    exact (h.combineLsn_cell hc hidx hl).2

theorem segLsns_succ {l : List Nat} {j : Nat} (hj : cellStart (j + 1) ≤ l.length) :
    (l.take (cellStart (j + 2))).drop (cellStart 1) =
      (l.take (cellStart (j + 1))).drop (cellStart 1) ++ cellContent (j + 1) l := by
  have hle : cellStart 1 ≤ cellStart (j + 1) := cellStart_mono (Nat.le_add_left 1 j)
  rw [cellStart_succ (j + 1), take_add, drop_append_of_le_length, cellContent]
  rw [length_take]
  omega

theorem TblRep.iterateSegs (h : TblRep key t free es lay) (hs : (tagLsns tag es).Pairwise (· < ·)) :
    ∀ {j fuel : Nat} {iter : PageIter}, j < (lay.cells tag).length → j < fuel → Searching iter →
    ∃ id iter', iterateSegs t (lay.head tag) fuel ((lay.cells tag).getD j tblInvalidSeg) iter true =
        some (id, iter', true) ∧ (iter'.state = .forward → id = lay.head tag) ∧
      Scanned iter iter' (((tagLsns tag es).take (cellStart (j + 1))).drop (cellStart 1))
  | 0, fuel + 1, iter, _, _, hi => by
    refine ⟨lay.head tag, iter, if_pos rfl, fun _ => rfl, ?_⟩
    rw [drop_take_self]
    exact scanned_nil hi.state hi.nonempty hi.wf
  | j + 1, fuel + 1, iter, hj, hf, hi => by
    have hlt := (h.item tag).cellStart_le hj
    have hc := getElem?_getD hj
    have hne : (lay.cells tag).getD (j + 1) tblInvalidSeg ≠ lay.head tag :=
      (h.cellsOk tag).getD_ne hj (by omega) (Nat.succ_ne_zero j)
    have hlsns := segLsns_succ hlt.le
    obtain ⟨iter1, hpush, hscan1⟩ := h.pageIteratePushLsn hs hc hi
    have hcell : (segCell (lay.cells tag) (tagLsns tag es) j).suffixLsn.length ≠ 0 := by
      rw [segCell, length_map, cellContent, length_take, length_drop]
      have := cellSize_pos (j + 1)
      omega
    rw [LogIndex.iterateSegs, if_neg hne, (h.item tag).itemSeg_eq (h.cellsOk tag) hj]
    simp only [if_neg hcell, hpush]
    by_cases hst : iter1.state = .forward
    · obtain ⟨id, iter2, hrun, hid, hscan2⟩ :=
        TblRep.iterateSegs h hs (j := j) (show j < (lay.cells tag).length by omega)
          (show j < fuel by omega) (hscan1.searching hi hst)
      rw [if_pos hst]
      refine ⟨id, iter2, hrun, hid, ?_⟩
      rw [hlsns]
      exact hscan1.append hst hscan2
    · rw [if_neg hst]
      refine ⟨_, iter1, rfl, fun hf => absurd hf hst, ?_⟩
      have hfin : iter1.state = .finished := by
        rcases hscan1.state with ⟨hf, -⟩ | ⟨hf, -⟩
        · exact absurd hf hst
        · exact hf
      rw [hlsns]
      refine hscan1.stop hfin ?_
      have hpw : (((tagLsns tag es).take (cellStart (j + 2))).drop (cellStart 1)).Pairwise
          (· < ·) := List.Pairwise.sublist ((drop_sublist ..).trans (take_sublist ..)) hs
      rw [hlsns] at hpw
      exact (pairwise_append.mp hpw).2.2

theorem TblRep.length_cells_lt (h : TblRep key t free es lay) (tag : BufferTag) :
    (lay.cells tag).length < free + 1 := by
  have hsub : lay.cells tag ⊆ range free := fun c hc =>
    mem_range.mpr (h.bound hc).2
  have := (subperm_of_subset (h.cellsOk tag).nodup hsub).length_le
  rw [length_range] at this
  omega

theorem TblRep.iterateTableData (h : TblRep key t free es lay)
    (hs : (tagLsns tag es).Pairwise (· < ·)) (hne : tagLsns tag es ≠ [])
    (hprev : firstPrev tag es = invalidXLogRecPtr) (hst : iter.state = .forward)
    (hwf : StackWf iter.lsnStack) (hrange : iter.minLsn ≤ iter.iterMaxLsn)
    (hnone : iter.iterPrevLsn = invalidXLogRecPtr) :
    ∃ iter', iterateTableData iter t (lay.item tag es) = some iter' ∧
      Scanned { iter with lsnStack := ⟨invalidXLogRecPtr, []⟩ :: iter.lsnStack } iter'
        (tagLsns tag es) := by
  have hpos := h.cells_pos hne
  have hlpos := length_pos_iff.mpr hne
  have hnum : (lay.cells tag).length ≤ memTblSegNum := by
    have h1 := h.length_cells_lt tag
    have h2 := h.free_le
    omega
  have hlen : ¬(lay.item tag es).suffixLsn.length = 0 := by
    rw [Layout.item, headCell, length_map, cellContent, length_take, length_drop]
    simp only [cellStart, cellSize, itemHeadLsnNum]
    omega
  have hi : Searching { iter with lsnStack := ⟨invalidXLogRecPtr, []⟩ :: iter.lsnStack } := by
    exact ⟨hst, cons_ne_nil _ _, forall_mem_cons.mpr ⟨⟨rfl, by simp⟩, hwf⟩, hrange⟩
  obtain ⟨id, iter1, hrun, hid, hscan1⟩ :=
    h.iterateSegs hs (j := (lay.cells tag).length - 1) (by omega)
      (show (lay.cells tag).length - 1 < memTblSegNum by omega) hi
  rw [Nat.sub_add_cancel hpos, take_of_length_le (h.item tag).length_le] at hscan1
  have hsplit : tagLsns tag es = cellContent 0 (tagLsns tag es) ++
      (tagLsns tag es).drop (cellStart 1) := (take_append_drop ..).symm
  rw [LogIndex.iterateTableData, if_neg hlen]
  simp only [decide_eq_true hnone]
  have hrun' : LogIndex.iterateSegs t (lay.item tag es).headSeg memTblSegNum
      (lay.item tag es).tailSeg { iter with
        lsnStack := ⟨(lay.item tag es).prevPageLsn, []⟩ :: iter.lsnStack } true =
          some (id, iter1, true) := by
    rwa [Layout.item, hprev]
  rw [hrun']
  simp only
  rcases hscan1.state with ⟨hf, -⟩ | ⟨hf, -⟩
  · rw [if_pos hf, hid hf]
    obtain ⟨iter2, hpush, hscan2⟩ :=
      h.pageIteratePushLsn hs (getElem?_getD hpos) (hscan1.searching hi hf)
    refine ⟨iter2, by rw [Layout.head, hpush]; rfl, ?_⟩
    have := hscan1.append hf hscan2
    rwa [← hsplit] at this
  · rw [if_neg (by rw [hf]; decide)]
    refine ⟨iter1, rfl, ?_⟩
    have hpw := hs
    rw [hsplit] at hpw
    have := hscan1.stop hf (pairwise_append.mp hpw).2.2
    rwa [← hsplit] at this

structure Ready (iter : PageIter) : Prop where
  state : iter.state = .forward
  wf : StackWf iter.lsnStack
  range : iter.minLsn ≤ iter.iterMaxLsn
  prev : iter.iterPrevLsn = invalidXLogRecPtr

/-- `iter'` is `iter` after a table with the LSNs `ls` of the page was
searched. `iter_max_lsn` moves to the end of a table only if an LSN of it
is not above `max_lsn`, so it excludes nothing from older tables that
`max_lsn` does not. -/
structure Pushed (iter iter' : PageIter) (ls : List Nat) : Prop where
  same : iter' = { iter with
    lsnStack := iter'.lsnStack, state := iter'.state, iterMaxLsn := iter'.iterMaxLsn }
  wf : StackWf iter'.lsnStack
  range : iter'.minLsn ≤ iter'.iterMaxLsn
  lsns : stackLsns iter'.lsnStack =
    ls.filter (inLsnRange iter.minLsn iter.maxLsn) ++ stackLsns iter.lsnStack
  state : iter'.state = .forward ∨ (iter'.state = .finished ∧ ∃ l ∈ ls, l ≤ iter.minLsn)
  max : iter'.iterMaxLsn = iter.iterMaxLsn ∨
    ∃ l ∈ ls, l ≤ iter.maxLsn ∧ l ≤ iter'.iterMaxLsn

theorem filter_inLsnRange_eq_nil {ls : List Nat} {a b : Nat} (h : ∀ l ∈ ls, l < a ∨ b < l) :
    ls.filter (inLsnRange a b) = [] := by
  refine filter_eq_nil_iff.mpr fun l hl => ?_
  have := h l hl
  simp only [inLsnRange, Bool.and_eq_true, decide_eq_true_eq]
  omega

theorem Ready.skip (hi : Ready iter) {ls : List Nat}
    (hout : ∀ l ∈ ls, l < iter.minLsn ∨ iter.maxLsn < l) : Pushed iter iter ls :=
  ⟨rfl, hi.wf, hi.range, by rw [filter_inLsnRange_eq_nil hout]; rfl, .inl hi.state, .inl rfl⟩

theorem StackWf.setPrevLsn (hwf : StackWf iter.lsnStack) : iter.setPrevLsn = iter := by
  unfold PageIter.setPrevLsn
  split
  · rfl
  · rename_i tbl rest htop
    rw [htop] at hwf
    rw [if_neg (not_not.mpr (hwf tbl mem_cons_self).1)]

theorem TblRep.pushTblLsn (h : TblRep key t free es lay) (hi : Ready iter)
    (hkey : iter.key = key iter.tag) (hs : (tagLsns iter.tag es).Pairwise (· < ·))
    (hprev : ∀ e ∈ es, e.prevLsn = invalidXLogRecPtr)
    (hbound : ∀ l ∈ tagLsns iter.tag es, l ≤ iter.iterMaxLsn ↔ l ≤ iter.maxLsn) :
    ∃ iter', pushTblLsn iter t = some iter' ∧ Pushed iter iter' (tagLsns iter.tag es) := by
  have hfind := h.tblFind iter.tag
  rw [← hkey] at hfind
  rw [LogIndex.pushTblLsn, hfind]
  by_cases hnil : tagLsns iter.tag es = []
  · rw [if_pos hnil, hnil]
    exact ⟨iter, rfl, hi.skip (by simp)⟩
  · rw [if_neg hnil]
    have hle : (tagLsns iter.tag es).Pairwise (· ≤ ·) := hs.imp Nat.le_of_lt
    have hmin := h.itemMinLsn hnil
    have hmax := h.itemMaxLsn hnil
    have hfirst : firstPrev iter.tag es = invalidXLogRecPtr := by
      rw [firstPrev]
      cases hf : es.find? fun e => e.tag = iter.tag with
      | none => rfl
      | some e => exact hprev e (mem_of_find?_eq_some hf)
    simp only [hi.wf.setPrevLsn, hmin, hmax]
    split
    · next habove =>
      exact ⟨iter, rfl, hi.skip fun l hl => .inr (habove.trans_le (headD_le hle hl))⟩
    · next habove =>
      split
      · next hbelow =>
        have hlow : ∀ l ∈ tagLsns iter.tag es, l < iter.minLsn := fun l hl =>
          (le_getLastD hle hl).trans_lt hbelow
        refine ⟨_, rfl, rfl, hi.wf, hi.range, ?_, .inr ⟨rfl, _, getLastD_mem hnil,
          hbelow.le⟩, .inl rfl⟩
        rw [filter_inLsnRange_eq_nil fun l hl => .inl (hlow l hl)]
        rfl
      · next hbelow =>
        obtain ⟨iter', hrun, hscan⟩ :=
          h.iterateTableData hs hnil hfirst hi.state hi.wf hi.range hi.prev
        rw [hrun]
        refine ⟨_, rfl, ?_, hscan.wf, ?_, ?_, ?_, .inr ⟨_, headD_mem hnil, ?_, ?_⟩⟩
        · rw [hscan.same]
        · rw [hscan.minLsn]
          show iter.minLsn ≤ (tagLsns iter.tag es).getLastD 0 + 1
          omega
        · rw [hscan.lsns]
          congr 1
          refine filter_congr fun l hl => ?_
          simp only [inLsnRange, hbound l hl]
        · rcases hscan.state with ⟨hf, -⟩ | hf
          · exact .inl hf
          · exact .inr hf
        · omega
        · show (tagLsns iter.tag es).headD 0 ≤ (tagLsns iter.tag es).getLastD 0 + 1
          have := le_getLastD hle (headD_mem hnil)
          omega

end TblRep

/-! ## All tables -/

section Tables

variable {h : Tables} {tag : BufferTag}

/-- The entries of a page: LSNs increase, and no entry names a previous
LSN. -/
structure PageOk (h : Tables) (tag : BufferTag) : Prop where
  strict : (tagLsns tag h.flatten).Pairwise (· < ·)
  prev : ∀ e ∈ h.flatten, e.prevLsn = invalidXLogRecPtr

theorem PageOk.table_strict (hp : PageOk h tag) (t : Nat) :
    (tagLsns tag (tableEntries h t)).Pairwise (· < ·) :=
  List.Pairwise.sublist (((tableEntries_sublist h t).filter _).map _) hp.strict

theorem PageOk.older_lt (hp : PageOk h tag) {n l l' : Nat}
    (hl : l ∈ tagLsns tag (h.take n).flatten) (hl' : l' ∈ tagLsns tag (tableEntries h (n + 1))) :
    l < l' := by
  have hsub : (tagLsns tag (h.take n).flatten ++ tagLsns tag (tableEntries h (n + 1))).Pairwise
      (· < ·) := by
    rw [← tagLsns_append, ← take_succ_flatten]
    have htake : (h.take (n + 1)).flatten.Sublist h.flatten := by
      conv_rhs => rw [← take_append_drop (n + 1) h, flatten_append]
      exact sublist_append_left ..
    exact List.Pairwise.sublist ((htake.filter _).map _) hp.strict
  exact (pairwise_append.mp hsub).2.2 l hl l' hl'

end Tables

/-- The tables above `tid` are searched. `q` is the iterator before the
search. -/
structure Searched (q : PageIter) (h : Tables) (tid : Nat) (iter : PageIter) : Prop where
  same : iter = { q with
    lsnStack := iter.lsnStack, state := iter.state, iterMaxLsn := iter.iterMaxLsn }
  wf : StackWf iter.lsnStack
  range : iter.minLsn ≤ iter.iterMaxLsn
  lsns : stackLsns iter.lsnStack =
    (tagLsns q.tag (h.drop tid).flatten).filter (inLsnRange q.minLsn q.maxLsn)
  bound : ∀ l ∈ tagLsns q.tag (h.take tid).flatten, l ≤ iter.iterMaxLsn ↔ l ≤ q.maxLsn
  state : iter.state = .forward ∨
    (iter.state = .finished ∧ ∀ l ∈ tagLsns q.tag (h.take tid).flatten, l < q.minLsn)

section Searched

variable {cfg : Config} {s : Snapshot cfg} {h : Tables} {q iter iter' : PageIter} {tid : Nat}

section

variable (hs : Searched q h tid iter)
include hs

theorem Searched.ready (hf : iter.state = .forward)
    (hq : q.iterPrevLsn = invalidXLogRecPtr) : Ready iter :=
  ⟨hf, hs.wf, hs.range, by rw [hs.same]; exact hq⟩

theorem Searched.tag : iter.tag = q.tag := by rw [hs.same]

theorem Searched.minLsn : iter.minLsn = q.minLsn := by rw [hs.same]

theorem Searched.maxLsn : iter.maxLsn = q.maxLsn := by rw [hs.same]

end

theorem Searched.step (hs : Searched q h (tid + 1) iter) (hp : PageOk h q.tag)
    (hpush : Pushed iter iter' (tagLsns q.tag (tableEntries h (tid + 1)))) :
    Searched q h tid iter' := by
  have hsub : ∀ l ∈ tagLsns q.tag (h.take tid).flatten,
      l ∈ tagLsns q.tag (h.take (tid + 1)).flatten := by
    intro l hl
    rw [take_succ_flatten, tagLsns_append]
    exact mem_append_left _ hl
  refine ⟨?_, hpush.wf, hpush.range, ?_, fun l hl => ?_, ?_⟩
  · rw [hpush.same, hs.same]
  · rw [hpush.lsns, hs.lsns, hs.minLsn, hs.maxLsn, drop_flatten h tid, tagLsns_append,
      filter_append]
  · rcases hpush.max with heq | ⟨l', hl', hle, hle'⟩
    · rw [heq]
      exact hs.bound l (hsub l hl)
    · have hlt := hp.older_lt hl hl'
      rw [hs.maxLsn] at hle
      constructor <;> intro _ <;> omega
  · rcases hpush.state with hf | ⟨hf, l', hl', hle⟩
    · exact .inl hf
    · rw [hs.minLsn] at hle
      exact .inr ⟨hf, fun l hl => (hp.older_lt hl hl').trans_le hle⟩

theorem Searched.finish (hs : Searched q h (tid + 1) iter)
    (hlow : ∀ l ∈ tagLsns q.tag (h.take (tid + 1)).flatten, l < q.minLsn) :
    Searched q h tid { iter with state := .finished } := by
  rw [take_succ_flatten, tagLsns_append] at hlow
  refine ⟨?_, hs.wf, hs.range, ?_, fun l hl => ?_, .inr ⟨rfl, fun l hl => ?_⟩⟩
  · rw [hs.same]
  · rw [drop_flatten, tagLsns_append, filter_append,
      filter_inLsnRange_eq_nil fun l hl => .inl (hlow l (mem_append_right _ hl))]
    exact hs.lsns
  · refine hs.bound l ?_
    rw [take_succ_flatten, tagLsns_append]
    exact mem_append_left _ hl
  · exact hlow l (mem_append_left _ hl)

theorem RingInv.below_of_max (hi : RingInv s h) (hnum : tid + 1 ≤ tableNum h) {x : Nat}
    (hlow : entriesMaxLsn (tableEntries h (tid + 1)) < x) (tag : BufferTag) :
    ∀ l ∈ tagLsns tag (h.take (tid + 1)).flatten, l < x := by
  intro l hl
  obtain ⟨e, he, -, rfl⟩ := mem_tagLsns.mp hl
  exact (hi.lsn_le_table hnum e he).trans_lt hlow

/-- The bloom data of a table speaks for its entries. -/
theorem Searched.checkBloom (hs : Searched q h (tid + 1) iter) (hi : RingInv s h)
    (hf : iter.state = .forward) (hp : PageOk h q.tag) (hq : q.iterPrevLsn = invalidXLogRecPtr)
    (hmin : s.minTid ≤ tid + 1) (hle : tid + 1 ≤ s.saved) :
    ∃ iter1 notExists, checkBloomNotExists s iter (tid + 1) = some (iter1, notExists) ∧
      ((notExists = false ∧ iter1 = iter) ∨
        (iter1.state = .forward → notExists = true) ∧ Searched q h tid iter1) := by
  obtain ⟨b, hb, hrep⟩ := hi.bloomed (tid + 1) (Nat.succ_pos _) hmin hle
  rw [checkBloomNotExists, hb]
  simp only [hrep.tid, ne_eq]
  by_cases hbelow : b.maxLsn < iter.minLsn
  · rw [if_pos hbelow]
    refine ⟨_, _, rfl, .inr ⟨fun hf => IterState.noConfusion hf,
      hs.finish (hi.below_of_max ?_ ?_ q.tag)⟩⟩
    · exact hle.trans hi.saved_le
    · rwa [← hrep.max_eq, ← hs.minLsn]
  · rw [if_neg hbelow]
    cases hlack : cfg.bloom.lacksElement b.bloomBytes iter.tag with
    | false => exact ⟨_, _, rfl, .inl ⟨rfl, rfl⟩⟩
    | true =>
      refine ⟨_, _, rfl, .inr ⟨fun _ => rfl, hs.step hp ((hs.ready hf hq).skip fun l hl => ?_)⟩⟩
      obtain ⟨e, he, htag, -⟩ := mem_tagLsns.mp hl
      have := hrep.no_lack e he
      rw [htag, ← hs.tag, hlack] at this
      cases this

section

variable (hp : PageOk h q.tag) (hq : q.iterPrevLsn = invalidXLogRecPtr)
  (hkey : q.key = cfg.hashPage q.tag)
include hp hq hkey

theorem Searched.pushTbl (hs : Searched q h (tid + 1) iter) (hf : iter.state = .forward)
    {d : LogIdxTableData} (hd : DataRep cfg d (tid + 1) (tableEntries h (tid + 1))) :
    ∃ iter', pushTblLsn iter d = some iter' ∧ Searched q h tid iter' := by
  obtain ⟨-, free, lay, hr⟩ := hd
  have htag := hs.tag
  have hkey' : iter.key = cfg.hashPage iter.tag := by rw [hs.same]; exact hkey
  obtain ⟨iter', hrun, hpush⟩ := hr.pushTblLsn (hs.ready hf hq) hkey'
    (by rw [htag]; exact hp.table_strict _)
    (fun e he => hp.prev e ((tableEntries_sublist h _).subset he))
    (fun l hl => by
      rw [htag] at hl
      rw [hs.maxLsn]
      refine hs.bound l ?_
      rw [take_succ_flatten, tagLsns_append]
      exact mem_append_right _ hl)
  rw [htag] at hpush
  exact ⟨iter', hrun, hs.step hp hpush⟩

/-- The loop over the tables in the ring. It ends at a saved table or
when the search is over. -/
theorem RingInv.pushMemTblLoop (hi : RingInv s h) :
    ∀ {tid mid : Nat} {iter : PageIter}, tid ≤ s.maxIdxTableId → (0 < tid → mid = cfg.slotOf tid) →
    Searched q h tid iter → iter.state = .forward →
    ∃ tid' iter', pushMemTblLoop s tid mid iter = some (tid', iter') ∧ Searched q h tid' iter' ∧
      (iter'.state = .forward → tid' ≤ s.saved)
  | 0, mid, iter, _, _, hs, _ => ⟨0, iter, rfl, hs, fun _ => Nat.zero_le _⟩
  | tid + 1, mid, iter, hle, hmid, hs, hf => by
    obtain rfl := hmid (Nat.succ_pos _)
    rw [LogIndex.pushMemTblLoop]
    simp only
    split
    · next hin =>
      have hd := hi.slot_data hin.2
      rw [← hin.1] at hd
      have hgoon : ∀ iter1, Searched q h tid iter1 →
          ∃ tid' iter', (if iter1.state = .forward then LogIndex.pushMemTblLoop s tid
              (loopPrevValue (cfg.slotOf (tid + 1)) cfg.memTblSize) iter1
            else some (tid, iter1)) = some (tid', iter') ∧ Searched q h tid' iter' ∧
            (iter'.state = .forward → tid' ≤ s.saved) := by
        intro iter1 hs1
        split
        · next hf1 =>
          exact RingInv.pushMemTblLoop hi (by omega) slotOf_pred hs1 hf1
        · next hf1 =>
          exact ⟨tid, iter1, rfl, hs1, fun hf => absurd hf hf1⟩
      have hskip : (∀ l ∈ tagLsns q.tag (tableEntries h (tid + 1)), q.maxLsn < l) →
          Searched q h tid iter := fun hout =>
        hs.step hp ((hs.ready hf hq).skip fun l hl => .inr (by rw [hs.maxLsn]; exact hout l hl))
      have hmin : ∀ l ∈ tagLsns q.tag (tableEntries h (tid + 1)),
          (s.memTable (cfg.slotOf (tid + 1))).data.minLsn ≤ l := by
        obtain ⟨-, free, lay, hr⟩ := hd
        rw [hr.min_eq]
        intro l hl
        obtain ⟨e, he, -, rfl⟩ := mem_tagLsns.mp hl
        exact ((le_entriesMinLsn_iff _ _).mp le_rfl).2 e he
      rw [tableInRange]
      by_cases hact : (s.memTable (cfg.slotOf (tid + 1))).state = .active
      · simp only [if_pos hact, if_true]
        obtain ⟨iter1, hrun, hs1⟩ := hs.pushTbl hp hq hkey hf hd
        rw [hrun]
        exact hgoon iter1 hs1
      · simp only [if_neg hact]
        by_cases habove : iter.maxLsn < (s.memTable (cfg.slotOf (tid + 1))).data.minLsn
        · simp only [if_pos habove, Bool.false_eq_true, if_false]
          rw [hs.maxLsn] at habove
          exact hgoon iter (hskip fun l hl => habove.trans_le (hmin l hl))
        · simp only [if_neg habove]
          by_cases hbelow : (s.memTable (cfg.slotOf (tid + 1))).data.maxLsn < iter.minLsn
          · simp only [if_pos hbelow, Bool.false_eq_true, if_false]
            refine hgoon _ (hs.finish (hi.below_of_max (hi.le_tableNum hle hact) ?_ q.tag))
            obtain ⟨-, free, lay, hr⟩ := hd
            rwa [← hr.max_eq, ← hs.minLsn]
          · simp only [if_neg hbelow, if_true]
            obtain ⟨iter1, hrun, hs1⟩ := hs.pushTbl hp hq hkey hf hd
            rw [hrun]
            exact hgoon iter1 hs1
    · next hin =>
      exact ⟨tid + 1, iter, rfl, hs, fun _ => not_lt.mp fun hgt => hin (hi.in_slot hgt hle)⟩

/-- The loop over the tables on storage: it ends when the search is over
or no table of a kept segment is left, and what it does to the shared
state is a run of `log_index_read_table` calls. -/
theorem RingInv.pushFileTblLoop (locks : Nat → TableLocks) (x : Sys cfg) (proc : Nat)
    {minTid saved : Nat} :
    ∀ {tid : Nat} {iter : PageIter} {s : Snapshot cfg} {c : TableCache}, RingInv s h →
    CacheOk cfg c saved h → s.saved = saved →
    s.minTid = minTid → tid ≤ saved → Searched q h tid iter →
    ∃ iter' s' c' tid' bs, pushFileTblLoop minTid locks tid iter s c = some (iter', s', c') ∧
      Searched q h tid' iter' ∧ (iter'.state = .finished ∨ tid' = 0 ∨ tid' < minTid) ∧
      addCalls bs = [] ∧
      exec LogIndex.step { x with snap := s, caches := update x.caches proc c } bs =
        some { x with snap := s', caches := update x.caches proc c' }
  | 0, iter, s, c, _, _, _, _, _, hs => ⟨iter, s, c, 0, [], rfl, hs, .inr (.inl rfl), rfl, rfl⟩
  | tid + 1, iter, s, c, hi, hc, hsaved, hmin, hle, hs => by
    rw [LogIndex.pushFileTblLoop]
    split
    · next hguard =>
      obtain ⟨hge, hf⟩ := hguard
      simp only
      split
      · rename_i hhit
        simp only [Bool.and_eq_true, decide_eq_true_eq] at hhit
        have hd := hi.slot_data (m := cfg.slotOf (tid + 1)) (by rw [hhit.1.2]; decide)
        rw [← hhit.2] at hd
        obtain ⟨iter1, hrun, hs1⟩ := hs.pushTbl hp hq hkey hf hd
        rw [hrun]
        exact RingInv.pushFileTblLoop locks x proc hi hc hsaved hmin (by omega) hs1
      · obtain ⟨iter1, notExists, hbloom, hcase⟩ := hs.checkBloom hi hf hp hq
          (hmin.trans_le hge) (by rw [hsaved]; exact hle)
        rw [hbloom]
        simp only
        rcases hcase with ⟨rfl, rfl⟩ | ⟨hno, hs1⟩
        · rw [if_pos (by rw [hf]; rfl)]
          obtain ⟨d, s1, c1, hread, hd, hi1, heff, hc1⟩ :=
            hi.read (hsaved ▸ hc) (Nat.succ_pos tid) (hmin.trans_le hge)
              (by rw [hsaved]; exact hle) (locks (tid + 1)).shared (locks (tid + 1)).exclusive
          obtain ⟨iter2, hrun, hs2⟩ := hs.pushTbl hp hq hkey hf hd
          rw [hread]
          simp only [hrun]
          have hsaved1 : s1.saved = saved := heff.saved.trans hsaved
          have hmin1 : s1.minTid = minTid := heff.minTid.trans hmin
          obtain ⟨iter', s', c', tid', bs, hloop, hs', hend, hcalls, hexec⟩ :=
            RingInv.pushFileTblLoop locks x proc hi1 (hsaved ▸ hc1) hsaved1 hmin1
              (by omega) hs2
          refine ⟨iter', s', c', tid', .readTable proc (tid + 1) (locks (tid + 1)).shared
            (locks (tid + 1)).exclusive :: bs, hloop, hs', hend, hcalls, ?_⟩
          have hstep : LogIndex.step
              { x with snap := s, caches := update x.caches proc c }
              (.readTable proc (tid + 1) (locks (tid + 1)).shared (locks (tid + 1)).exclusive) =
              some { x with snap := s1, caches := update x.caches proc c1 } := by
            simp only [LogIndex.step, update_self, hread]
            rw [if_pos ⟨Nat.succ_pos tid, hmin.trans_le hge⟩]
            simp only [Option.map_some, update_idem]
          rwa [exec, hstep]
        · rw [if_neg]
          · exact RingInv.pushFileTblLoop locks x proc hi hc hsaved hmin (by omega) hs1
          · intro hgo
            simp only [Bool.and_eq_true, Bool.not_eq_true', decide_eq_true_eq] at hgo
            rw [hno hgo.2] at hgo
            cases hgo.1
    · next hguard =>
      refine ⟨iter, s, c, tid + 1, [], rfl, hs, ?_, rfl, rfl⟩
      by_cases hge : minTid ≤ tid + 1
      · exact .inl (hs.state.resolve_left fun hf => hguard ⟨hge, hf⟩).1
      · exact .inr (.inr (by omega))

end

end Searched

/-! ## The whole lookup -/

section Lookup

variable {cfg : Config} {x : Sys cfg} {h : Tables} {r : Prop} {tag : BufferTag}

theorem Searched.complete {q iter : PageIter} {tid : Nat} (hs : Searched q h tid iter)
    (hend : iter.state = .finished ∨ tid = 0) :
    stackLsns iter.lsnStack = (tagLsns q.tag h.flatten).filter (inLsnRange q.minLsn q.maxLsn) := by
  have hlow : ∀ l ∈ tagLsns q.tag (h.take tid).flatten, l < q.minLsn := by
    rcases hend with hf | rfl
    · rcases hs.state with hf' | ⟨-, hlow⟩
      · rw [hf] at hf'
        cases hf'
      · exact hlow
    · simp [tagLsns]
  have hsplit : h.flatten = (h.take tid).flatten ++ (h.drop tid).flatten := by
    rw [← flatten_append, take_append_drop]
  rw [hs.lsns, hsplit, tagLsns_append, filter_append,
    filter_inLsnRange_eq_nil fun l hl => .inl (hlow l hl), nil_append]

/-- `polar_logindex_create_page_iterator` finds what is asked for, and no
more. -/
theorem SysInv.createPageIterator (hx : SysInv r x h) (hp : PageOk h tag) {minLsn maxLsn : Nat}
    (hlt : minLsn < maxLsn) (hseg : x.snap.logMeta.minSegmentInfo.segmentNo = 0)
    (locks : Nat → TableLocks) (proc : Nat) :
    ∃ iter s' c' bs, createPageIterator x.snap (x.caches proc) locks tag minLsn maxLsn =
        some (iter, s', c') ∧ iter.tag = tag ∧ StackWf iter.lsnStack ∧
      stackLsns iter.lsnStack = (tagLsns tag h.flatten).filter (inLsnRange minLsn maxLsn) ∧
      addCalls bs = [] ∧ exec LogIndex.step x bs =
        some { x with snap := s', caches := update x.caches proc c' } := by
  let q : PageIter :=
    { tag := tag, minLsn := minLsn, maxLsn := maxLsn, iterPrevLsn := invalidXLogRecPtr,
      iterMaxLsn := maxLsn, maxIdxTableId := x.snap.maxIdxTableId, lsnStack := [],
      key := cfg.hashPage tag, state := .forward }
  have hq : Searched q h x.snap.maxIdxTableId q := by
    refine ⟨rfl, by simp [StackWf, q], hlt.le, ?_, fun _ _ => Iff.rfl, .inl rfl⟩
    rw [drop_of_length_le hx.ring.num_le]
    rfl
  obtain ⟨tid, iter1, hmem, hs1, hsaved⟩ := hx.ring.pushMemTblLoop hp rfl rfl le_rfl
    (fun _ => (rfl : cfg.slotOf x.snap.maxIdxTableId = _)) hq rfl
  have hself : { x with caches := update x.caches proc (x.caches proc) } = x := by
    rw [update_eq_self]
  rw [LogIndex.createPageIterator, pushMemTblLsn, hmem]
  simp only
  split
  · next hz =>
    rw [if_neg (show ¬IterState.finished = .forward by decide)]
    refine ⟨_, _, _, [], rfl, hs1.tag, hs1.wf, hs1.complete (.inr hz), rfl, ?_⟩
    rw [hself]
    rfl
  · next hz =>
    split
    · next hf =>
      rw [pushFileTblLsn, if_neg (not_lt.mpr (hsaved hf))]
      obtain ⟨iter2, s', c', tid', bs, hfile, hs2, hend, hcalls, hexec⟩ :=
        RingInv.pushFileTblLoop hp rfl rfl locks x proc hx.ring (hx.caches proc) rfl rfl (hsaved hf)
          hs1
      rw [hfile]
      refine ⟨_, s', c', bs, rfl, hs2.tag, hs2.wf, hs2.complete ?_, hcalls, ?_⟩
      · have hmin := hx.ring.minTid_le hseg
        rcases hend with hfin | hend
        · exact .inl hfin
        · exact .inr (by omega)
      · rwa [hself] at hexec
    · next hf =>
      refine ⟨_, _, _, [], rfl, hs1.tag, hs1.wf, hs1.complete (.inl ?_), rfl, ?_⟩
      · exact (hs1.state.resolve_left hf).1
      · rw [hself]
        rfl

theorem filter_tagLsns (es : List LogIndexLsn) (tag : BufferTag) (minLsn maxLsn : Nat) :
    (tagLsns tag es).filter (inLsnRange minLsn maxLsn) =
      (es.filter fun e => e.tag = tag ∧ minLsn ≤ e.lsn ∧ e.lsn ≤ maxLsn).map (·.lsn) := by
  rw [tagLsns, filter_map, filter_filter]
  congr 2
  funext e
  simp [inLsnRange, Bool.and_comm]

/-- The page lookup is exact. In every state of a run, whatever the lock
attempts give, an iterator for `[minLsn, maxLsn]` can be created and then
returns the LSNs added for the page that lie there, in ascending order,
each once. Creating it reads tables and does nothing else to the shared
state. -/
theorem pageIterator_exact {as : List Action} (hok : CallsOk (addCalls as))
    (hstrict : ∀ tag, (tagLsns tag (addCalls as)).Pairwise (· < ·))
    (hprev : ∀ e ∈ addCalls as, e.prevLsn = invalidXLogRecPtr)
    (hrun : exec step (initSys cfg) as = some x) (tag : BufferTag) {minLsn maxLsn : Nat}
    (hlt : minLsn < maxLsn) (locks : Nat → TableLocks) (proc : Nat) :
    ∃ iter s' c' bs es, createPageIterator x.snap (x.caches proc) locks tag minLsn maxLsn =
        some (iter, s', c') ∧ addCalls bs = [] ∧
      exec step x bs = some { x with snap := s', caches := update x.caches proc c' } ∧
      iter.Returns es ∧ (∀ e ∈ es, e.tag = tag) ∧
      es.map (·.lsn) = ((addedEntries as x).filter fun e =>
        e.tag = tag ∧ minLsn ≤ e.lsn ∧ e.lsn ≤ maxLsn).map (·.lsn) ∧
      (es.map (·.lsn)).Pairwise (· < ·) := by
  obtain ⟨added, hf⟩ := exists_freshRun hok hrun
  have hsub : added.Sublist (addCalls as) := by
    rw [hf.calls]
    exact sublist_append_left ..
  have hp : PageOk (cut added) tag := by
    refine ⟨?_, fun e he => ?_⟩
    · rw [cut_flatten]
      exact List.Pairwise.sublist ((hsub.filter _).map _) (hstrict tag)
    · rw [cut_flatten] at he
      exact hprev e (hsub.subset he)
  obtain ⟨iter, s', c', bs, hcreate, htag, hwf, hlsns, hcalls, hexec⟩ :=
    hf.inv.createPageIterator hp hlt hf.min_seg locks proc
  obtain ⟨es, hret, hmap, htags⟩ :=
    PageIter.returns_of_stack hlsns fun tbl htbl item hitem => ((hwf tbl htbl).2 item hitem).live
  refine ⟨iter, s', c', bs, es, hcreate, hcalls, hexec, hret, fun e he => (htags e he).trans htag,
    ?_, ?_⟩
  · rw [hmap, filter_tagLsns, cut_flatten, hf.addedEntries]
  · rw [hmap]
    exact List.Pairwise.filter _ hp.strict

/-- Page 7 in a ring of two tables: one LSN in each. -/
theorem pageIterator_exact_twoTables : ∃ (x : Sys smallConfig) (iter : PageIter)
    (s' : Snapshot smallConfig) (c' : TableCache) (es : List LogIndexLsn),
    exec step (initSys smallConfig) (retiredRun ++ reopenedRun) = some x ∧
      createPageIterator x.snap (x.caches 0) (fun _ => ⟨true, true, true⟩) (pageEntry 7 0).tag 1
        (2 ^ 32) = some (iter, s', c') ∧
      iter.Returns es ∧ es.map (·.lsn) = [1, 2 ^ 32] := by
  have hrun := (Option.some_get
    (x := exec step (initSys smallConfig) (retiredRun ++ reopenedRun)) (by rfl)).symm
  have hstrict : ∀ tag, (tagLsns tag (addCalls (retiredRun ++ reopenedRun))).Pairwise (· < ·) := by
    intro tag
    refine List.Pairwise.sublist (List.Sublist.map _ filter_sublist) ?_
    decide
  obtain ⟨iter, s', c', -, es, hcreate, -, -, hret, -, hlsns, -⟩ :=
    pageIterator_exact ⟨by decide, by decide⟩ hstrict (by decide) hrun (pageEntry 7 0).tag
      (show 1 < 2 ^ 32 by decide) (fun _ => ⟨true, true, true⟩) 0
  exact ⟨_, iter, s', c', es, hrun, hcreate, hret, hlsns.trans (by decide)⟩

end Lookup

end PolarDB.LogIndex
