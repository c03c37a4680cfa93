import PolarDB.LogIndexLsnIter
import PolarDB.LogIndexRingSafety

/-!
# Where the LSN iterator starts

A place of the iterator - a table and an order in it - splits the entries
of the log index into those before it (`seenAt`) and those from it on
(`restAt`). The search of the first `polar_logindex_lsn_iterator_next`
ends in one of two ways (`SysInv.lsnIteratorSearch`): at a place with
everything before it below `start_lsn` and nothing after it below
(`Start`), or without a place because every entry is below `start_lsn`
(`NotYet`).

A search may end at a place although every entry is below `start_lsn`:
when the newest table is still empty (`Start.live`).
-/

namespace PolarDB.LogIndex

open List

/-! ## Places -/

section Place

variable {h h' : Tables} {t i : Nat}

def seenAt (h : Tables) (t i : Nat) : List LogIndexLsn :=
  (h.take (t - 1)).flatten ++ (tableEntries h t).take i

def restAt (h : Tables) (t i : Nat) : List LogIndexLsn :=
  (tableEntries h t).drop i ++ (h.drop t).flatten

theorem seenAt_append_restAt (h : Tables) (h1 : 0 < t) (i : Nat) :
    seenAt h t i ++ restAt h t i = h.flatten := by
  obtain ⟨t, rfl⟩ : ∃ t', t = t' + 1 := ⟨t - 1, by omega⟩
  rw [seenAt, restAt, Nat.add_sub_cancel, append_assoc,
    ← append_assoc (take ..), take_append_drop, ← drop_flatten,
    ← flatten_append, take_append_drop]

theorem drop_of_tableNum_le (ht : tableNum h ≤ t) : (h.drop t).flatten = [] := by
  rw [drop_of_length_le ht]
  rfl

theorem Added.restAt {e : LogIndexLsn} {n : Nat} (hadd : Added h h' e n) (h1 : 0 < t)
    (hi : i ≤ (tableEntries h t).length) (htn : t ≤ n) :
    seenAt h' t i = seenAt h t i ∧ restAt h' t i = restAt h t i ++ [e] := by
  have hbelow : (h'.take (t - 1)).flatten = (h.take (t - 1)).flatten := by
    have hlow : ∀ m, m < t → (h'.take m).flatten = (h.take m).flatten := by
      intro m
      induction m with
      | zero => intro _; rfl
      | succ m ih =>
        intro hm
        rw [take_succ_flatten, take_succ_flatten, ih (by omega),
          hadd.other (m + 1) (Nat.succ_pos m) (by omega)]
    exact hlow (t - 1) (by omega)
  have hseen : seenAt h' t i = seenAt h t i := by
    rw [seenAt, seenAt, hbelow]
    by_cases heq : t = n
    · subst heq
      rw [hadd.self, take_append_of_le_length hi]
    · rw [hadd.other t h1 heq]
  refine ⟨hseen, ?_⟩
  have hall := seenAt_append_restAt h' h1 i
  rw [hadd.flatten, ← seenAt_append_restAt h h1 i, hseen, append_assoc] at hall
  exact append_cancel_left hall

end Place

/-! ## One table -/

section Data

variable {cfg : Config} {d : LogIdxTableData} {t : Nat} {es : List LogIndexLsn}

theorem DataRep.order_any (hd : DataRep cfg d t es) (startLsn i : Nat) :
    ((LogIndex.getOrderLsn d i).any fun info => decide (startLsn ≤ info.lsn)) =
      es[i]?.any fun e => decide (startLsn ≤ e.lsn) := by
  rw [hd.getOrderLsn]
  cases es[i]? <;> rfl

theorem DataRep.startOrder (hd : DataRep cfg d t es) (hs : LsnSorted es) {startLsn : Nat}
    (hex : es = [] ∨ ∃ e ∈ es, startLsn ≤ e.lsn) :
    let i := (startOrder d startLsn).getD 0
    i ≤ es.length ∧ (∀ e ∈ es.take i, e.lsn < startLsn) ∧ ∀ e ∈ es.drop i, startLsn ≤ e.lsn := by
  cases hfind : LogIndex.startOrder d startLsn with
  | none =>
    rw [LogIndex.startOrder, hd.order_length, find?_range_eq_none] at hfind
    rcases hex with rfl | ⟨e, he, hle⟩
    · simp
    · obtain ⟨i, hi, rfl⟩ := getElem_of_mem he
      have := hfind i hi
      rw [hd.order_any, getElem?_eq_getElem hi] at this
      simp [hle] at this
  | some i =>
    rw [LogIndex.startOrder, hd.order_length, find?_range_eq_some] at hfind
    obtain ⟨hi, hmem, hlow⟩ := hfind
    have hlt : i < es.length := mem_range.mp hmem
    rw [hd.order_any, getElem?_eq_getElem hlt] at hi
    have hle : startLsn ≤ es[i].lsn := by simpa using hi
    simp only [Option.getD_some]
    refine ⟨hlt.le, fun e he => ?_, fun e he => ?_⟩
    · obtain ⟨j, hj, rfl⟩ := mem_take_iff_getElem.mp he
      have := hlow j (by omega)
      rw [hd.order_any, getElem?_eq_getElem (by omega)] at this
      simpa using this
    · obtain ⟨j, hj, rfl⟩ := mem_drop_iff_getElem.mp he
      cases j with
      | zero => exact hle
      | succ j =>
        exact hle.trans (pairwise_iff_getElem.mp hs i (i + (j + 1)) hlt (by omega) (by omega))

end Data

/-! ## Searching the tables -/

/-- A search that has looked at the tables above `tid`, of `newest`, and
goes on. -/
structure LsnSearched (startLsn : Nat) (h : Tables) (newest tid : Nat) (iter : LsnIter) : Prop where
  start_eq : iter.startLsn = startLsn
  state : iter.state = .forward
  idx : iter.idx = 0
  last : iter.lastSearchTid = tid + 1 ∧ tid < newest ∨
    iter.lastSearchTid = tableInvalidId ∧ tid = newest ∧ iter.idxTableId = tableInvalidId
  above : ∀ e ∈ (h.drop tid).flatten, startLsn ≤ e.lsn
  live : iter.lastSearchTid ≠ tableInvalidId →
    (∃ e ∈ h.flatten, startLsn ≤ e.lsn) ∨ tableNum h < newest

structure Found (startLsn : Nat) (h : Tables) (newest : Nat) (iter : LsnIter) : Prop where
  start_eq : iter.startLsn = startLsn
  state : iter.state = .backward
  idx : iter.idx = 0
  pos : 0 < iter.idxTableId
  le : iter.idxTableId ≤ newest
  below : ∀ e ∈ (h.take (iter.idxTableId - 1)).flatten, e.lsn < startLsn
  above : ∀ e ∈ (h.drop iter.idxTableId).flatten, startLsn ≤ e.lsn
  here : tableEntries h iter.idxTableId = [] ∨
    ∃ e ∈ tableEntries h iter.idxTableId, startLsn ≤ e.lsn
  live : (∃ e ∈ h.flatten, startLsn ≤ e.lsn) ∨ tableNum h < newest

structure NotYet (startLsn : Nat) (h : Tables) (iter : LsnIter) : Prop where
  start_eq : iter.startLsn = startLsn
  state : iter.state = .finished
  idx : iter.idx = 0
  idxTableId : iter.idxTableId = tableInvalidId
  below : ∀ e ∈ h.flatten, e.lsn < startLsn

section Search

variable {cfg : Config} {s : Snapshot cfg} {h : Tables} {startLsn newest tid : Nat} {iter : LsnIter}

theorem entriesMinLsn_le {es : List LogIndexLsn} {e : LogIndexLsn} (he : e ∈ es) :
    entriesMinLsn es ≤ e.lsn :=
  ((le_entriesMinLsn_iff _ _).mp le_rfl).2 e he

theorem LsnSearched.down (hs : LsnSearched startLsn h newest (tid + 1) iter)
    (hhere : ∀ e ∈ tableEntries h (tid + 1), startLsn ≤ e.lsn) :
    ∀ e ∈ (h.drop tid).flatten, startLsn ≤ e.lsn := by
  intro e he
  rw [drop_flatten, mem_append] at he
  exact he.elim (hhere e) (hs.above e)

theorem LsnSearched.found {iter' : LsnIter} (hs : LsnSearched startLsn h newest tid iter)
    (hstart : iter'.startLsn = startLsn) (hst : iter'.state = .backward) (hidx : iter'.idx = 0)
    (htid : iter'.idxTableId = tid + 1) (hlt : tid < newest)
    (hbelow : ∀ e ∈ (h.take tid).flatten, e.lsn < startLsn)
    (hlive : (∃ e ∈ h.flatten, startLsn ≤ e.lsn) ∨ tableNum h < newest) :
    Found startLsn h newest iter' := by
  have habove := hs.above
  rw [drop_flatten, forall_mem_append] at habove
  refine ⟨hstart, hst, hidx, ?_, ?_, ?_, ?_, ?_, hlive⟩ <;> rw [htid]
  · exact Nat.succ_pos _
  · exact hlt
  · exact hbelow
  · exact habove.2
  · by_cases hnil : tableEntries h (tid + 1) = []
    · exact .inl hnil
    · obtain ⟨e, he⟩ := exists_mem_of_ne_nil _ hnil
      exact .inr ⟨e, he, habove.1 e he⟩

theorem LsnSearched.setSearchTable (hs : LsnSearched startLsn h newest (tid + 1) iter)
    (hi : RingInv s h) (hnum : tableNum h ≤ newest) (hle : tid + 1 ≤ newest)
    {d : LogIdxTableData} (hd : DataRep cfg d (tid + 1) (tableEntries h (tid + 1))) :
    LsnSearched startLsn h newest tid (setSearchTable iter d) ∨
      Found startLsn h newest (setSearchTable iter d) ∨
      NotYet startLsn h (setSearchTable iter d) := by
  obtain rfl := hs.start_eq
  have hsub := (tableEntries_sublist h (tid + 1)).subset
  rw [LogIndex.setSearchTable]
  by_cases hnil : tableEntries h (tid + 1) = []
  · have hmax : d.maxLsn = invalidXLogRecPtr := by rw [hd.max_eq, hnil]; rfl
    rw [if_neg (by rw [hmax]; exact fun hne => hne rfl)]
    refine .inl ⟨rfl, hs.state, hs.idx, .inl ⟨hd.1, hle⟩, hs.down (by simp [hnil]), fun _ =>
      .inr ?_⟩
    by_contra hge
    exact hi.nonempty _ (tableEntries_mem (Nat.succ_pos tid) (by omega)) hnil
  have hnumT : tid + 1 ≤ tableNum h := by
    by_contra hgt
    exact hnil (tableEntries_eq_nil (by omega))
  obtain ⟨emax, hemax, hemaxeq⟩ := exists_entriesMaxLsn hnil
  have hmax0 : d.maxLsn ≠ invalidXLogRecPtr := by
    rw [hd.max_eq]
    exact (hi.entriesMaxLsn_pos (Nat.succ_pos _) hnumT).ne'
  rw [if_pos hmax0]
  split
  · next hgt =>
    have hbelow : ∀ e ∈ (h.take (tid + 1)).flatten, e.lsn < iter.startLsn := fun e he =>
      (hi.lsn_le_table hnumT e he).trans_lt (hd.max_eq ▸ hgt)
    rcases hs.last with ⟨hlast, hlt⟩ | ⟨hlast, hnew, hid⟩
    · rw [if_neg (by rw [hlast]; exact Nat.succ_ne_zero _)]
      exact .inr (.inl (hs.found rfl rfl hs.idx (congrArg (· + 1) hd.1) hlt hbelow
        (hs.live (by rw [hlast]; exact Nat.succ_ne_zero _))))
    · rw [if_pos hlast]
      refine .inr (.inr ⟨rfl, rfl, hs.idx, hid, ?_⟩)
      have hall : h.take (tid + 1) = h := take_of_length_le (by rw [tableNum] at hnum; omega)
      rwa [hall] at hbelow
  · next hgt =>
    have hex : ∃ e ∈ tableEntries h (tid + 1), iter.startLsn ≤ e.lsn :=
      ⟨emax, hemax, by rw [hemaxeq, ← hd.max_eq]; omega⟩
    have hlive : ∃ e ∈ h.flatten, iter.startLsn ≤ e.lsn := by
      obtain ⟨e, he, hge⟩ := hex
      exact ⟨e, hsub he, hge⟩
    have hfwd : iter.startLsn ≤ d.minLsn → ∀ e ∈ (h.drop tid).flatten, iter.startLsn ≤ e.lsn :=
      fun hle =>
      hs.down fun e he => hle.trans (hd.min_eq ▸ entriesMinLsn_le he)
    split
    · next hmin =>
      by_cases heq : iter.startLsn = d.minLsn
      · rw [if_neg (not_not_intro heq)]
        exact .inl ⟨rfl, hs.state, hs.idx, .inl ⟨hd.1, hle⟩, hfwd heq.le, fun _ => .inl hlive⟩
      · rw [if_pos heq]
        refine .inr (.inl ⟨rfl, rfl, hs.idx, ?_, ?_, ?_, ?_, ?_, .inl hlive⟩) <;> simp only [hd.1]
        · exact Nat.succ_pos tid
        · exact hle
        · intro e he
          have hle : e.lsn ≤ d.minLsn := by
            obtain ⟨t, h1, ht, he⟩ := mem_take_flatten.mp he
            rw [hd.min_eq, le_entriesMinLsn_iff]
            exact ⟨(hi.valid e ((tableEntries_sublist h t).subset he)).2.le, fun e' he' =>
              LsnSorted.tableEntries_le hi.sorted h1 (by omega) he he'⟩
          omega
        · exact hs.above
        · exact .inr hex
    · next hmin =>
      exact .inl ⟨rfl, hs.state, hs.idx, .inl ⟨hd.1, hle⟩, hfwd (by omega), fun _ => .inl hlive⟩

structure ReadRun (h : Tables) (s s' : Snapshot cfg) (c' : TableCache) : Prop where
  ring : RingInv s' h
  cache : CacheOk cfg c' s'.logMeta.maxIdxTableId h
  effect : ReadEffect s s'

theorem ReadRun.trans {s' s'' : Snapshot cfg} {c' c'' : TableCache} (hr : ReadRun h s s' c')
    (hr' : ReadRun h s' s'' c'') : ReadRun h s s'' c'' :=
  ⟨hr'.ring, hr'.cache, hr.effect.trans hr'.effect⟩

variable {c : TableCache}

def TableData (s : Snapshot cfg) (h : Tables) (t : Nat) :
    Option (LogIdxTableData × Option MemTblState) → Prop
  | none => s.maxIdxTableId < t
  | some (d, state) => DataRep cfg d t (tableEntries h t) ∧
      (if state = some .active then tableNum h ≤ t
      else t ≤ tableNum h ∧ (t < s.maxIdxTableId ∨ ∀ m, (s.memTable m).state ≠ .active))

/-- The newest table is the ACTIVE one; the others are closed. -/
theorem RingInv.slot_tid (hi : RingInv s h) {m : Nat} (hfree : (s.memTable m).state ≠ .free) :
    if (s.memTable m).state = .active then (s.memTable m).data.idxTableId = s.maxIdxTableId
    else (s.memTable m).data.idxTableId ≤ tableNum h := by
  cases hst : (s.memTable m).state with
  | free => exact absurd hst hfree
  | active =>
    obtain ⟨hlt, rfl⟩ := (hi.slots m).active hst
    exact (hi.opened _ hlt le_rfl).1.1
  | inactive =>
    obtain ⟨t, -, hle, rfl, hslot⟩ := hi.tid_of_open (.inr hst)
    rw [if_neg (by decide), hslot.1]
    exact hi.le_tableNum hle (by rw [hst]; decide)
  | flushed =>
    obtain ⟨t, -, hle, -, hd⟩ := (hi.slots m).flushed hst
    rw [hd.1]
    exact hle.trans hi.saved_le

theorem RingInv.older_or_closed (hi : RingInv s h) {t : Nat} (hle : t ≤ s.maxIdxTableId)
    (hst : t = s.maxIdxTableId → (s.memTable (cfg.slotOf s.maxIdxTableId)).state ≠ .active) :
    t < s.maxIdxTableId ∨ ∀ m, (s.memTable m).state ≠ .active := by
  rcases Nat.lt_or_eq_of_le hle with hlt | heq
  · exact .inl hlt
  · refine .inr fun m hm => hst heq ?_
    rwa [← ((hi.slots m).active hm).2]

/-- The iterator has a place, and the entries to come go behind it: it is
beyond the newest table only if that one is closed. -/
structure HasPlace (s : Snapshot cfg) (h : Tables) (iter : LsnIter) : Prop where
  state : iter.state = .backward
  pos : 0 < iter.idxTableId
  le : iter.idxTableId ≤ tableNum h + 1
  idx_le : iter.idx ≤ (tableEntries h iter.idxTableId).length
  newest : iter.idxTableId ≤ s.maxIdxTableId ∨ ∀ m, (s.memTable m).state ≠ .active

theorem ReadEffect.hasPlace_iff {s' : Snapshot cfg} (heff : ReadEffect s s') :
    HasPlace s' h iter ↔ HasPlace s h iter := by
  constructor
  · rintro ⟨hst, hpos, hle, hidx, hnew⟩
    simp only [heff.maxIdxTableId, heff.state] at hnew
    exact ⟨hst, hpos, hle, hidx, hnew⟩
  · rintro ⟨hst, hpos, hle, hidx, hnew⟩
    refine ⟨hst, hpos, hle, hidx, ?_⟩
    simp only [heff.maxIdxTableId, heff.state]
    exact hnew

structure Start (startLsn : Nat) (s : Snapshot cfg) (h : Tables) (iter : LsnIter) : Prop where
  start_eq : iter.startLsn = startLsn
  place : HasPlace s h iter
  seen : ∀ e ∈ seenAt h iter.idxTableId iter.idx, e.lsn < startLsn
  rest : ∀ e ∈ restAt h iter.idxTableId iter.idx, startLsn ≤ e.lsn
  live : (∃ e ∈ h.flatten, startLsn ≤ e.lsn) ∨ tableNum h < s.maxIdxTableId

theorem Start.of_read {s' : Snapshot cfg} (hs : Start startLsn s' h iter) (heff : ReadEffect s s') :
    Start startLsn s h iter :=
  ⟨hs.start_eq, heff.hasPlace_iff.mp hs.place, hs.seen, hs.rest, heff.maxIdxTableId ▸ hs.live⟩

theorem setStartOrder_skip {locks : IterLocks} (hst : iter.state ≠ .backward) :
    setStartOrder s c locks iter = some (iter, s, c) := by
  rw [setStartOrder, if_neg hst]

/-- The loop over the tables in the ring. A search that goes on has
reached the saved tables. -/
theorem RingInv.searchMemTblLoop (hi : RingInv s h) :
    ∀ {tid mid : Nat} {iter : LsnIter}, tid ≤ s.maxIdxTableId → (0 < tid → mid = cfg.slotOf tid) →
    LsnSearched startLsn h s.maxIdxTableId tid iter →
    (∃ tid', tid' ≤ s.saved ∧
        LsnSearched startLsn h s.maxIdxTableId tid' (searchMemTblLoop s tid mid iter)) ∨
      Found startLsn h s.maxIdxTableId (searchMemTblLoop s tid mid iter) ∨
      NotYet startLsn h (searchMemTblLoop s tid mid iter)
  | 0, mid, iter, _, _, hs => .inl ⟨0, Nat.zero_le _, hs⟩
  | tid + 1, mid, iter, hle, hmid, hs => by
    obtain rfl := hmid (Nat.succ_pos _)
    rw [LogIndex.searchMemTblLoop]
    simp only
    split
    · next hin =>
      have hd := hi.slot_data hin.2
      rw [← hin.1] at hd
      rcases hs.setSearchTable hi hi.num_le hle hd with hs' | hf | hn
      · rw [if_pos hs'.state]
        exact RingInv.searchMemTblLoop hi (by omega) slotOf_pred hs'
      · rw [if_neg (by rw [hf.state]; decide)]
        exact .inr (.inl hf)
      · rw [if_neg (by rw [hn.state]; decide)]
        exact .inr (.inr hn)
    · next hin =>
      exact .inl ⟨tid + 1, not_lt.mp fun hgt => hin (hi.in_slot hgt hle), hs⟩

theorem searchFileTblLoop_stop {minTid : Nat} {locks : Nat → ReadLocks} {tid : Nat}
    (hst : iter.state ≠ .forward) :
    searchFileTblLoop minTid locks tid iter s c = some (iter, s, c) := by
  cases tid with
  | zero => rfl
  | succ tid => rw [searchFileTblLoop, if_neg fun hgo => hst hgo.2]

theorem RingInv.searchFileTblLoop (hlive : ∃ e ∈ h.flatten, startLsn ≤ e.lsn) {minTid : Nat}
    (hminTid : minTid ≤ 1) (locks : Nat → ReadLocks) :
    ∀ {tid : Nat} {iter : LsnIter} {s : Snapshot cfg} {c : TableCache}, RingInv s h →
    CacheOk cfg c s.saved h → s.minTid ≤ 1 →
    tid ≤ s.saved → LsnSearched startLsn h s.maxIdxTableId tid iter →
    ∃ iter' s' c', searchFileTblLoop minTid locks tid iter s c = some (iter', s', c') ∧
      ReadRun h s s' c' ∧
      (LsnSearched startLsn h s.maxIdxTableId 0 iter' ∨ Found startLsn h s.maxIdxTableId iter')
  | 0, iter, s, c, hi, hc, _, _, hs => ⟨iter, s, c, rfl, ⟨hi, hc, ReadEffect.refl s⟩, .inl hs⟩
  | tid + 1, iter, s, c, hi, hc, hmin, hle, hs => by
    rw [LogIndex.searchFileTblLoop, if_pos ⟨by omega, hs.state⟩]
    obtain ⟨d, s1, c1, hread, hd, hi1, heff, hc1⟩ :=
      hi.read hc (Nat.succ_pos tid) (by omega) hle (locks (tid + 1)).shared
        (locks (tid + 1)).exclusive
    rw [hread]
    simp only
    have hrun1 : ReadRun h s s1 c1 := ⟨hi1, heff.logMeta ▸ hc1, heff⟩
    have hnew : tid + 1 ≤ s.maxIdxTableId := hle.trans (hi.saved_le.trans hi.num_le)
    rcases hs.setSearchTable hi hi.num_le hnew hd with hs1 | hf | hn
    · rw [← heff.maxIdxTableId] at hs1
      obtain ⟨iter', s', c', hloop, hrun, hend⟩ := RingInv.searchFileTblLoop hlive hminTid locks
        hi1 hrun1.cache (heff.minTid.trans_le hmin) (by rw [heff.saved]; omega) hs1
      rw [heff.maxIdxTableId] at hend
      exact ⟨iter', s', c', hloop, hrun1.trans hrun, hend⟩
    · rw [searchFileTblLoop_stop (by rw [hf.state]; decide)]
      exact ⟨_, s1, c1, rfl, hrun1, .inr hf⟩
    · obtain ⟨e, he, hge⟩ := hlive
      exact absurd (hn.below e he) (not_lt.mpr hge)

theorem LsnSearched.nextSearchFileTid (hs : LsnSearched startLsn h s.maxIdxTableId tid iter)
    (hi : RingInv s h) (hle : tid ≤ s.saved) :
    nextSearchFileTid iter.lastSearchTid s.logMeta = some tid := by
  rcases hs.last with ⟨hlast, -⟩ | ⟨hlast, hnew, -⟩
  · rw [LogIndex.nextSearchFileTid, if_neg (by rw [hlast]; exact Nat.succ_ne_zero _), hlast,
      Nat.add_sub_cancel]
    split
    · next h0 =>
      rw [h0]
    · rw [if_neg (not_lt.mpr hle)]
  · rw [LogIndex.nextSearchFileTid, if_pos hlast]
    have := hi.saved_le
    have := hi.num_le
    have : s.saved = tid := by omega
    rw [← this]

theorem RingInv.lsn_le_meta (hi : RingInv s h) :
    ∀ e ∈ (h.take s.saved).flatten, e.lsn ≤ s.logMeta.maxLsn := by
  by_cases h0 : s.saved = 0
  · simp [h0]
  · rw [hi.metaOk.max_lsn (Nat.pos_of_ne_zero h0)]
    exact hi.lsn_le_table hi.saved_le

section

variable (hi : RingInv s h) (hc : CacheOk cfg c s.saved h) (hmin : s.minTid ≤ 1)
include hi hc hmin

theorem RingInv.getTableData (hpos : 0 < iter.idxTableId) (locks : Nat → ReadLocks) :
    ∃ data s' c', getTableData s c iter locks = some (data, s', c') ∧ ReadRun h s s' c' ∧
      TableData s h iter.idxTableId data := by
  rw [LogIndex.getTableData]
  simp only
  split
  · next hslot =>
    refine ⟨_, s, c, rfl, ⟨hi, hc, ReadEffect.refl s⟩, ?_⟩
    have hfree : (s.memTable (cfg.slotOf iter.idxTableId)).state ≠ .free := by
      intro hf
      rw [(hi.slots _).freed hf] at hslot
      exact hpos.ne' hslot.symm
    have hd := hi.slot_data hfree
    rw [hslot] at hd
    have htid := hi.slot_tid hfree
    rw [hslot] at htid
    refine ⟨hd, ?_⟩
    split at htid
    · next hact =>
      rw [if_pos (congrArg some hact), htid]
      exact hi.num_le
    · next hact =>
      rw [if_neg fun heq => hact (Option.some.inj heq)]
      refine ⟨htid, hi.older_or_closed (htid.trans hi.num_le) fun heq => ?_⟩
      rwa [← heq]
  · next hslot =>
    by_cases hgt : s.saved < iter.idxTableId
    · rw [if_pos hgt]
      refine ⟨none, s, c, rfl, ⟨hi, hc, ReadEffect.refl s⟩, ?_⟩
      by_contra hle
      exact hslot (hi.opened _ hgt (not_lt.mp hle)).1.1
    · rw [if_neg hgt]
      obtain ⟨d, s', c', hread, hd, hi', heff, hc'⟩ :=
        hi.read hc hpos (hmin.trans hpos) (not_lt.mp hgt)
          (locks iter.idxTableId).shared (locks iter.idxTableId).exclusive
      rw [hread]
      refine ⟨some (d, none), s', c', rfl, ⟨hi', heff.logMeta ▸ hc', heff⟩, hd, ?_⟩
      rw [if_neg (by simp)]
      have hle := (not_lt.mp hgt).trans hi.saved_le
      refine ⟨hle, hi.older_or_closed (hle.trans hi.num_le) fun heq hact => ?_⟩
      have := ((hi.slots _).active hact).1
      omega

theorem Found.setStartOrder (hf : Found startLsn h s.maxIdxTableId iter) (locks : IterLocks) :
    ∃ iter' s' c', setStartOrder s c locks iter = some (iter', s', c') ∧ ReadRun h s s' c' ∧
      Start startLsn s h iter' := by
  obtain ⟨data, s', c', hget, hrun, hdata⟩ := hi.getTableData hc hmin hf.pos locks.start
  rw [LogIndex.setStartOrder, if_pos hf.state, hget]
  refine ⟨_, s', c', rfl, hrun, ?_⟩
  obtain rfl := hf.start_eq
  have hle := hi.le_num
  cases data with
  | none => exact absurd hf.le (not_le.mpr hdata)
  | some data =>
    obtain ⟨d, state⟩ := data
    obtain ⟨hidx, hlow, hhigh⟩ := hdata.1.startOrder (hi.sorted.tableEntries _) hf.here
    have heq : setSearchStartOrder iter d =
        { iter with idx := (startOrder d iter.startLsn).getD 0 } := by
      rw [setSearchStartOrder, if_neg (not_not_intro hdata.1.1), hf.idx]
    simp only [heq]
    refine ⟨rfl, ⟨hf.state, hf.pos, hf.le.trans hle, hidx, .inl hf.le⟩, fun e he => ?_,
      fun e he => ?_, hf.live⟩
    · exact (mem_append.mp he).elim (hf.below e) (hlow e)
    · exact (mem_append.mp he).elim (hhigh e) (hf.above e)

theorem LsnSearched.searchFileTblLsn (hs : LsnSearched startLsn h s.maxIdxTableId tid iter)
    (hle : tid ≤ s.saved) (hpos : 0 < startLsn) (locks : IterLocks) :
    ∃ iter' s' c', searchFileTblLsn s c locks iter = some (iter', s', c') ∧ ReadRun h s s' c' ∧
      (Start startLsn s h iter' ∨ NotYet startLsn h iter') := by
  have hnum := hi.saved_le
  have hmax := hi.num_le
  obtain rfl := hs.start_eq
  rw [LogIndex.searchFileTblLsn]
  split
  · next hgt =>
    have hsaved : ∀ t, t ≤ s.saved → ∀ e ∈ (h.take t).flatten, e.lsn < iter.startLsn := by
      intro t ht e he
      obtain ⟨t', h1, ht', he⟩ := mem_take_flatten.mp he
      exact (hi.lsn_le_meta e (mem_take_flatten.mpr ⟨t', h1, by omega, he⟩)).trans_lt hgt
    rcases hs.last with ⟨hlast, hlt⟩ | ⟨hlast, hnew, hid⟩
    · rw [if_neg (by rw [hlast]; exact Nat.succ_ne_zero _), hlast]
      refine ⟨_, s, c, rfl, ⟨hi, hc, ReadEffect.refl s⟩, .inl ⟨rfl, ⟨rfl, Nat.succ_pos tid, ?_, ?_,
        .inl hlt⟩, ?_, ?_, hs.live (by rw [hlast]; exact Nat.succ_ne_zero _)⟩⟩ <;>
          simp only [hs.idx]
      · omega
      · exact Nat.zero_le _
      · simpa [seenAt] using hsaved tid hle
      · rw [restAt, drop_zero, ← drop_flatten]
        exact hs.above
    · rw [if_pos hlast]
      refine ⟨_, s, c, rfl, ⟨hi, hc, ReadEffect.refl s⟩, .inr ⟨rfl, rfl, hs.idx, hid, ?_⟩⟩
      have hall : h.take tid = h := take_of_length_le (by rw [tableNum] at hmax; omega)
      rw [← hall]
      exact hsaved tid hle
  · next hgt =>
    rw [hs.nextSearchFileTid hi hle]
    have hN : 0 < s.saved := by
      by_contra h0
      rw [(hi.metaOk.zero (Nat.eq_zero_of_not_pos h0)).1] at hgt
      exact hgt hpos
    have hlive : ∃ e ∈ h.flatten, iter.startLsn ≤ e.lsn := by
      obtain ⟨e, he, heq⟩ := exists_entriesMaxLsn (hi.nonempty _ (tableEntries_mem hN hnum))
      refine ⟨e, (tableEntries_sublist h _).subset he, ?_⟩
      rw [heq, ← hi.metaOk.max_lsn hN]
      exact not_lt.mp hgt
    obtain ⟨iter1, s1, c1, hloop, hrun1, hend⟩ :=
      RingInv.searchFileTblLoop hlive hmin locks.search hi hc hmin hle hs
    simp only [hloop]
    have hfound : Found iter.startLsn h s.maxIdxTableId (if iter1.state = .forward then
        { iter1 with idxTableId := s.minTid, state := .backward }
        else iter1) := by
      rcases hend with hs1 | hf
      · have hone : s.minTid = 1 := by
          have : s.minTid = _ := hi.metaOk.min_tid hN
          omega
        rw [if_pos hs1.state]
        exact hs1.found hs1.start_eq rfl hs1.idx hone (by omega) (by simp) (.inl hlive)
      · rw [if_neg (by rw [hf.state]; decide)]
        exact hf
    rw [← hrun1.effect.maxIdxTableId] at hfound
    obtain ⟨iter', s', c', hset, hrun, hstart⟩ :=
      hfound.setStartOrder hrun1.ring hrun1.cache (hrun1.effect.minTid.trans_le hmin) locks
    exact ⟨iter', s', c', hset, hrun1.trans hrun, .inl (hstart.of_read hrun1.effect)⟩

theorem RingInv.lsnIteratorSearch (hpos : 0 < iter.startLsn)
    (hid : iter.idxTableId = tableInvalidId) (hidx : iter.idx = 0) (locks : IterLocks) :
    ∃ iter' s' c', lsnIteratorSearch s c locks iter = some (iter', s', c') ∧ ReadRun h s s' c' ∧
      (Start iter.startLsn s h iter' ∨ NotYet iter.startLsn h iter') := by
  have hinit : LsnSearched iter.startLsn h s.maxIdxTableId s.maxIdxTableId
      { iter with state := .forward, lastSearchTid := tableInvalidId } :=
    ⟨rfl, rfl, hidx, .inr ⟨rfl, rfl, hid⟩,
      by rw [drop_of_tableNum_le hi.num_le]; simp, fun hne => absurd rfl hne⟩
  rw [LogIndex.lsnIteratorSearch, if_pos hid, searchMemTblLsn]
  rcases hi.searchMemTblLoop le_rfl (fun _ => rfl) hinit with ⟨tid, hle, hs⟩ | hf | hn
  · rw [setStartOrder_skip (by rw [hs.state]; decide)]
    simp only [if_pos hs.state]
    exact hs.searchFileTblLsn hi hc hmin hle hpos locks
  · obtain ⟨iter', s', c', hset, hrun, hstart⟩ := hf.setStartOrder hi hc hmin locks
    simp only [hset]
    rw [if_neg (by rw [hstart.place.state]; decide)]
    exact ⟨iter', s', c', rfl, hrun, .inl hstart⟩
  · rw [setStartOrder_skip (by rw [hn.state]; decide)]
    simp only
    rw [if_neg (by rw [hn.state]; decide)]
    exact ⟨_, s, c, rfl, ⟨hi, hc, ReadEffect.refl s⟩, .inr hn⟩

end

end Search

end PolarDB.LogIndex
