import PolarDB.LogIndexProgress

/-!
# Starting on the tables of an earlier run

`polar_logindex_snapshot_init` on a directory that already holds saved
tables: shared memory is zeroed, the newest saved tables are loaded into
their ring slots, and the table behind them is opened
(`snapshotInit`). A writable snapshot does not load an active table that
`polar_logindex_flush_active_table` left on storage.

After that the invariant of the ring holds for the saved tables
(`RingInv.snapshotInit`), and the slot in front of the active one holds
the last saved table, where `log_index_exists_in_saved_table` looks.
-/

namespace PolarDB.LogIndex

variable {cfg : Config}

/-! ## The start -/

def loadTables (startLsn minTid : Nat) : Nat → Snapshot cfg → Option (Snapshot cfg)
  | 0, s => some s
  | tid + 1, s =>
    if minTid ≤ tid + 1 then
      match readTableData s (tid + 1) with
      | none => none
      | some data =>
        let s := s.setTable (cfg.slotOf (tid + 1))
          { freeHead := memTblSegNum, state := .flushed, data := data }
        if startLsn ≠ invalidXLogRecPtr ∧ data.minLsn ≤ startLsn then some s
        else loadTables startLsn minTid tid s
    else some s

def minLoadTid (cfg : Config) (m : LogIndexMeta) : Nat :=
  let minTid :=
    if cfg.memTblSize < m.maxIdxTableId then
      max (m.maxIdxTableId - cfg.memTblSize + 1) m.minSegmentInfo.minIdxTableId
    else m.minSegmentInfo.minIdxTableId
  if minTid = tableInvalidId then m.maxIdxTableId else minTid

/-- `polar_load_logindex_snapshot_from_storage` of a snapshot that is not
INITIALIZED. `log_index_wait_active` needs one turn for a slot that is
FREE or FLUSHED. -/
def loadFromStorage (s : Snapshot cfg) (startLsn : Nat) : Option (Snapshot cfg) :=
  let newMax := s.logMeta.maxIdxTableId
  if newMax = tableInvalidId then some s
  else if minLoadTid cfg s.logMeta ≤ newMax then
    match loadTables startLsn (minLoadTid cfg s.logMeta) newMax s with
    | none => none
    | some s =>
      let s := { s with
        maxIdxTableId := newMax
        maxLsn := (s.memTable (cfg.slotOf newMax)).data.maxLsn
        activeTable := newMax % cfg.memTblSize }
      match waitActiveTurn s s.activeTable invalidXLogRecPtr false with
      | some (s, true) => some s
      | _ => none
  else some s

/-- `polar_logindex_snapshot_base_init` on the storage of `s`, with the
LSN to insert from. -/
def snapshotInit (s : Snapshot cfg) (checkpointLsn : Nat) : Option (Sys cfg × Nat) :=
  -- without readable meta data everything is removed
  let logMeta := if s.logMeta.written then s.logMeta else zeroMeta
  let empty : Snapshot cfg :=
    { memTable := fun _ => zeroMemTable
      maxLsn := logMeta.maxLsn
      activeTable := logMeta.maxIdxTableId % cfg.memTblSize
      maxIdxTableId := logMeta.maxIdxTableId
      logMeta := logMeta
      maxAllocatedSegNo := 0
      adding := false
      files := if s.logMeta.written then s.files else fun _ => none
      bloomPages := if s.logMeta.written then s.bloomPages else fun _ => none }
  (loadFromStorage empty checkpointLsn).map fun snap =>
    ({ snap := snap, inserter := .idle, caches := fun _ => emptyCache },
      if logMeta.startLsn ≠ invalidXLogRecPtr ∧ logMeta.startLsn < checkpointLsn then
        logMeta.startLsn
      else checkpointLsn)

/-- What a crash in state `s` leaves behind is the storage of `s`, or
that of `s` with one more table written but not yet in the meta data. -/
def CrashedIn (s s' : Snapshot cfg) : Prop :=
  s' = s ∨ ∃ mid, ((s.memTable mid).state = .active ∨ (s.memTable mid).state = .inactive) ∧
    (s.memTable mid).data.idxTableId = s.logMeta.maxIdxTableId + 1 ∧
    writeTableData s mid = some s'

/-! ## The invariant after the start -/

variable {s s' : Snapshot cfg} {h : Tables}

theorem RingInv.crashedIn (hi : RingInv s h) (hc : CrashedIn s s') :
    RingInv s' h ∧ s'.logMeta = s.logMeta := by
  rcases hc with rfl | ⟨mid, hst, htid, hw⟩
  · exact ⟨hi, rfl⟩
  · obtain ⟨t, ht, ht', rfl, hslot⟩ := hi.tid_of_open hst
    rw [hslot.1] at htid
    obtain ⟨b, file, -, hopen, rfl⟩ := hi.writeData ht ht' hw
    subst htid
    exact ⟨hi.wrote hopen hslot.1, rfl⟩

structure Closed (s : Snapshot cfg) (h : Tables) : Prop where
  state : ∀ m, s.memTable m = zeroMemTable ∨ (s.memTable m).state = .flushed ∧
    ∃ t, 0 < t ∧ t ≤ s.saved ∧ cfg.slotOf t = m ∧
      DataRep cfg (s.memTable m).data t (tableEntries h t)

theorem RingInv.ofClosed (hi : RingInv s h) (hc : Closed s' h) (hmeta : s'.logMeta = s.logMeta)
    (hstorage : s'.files = s.files ∧ s'.bloomPages = s.bloomPages ∨
      s.saved = 0 ∧ s'.files = fun _ => none)
    (hmax : s'.maxIdxTableId = s.saved) :
    RingInv s' (h.take s.saved) := by
  have hN : s'.saved = s.saved := congrArg (·.maxIdxTableId) hmeta
  have hT : s'.minTid = s.minTid := congrArg (·.minSegmentInfo.minIdxTableId) hmeta
  have hnum : tableNum (h.take s.saved) = s.saved := List.length_take_of_le hi.saved_le
  have hsub := take_flatten_sublist h s.saved
  have hsame : ∀ t, 0 < t → t ≤ s.saved → tableEntries (h.take s.saved) t = tableEntries h t :=
    fun t h1 ht => tableEntries_take h h1 ht
  refine ⟨fun e he => hi.valid e (hsub.subset he), List.Pairwise.sublist hsub hi.sorted,
    fun es hes => hi.nonempty es (List.mem_of_mem_take hes), ?_, ?_, ?_, ?_, ?_, ?_, ?_, ?_, ?_, ?_,
    ?_⟩
  · rw [hN, hnum]
  · rw [hmax, hnum]
  · rw [hmax, hnum]; exact Nat.le_succ _
  · rw [hmax, hN]; exact Nat.le_add_right ..
  · intro t ht ht'; omega
  · rw [hnum]; intro hlt; omega
  · intro m
    refine .closed ((hc.state m).imp_right fun ⟨hf, t, h1, ht, hslot, hd⟩ =>
      ⟨hf, t, h1, ht, hslot, ?_⟩)
    rwa [hsame t h1 (hN ▸ ht)]
  · rw [hmeta]
    exact hi.metaOk.mono hsame
  · rw [hT, hN]
    intro t h1 hmin ht
    rcases hstorage with ⟨hfiles, -⟩ | ⟨h0, -⟩
    · rw [readTableData, hfiles, hsame t h1 ht]
      exact hi.stored t h1 hmin ht
    · omega
  · rw [hT, hN]
    intro t h1 hmin ht
    rcases hstorage with ⟨-, hbloom⟩ | ⟨h0, -⟩
    · rw [hbloom, hsame t h1 ht]
      exact hi.bloomed t h1 hmin ht
    · omega
  · intro g file i d hg
    rcases hstorage with ⟨hfiles, -⟩ | ⟨-, hnone⟩
    · rw [hfiles] at hg
      exact hi.file_tid g file i d hg
    · rw [hnone] at hg
      cases hg

theorem Closed.setTable {t : Nat} (hc : Closed s h) (h1 : 0 < t) (ht : t ≤ s.saved)
    {d : LogIdxTableData} (hd : DataRep cfg d t (tableEntries h t)) :
    Closed (s.setTable (cfg.slotOf t) ⟨memTblSegNum, .flushed, d⟩) h := by
  refine ⟨fun m => ?_⟩
  by_cases heq : m = cfg.slotOf t
  · subst heq
    rw [setTable_memTable_self]
    exact .inr ⟨rfl, t, h1, ht, rfl, hd⟩
  · rw [setTable_memTable_of_ne _ _ heq]
    exact hc.state m

/-- The loop loads saved tables, the newest of them for good, and touches no
slot of another table. -/
theorem RingInv.loadTables (hi : RingInv s h) (startLsn : Nat) {minTid : Nat} (hpos : 0 < minTid)
    (hmin : s.minTid ≤ minTid) :
    ∀ {tid : Nat} {s1 : Snapshot cfg}, Closed s1 h → s1.files = s.files →
    s1.logMeta = s.logMeta → tid ≤ s.saved →
    ∃ s2, loadTables startLsn minTid tid s1 = some s2 ∧ Closed s2 h ∧
      s2 = { s1 with memTable := s2.memTable } ∧
      (∀ m, (∀ t, minTid ≤ t → t ≤ tid → cfg.slotOf t ≠ m) → s2.memTable m = s1.memTable m) ∧
      (minTid ≤ tid → tid < minTid + cfg.memTblSize →
        (s2.memTable (cfg.slotOf tid)).state = .flushed ∧
          (s2.memTable (cfg.slotOf tid)).data.idxTableId = tid)
  | 0, s1, hc, _, _, _ =>
    ⟨s1, rfl, hc, rfl, fun _ _ => rfl, fun h0 => absurd hpos (Nat.not_lt.mpr h0)⟩
  | tid + 1, s1, hc, hfiles, hmeta, hle => by
    rw [LogIndex.loadTables]
    split
    · next hge =>
      obtain ⟨d, hread, hd⟩ := hi.stored (tid + 1) (Nat.succ_pos tid) (hmin.trans hge) hle
      have hread1 : readTableData s1 (tid + 1) = some d := by
        rwa [readTableData, hfiles]
      rw [hread1]
      simp only
      have hc1 := hc.setTable (Nat.succ_pos tid)
        (hle.trans_eq (congrArg (·.maxIdxTableId) hmeta).symm) hd
      have hself : (s1.setTable (cfg.slotOf (tid + 1)) ⟨memTblSegNum, .flushed, d⟩).memTable
          (cfg.slotOf (tid + 1)) = ⟨memTblSegNum, .flushed, d⟩ := setTable_memTable_self ..
      have hstay : ∀ m, (∀ t, minTid ≤ t → t ≤ tid + 1 → cfg.slotOf t ≠ m) →
          (s1.setTable (cfg.slotOf (tid + 1)) ⟨memTblSegNum, .flushed, d⟩).memTable m =
            s1.memTable m := fun m hm =>
        setTable_memTable_of_ne _ _ (hm (tid + 1) hge le_rfl).symm
      split
      · exact ⟨_, rfl, hc1, rfl, hstay, fun _ _ => by rw [hself]; exact ⟨rfl, hd.1⟩⟩
      · obtain ⟨s2, hload, hc2, hframe, hother, -⟩ :=
          RingInv.loadTables hi startLsn hpos hmin hc1 hfiles hmeta (show tid ≤ _ by omega)
        refine ⟨s2, hload, hc2, hframe, fun m hm => ?_, fun _ hring => ?_⟩
        · rw [hother m fun t ht ht' => hm t ht (by omega)]
          exact hstay m hm
        · rw [hother _ fun t ht ht' => slotOf_ne (by omega) (by omega) (by omega), hself]
          exact ⟨rfl, hd.1⟩
    · next hlt => exact ⟨s1, rfl, hc, rfl, fun _ _ => rfl, fun hge => absurd hge hlt⟩

theorem RingInv.meta_of_not_written (hi : RingInv s h) (hw : s.logMeta.written = false) :
    s.logMeta = zeroMeta := by
  have h0 : s.saved = 0 := by
    by_contra h0
    rw [hi.metaOk.written (Nat.pos_of_ne_zero h0)] at hw
    cases hw
  obtain ⟨hmax, hstart, hseg⟩ := hi.metaOk.zero h0
  rw [LogIndexMeta.mk.injEq]
  exact ⟨h0, hseg, hstart, hmax, hw⟩

/-- The tables to load are saved, and there are not more of them than
slots. -/
theorem MetaOk.minLoadTid (cfg : Config) {m : LogIndexMeta} (hk : MetaOk m h)
    (hpos : 0 < m.maxIdxTableId) :
    0 < minLoadTid cfg m ∧ m.minSegmentInfo.minIdxTableId ≤ minLoadTid cfg m ∧
      minLoadTid cfg m ≤ m.maxIdxTableId ∧ m.maxIdxTableId < minLoadTid cfg m + cfg.memTblSize := by
  have hmin := hk.min_tid hpos
  have hseg := hk.min_seg hpos
  have hle : m.minSegmentInfo.minIdxTableId ≤ m.maxIdxTableId := by
    simp only [segmentNo, tableNumPerFile] at hmin hseg
    omega
  have hM := cfg.memTblSize_pos
  rw [LogIndex.minLoadTid]
  split <;> split <;> omega

structure Restarted (s : Snapshot cfg) (h : Tables) (x : Sys cfg) : Prop where
  inv : SysInv True x (h.take s.saved)
  idle : x.inserter = .idle
  adding : x.snap.adding = false
  logMeta : x.snap.logMeta = s.logMeta
  newest : 0 < s.saved → s.saved < x.snap.maxIdxTableId
  slot : 0 < s.saved →
    (x.snap.memTable (cfg.slotOf s.saved)).state = .flushed ∧
      (x.snap.memTable (cfg.slotOf s.saved)).data.idxTableId =
        s.saved

theorem RingInv.openClosed (hi : RingInv s h) (hc : Closed s h)
    (hmax : s.maxIdxTableId = s.saved) (hnum : tableNum h = s.maxIdxTableId)
    {mid : Nat} (hmid : mid = cfg.slotOf (s.maxIdxTableId + 1)) :
    waitActiveTurn s mid invalidXLogRecPtr false =
        some (newActive (s.setTable mid zeroMemTable) mid invalidXLogRecPtr, true) ∧
      RingInv (newActive (s.setTable mid zeroMemTable) mid invalidXLogRecPtr) h := by
  have hnone : ∀ m, (s.memTable m).state ≠ .active := by
    intro m hm
    have := ((hi.slots m).active hm).1
    omega
  have hst : (s.memTable mid).state = .free ∨ (s.memTable mid).state = .flushed :=
    (hc.state mid).imp (fun hz => by rw [hz]; rfl) fun hf => hf.1
  have hin : (s.memTable mid).state ≠ .inactive := by
    rcases hst with hf | hf <;> rw [hf] <;> decide
  refine ⟨hi.waitActiveTurn_done (if_neg hin) hst, ?_⟩
  have hi' := hi.zeroClosed hst
  subst hmid
  refine hi'.openNext _ ?_ hnum (none_active_zero hnone _)
  exact congrArg (·.state) (setTable_memTable_self ..)

/-- The part of the start behind the zeroed memory. -/
theorem RingInv.loadFromStorage (hi : RingInv s h) (hpos : 0 < s.saved)
    {s1 : Snapshot cfg} (hc : Closed s1 h) (hfiles : s1.files = s.files)
    (hbloom : s1.bloomPages = s.bloomPages) (hmeta : s1.logMeta = s.logMeta) (startLsn : Nat) :
    ∃ s', loadFromStorage s1 startLsn = some s' ∧ RingInv s' (h.take s.saved) ∧
      Settled True s' (h.take s.saved) ∧ s'.adding = s1.adding ∧
      s'.logMeta = s.logMeta ∧ s'.maxIdxTableId = s.saved + 1 ∧
      (s'.memTable (cfg.slotOf s.saved)).state = .flushed ∧
      (s'.memTable (cfg.slotOf s.saved)).data.idxTableId = s.saved := by
  obtain ⟨hmin0, hmin, hminle, hring⟩ := hi.metaOk.minLoadTid cfg hpos
  obtain ⟨s2, hload, hc2, hframe, -, hnewest⟩ :=
    hi.loadTables startLsn hmin0 hmin hc hfiles hmeta le_rfl
  have hnum : tableNum (h.take s.saved) = s.saved := List.length_take_of_le hi.saved_le
  generalize hs3 : ({ s2 with
      maxIdxTableId := s.saved
      maxLsn := (s2.memTable (cfg.slotOf s.saved)).data.maxLsn
      activeTable := s.saved % cfg.memTblSize } : Snapshot cfg) = s3
  have hmeta3 : s3.logMeta = s.logMeta := by rw [← hs3, hframe]; exact hmeta
  have hN3 : s3.saved = s.saved := congrArg (·.maxIdxTableId) hmeta3
  have hmax3 : s3.maxIdxTableId = s.saved := by rw [← hs3]
  have hmem3 : s3.memTable = s2.memTable := by rw [← hs3]
  have hc3 : Closed s3 h := by rw [← hs3]; exact ⟨hc2.state⟩
  have hi3 : RingInv s3 (h.take s.saved) := by
    refine hi.ofClosed hc3 hmeta3 (.inl ⟨?_, ?_⟩) hmax3
    · rwa [← hs3, hframe]
    · rwa [← hs3, hframe]
  have hc3' : Closed s3 (h.take s.saved) := by
    refine ⟨fun m => (hc3.state m).imp_right fun ⟨hf, t, h1, ht, hslot, hd⟩ =>
      ⟨hf, t, h1, ht, hslot, ?_⟩⟩
    rwa [tableEntries_take h h1 (hN3 ▸ ht)]
  obtain ⟨hturn, hi4⟩ := hi3.openClosed hc3' (by rw [hmax3, hN3]) (by rw [hmax3, hnum])
    (show cfg.slotOf (s.saved + 1) = _ by rw [hmax3])
  have hself : (newActive (s3.setTable (cfg.slotOf (s.saved + 1)) zeroMemTable)
      (cfg.slotOf (s.saved + 1)) invalidXLogRecPtr).memTable (cfg.slotOf (s.saved + 1)) =
      memTblNewActive _ _ invalidXLogRecPtr := setTable_memTable_self ..
  have hact3 : s3.activeTable = cfg.slotOf (s.saved + 1) := by
    rw [← hs3]
    rfl
  refine ⟨_, ?_, hi4, ⟨?_, fun _ => ?_, fun _ => ⟨trivial, ?_⟩⟩, ?_, hmeta3, ?_, ?_⟩
  · have hne : s.logMeta.maxIdxTableId ≠ tableInvalidId := hpos.ne'
    rw [LogIndex.loadFromStorage, hmeta, if_neg hne, if_pos hminle, hload]
    simp only [hs3]
    change waitActiveTurn s3 (s.logMeta.maxIdxTableId % _) _ _ = _ at hturn
    rw [hturn]
  · show s3.activeTable = cfg.slotOf (s3.maxIdxTableId + 1)
    rw [hact3, hmax3]
  · show (Snapshot.memTable _ s3.activeTable).state = .active
    rw [hact3, hself]
    rfl
  · show (Snapshot.memTable _ s3.activeTable).data.prefixLsn = 0
    rw [hact3, hself]
    rfl
  · show s3.adding = s1.adding
    rw [← hs3, hframe]
  · show s3.maxIdxTableId + 1 = _
    rw [hmax3]
  · have hM := cfg.three_le
    have hne : cfg.slotOf s.saved ≠ cfg.slotOf (s.saved + 1) :=
      slotOf_ne hpos (Nat.lt_succ_self _) (by omega)
    have hother : (newActive (s3.setTable (cfg.slotOf (s.saved + 1)) zeroMemTable)
        (cfg.slotOf (s.saved + 1)) invalidXLogRecPtr).memTable (cfg.slotOf s.saved) =
        s2.memTable (cfg.slotOf s.saved) := by
      rw [← hmem3]
      exact (setTable_memTable_of_ne _ _ hne).trans (setTable_memTable_of_ne _ _ hne)
    rw [hother]
    exact hnewest hminle hring

theorem loadFromStorage_empty {startLsn : Nat} (h0 : s.saved = tableInvalidId) :
    loadFromStorage s startLsn = some s := if_pos h0

/-- Every start on the storage of a run succeeds. -/
theorem RingInv.snapshotInit (hi : RingInv s h) (checkpointLsn : Nat) :
    ∃ x start, snapshotInit s checkpointLsn = some (x, start) ∧ Restarted s h x := by
  have hmeta : (if s.logMeta.written = true then s.logMeta else zeroMeta) = s.logMeta := by
    split
    · rfl
    · rename_i hw
      exact (hi.meta_of_not_written (Bool.eq_false_iff.mpr hw)).symm
  have hzero : ∀ (a b : Nat) (files : Nat → Option SegFile) bloomPages, Closed
      ({ memTable := fun _ => zeroMemTable, maxLsn := a, activeTable := b,
         maxIdxTableId := s.saved, logMeta := s.logMeta, maxAllocatedSegNo := 0,
         adding := false, files := files, bloomPages := bloomPages } : Snapshot cfg) h :=
    fun _ _ _ _ => ⟨fun _ => .inl rfl⟩
  rw [LogIndex.snapshotInit]
  simp only [hmeta]
  by_cases hpos : 0 < s.saved
  · have hw := hi.metaOk.written hpos
    simp only [hw, if_true]
    obtain ⟨s', hload, hi', hset, hadd, hmeta', hT, hslot⟩ :=
      hi.loadFromStorage hpos (hzero _ _ s.files s.bloomPages) rfl rfl rfl checkpointLsn
    rw [hload]
    refine ⟨_, _, rfl, ⟨hi', hset, fun _ => cacheOk_empty .., fun _ => rfl, ?_, ?_⟩, rfl, hadd,
      hmeta', fun _ => by simp only [hT]; exact Nat.lt_succ_self _, fun _ => hslot⟩
    · simp [InsertPc.pending]
    · simpa [InsertPc.pending] using hi'.sorted
  · have h0 : s.saved = 0 := by omega
    rw [loadFromStorage_empty (by exact h0)]
    have hi' := hi.ofClosed (hzero s.logMeta.maxLsn (s.saved % cfg.memTblSize)
      (if s.logMeta.written = true then s.files else fun _ => none)
      (if s.logMeta.written = true then s.bloomPages else fun _ => none)) rfl (by
        by_cases hw : s.logMeta.written = true
        · exact .inl ⟨if_pos hw, if_pos hw⟩
        · exact .inr ⟨h0, if_neg hw⟩) rfl
    refine ⟨_, _, rfl, ⟨hi', ⟨?_, fun hp => ?_, fun hlt => ?_⟩, fun _ => cacheOk_empty ..,
      fun _ => rfl, ?_, ?_⟩, rfl, rfl, rfl, fun hp => absurd hp hpos, fun hp => absurd hp hpos⟩
    · simp only [h0]
      rfl
    · exact absurd hp hpos
    · simp only [h0] at hlt
      cases hlt
    · simp [InsertPc.pending]
    · simpa [InsertPc.pending] using hi'.sorted

end PolarDB.LogIndex
