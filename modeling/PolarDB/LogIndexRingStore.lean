import Mathlib.Data.List.MinMax
import PolarDB.LogIndexRingInv

/-!
# Saving and reading logindex tables

The storage side of the ring invariant. `log_index_write_table` writes a
table only if its id is the next to be saved, so it touches one file
position and at most two bloom entries, none of which belongs to a saved
table; a table that is still ACTIVE is written without moving the meta
data and nothing else changes (`RingInv.write`).

`log_index_read_table` finds every saved table of a kept segment
(`RingInv.read`): in its ring slot, in the reader's cache of one segment
file, or in that file. The cache of a reader may be old, but it only
holds tables that were saved when it was filled (`CacheOk`), and those do
not change any more.
-/

namespace PolarDB.LogIndex

open Function List Option

variable {cfg : Config} {s s' : Snapshot cfg} {h : Tables}

/-! ## LSN ranges of tables -/

theorem le_entriesMaxLsn {es : List LogIndexLsn} {e : LogIndexLsn} (he : e ∈ es) :
    e.lsn ≤ entriesMaxLsn es :=
  (entriesMaxLsn_le_iff es _).mp le_rfl e he

theorem exists_entriesMaxLsn {es : List LogIndexLsn} (hne : es ≠ []) :
    ∃ e ∈ es, e.lsn = entriesMaxLsn es := by
  obtain ⟨e, he⟩ := ne_none_iff_exists'.mp (mt (argmax_eq_none (f := (·.lsn))).mp hne)
  exact ⟨e, argmax_mem he, le_antisymm (le_entriesMaxLsn (argmax_mem he))
    ((entriesMaxLsn_le_iff es _).mpr fun e' he' => le_of_mem_argmax he' he)⟩

variable {mid t t' : Nat} {d : LogIdxTableData} {file : SegFile} {c : TableCache}
  {b : LogFileTableBloom cfg.bloom}

theorem entriesMaxLsn_mono (hs : LsnSorted h.flatten) (hne : ∀ es ∈ h, es ≠ [])
    (h1 : 0 < t) (hle : t ≤ t') (ht' : t' ≤ tableNum h) :
    entriesMaxLsn (tableEntries h t) ≤ entriesMaxLsn (tableEntries h t') := by
  rcases Nat.lt_or_eq_of_le hle with hlt | rfl
  · obtain ⟨e', he', heq⟩ := exists_entriesMaxLsn (hne _ (tableEntries_mem (by omega) ht'))
    rw [← heq, entriesMaxLsn_le_iff]
    exact fun e he => hs.tableEntries_le h1 hlt he he'
  · exact le_rfl

theorem RingInv.lsn_le_table (hi : RingInv s h) (ht : t ≤ tableNum h) :
    ∀ e ∈ (h.take t).flatten, e.lsn ≤ entriesMaxLsn (tableEntries h t) := by
  intro e he
  obtain ⟨t', h1, ht', he⟩ := mem_take_flatten.mp he
  exact (le_entriesMaxLsn he).trans (entriesMaxLsn_mono hi.sorted hi.nonempty h1 ht' ht)

theorem RingInv.entriesMaxLsn_pos (hi : RingInv s h) (h1 : 0 < t)
    (ht : t ≤ tableNum h) : 0 < entriesMaxLsn (tableEntries h t) := by
  obtain ⟨e, he, heq⟩ := exists_entriesMaxLsn (hi.nonempty _ (tableEntries_mem h1 ht))
  rw [← heq]
  exact (hi.valid e ((tableEntries_sublist h t).subset he)).1

/-! ## One file position -/

theorem readTableData_eq_some : readTableData s t = some d ↔
      ∃ file, s.files (segmentNo t) = some file ∧ file (segmentOffset t) = some d := by
  unfold readTableData
  cases s.files (segmentNo t) <;> simp

theorem openTableFile_eq_some (hopen : openTableFile s t = some file) :
    s.files (segmentNo t) = some file ∨ s.files (segmentNo t) = none ∧ file = fun _ => none := by
  unfold openTableFile at hopen
  cases hf : s.files (segmentNo t) with
  | some f =>
    rw [hf] at hopen
    exact .inl hopen
  | none =>
    rw [hf] at hopen
    exact .inr ⟨rfl, (some.inj (ite_none_right_eq_some.mp hopen).2).symm⟩

/-- The effect of `log_index_write_table_data` on the snapshot: the table in
its file, and its bloom data. -/
def Snapshot.wrote (s : Snapshot cfg) (t : Nat) (d : LogIdxTableData)
    (b : LogFileTableBloom cfg.bloom) (file : SegFile) : Snapshot cfg :=
  { s with
    files := update s.files (segmentNo t) (some (update file (segmentOffset t) (some d)))
    bloomPages := (saveBloom s t b).bloomPages }

theorem readTableData_wrote (h1 : 0 < t) (h1' : 0 < t') (hne : t ≠ t')
    (hopen : openTableFile s t' = some file) :
    readTableData (s.wrote t' d b file) t = readTableData s t := by
  unfold readTableData Snapshot.wrote
  by_cases hseg : segmentNo t = segmentNo t'
  · have hoff : segmentOffset t ≠ segmentOffset t' := fun hoff => hne (by
      rw [segment_eq h1, segment_eq h1', hseg, hoff])
    simp only [hseg, update_self, update_of_ne hoff]
    rcases openTableFile_eq_some hopen with hf | ⟨hf, rfl⟩ <;> rw [hf]
  · simp only [update_of_ne hseg]

theorem readTableData_wrote_self : readTableData (s.wrote t d b file) t = some d := by
  simp [readTableData, Snapshot.wrote]

/-! ## Saving -/

theorem saveBloom_eq (s : Snapshot cfg) (tid : Nat) (b : LogFileTableBloom cfg.bloom) :
    saveBloom s tid b = { s with bloomPages := (saveBloom s tid b).bloomPages } := by
  unfold saveBloom; split <;> rfl

theorem saveBloom_bloomPages_self : (saveBloom s t b).bloomPages t = some b := by
  unfold saveBloom; split <;> exact update_self ..

theorem saveBloom_bloomPages_of_lt (ht : t < t') :
    (saveBloom s t' b).bloomPages t = s.bloomPages t := by
  unfold saveBloom
  split
  · exact (update_of_ne (by omega) ..).trans (update_of_ne (by omega) ..)
  · exact update_of_ne (by omega) ..

theorem writeTableData_eq (htid : (s.memTable mid).data.idxTableId = t)
    (hmin : (getBloomData cfg.bloom (s.memTable mid).data t).minLsn = (s.memTable mid).data.minLsn)
    (hmax : (getBloomData cfg.bloom (s.memTable mid).data t).maxLsn = (s.memTable mid).data.maxLsn)
    (hw : writeTableData s mid = some s') :
    ∃ file, openTableFile s t = some file ∧ s' = s.wrote t (s.memTable mid).data
      (getBloomData cfg.bloom (s.memTable mid).data t) file := by
  subst htid
  simp only [writeTableData, hmin, hmax] at hw
  split at hw
  · cases hw
  · rename_i file hopen
    refine ⟨file, hopen, (some.inj hw).symm.trans ?_⟩
    rw [saveBloom_eq, Snapshot.setTable]
    simp only [update_eq_self, Snapshot.wrote]

/-- An open table is written as it is: the bloom data finds the LSN range
that the table already has. -/
theorem RingInv.writeData (hi : RingInv s h) (ht : s.saved < t)
    (ht' : t ≤ s.maxIdxTableId) (hw : writeTableData s (cfg.slotOf t) = some s') :
    ∃ b file, BloomRep b t (tableEntries h t) ∧ openTableFile s t = some file ∧
      s' = s.wrote t (s.memTable (cfg.slotOf t)).data b file := by
  obtain ⟨htid, lay, hrep⟩ := (hi.opened t ht ht').1
  obtain ⟨hid, hmin, hmax, hlack⟩ :=
    hrep.getBloomData cfg.bloom cfg.hashPage_lt (hi.sorted.tableEntries t) t
  obtain ⟨file, hwrote⟩ := writeTableData_eq htid hmin hmax hw
  exact ⟨_, file, ⟨hid, hmin.trans hrep.min_eq, hmax.trans hrep.max_eq, hlack⟩, hwrote⟩

/-- Writing the next table to be saved touches no saved table. -/
theorem RingInv.wrote (hi : RingInv s h) (hopen : openTableFile s (s.saved + 1) = some file)
    (htid : d.idxTableId = s.saved + 1) :
    RingInv (s.wrote (s.saved + 1) d b file) h := by
  refine { hi with
    stored := fun t h1 hmin ht => ?_
    bloomed := fun t h1 hmin ht => ?_
    file_tid := ?_ }
  · have hlt : t < s.saved + 1 := Nat.lt_succ_of_le ht
    rw [readTableData_wrote h1 (Nat.succ_pos _) hlt.ne hopen]
    exact hi.stored t h1 hmin ht
  · obtain ⟨b', hb, hrep⟩ := hi.bloomed t h1 hmin ht
    exact ⟨b', (saveBloom_bloomPages_of_lt (Nat.lt_succ_of_le ht)).trans hb, hrep⟩
  · intro g f i d' hg hd' hlt
    change update s.files _ _ g = some f at hg
    by_cases hgs : g = segmentNo (s.saved + 1)
    · subst hgs
      rw [update_self] at hg
      cases hg
      by_cases hoff : i = segmentOffset (s.saved + 1)
      · subst hoff
        rw [update_self] at hd'
        obtain rfl := some.inj hd'
        exact .inl (htid.trans (segment_eq (Nat.succ_pos _)))
      · rw [update_of_ne hoff] at hd'
        rcases openTableFile_eq_some hopen with hf | ⟨-, rfl⟩
        · exact hi.file_tid _ _ i d' hf hd' hlt
        · cases hd'
    · rw [update_of_ne hgs] at hg
      exact hi.file_tid g f i d' hg hd' hlt

theorem segmentNo_mono (hle : t ≤ t') : segmentNo t ≤ segmentNo t' :=
  Nat.div_le_div_right (by omega)

theorem metaAddTable_segmentNo (m : LogIndexMeta) (tid maxLsn : Nat) :
    (metaAddTable m tid maxLsn).minSegmentInfo.segmentNo =
      min m.minSegmentInfo.segmentNo (segmentNo tid) := by
  simp only [metaAddTable]
  split <;> rfl

theorem MetaOk.segmentNo_min {m : LogIndexMeta} (hk : MetaOk m h) :
    min m.minSegmentInfo.segmentNo (segmentNo (m.maxIdxTableId + 1)) =
      m.minSegmentInfo.segmentNo := by
  refine Nat.min_eq_left ?_
  by_cases h0 : m.maxIdxTableId = 0
  · rw [(hk.zero h0).2.2]
    exact Nat.zero_le _
  · exact (hk.min_seg (by omega)).trans (segmentNo_mono (Nat.le_succ _))

theorem MetaOk.addTable {m : LogIndexMeta} (hk : MetaOk m h) (hs : LsnSorted h.flatten)
    (hne : ∀ es ∈ h, es ≠ []) (hle : m.maxIdxTableId + 1 ≤ tableNum h) :
    MetaOk { metaAddTable m (m.maxIdxTableId + 1)
        (entriesMaxLsn (tableEntries h (m.maxIdxTableId + 1))) with
      startLsn := max m.maxLsn (entriesMaxLsn (tableEntries h (m.maxIdxTableId + 1)))
      written := true } h := by
  have hmax : m.maxLsn ≤ entriesMaxLsn (tableEntries h (m.maxIdxTableId + 1)) := by
    by_cases h0 : m.maxIdxTableId = 0
    · rw [(hk.zero h0).1]; exact Nat.zero_le _
    · rw [hk.max_lsn (by omega)]
      exact entriesMaxLsn_mono hs hne (by omega) (Nat.le_succ _) hle
  have hmaxTid : max m.maxIdxTableId (m.maxIdxTableId + 1) = m.maxIdxTableId + 1 := by omega
  have hmin := hk.segmentNo_min
  have hsegle : m.minSegmentInfo.segmentNo ≤ segmentNo (m.maxIdxTableId + 1) := by omega
  have hself := segment_eq (show 0 < m.maxIdxTableId + 1 by omega)
  have hoff := segmentOffset_lt (m.maxIdxTableId + 1)
  simp only [metaAddTable, hmaxTid, hmin, Nat.max_eq_right hmax]
  by_cases hseg : m.minSegmentInfo.segmentNo = segmentNo (m.maxIdxTableId + 1)
  · simp only [hseg]
    have hmaxIdx : max (m.maxIdxTableId + 1) m.minSegmentInfo.maxIdxTableId =
        m.maxIdxTableId + 1 := by
      by_cases h0 : m.maxIdxTableId = 0
      · rw [(hk.zero h0).2.2]; simp
      · rw [hk.min_max_tid (by omega)]; omega
    have hmaxLsn : max (entriesMaxLsn (tableEntries h (m.maxIdxTableId + 1)))
        m.minSegmentInfo.maxLsn = entriesMaxLsn (tableEntries h (m.maxIdxTableId + 1)) := by
      refine Nat.max_eq_left ?_
      by_cases h0 : m.maxIdxTableId = 0
      · rw [(hk.zero h0).2.2]; exact Nat.zero_le _
      · have hmx := hk.min_max_tid (by omega)
        rw [hk.min_max_lsn (by omega)]
        refine entriesMaxLsn_mono hs hne ?_ ?_ hle
        · rw [hmx]; simp only [tableNumPerFile]; omega
        · rw [hmx]; omega
    simp only [hmaxIdx, hmaxLsn]
    refine ⟨fun h0 => absurd h0 (Nat.succ_ne_zero _), fun _ => rfl, fun _ => rfl, fun _ => rfl,
      fun _ => rfl, fun _ => le_rfl, fun _ => ?_, fun _ => rfl⟩
    show m.maxIdxTableId + 1 =
      min (m.maxIdxTableId + 1) ((segmentNo (m.maxIdxTableId + 1) + 1) * tableNumPerFile)
    simp only [tableNumPerFile] at hself hoff ⊢
    omega
  · have h0 : 0 < m.maxIdxTableId := by
      by_contra h0
      have h0 : m.maxIdxTableId = 0 := by omega
      rw [(hk.zero h0).2.2, h0] at hseg
      exact hseg rfl
    simp only [if_neg hseg]
    refine ⟨fun h0 => absurd h0 (Nat.succ_ne_zero _), fun _ => rfl, fun _ => rfl, fun _ => rfl,
      fun _ => hk.min_tid h0, fun _ => hsegle, fun _ => ?_, fun _ => hk.min_max_lsn h0⟩
    have hmx := hk.min_max_tid h0
    show m.minSegmentInfo.maxIdxTableId =
      min (m.maxIdxTableId + 1) ((m.minSegmentInfo.segmentNo + 1) * tableNumPerFile)
    simp only [tableNumPerFile] at hself hoff hmx ⊢
    omega

theorem RingInv.le_tableNum (hi : RingInv s h) (hle : t ≤ s.maxIdxTableId)
    (hst : (s.memTable (cfg.slotOf t)).state ≠ .active) : t ≤ tableNum h := by
  by_contra hgt
  have hlast : t = s.maxIdxTableId := by
    have := hi.le_num
    omega
  rw [hlast] at hst
  exact hst (hi.empty (by omega))

/-- The slot of the next table `t` becomes FLUSHED, and the meta data count
the table. -/
theorem RingInv.count (hi : RingInv s h) (ht : t = s.saved + 1)
    (hle : t ≤ s.maxIdxTableId) (hst : (s.memTable (cfg.slotOf t)).state = .inactive)
    (hread : readTableData s t = some (s.memTable (cfg.slotOf t)).data)
    (hbloom : ∃ b, s.bloomPages t = some b ∧ BloomRep b t (tableEntries h t))
    {m : LogIndexMeta} (hN : m.maxIdxTableId = t) (hk : MetaOk m h)
    (hseg : m.minSegmentInfo.segmentNo = s.logMeta.minSegmentInfo.segmentNo) :
    RingInv ({ s with logMeta := m }.setState (cfg.slotOf t) .flushed) h := by
  subst hN
  have hnext : s.saved < m.maxIdxTableId := ht ▸ Nat.lt_succ_self _
  have hpos := Nat.zero_lt_of_lt hnext
  obtain ⟨htid, lay, htbl⟩ := (hi.opened _ hnext hle).1
  have hslots : ∀ i ≠ cfg.slotOf m.maxIdxTableId,
      SlotOk cfg m.maxIdxTableId s.maxIdxTableId h i (s.memTable i) := by
    refine fun i hne => { hi.slots i with
      active := fun hst => ?_
      inactive := fun hst => ?_
      flushed := fun hst => ?_ }
    · obtain ⟨-, hnewest⟩ := (hi.slots i).active hst
      exact ⟨hle.lt_of_ne fun h => hne (h ▸ hnewest), hnewest⟩
    · obtain ⟨t', ht', hle', rfl⟩ := (hi.slots i).inactive hst
      exact ⟨t', Nat.lt_of_le_of_ne (by omega) fun h => hne (h ▸ rfl), hle', rfl⟩
    · obtain ⟨t', h1, ht', hslot, hd⟩ := (hi.slots i).flushed hst
      exact ⟨t', h1, by omega, hslot, hd⟩
  have hkept : ∀ t, 0 < t → m.minSegmentInfo.minIdxTableId ≤ t → t < m.maxIdxTableId →
      s.minTid ≤ t := by
    intro t h1 hmin hlt
    rwa [hk.min_tid (by omega), hseg, ← hi.metaOk.min_tid (show 0 < s.saved by omega)] at hmin
  refine { hi with
    saved_le := hi.le_tableNum hle (hst ▸ nofun)
    ring := hi.ring.trans (Nat.add_le_add_right hnext.le _)
    opened := fun t ht' hle' => ?_
    empty := fun hlt => ?_
    slots := slots_setTable (.closed (.inr ⟨rfl, _, hpos, le_rfl, rfl, htid, _, lay, htbl⟩)) hslots
    metaOk := hk
    stored := fun t h1 hmin ht' => ?_
    bloomed := fun t h1 hmin ht' => ?_ }
  · have hlt : m.maxIdxTableId < t := ht'
    rw [Snapshot.setState, setTable_memTable_of_ne _ _
      (hi.slot_ne (hnext.trans hlt) hle' hnext hle hlt.ne')]
    exact hi.opened t (hnext.trans hlt) hle'
  · have hact := hi.empty hlt
    have hne : cfg.slotOf s.maxIdxTableId ≠ cfg.slotOf m.maxIdxTableId := by
      intro heq
      rw [heq, hst] at hact
      cases hact
    exact (congrArg (·.state) (setTable_memTable_of_ne _ _ hne)).trans hact
  · rcases Nat.lt_or_eq_of_le ht' with hlt | rfl
    · exact hi.stored t h1 (hkept t h1 hmin hlt) (Nat.le_of_lt_succ (hlt.trans_eq ht))
    · exact ⟨_, hread, htid, _, lay, htbl⟩
  · rcases Nat.lt_or_eq_of_le ht' with hlt | rfl
    · exact hi.bloomed t h1 (hkept t h1 hmin hlt) (Nat.le_of_lt_succ (hlt.trans_eq ht))
    · exact hbloom

theorem RingInv.save (hi : RingInv s h) (hlt : s.saved < s.maxIdxTableId)
    (hst : (s.memTable (cfg.slotOf (s.saved + 1))).state = .inactive)
    (hread : readTableData s (s.saved + 1) = some (s.memTable (cfg.slotOf (s.saved + 1))).data)
    (hbloom : ∃ b, s.bloomPages (s.saved + 1) = some b ∧ BloomRep b (s.saved + 1)
        (tableEntries h (s.saved + 1))) :
    RingInv ((writeMeta s (metaAddTable s.logMeta (s.saved + 1)
      (s.memTable (cfg.slotOf (s.saved + 1))).data.maxLsn)).setState
        (cfg.slotOf (s.saved + 1)) .flushed) h := by
  obtain ⟨-, lay, htbl⟩ := (hi.opened _ (Nat.lt_succ_self _) hlt).1
  have hnum := hi.le_tableNum hlt (hst ▸ nofun)
  have hpos := hi.entriesMaxLsn_pos (Nat.succ_pos _) hnum
  have hne : (metaAddTable s.logMeta (s.saved + 1)
      (entriesMaxLsn (tableEntries h (s.saved + 1)))).maxLsn ≠ invalidXLogRecPtr :=
    (hpos.trans_le (Nat.le_max_right ..)).ne'
  rw [htbl.max_eq]
  refine hi.count rfl hlt hst hread hbloom (Nat.max_eq_right (Nat.le_succ _)) ?_
    ((metaAddTable_segmentNo ..).trans hi.metaOk.segmentNo_min)
  show MetaOk (writeMeta s _).logMeta h
  rw [writeMeta, if_pos hne]
  exact hi.metaOk.addTable hi.sorted hi.nonempty hnum

/-- What saving a slot leaves: only the state of the slot may change, from
INACTIVE to FLUSHED. -/
structure SaveEffect (s s' : Snapshot cfg) (mid : Nat) : Prop where
  maxIdxTableId : s'.maxIdxTableId = s.maxIdxTableId
  activeTable : s'.activeTable = s.activeTable
  adding : s'.adding = s.adding
  saved_le : s.saved ≤ s'.saved
  min_seg : s'.logMeta.minSegmentInfo.segmentNo = s.logMeta.minSegmentInfo.segmentNo
  other : ∀ m, m ≠ mid → s'.memTable m = s.memTable m
  slot : s'.memTable mid = s.memTable mid ∨ ((s.memTable mid).state = .inactive ∧
    s'.memTable mid = { s.memTable mid with state := .flushed })

theorem SaveEffect.refl (s : Snapshot cfg) (mid : Nat) : SaveEffect s s mid :=
  ⟨rfl, rfl, rfl, le_rfl, rfl, fun _ _ => rfl, .inl rfl⟩

theorem RingInv.write (hi : RingInv s h) {ok : Bool}
    (hst : (s.memTable mid).state = .active ∨ (s.memTable mid).state = .inactive)
    (hw : writeTable s mid = some (s', ok)) :
    RingInv s' h ∧ SaveEffect s s' mid ∧
      (ok = true → (s'.memTable mid).state ≠ .inactive) := by
  obtain ⟨t, ht, ht', rfl, hslot⟩ := hi.tid_of_open hst
  rw [writeTable, hslot.1] at hw
  split at hw
  · rename_i hnext
    subst hnext
    split at hw
    · cases hw
    · rename_i s1 hw1
      obtain ⟨b, file, hbloom, hopen, rfl⟩ := hi.writeData ht ht' hw1
      have hi1 := hi.wrote (b := b) hopen hslot.1
      split at hw
      · rename_i hact
        cases hw
        exact ⟨hi1, ⟨rfl, rfl, rfl, le_rfl, rfl, fun _ _ => rfl, .inl rfl⟩,
          fun _ hin => nomatch hin.symm.trans hact⟩
      · rename_i hact
        have hin := hst.resolve_left hact
        cases hw
        exact ⟨hi1.save ht' hin readTableData_wrote_self ⟨b, saveBloom_bloomPages_self, hbloom⟩,
          ⟨rfl, rfl, rfl, Nat.le_max_left .., (metaAddTable_segmentNo ..).trans
            hi.metaOk.segmentNo_min, fun m hne => setTable_memTable_of_ne _ _ hne,
            .inr ⟨hin, setTable_memTable_self ..⟩⟩,
          fun _ hin => nomatch hin.symm.trans (congrArg (·.state) (setTable_memTable_self ..))⟩
  · cases hw
    exact ⟨hi, SaveEffect.refl .., nofun⟩

theorem RingInv.flush (hi : RingInv s h) {last : Nat} {flushActive flushable : Bool}
    (hw : flushTable s mid flushActive flushable last = some s') :
    RingInv s' h ∧ SaveEffect s s' mid := by
  rw [flushTable] at hw
  split at hw
  · cases hw
    exact ⟨hi, SaveEffect.refl ..⟩
  · split at hw
    · rename_i hcond
      simp only [Bool.and_eq_true, Bool.or_eq_true, decide_eq_true_eq] at hcond
      cases hwt : writeTable s mid with
      | none => rw [hwt] at hw; cases hw
      | some r =>
        obtain ⟨s1, ok⟩ := r
        obtain ⟨hi1, heff, hok⟩ := hi.write hcond.1.symm hwt
        rw [hwt] at hw
        cases ok with
        | false =>
          cases hw
          exact ⟨hi1, heff⟩
        | true =>
          simp only at hw
          split at hw
          · exact absurd ‹_› (hok rfl)
          · cases hw
            exact ⟨hi1, heff⟩
    · cases hw
      exact ⟨hi, SaveEffect.refl ..⟩

theorem RingInv.forceSave (hi : RingInv s h) {flushable : Bool}
    (hst : (s.memTable mid).state = .inactive) (hw : forceSaveTable s mid flushable = some s') :
    RingInv s' h ∧ SaveEffect s s' mid := by
  rw [forceSaveTable] at hw
  split at hw
  · split at hw
    · rename_i s1 hwt
      cases hw
      obtain ⟨hi1, heff, -⟩ := hi.write (.inr hst) hwt
      exact ⟨hi1, heff⟩
    · cases hw
  · cases hw
    exact ⟨hi, SaveEffect.refl ..⟩

/-! ## Reading -/

structure CacheOk (cfg : Config) (c : TableCache) (saved : Nat) (h : Tables) : Prop where
  max_le : c.maxIdxTableId ≤ saved
  data : ∀ t, 0 < t → c.minIdxTableId ≤ t → t ≤ c.maxIdxTableId →
    ∃ d, c.data (t - c.minIdxTableId) = some d ∧ DataRep cfg d t (tableEntries h t)

theorem cacheOk_empty (cfg : Config) (saved : Nat) (h : Tables) : CacheOk cfg emptyCache saved h :=
  ⟨Nat.zero_le _, fun t h1 _ ht => by simp only [emptyCache, tableInvalidId] at ht; omega⟩

theorem CacheOk.mono {saved saved' : Nat} {h' : Tables} (hc : CacheOk cfg c saved h)
    (hle : saved ≤ saved') (hsame : ∀ t, 0 < t → t ≤ saved → tableEntries h' t = tableEntries h t) :
    CacheOk cfg c saved' h' := by
  refine ⟨hc.max_le.trans hle, fun t h1 hmin hmax => ?_⟩
  rw [hsame t h1 (hmax.trans hc.max_le)]
  exact hc.data t h1 hmin hmax

/-- The backward search of `log_index_read_seg_file` passes over tables of
the file's old life and over an active table that was written early. -/
theorem cacheMaxTid_eq {g saved n : Nat} (hn : 0 < n)
    (hsaved : g * tableNumPerFile + n ≤ saved)
    (hown : n < tableNumPerFile → saved = g * tableNumPerFile + n)
    (htop : ∃ d, file (n - 1) = some d ∧ d.idxTableId = g * tableNumPerFile + n)
    (htid : ∀ i d, file i = some d → i < tableNumPerFile →
      d.idxTableId = g * tableNumPerFile + i + 1 ∨ d.idxTableId ≤ g * tableNumPerFile) :
    ∀ k, n ≤ k → k ≤ tableNumPerFile →
      cacheMaxTid file (g * tableNumPerFile + 1) saved k = g * tableNumPerFile + n := by
  intro k hk
  induction k, hk using Nat.le_induction with
  | base =>
    intro _
    obtain ⟨d, hd, hdt⟩ := htop
    obtain ⟨i, rfl⟩ : ∃ i, n = i + 1 := ⟨n - 1, by omega⟩
    rw [Nat.add_sub_cancel] at hd
    rw [cacheMaxTid, hd]
    simp only [hdt]
    rw [if_pos (by omega)]
  | succ k hk ih =>
    intro hle
    have hskip : ∀ d, file k = some d →
        ¬(g * tableNumPerFile + 1 ≤ d.idxTableId ∧ d.idxTableId ≤ saved) := by
      intro d hd hin
      rcases htid k d hd (by omega) with h1 | h1 <;> omega
    rw [cacheMaxTid]
    split
    · rename_i d hd
      rw [if_neg (hskip d hd)]
      exact ih (by omega)
    · exact ih (by omega)

/-- A segment file that is kept and holds a saved table can be loaded. -/
theorem RingInv.readSeg (hi : RingInv s h) {g : Nat}
    (hmin : s.logMeta.minSegmentInfo.segmentNo ≤ g) (hlt : g * tableNumPerFile < s.saved) :
    ∃ c, readSegFile s g = some c ∧ CacheOk cfg c s.saved h ∧
      c.minIdxTableId = g * tableNumPerFile + 1 ∧
      c.maxIdxTableId = min s.saved ((g + 1) * tableNumPerFile) := by
  have hkept : s.minTid ≤ g * tableNumPerFile + 1 := by
    rw [Snapshot.minTid, hi.metaOk.min_tid (Nat.zero_lt_of_lt hlt)]
    exact Nat.succ_le_succ (Nat.mul_le_mul_right _ hmin)
  obtain ⟨n, hn⟩ : ∃ n, min s.saved ((g + 1) * tableNumPerFile) = g * tableNumPerFile + n :=
    Nat.exists_eq_add_of_le (by rw [Nat.succ_mul]; omega)
  rw [Nat.succ_mul] at hn
  have hget : ∀ i < n, ∃ file d, s.files g = some file ∧ file i = some d ∧
      DataRep cfg d (g * tableNumPerFile + i + 1)
        (tableEntries h (g * tableNumPerFile + i + 1)) := by
    intro i hin
    obtain ⟨d, hd, hrep⟩ := hi.stored (g * tableNumPerFile + i + 1) (Nat.succ_pos _) (by omega)
      (by omega)
    obtain ⟨file, hfile, hfd⟩ := readTableData_eq_some.mp hd
    have h64 : i < tableNumPerFile := by omega
    rw [segmentNo, Nat.add_sub_cancel, Nat.mul_comm, Nat.mul_add_div (by decide),
      Nat.div_eq_of_lt h64] at hfile
    rw [segmentOffset, Nat.add_sub_cancel, Nat.mul_add_mod_self_right, Nat.mod_eq_of_lt h64] at hfd
    exact ⟨file, d, hfile, hfd, hrep⟩
  have hn0 : 0 < n := by simp only [tableNumPerFile] at hn hlt; omega
  obtain ⟨file, d0, hfile, hd0, hrep0⟩ := hget 0 hn0
  have hmaxTid : cacheMaxTid file (g * tableNumPerFile + 1) s.saved
      tableNumPerFile = g * tableNumPerFile + n := by
    refine cacheMaxTid_eq hn0 (by omega) (fun hlt => by omega) ?_
      (fun i d hd hlt => hi.file_tid _ _ i d hfile hd hlt) _ (by omega) le_rfl
    obtain ⟨_, d, hf, hd, hrep⟩ := hget (n - 1) (by omega)
    cases hfile.symm.trans hf
    exact ⟨d, hd, by rw [hrep.1]; omega⟩
  refine ⟨⟨g * tableNumPerFile + 1, g * tableNumPerFile + n, file⟩, ?_, ⟨?_, ?_⟩, rfl, ?_⟩
  · rw [readSegFile, hfile]
    simp only [hd0]
    rw [if_neg, hmaxTid]
    rw [hrep0.1]
    change ¬(_ ∨ s.saved < _)
    omega
  · show g * tableNumPerFile + n ≤ _
    omega
  · intro t _ hmin hmax
    simp only at hmin hmax
    obtain ⟨_, d, hf, hd, hrep⟩ := hget (t - (g * tableNumPerFile + 1)) (by omega)
    cases hfile.symm.trans hf
    rw [show g * tableNumPerFile + (t - (g * tableNumPerFile + 1)) + 1 = t by omega] at hrep
    exact ⟨d, hd, hrep⟩
  · rw [Nat.succ_mul]
    exact hn.symm

theorem RingInv.readCache (hi : RingInv s h) (hc : CacheOk cfg c s.saved h) (h1 : 0 < t)
    (hmin : s.minTid ≤ t) (ht : t ≤ s.saved) :
    ∃ d c', readTableCache s c t = some (d, c') ∧ DataRep cfg d t (tableEntries h t) ∧
      CacheOk cfg c' s.saved h := by
  have hfin : ∀ c' : TableCache, CacheOk cfg c' s.saved h →
      c'.minIdxTableId ≤ t → t ≤ c'.maxIdxTableId →
      ∃ d, (if t < c'.minIdxTableId ∨ c'.maxIdxTableId < t then none
        else (c'.data (t - c'.minIdxTableId)).map fun data => (data, c')) = some (d, c') ∧
        DataRep cfg d t (tableEntries h t) := by
    intro c' hc' hle hge
    obtain ⟨d, hd, hrep⟩ := hc'.data t h1 hle hge
    exact ⟨d, by rw [if_neg (by omega), hd]; rfl, hrep⟩
  by_cases hmiss : t < c.minIdxTableId ∨ c.maxIdxTableId < t
  · have hself := segment_eq h1
    have hoff := segmentOffset_lt t
    rw [Snapshot.minTid, hi.metaOk.min_tid (h1.trans_le ht)] at hmin
    simp only [tableNumPerFile] at hself hoff hmin
    obtain ⟨c', hread, hc', hle, hge⟩ := hi.readSeg (g := segmentNo t) (by omega)
      (by simp only [tableNumPerFile]; omega)
    simp only [tableNumPerFile] at hle hge
    obtain ⟨d, hd, hrep⟩ := hfin c' hc' (by omega) (by omega)
    refine ⟨d, c', ?_, hrep, hc'⟩
    rwa [readTableCache, if_pos hmiss, hread]
  · obtain ⟨d, hd, hrep⟩ := hfin c hc (by omega) (by omega)
    refine ⟨d, c, ?_, hrep, hc⟩
    rwa [readTableCache, if_neg hmiss]

structure ReadEffect (s s' : Snapshot cfg) : Prop where
  maxIdxTableId : s'.maxIdxTableId = s.maxIdxTableId
  activeTable : s'.activeTable = s.activeTable
  adding : s'.adding = s.adding
  logMeta : s'.logMeta = s.logMeta
  slot : ∀ m, (s.memTable m).state ≠ .flushed → s'.memTable m = s.memTable m
  state : ∀ m, (s'.memTable m).state = (s.memTable m).state

theorem ReadEffect.refl (s : Snapshot cfg) : ReadEffect s s :=
  ⟨rfl, rfl, rfl, rfl, fun _ _ => rfl, fun _ => rfl⟩

theorem ReadEffect.saved (he : ReadEffect s s') : s'.saved = s.saved :=
  congrArg (·.maxIdxTableId) he.logMeta

theorem ReadEffect.minTid (he : ReadEffect s s') : s'.minTid = s.minTid :=
  congrArg (·.minSegmentInfo.minIdxTableId) he.logMeta

theorem ReadEffect.trans {s'' : Snapshot cfg} (he : ReadEffect s s') (he' : ReadEffect s' s'') :
    ReadEffect s s'' :=
  ⟨he'.maxIdxTableId.trans he.maxIdxTableId, he'.activeTable.trans he.activeTable,
    he'.adding.trans he.adding, he'.logMeta.trans he.logMeta,
    fun m hm => (he'.slot m (by rw [he.state]; exact hm)).trans (he.slot m hm),
    fun m => (he'.state m).trans (he.state m)⟩

/-- `log_index_read_table` returns the entries of every saved table of a
kept segment, whatever the lock attempts give. -/
theorem RingInv.read (hi : RingInv s h) (hc : CacheOk cfg c s.saved h) (h1 : 0 < t)
    (hmin : s.minTid ≤ t) (ht : t ≤ s.saved) (shared exclusive : Bool) :
    ∃ d s' c', readTable s c t shared exclusive = some (d, s', c') ∧
      DataRep cfg d t (tableEntries h t) ∧ RingInv s' h ∧ ReadEffect s s' ∧
      CacheOk cfg c' s.saved h := by
  rw [readTable]
  split
  · rename_i hhit
    simp only [Bool.and_eq_true, decide_eq_true_eq] at hhit
    obtain ⟨t', -, -, -, hrep⟩ := (hi.slots _).flushed hhit.1.2
    obtain rfl : t' = t := hrep.1.symm.trans hhit.2.symm
    exact ⟨_, s, c, rfl, hrep, hi, ReadEffect.refl s, hc⟩
  · obtain ⟨d, c', hread, hrep, hc'⟩ := hi.readCache hc h1 hmin ht
    rw [hread]
    simp only
    split
    · rename_i hrepl
      simp only [Bool.and_eq_true, decide_eq_true_eq] at hrepl
      have hst := hrepl.1.2
      refine ⟨d, _, c', rfl, hrep, hi.setClosed hst (.inr ⟨hst, t, h1, ht, rfl, hrep⟩),
        ⟨rfl, rfl, rfl, rfl, fun m hm => ?_, fun m => ?_⟩, hc'⟩
      · refine setTable_memTable_of_ne _ _ ?_
        rintro rfl
        exact hm hst
      · by_cases heq : m = cfg.slotOf t
        · subst heq
          rw [setTable_memTable_self]
        · rw [setTable_memTable_of_ne _ _ heq]
    · exact ⟨d, s, c', rfl, hrep, hi, ReadEffect.refl s, hc'⟩

theorem cacheMaxTid_le (file : SegFile) (minTid maxSaved : Nat) :
    ∀ k, cacheMaxTid file minTid maxSaved k ≤ maxSaved
  | 0 => Nat.zero_le _
  | k + 1 => by
    have ih := cacheMaxTid_le file minTid maxSaved k
    rw [cacheMaxTid]
    split
    · split
      · rename_i hin
        exact hin.2
      · exact ih
    · exact ih

theorem readSegFile_max_le {g : Nat} (hr : readSegFile s g = some c) :
    c.maxIdxTableId ≤ s.saved := by
  rw [readSegFile] at hr
  split at hr
  · cases hr
  · split at hr
    · cases hr
    · simp only at hr
      split at hr
      · cases hr
      · rw [← some.inj hr]
        exact cacheMaxTid_le ..

theorem RingInv.le_of_read (hi : RingInv s h) (hc : CacheOk cfg c s.saved h)
    {shared exclusive : Bool} (hr : readTable s c t shared exclusive ≠ none) : t ≤ s.saved := by
  by_contra hgt
  refine hr ?_
  rw [readTable, if_neg ?_]
  · have hmiss : t < c.minIdxTableId ∨ c.maxIdxTableId < t := .inr (by have := hc.max_le; omega)
    have hnone : readTableCache s c t = none := by
      rw [readTableCache, if_pos hmiss]
      cases hseg : readSegFile s (segmentNo t) with
      | none => rfl
      | some c' =>
        have := readSegFile_max_le hseg
        exact if_pos (.inr (by omega))
    rw [hnone]
  · intro hhit
    simp only [Bool.and_eq_true, decide_eq_true_eq] at hhit
    obtain ⟨t', -, hle, -, hrep⟩ := (hi.slots _).flushed hhit.1.2
    have := hrep.1
    omega

end PolarDB.LogIndex
