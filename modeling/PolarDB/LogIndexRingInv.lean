import PolarDB.LogIndexRing
import PolarDB.LogIndexCut
import PolarDB.Circular

/-!
# Invariant of the ring of tables

`RingInv s h` relates the shared state of a snapshot to the abstract
tables `h` that its history of added entries has filled:

* tables that are not saved yet are in their ring slot, ACTIVE or
  INACTIVE, with all their entries (`opened`);
* saved tables, from the oldest kept segment on, are in the files with
  all their entries, and so are their bloom data (`stored`, `bloomed`);
* a FLUSHED slot holds some saved table (`flushed`), a FREE slot is
  zeroed (`freed`).

Two lemmas carry the argument. Slots are reused only when the ring has
gone once around, and then the slot's old table is the next to be saved,
unless it is saved already (`RingInv.openNext`). And writing a table
changes nothing about tables with smaller ids (`RingInv.write`).
-/

namespace PolarDB.LogIndex

variable {cfg : Config} {s s' : Snapshot cfg} {h : Tables}

/-! ## Slots and file positions -/

theorem Config.memTblSize_pos (cfg : Config) : 0 < cfg.memTblSize := by
  have := cfg.three_le
  omega

theorem Config.hashPage_lt (cfg : Config) (tag : BufferTag) : cfg.hashPage tag < memTblHashNum :=
  Nat.mod_lt _ (by decide)

theorem slotOf_ne {t t' : Nat} (h1 : 0 < t) (hlt : t < t') (hring : t' < t + cfg.memTblSize) :
    cfg.slotOf t ≠ cfg.slotOf t' :=
  mod_ne_of_lt (by omega) (by omega)

theorem slotOf_add (t : Nat) (h1 : 0 < t) : cfg.slotOf (t + cfg.memTblSize) = cfg.slotOf t := by
  rw [Config.slotOf, Config.slotOf, show t + cfg.memTblSize - 1 = t - 1 + cfg.memTblSize by omega,
    Nat.add_mod_right]

theorem slotOf_succ (t : Nat) (h1 : 0 < t) :
    cfg.slotOf (t + 1) = loopNextValue (cfg.slotOf t) cfg.memTblSize := by
  have hlt : cfg.slotOf t < cfg.memTblSize := Nat.mod_lt _ cfg.memTblSize_pos
  rw [loopNextValue_eq_mod hlt, Config.slotOf, Config.slotOf, Nat.add_sub_cancel,
    Nat.mod_add_mod, Nat.sub_add_cancel h1]

theorem slotOf_pred {t : Nat} (h1 : 0 < t) :
    loopPrevValue (cfg.slotOf (t + 1)) cfg.memTblSize = cfg.slotOf t := by
  obtain ⟨t, rfl⟩ := Nat.exists_eq_add_one.mpr h1
  exact loopPrevValue_mod cfg.memTblSize_pos

theorem segment_eq {t : Nat} (h1 : 0 < t) :
    t = segmentNo t * tableNumPerFile + segmentOffset t + 1 := by
  have := Nat.div_add_mod (t - 1) tableNumPerFile
  rw [segmentNo, segmentOffset, Nat.mul_comm]
  omega

theorem segmentOffset_lt (t : Nat) : segmentOffset t < tableNumPerFile :=
  Nat.mod_lt _ (by decide)

/-! ## The invariant -/

abbrev Snapshot.saved (s : Snapshot cfg) : Nat := s.logMeta.maxIdxTableId

abbrev Snapshot.minTid (s : Snapshot cfg) : Nat := s.logMeta.minSegmentInfo.minIdxTableId

def SlotRep (cfg : Config) (m : LogMemTable) (t : Nat) (es : List LogIndexLsn) : Prop :=
  m.data.idxTableId = t ∧ TblHolds cfg.hashPage m.data m.freeHead es

def DataRep (cfg : Config) (d : LogIdxTableData) (t : Nat) (es : List LogIndexLsn) : Prop :=
  d.idxTableId = t ∧ ∃ free, TblHolds cfg.hashPage d free es

section DataRep

variable {d : LogIdxTableData} {t : Nat} {es : List LogIndexLsn}

section

variable (hd : DataRep cfg d t es)
include hd

theorem DataRep.order_length : d.idxOrder.length = es.length := by
  obtain ⟨-, free, lay, hr⟩ := hd
  exact hr.order_length

theorem DataRep.max_eq : d.maxLsn = entriesMaxLsn es := by
  obtain ⟨-, free, lay, hr⟩ := hd
  exact hr.max_eq

theorem DataRep.min_eq : d.minLsn = entriesMinLsn es := by
  obtain ⟨-, free, lay, hr⟩ := hd
  exact hr.min_eq

theorem DataRep.getOrderLsn (i : Nat) :
    getOrderLsn d i = es[i]?.map fun e => { e with prevLsn := prevLsnAt es i e } := by
  obtain ⟨-, free, lay, hr⟩ := hd
  exact hr.getOrderLsn i

end

end DataRep

structure BloomRep (b : LogFileTableBloom cfg.bloom) (t : Nat) (es : List LogIndexLsn) :
    Prop where
  tid : b.idxTableId = t
  min_eq : b.minLsn = entriesMinLsn es
  max_eq : b.maxLsn = entriesMaxLsn es
  no_lack : ∀ e ∈ es, cfg.bloom.lacksElement b.bloomBytes e.tag = false

/-- The meta data describes the saved tables of `h`. -/
structure MetaOk (m : LogIndexMeta) (h : Tables) : Prop where
  zero : m.maxIdxTableId = 0 →
    m.maxLsn = invalidXLogRecPtr ∧ m.startLsn = invalidXLogRecPtr ∧
      m.minSegmentInfo = ⟨0, 0, 0, 0⟩
  max_lsn : 0 < m.maxIdxTableId → m.maxLsn = entriesMaxLsn (tableEntries h m.maxIdxTableId)
  start_lsn : 0 < m.maxIdxTableId → m.startLsn = m.maxLsn
  written : 0 < m.maxIdxTableId → m.written = true
  min_tid : 0 < m.maxIdxTableId →
    m.minSegmentInfo.minIdxTableId = m.minSegmentInfo.segmentNo * tableNumPerFile + 1
  min_seg : 0 < m.maxIdxTableId → m.minSegmentInfo.segmentNo ≤ segmentNo m.maxIdxTableId
  min_max_tid : 0 < m.maxIdxTableId → m.minSegmentInfo.maxIdxTableId =
    min m.maxIdxTableId ((m.minSegmentInfo.segmentNo + 1) * tableNumPerFile)
  min_max_lsn : 0 < m.maxIdxTableId →
    m.minSegmentInfo.maxLsn = entriesMaxLsn (tableEntries h m.minSegmentInfo.maxIdxTableId)

/-- What the state of slot `m` says, with the tables up to `saved` in
storage and `newest` the newest one. -/
structure SlotOk (cfg : Config) (saved newest : Nat) (h : Tables) (m : Nat) (x : LogMemTable) :
    Prop where
  active : x.state = .active → saved < newest ∧ m = cfg.slotOf newest
  inactive : x.state = .inactive → ∃ t, saved < t ∧ t ≤ newest ∧ cfg.slotOf t = m
  flushed : x.state = .flushed → ∃ t, 0 < t ∧ t ≤ saved ∧ cfg.slotOf t = m ∧
    DataRep cfg x.data t (tableEntries h t)
  freed : x.state = .free → x = zeroMemTable

structure RingInv (s : Snapshot cfg) (h : Tables) : Prop where
  valid : ∀ e ∈ h.flatten, 0 < e.lsn ∧ e.lsn < uint64Max
  sorted : LsnSorted h.flatten
  nonempty : ∀ es ∈ h, es ≠ []
  saved_le : s.saved ≤ tableNum h
  num_le : tableNum h ≤ s.maxIdxTableId
  le_num : s.maxIdxTableId ≤ tableNum h + 1
  ring : s.maxIdxTableId ≤ s.saved + cfg.memTblSize
  opened : ∀ t, s.saved < t → t ≤ s.maxIdxTableId →
    SlotRep cfg (s.memTable (cfg.slotOf t)) t (tableEntries h t) ∧
      ((s.memTable (cfg.slotOf t)).state = .active ∨
        (s.memTable (cfg.slotOf t)).state = .inactive)
  empty : tableNum h < s.maxIdxTableId →
    (s.memTable (cfg.slotOf s.maxIdxTableId)).state = .active
  slots : ∀ m, SlotOk cfg s.saved s.maxIdxTableId h m (s.memTable m)
  metaOk : MetaOk s.logMeta h
  stored : ∀ t, 0 < t → s.minTid ≤ t →
    t ≤ s.saved →
    ∃ d, readTableData s t = some d ∧ DataRep cfg d t (tableEntries h t)
  bloomed : ∀ t, 0 < t → s.minTid ≤ t →
    t ≤ s.saved →
    ∃ b, s.bloomPages t = some b ∧ BloomRep b t (tableEntries h t)
  file_tid : ∀ g file i d, s.files g = some file → file i = some d → i < tableNumPerFile →
    d.idxTableId = g * tableNumPerFile + i + 1 ∨ d.idxTableId ≤ g * tableNumPerFile

variable {m : LogIndexMeta}

theorem MetaOk.mono {h h' : Tables} (hk : MetaOk m h)
    (hsame : ∀ t, 0 < t → t ≤ m.maxIdxTableId → tableEntries h' t = tableEntries h t) :
    MetaOk m h' := by
  refine ⟨hk.zero, fun hp => ?_, hk.start_lsn, hk.written, hk.min_tid, hk.min_seg,
    hk.min_max_tid, fun hp => ?_⟩
  · rw [hsame _ hp le_rfl]
    exact hk.max_lsn hp
  · have hmx := hk.min_max_tid hp
    rw [hsame _ (by rw [hmx]; simp only [tableNumPerFile]; omega) (by rw [hmx]; omega)]
    exact hk.min_max_lsn hp

theorem RingInv.minTid_le (hi : RingInv s h) (hseg : s.logMeta.minSegmentInfo.segmentNo = 0) :
    s.minTid ≤ 1 := by
  by_cases h0 : s.saved = 0
  · rw [Snapshot.minTid, (hi.metaOk.zero h0).2.2]
    exact Nat.zero_le 1
  · rw [Snapshot.minTid, hi.metaOk.min_tid (Nat.pos_of_ne_zero h0), hseg, Nat.zero_mul]

/-- The invariant reads five fields of the snapshot. -/
theorem RingInv.congr (hi : RingInv s h) (hm : s'.memTable = s.memTable)
    (ht : s'.maxIdxTableId = s.maxIdxTableId) (hl : s'.logMeta = s.logMeta)
    (hf : s'.files = s.files) (hb : s'.bloomPages = s.bloomPages) : RingInv s' h := by
  obtain ⟨memTable, maxLsn, activeTable, maxIdxTableId, logMeta, alloc, adding, files,
    bloomPages⟩ :=
    s
  subst hm ht hl hf hb
  exact { hi with }

theorem SlotOk.closed {saved newest m : Nat} {x : LogMemTable}
    (hx : x = zeroMemTable ∨ x.state = .flushed ∧ ∃ t, 0 < t ∧ t ≤ saved ∧ cfg.slotOf t = m ∧
      DataRep cfg x.data t (tableEntries h t)) : SlotOk cfg saved newest h m x := by
  rcases hx with rfl | ⟨hf, hex⟩
  · exact ⟨nofun, nofun, nofun, fun _ => rfl⟩
  · exact ⟨(nomatch hf.symm.trans ·), (nomatch hf.symm.trans ·), fun _ => hex,
      (nomatch hf.symm.trans ·)⟩

theorem ringInv_init (cfg : Config) : RingInv (initSys cfg).snap [] where
  valid := by simp
  sorted := List.Pairwise.nil
  nonempty := by simp
  saved_le := Nat.zero_le _
  num_le := Nat.zero_le _
  le_num := Nat.zero_le _
  ring := Nat.zero_le _
  opened t ht ht' := by simp only [initSys] at ht ht'; omega
  empty ht := absurd ht (Nat.not_lt_zero _)
  slots m := .closed (.inl rfl)
  metaOk := by
    refine ⟨fun _ => ⟨rfl, rfl, rfl⟩, ?_, ?_, ?_, ?_, ?_, ?_, ?_⟩ <;>
      exact fun hpos => absurd hpos (lt_irrefl 0)
  stored t h1 _ ht := absurd (h1.trans_le ht) (lt_irrefl 0)
  bloomed t h1 _ ht := absurd (h1.trans_le ht) (lt_irrefl 0)
  file_tid g file i d hg := by simp [initSys] at hg

/-! ## Changing one slot -/

@[simp] theorem setTable_memTable_self (s : Snapshot cfg) (mid : Nat) (m : LogMemTable) :
    (s.setTable mid m).memTable mid = m := Function.update_self ..

theorem setTable_memTable_of_ne (s : Snapshot cfg) {mid mid' : Nat} (m : LogMemTable)
    (hne : mid' ≠ mid) : (s.setTable mid m).memTable mid' = s.memTable mid' :=
  Function.update_of_ne hne ..

theorem slots_setTable {saved newest mid : Nat} {m : LogMemTable}
    (hself : SlotOk cfg saved newest h mid m)
    (hother : ∀ m', m' ≠ mid → SlotOk cfg saved newest h m' (s.memTable m')) (m' : Nat) :
    SlotOk cfg saved newest h m' ((s.setTable mid m).memTable m') := by
  by_cases heq : m' = mid
  · subst heq
    rwa [setTable_memTable_self]
  · rw [setTable_memTable_of_ne _ _ heq]
    exact hother m' heq

section

variable (hi : RingInv s h)
include hi

theorem RingInv.tid_of_open {m : Nat}
    (hm : (s.memTable m).state = .active ∨ (s.memTable m).state = .inactive) :
    ∃ t, s.saved < t ∧ t ≤ s.maxIdxTableId ∧ cfg.slotOf t = m ∧
      SlotRep cfg (s.memTable m) t (tableEntries h t) := by
  have hex : ∃ t, s.saved < t ∧ t ≤ s.maxIdxTableId ∧ cfg.slotOf t = m := by
    rcases hm with hm | hm
    · obtain ⟨hlt, rfl⟩ := (hi.slots m).active hm
      exact ⟨_, hlt, le_rfl, rfl⟩
    · exact (hi.slots m).inactive hm
  obtain ⟨t, hlt, hle, rfl⟩ := hex
  exact ⟨t, hlt, hle, rfl, (hi.opened t hlt hle).1⟩

theorem RingInv.in_slot {t : Nat} (hlt : s.saved < t) (hle : t ≤ s.maxIdxTableId) :
    t = (s.memTable (cfg.slotOf t)).data.idxTableId ∧
      (s.memTable (cfg.slotOf t)).state ≠ .free := by
  obtain ⟨hslot, hst⟩ := hi.opened t hlt hle
  refine ⟨hslot.1.symm, ?_⟩
  rcases hst with hst | hst <;> rw [hst] <;> decide

theorem RingInv.slot_data {m : Nat} (hst : (s.memTable m).state ≠ .free) :
    DataRep cfg (s.memTable m).data (s.memTable m).data.idxTableId
      (tableEntries h (s.memTable m).data.idxTableId) := by
  have hopen : (s.memTable m).state = .active ∨ (s.memTable m).state = .inactive →
      DataRep cfg (s.memTable m).data (s.memTable m).data.idxTableId
        (tableEntries h (s.memTable m).data.idxTableId) := by
    intro ho
    obtain ⟨t, -, -, -, htid, hholds⟩ := hi.tid_of_open ho
    exact ⟨rfl, _, by rw [htid]; exact hholds⟩
  cases hm : (s.memTable m).state with
  | free => exact absurd hm hst
  | active => exact hopen (.inl hm)
  | inactive => exact hopen (.inr hm)
  | flushed =>
    obtain ⟨t, -, -, -, hd⟩ := (hi.slots m).flushed hm
    rwa [hd.1]

theorem RingInv.slot_ne {t t' : Nat} (hlt : s.saved < t)
    (hle : t ≤ s.maxIdxTableId) (hlt' : s.saved < t')
    (hle' : t' ≤ s.maxIdxTableId) (hne : t ≠ t') : cfg.slotOf t ≠ cfg.slotOf t' := by
  have hring := hi.ring
  rcases Nat.lt_or_gt_of_ne hne with hlt2 | hlt2
  · exact slotOf_ne (by omega) hlt2 (by omega)
  · exact (slotOf_ne (by omega) hlt2 (by omega)).symm

def Insertable (h : Tables) (e : LogIndexLsn) : Prop :=
  (0 < e.lsn ∧ e.lsn < uint64Max) ∧ LsnSorted (h.flatten ++ [e])

theorem RingInv.insert {h' : Tables} {e : LogIndexLsn} {m : LogMemTable}
    (hact : (s.memTable (cfg.slotOf s.maxIdxTableId)).state = .active) (hins : Insertable h e)
    (hadd : Added h h' e s.maxIdxTableId)
    (hm : SlotRep cfg m s.maxIdxTableId (tableEntries h' s.maxIdxTableId))
    (hstate : m.state = .active) :
    RingInv (s.setTable (cfg.slotOf s.maxIdxTableId) m) h' := by
  have hnum := hadd.num
  have hother := hadd.other
  obtain ⟨hlt, -⟩ := (hi.slots _).active hact
  have hsaved : ∀ t, 0 < t → t ≤ s.saved →
      tableEntries h' t = tableEntries h t := fun t h1 ht => hother t h1 (by omega)
  constructor
  case valid =>
    rw [hadd.flatten]
    exact forall_mem_snoc hi.valid hins.1
  case sorted => rw [hadd.flatten]; exact hins.2
  case nonempty => exact hadd.nonempty hi.nonempty
  case saved_le => rw [hnum]; exact hlt.le
  case num_le => exact hnum.le
  case le_num => rw [hnum]; exact Nat.le_succ _
  case ring => exact hi.ring
  case opened =>
    intro t ht ht'
    by_cases heq : t = s.maxIdxTableId
    · subst heq
      rw [setTable_memTable_self]
      exact ⟨hm, .inl hstate⟩
    · rw [setTable_memTable_of_ne _ _ (hi.slot_ne ht ht' hlt le_rfl heq),
        hother t (Nat.zero_lt_of_lt ht) heq]
      exact hi.opened t ht ht'
  case empty => intro habs; exact absurd habs (by rw [hnum]; exact lt_irrefl _)
  case slots =>
    refine slots_setTable ⟨fun _ => ⟨hlt, rfl⟩, (nomatch hstate.symm.trans ·),
      (nomatch hstate.symm.trans ·), (nomatch hstate.symm.trans ·)⟩ fun m' _ =>
        { hi.slots m' with flushed := fun hm' => ?_ }
    obtain ⟨t, h1, ht, hslot, hrep⟩ := (hi.slots m').flushed hm'
    exact ⟨t, h1, ht, hslot, by rwa [hsaved t h1 ht]⟩
  case metaOk => exact hi.metaOk.mono hsaved
  case stored =>
    intro t h1 hmin ht
    rw [hsaved t h1 ht]
    exact hi.stored t h1 hmin ht
  case bloomed =>
    intro t h1 hmin ht
    rw [hsaved t h1 ht]
    exact hi.bloomed t h1 hmin ht
  case file_tid => exact hi.file_tid

theorem RingInv.retire (hnum : tableNum h = s.maxIdxTableId)
    (hact : (s.memTable (cfg.slotOf s.maxIdxTableId)).state = .active) :
    RingInv (s.setState (cfg.slotOf s.maxIdxTableId) .inactive) h := by
  obtain ⟨hlt, -⟩ := (hi.slots _).active hact
  refine { hi with opened := fun t ht ht' => ?_, empty := fun habs => ?_, slots := ?_ }
  · rw [Snapshot.setState]
    by_cases heq : t = s.maxIdxTableId
    · subst heq
      rw [setTable_memTable_self]
      exact ⟨(hi.opened _ ht ht').1, .inr rfl⟩
    · rw [setTable_memTable_of_ne _ _ (hi.slot_ne ht ht' hlt le_rfl heq)]
      exact hi.opened t ht ht'
  · exact absurd habs (by rw [hnum]; exact lt_irrefl _)
  · exact slots_setTable ⟨nofun, fun _ => ⟨_, hlt, le_rfl, rfl⟩, nofun, nofun⟩
      fun m' _ => hi.slots m'

/-- A FLUSHED slot may be zeroed, or take the data of another saved
table of the same slot. -/
theorem RingInv.setClosed {mid : Nat} {m : LogMemTable}
    (hst : (s.memTable mid).state = .flushed)
    (hm : m = zeroMemTable ∨ (m.state = .flushed ∧ ∃ t, 0 < t ∧
      t ≤ s.saved ∧ cfg.slotOf t = mid ∧ DataRep cfg m.data t (tableEntries h t))) :
    RingInv (s.setTable mid m) h := by
  have hopen : ∀ t, s.saved < t → t ≤ s.maxIdxTableId → cfg.slotOf t ≠ mid := by
    rintro t ht ht' rfl
    rcases (hi.opened t ht ht').2 with hs | hs <;> rw [hst] at hs <;> cases hs
  refine { hi with
    opened := fun t ht ht' => ?_
    empty := fun hlt => ?_
    slots := slots_setTable (.closed hm) fun m' _ => hi.slots m' }
  · rw [setTable_memTable_of_ne _ _ (hopen t ht ht')]
    exact hi.opened t ht ht'
  · have hne := hopen _ (hi.saved_le.trans_lt hlt) le_rfl
    exact (congrArg LogMemTable.state (setTable_memTable_of_ne s m hne)).trans (hi.empty hlt)

/-- If the slot behind the newest table is closed, the ring has room: a
full ring would have the next table to be saved there. -/
theorem RingInv.room (hact : (s.memTable (cfg.slotOf (s.maxIdxTableId + 1))).state
    ≠ .active) (hin : (s.memTable (cfg.slotOf (s.maxIdxTableId + 1))).state ≠ .inactive) :
    s.maxIdxTableId + 1 ≤ s.saved + cfg.memTblSize := by
  have hpos := cfg.memTblSize_pos
  have hring := hi.ring
  by_contra hfull
  have heq : s.maxIdxTableId + 1 = s.saved + 1 + cfg.memTblSize := by omega
  rw [heq, slotOf_add _ (Nat.succ_pos _)] at hact hin
  rcases (hi.opened (s.saved + 1) (Nat.lt_succ_self _) (by omega)).2 with hs | hs
  · exact hact hs
  · exact hin hs

theorem RingInv.openNext (lsn : Nat)
    (hfree : (s.memTable (cfg.slotOf (s.maxIdxTableId + 1))).state = .free)
    (hnum : tableNum h = s.maxIdxTableId) (hnone : ∀ m, (s.memTable m).state ≠ .active) :
    RingInv (newActive s (cfg.slotOf (s.maxIdxTableId + 1)) lsn) h := by
  have hroom := hi.room (hnone _) (by rw [hfree]; decide)
  have hsaved := hi.saved_le
  have hself : (newActive s (cfg.slotOf (s.maxIdxTableId + 1)) lsn).memTable
      (cfg.slotOf (s.maxIdxTableId + 1)) =
        memTblNewActive zeroMemTable (s.maxIdxTableId + 1) lsn := by
    rw [← (hi.slots _).freed hfree]
    exact setTable_memTable_self ..
  have hother : ∀ m', m' ≠ cfg.slotOf (s.maxIdxTableId + 1) →
      (newActive s (cfg.slotOf (s.maxIdxTableId + 1)) lsn).memTable m' = s.memTable m' :=
    fun m' hne => setTable_memTable_of_ne _ _ hne
  have hslots : ∀ m', SlotOk cfg s.saved (s.maxIdxTableId + 1) h m'
      ((newActive s (cfg.slotOf (s.maxIdxTableId + 1)) lsn).memTable m') := by
    have hlt : s.saved < s.maxIdxTableId + 1 := by omega
    refine slots_setTable ⟨fun _ => ⟨hlt, rfl⟩, nofun, nofun, nofun⟩ fun m' _ => { hi.slots m' with
      active := fun hm' => absurd hm' (hnone m')
      inactive := fun hm' => ?_ }
    obtain ⟨t, ht, ht', hslot⟩ := (hi.slots m').inactive hm'
    exact ⟨t, ht, Nat.le_succ_of_le ht', hslot⟩
  refine ⟨hi.valid, hi.sorted, hi.nonempty, hi.saved_le, by rw [hnum]; exact Nat.le_succ _,
    by rw [hnum]; exact le_rfl, hroom, fun t ht ht' => ?_, fun _ => ?_, hslots, hi.metaOk,
    hi.stored, hi.bloomed, hi.file_tid⟩
  · rcases Nat.lt_or_eq_of_le ht' with hlt | rfl
    · have ht2 : t ≤ s.maxIdxTableId := Nat.le_of_lt_succ hlt
      have hring : s.maxIdxTableId + 1 < t + cfg.memTblSize := by
        have : s.saved < t := ht
        omega
      rw [hother _ (slotOf_ne (Nat.zero_lt_of_lt ht) hlt hring)]
      exact hi.opened t ht ht2
    · rw [show (newActive s (cfg.slotOf (s.maxIdxTableId + 1)) lsn).maxIdxTableId =
        s.maxIdxTableId + 1 from rfl, hself, tableEntries_eq_nil (by rw [hnum]; omega)]
      exact ⟨⟨rfl, _, tblRep_empty _ (fun _ => rfl) rfl rfl rfl⟩, .inl rfl⟩
  · rw [show (newActive s (cfg.slotOf (s.maxIdxTableId + 1)) lsn).maxIdxTableId =
      s.maxIdxTableId + 1 from rfl, hself]
    rfl

end

end PolarDB.LogIndex
