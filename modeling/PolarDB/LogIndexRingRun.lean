import PolarDB.LogIndexRingStore
import PolarDB.LogIndexTableRun

/-!
# Runs of the logindex ring

The inserter can be interrupted between its locked sections, so the ring
invariant is joined with what is known at each of its program points
(`PcInv`):

* between calls the newest table is ACTIVE, or there is no table yet
  (`Settled`);
* while it waits for a slot no table is ACTIVE: the old one is retired,
  or the ring is fresh (`Waiting`);
* behind the wait the newest table is ACTIVE and empty, and its LSN
  prefix is that of the entry in hand (`Switched`).

`SysInv.step` says that every action of every process keeps all this,
and that the abstract tables change only by the entry in hand, which is
placed as `place` places it. The one exception is a ring that was
reopened on an empty active table (`r` below): its first entry goes into
that table whether or not it would have fitted the one before.
-/

namespace PolarDB.LogIndex

open List Option

variable {cfg : Config} {s s' : Snapshot cfg} {h : Tables} {r : Prop}

/-! ## Program points of the inserter -/

/-- Between calls. `r` allows the newest table to be empty. -/
structure Settled (r : Prop) (s : Snapshot cfg) (h : Tables) : Prop where
  activeTable : s.activeTable = cfg.slotOf s.maxIdxTableId
  live : 0 < s.maxIdxTableId → (s.memTable s.activeTable).state = .active
  empty : tableNum h < s.maxIdxTableId → r ∧ (s.memTable s.activeTable).data.prefixLsn = 0

structure Waiting (s : Snapshot cfg) (h : Tables) (c : InsertCall) : Prop where
  num : tableNum h = s.maxIdxTableId
  none_active : ∀ m, (s.memTable m).state ≠ .active
  table : c.table = cfg.slotOf (s.maxIdxTableId + 1)
  active : c.active = c.table
  fresh : c.newItem = true ∨ c.active ≠ c.oldActive
  nofit : 0 < tableNum h → fits (tableEntries h (tableNum h)) c.info = false
  next : c.nextMemId = some c.table ∨ (c.nextMemId = none ∧ s.activeTable = c.table)

structure Switched (s : Snapshot cfg) (h : Tables) (c : InsertCall) : Prop where
  num : s.maxIdxTableId = tableNum h + 1
  prefix_eq : (s.memTable (cfg.slotOf s.maxIdxTableId)).data.prefixLsn = lsnPrefix c.info.lsn
  active : c.active = cfg.slotOf s.maxIdxTableId
  fresh : c.newItem = true ∨ c.active ≠ c.oldActive
  nofit : 0 < tableNum h → fits (tableEntries h (tableNum h)) c.info = false
  next : c.nextMemId = some (cfg.slotOf s.maxIdxTableId) ∨
    (c.nextMemId = none ∧ s.activeTable = cfg.slotOf s.maxIdxTableId)

def PcInv (r : Prop) (s : Snapshot cfg) (h : Tables) : InsertPc → Prop
  | .idle => Settled r s h
  | .nextFreeSeg c =>
    (Settled r s h ∧ c = startCall s c.info ∧ appendInPlace s c = false) ∨
      (Switched s h c ∧ s.activeTable = cfg.slotOf s.maxIdxTableId)
  | .waitActive c => Waiting s h c
  | .setActive c => Switched s h c

structure SysInv (r : Prop) (s : Sys cfg) (h : Tables) : Prop where
  ring : RingInv s.snap h
  pc : PcInv r s.snap h s.inserter
  caches : ∀ p, CacheOk cfg (s.caches p) s.snap.saved h
  adding : s.snap.adding = false → s.inserter = .idle
  pending_valid : ∀ e ∈ s.inserter.pending, 0 < e.lsn ∧ e.lsn < uint64Max
  pending_sorted : LsnSorted (h.flatten ++ s.inserter.pending)

/-! ## The other processes do not disturb the inserter -/

structure Quiet (s s' : Snapshot cfg) : Prop where
  maxIdxTableId : s'.maxIdxTableId = s.maxIdxTableId
  activeTable : s'.activeTable = s.activeTable
  slot : ∀ m, (s.memTable m).state = .active ∨ (s.memTable m).state = .free →
    s'.memTable m = s.memTable m
  active : ∀ m, (s'.memTable m).state = .active → (s.memTable m).state = .active

theorem SaveEffect.quiet {mid : Nat} (he : SaveEffect s s' mid) : Quiet s s' := by
  refine ⟨he.maxIdxTableId, he.activeTable, fun m hm => ?_, fun m hm => ?_⟩
  · by_cases heq : m = mid
    · subst heq
      refine he.slot.resolve_right fun hin => ?_
      rcases hm with hm | hm <;> rw [hin.1] at hm <;> cases hm
    · exact he.other m heq
  · by_cases heq : m = mid
    · subst heq
      rcases he.slot with hsame | ⟨-, hflushed⟩
      · rwa [hsame] at hm
      · rw [hflushed] at hm
        cases hm
    · rwa [he.other m heq] at hm

theorem ReadEffect.quiet (he : ReadEffect s s') : Quiet s s' :=
  ⟨he.maxIdxTableId, he.activeTable,
    fun m hm => he.slot m (by rcases hm with hm | hm <;> rw [hm] <;> decide),
    fun m hm => by rwa [he.state m] at hm⟩

theorem RingInv.free_of_zero (hi : RingInv s h) (hz : s.maxIdxTableId = 0) (m : Nat) :
    (s.memTable m).state = .free := by
  have hle := hi.saved_le
  have hnum := hi.num_le
  cases hst : (s.memTable m).state with
  | free => rfl
  | active => have := ((hi.slots m).active hst).1; omega
  | inactive => obtain ⟨t, ht, ht', -⟩ := (hi.slots m).inactive hst; omega
  | flushed => obtain ⟨t, h1, ht, -⟩ := (hi.slots m).flushed hst; omega

theorem Settled.slot_state (hs : Settled r s h) (hi : RingInv s h) :
    (s.memTable s.activeTable).state = .active ∨ (s.memTable s.activeTable).state = .free := by
  by_cases hz : s.maxIdxTableId = 0
  · exact .inr (hi.free_of_zero hz _)
  · exact .inl (hs.live (by omega))

theorem Quiet.settled (hq : Quiet s s') (hi : RingInv s h) (hs : Settled r s h) :
    Settled r s' h ∧ s'.memTable s'.activeTable = s.memTable s.activeTable := by
  have hslot : s'.memTable s'.activeTable = s.memTable s.activeTable := by
    rw [hq.activeTable]
    exact hq.slot _ (hs.slot_state hi)
  refine ⟨⟨?_, fun hpos => ?_, fun hlt => ?_⟩, hslot⟩
  · rw [hq.activeTable, hq.maxIdxTableId]; exact hs.activeTable
  · rw [hslot]; exact hs.live (hq.maxIdxTableId ▸ hpos)
  · rw [hslot]; exact hs.empty (hq.maxIdxTableId ▸ hlt)

variable {c : InsertCall} {es : List LogIndexLsn} {as : List Action}

theorem Switched.slot_state (hs : Switched s h c) (hi : RingInv s h) :
    (s.memTable (cfg.slotOf s.maxIdxTableId)).state = .active :=
  hi.empty (by rw [hs.num]; exact Nat.lt_succ_self _)

theorem Quiet.switched (hq : Quiet s s') (hi : RingInv s h) (hs : Switched s h c) :
    Switched s' h c := by
  have hslot := hq.slot _ (.inl (hs.slot_state hi))
  refine ⟨?_, ?_, ?_, hs.fresh, hs.nofit, ?_⟩
  · rw [hq.maxIdxTableId]; exact hs.num
  · rw [hq.maxIdxTableId, hslot]; exact hs.prefix_eq
  · rw [hq.maxIdxTableId]; exact hs.active
  · rw [hq.maxIdxTableId, hq.activeTable]; exact hs.next

theorem Quiet.waiting (hq : Quiet s s') (hw : Waiting s h c) : Waiting s' h c := by
  refine ⟨?_, fun m hm => hw.none_active m (hq.active m hm), ?_, hw.active, hw.fresh, hw.nofit, ?_⟩
  · rw [hq.maxIdxTableId]; exact hw.num
  · rw [hq.maxIdxTableId]; exact hw.table
  · rw [hq.activeTable]; exact hw.next

theorem Quiet.pcInv (hq : Quiet s s') (hi : RingInv s h) {pc : InsertPc}
    (hpc : PcInv r s h pc) : PcInv r s' h pc := by
  cases pc with
  | idle => exact (hq.settled hi hpc).1
  | nextFreeSeg c =>
    rcases hpc with ⟨hs, hc, happ⟩ | ⟨hs, hact⟩
    · obtain ⟨hs', hslot⟩ := hq.settled hi hs
      refine .inl ⟨hs', ?_, ?_⟩
      · rwa [startCall, hslot, hq.activeTable]
      · rw [hc] at happ ⊢
        rw [appendInPlace] at happ ⊢
        simp only [startCall] at happ ⊢
        rwa [← hq.activeTable, hslot, hq.activeTable]
    · exact .inr ⟨hq.switched hi hs, by rw [hq.activeTable, hq.maxIdxTableId]; exact hact⟩
  | waitActive c => exact hq.waiting hpc
  | setActive c => exact hq.switched hi hpc

variable {m : LogMemTable} {t : Nat} {h' : Tables} {e : LogIndexLsn}
  {pending : List LogIndexLsn} {a : Action}

theorem SlotRep.fits_eq (hm : SlotRep cfg m t es) (hne : es ≠ []) (e : LogIndexLsn) :
    fits es e = (sameTableLsnPrefix m.data e.lsn &&
      (!needsCell (tagLsns e.tag es).length || !memTblFull m)) := by
  obtain ⟨-, lay, hr⟩ := hm
  obtain ⟨e0, es', rfl⟩ := exists_cons_of_ne_nil hne
  have hpfx : ((e0 :: es').all fun e' => decide (lsnPrefix e'.lsn = lsnPrefix e.lsn)) =
      sameTableLsnPrefix m.data e.lsn := by
    rw [Bool.eq_iff_iff, List.all_eq_true, sameTableLsnPrefix, decide_eq_true_eq]
    constructor
    · intro hall
      rw [← hr.prefix_eq e0 mem_cons_self]
      exact of_decide_eq_true (hall e0 mem_cons_self)
    · intro heq e' he'
      rw [hr.prefix_eq e' he', heq]
      exact decide_eq_true rfl
  have hfull : decide (1 + cellsUsed (e0 :: es') < memTblSegNum) = !memTblFull m := by
    have h1 := hr.free_eq
    have h2 := hr.free_le
    rw [memTblFull, ← decide_not, decide_eq_decide]
    omega
  rw [fits, hpfx, hfull]

/-! ## Insertions -/

theorem RingInv.inserted (hi : RingInv s h) (hactive : s.activeTable = cfg.slotOf s.maxIdxTableId)
    (hact : (s.memTable (cfg.slotOf s.maxIdxTableId)).state = .active) (hins : Insertable h e)
    (hadd : Added h h' e s.maxIdxTableId)
    (hm : SlotRep cfg m s.maxIdxTableId (tableEntries h s.maxIdxTableId ++ [e]))
    (hstate : m.state = .active)
    (hs' : s' = { s.setTable s.activeTable m with maxLsn := m.data.maxLsn }) :
    RingInv s' h' ∧ Settled r s' h' := by
  subst hs'
  rw [← hadd.self] at hm
  have hins' := hi.insert hact hins hadd hm hstate
  rw [← hactive] at hins'
  refine ⟨{ hins' with }, hactive, fun _ => ?_, fun hlt => ?_⟩
  · exact (congrArg (·.state) (setTable_memTable_self ..)).trans hstate
  · rw [hadd.num] at hlt
    exact absurd hlt (lt_irrefl _)

theorem Settled.slotRep (hs : Settled r s h) (hi : RingInv s h) (hpos : 0 < s.maxIdxTableId) :
    SlotRep cfg (s.memTable s.activeTable) s.maxIdxTableId (tableEntries h s.maxIdxTableId) := by
  have hlt := ((hi.slots _).active (hs.live hpos)).1
  rw [hs.activeTable]
  exact (hi.opened _ hlt le_rfl).1

theorem RingInv.entries_ne_nil (hi : RingInv s h)
    (hne : tableEntries h s.maxIdxTableId ≠ []) : tableNum h = s.maxIdxTableId := by
  have h1 := hi.num_le
  by_contra hlt
  exact hne (tableEntries_eq_nil (by omega))

theorem added_of_fits (hpos : 0 < tableNum h) (hfit : fits (tableEntries h (tableNum h)) e = true) :
    Added h (place h e) e (tableNum h) := by
  rw [place, if_pos ⟨hpos, hfit⟩]
  exact added_addLast e hpos

/-- An entry that `log_index_insert_lsn` adds in place fits, and goes
into the last cell of its item. -/
theorem Settled.append (hs : Settled r s h) (hi : RingInv s h) {info : LogIndexLsn}
    (happ : appendInPlace s (startCall s info) = true) (hins : Insertable h info) :
    tableNum (place h info) = s.maxIdxTableId ∧
      RingInv (setData s s.activeTable (appendEntry (s.memTable s.activeTable).data
        (startCall s info).head info)) (place h info) ∧
      Settled r (setData s s.activeTable (appendEntry (s.memTable s.activeTable).data
        (startCall s info).head info)) (place h info) := by
  have hcond := appendInPlace_cond happ
  have hT : 0 < s.maxIdxTableId := Nat.zero_lt_of_lt ((hi.slots _).active hcond.1).1
  have hrep := hs.slotRep hi hT
  obtain ⟨hne, hroom, htbl⟩ := hrep.2.of_appendInPlace happ
  have hes : tableEntries h s.maxIdxTableId ≠ [] := fun hnil => hne (by rw [hnil]; rfl)
  have hnum := hi.entries_ne_nil hes
  have hfit : fits (tableEntries h (tableNum h)) info = true := by
    rw [hnum, hrep.fits_eq hes, hcond.2, hroom]
    rfl
  have hadd : Added h (place h info) info s.maxIdxTableId := hnum ▸ added_of_fits (by omega) hfit
  have hact := hs.activeTable ▸ hcond.1
  refine ⟨hadd.num, hi.inserted (m := { s.memTable s.activeTable with
      data := appendEntry (s.memTable s.activeTable).data (startCall s info).head info })
    hs.activeTable hact hins hadd ⟨?_, htbl⟩ hcond.1 rfl⟩
  rw [← hrep.1]
  exact appendLsn_idxTableId ..

/-- A fresh cell of the newest table takes the entry. `m` is the slot with
the cell handed out and the LSN prefix in place. -/
theorem RingInv.finishInsert (hi : RingInv s h)
    (hactive : s.activeTable = cfg.slotOf s.maxIdxTableId)
    (hact : (s.memTable (cfg.slotOf s.maxIdxTableId)).state = .active)
    (hc : c.active = s.activeTable) (hins : Insertable h c.info)
    (hadd : Added h h' c.info s.maxIdxTableId) {free : Nat} (hm : m.freeHead = free + 1)
    (hstate : m.state = .active) (htid : m.data.idxTableId = s.maxIdxTableId)
    (htbl : TblHolds cfg.hashPage m.data free (tableEntries h s.maxIdxTableId))
    (hfree : free < memTblSegNum) (hpre : lsnPrefix c.info.lsn = m.data.prefixLsn)
    (hneed : needsCell (tagLsns c.info.tag (tableEntries h s.maxIdxTableId)).length = true)
    (hnew : (c.newItem || decide (c.active ≠ c.oldActive)) = true ↔
      tagLsns c.info.tag (tableEntries h s.maxIdxTableId) = [])
    (hhead : (c.newItem || decide (c.active ≠ c.oldActive)) = false →
      c.head = memTblExistsPage c.info.tag m.data (cfg.hashPage c.info.tag)) :
    RingInv (finishInsert (s.setTable s.activeTable m) c free) h' ∧
      Settled r (finishInsert (s.setTable s.activeTable m) c free) h' := by
  have hslot : (s.setTable s.activeTable m).memTable c.active = m := by
    rw [hc, setTable_memTable_self]
  let data := insertEntry m.data (c.newItem || decide (c.active ≠ c.oldActive)) c.head free
    (cfg.hashPage c.info.tag) c.info
  refine hi.inserted (m := { m with data := data }) hactive hact hins hadd
    ⟨(insertEntry_idxTableId ..).trans htid, ?_⟩ hstate ?_
  · rw [hm]
    exact htbl.insertEntry hpre hneed hfree hnew hhead
  · simp only [LogIndex.finishInsert, setData, hslot]
    simp only [Snapshot.setTable, hc, Function.update_idem, data]

/-- How the abstract tables follow a step of the system. `pending` is the
entry in hand: it stays in hand, goes into a table, or is skipped by the
overlap filters of a reopened snapshot. -/
def TablesStep (r : Prop) (s s' : Snapshot cfg) (h h' : Tables)
    (pending : List LogIndexLsn) (pc' : InsertPc) : Prop :=
  (h' = h ∧ pc'.pending = pending) ∨
    (∃ e, pending = [e] ∧ pc' = .idle ∧ s'.maxIdxTableId = tableNum h' ∧
      (h' = place h e ∨ (r ∧ tableNum h < s.maxIdxTableId ∧ h' = h ++ [[e]]))) ∨
    ∃ e, pending = [e] ∧ pc' = .idle ∧ h' = h ∧ s' = s ∧ s.adding = false ∧
      alreadySaved s e = true

/-! ## One turn of `log_index_next_free_seg` -/

theorem place_new (hnofit : 0 < tableNum h → fits (tableEntries h (tableNum h)) e = false) :
    place h e = h ++ [[e]] := by
  rw [place, if_neg]
  rintro ⟨hpos, hfit⟩
  rw [hnofit hpos] at hfit
  cases hfit

def TurnOk (r : Prop) (s : Snapshot cfg) (h : Tables) (c : InsertCall)
    (x : Snapshot cfg × InsertPc) : Prop :=
  ∃ h', RingInv x.1 h' ∧ PcInv r x.1 h' x.2 ∧ TablesStep r s x.1 h h' [c.info] x.2

theorem RingInv.freeHead_of_empty (hi : RingInv s h) (hlt : tableNum h < s.maxIdxTableId) :
    (s.memTable (cfg.slotOf s.maxIdxTableId)).freeHead = 1 := by
  obtain ⟨-, lay, hr⟩ := (hi.opened _ ((hi.slots _).active (hi.empty hlt)).1 le_rfl).1
  rw [tableEntries_eq_nil hlt] at hr
  exact hr.free_eq

theorem RingInv.finishInsert_empty (hi : RingInv s h) (hnum : s.maxIdxTableId = tableNum h + 1)
    (hactive : s.activeTable = cfg.slotOf s.maxIdxTableId) (hc : c.active = s.activeTable)
    (hins : Insertable h c.info) (hfresh : c.newItem = true ∨ c.active ≠ c.oldActive)
    (hm : m.freeHead = (s.memTable s.activeTable).freeHead + 1) (hstate : m.state = .active)
    (hdata : m.data = { (s.memTable s.activeTable).data with prefixLsn := lsnPrefix c.info.lsn })
    (hplace : h ++ [[c.info]] = place h c.info ∨ r) :
    TurnOk r s h c (LogIndex.finishInsert (s.setTable s.activeTable m) c
      (s.memTable s.activeTable).freeHead, .idle) := by
  have hlt : tableNum h < s.maxIdxTableId := by omega
  have hact := hi.empty hlt
  have hrep := (hi.opened _ ((hi.slots _).active hact).1 le_rfl).1
  have hnil : tableEntries h s.maxIdxTableId = [] := tableEntries_eq_nil hlt
  have hor : (c.newItem || decide (c.active ≠ c.oldActive)) = true := by
    simpa using hfresh
  have hfin := hi.finishInsert (r := r) hactive hact hc hins (hnum ▸ added_new h c.info) hm hstate
    ?_ ?_ ?_ ?_ ?_ ?_ fun hf => absurd hf (by rw [hor]; decide)
  · exact ⟨_, hfin.1, hfin.2, .inr (.inl ⟨_, rfl, rfl, hnum.trans (by simp [tableNum]),
      hplace.imp_right fun hr => ⟨hr, hlt, rfl⟩⟩)⟩
  · rw [hdata, hactive]
    exact hrep.1
  · rw [hnil, hdata, hactive]
    exact TblHolds.setPrefix (hnil ▸ hrep.2) _
  · rw [hactive, hi.freeHead_of_empty hlt]
    decide
  · rw [hdata]
  · rw [hnil]
    rfl
  · rw [hnil, hor]
    exact ⟨fun _ => rfl, fun _ => rfl⟩

/-- The entry does not fit: the table is retired, and the wait for the next
slot begins. -/
theorem Settled.retire (hs : Settled r s h) (hi : RingInv s h) (hT : 0 < s.maxIdxTableId)
    (hnum : tableNum h = s.maxIdxTableId) (hold : c.oldActive = s.activeTable)
    (hnofit : fits (tableEntries h s.maxIdxTableId) c.info = false) {next : Nat}
    (hnext : next = loopNextValue s.activeTable cfg.memTblSize) :
    TurnOk r s h c (s.setState s.activeTable .inactive,
      .waitActive { c with active := next, nextMemId := some next, table := next }) := by
  rw [hs.activeTable, ← slotOf_succ _ hT] at hnext
  have hthree := cfg.three_le
  refine ⟨h, ?_, ⟨hnum, fun m => ?_, hnext, rfl, .inr ?_, fun _ => by rw [hnum]; exact hnofit,
    .inl rfl⟩, .inl ⟨rfl, rfl⟩⟩
  · rw [hs.activeTable]
    exact hi.retire hnum (hs.activeTable ▸ hs.live hT)
  · by_cases heq : m = s.activeTable
    · subst heq
      rw [Snapshot.setState, setTable_memTable_self]
      exact (by cases ·)
    · rw [Snapshot.setState, setTable_memTable_of_ne _ _ heq]
      intro hm
      exact heq (((hi.slots m).active hm).2.trans hs.activeTable.symm)
  · rw [hnext, hold, hs.activeTable]
    exact (slotOf_ne hT (Nat.lt_succ_self _) (by omega)).symm

theorem Settled.nextFree (hs : Settled r s h) (hi : RingInv s h)
    (hc : c = startCall s c.info) (happ : appendInPlace s c = false) (hins : Insertable h c.info) :
    TurnOk r s h c (nextFreeSeg s c) := by
  have hcact : c.active = s.activeTable := by rw [hc]; rfl
  have hcold : c.oldActive = s.activeTable := by rw [hc]; rfl
  have hcnext : c.nextMemId = none := by rw [hc]; rfl
  have hold : decide (c.active ≠ c.oldActive) = false := by
    rw [hcact, hcold]; exact decide_eq_false (not_not.mpr rfl)
  have hhead := startCall_head s c.info
  have hitem := startCall_newItem s c.info
  rw [← hc] at hhead hitem
  by_cases hT : s.maxIdxTableId = 0
  · have hfree := hi.free_of_zero hT
    have hnum : tableNum h = s.maxIdxTableId := by have := hi.num_le; omega
    have hres : nextFreeSeg s c = (s, .waitActive { c with table := s.activeTable }) := by
      rw [nextFreeSeg, hfree, if_neg (by decide), hcnext]
    rw [hres]
    have hslot : s.activeTable = cfg.slotOf (s.maxIdxTableId + 1) := by
      rw [hs.activeTable, hT]; rfl
    refine ⟨h, hi, ⟨hnum, fun m => by rw [hfree m]; decide, hslot, hcact, .inl ?_, fun hp => ?_,
      .inr ⟨hcnext, rfl⟩⟩, .inl ⟨rfl, rfl⟩⟩
    · rw [hitem, hhead, hfree]
      rfl
    · omega
  · have hT : 0 < s.maxIdxTableId := by omega
    have hstate := hs.live hT
    have hact := hs.activeTable ▸ hstate
    have hrep := hs.slotRep hi hT
    have hnew := hrep.2.isNew_iff
    rw [nextFreeSeg, if_pos hstate]
    by_cases hn : memTblIsNew (s.memTable s.activeTable) = true
    · obtain ⟨hnil, -⟩ := hnew.mp hn
      have hnum : s.maxIdxTableId = tableNum h + 1 := by
        have h2 := hi.le_num
        by_contra hne
        exact hi.nonempty _ (tableEntries_mem hT (by omega)) hnil
      have hr := (hs.empty (by omega)).1
      have hfresh : c.newItem = true := by
        rw [hc]
        exact (hnil ▸ hrep.2).newItem_of_nil
      rw [if_pos hn]
      exact hi.finishInsert_empty hnum hs.activeTable hcact hins
        (.inl hfresh) rfl hstate rfl (.inr hr)
    · rw [if_neg hn]
      have hes : tableEntries h s.maxIdxTableId ≠ [] := by
        intro hnil
        refine hn (hnew.mpr ⟨hnil, (hs.empty ?_).2⟩)
        by_contra hge
        exact hi.nonempty _ (tableEntries_mem hT (by omega)) hnil
      have hnum := hi.entries_ne_nil hes
      have hfit := hrep.fits_eq hes c.info
      split
      · next hfull =>
        have hnofit : fits (tableEntries h s.maxIdxTableId) c.info = false := by
          rw [hfit]
          by_cases hpre : sameTableLsnPrefix (s.memTable s.activeTable).data c.info.lsn = true
          · rw [hpre] at hfull ⊢
            simp only [Bool.not_true, Bool.or_false] at hfull
            have hneed := hrep.2.needsCell_of_not_append ⟨hstate, hpre⟩ (hc ▸ happ)
            rw [hfull, hneed]
            rfl
          · rw [Bool.not_eq_true] at hpre
            rw [hpre]
            rfl
        exact hs.retire hi hT hnum hcold hnofit rfl
      · next hfull =>
        simp only [Bool.or_eq_true, Bool.not_eq_true', not_or, Bool.not_eq_true,
          Bool.not_eq_false] at hfull
        obtain ⟨hnotfull, hpre⟩ := hfull
        have hneed := hrep.2.needsCell_of_not_append ⟨hstate, hpre⟩ (hc ▸ happ)
        have hfree : (s.memTable s.activeTable).freeHead < memTblSegNum := by
          obtain ⟨-, lay, hr⟩ := hrep
          exact lt_of_le_of_ne hr.free_le (of_decide_eq_false hnotfull)
        rw [if_pos ⟨hstate, hpre⟩] at hhead
        have hadd : Added h (place h c.info) c.info s.maxIdxTableId :=
          hnum ▸ added_of_fits (by omega) (by rw [hnum, hfit, hpre, hnotfull]; simp)
        obtain ⟨hi', hs'⟩ := hi.finishInsert
          (m := { s.memTable s.activeTable with
            freeHead := (s.memTable s.activeTable).freeHead + 1 })
          hs.activeTable hact hcact hins hadd rfl hstate hrep.1
          hrep.2 hfree (of_decide_eq_true hpre).symm hneed
          (by rw [hold, Bool.or_false, hitem, hhead, decide_eq_true_eq, hrep.2.existsPage_eq_zero])
          (fun _ => hhead)
        exact ⟨_, hi', hs', .inr (.inl ⟨_, rfl, rfl, hadd.num.symm, .inl rfl⟩)⟩

section

variable (hs : Switched s h c) (hi : RingInv s h)
  (hactive : s.activeTable = cfg.slotOf s.maxIdxTableId)
include hs hi hactive

theorem Switched.not_full : (memTblFull (s.memTable s.activeTable) ||
      !sameTableLsnPrefix (s.memTable s.activeTable).data c.info.lsn) = false := by
  have hfree := hi.freeHead_of_empty (by rw [hs.num]; exact Nat.lt_succ_self _)
  rw [memTblFull, sameTableLsnPrefix, hactive, hfree, hs.prefix_eq]
  simp [memTblSegNum]

/-- Behind the wait: the entry is the first of the new table. -/
theorem Switched.nextFree (hins : Insertable h c.info) : TurnOk r s h c (nextFreeSeg s c) := by
  have hstate := hactive ▸ hs.slot_state hi
  have hpfx := hactive ▸ hs.prefix_eq
  have hfin := fun (m : LogMemTable) hm hst hdata => hi.finishInsert_empty (m := m) (r := r) hs.num
    hactive (hs.active.trans hactive.symm) hins hs.fresh hm hst hdata
      (.inl (place_new hs.nofit).symm)
  rw [nextFreeSeg, if_pos hstate]
  split
  · exact hfin _ rfl hstate rfl
  · rw [if_neg (by rw [hs.not_full hi hactive]; decide)]
    exact hfin _ rfl hstate (by rw [← hpfx])

end

/-! ## Waiting for a slot -/

theorem none_active_zero (hnone : ∀ m, (s.memTable m).state ≠ .active) (mid m : Nat) :
    ((s.setTable mid zeroMemTable).memTable m).state ≠ .active := by
  by_cases heq : m = mid
  · subst heq
    rw [setTable_memTable_self]
    decide
  · rw [setTable_memTable_of_ne _ _ heq]
    exact hnone m

section

variable {mid : Nat} (hi : RingInv s h)
include hi

theorem RingInv.setTable_zero (hf : (s.memTable mid).state = .free) :
    s.setTable mid zeroMemTable = s := by
  rw [← (hi.slots mid).freed hf, Snapshot.setTable, Function.update_eq_self]

theorem RingInv.zeroClosed
    (hst : (s.memTable mid).state = .free ∨ (s.memTable mid).state = .flushed) :
    RingInv (s.setTable mid zeroMemTable) h := by
  rcases hst with hf | hf
  · rwa [hi.setTable_zero hf]
  · exact hi.setClosed hf (.inl rfl)

/-- The turn of the wait that opens the slot; `s` is the snapshot behind the
inserter's own save. -/
theorem RingInv.waitActiveTurn_done {s0 : Snapshot cfg} {lsn : Nat} {flushable : Bool}
    (hsave : (if (s0.memTable mid).state = .inactive then forceSaveTable s0 mid flushable
      else some s0) = some s)
    (hst : (s.memTable mid).state = .free ∨ (s.memTable mid).state = .flushed) :
    waitActiveTurn s0 mid lsn flushable =
      some (newActive (s.setTable mid zeroMemTable) mid lsn, true) := by
  have hzero : (if (s.memTable mid).state = .flushed then s.setTable mid zeroMemTable else s) =
      s.setTable mid zeroMemTable := by
    split
    · rfl
    · exact (hi.setTable_zero (hst.resolve_right ‹_›)).symm
  have hself : (newActive (s.setTable mid zeroMemTable) mid lsn).memTable mid =
      memTblNewActive _ _ lsn := setTable_memTable_self ..
  rw [waitActiveTurn, hsave]
  simp only [hzero]
  rw [if_pos (by rw [setTable_memTable_self]; rfl), hself]
  rfl

end

section

variable (hw : Waiting s h c)
include hw

theorem Waiting.openNext (hi : RingInv s h)
    (hst : (s.memTable c.table).state = .free ∨ (s.memTable c.table).state = .flushed) :
    RingInv (newActive (s.setTable c.table zeroMemTable) c.table c.info.lsn) h ∧
      Switched (newActive (s.setTable c.table zeroMemTable) c.table c.info.lsn) h c := by
  have hi₁ := hi.zeroClosed hst
  have hself : (newActive (s.setTable c.table zeroMemTable) c.table c.info.lsn).memTable c.table =
      memTblNewActive _ _ c.info.lsn := setTable_memTable_self ..
  have hfree : ((s.setTable c.table zeroMemTable).memTable c.table).state = .free := by
    rw [setTable_memTable_self]
    rfl
  obtain ⟨hnum, hnone, htable, hactive, hfresh, hnofit, hnext⟩ := hw
  rw [htable] at hactive hfree hnext hself ⊢
  refine ⟨?_, by rw [hnum]; rfl, ?_, hactive, hfresh, hnofit, hnext⟩
  · rw [htable] at hi₁
    exact hi₁.openNext _ hfree hnum (none_active_zero hnone _)
  · exact congrArg (·.data.prefixLsn) hself

theorem Waiting.save (hi : RingInv s h) {flushable : Bool}
    (hs' : (if (s.memTable c.table).state = .inactive then forceSaveTable s c.table flushable
      else some s) = some s') :
    RingInv s' h ∧ Waiting s' h c ∧ SaveEffect s s' c.table := by
  split at hs'
  · rename_i hin
    obtain ⟨hi', heff⟩ := hi.forceSave hin hs'
    exact ⟨hi', heff.quiet.waiting hw, heff⟩
  · obtain rfl := some.inj hs'
    exact ⟨hi, hw, SaveEffect.refl ..⟩

theorem Waiting.turn (hi : RingInv s h) {flushable done : Bool}
    (ht : waitActiveTurn s c.table c.info.lsn flushable = some (s', done)) :
    RingInv s' h ∧ PcInv r s' h (if done then .setActive c else .waitActive c) ∧
      s.saved ≤ s'.saved ∧
      s.maxIdxTableId ≤ s'.maxIdxTableId ∧ s'.adding = s.adding ∧
      s'.logMeta.minSegmentInfo.segmentNo = s.logMeta.minSegmentInfo.segmentNo := by
  cases hs1 : (if (s.memTable c.table).state = .inactive then
      forceSaveTable s c.table flushable else some s) with
  | none =>
    rw [waitActiveTurn, hs1] at ht
    cases ht
  | some s1 =>
    obtain ⟨hi1, hw1, heff⟩ := hw.save hi hs1
    have hmax : s.maxIdxTableId ≤ s1.maxIdxTableId + 1 := by rw [heff.maxIdxTableId]; omega
    by_cases hst : (s1.memTable c.table).state = .free ∨ (s1.memTable c.table).state = .flushed
    · obtain ⟨hi2, hsw⟩ := hw1.openNext hi1 hst
      rw [hi1.waitActiveTurn_done hs1 hst] at ht
      cases ht
      exact ⟨hi2, hsw, heff.saved_le, hmax, heff.adding, heff.min_seg⟩
    · have hnone := hw1.none_active c.table
      rw [not_or] at hst
      rw [waitActiveTurn, hs1] at ht
      simp only [if_neg hst.1, if_neg hst.2, hnone, decide_false, Bool.false_and] at ht
      cases ht
      exact ⟨hi1, hw1, heff.saved_le, heff.maxIdxTableId.symm.le, heff.adding, heff.min_seg⟩

end

theorem Switched.setActive (hs : Switched s h c) (hi : RingInv s h) :
    RingInv (setActive s c) h ∧ Switched (setActive s c) h c ∧
      (setActive s c).activeTable = cfg.slotOf (setActive s c).maxIdxTableId := by
  rw [LogIndex.setActive]
  rcases hs.next with hn | ⟨hn, hact⟩
  · rw [hn]
    exact ⟨hi.congr rfl rfl rfl rfl rfl,
      ⟨hs.num, hs.prefix_eq, hs.active, hs.fresh, hs.nofit, .inl hn⟩, rfl⟩
  · rw [hn]
    exact ⟨hi, hs, hact⟩

/-! ## Steps of the system -/

theorem added_place (h : Tables) (e : LogIndexLsn) :
    Added h (place h e) e (tableNum (place h e)) := by
  unfold place
  split
  · rename_i hc
    exact (added_addLast e hc.1).num ▸ added_addLast e hc.1
  · exact (added_new h e).num ▸ added_new h e

variable {pc' : InsertPc}

/-- An entry that goes into a table is added to the newest one. -/
theorem TablesStep.added (ht : TablesStep r s s' h h' pending pc') :
    (h' = h ∧ (pc'.pending = pending ∨ pc' = .idle)) ∨
      ∃ e, pending = [e] ∧ pc' = .idle ∧ s'.maxIdxTableId = tableNum h' ∧
        Added h h' e (tableNum h') := by
  rcases ht with ⟨hh, hp⟩ | ⟨e, hp, hpc, hnum, hplace⟩ | ⟨e, -, hpc, hh, -⟩
  · exact .inl ⟨hh, .inl hp⟩
  · refine .inr ⟨e, hp, hpc, hnum, ?_⟩
    rcases hplace with rfl | ⟨-, -, rfl⟩
    · exact added_place h e
    · exact (added_new h e).num ▸ added_new h e
  · exact .inl ⟨hh, .inr hpc⟩

theorem TablesStep.saved_same
    (ht : TablesStep r s s' h h' pending pc') (hi' : RingInv s' h') (hpc : PcInv r s' h' pc')
    (h1 : 0 < t) (hle : t ≤ s'.saved) : tableEntries h' t = tableEntries h t := by
  rcases ht.added with ⟨rfl, -⟩ | ⟨e, -, rfl, hnum, hadd⟩
  · rfl
  · have hpos : 0 < s'.maxIdxTableId := by
      have := hi'.saved_le
      omega
    have hlt := ((hi'.slots _).active (hpc.live hpos)).1
    exact hadd.other t h1 (by omega)

variable {x x' : Sys cfg}

structure SysStep (r : Prop) (x x' : Sys cfg) (h h' : Tables) (pending : List LogIndexLsn) :
    Prop where
  inv : SysInv r x' h'
  tables : TablesStep r x.snap x'.snap h h' pending x'.inserter
  adding : x'.snap.adding = false → x.snap.adding = false ∧ h' = h
  saved_le : x.snap.saved ≤ x'.snap.saved
  max_le : x.snap.maxIdxTableId ≤ x'.snap.maxIdxTableId
  min_seg : x'.snap.logMeta.minSegmentInfo.segmentNo = x.snap.logMeta.minSegmentInfo.segmentNo

theorem SysStep.adding_true (hstep : SysStep r x x' h h' pending) (hadd : x.snap.adding = true) :
    x'.snap.adding = true := by
  by_contra hf
  rw [(hstep.adding (Bool.eq_false_iff.mpr hf)).1] at hadd
  cases hadd

/-- What is left of a step lemma once the ring and the inserter are
settled. -/
theorem SysInv.next (hx : SysInv r x h)
    (hi' : RingInv x'.snap h') (hpc : PcInv r x'.snap h' x'.inserter)
    (ht : TablesStep r x.snap x'.snap h h' pending x'.inserter)
    (hsaved : x.snap.saved ≤ x'.snap.saved)
    (hmax : x.snap.maxIdxTableId ≤ x'.snap.maxIdxTableId)
    (hseg : x'.snap.logMeta.minSegmentInfo.segmentNo = x.snap.logMeta.minSegmentInfo.segmentNo)
    (hadding : x'.snap.adding = false → x'.inserter = .idle ∧ x.snap.adding = false ∧ h' = h)
    (hcaches : ∀ p, x'.caches p = x.caches p ∨ CacheOk cfg (x'.caches p) x'.snap.saved h')
    (hpending : (∀ e ∈ pending, 0 < e.lsn ∧ e.lsn < uint64Max) ∧
      LsnSorted (h.flatten ++ pending) ∨ x'.inserter = .idle) :
    SysStep r x x' h h' pending := by
  have hpend : (∀ e ∈ x'.inserter.pending, 0 < e.lsn ∧ e.lsn < uint64Max) ∧
      LsnSorted (h'.flatten ++ x'.inserter.pending) := by
    by_cases hidle : x'.inserter = .idle
    · rw [hidle]
      exact ⟨nofun, by simpa [InsertPc.pending] using hi'.sorted⟩
    · rcases ht.added with ⟨rfl, heq⟩ | ⟨e, -, hpc', -⟩
      · rw [heq.resolve_right hidle]
        exact hpending.resolve_right hidle
      · exact absurd hpc' hidle
  refine ⟨⟨hi', hpc, fun p => ?_, fun hf => (hadding hf).1, hpend.1, hpend.2⟩, ht,
    fun hf => (hadding hf).2, hsaved, hmax, hseg⟩
  rcases hcaches p with heq | hok
  · rw [heq]
    exact (hx.caches p).mono hsaved fun t h1 hle =>
      ht.saved_same hi' hpc h1 (hle.trans hsaved)
  · exact hok

/-- What callers of `polar_logindex_add_lsn` promise about an entry that
the overlap filters let through: its LSN is valid and not below those of
earlier entries. -/
def CallOk (x : Sys cfg) (h : Tables) : Action → Prop
  | .addLsn e => x.snap.adding = true ∨ alreadySaved x.snap e = false →
      (0 < e.lsn ∧ e.lsn < uint64Max) ∧ LsnSorted (h.flatten ++ [e])
  | _ => True

theorem SysInv.settled (hx : SysInv r x h) (hidle : x.inserter = .idle) : Settled r x.snap h := by
  have hpc := hx.pc
  rwa [hidle] at hpc

theorem SysInv.addLsn (hx : SysInv r x h) (hok : CallOk x h (.addLsn e))
    (hidle : x.inserter = .idle) :
    ∃ h', SysStep r x { x with snap := (addLsn x.snap e).1, inserter := (addLsn x.snap e).2 }
      h h' [e] := by
  have hset := hx.settled hidle
  by_cases hskip : (!x.snap.adding && alreadySaved x.snap e) = true
  · have hres : LogIndex.addLsn x.snap e = (x.snap, .idle) := by
      rw [LogIndex.addLsn, if_pos hskip]
    rw [hres]
    simp only [Bool.and_eq_true, Bool.not_eq_true'] at hskip
    exact ⟨h, hx.next hx.ring hset (.inr (.inr ⟨e, rfl, rfl, rfl, rfl, hskip⟩)) le_rfl
      le_rfl rfl (fun _ => ⟨rfl, hskip.1, rfl⟩) (fun _ => .inl rfl) (.inr rfl)⟩
  · have hcall := hok (by simpa [or_iff_not_imp_left] using hskip)
    have hi1 : RingInv { x.snap with adding := true } h := hx.ring.congr rfl rfl rfl rfl rfl
    have hset1 : Settled r { x.snap with adding := true } h :=
      { hset with }
    rw [LogIndex.addLsn, if_neg hskip]
    by_cases happ : appendInPlace { x.snap with adding := true }
        (startCall { x.snap with adding := true } e) = true
    · simp only [if_pos happ]
      obtain ⟨hnum, hi', hs'⟩ := hset1.append hi1 happ hcall
      exact ⟨_, hx.next hi' hs' (.inr (.inl ⟨e, rfl, rfl, hnum.symm, .inl rfl⟩)) le_rfl
        le_rfl rfl (nofun) (fun _ => .inl rfl) (.inr rfl)⟩
    · simp only [if_neg happ]
      refine ⟨h, hx.next hi1 (.inl ⟨hset1, rfl, by simpa using happ⟩) (.inl ⟨rfl, rfl⟩)
        le_rfl le_rfl rfl (nofun) (fun _ => .inl rfl)
        (.inl ⟨?_, hcall.2⟩)⟩
      simpa using hcall.1

theorem nextFreeSeg_frame (s : Snapshot cfg) (c : InsertCall) :
    (nextFreeSeg s c).1.adding = s.adding ∧ (nextFreeSeg s c).1.maxIdxTableId = s.maxIdxTableId ∧
      (nextFreeSeg s c).1.logMeta = s.logMeta := by
  rw [nextFreeSeg]
  split
  · split
    · exact ⟨rfl, rfl, rfl⟩
    · split <;> exact ⟨rfl, rfl, rfl⟩
  · split <;> exact ⟨rfl, rfl, rfl⟩

theorem setActive_frame (s : Snapshot cfg) (c : InsertCall) :
    (setActive s c).adding = s.adding ∧ (setActive s c).maxIdxTableId = s.maxIdxTableId ∧
      (setActive s c).logMeta = s.logMeta := by
  rw [setActive]
  split <;> exact ⟨rfl, rfl, rfl⟩

theorem SysInv.nextFreeSeg (hx : SysInv r x h) {c : InsertCall} (hc : x.inserter = .nextFreeSeg c) :
    ∃ h', SysStep r x { x with
        snap := (nextFreeSeg x.snap c).1, inserter := (nextFreeSeg x.snap c).2 }
      h h' [c.info] := by
  have hpc := hx.pc
  have hvalid := hx.pending_valid
  have hsorted := hx.pending_sorted
  rw [hc] at hpc hvalid hsorted
  have hins : Insertable h c.info := ⟨hvalid c.info (mem_singleton_self _), hsorted⟩
  have hadding : x.snap.adding = true := by
    by_contra hf
    rw [hx.adding (by simpa using hf)] at hc
    cases hc
  obtain ⟨h', hi', hpc', ht⟩ : TurnOk r x.snap h c (LogIndex.nextFreeSeg x.snap c) := by
    rcases hpc with ⟨hs, heq, happ⟩ | ⟨hs, hact⟩
    · exact hs.nextFree hx.ring heq happ hins
    · exact hs.nextFree hx.ring hact hins
  obtain ⟨hadd, hmax, hmeta⟩ := nextFreeSeg_frame x.snap c
  refine ⟨h', hx.next hi' hpc' ht (congrArg (·.maxIdxTableId) hmeta).ge (by rw [hmax])
    (by rw [hmeta]) (fun hf => ?_) (fun _ => .inl rfl) (.inl ⟨hvalid, hsorted⟩)⟩
  rw [hadd, hadding] at hf
  cases hf

theorem SysInv.quiet (hx : SysInv r x h) (hq : Quiet x.snap x'.snap)
    (hpc : x'.inserter = x.inserter) (hi' : RingInv x'.snap h)
    (hsaved : x.snap.saved ≤ x'.snap.saved)
    (hseg : x'.snap.logMeta.minSegmentInfo.segmentNo = x.snap.logMeta.minSegmentInfo.segmentNo)
    (hadding : x'.snap.adding = x.snap.adding)
    (hcaches : ∀ p, x'.caches p = x.caches p ∨ CacheOk cfg (x'.caches p) x'.snap.saved h) :
    SysStep r x x' h h x.inserter.pending := by
  refine hx.next hi' ?_ (.inl ⟨rfl, by rw [hpc]⟩) hsaved hq.maxIdxTableId.symm.le hseg ?_ hcaches
    (.inl ⟨hx.pending_valid, hx.pending_sorted⟩)
  · rw [hpc]
    exact hq.pcInv hx.ring hx.pc
  · rw [hadding, hpc]
    exact fun hf => ⟨hx.adding hf, hf, rfl⟩

theorem SysInv.read (hx : SysInv r x h) (hi' : RingInv s' h) (heff : ReadEffect x.snap s')
    {c' : TableCache} (hc' : CacheOk cfg c' s'.saved h) (proc : Nat) :
    SysStep r x { x with snap := s', caches := Function.update x.caches proc c' } h h
      x.inserter.pending := by
  refine hx.quiet heff.quiet rfl hi' heff.saved.ge (by rw [heff.logMeta]) heff.adding fun p => ?_
  by_cases hp : p = proc
  · subst hp
    simpa only [Function.update_self] using .inr hc'
  · exact .inl (Function.update_of_ne hp ..)

theorem append_addCalls (hnil : addCalls [a] = []) : pending ++ addCalls [a] = pending := by
  rw [hnil, append_nil]

theorem SysInv.step (hx : SysInv r x h) (hok : CallOk x h a) (hst : step x a = some x') :
    ∃ h', SysStep r x x' h h' (x.inserter.pending ++ addCalls [a]) := by
  cases a with
  | addLsn e =>
    simp only [LogIndex.step] at hst
    split at hst
    · rename_i hidle
      cases hst
      rw [hidle]
      exact hx.addLsn hok hidle
    · cases hst
  | nextFreeSeg =>
    simp only [LogIndex.step] at hst
    split at hst
    · rename_i c hc
      cases hst
      rw [hc]
      exact hx.nextFreeSeg hc
    · cases hst
  | waitActive flushable =>
    simp only [LogIndex.step] at hst
    split at hst
    · rename_i c hc
      have hw := hx.pc
      rw [hc] at hw
      split at hst
      · cases hst
      · rename_i snap done hturn
        cases hst
        obtain ⟨hi', hpc, hsaved, hmax, hadding, hseg⟩ := hw.turn (r := r) hx.ring hturn
        have hpend : x.inserter.pending =
            (if done then InsertPc.setActive c else .waitActive c).pending := by
          rw [hc]
          cases done <;> rfl
        rw [append_addCalls rfl]
        refine ⟨h, hx.next hi' hpc (.inl ⟨rfl, hpend.symm⟩) hsaved hmax hseg (fun hf => ?_)
          (fun _ => .inl rfl) (.inl ⟨hx.pending_valid, hx.pending_sorted⟩)⟩
        rw [hx.adding (hadding ▸ hf)] at hc
        cases hc
    · cases hst
  | setActive =>
    simp only [LogIndex.step] at hst
    split at hst
    · rename_i c hc
      have hs := hx.pc
      rw [hc] at hs
      cases hst
      obtain ⟨hi', hpc⟩ := hs.setActive hx.ring
      obtain ⟨hadd, hmax, hmeta⟩ := setActive_frame x.snap c
      rw [append_addCalls rfl]
      refine ⟨h, hx.next hi' (.inr hpc) (.inl ⟨rfl, by rw [hc]; rfl⟩)
        (congrArg (·.maxIdxTableId) hmeta).ge (by rw [hmax]) (by rw [hmeta]) (fun hf => ?_)
          (fun _ => .inl rfl)
        (.inl ⟨hx.pending_valid, hx.pending_sorted⟩)⟩
      rw [hx.adding (hadd ▸ hf)] at hc
      cases hc
    · cases hst
  | flushTable mid flushActive flushable last =>
    obtain ⟨-, hst⟩ := ite_none_right_eq_some.mp hst
    obtain ⟨snap, hfl, rfl⟩ := map_eq_some_iff.mp hst
    obtain ⟨hi', heff⟩ := hx.ring.flush hfl
    rw [append_addCalls rfl]
    exact ⟨h, hx.quiet heff.quiet rfl hi' heff.saved_le heff.min_seg heff.adding fun _ => .inl rfl⟩
  | readTable proc tid shared exclusive =>
    obtain ⟨hguard, hst⟩ := ite_none_right_eq_some.mp hst
    obtain ⟨⟨d, snap, cache⟩, hrd, rfl⟩ := map_eq_some_iff.mp hst
    have hle := hx.ring.le_of_read (hx.caches proc) (by rw [hrd]; exact some_ne_none _)
    obtain ⟨d', snap', cache', hrd', -, hi', heff, hc'⟩ :=
      hx.ring.read (hx.caches proc) hguard.1 hguard.2 hle shared exclusive
    rw [hrd'] at hrd
    obtain ⟨-, hsnap, hcache⟩ : d' = d ∧ snap' = snap ∧ cache' = cache := by
      simpa [Prod.ext_iff] using hrd
    subst hsnap hcache
    rw [append_addCalls rfl]
    exact ⟨h, hx.read hi' heff (heff.saved ▸ hc') proc⟩

/-! ## Runs from an empty directory -/

/-- What callers promise about the entries of a run: valid LSNs that do
not decrease. -/
structure CallsOk (es : List LogIndexLsn) : Prop where
  valid : ∀ e ∈ es, 0 < e.lsn ∧ e.lsn < uint64Max
  sorted : LsnSorted es

theorem CallsOk.sublist {es' : List LogIndexLsn} (hok : CallsOk es) (hs : es'.Sublist es) :
    CallsOk es' :=
  ⟨fun e he => hok.valid e (hs.subset he), List.Pairwise.sublist hs hok.sorted⟩

theorem addCalls_append (as bs : List Action) : addCalls (as ++ bs) = addCalls as ++ addCalls bs :=
  filterMap_append

theorem CallsOk.left {bs : List Action} (hok : CallsOk (addCalls (as ++ bs))) :
    CallsOk (addCalls as) := by
  rw [addCalls_append] at hok
  exact hok.sublist (sublist_append_left ..)

theorem sysInv_init (cfg : Config) : SysInv False (initSys cfg) [] where
  ring := ringInv_init cfg
  pc := ⟨by simp [initSys, Config.slotOf], fun h0 => absurd h0 (lt_irrefl 0),
    fun h0 => absurd h0 (lt_irrefl 0)⟩
  caches _ := cacheOk_empty ..
  adding _ := rfl
  pending_valid := by simp [initSys, InsertPc.pending]
  pending_sorted := List.Pairwise.nil

theorem RingInv.alreadySaved_eq_false (hi : RingInv s h) (hz : tableNum h = 0)
    (he : 0 < e.lsn) : alreadySaved s e = false := by
  have hle := hi.saved_le
  obtain ⟨hmax, hstart, -⟩ := hi.metaOk.zero (show s.saved = 0 by omega)
  rw [alreadySaved, hmax, hstart]
  simp only [invalidXLogRecPtr]
  have h0 : ¬ 0 = e.lsn := by omega
  simp [h0]

/-- After the actions `as` the entries `es` are in the tables, which are
their cut. -/
structure AddedRun (as : List Action) (x : Sys cfg) (es : List LogIndexLsn) : Prop where
  calls : addCalls as = es ++ x.inserter.pending
  inv : SysInv False x (cut es)
  adding : x.snap.adding = false → es = []

section

variable (hf : AddedRun as x es) (hok : CallsOk (addCalls (as ++ [a])))
include hf hok

theorem AddedRun.callOk : CallOk x (cut es) a := by
  cases a with
  | addLsn e =>
    intro _
    rw [addCalls_append] at hok
    have hin : e ∈ addCalls as ++ addCalls [.addLsn e] := mem_concat_self
    refine ⟨hok.valid e hin, ?_⟩
    rw [cut_flatten]
    refine List.Pairwise.sublist ?_ hok.sorted
    rw [hf.calls]
    exact List.Sublist.append_right (sublist_append_left ..) _
  | _ => trivial

theorem AddedRun.step (hst : step x a = some x') : ∃ es', AddedRun (as ++ [a]) x' es' ∧
      SysStep False x x' (cut es) (cut es') (x.inserter.pending ++ addCalls [a]) := by
  have hcalls : addCalls (as ++ [a]) = es ++ (x.inserter.pending ++ addCalls [a]) := by
    rw [addCalls_append, hf.calls, append_assoc]
  obtain ⟨h', hstep⟩ := hf.inv.step (hf.callOk hok) hst
  rcases hstep.tables with ⟨rfl, hpend⟩ | ⟨e, hp, hidle, -, hplace⟩ | ⟨e, hp, -, -, -, hadd, hsaved⟩
  · exact ⟨es, ⟨by rw [hcalls, hpend], hstep.inv, fun h0 => hf.adding (hstep.adding h0).1⟩, hstep⟩
  · have hplace := hplace.resolve_right fun hr => hr.1
    rw [hplace, ← cut_append] at hstep
    refine ⟨es ++ [e], ⟨?_, hstep.inv, fun h0 => ?_⟩, hstep⟩
    · rw [hcalls, hp, hidle, InsertPc.pending, append_nil]
    · have hsame := congrArg flatten (hstep.adding h0).2
      rw [cut_flatten, cut_flatten] at hsame
      simp at hsame
  · have hin : e ∈ addCalls (as ++ [a]) := by
      rw [hcalls, hp]
      simp
    have hring := hf.inv.ring
    rw [hf.adding hadd] at hring
    rw [hring.alreadySaved_eq_false rfl (hok.valid e hin).1] at hsaved
    cases hsaved

end

/-- Without truncations the first segment is the oldest one. -/
structure FreshRun (as : List Action) (x : Sys cfg) (es : List LogIndexLsn) : Prop
    extends AddedRun as x es where
  min_seg : x.snap.logMeta.minSegmentInfo.segmentNo = 0

theorem FreshRun.step (hf : FreshRun as x es) (hok : CallsOk (addCalls (as ++ [a])))
    (hst : step x a = some x') : ∃ es', FreshRun (as ++ [a]) x' es' ∧
      SysStep False x x' (cut es) (cut es') (x.inserter.pending ++ addCalls [a]) := by
  obtain ⟨es', hf', hstep⟩ := hf.toAddedRun.step hok hst
  exact ⟨es', ⟨hf', hstep.min_seg.trans hf.min_seg⟩, hstep⟩

theorem freshRun_init (cfg : Config) : FreshRun [] (initSys cfg) [] :=
  ⟨⟨rfl, sysInv_init cfg, fun _ => rfl⟩, rfl⟩

end PolarDB.LogIndex
