import PolarDB.LogIndexRingRun

/-!
# Safety of the ring of tables

What the ring promises to the rest of the system, in every state of every
run of the inserter, the flusher and the readers (`RingSafe`), and from
any state of a run to any later one (`Kept`).

It is not true that some slot is always ACTIVE: a fresh ring has none, and
neither has a ring whose inserter has retired the full table and waits
for the next slot to come free (`retiredRun`).
-/

namespace PolarDB.LogIndex

open List

variable {cfg : Config} {x y : Sys cfg} {h h' : Tables} {r : Prop}

def InsertPc.isWaiting : InsertPc → Bool
  | .waitActive _ => true
  | _ => false

/-- The entries of a run that are in tables: all but the one in hand. -/
def addedEntries (as : List Action) (x : Sys cfg) : List LogIndexLsn :=
  (addCalls as).take ((addCalls as).length - x.inserter.pending.length)

def ReadsAs (d : LogIdxTableData) (t : Nat) (es : List LogIndexLsn) : Prop :=
  d.idxTableId = t ∧ tblEntries d = es.map fun e => (e.tag, e.lsn)

def HeldBy (s : Snapshot cfg) (t : Nat) (es : List LogIndexLsn) : Prop :=
  ReadsAs (s.memTable (cfg.slotOf t)).data t es ∧
    ((s.memTable (cfg.slotOf t)).state = .active ∨ (s.memTable (cfg.slotOf t)).state = .inactive)

/-- The safety of one state. -/
structure RingSafe (x : Sys cfg) (h : Tables) : Prop where
  unsaved : ∀ t, x.snap.logMeta.maxIdxTableId < t → t ≤ x.snap.maxIdxTableId →
    HeldBy x.snap t (tableEntries h t)
  active_le_one : ∀ m m', (x.snap.memTable m).state = .active →
    (x.snap.memTable m').state = .active → m = m'
  active_iff : (∃ m, (x.snap.memTable m).state = .active) ↔
    0 < x.snap.maxIdxTableId ∧ x.inserter.isWaiting = false
  saved : ∀ t, 0 < t → x.snap.logMeta.minSegmentInfo.minIdxTableId ≤ t →
    t ≤ x.snap.logMeta.maxIdxTableId →
    ∃ d, readTableData x.snap t = some d ∧ ReadsAs d t (tableEntries h t)
  max_lsn : 0 < x.snap.logMeta.maxIdxTableId →
    IsGreatest { l | ∃ t, 0 < t ∧ t ≤ x.snap.logMeta.maxIdxTableId ∧
      ∃ e ∈ tableEntries h t, e.lsn = l } x.snap.logMeta.maxLsn

/-- From one state to a later one: an unsaved table is saved or still in
its slot, and a saved table keeps its entries. -/
structure Kept (x y : Sys cfg) (h h' : Tables) : Prop where
  unsaved : ∀ t, x.snap.logMeta.maxIdxTableId < t → t ≤ x.snap.maxIdxTableId →
    (t ≤ y.snap.logMeta.maxIdxTableId ∨ HeldBy y.snap t (tableEntries h' t)) ∧
      tableEntries h t <+: tableEntries h' t
  saved : ∀ t, 0 < t → t ≤ x.snap.logMeta.maxIdxTableId →
    t ≤ y.snap.logMeta.maxIdxTableId ∧ tableEntries h' t = tableEntries h t

/-! ## The invariant gives safety -/

variable {es : List LogIndexLsn} {t : Nat} {s : Snapshot cfg} {as bs : List Action}

theorem DataRep.readsAs {d : LogIdxTableData} (hd : DataRep cfg d t es) : ReadsAs d t es := by
  obtain ⟨htid, free, lay, hr⟩ := hd
  exact ⟨htid, hr.tblEntries⟩

theorem RingInv.heldBy (hi : RingInv s h) (ht : s.saved < t) (ht' : t ≤ s.maxIdxTableId) :
    HeldBy s t (tableEntries h t) := by
  obtain ⟨⟨htid, hholds⟩, hst⟩ := hi.opened t ht ht'
  have hd : DataRep cfg (s.memTable (cfg.slotOf t)).data t (tableEntries h t) := ⟨htid, _, hholds⟩
  exact ⟨hd.readsAs, hst⟩

theorem PcInv.active_iff {pc : InsertPc} (hpc : PcInv r s h pc) (hi : RingInv s h) :
    (∃ m, (s.memTable m).state = .active) ↔ 0 < s.maxIdxTableId ∧ pc.isWaiting = false := by
  have hpos : (∃ m, (s.memTable m).state = .active) → 0 < s.maxIdxTableId := by
    rintro ⟨m, hm⟩
    exact Nat.zero_lt_of_lt ((hi.slots m).active hm).1
  have hsettled : Settled r s h → 0 < s.maxIdxTableId → ∃ m, (s.memTable m).state = .active :=
    fun hs hT => ⟨_, hs.live hT⟩
  cases pc with
  | idle => exact ⟨fun hm => ⟨hpos hm, rfl⟩, fun hT => hsettled hpc hT.1⟩
  | nextFreeSeg c =>
    refine ⟨fun hm => ⟨hpos hm, rfl⟩, fun hT => ?_⟩
    rcases hpc with ⟨hs, -⟩ | ⟨hs, -⟩
    · exact hsettled hs hT.1
    · exact ⟨_, hs.slot_state hi⟩
  | waitActive c =>
    exact ⟨fun ⟨m, hm⟩ => absurd hm (hpc.none_active m), fun hT => Bool.noConfusion hT.2⟩
  | setActive c => exact ⟨fun hm => ⟨hpos hm, rfl⟩, fun _ => ⟨_, hpc.slot_state hi⟩⟩

theorem RingInv.maxLsn_greatest (hi : RingInv s h) (hpos : 0 < s.saved) :
    IsGreatest { l | ∃ t, 0 < t ∧ t ≤ s.saved ∧
      ∃ e ∈ tableEntries h t, e.lsn = l } s.logMeta.maxLsn := by
  have hmax := hi.metaOk.max_lsn hpos
  have hnum := hi.saved_le
  constructor
  · obtain ⟨e, he, heq⟩ := exists_entriesMaxLsn (hi.nonempty _ (tableEntries_mem hpos hnum))
    exact ⟨_, hpos, le_rfl, e, he, by rw [heq, hmax]⟩
  · rintro l ⟨t, h1, ht, e, he, rfl⟩
    rw [hmax]
    exact (le_entriesMaxLsn he).trans (entriesMaxLsn_mono hi.sorted hi.nonempty h1 ht hnum)

theorem SysInv.ringSafe (hx : SysInv r x h) : RingSafe x h where
  unsaved _ ht ht' := hx.ring.heldBy ht ht'
  active_le_one m m' hm hm' :=
    ((hx.ring.slots m).active hm).2.trans ((hx.ring.slots m').active hm').2.symm
  active_iff := hx.pc.active_iff hx.ring
  saved t h1 hmin ht := by
    obtain ⟨d, hd, hrep⟩ := hx.ring.stored t h1 hmin ht
    exact ⟨d, hd, hrep.readsAs⟩
  max_lsn hpos := hx.ring.maxLsn_greatest hpos

/-! ## From one state to a later one -/

structure TablesKept (x y : Sys cfg) (h h' : Tables) : Prop where
  saved_le : x.snap.logMeta.maxIdxTableId ≤ y.snap.logMeta.maxIdxTableId
  max_le : x.snap.maxIdxTableId ≤ y.snap.maxIdxTableId
  saved : ∀ t, 0 < t → t ≤ x.snap.logMeta.maxIdxTableId → tableEntries h' t = tableEntries h t
  grows : ∀ t, 0 < t → tableEntries h t <+: tableEntries h' t

theorem TablesKept.refl (x : Sys cfg) (h : Tables) : TablesKept x x h h :=
  ⟨le_rfl, le_rfl, fun _ _ _ => rfl, fun _ _ => prefix_rfl⟩

theorem TablesKept.trans {z : Sys cfg} {h'' : Tables} (hxy : TablesKept x y h h')
    (hyz : TablesKept y z h' h'') : TablesKept x z h h'' :=
  ⟨hxy.saved_le.trans hyz.saved_le, hxy.max_le.trans hyz.max_le,
    fun t h1 ht => (hyz.saved t h1 (ht.trans hxy.saved_le)).trans (hxy.saved t h1 ht),
    fun t h1 => (hxy.grows t h1).trans (hyz.grows t h1)⟩

theorem SysStep.tablesKept {pending : List LogIndexLsn} (hst : SysStep r x y h h' pending) :
    TablesKept x y h h' := by
  refine ⟨hst.saved_le, hst.max_le, fun t h1 ht => ?_, fun t h1 => ?_⟩
  · exact hst.tables.saved_same hst.inv.ring hst.inv.pc h1 (ht.trans hst.saved_le)
  · rcases hst.tables.added with ⟨rfl, -⟩ | ⟨e, -, -, -, hadd⟩
    · exact prefix_rfl
    · by_cases heq : t = tableNum h'
      · subst heq
        rw [hadd.self]
        exact prefix_append ..
      · exact hadd.other t h1 heq ▸ prefix_rfl

theorem TablesKept.kept (hk : TablesKept x y h h') (hy : SysInv r y h') : Kept x y h h' where
  unsaved t ht ht' := by
    refine ⟨?_, hk.grows t (Nat.zero_lt_of_lt ht)⟩
    by_cases hle : t ≤ y.snap.saved
    · exact .inl hle
    · exact .inr (hy.ring.heldBy (by omega) (ht'.trans hk.max_le))
  saved t h1 ht := ⟨ht.trans hk.saved_le, hk.saved t h1 ht⟩

instance (es : List LogIndexLsn) : Decidable (LsnSorted es) :=
  inferInstanceAs (Decidable (List.Pairwise _ _))

theorem AddedRun.addedEntries (hf : AddedRun as x es) : addedEntries as x = es := by
  rw [LogIndex.addedEntries, hf.calls, length_append, Nat.add_sub_cancel, take_left]

theorem FreshRun.extend (hf : FreshRun as x es) (hok : CallsOk (addCalls (as ++ bs)))
    (hrun : exec LogIndex.step x bs = some y) :
    ∃ es', FreshRun (as ++ bs) y es' ∧ TablesKept x y (cut es) (cut es') := by
  refine exec_invariant (fun bs y => CallsOk (addCalls (as ++ bs)) →
    ∃ es', FreshRun (as ++ bs) y es' ∧ TablesKept x y (cut es) (cut es')) ?_ ?_ hrun hok
  · intro _
    rw [append_nil]
    exact ⟨es, hf, TablesKept.refl ..⟩
  · intro bs y a z ih hst hok
    rw [← append_assoc] at hok ⊢
    obtain ⟨es', hf', hkept⟩ := ih hok.left
    obtain ⟨es'', hf'', hstep⟩ := hf'.step hok hst
    exact ⟨es'', hf'', hkept.trans hstep.tablesKept⟩

theorem exists_freshRun (hok : CallsOk (addCalls as)) (hrun : exec step (initSys cfg) as = some x) :
    ∃ es, FreshRun as x es := by
  obtain ⟨es, hf, -⟩ := (freshRun_init cfg).extend hok hrun
  exact ⟨es, hf⟩

/-- In every state of a run the ring is safe, and from there to any later
state nothing is lost. -/
theorem ringSafe_of_run {as bs : List Action} (hok : CallsOk (addCalls (as ++ bs)))
    (hx : exec step (initSys cfg) as = some x) (hy : exec step x bs = some y) :
    RingSafe x (cut (addedEntries as x)) ∧
      Kept x y (cut (addedEntries as x)) (cut (addedEntries (as ++ bs) y)) := by
  obtain ⟨es, hf⟩ := exists_freshRun hok.left hx
  obtain ⟨es', hf', hkept⟩ := hf.extend hok hy
  rw [hf.addedEntries, hf'.addedEntries]
  exact ⟨hf.inv.ringSafe, hkept.kept hf'.inv⟩

/-! ## A ring without an ACTIVE slot -/

/-- The second entry has another LSN prefix than the first, so the first
table is retired and the inserter waits for the second slot. -/
def retiredRun : List Action :=
  [.addLsn (pageEntry 7 1), .nextFreeSeg, .waitActive false, .setActive, .nextFreeSeg,
    .addLsn (pageEntry 7 (2 ^ 32)), .nextFreeSeg]

theorem retiredRun_no_active : ∃ x : Sys smallConfig,
    CallsOk (addCalls retiredRun) ∧ exec step (initSys smallConfig) retiredRun = some x ∧
      ¬∃ m < smallConfig.memTblSize, (x.snap.memTable m).state = .active := by
  refine ⟨(exec step (initSys smallConfig) retiredRun).get (by rfl), ⟨by decide, by decide⟩,
    (Option.some_get _).symm, ?_⟩
  rintro ⟨m, hm, hst⟩
  revert m
  decide

/-- The inserter opens the second table and adds the entry. -/
def reopenedRun : List Action := [.waitActive false, .setActive, .nextFreeSeg]

theorem ringSafe_retiredRun : ∃ x y : Sys smallConfig,
    exec step (initSys smallConfig) retiredRun = some x ∧ exec step x reopenedRun = some y ∧
      RingSafe x (cut (addedEntries retiredRun x)) ∧
      Kept x y (cut (addedEntries retiredRun x))
      (cut (addedEntries (retiredRun ++ reopenedRun) y)) := by
  have hx := (Option.some_get (x := exec step (initSys smallConfig) retiredRun) (by rfl)).symm
  have hy := (Option.some_get (x := exec step ((exec step (initSys smallConfig) retiredRun).get
    (by rfl)) reopenedRun) (by rfl)).symm
  exact ⟨_, _, hx, hy, ringSafe_of_run ⟨by decide, by decide⟩ hx hy⟩

end PolarDB.LogIndex
