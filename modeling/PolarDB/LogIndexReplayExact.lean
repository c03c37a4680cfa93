import PolarDB.LogIndexReplay

/-!
# When a replay gives the tables of a run without restart

Table ids are part of the state that replicas share, so a replay has to
give the tables that the stream would have had without the restart
(`SameTables`). The saved tables are final: the first unsaved entry does
not fit the last of them (`SysInv.saved_closed`), so behind them the
stream is cut as if it started there (`cut_split`). The stream is added
again from the largest saved LSN on, and the overlap filter knows the last
saved table only: entries of that LSN in an earlier saved table
(`overlap`), and no others, are added a second time
(`replay_sameTables_iff`). A record that fills up one table, goes on in
the next and is followed by one with another LSN prefix gives such an
overlap (`spilledStream`).
-/

namespace PolarDB.LogIndex

open List Option

variable {cfg : Config} {s : Snapshot cfg} {h h0 : Tables} {x y : Sys cfg}
  {stream unsaved : List LogIndexLsn} {bs : List Action}

/-! ## Saved and unsaved entries -/

/-- The first unsaved entry does not fit the last saved table. -/
theorem SysInv.saved_closed (hx : SysInv False x h) (rest : List LogIndexLsn) :
    x.snap.saved < tableNum h ∨ x.snap.saved = tableNum h ∧
      ∀ e ∈ (x.inserter.pending ++ rest).head?, place h e = h ++ [[e]] := by
  have hi := hx.ring
  by_cases hlt : x.snap.saved < tableNum h
  · exact .inl hlt
  have hN : x.snap.saved = tableNum h := hi.saved_le.antisymm (not_lt.mp hlt)
  have hset : Settled False x.snap h → ∀ e, place h e = h ++ [[e]] := by
    intro hs e
    have hnone : ¬ 0 < x.snap.maxIdxTableId := fun hpos => by
      have hopen := ((hi.slots _).active (hs.live hpos)).1
      exact (hs.empty (by omega)).1
    have hnum := hi.num_le
    exact place_new fun hpos => absurd hpos (by omega)
  refine .inr ⟨hN, fun e he => ?_⟩
  have hpc := hx.pc
  cases hc : x.inserter with
  | idle =>
    exact hset (hx.settled hc) e
  | nextFreeSeg c =>
    rw [hc] at hpc he
    obtain rfl := mem_some_iff.mp he
    rcases hpc with ⟨hs, -⟩ | ⟨hs, -⟩
    · exact hset hs _
    · exact place_new hs.nofit
  | waitActive c | setActive c =>
    rw [hc] at hpc he
    obtain rfl := mem_some_iff.mp he
    exact place_new hpc.nofit

/-- The stream is what the tables `h0` hold and then `unsaved`. -/
structure SavedSplit (stream : List LogIndexLsn) (h0 : Tables) (unsaved : List LogIndexLsn) :
    Prop where
  entries : stream = h0.flatten ++ unsaved
  cut : cut stream = h0 ++ cut unsaved
  ge : ∀ e ∈ unsaved, savedMaxLsn h0 ≤ e.lsn
  nodup : (keys stream).Nodup

variable {es : List LogIndexLsn} {e : LogIndexLsn} {as : List Action}

theorem FreshRun.savedSplit {rest : List LogIndexLsn} (hf : FreshRun as x es)
    (hstream : stream = addCalls as ++ rest) (hok : CallsOk stream) (hnodup : (keys stream).Nodup) :
    SavedSplit stream ((LogIndex.cut es).take x.snap.saved)
      (((LogIndex.cut es).drop x.snap.saved).flatten ++
        (x.inserter.pending ++ rest)) := by
  have hall : stream = es ++ (x.inserter.pending ++ rest) := by
    rw [hstream, hf.calls, append_assoc]
  have hentries : stream = ((LogIndex.cut es).take x.snap.saved).flatten ++
      (((LogIndex.cut es).drop x.snap.saved).flatten ++
        (x.inserter.pending ++ rest)) := by
    rw [← append_assoc, ← flatten_append, take_append_drop, cut_flatten, hall]
  refine ⟨hentries, by rw [hall]; exact cut_split (hf.inv.saved_closed rest), fun e he => ?_,
    hnodup⟩
  by_cases hnil : tableEntries ((LogIndex.cut es).take x.snap.saved)
      (tableNum ((LogIndex.cut es).take x.snap.saved)) = []
  · rw [savedMaxLsn, hnil]
    exact Nat.zero_le _
  · obtain ⟨e0, he0, hmax⟩ := exists_entriesMaxLsn hnil
    have hsorted := hok.sorted
    rw [hentries, LsnSorted, pairwise_append] at hsorted
    rw [savedMaxLsn, ← hmax]
    exact hsorted.2.2 e0 ((tableEntries_sublist ..).subset he0) e he

/-! ## The overlap -/

/-- Entries with the largest saved LSN in front of the last saved
table. -/
def overlap (h0 : Tables) : List LogIndexLsn :=
  wanted (savedMaxLsn h0) (h0.take (tableNum h0 - 1)).flatten

theorem flatten_eq_last (h0 : Tables) :
    h0.flatten = (h0.take (tableNum h0 - 1)).flatten ++ tableEntries h0 (tableNum h0) := by
  by_cases hz : tableNum h0 = 0
  · rw [length_eq_zero_iff.mp hz]
    rfl
  · conv_lhs => rw [← dropLast_append_last (Nat.pos_of_ne_zero hz), dropLast_eq_take]
    simp [tableNum]

theorem SavedSplit.wanted_eq (hs : SavedSplit stream h0 unsaved) :
    wanted (savedMaxLsn h0) stream = overlap h0 ++
      (wanted (savedMaxLsn h0) (tableEntries h0 (tableNum h0)) ++ unsaved) := by
  rw [hs.entries, wanted_append, wanted_eq_self hs.ge, flatten_eq_last h0, wanted_append,
    append_assoc]
  rfl

theorem inSaved_of_mem (he : e ∈ tableEntries h0 (tableNum h0)) : inSaved h0 e = true :=
  any_eq_true.mpr ⟨e, he, by simp⟩

theorem mem_keys_of_inSaved (he : inSaved h0 e = true) :
    (e.tag, e.lsn) ∈ keys (tableEntries h0 (tableNum h0)) := by
  obtain ⟨e', he', heq⟩ := any_eq_true.mp he
  simp only [Bool.and_eq_true, decide_eq_true_eq] at heq
  exact mem_map.mpr ⟨e', he', by rw [heq.1, heq.2]⟩

theorem mem_keys (he : e ∈ es) : (e.tag, e.lsn) ∈ keys es := mem_map_of_mem he

/-- An entry occurs once in the stream, so what is not in the last saved
table passes the filter. -/
theorem SavedSplit.fresh (hs : SavedSplit stream h0 unsaved) {e : LogIndexLsn}
    (he : e ∈ overlap h0 ∨ e ∈ unsaved) : inSaved h0 e = false := by
  refine Bool.eq_false_iff.mpr fun hsaved => ?_
  have hnodup := hs.nodup
  rw [hs.entries, flatten_eq_last h0, keys_append, keys_append] at hnodup
  have hlast := mem_keys_of_inSaved hsaved
  rcases he with he | he
  · have hbefore := mem_of_mem_filter he
    exact disjoint_of_nodup_append hnodup.of_append_left (mem_keys hbefore) hlast
  · exact disjoint_of_nodup_append hnodup (mem_append_right _ hlast) (mem_keys he)

/-! ## The end of a replay -/

theorem skipped_unique {p : LogIndexLsn → Bool} {l1 l2 r1 r2 : List LogIndexLsn}
    (heq : l1 ++ r1 = l2 ++ r2) (hl1 : ∀ e ∈ l1, p e = true) (hl2 : ∀ e ∈ l2, p e = true)
    (hr1 : ∀ e ∈ r1.head?, p e = false) (hr2 : ∀ e ∈ r2.head?, p e = false) :
    l1 = l2 ∧ r1 = r2 := by
  have htake : ∀ {l r : List LogIndexLsn}, (∀ e ∈ l, p e = true) → (∀ e ∈ r.head?, p e = false) →
      (l ++ r).takeWhile p = l := by
    intro l r hl hr
    rw [takeWhile_append_of_pos hl]
    cases r with
    | nil => exact append_nil l
    | cons e r => rw [takeWhile_cons_of_neg (by rw [hr e rfl]; decide), append_nil]
  have hl : l1 = l2 := by rw [← htake hl1 hr1, ← htake hl2 hr2, heq]
  exact ⟨hl, append_cancel_left (hl ▸ heq)⟩

theorem RingInv.sameTables (hi : RingInv s h) (hseg : s.logMeta.minSegmentInfo.segmentNo = 0)
    (hcut : cut stream = h) : SameTables s stream := by
  rw [← hcut] at hi
  exact ⟨hi.num_le, fun t h1 ht => hi.tableReads hseg h1 ht⟩

/-- Without an overlap just the unsaved entries are added. -/
theorem SavedSplit.replay_same (hs : SavedSplit stream h0 unsaved) (hnil : overlap h0 = [])
    (hinv : ReplayInv h0 bs y) (hidle : y.inserter = .idle)
    (hcalls : addCalls bs = wanted (savedMaxLsn h0) stream)
    (hseg : y.snap.logMeta.minSegmentInfo.segmentNo = 0) : SameTables y.snap stream := by
  rw [hs.wanted_eq, hnil, nil_append] at hcalls
  have hlast : ∀ e ∈ wanted (savedMaxLsn h0) (tableEntries h0 (tableNum h0)),
      inSaved h0 e = true := fun e he => inSaved_of_mem (mem_of_mem_filter he)
  have hrest : ∀ e ∈ unsaved.head?, inSaved h0 e = false := fun e he =>
    hs.fresh (.inr (mem_of_mem_head? he))
  cases hinv with
  | skipping inv _ _ skip =>
    have hnone : unsaved = [] := eq_nil_iff_forall_not_mem.mpr fun e he => by
      have hsaved := skip e (by rw [hcalls]; exact mem_append_right _ he)
      rw [hs.fresh (.inr he)] at hsaved
      cases hsaved
    refine inv.ring.sameTables hseg ?_
    rw [hs.cut, hnone]
    exact append_nil h0
  | first _ e _ _ _ pending =>
    rw [hidle] at pending
    cases pending
  | adding skipped e es calls inv _ skip fresh =>
    rw [hidle, InsertPc.pending, append_nil, hcalls] at calls
    have hadded : unsaved = e :: es := (skipped_unique calls hlast skip hrest fun e' he' => by
      rw [← mem_some_iff.mp he']
      exact fresh).2
    exact inv.ring.sameTables hseg (by rw [hs.cut, hadded])

/-- An overlap is added a second time. -/
theorem SavedSplit.replay_differs (hs : SavedSplit stream h0 unsaved) (hne : overlap h0 ≠ [])
    (hinv : ReplayInv h0 bs y) (hidle : y.inserter = .idle)
    (hcalls : addCalls bs = wanted (savedMaxLsn h0) stream)
    (hseg : y.snap.logMeta.minSegmentInfo.segmentNo = 0) : ¬ SameTables y.snap stream := by
  rw [hs.wanted_eq] at hcalls
  obtain ⟨e0, es0, hoverlap⟩ := exists_cons_of_ne_nil hne
  have hfresh0 : inSaved h0 e0 = false := hs.fresh (.inl (hoverlap ▸ mem_cons_self))
  rw [hoverlap] at hcalls
  cases hinv with
  | skipping _ _ _ skip =>
    have hsaved := skip e0 (by rw [hcalls]; exact mem_cons_self)
    rw [hfresh0] at hsaved
    cases hsaved
  | first _ e _ _ _ pending =>
    rw [hidle] at pending
    cases pending
  | adding skipped e es calls inv _ skip fresh =>
    rw [hidle, InsertPc.pending, append_nil, hcalls] at calls
    have hnone : skipped = [] := by
      cases skipped with
      | nil => rfl
      | cons e1 skipped =>
        have hhead := skip e1 mem_cons_self
        obtain rfl : e0 = e1 := (cons.inj calls).1
        rw [hfresh0] at hhead
        cases hhead
    rw [hnone, nil_append] at calls
    refine inv.ring.not_sameTables hseg ?_
    rw [flatten_append, cut_flatten, ← calls, hs.entries]
    simp only [length_append, length_cons]
    omega

theorem RingInv.savedMaxLsn_eq (hi : RingInv s h) :
    s.logMeta.startLsn = savedMaxLsn (h.take s.saved) := by
  by_cases hz : s.saved = 0
  · rw [(hi.metaOk.zero hz).2.1, hz]
    rfl
  · have hpos : 0 < s.saved := by omega
    have hnum : tableNum (h.take s.saved) = s.saved := length_take_of_le hi.saved_le
    rw [hi.metaOk.start_lsn hpos, hi.metaOk.max_lsn hpos, savedMaxLsn, hnum,
      tableEntries_take h hpos le_rfl]

/-- Whether there is an overlap can be read off the last two saved
tables. -/
theorem RingInv.lastRecordInOneTable_iff (hi : RingInv s h)
    (hseg : s.logMeta.minSegmentInfo.segmentNo = 0) :
    LastRecordInOneTable s ↔ overlap (h.take s.saved) = [] := by
  have hnum : tableNum (h.take s.saved) = s.saved := length_take_of_le hi.saved_le
  rw [overlap, hnum]
  by_cases hle : s.saved ≤ 1
  · rw [Nat.sub_eq_zero_of_le hle]
    exact ⟨fun _ => rfl, fun _ => .inl hle⟩
  · have hpos : 0 < s.saved := by omega
    have hmax : savedMaxLsn (h.take s.saved) = s.logMeta.maxLsn :=
      hi.savedMaxLsn_eq.symm.trans (hi.metaOk.start_lsn hpos)
    have hsaved := hi.saved_le
    have hmin := hi.minTid_le hseg
    obtain ⟨d, hd, hrep⟩ := hi.stored (s.saved - 1) (by omega) (by omega) (by omega)
    rw [hmax, take_take, Nat.min_eq_left (Nat.sub_le _ _)]
    constructor
    · rintro (hc | ⟨d', hd', hlt⟩)
      · exact absurd hc hle
      · obtain rfl := some.inj (hd.symm.trans hd')
        refine wanted_eq_nil fun e he => ?_
        have := hi.lsn_le_table (by omega) e he
        rw [hrep.max_eq] at hlt
        omega
    · intro hnil
      refine .inr ⟨d, hd, ?_⟩
      obtain ⟨e, he, heq⟩ := exists_entriesMaxLsn (hi.nonempty _
        (tableEntries_mem (t := s.saved - 1) (by omega) (by omega)))
      have hin : e ∈ (h.take (s.saved - 1)).flatten :=
        mem_take_flatten.mpr ⟨_, by omega, le_rfl, he⟩
      have hnot := filter_eq_nil_iff.mp hnil e hin
      rw [decide_eq_true_eq, not_le] at hnot
      rwa [hrep.max_eq, ← heq]

/-! ## From the crash to the end of the replay -/

theorem Restarted.replayInv {y0 : Sys cfg} (hr : Restarted s h y0) (hle : s.saved ≤ tableNum h) :
    ReplayInv (h.take s.saved) [] y0 := by
  have hnum : tableNum (h.take s.saved) = s.saved := length_take_of_le hle
  refine .skipping hr.inv hr.adding ⟨?_, ?_, ?_, ?_⟩ (forall_mem_nil _)
  · exact (congrArg (·.maxIdxTableId) hr.logMeta).trans hnum.symm
  · rw [hnum]
    exact hr.newest
  · rw [hnum]
    exact fun hpos => (hr.slot hpos).1
  · rw [hnum]
    exact fun hpos => (hr.slot hpos).2

theorem CallsOk.replayCalls (hok : CallsOk stream)
    (hes : es <+: wanted (savedMaxLsn h0) stream) : ReplayCalls h0 es := by
  refine ⟨hok.sublist (hes.sublist.trans filter_sublist), fun e he => ?_⟩
  exact of_decide_eq_true (mem_filter.mp (hes.subset he)).2

def replayRunInv (cfg : Config) (hok : CallsOk stream)
    (hle : ∀ e ∈ h0.flatten, e.lsn ≤ savedMaxLsn h0) :
    RunInv cfg (wanted (savedMaxLsn h0) stream) where
  Inv bs y := ReplayInv h0 bs y ∧ y.snap.logMeta.minSegmentInfo.segmentNo = 0
  sys {bs y} hinv := by
    rcases hinv.1 with ⟨inv⟩ | ⟨_, _, _, inv⟩ | ⟨_, _, _, _, inv⟩
    · exact ⟨_, _, inv⟩
    · exact ⟨_, _, inv⟩
    · exact ⟨_, _, inv⟩
  step {bs y a y'} hinv hes hr hst := by
    have hcalls := hok.replayCalls hes
    refine ⟨hinv.1.step hle hcalls hr hst, ?_⟩
    rw [addCalls_append] at hcalls
    obtain ⟨r, h, hx, hcall⟩ := hinv.1.sysInv hle hcalls
    obtain ⟨h', hstep⟩ := hx.step hcall hst
    exact hstep.min_seg.trans hinv.2

/-- After a crash the snapshot starts, the stream can be added again to
its end, and every such run goes through the phases of a replay. -/
theorem FreshRun.exists_replay (hf : FreshRun as x es)
    (hok : CallsOk stream) (hcrash : CrashedIn x.snap s) (checkpointLsn : Nat) :
    ∃ y0 start, snapshotInit s checkpointLsn = some (y0, start) ∧
      (∃ bs y, AddRun y0 y bs (wanted s.logMeta.startLsn stream) ∧ y.inserter = .idle) ∧
      ∀ bs y, AddRun y0 y bs (wanted s.logMeta.startLsn stream) →
        ReplayInv ((cut es).take s.saved) bs y ∧ y.snap.logMeta.minSegmentInfo.segmentNo = 0 := by
  obtain ⟨hi, hmeta⟩ := hf.inv.ring.crashedIn hcrash
  obtain ⟨y0, start, hinit, hr⟩ := hi.snapshotInit checkpointLsn
  have hinv0 := hr.replayInv hi.saved_le
  have hseg0 : y0.snap.logMeta.minSegmentInfo.segmentNo = 0 := by
    rw [hr.logMeta, hmeta]
    exact hf.min_seg
  rw [hi.savedMaxLsn_eq]
  let I := replayRunInv cfg hok hr.inv.ring.le_savedMaxLsn
  have hfrom : I.Inv [] y0 := ⟨hinv0, hseg0⟩
  obtain ⟨bs, y, hrun, -, hidle⟩ := I.exists_calls hfrom hr.idle rfl
  exact ⟨y0, start, hinit, ⟨bs, y, hrun, hidle⟩, fun bs y hrun => I.run hfrom hrun⟩

/-- After a restart a stream can be added again to its end. The tables
are then those of a run without restart if and only if the last saved
record is in one table. -/
theorem replay_sameTables_iff {as : List Action} {rest : List LogIndexLsn} (hok : CallsOk stream)
    (hnodup : (keys stream).Nodup) (hstream : stream = addCalls as ++ rest)
    (hrun : exec step (initSys cfg) as = some x) (hcrash : CrashedIn x.snap s)
    (checkpointLsn : Nat) :
    ∃ y0 start, snapshotInit s checkpointLsn = some (y0, start) ∧
      (∃ bs y, AddRun y0 y bs (wanted s.logMeta.startLsn stream) ∧ y.inserter = .idle) ∧
      ∀ bs y, AddRun y0 y bs (wanted s.logMeta.startLsn stream) → y.inserter = .idle →
        (SameTables y.snap stream ↔ LastRecordInOneTable s) := by
  obtain ⟨es, hf⟩ := exists_freshRun (hok.sublist (hstream ▸ sublist_append_left ..)) hrun
  obtain ⟨hi, hmeta⟩ := hf.inv.ring.crashedIn hcrash
  have hsplit := hf.savedSplit hstream hok hnodup
  rw [Snapshot.saved, ← hmeta] at hsplit
  obtain ⟨y0, start, hinit, hsome, hall⟩ := hf.exists_replay hok hcrash checkpointLsn
  refine ⟨y0, start, hinit, hsome, fun bs y hreplay hidle => ?_⟩
  obtain ⟨hinv, hseg⟩ := hall bs y hreplay
  have hcalls := hreplay.calls
  rw [hi.savedMaxLsn_eq] at hcalls
  rw [hi.lastRecordInOneTable_iff (by rw [hmeta]; exact hf.min_seg)]
  refine ⟨fun hsame => ?_, fun hnil => hsplit.replay_same hnil hinv hidle hcalls hseg⟩
  by_contra hne
  exact hsplit.replay_differs hne hinv hidle hcalls hseg hsame

def savedRun : List Action :=
  retiredRun ++ reopenedRun ++ [.flushTable 0 false true 0]

theorem replay_sameTables_savedRun : ∃ x : Sys smallConfig,
    exec step (initSys smallConfig) savedRun = some x ∧ x.snap.logMeta.maxIdxTableId = 1 ∧
      ∃ y0 start, snapshotInit x.snap 1 = some (y0, start) ∧ (∃ bs y, AddRun y0 y bs
            (wanted x.snap.logMeta.startLsn
              [pageEntry 7 1, pageEntry 7 (2 ^ 32), pageEntry 8 (2 ^ 32)]) ∧
          y.inserter = .idle) ∧
        ∀ bs y, AddRun y0 y bs
            (wanted x.snap.logMeta.startLsn
              [pageEntry 7 1, pageEntry 7 (2 ^ 32), pageEntry 8 (2 ^ 32)]) →
          y.inserter = .idle →
          (SameTables y.snap [pageEntry 7 1, pageEntry 7 (2 ^ 32), pageEntry 8 (2 ^ 32)] ↔
            LastRecordInOneTable x.snap) := by
  have hrun := (some_get (x := exec step (initSys smallConfig) savedRun) (by rfl)).symm
  have hstream : [pageEntry 7 1, pageEntry 7 (2 ^ 32), pageEntry 8 (2 ^ 32)] =
      addCalls savedRun ++ [pageEntry 8 (2 ^ 32)] := rfl
  exact ⟨_, hrun, by rfl, replay_sameTables_iff ⟨by decide, by decide⟩ (by decide) hstream hrun
    (.inl rfl) 1⟩

/-! ## A record in two saved tables -/

def freshRunInv (cfg : Config) {es : List LogIndexLsn} (hok : CallsOk es) : RunInv cfg es where
  Inv as x := ∃ es', FreshRun as x es'
  sys := fun ⟨_, hf⟩ => ⟨_, _, hf.inv⟩
  step {as x a x'} hinv hes _ hst := by
    obtain ⟨es', hf⟩ := hinv
    obtain ⟨es'', hf', -⟩ := hf.step (hok.sublist hes.sublist) hst
    exact ⟨es'', hf'⟩

theorem FreshRun.eq_addCalls (hf : FreshRun as x es) (hidle : x.inserter = .idle) :
    es = addCalls as := by
  rw [hf.calls, hidle, InsertPc.pending, append_nil]

/-- A run that adds a stream and saves all tables but the newest. -/
theorem exists_savedRun (cfg : Config) (hok : CallsOk es) (hne : es ≠ []) :
    ∃ as, ∃ x : Sys cfg, exec step (initSys cfg) as = some x ∧ addCalls as = es ∧
      FreshRun as x es ∧ x.inserter = .idle ∧
      x.snap.saved + 1 = tableNum (cut es) := by
  let I := freshRunInv cfg hok
  have hinit : I.Inv [] (initSys cfg) := ⟨[], freshRun_init cfg⟩
  obtain ⟨as, x, hrun, ⟨es1, hf1⟩, hidle⟩ := I.exists_calls hinit rfl rfl
  rw [hf1.eq_addCalls hidle, nil_append, hrun.calls] at hf1
  have hnum := hf1.inv.ring.num_le
  have hpos : 0 < tableNum (cut es) := length_pos_iff.mpr fun hnil => by
    have := cut_flatten es
    rw [hnil] at this
    exact hne this.symm
  have hset := hf1.inv.settled hidle
  have hopen := ((hf1.inv.ring.slots _).active (hset.live (by omega))).1
  have hT : x.snap.maxIdxTableId = tableNum (cut es) :=
    (not_lt.mp fun hlt => (hset.empty hlt).1).antisymm hnum
  obtain ⟨bs, y, hflush, ⟨es2, hf2⟩, hpc, -, hN⟩ :=
    I.exists_flush ⟨es, hf1⟩ (hrun.calls ▸ prefix_rfl) hopen
  have hall := hrun.append hflush
  rw [append_nil] at hall
  rw [hf2.eq_addCalls (hpc.trans hidle), hall.calls] at hf2
  exact ⟨as ++ bs, y, hall.exec, hall.calls, hf2, hpc.trans hidle, hN.trans hT⟩

/-- From every state of a run, a stream that may follow can be added to its
end, with all tables but the newest saved. -/
theorem stream_addable (rest : List LogIndexLsn) (hok : CallsOk (addCalls as ++ rest))
    (hx : exec step (initSys cfg) as = some x) :
    ∃ bs y, exec step x bs = some y ∧ addCalls bs = rest ∧ y.inserter = .idle ∧
      y.snap.maxIdxTableId ≤ y.snap.saved + 1 := by
  let I := freshRunInv cfg hok
  have hinv : I.Inv as x := exists_freshRun (hok.sublist (sublist_append_left ..)) hx
  obtain ⟨bs1, x1, hrun1, hinv1, hidle1⟩ := I.exists_finish hinv (prefix_append ..)
  have hcalls1 : addCalls (as ++ bs1) = addCalls as := by
    rw [addCalls_append, hrun1.calls, append_nil]
  obtain ⟨bs2, x2, hrun2, hinv2, hidle2⟩ := I.exists_calls hinv1 hidle1 (by rw [hcalls1])
  have hrun := hrun1.append hrun2
  by_cases hopen : x2.snap.saved < x2.snap.maxIdxTableId
  · have hcalls2 : addCalls (as ++ bs1 ++ bs2) = addCalls as ++ rest := by
      rw [addCalls_append, hcalls1, hrun2.calls]
    obtain ⟨bs3, y, hrun3, -, hpc, hmax, hsaved⟩ :=
      I.exists_flush hinv2 (hcalls2 ▸ prefix_rfl) hopen
    have hall := hrun.append hrun3
    rw [append_nil, nil_append] at hall
    exact ⟨_, y, hall.exec, hall.calls, hpc.trans hidle2, by rw [hmax]; exact hsaved.ge⟩
  · exact ⟨_, x2, hrun.exec, hrun.calls, hidle2, (not_lt.mp hopen).trans (Nat.le_succ _)⟩

theorem stream_addable_retiredRun : ∃ x y : Sys smallConfig, ∃ bs,
    exec step (initSys smallConfig) retiredRun = some x ∧ exec step x bs = some y ∧
      addCalls bs = [pageEntry 8 (2 ^ 32)] ∧ y.inserter = .idle := by
  have hx := (some_get (x := exec step (initSys smallConfig) retiredRun) (by rfl)).symm
  obtain ⟨bs, y, hy, hcalls, hidle, -⟩ :=
    stream_addable [pageEntry 8 (2 ^ 32)] ⟨by decide, by decide⟩ hx
  exact ⟨_, y, bs, hx, hy, hcalls, hidle⟩

theorem tagLsns_new (htags : ((es ++ [e]).map (·.tag)).Nodup) : tagLsns e.tag es = [] := by
  rw [map_append] at htags
  refine tagLsns_eq_nil.mpr fun e' he' htag => ?_
  exact disjoint_of_nodup_append htags (mem_map_of_mem he') (mem_singleton.mpr htag)

theorem nodup_tags_left {es' : List LogIndexLsn} (htags : ((es ++ es').map (·.tag)).Nodup) :
    (es.map (·.tag)).Nodup := by
  rw [map_append] at htags
  exact htags.of_append_left

theorem cellsUsed_distinct (htags : (es.map (·.tag)).Nodup) : cellsUsed es = es.length := by
  induction es using reverseRecOn with
  | nil => rfl
  | append_singleton es e ih =>
    rw [cellsUsed_append, ih (nodup_tags_left htags), tagLsns_new htags, length_append]
    rfl

theorem fits_distinct (htags : ((es ++ [e]).map (·.tag)).Nodup)
    (hpfx : ∀ e' ∈ es, lsnPrefix e'.lsn = lsnPrefix e.lsn) :
    fits es e = decide (1 + es.length < memTblSegNum) := by
  rw [fits, tagLsns_new htags, cellsUsed_distinct (nodup_tags_left htags),
    all_eq_true.mpr fun e' he' => decide_eq_true (hpfx e' he')]
  rfl

/-- Entries of different pages stay in one table as long as there are
cells. -/
theorem cut_distinct {p : Nat} (hne : es ≠ []) (htags : (es.map (·.tag)).Nodup)
    (hlen : es.length < memTblSegNum) (hpfx : ∀ e ∈ es, lsnPrefix e.lsn = p) : cut es = [es] := by
  induction es using reverseRecOn with
  | nil => exact absurd rfl hne
  | append_singleton es e ih =>
    rw [cut_append]
    by_cases hnil : es = []
    · rw [hnil]
      rfl
    · rw [length_append, length_singleton] at hlen
      rw [ih hnil (nodup_tags_left htags) (by omega)
        fun e' he' => hpfx e' (mem_append_left _ he'), place, if_pos]
      · rfl
      · refine ⟨Nat.one_pos, ?_⟩
        have hfit := fits_distinct htags fun e' he' =>
          (hpfx e' (mem_append_left _ he')).trans
            (hpfx e mem_concat_self).symm
        exact hfit.trans (decide_eq_true (by omega))

def firstPages (n : Nat) : List LogIndexLsn :=
  (List.range n).map fun i => pageEntry (i + 1) (i + 1)

/-- The record at LSN 4095 changes two pages. The first takes the last
cell of the table. The next record has another LSN prefix. -/
def spilledStream : List LogIndexLsn :=
  firstPages 4095 ++ [pageEntry 4096 4095] ++ [pageEntry 1 4294967296]

theorem mem_firstPages {n : Nat} : e ∈ firstPages n ↔ ∃ i, 0 < i ∧ i ≤ n ∧ e = pageEntry i i := by
  rw [firstPages, List.mem_map]
  constructor
  · rintro ⟨i, hi, rfl⟩
    exact ⟨i + 1, Nat.succ_pos i, mem_range.mp hi, rfl⟩
  · rintro ⟨i, hpos, hle, rfl⟩
    exact ⟨i - 1, mem_range.mpr (by omega), by rw [Nat.sub_add_cancel hpos]⟩

theorem pageEntry_tag_inj {i j k l : Nat} (heq : (pageEntry i k).tag = (pageEntry j l).tag) :
    i = j := congrArg BufferTag.blockNum heq

theorem firstPages_sorted (n : Nat) : LsnSorted (firstPages n) := by
  rw [LsnSorted, firstPages, pairwise_map]
  exact pairwise_lt_range.imp fun hlt => Nat.succ_le_succ hlt.le

theorem firstPages_tags (n : Nat) :
    ((firstPages n ++ [pageEntry (n + 1) n]).map (·.tag)).Nodup := by
  rw [map_append, nodup_append', firstPages, List.map_map]
  refine ⟨?_, nodup_singleton _, ?_⟩
  · exact nodup_range.map fun i j heq => Nat.succ.inj (pageEntry_tag_inj heq)
  · intro tag hin hlast
    obtain ⟨i, hi, rfl⟩ := mem_map.mp hin
    have := pageEntry_tag_inj (mem_singleton.mp hlast)
    have := mem_range.mp hi
    omega

theorem spilledStream_callsOk : CallsOk spilledStream := by
  have hle : ∀ e ∈ firstPages 4095 ++ [pageEntry 4096 4095], 0 < e.lsn ∧ e.lsn ≤ 4095 := by
    refine forall_mem_snoc (fun e he => ?_) (by decide)
    obtain ⟨i, hpos, hle, rfl⟩ := mem_firstPages.mp he
    exact ⟨hpos, hle⟩
  refine ⟨forall_mem_snoc (fun e he => ?_) (by decide), ?_⟩
  · have := hle e he
    simp only [uint64Max]
    omega
  · exact pairwise_snoc
      (pairwise_snoc (firstPages_sorted _) fun e he => (hle e (mem_append_left _ he)).2)
      fun e he => (hle e he).2.trans (by decide)

theorem spilledStream_nodup : (keys spilledStream).Nodup := by
  rw [spilledStream, keys_append, nodup_append']
  refine ⟨List.Nodup.of_map Prod.fst ?_, nodup_singleton _, ?_⟩
  · rw [keys, List.map_map]
    exact firstPages_tags 4095
  · intro k hin hlast
    obtain ⟨e, he, rfl⟩ := List.mem_map.mp hin
    have heq := congrArg Prod.snd (mem_singleton.mp hlast)
    rcases mem_append.mp he with he | he
    · obtain ⟨i, -, hle, rfl⟩ := mem_firstPages.mp he
      simp only [pageEntry] at heq
      omega
    · rw [mem_singleton.mp he] at heq
      cases heq

theorem spilledStream_cut :
    cut spilledStream = [firstPages 4095, [pageEntry 4096 4095], [pageEntry 1 4294967296]] := by
  have hlen : (firstPages 4095).length = 4095 := by rw [firstPages, length_map, length_range]
  have hpfx : ∀ e ∈ firstPages 4095, lsnPrefix e.lsn = 0 := by
    intro e he
    obtain ⟨i, -, hle, rfl⟩ := mem_firstPages.mp he
    rw [lsnPrefix, Nat.shiftRight_eq_div_pow]
    exact Nat.div_eq_of_lt (hle.trans_lt (by decide))
  have hfirst : cut (firstPages 4095) = [firstPages 4095] :=
    cut_distinct (ne_nil_of_length_pos (by rw [hlen]; decide))
      (nodup_tags_left (firstPages_tags 4095)) (by rw [hlen]; decide) hpfx
  have hfull : fits (firstPages 4095) (pageEntry 4096 4095) = false := by
    rw [fits_distinct (firstPages_tags 4095) fun e he => hpfx e he, hlen]
    rfl
  rw [spilledStream, cut_append, cut_append, hfirst]
  generalize firstPages 4095 = es at hfull
  have hsecond : place [es] (pageEntry 4096 4095) = [es, [pageEntry 4096 4095]] :=
    place_new fun _ => hfull
  rw [hsecond]
  exact place_new fun _ => rfl

/-- The first of the two pages is added a second time. -/
theorem spilledStream_replay_differs : ∃ (as : List Action) (x : Sys smallConfig),
    CallsOk spilledStream ∧ (keys spilledStream).Nodup ∧ addCalls as = spilledStream ∧
      exec step (initSys smallConfig) as = some x ∧
      ∃ y0 start bs y, snapshotInit x.snap 1 = some (y0, start) ∧
        AddRun y0 y bs (wanted x.snap.logMeta.startLsn spilledStream) ∧ y.inserter = .idle ∧
        ¬ SameTables y.snap spilledStream := by
  have hne : spilledStream ≠ [] := append_ne_nil_of_right_ne_nil _ (cons_ne_nil _ _)
  obtain ⟨as, x, hrun, hcalls, hf, -, hN⟩ := exists_savedRun smallConfig spilledStream_callsOk hne
  obtain ⟨y0, start, hinit, ⟨bs, y, hreplay, hidle⟩, hall⟩ :=
    hf.exists_replay spilledStream_callsOk (.inl rfl) 1
  refine ⟨as, x, spilledStream_callsOk, spilledStream_nodup, hcalls, hrun, y0, start, bs, y, hinit,
    hreplay, hidle, ?_⟩
  obtain ⟨hinv, hseg⟩ := hall bs y hreplay
  have hsplit := hf.savedSplit (by rw [hcalls, append_nil]) spilledStream_callsOk
    spilledStream_nodup
  have hsaved : (cut spilledStream).take x.snap.logMeta.maxIdxTableId =
      [firstPages 4095, [pageEntry 4096 4095]] := by
    rw [spilledStream_cut] at hN ⊢
    rw [show x.snap.logMeta.maxIdxTableId = 2 from Nat.succ.inj hN]
    rfl
  have hcalls' := hreplay.calls
  rw [hf.inv.ring.savedMaxLsn_eq] at hcalls'
  rw [hsaved] at hsplit hinv hcalls'
  refine hsplit.replay_differs (fun hnil => ?_) hinv hidle hcalls' hseg
  have hin : pageEntry 4095 4095 ∈
    (([firstPages 4095, [pageEntry 4096 4095]] : Tables).take 1).flatten :=
    mem_flatten.mpr ⟨firstPages 4095, mem_cons_self,
      mem_firstPages.mpr ⟨4095, by decide, le_rfl, rfl⟩⟩
  exact filter_eq_nil_iff.mp hnil _ hin rfl

end PolarDB.LogIndex
