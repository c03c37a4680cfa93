import PolarDB.LogIndexLsnSearch

/-!
# The LSN iterator loses nothing and repeats nothing

From its place on, `polar_logindex_lsn_iterator_next` returns the entries
one by one (`RingInv.lsnIteratorLoop`), and what the inserter adds in the
meantime goes behind the place (`Reading.ringStep`).

This needs a condition on the calls (`NextOk`). The search takes a newest
table without entries for one that will only get entries to return. The
entry the inserter opened that table for may be below `start_lsn`, and is
then returned (`futureRun`).
-/

namespace PolarDB.LogIndex

open Function List Option

section Next

variable {cfg : Config} {s : Snapshot cfg} {c : TableCache} {h : Tables} {iter : LsnIter}

/-! ## One call with a place -/

/-- `log_index_lsn_iterator_update` does not skip an entry. -/
theorem HasPlace.update (hp : HasPlace s h iter) {d : LogIdxTableData} {state : Option MemTblState}
    (hdata : TableData s h iter.idxTableId (some (d, state))) :
    HasPlace s h (lsnIteratorUpdate iter state d).1 ∧
      (lsnIteratorUpdate iter state d).1.startLsn = iter.startLsn ∧
      restAt h (lsnIteratorUpdate iter state d).1.idxTableId
      (lsnIteratorUpdate iter state d).1.idx =
        restAt h iter.idxTableId iter.idx := by
  rw [lsnIteratorUpdate]
  split
  · rename_i hmove
    obtain ⟨hd, hstate⟩ := hdata
    rw [if_neg hmove.1] at hstate
    refine ⟨⟨hp.state, Nat.succ_pos _, Nat.succ_le_succ hstate.1, Nat.zero_le _, hstate.2⟩, rfl, ?_⟩
    rw [hmove.2, hd.order_length, restAt, restAt, drop_length, nil_append,
      drop_flatten h iter.idxTableId]
    rfl
  · exact ⟨hp, rfl, rfl⟩

/-- From one place to another one returns `res` and, if that is NULL,
leaves nothing. -/
structure Moved (s : Snapshot cfg) (h : Tables) (iter iter' : LsnIter) (res : Option LogIndexLsn) :
    Prop where
  start_eq : iter'.startLsn = iter.startLsn
  place : HasPlace s h iter'
  read : ∃ es, keys es = keys res.toList ∧
    restAt h iter.idxTableId iter.idx = es ++ restAt h iter'.idxTableId iter'.idx
  done : res = none → restAt h iter'.idxTableId iter'.idx = []

theorem RingInv.lsnIteratorLoop (locks : Nat → ReadLocks) :
    ∀ {fuel : Nat} {iter : LsnIter} {s : Snapshot cfg} {c : TableCache}, RingInv s h →
    CacheOk cfg c s.saved h → s.minTid ≤ 1 →
    HasPlace s h iter → tableNum h + 1 < iter.idxTableId + fuel →
    ∃ res iter' s' c', lsnIteratorLoop locks fuel iter s c = some (res, iter', s', c') ∧
      ReadRun h s s' c' ∧ Moved s h iter iter' res
  | 0, iter, _, _, _, _, _, hp, hfuel => absurd hp.le (by omega)
  | fuel + 1, iter, s, c, hi, hc, hmin, hp, hfuel => by
    obtain ⟨data, s1, c1, hget, hrun1, hdata⟩ := hi.getTableData hc hmin hp.pos locks
    rw [LogIndex.lsnIteratorLoop, hget]
    cases data with
    | none =>
      have hlt : tableNum h < iter.idxTableId := hi.num_le.trans_lt hdata
      have hnil : restAt h iter.idxTableId iter.idx = [] := by
        rw [restAt, tableEntries_eq_nil hlt, drop_of_tableNum_le hlt.le]
        simp
      exact ⟨none, iter, s1, c1, rfl, hrun1, rfl, hp, ⟨[], rfl, rfl⟩, fun _ => hnil⟩
    | some data =>
      obtain ⟨d, state⟩ := data
      have hd := hdata.1
      simp only
      rw [hd.getOrderLsn]
      cases he : (tableEntries h iter.idxTableId)[iter.idx]? with
      | some e =>
        obtain ⟨hlt, heq⟩ := List.getElem?_eq_some_iff.mp he
        have hp1 : HasPlace s h { iter with idx := iter.idx + 1 } :=
          ⟨hp.state, hp.pos, hp.le, hlt, hp.newest⟩
        obtain ⟨hp', hstart, hrest⟩ := hp1.update hdata
        refine ⟨_, _, s1, c1, rfl, hrun1, hstart, hp', ⟨[e], rfl, ?_⟩, (by cases ·)⟩
        rw [hrest, restAt, drop_eq_getElem_cons hlt, heq]
        rfl
      | none =>
        obtain ⟨hp', hstart, hrest⟩ := hp.update hdata
        have hlen : iter.idx = (tableEntries h iter.idxTableId).length :=
          hp.idx_le.antisymm (List.getElem?_eq_none_iff.mp he)
        rw [map_none]
        simp only
        by_cases hact : state = some .active
        · have hstay : lsnIteratorUpdate iter state d = (iter, false) := by
            rw [lsnIteratorUpdate, if_neg fun hm => hm.1 hact]
          have hnum := hdata.2
          rw [if_pos hact] at hnum
          rw [hstay]
          refine ⟨none, iter, s1, c1, rfl, hrun1, rfl, hp, ⟨[], rfl, rfl⟩, fun _ => ?_⟩
          rw [restAt, drop_of_tableNum_le hnum, hlen]
          simp
        · have hmove : lsnIteratorUpdate iter state d =
              ({ iter with idx := 0, idxTableId := iter.idxTableId + 1 }, true) := by
            rw [lsnIteratorUpdate, if_pos ⟨hact, by rw [hd.order_length]; exact hlen⟩]
          rw [hmove] at hp' hrest ⊢
          simp only [if_true]
          obtain ⟨res, iter', s', c', hloop, hrun, hmoved⟩ :=
            RingInv.lsnIteratorLoop locks hrun1.ring hrun1.cache (hrun1.effect.minTid.trans_le hmin)
              (hrun1.effect.hasPlace_iff.mpr hp') (show _ < iter.idxTableId + 1 + fuel by omega)
          refine ⟨res, iter', s', c', hloop, hrun1.trans hrun, hmoved.start_eq,
            hrun1.effect.hasPlace_iff.mp hmoved.place, ?_, hmoved.done⟩
          rw [← hrest]
          exact hmoved.read

theorem HasPlace.lsnIteratorSearch (hp : HasPlace s h iter) (locks : IterLocks) :
    lsnIteratorSearch s c locks iter = some (iter, s, c) := by
  have hid : iter.idxTableId ≠ tableInvalidId := hp.pos.ne'
  rw [LogIndex.lsnIteratorSearch, if_neg hid]
  simp only
  rw [if_neg (by rw [hp.state]; decide)]

theorem RingInv.lsnIteratorNext (hi : RingInv s h) {iter1 : LsnIter} {s1 : Snapshot cfg}
    {c1 : TableCache} {locks : IterLocks}
    (hsearch : LogIndex.lsnIteratorSearch s c locks iter = some (iter1, s1, c1))
    (hrun1 : ReadRun h s s1 c1) (hmin : s.minTid ≤ 1) (hp : HasPlace s h iter1) :
    ∃ res iter' s' c', lsnIteratorNext s c locks iter = some (res, iter', s', c') ∧
      ReadRun h s s' c' ∧ Moved s h iter1 iter' res := by
  rw [LogIndex.lsnIteratorNext, hsearch]
  simp only
  rw [if_pos hp.state]
  have hnum := hi.num_le
  obtain ⟨res, iter', s', c', hloop, hrun, hmoved⟩ :=
    RingInv.lsnIteratorLoop locks.next hrun1.ring hrun1.cache
      (hrun1.effect.minTid.trans_le hmin) (hrun1.effect.hasPlace_iff.mpr hp)
      (show _ < iter1.idxTableId + (s1.maxIdxTableId + 2) by
        rw [hrun1.effect.maxIdxTableId]
        omega)
  exact ⟨res, iter', s', c', hloop, hrun1.trans hrun, hmoved.start_eq,
    hrun1.effect.hasPlace_iff.mp hmoved.place, hmoved.read, hmoved.done⟩

end Next

/-! ## Between the calls -/

/-- The iterator has a place, and has returned `ret`. -/
structure Reading {cfg : Config} (startLsn : Nat) (s : Snapshot cfg) (h : Tables) (iter : LsnIter)
    (ret : List (BufferTag × Nat)) : Prop where
  place : HasPlace s h iter
  rest : ∀ e ∈ restAt h iter.idxTableId iter.idx, startLsn ≤ e.lsn
  returned : ret = keys (wanted startLsn (seenAt h iter.idxTableId iter.idx))

section Reading

variable {cfg : Config} {s : Snapshot cfg} {h h' : Tables} {iter : LsnIter} {startLsn : Nat}
  {ret : List (BufferTag × Nat)}

theorem Start.reading (hs : Start startLsn s h iter) : Reading startLsn s h iter [] :=
  ⟨hs.place, hs.rest, by rw [wanted_eq_nil hs.seen]; rfl⟩

theorem Reading.moved (hr : Reading startLsn s h iter ret) {iter' : LsnIter}
    {res : Option LogIndexLsn} (hm : Moved s h iter iter' res) :
    Reading startLsn s h iter' (ret ++ keys res.toList) ∧
      (res = none → ret = keys (wanted startLsn h.flatten)) := by
  obtain ⟨es, hkeys, hrest⟩ := hm.read
  have hall := seenAt_append_restAt h hr.place.pos iter.idx
  have hseen : seenAt h iter'.idxTableId iter'.idx = seenAt h iter.idxTableId iter.idx ++ es := by
    have hall' := seenAt_append_restAt h hm.place.pos iter'.idx
    rw [← hall, hrest, ← append_assoc] at hall'
    exact append_cancel_right hall'
  have hge := hr.rest
  rw [hrest] at hge
  refine ⟨⟨hm.place, fun e he => hge e (mem_append_right _ he), ?_⟩, fun hnone => ?_⟩
  · rw [hseen, wanted_append, keys_append, hr.returned, ← hkeys,
      wanted_eq_self fun e he => hge e (mem_append_left _ he)]
  · have hnil : es = [] := by
      rw [hnone] at hkeys
      exact map_eq_nil_iff.mp hkeys
    rw [hr.returned, ← hall, hrest, hm.done hnone, hnil, append_nil, append_nil]

variable {x x' : Sys cfg} {a : Action} {pending : List LogIndexLsn}

theorem step_waiting (hw : x.inserter.isWaiting = true) (hst : step x a = some x') :
    x'.inserter.isWaiting = true ∨ ∃ c, x'.inserter = .setActive c := by
  cases hpc : x.inserter with
  | waitActive c =>
    cases a with
    | waitActive flushable =>
      simp only [step, hpc] at hst
      split at hst
      · cases hst
      · cases hst
        rename_i done _
        cases done with
        | true => exact .inr ⟨c, rfl⟩
        | false => exact .inl rfl
    | flushTable mid flushActive flushable last | readTable proc tid shared exclusive =>
      obtain ⟨-, hst⟩ := ite_none_right_eq_some.mp hst
      obtain ⟨_, -, rfl⟩ := map_eq_some_iff.mp hst
      exact .inl hw
    | _ => simp [step, hpc] at hst
  | _ => rw [hpc] at hw; cases hw

/-- A step of the log index keeps the place behind the closed tables. -/
theorem HasPlace.newest_step (hp : HasPlace x.snap h iter) (hx : SysInv False x h)
    (hstep : SysStep False x x' h h' pending)
    (hst : step x a = some x') (hnum : tableNum h ≤ tableNum h') :
    iter.idxTableId ≤ x'.snap.maxIdxTableId ∨ ∀ m, (x'.snap.memTable m).state ≠ .active := by
  have hiff' := hstep.inv.pc.active_iff hstep.inv.ring
  rcases hp.newest with hle | hnone
  · exact .inl (hle.trans hstep.max_le)
  · have hle := hp.le
    have hT := hx.ring.num_le
    by_cases hT' : x'.snap.maxIdxTableId = 0
    · refine .inr fun m hm => ?_
      have := (hiff'.mp ⟨m, hm⟩).1
      omega
    by_cases hw : x.inserter.isWaiting = true
    · rcases step_waiting hw hst with hw' | ⟨c, hpc⟩
      · refine .inr fun m hm => ?_
        rw [(hiff'.mp ⟨m, hm⟩).2] at hw'
        cases hw'
      · have hsw := hstep.inv.pc
        rw [hpc] at hsw
        exact .inl (by have := hsw.num; omega)
    · have h0 : ¬ 0 < x.snap.maxIdxTableId := fun hpos => by
        obtain ⟨m, hm⟩ := (hx.pc.active_iff hx.ring).mpr ⟨hpos, Bool.eq_false_iff.mpr hw⟩
        exact hnone m hm
      exact .inl (by omega)

theorem Reading.ringStep (hr : Reading startLsn x.snap h iter ret) (hx : SysInv False x h)
    (hstep : SysStep False x x' h h' pending) (hst : step x a = some x')
    (hge : ∀ e, pending = [e] → h'.flatten = h.flatten ++ [e] → startLsn ≤ e.lsn) :
    Reading startLsn x'.snap h' iter ret := by
  obtain ⟨⟨hstate, hpos, hle, hidx, hnew⟩, hrest, hret⟩ := hr
  have hplace : HasPlace x.snap h iter := ⟨hstate, hpos, hle, hidx, hnew⟩
  rcases hstep.tables.added with ⟨rfl, -⟩ | ⟨e, hpend, hidle, hnum, hadd⟩
  · exact ⟨⟨hstate, hpos, hle, hidx, hplace.newest_step hx hstep hst le_rfl⟩, hrest, hret⟩
  · have hgrow : tableNum h ≤ tableNum h' := by
      rw [← hnum]
      exact hx.ring.num_le.trans hstep.max_le
    have hpos' : 0 < x'.snap.maxIdxTableId := by
      rw [hnum, tableNum, length_pos_iff]
      rintro rfl
      have := hadd.flatten
      simp at this
    have hnew' := hplace.newest_step hx hstep hst hgrow
    have htn : iter.idxTableId ≤ tableNum h' := by
      rw [← hnum]
      refine hnew'.resolve_right fun hnone => ?_
      obtain ⟨m, hm⟩ := (hstep.inv.pc.active_iff hstep.inv.ring).mpr ⟨hpos', by rw [hidle]; rfl⟩
      exact hnone m hm
    obtain ⟨hseen, hrest'⟩ := hadd.restAt hpos hidx htn
    refine ⟨⟨hstate, hpos, Nat.le_succ_of_le htn, ?_, hnew'⟩, ?_, ?_⟩
    · exact hidx.trans (hstep.tablesKept.grows _ hpos).length_le
    · rw [hrest']
      exact forall_mem_snoc hrest (hge e hpend hadd.flatten)
    · rw [hret, hseen]

end Reading

/-! ## Runs -/

section Run

variable {cfg : Config} {x y : IterSys cfg} {startLsn : Nat} {as : List IterAction}

def IterSys.returned (x : IterSys cfg) : List (BufferTag × Nat) := keys (x.results.filterMap id)

/-- The condition on a call: an iterator without a place is not asked for
an entry while the newest table is empty and the entry it was opened for
is below `start_lsn`. -/
def NextOk (x : IterSys cfg) : IterAction → Prop
  | .ring _ => True
  | .next .. =>
    let s := x.sys.snap
    x.iter.idxTableId = tableInvalidId → 0 < s.maxIdxTableId →
      (s.memTable (cfg.slotOf s.maxIdxTableId)).data.maxLsn = invalidXLogRecPtr →
      ∀ e ∈ x.sys.inserter.pending, x.iter.startLsn ≤ e.lsn

structure IterInv (startLsn : Nat) (as : List IterAction) (x : IterSys cfg)
    (es : List LogIndexLsn) : Prop where
  run : FreshRun (ringActions as) x.sys es
  start_eq : x.iter.startLsn = startLsn
  place : (x.iter.idxTableId = tableInvalidId ∧ x.iter.idx = 0 ∧ x.returned = []) ∨
    (Reading startLsn x.sys.snap (cut es) x.iter x.returned ∧
      ∃ e ∈ addCalls (ringActions as), startLsn ≤ e.lsn)

theorem ringActions_snoc_ring (as : List IterAction) (a : Action) :
    ringActions (as ++ [.ring a]) = ringActions as ++ [a] :=
  filterMap_append

theorem ringActions_snoc_next (as : List IterAction) (proc : Nat) (locks : IterLocks) :
    ringActions (as ++ [.next proc locks]) = ringActions as :=
  filterMap_append.trans (append_nil _)

variable {es : List LogIndexLsn}

theorem IterInv.ring (hinv : IterInv startLsn as x es) {a : Action}
    (hok : CallsOk (addCalls (ringActions as ++ [a])))
    (hst : iterStep x (.ring a) = some y) : ∃ es', IterInv startLsn (as ++ [.ring a]) y es' := by
  obtain ⟨sys, hstep, rfl⟩ := map_eq_some_iff.mp hst
  obtain ⟨es', hrun', hsys⟩ := hinv.run.step hok hstep
  rw [← ringActions_snoc_ring] at hrun'
  refine ⟨es', hrun', hinv.start_eq, hinv.place.imp_right fun ⟨hr, e0, he0, hge0⟩ =>
    ⟨?_, e0, ?_, hge0⟩⟩
  · refine hr.ringStep hinv.run.inv hsys hstep fun e hpend hflat => ?_
    rw [hinv.run.calls] at he0
    rcases mem_append.mp he0 with he0 | he0
    · have hsorted := hsys.inv.ring.sorted
      rw [hflat, LsnSorted, pairwise_append, cut_flatten] at hsorted
      exact hge0.trans (hsorted.2.2 e0 he0 e (mem_singleton_self e))
    · have hin : e0 ∈ [e] := hpend ▸ mem_append_left _ he0
      rwa [← mem_singleton.mp hin]
  · rw [ringActions_snoc_ring, addCalls_append]
    exact mem_append_left _ he0

theorem SysInv.pending_of_empty {x : Sys cfg} {h : Tables} (hx : SysInv False x h)
    (hlt : tableNum h < x.snap.maxIdxTableId) : ∃ e, x.inserter.pending = [e] := by
  cases hins : x.inserter with
  | idle => exact absurd ((hx.settled hins).empty hlt).1 id
  | nextFreeSeg c | waitActive c | setActive c => exact ⟨c.info, rfl⟩

theorem FreshRun.read {x : Sys cfg} {as : List Action} (hf : FreshRun as x es) {s' : Snapshot cfg}
    {c' : TableCache} (hr : ReadRun (cut es) x.snap s' c') (proc : Nat) :
    FreshRun as { x with snap := s', caches := update x.caches proc c' } es := by
  have hstep := hf.inv.read hr.ring hr.effect hr.cache proc
  exact ⟨⟨hf.calls, hstep.inv, fun h0 => hf.adding (hstep.adding h0).1⟩,
    hstep.min_seg.trans hf.min_seg⟩

section

variable (hinv : IterInv startLsn as x es)
include hinv

theorem IterInv.ofNext {proc : Nat}
    {locks : IterLocks} {res : Option LogIndexLsn} {iter' : LsnIter} {s' : Snapshot cfg}
    {c' : TableCache}
    (hnext : lsnIteratorNext x.sys.snap (x.sys.caches proc) locks x.iter =
      some (res, iter', s', c'))
    (hrun : ReadRun (cut es) x.sys.snap s' c') (hstart : iter'.startLsn = startLsn)
    (hplace : (iter'.idxTableId = tableInvalidId ∧ iter'.idx = 0 ∧
        x.returned ++ keys res.toList = []) ∨
      (Reading startLsn x.sys.snap (cut es) iter' (x.returned ++ keys res.toList) ∧
        ∃ e ∈ addCalls (ringActions as), startLsn ≤ e.lsn)) :
    ∃ y, iterStep x (.next proc locks) = some y ∧ y.results = x.results ++ [res] ∧
      IterInv startLsn (as ++ [.next proc locks]) y es := by
  have hreturned : keys ((x.results ++ [res]).filterMap id) = x.returned ++ keys res.toList := by
    rw [filterMap_append, keys_append]
    cases res <;> rfl
  rw [iterStep, hnext]
  refine ⟨_, rfl, rfl, ?_, hstart, ?_⟩
  · rw [ringActions_snoc_next]
    exact hinv.run.read hrun proc
  · rw [ringActions_snoc_next, IterSys.returned, hreturned]
    exact hplace.imp_right fun ⟨hr, hreached⟩ =>
      ⟨⟨hrun.effect.hasPlace_iff.mpr hr.place, hr.rest, hr.returned⟩, hreached⟩

/-- A search that finds a place finds an entry to return, or the entry in
hand will be one. -/
theorem IterInv.reached {proc : Nat} {locks : IterLocks} (hok : NextOk x (.next proc locks))
    (hid : x.iter.idxTableId = tableInvalidId) {iter' : LsnIter}
    (hs : Start startLsn x.sys.snap (cut es) iter') :
    ∃ e ∈ addCalls (ringActions as), startLsn ≤ e.lsn := by
  have hi := hinv.run.inv.ring
  rw [hinv.run.calls]
  rcases hs.live with ⟨e, he, hge⟩ | hlt
  · rw [cut_flatten] at he
    exact ⟨e, mem_append_left _ he, hge⟩
  · obtain ⟨e, hpend⟩ := hinv.run.inv.pending_of_empty hlt
    obtain ⟨⟨-, free, hr⟩, -⟩ := hi.opened _ (hi.saved_le.trans_lt hlt) le_rfl
    have hmax := hr.max_eq
    rw [tableEntries_eq_nil hlt] at hmax
    rw [hpend]
    refine ⟨e, mem_concat_self, ?_⟩
    rw [← hinv.start_eq]
    exact hok hid (Nat.zero_lt_of_lt hlt) hmax e (by rw [hpend]; exact mem_singleton_self e)

/-- A call returns, and returns NULL only when nothing is left. -/
theorem IterInv.next
    (hpos : 0 < startLsn) (proc : Nat) (locks : IterLocks) (hok : NextOk x (.next proc locks)) :
    ∃ res y, iterStep x (.next proc locks) = some y ∧ y.results = x.results ++ [res] ∧
      IterInv startLsn (as ++ [.next proc locks]) y es ∧
      (res = none → x.returned = keys (wanted startLsn es)) := by
  have hi := hinv.run.inv.ring
  have hc := hinv.run.inv.caches proc
  have hmin := hi.minTid_le hinv.run.min_seg
  obtain rfl := hinv.start_eq
  have hread : ∀ iter1 s1 c1, lsnIteratorSearch x.sys.snap (x.sys.caches proc) locks x.iter =
      some (iter1, s1, c1) → ReadRun (cut es) x.sys.snap s1 c1 →
      iter1.startLsn = x.iter.startLsn →
      Reading x.iter.startLsn x.sys.snap (cut es) iter1 x.returned →
      (∃ e ∈ addCalls (ringActions as), x.iter.startLsn ≤ e.lsn) →
      ∃ res y, iterStep x (.next proc locks) = some y ∧ y.results = x.results ++ [res] ∧
        IterInv x.iter.startLsn (as ++ [.next proc locks]) y es ∧
        (res = none → x.returned = keys (wanted x.iter.startLsn es)) := by
    intro iter1 s1 c1 hsearch hrun1 hstart hr hreached
    obtain ⟨res, iter', s', c', hnext, hrun, hmoved⟩ :=
      hi.lsnIteratorNext hsearch hrun1 hmin hr.place
    obtain ⟨hr', hdone⟩ := hr.moved hmoved
    obtain ⟨y, hy, hres, hinv'⟩ := hinv.ofNext hnext hrun (hmoved.start_eq.trans hstart)
      (.inr ⟨hr', hreached⟩)
    rw [cut_flatten] at hdone
    exact ⟨res, y, hy, hres, hinv', hdone⟩
  rcases hinv.place with ⟨hid, hidx, hret⟩ | ⟨hr, hreached⟩
  · obtain ⟨iter1, s1, c1, hsearch, hrun1, hs | hn⟩ :=
      hi.lsnIteratorSearch hc hmin hpos hid hidx locks
    · exact hread iter1 s1 c1 hsearch hrun1 hs.start_eq (hret ▸ hs.reading)
        (hinv.reached hok hid hs)
    · have hnext : lsnIteratorNext x.sys.snap (x.sys.caches proc) locks x.iter =
          some (none, iter1, s1, c1) := by
        rw [lsnIteratorNext, hsearch]
        simp only
        rw [if_neg (by rw [hn.state]; decide)]
      obtain ⟨y, hy, hres, hinv'⟩ := hinv.ofNext hnext hrun1 hn.start_eq
        (.inl ⟨hn.idxTableId, hn.idx, by rw [hret]; rfl⟩)
      refine ⟨none, y, hy, hres, hinv', fun _ => ?_⟩
      have hbelow := hn.below
      rw [cut_flatten] at hbelow
      rw [hret, wanted_eq_nil hbelow]
      rfl
  · exact hread _ _ _ (hr.place.lsnIteratorSearch locks) ⟨hi, hc, ReadEffect.refl _⟩ rfl hr hreached

end

theorem Reading.returned_prefix {s : Snapshot cfg} {h : Tables} {iter : LsnIter}
    {ret : List (BufferTag × Nat)} (hr : Reading startLsn s h iter ret) :
    ret <+: keys (wanted startLsn h.flatten) := by
  rw [hr.returned, ← seenAt_append_restAt h hr.place.pos iter.idx, wanted_append, keys_append]
  exact prefix_append ..

theorem IterInv.returned_prefix (hinv : IterInv startLsn as x es) :
    x.returned <+: keys (wanted startLsn es) := by
  rcases hinv.place with ⟨-, -, hret⟩ | ⟨hr, -⟩
  · rw [hret]
    exact nil_prefix
  · have := hr.returned_prefix
    rwa [cut_flatten] at this

/-- In every run whose calls meet the condition, the calls return the
entries from `start_lsn` on in the order they were added, each once; and
another call returns NULL exactly if all of them have been returned. -/
theorem lsnIterator_exact (hpos : invalidXLogRecPtr < startLsn) {s : Snapshot cfg} {iter : LsnIter}
    (hiter : createLsnIterator s startLsn = some iter) (hok : CallsOk (addCalls (ringActions as)))
    (hmeets : Meets iterStep NextOk ⟨initSys cfg, iter, []⟩ as)
    (hrun : exec iterStep ⟨initSys cfg, iter, []⟩ as = some x) :
    x.returned <+: keys (wanted startLsn (addedEntries (ringActions as) x.sys)) ∧
      ∀ proc locks, NextOk x (.next proc locks) →
        ∃ res y, iterStep x (.next proc locks) = some y ∧ y.results = x.results ++ [res] ∧
          (res = none ↔
            x.returned = keys (wanted startLsn (addedEntries (ringActions as) x.sys))) := by
  rw [createLsnIterator, if_neg hpos.ne'] at hiter
  cases hiter
  have hinv : CallsOk (addCalls (ringActions as)) → ∃ es, IterInv startLsn as x es := by
    refine exec_invariant_of_meets
      (fun as x => CallsOk (addCalls (ringActions as)) → ∃ es, IterInv startLsn as x es)
      (fun as x a y ih hP hst hok => ?_)
      (fun _ => ⟨[], by exact freshRun_init cfg, rfl, .inl ⟨rfl, rfl, rfl⟩⟩)
      hmeets hrun
    · cases a with
      | ring a =>
        rw [ringActions_snoc_ring] at hok
        obtain ⟨es, hinv⟩ := ih hok.left
        exact hinv.ring hok hst
      | next proc locks =>
        rw [ringActions_snoc_next] at hok
        obtain ⟨es, hinv⟩ := ih hok
        obtain ⟨res, y', hy, -, hinv', -⟩ := hinv.next hpos proc locks hP
        obtain rfl := some.inj (hst.symm.trans hy)
        exact ⟨es, hinv'⟩
  obtain ⟨es, hinv⟩ := hinv hok
  rw [hinv.run.addedEntries]
  refine ⟨hinv.returned_prefix, fun proc locks hP => ?_⟩
  obtain ⟨res, y, hy, hres, hinv', hdone⟩ := hinv.next hpos proc locks hP
  refine ⟨res, y, hy, hres, hdone, fun hall => ?_⟩
  have hle := hinv'.returned_prefix.length_le
  rw [← hall, IterSys.returned, hres, filterMap_append, keys_append, length_append] at hle
  cases res with
  | none => rfl
  | some e =>
    have : (keys ([some e].filterMap id)).length = 1 := rfl
    rw [IterSys.returned] at hle
    omega

instance (x : IterSys cfg) : (a : IterAction) → Decidable (NextOk x a)
  | .ring _ => .isTrue trivial
  | .next .. => inferInstanceAs (Decidable (_ → _ → _ → _))

end Run

/-! ## A start in the future -/

def freeLocks : IterLocks := ⟨fun _ => ⟨true, true⟩, fun _ => ⟨true, true⟩, fun _ => ⟨true, true⟩⟩

/-- Two entries are added, one before and one from LSN 100 on. -/
def twoTablesRun : List IterAction :=
  [.next 0 freeLocks, .ring (.addLsn (pageEntry 7 1)), .ring .nextFreeSeg,
    .ring (.waitActive false), .ring .setActive, .ring .nextFreeSeg, .next 0 freeLocks,
    .ring (.addLsn (pageEntry 8 (2 ^ 32))), .ring .nextFreeSeg, .ring (.waitActive false),
    .next 0 freeLocks, .ring .setActive, .ring .nextFreeSeg, .next 0 freeLocks]

theorem lsnIterator_exact_twoTables : ∃ x : IterSys smallConfig,
    exec iterStep ⟨initSys smallConfig, ⟨100, .forward, 0, 0, 0⟩, []⟩ twoTablesRun = some x ∧
      x.returned = [((pageEntry 8 0).tag, 2 ^ 32)] ∧
      x.returned <+: keys (wanted 100 (addedEntries (ringActions twoTablesRun) x.sys)) := by
  have hrun := (some_get (x := exec iterStep
    ⟨initSys smallConfig, ⟨100, .forward, 0, 0, 0⟩, []⟩ twoTablesRun) (by rfl)).symm
  exact ⟨_, hrun, by rfl, (lsnIterator_exact (by decide)
    (show createLsnIterator (initSys smallConfig).snap 100 = some _ from rfl)
    ⟨by decide, by decide⟩ (by decide) hrun).1⟩

/-- The first call comes when the first table is open and still empty. -/
def futureRun : List IterAction :=
  [.ring (.addLsn (pageEntry 7 1)), .ring .nextFreeSeg, .ring (.waitActive false),
    .next 0 freeLocks, .ring .setActive, .ring .nextFreeSeg, .next 0 freeLocks]

/-- An iterator from LSN 100 on returns the entry with LSN 1. -/
theorem futureRun_below_start : ∃ (iter : LsnIter) (x : IterSys smallConfig),
    createLsnIterator (initSys smallConfig).snap 100 = some iter ∧
      CallsOk (addCalls (ringActions futureRun)) ∧
      exec iterStep ⟨initSys smallConfig, iter, []⟩ futureRun = some x ∧
      x.returned = [((pageEntry 7 1).tag, 1)] := by
  refine ⟨⟨100, .forward, 0, 0, 0⟩,
    (exec iterStep ⟨initSys smallConfig, ⟨100, .forward, 0, 0, 0⟩, []⟩
    futureRun).get (by rfl), rfl, ⟨by decide, by decide⟩, (some_get _).symm, by rfl⟩

end PolarDB.LogIndex
