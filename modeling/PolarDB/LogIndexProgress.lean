import PolarDB.LogIndexRingSafety

/-!
# The inserter and the flusher get on

Safety says what never happens; here is what can always happen. A call of
`polar_logindex_add_lsn` comes to its end once `table_flushable` agrees
to a forced save (`exists_finish`), so every stream of entries can be
added (`exists_calls`); and the flusher can save every table but the
newest (`exists_flush`).

An invariant of the runs in question is carried along as a parameter
(`Inv`): it has to give the invariant of the system and to be kept by the
steps that are taken.
-/

namespace PolarDB.LogIndex

open List

variable {cfg : Config} {s s' : Snapshot cfg} {h : Tables} {c : InsertCall}

/-! ## Saving the next table -/

/-- The file of the next table to be saved exists, or the table is the
first of its segment. -/
theorem RingInv.openTableFile (hi : RingInv s h) :
    ∃ file, openTableFile s (s.saved + 1) = some file := by
  rw [LogIndex.openTableFile]
  cases hf : s.files (segmentNo (s.saved + 1)) with
  | some file => exact ⟨file, rfl⟩
  | none =>
    by_cases hoff : segmentOffset (s.saved + 1) = 0
    · exact ⟨_, if_pos hoff⟩
    · exfalso
      simp only [segmentOffset, tableNumPerFile] at hoff
      have hpos : 0 < s.saved := by omega
      have hmin : s.minTid = _ := hi.metaOk.min_tid hpos
      have hseg : _ ≤ segmentNo s.saved := hi.metaOk.min_seg hpos
      have hsame : segmentNo (s.saved + 1) = segmentNo s.saved := by
        simp only [segmentNo, tableNumPerFile]
        omega
      obtain ⟨d, hd, -⟩ := hi.stored _ hpos
        (by simp only [segmentNo, tableNumPerFile] at hmin hseg; omega) le_rfl
      obtain ⟨file, hfile, -⟩ := readTableData_eq_some.mp hd
      rw [hsame, hfile] at hf
      cases hf

theorem RingInv.writeNext (hi : RingInv s h) (hlt : s.saved < s.maxIdxTableId)
    (hst : (s.memTable (cfg.slotOf (s.saved + 1))).state = .inactive) :
    ∃ s', writeTable s (cfg.slotOf (s.saved + 1)) = some (s', true) ∧ s'.saved = s.saved + 1 := by
  have htid := (hi.opened _ (Nat.lt_succ_self _) hlt).1.1
  obtain ⟨file, hopen⟩ := hi.openTableFile
  obtain ⟨s1, hw⟩ : ∃ s1, writeTableData s (cfg.slotOf (s.saved + 1)) = some s1 := by
    rw [writeTableData, htid, hopen]
    exact ⟨_, rfl⟩
  obtain ⟨b, file', -, -, rfl⟩ := hi.writeData (Nat.lt_succ_self _) hlt hw
  rw [writeTable, if_pos htid, hw]
  simp only
  rw [if_neg, htid]
  · exact ⟨_, rfl, Nat.max_eq_right (Nat.le_succ _)⟩
  · exact fun hact => by cases hst.symm.trans hact

/-! ## The wait for a slot -/

theorem Waiting.done (hw : Waiting s h c) (hi : RingInv s h) :
    ∃ s', waitActiveTurn s c.table c.info.lsn true = some (s', true) := by
  cases hst : (s.memTable c.table).state with
  | active => exact absurd hst (hw.none_active _)
  | free => exact ⟨_, hi.waitActiveTurn_done (if_neg (by rw [hst]; decide)) (.inl hst)⟩
  | flushed => exact ⟨_, hi.waitActiveTurn_done (if_neg (by rw [hst]; decide)) (.inr hst)⟩
  | inactive =>
    obtain ⟨t, ht, hle, hslot⟩ := (hi.slots _).inactive hst
    have hring := hi.ring
    have hnext : t = s.saved + 1 := by
      by_contra hne
      have hother : cfg.slotOf t ≠ cfg.slotOf (s.maxIdxTableId + 1) :=
        slotOf_ne (by omega) (Nat.lt_succ_of_le hle) (by omega)
      rw [hslot, hw.table] at hother
      exact hother rfl
    have hst' := hst
    rw [← hslot, hnext] at hst'
    obtain ⟨s1, hwrite, -⟩ := hi.writeNext (by omega) hst'
    rw [← hnext, hslot] at hwrite
    obtain ⟨hi1, heff, hok⟩ := hi.write (.inr hst) hwrite
    have hflushed := (heff.slot.resolve_left fun hsame => hok rfl (hsame ▸ hst)).2
    have hsave : (if (s.memTable c.table).state = .inactive then forceSaveTable s c.table true
        else some s) = some s1 := by
      rw [if_pos hst, forceSaveTable, if_pos rfl, hwrite]
    exact ⟨_, hi1.waitActiveTurn_done hsave (.inr (by rw [hflushed]))⟩

theorem Switched.nextFree_idle (hs : Switched s h c) (hi : RingInv s h)
    (hactive : s.activeTable = cfg.slotOf s.maxIdxTableId) : (nextFreeSeg s c).2 = .idle := by
  rw [nextFreeSeg, if_pos (hactive ▸ hs.slot_state hi)]
  split
  · rfl
  · rw [if_neg (by rw [hs.not_full hi hactive]; decide)]

theorem nextFreeSeg_pc (s : Snapshot cfg) (c : InsertCall) :
    (nextFreeSeg s c).2 = .idle ∨ ∃ c', (nextFreeSeg s c).2 = .waitActive c' := by
  rw [nextFreeSeg]
  split
  · split
    · exact .inl rfl
    · split
      · exact .inr ⟨_, rfl⟩
      · exact .inl rfl
  · split
    · exact .inr ⟨_, rfl⟩
    · exact .inr ⟨_, rfl⟩

/-! ## Runs -/

/-- Not a reader: readers use the slots of saved tables for other saved
tables. -/
def Action.isReader : Action → Bool
  | .readTable .. => true
  | _ => false

structure AddRun (x y : Sys cfg) (bs : List Action) (es : List LogIndexLsn) : Prop where
  exec : exec step x bs = some y
  calls : addCalls bs = es
  no_reader : ∀ a ∈ bs, a.isReader = false

section Runs

variable {x y z : Sys cfg} {as bs cs : List Action} {es es' : List LogIndexLsn}

theorem AddRun.nil (x : Sys cfg) : AddRun x x [] [] :=
  ⟨rfl, rfl, forall_mem_nil _⟩

theorem AddRun.append (hxy : AddRun x y bs es) (hyz : AddRun y z cs es') :
    AddRun x z (bs ++ cs) (es ++ es') := by
  refine ⟨?_, by rw [addCalls_append, hxy.calls, hyz.calls], fun a ha => ?_⟩
  · rw [exec_append, hxy.exec]
    exact hyz.exec
  · exact (mem_append.mp ha).elim (hxy.no_reader a) (hyz.no_reader a)

theorem AddRun.one {a : Action} (hst : step x a = some y) (hr : a.isReader = false) :
    AddRun x y [a] (addCalls [a]) := by
  refine ⟨?_, rfl, fun a' ha' => by rw [mem_singleton.mp ha']; exact hr⟩
  rw [PolarDB.exec, hst]
  rfl

structure RunInv (cfg : Config) (es : List LogIndexLsn) where
  Inv : List Action → Sys cfg → Prop
  sys : ∀ {as x}, Inv as x → ∃ r h, SysInv r x h
  step : ∀ {as x a x'}, Inv as x → addCalls (as ++ [a]) <+: es → a.isReader = false →
    step x a = some x' → Inv (as ++ [a]) x'

variable (I : RunInv cfg es)

theorem RunInv.run (hinv : I.Inv [] x) (hrun : AddRun x y bs es) : I.Inv bs y := by
  refine exec_invariant (fun cs z => (cs <+: bs) → I.Inv cs z) (fun _ => hinv) ?_ hrun.exec
    prefix_rfl
  intro cs z a z' ih hst hcs
  have hmem : a ∈ bs := hcs.subset mem_concat_self
  refine I.step (ih ((prefix_append ..).trans hcs)) ?_ (hrun.no_reader a hmem) hst
  obtain ⟨ds, hds⟩ := hcs
  rw [← hrun.calls, ← hds, addCalls_append (cs ++ [a])]
  exact prefix_append ..

def RunInv.Leads (as : List Action) (x : Sys cfg) (es' : List LogIndexLsn) (P : Sys cfg → Prop) :
    Prop :=
  ∃ bs y, AddRun x y bs es' ∧ I.Inv (as ++ bs) y ∧ P y

variable {P : Sys cfg → Prop}
  {I} in
theorem RunInv.here (hinv : I.Inv as x) (hP : P x) : I.Leads as x [] P :=
  ⟨[], x, AddRun.nil x, by rwa [append_nil], hP⟩

variable {I} in
theorem RunInv.quiet (hinv : I.Inv as x) (hes : addCalls as <+: es) {a : Action}
    (hst : LogIndex.step x a = some y) (hr : a.isReader = false) (hno : addCalls [a] = [])
    (hnext : I.Inv (as ++ [a]) y → addCalls (as ++ [a]) <+: es → I.Leads (as ++ [a]) y [] P) :
    I.Leads as x [] P := by
  have hes1 : addCalls (as ++ [a]) <+: es := by
    rwa [addCalls_append, hno, append_nil]
  obtain ⟨bs, z, hrun, hinv', hP⟩ := hnext (I.step hinv hes1 hr hst) hes1
  have hrun' := (AddRun.one hst hr).append hrun
  rw [hno] at hrun'
  rw [append_assoc] at hinv'
  exact ⟨[a] ++ bs, z, hrun', hinv', hP⟩

section

variable (hinv : I.Inv as x) (hes : addCalls as <+: es)
include hinv hes

theorem RunInv.finish_setActive (hc : x.inserter = .setActive c) :
    I.Leads as x [] (·.inserter = .idle) := by
  obtain ⟨r, h, hx⟩ := I.sys hinv
  have hsw := hx.pc
  rw [hc] at hsw
  obtain ⟨hi1, hsw1, hact1⟩ := hsw.setActive hx.ring
  have hst1 : LogIndex.step x .setActive =
      some { x with snap := setActive x.snap c, inserter := .nextFreeSeg c } := by
    simp only [LogIndex.step, hc]
  have hst2 : LogIndex.step { x with snap := setActive x.snap c, inserter := .nextFreeSeg c }
      .nextFreeSeg = some { x with
        snap := (nextFreeSeg (setActive x.snap c) c).1
        inserter := (nextFreeSeg (setActive x.snap c) c).2 } := rfl
  exact quiet hinv hes hst1 rfl rfl fun hinv1 hes1 => quiet hinv1 hes1 hst2 rfl rfl
    fun hinv2 _ => here hinv2 (hsw1.nextFree_idle hi1 hact1)

theorem RunInv.finish_waitActive (hc : x.inserter = .waitActive c) :
    I.Leads as x [] (·.inserter = .idle) := by
  obtain ⟨r, h, hx⟩ := I.sys hinv
  have hw := hx.pc
  rw [hc] at hw
  obtain ⟨s', hturn⟩ := hw.done hx.ring
  have hst : LogIndex.step x (.waitActive true) =
      some { x with snap := s', inserter := .setActive c } := by
    simp only [LogIndex.step, hc, hturn, if_true]
  exact quiet hinv hes hst rfl rfl fun hinv1 hes1 => I.finish_setActive hinv1 hes1 rfl

theorem RunInv.exists_finish : I.Leads as x [] (·.inserter = .idle) := by
  cases hc : x.inserter with
  | idle => exact here hinv hc
  | setActive c => exact I.finish_setActive hinv hes hc
  | waitActive c => exact I.finish_waitActive hinv hes hc
  | nextFreeSeg c =>
    have hst : LogIndex.step x .nextFreeSeg = some { x with
        snap := (nextFreeSeg x.snap c).1, inserter := (nextFreeSeg x.snap c).2 } := by
      simp only [LogIndex.step, hc]
    refine quiet hinv hes hst rfl rfl fun hinv1 hes1 => ?_
    rcases nextFreeSeg_pc x.snap c with hidle | ⟨c', hwait⟩
    · exact here hinv1 hidle
    · exact I.finish_waitActive hinv1 hes1 hwait

end

theorem RunInv.exists_calls {rest : List LogIndexLsn} (hinv : I.Inv as x)
    (hidle : x.inserter = .idle) (hes : addCalls as ++ rest = es) :
    I.Leads as x rest (·.inserter = .idle) := by
  induction rest generalizing as x with
  | nil => exact here hinv hidle
  | cons e rest ih =>
    have hst : LogIndex.step x (.addLsn e) = some { x with
        snap := (addLsn x.snap e).1, inserter := (addLsn x.snap e).2 } := by
      simp only [LogIndex.step, hidle]
    have hes1 : addCalls (as ++ [.addLsn e]) <+: es := by
      rw [← hes]
      exact ⟨rest, by simp [addCalls]⟩
    have hinv1 := I.step hinv hes1 rfl hst
    obtain ⟨bs2, x2, hrun2, hinv2, hidle2⟩ := I.exists_finish hinv1 hes1
    have hes2 : addCalls (as ++ [.addLsn e] ++ bs2) ++ rest = es := by
      rw [addCalls_append, hrun2.calls, ← hes]
      simp [addCalls]
    obtain ⟨bs3, y, hrun3, hinv3, hidle3⟩ := ih hinv2 hidle2 hes2
    refine ⟨[.addLsn e] ++ bs2 ++ bs3, y,
      ((AddRun.one hst rfl).append hrun2).append hrun3, ?_, hidle3⟩
    rwa [← append_assoc, ← append_assoc]

theorem SysInv.flushNext {r : Prop} (hx : SysInv r x h)
    (hlt : x.snap.saved + 1 < x.snap.maxIdxTableId) :
    ∃ s', LogIndex.step x (.flushTable (cfg.slotOf (x.snap.saved + 1)) false true 0) =
        some { x with snap := s' } ∧ s'.maxIdxTableId = x.snap.maxIdxTableId ∧
      s'.saved = x.snap.saved + 1 := by
  have hi := hx.ring
  have hin : (x.snap.memTable (cfg.slotOf (x.snap.saved + 1))).state = .inactive := by
    refine (hi.opened _ (Nat.lt_succ_self _) hlt.le).2.resolve_left fun hact => ?_
    exact hi.slot_ne (Nat.lt_succ_self _) hlt.le (by omega) le_rfl
      hlt.ne ((hi.slots _).active hact).2
  obtain ⟨s', hwrite, hmeta⟩ := hi.writeNext (by omega) hin
  obtain ⟨-, heff, hok⟩ := hi.write (.inr hin) hwrite
  refine ⟨s', ?_, heff.maxIdxTableId, hmeta⟩
  have hslot : cfg.slotOf (x.snap.saved + 1) < cfg.memTblSize := Nat.mod_lt _ cfg.memTblSize_pos
  rw [LogIndex.step, if_pos hslot, flushTable]
  simp only [hin, hwrite, if_neg (hok rfl)]
  rfl

theorem RunInv.exists_flush (hinv : I.Inv as x) (hes : addCalls as <+: es)
    (hle : x.snap.saved < x.snap.maxIdxTableId) :
    I.Leads as x [] fun y => y.inserter = x.inserter ∧ y.snap.maxIdxTableId = x.snap.maxIdxTableId ∧
      y.snap.saved + 1 = x.snap.maxIdxTableId := by
  induction hk : x.snap.maxIdxTableId - x.snap.saved - 1 generalizing as x with
  | zero => exact here hinv ⟨rfl, rfl, by omega⟩
  | succ k ih =>
    obtain ⟨r, h, hx⟩ := I.sys hinv
    obtain ⟨s', hst, hT, hN⟩ := hx.flushNext (by omega)
    refine quiet hinv hes hst rfl rfl fun hinv1 hes1 => ?_
    have hle1 : s'.saved < s'.maxIdxTableId := by omega
    have hk1 : s'.maxIdxTableId - s'.saved - 1 = k := by omega
    have hlead := ih hinv1 hes1 hle1 hk1
    simp only [hT] at hlead
    exact hlead

end Runs

end PolarDB.LogIndex
