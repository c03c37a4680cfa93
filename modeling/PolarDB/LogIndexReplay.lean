import PolarDB.LogIndexRestart

/-!
# Adding a stream again after a restart

After a restart the caller adds the entries of its stream again, from
`meta.start_lsn` on. Until the first entry that is not saved yet
(`POLAR_LOGINDEX_STATE_ADDING`), `polar_logindex_add_lsn` skips what it
finds in a saved table. It looks at the last saved table only
(`inSaved`).

A replay goes through three phases (`ReplayInv`): entries are skipped;
the first fresh entry is in hand; entries are added. Behind the saved
tables the added entries are cut as if nothing had been there
(`h0 ++ cut es`).
-/

namespace PolarDB.LogIndex

open List Option

variable {cfg : Config} {s s' : Snapshot cfg} {h0 : Tables}

/-! ## The overlap filter -/

def inSaved (h0 : Tables) (e : LogIndexLsn) : Bool :=
  (tableEntries h0 (tableNum h0)).any fun e' => e'.lsn = e.lsn && e'.tag = e.tag

def savedMaxLsn (h0 : Tables) : Nat := entriesMaxLsn (tableEntries h0 (tableNum h0))

variable {es : List LogIndexLsn} {e : LogIndexLsn} {a : Action}
  {t : Nat} {h' : Tables} {skipped : List LogIndexLsn}

theorem DataRep.existsInSavedLoop {d : LogIdxTableData}
    (hd : DataRep cfg d t es) (hs : LsnSorted es) {e : LogIndexLsn}
    (hle : ∀ e' ∈ es, e'.lsn ≤ e.lsn) {n : Nat} (hn : n ≤ es.length) :
    existsInSavedLoop d e n = (es.take n).any fun e' => e'.lsn = e.lsn && e'.tag = e.tag := by
  induction n with
  | zero => rfl
  | succ n ih =>
    have hlt : n < es.length := hn
    rw [LogIndex.existsInSavedLoop, hd.getOrderLsn, getElem?_eq_getElem hlt,
      take_succ_eq_append_getElem hlt, any_append]
    simp only [map_some, any_cons, any_nil, Bool.or_false]
    by_cases hlsn : es[n].lsn = e.lsn
    · rw [if_neg (not_not_intro hlsn), ih hlt.le]
      by_cases htag : e.tag = es[n].tag
      · simp [htag, hlsn]
      · simp [if_neg htag, Ne.symm htag]
    · rw [if_pos hlsn]
      have hlow : ∀ e' ∈ es.take n, e'.lsn < e.lsn := by
        intro e' he'
        obtain ⟨j, hj, rfl⟩ := mem_take_iff_getElem.mp he'
        have h1 := pairwise_iff_getElem.mp hs j n (by omega) hlt (by omega)
        have h2 := hle es[n] (getElem_mem hlt)
        omega
      symm
      rw [Bool.or_eq_false_iff, List.any_eq_false]
      refine ⟨fun e' he' => ?_, by simp [hlsn]⟩
      have := hlow e' he'
      simp only [Bool.and_eq_true, decide_eq_true_eq, not_and]
      omega

structure SavedSlot (s : Snapshot cfg) (h0 : Tables) : Prop where
  saved : s.saved = tableNum h0
  newest : 0 < tableNum h0 → tableNum h0 < s.maxIdxTableId
  state : 0 < tableNum h0 → (s.memTable (cfg.slotOf (tableNum h0))).state = .flushed
  tid : 0 < tableNum h0 →
    (s.memTable (cfg.slotOf (tableNum h0))).data.idxTableId = tableNum h0

/-- The filters of `polar_logindex_add_lsn` on entries from the largest
saved LSN on. -/
theorem SavedSlot.alreadySaved_eq (hs : SavedSlot s h0) (hi : RingInv s h0)
    (hset : Settled True s h0) {e : LogIndexLsn} (hpos : 0 < e.lsn)
    (hge : savedMaxLsn h0 ≤ e.lsn) : alreadySaved s e = inSaved h0 e := by
  by_cases hN : tableNum h0 = 0
  · rw [hi.alreadySaved_eq_false hN hpos, inSaved, hN,
      show tableEntries h0 0 = [] by rw [length_eq_zero_iff.mp hN]; rfl]
    rfl
  · have hN : 0 < tableNum h0 := by omega
    have hN' : 0 < s.saved := hs.saved ▸ hN
    have hmax : _ = entriesMaxLsn (tableEntries h0 s.saved) := hi.metaOk.max_lsn hN'
    have hstart := hi.metaOk.start_lsn hN'
    rw [hs.saved] at hmax
    have hmax' : s.logMeta.maxLsn = savedMaxLsn h0 := hmax
    have hT : s.maxIdxTableId = tableNum h0 + 1 := by
      have := hi.le_num
      have := hs.newest hN
      omega
    have hprev : loopPrevValue s.activeTable cfg.memTblSize = cfg.slotOf (tableNum h0) := by
      rw [hset.activeTable, hT, slotOf_pred hN]
    have hd := hi.slot_data (by rw [hs.state hN]; decide)
    rw [hs.tid hN] at hd
    have hall : ∀ e' ∈ tableEntries h0 (tableNum h0), e'.lsn ≤ e.lsn := fun e' he' =>
      (le_entriesMaxLsn he').trans hge
    have hloop : existsInSavedTable s e = inSaved h0 e := by
      rw [existsInSavedTable, hprev, if_neg (not_not_intro (hs.state hN)), hd.order_length,
        hd.existsInSavedLoop (hi.sorted.tableEntries _) hall le_rfl, take_length]
      rfl
    rw [alreadySaved, hstart, hmax', hloop]
    by_cases heq : savedMaxLsn h0 = e.lsn
    · simp [heq]
    · have hno : inSaved h0 e = false := by
        rw [inSaved, List.any_eq_false]
        intro e' he'
        have : e'.lsn ≤ savedMaxLsn h0 := le_entriesMaxLsn he'
        simp only [Bool.and_eq_true, decide_eq_true_eq]
        omega
      have hlt : ¬ e.lsn < savedMaxLsn h0 := by omega
      simp [hlt, hno]

/-! ## The phases of a replay -/

/-- What the caller adds again: valid LSNs that do not decrease, from the
largest saved one on. -/
structure ReplayCalls (h0 : Tables) (es : List LogIndexLsn) : Prop where
  ok : CallsOk es
  ge : ∀ e ∈ es, savedMaxLsn h0 ≤ e.lsn

inductive ReplayInv (h0 : Tables) (bs : List Action) (y : Sys cfg) : Prop where
  | skipping (inv : SysInv True y h0) (adding : y.snap.adding = false)
      (slot : SavedSlot y.snap h0) (skip : ∀ e ∈ addCalls bs, inSaved h0 e = true)
  | first (skipped : List LogIndexLsn) (e : LogIndexLsn) (calls : addCalls bs = skipped ++ [e])
      (inv : SysInv True y h0) (adding : y.snap.adding = true) (pending : y.inserter.pending = [e])
      (newest : 0 < tableNum h0 → tableNum h0 < y.snap.maxIdxTableId)
      (skip : ∀ e ∈ skipped, inSaved h0 e = true) (fresh : inSaved h0 e = false)
  | adding (skipped : List LogIndexLsn) (e : LogIndexLsn) (es : List LogIndexLsn)
      (calls : addCalls bs = skipped ++ (e :: es ++ y.inserter.pending))
      (inv : SysInv False y (h0 ++ cut (e :: es))) (adding : y.snap.adding = true)
      (skip : ∀ e ∈ skipped, inSaved h0 e = true) (fresh : inSaved h0 e = false)

variable {x x' : Sys cfg} {h : Tables} {bs : List Action}

theorem SysInv.settle {r : Prop} (hx : SysInv r x h) (hidle : x.inserter = .idle)
    (hnum : x.snap.maxIdxTableId = tableNum h) : SysInv False x h := by
  refine ⟨hx.ring, ?_, hx.caches, hx.adding, hx.pending_valid, hx.pending_sorted⟩
  have hset := hx.settled hidle
  rw [hidle]
  exact ⟨hset.activeTable, hset.live, fun hlt => absurd hlt (by omega)⟩

theorem place_first {T : Nat} (hplace : h' = place h0 e ∨ h' = h0 ++ [[e]])
    (hnew : 0 < tableNum h0 → tableNum h0 < T) (hT : T ≤ tableNum h') :
    h' = h0 ++ cut [e] := by
  rcases hplace with rfl | rfl
  · rw [place] at hT ⊢
    split at hT
    · rename_i hc
      have hnum := (added_addLast e hc.1).num
      omega
    · rename_i hc
      rw [if_neg hc]
      rfl
  · rfl

theorem RingInv.le_savedMaxLsn (hi : RingInv s h0) : ∀ e ∈ h0.flatten, e.lsn ≤ savedMaxLsn h0 := by
  have := hi.lsn_le_table (Nat.le_refl (tableNum h0))
  rwa [tableNum, take_length] at this

theorem ReplayCalls.callOk {cs : List LogIndexLsn}
    (hok : ReplayCalls h0 (cs ++ addCalls [a])) (hle : ∀ e ∈ h0.flatten, e.lsn ≤ savedMaxLsn h0)
    (hsorted : LsnSorted h.flatten) (hcs : es.Sublist cs) (hflat : h.flatten = h0.flatten ++ es) :
    CallOk x h a := by
  cases a with
  | addLsn e =>
    intro _
    have hin : e ∈ cs ++ addCalls [.addLsn e] := mem_concat_self
    refine ⟨hok.ok.valid e hin, pairwise_snoc hsorted fun e1 he1 => ?_⟩
    rw [hflat] at he1
    rcases mem_append.mp he1 with he1 | he1
    · exact (hle e1 he1).trans (hok.ge e hin)
    · have hcalls := hok.ok.sorted
      rw [LsnSorted, pairwise_append] at hcalls
      exact hcalls.2.2 e1 (hcs.subset he1) e (mem_singleton_self e)
  | _ => trivial

/-- The first fresh entry: from skipping to the other phases. -/
theorem ReplayInv.ofFirst (hcalls : addCalls bs = skipped ++ [e])
    (hskip : ∀ e ∈ skipped, inSaved h0 e = true) (hfresh : inSaved h0 e = false)
    (hnew : 0 < tableNum h0 → tableNum h0 < x.snap.maxIdxTableId)
    (hstep : SysStep True x x' h0 h' [e]) (hadd : x'.snap.adding = true)
    (hfilter : x.snap.adding = true ∨ alreadySaved x.snap e = false) : ReplayInv h0 bs x' := by
  rcases hstep.tables with ⟨rfl, hpend⟩ | ⟨e', hpend, hidle, hnum, hplace⟩ |
    ⟨e', hpend, -, -, -, hnot, hsaved⟩
  · exact .first skipped e hcalls hstep.inv hadd hpend
      (fun hpos => (hnew hpos).trans_le hstep.max_le) hskip hfresh
  · obtain rfl : e = e' := by simpa using hpend
    have heq : h' = h0 ++ cut [e] := place_first (hplace.imp_right fun hp => hp.2.2) hnew
      (hnum ▸ hstep.max_le)
    have hinv := hstep.inv.settle hidle hnum
    rw [heq] at hinv
    exact .adding skipped e [] (by rw [hcalls, hidle]; rfl) hinv hadd hskip hfresh
  · obtain rfl : e = e' := by simpa using hpend
    rcases hfilter with hf | hf
    · rw [hf] at hnot
      cases hnot
    · rw [hf] at hsaved
      cases hsaved

theorem addLsn_adding (hsaved : alreadySaved s e = false) : (addLsn s e).1.adding = true := by
  rw [addLsn, if_neg (by simp [hsaved])]
  simp only
  split <;> rfl

/-- Saving leaves the last saved table where it is while the newest table
is ACTIVE. -/
theorem SavedSlot.save {mid : Nat} (hs : SavedSlot s h0) (hi' : RingInv s' h0)
    (heff : SaveEffect s s' mid) : SavedSlot s' h0 := by
  have hslot : 0 < tableNum h0 →
      s'.memTable (cfg.slotOf (tableNum h0)) = s.memTable (cfg.slotOf (tableNum h0)) := by
    intro hpos
    by_cases heq : cfg.slotOf (tableNum h0) = mid
    · rcases heff.slot with hsame | ⟨hin, -⟩
      · rwa [heq]
      · rw [← heq, hs.state hpos] at hin
        cases hin
    · exact heff.other _ heq
  refine ⟨?_, fun hpos => ?_, fun hpos => ?_, fun hpos => ?_⟩
  · have h1 := heff.saved_le
    rw [hs.saved] at h1
    exact hi'.saved_le.antisymm h1
  · rw [heff.maxIdxTableId]
    exact hs.newest hpos
  · rw [hslot hpos]
    exact hs.state hpos
  · rw [hslot hpos]
    exact hs.tid hpos

theorem addCalls_of_pending (hp : x.inserter.pending = [e])
    (hst : step x a = some x') : addCalls [a] = [] := by
  cases a with
  | addLsn info =>
    cases hpc : x.inserter with
    | idle => rw [hpc] at hp; cases hp
    | _ => simp [step, hpc] at hst
  | nextFreeSeg => rfl
  | waitActive flushable => rfl
  | setActive => rfl
  | flushTable mid flushActive flushable last => rfl
  | readTable proc tid shared exclusive => rfl

section

variable (hok : ReplayCalls h0 (addCalls bs ++ addCalls [a])) (hst : step x a = some x')
include hok hst

theorem replay_skipping (hinv : SysInv True x h0) (hadd : x.snap.adding = false)
    (hslot : SavedSlot x.snap h0) (hskip : ∀ e ∈ addCalls bs, inSaved h0 e = true)
    (hr : a.isReader = false) : ReplayInv h0 (bs ++ [a]) x' := by
  have hidle := hinv.adding hadd
  have hset := hinv.settled hidle
  cases a with
  | addLsn e =>
    have hin : e ∈ addCalls bs ++ addCalls [.addLsn e] := mem_concat_self
    have hfilter := hslot.alreadySaved_eq hinv.ring hset (hok.ok.valid e hin).1 (hok.ge e hin)
    by_cases hsaved : alreadySaved x.snap e = true
    · have hsame : x' = x := by
        simp only [step, hidle, addLsn, hadd, hsaved, Bool.not_false, Bool.and_true, if_true,
          some.injEq] at hst
        rw [← hst, ← hidle]
      rw [hsame]
      refine .skipping hinv hadd hslot ?_
      rw [addCalls_append]
      exact forall_mem_snoc hskip (hfilter ▸ hsaved)
    · have hsaved : alreadySaved x.snap e = false := Bool.eq_false_iff.mpr hsaved
      obtain ⟨h', hstep⟩ := hinv.step
        (hok.callOk hinv.ring.le_savedMaxLsn hinv.ring.sorted (nil_sublist _) (by simp)) hst
      rw [hidle] at hstep
      refine ReplayInv.ofFirst (addCalls_append bs [.addLsn e]) hskip (hfilter ▸ hsaved)
        hslot.newest hstep ?_ (.inr hsaved)
      simp only [step, hidle, some.injEq] at hst
      rw [← hst]
      exact addLsn_adding hsaved
  | flushTable mid flushActive flushable last =>
    obtain ⟨-, hst⟩ := ite_none_right_eq_some.mp hst
    obtain ⟨snap, hfl, rfl⟩ := map_eq_some_iff.mp hst
    obtain ⟨hi', heff⟩ := hinv.ring.flush hfl
    have hstep : SysStep True x { x with snap := snap } h0 h0 x.inserter.pending :=
      hinv.quiet heff.quiet rfl hi' heff.saved_le heff.min_seg heff.adding fun _ => .inl rfl
    refine .skipping hstep.inv (heff.adding.trans hadd) (hslot.save hi' heff) ?_
    simpa [addCalls] using hskip
  | readTable proc tid shared exclusive => cases hr
  | _ => simp [step, hidle] at hst

theorem replay_first (hcalls : addCalls bs = skipped ++ [e]) (hinv : SysInv True x h0)
    (hadd : x.snap.adding = true) (hp : x.inserter.pending = [e])
    (hnew : 0 < tableNum h0 → tableNum h0 < x.snap.maxIdxTableId)
    (hskip : ∀ e ∈ skipped, inSaved h0 e = true) (hfresh : inSaved h0 e = false) :
    ReplayInv h0 (bs ++ [a]) x' := by
  have hnone := addCalls_of_pending hp hst
  obtain ⟨h', hstep⟩ := hinv.step
    (hok.callOk hinv.ring.le_savedMaxLsn hinv.ring.sorted (nil_sublist _) (by simp)) hst
  rw [hp, hnone] at hstep
  refine ReplayInv.ofFirst ?_ hskip hfresh hnew hstep (hstep.adding_true hadd) (.inl hadd)
  rw [addCalls_append, hnone, append_nil, hcalls]

theorem replay_adding (hle : ∀ e ∈ h0.flatten, e.lsn ≤ savedMaxLsn h0)
    (hcalls : addCalls bs = skipped ++ (e :: es ++ x.inserter.pending))
    (hinv : SysInv False x (h0 ++ cut (e :: es))) (hadd : x.snap.adding = true)
    (hskip : ∀ e ∈ skipped, inSaved h0 e = true) (hfresh : inSaved h0 e = false) :
    ReplayInv h0 (bs ++ [a]) x' := by
  have hsub : (e :: es).Sublist (addCalls bs) := by
    rw [hcalls]
    exact (sublist_append_left ..).trans (sublist_append_right ..)
  obtain ⟨h', hstep⟩ := hinv.step
    (hok.callOk hle hinv.ring.sorted hsub (by rw [flatten_append, cut_flatten])) hst
  have hadd' := hstep.adding_true hadd
  have hcalls' : addCalls (bs ++ [a]) =
      skipped ++ (e :: es ++ (x.inserter.pending ++ addCalls [a])) := by
    rw [addCalls_append, hcalls]
    simp only [append_assoc]
  rcases hstep.tables with ⟨rfl, hpend⟩ | ⟨e', hpend, hidle, -, hplace⟩ | ⟨e', -, -, -, -, hnot, -⟩
  · exact .adding skipped e es (by rw [hcalls', hpend]) hstep.inv hadd' hskip hfresh
  · have hne : cut (e :: es) ≠ [] := fun hnil => by
      have := cut_flatten (e :: es)
      rw [hnil] at this
      cases this
    have heq : h' = h0 ++ cut (e :: (es ++ [e'])) := by
      rw [hplace.resolve_right fun hf => hf.1, place_append _ hne, ← cut_append, cons_append]
    rw [heq] at hstep
    refine .adding skipped e (es ++ [e']) ?_ hstep.inv hadd' hskip hfresh
    rw [hcalls', hpend, hidle]
    simp [InsertPc.pending]
  · rw [hadd] at hnot
    cases hnot

end

section

variable (hinv : ReplayInv h0 bs x) (hle : ∀ e ∈ h0.flatten, e.lsn ≤ savedMaxLsn h0)
include hinv hle

/-- Every step of the inserter and the flusher keeps the phase or moves
to the next one. -/
theorem ReplayInv.step {a : Action}
    (hok : ReplayCalls h0 (addCalls (bs ++ [a]))) (hr : a.isReader = false)
    (hst : LogIndex.step x a = some x') : ReplayInv h0 (bs ++ [a]) x' := by
  rw [addCalls_append] at hok
  cases hinv with
  | skipping inv adding slot skip => exact replay_skipping hok hst inv adding slot skip hr
  | first skipped e calls inv adding pending newest skip fresh =>
    exact replay_first hok hst calls inv adding pending newest skip fresh
  | adding skipped e es calls inv adding skip fresh =>
    exact replay_adding hok hst hle calls inv adding skip fresh

theorem ReplayInv.sysInv {a : Action} (hok : ReplayCalls h0 (addCalls bs ++ addCalls [a])) :
    ∃ r h, SysInv r x h ∧ CallOk x h a := by
  cases hinv with
  | skipping inv | first skipped e calls inv =>
    exact ⟨_, _, inv, hok.callOk hle inv.ring.sorted (nil_sublist _) (by simp)⟩
  | adding skipped e es calls inv =>
    refine ⟨_, _, inv, hok.callOk hle inv.ring.sorted ?_ (by rw [flatten_append, cut_flatten])⟩
    rw [calls]
    exact (sublist_append_left ..).trans (sublist_append_right ..)

end

/-! ## What a replay has to give -/

/-- Table `t` reads as the entries `es`, from storage if it is saved and
from its slot otherwise. -/
def TableReads (s : Snapshot cfg) (t : Nat) (es : List LogIndexLsn) : Prop :=
  if t ≤ s.logMeta.maxIdxTableId then ∃ d, readTableData s t = some d ∧ ReadsAs d t es
  else HeldBy s t es

/-- The tables are those of a run that added `stream` without a
restart. -/
structure SameTables (s : Snapshot cfg) (stream : List LogIndexLsn) : Prop where
  num : tableNum (cut stream) ≤ s.maxIdxTableId
  reads : ∀ t, 0 < t → t ≤ s.maxIdxTableId → TableReads s t (tableEntries (cut stream) t)

/-- The last saved table is the only one with entries of the last saved
record. -/
def LastRecordInOneTable (s : Snapshot cfg) : Prop :=
  s.logMeta.maxIdxTableId ≤ 1 ∨
    ∃ d, readTableData s (s.logMeta.maxIdxTableId - 1) = some d ∧ d.maxLsn < s.logMeta.maxLsn

theorem TableReads.keys_eq {es' : List LogIndexLsn} (hr : TableReads s t es)
    (hr' : TableReads s t es') : keys es = keys es' := by
  rw [TableReads] at hr hr'
  split at hr
  · rename_i hle
    rw [if_pos hle] at hr'
    obtain ⟨d, hd, hreads⟩ := hr
    obtain ⟨d', hd', hreads'⟩ := hr'
    obtain rfl := some.inj (hd.symm.trans hd')
    exact hreads.2.symm.trans hreads'.2
  · rename_i hgt
    rw [if_neg hgt] at hr'
    exact hr.1.2.symm.trans hr'.1.2

theorem RingInv.tableReads (hi : RingInv s h) (hseg : s.logMeta.minSegmentInfo.segmentNo = 0)
    (h1 : 0 < t) (ht : t ≤ s.maxIdxTableId) : TableReads s t (tableEntries h t) := by
  rw [TableReads]
  split
  · rename_i hle
    have hmin := hi.minTid_le hseg
    obtain ⟨d, hd, hrep⟩ := hi.stored t h1 (by omega) hle
    exact ⟨d, hd, hrep.readsAs⟩
  · exact hi.heldBy (Nat.lt_of_not_le ‹_›) ht

theorem length_eq_of_reads {n : Nat}
    (heq : ∀ t, 0 < t → t ≤ n → keys (tableEntries h t) = keys (tableEntries h' t)) :
    (h.take n).flatten.length = (h'.take n).flatten.length := by
  induction n with
  | zero => rfl
  | succ n ih =>
    have hlast := congrArg length (heq (n + 1) (Nat.succ_pos n) le_rfl)
    rw [keys, keys, length_map, length_map] at hlast
    rw [take_succ_flatten, take_succ_flatten, length_append, length_append,
      ih fun t h1 ht => heq t h1 (by omega), hlast]

theorem RingInv.not_sameTables (hi : RingInv s h) (hseg : s.logMeta.minSegmentInfo.segmentNo = 0)
    {stream : List LogIndexLsn} (hlt : stream.length < h.flatten.length) :
    ¬ SameTables s stream := by
  intro hsame
  have hlen := length_eq_of_reads fun t h1 ht =>
    (hi.tableReads hseg h1 ht).keys_eq (hsame.reads t h1 ht)
  have hall : h.take s.maxIdxTableId = h := take_of_length_le hi.num_le
  have hle := (take_flatten_sublist (cut stream) s.maxIdxTableId).length_le
  rw [cut_flatten] at hle
  rw [hall] at hlen
  omega

end PolarDB.LogIndex
