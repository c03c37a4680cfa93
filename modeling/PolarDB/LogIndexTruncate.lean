import PolarDB.LogIndexReplayExact

/-!
# Truncating the logindex

`polar_logindex_truncate` removes segment files, the oldest first, as long as
all LSNs in them are below the given one. Under the lock only the meta data
move; after that the bloom pages are dropped and the file is removed, or
renamed to become one of a segment to come, with its old tables in it. The
other processes go on in between.

What has an LSN that no truncation was asked for stays readable
(`truncate_reads`), and survives a crash at any moment (`truncate_crash`).
-/

namespace PolarDB.LogIndex

open Function List

variable {cfg : Config}

/-! ## One file -/

/-- `log_index_update_min_segment`; `none` is its PANIC. -/
def updateMinSegment (s : Snapshot cfg) : Option (Snapshot cfg) :=
  let segno := s.logMeta.minSegmentInfo.segmentNo + 1
  let write (maxLsn maxIdxTableId : Nat) := writeMeta s { s.logMeta with
    minSegmentInfo := ⟨segno, maxLsn, maxIdxTableId, segno * tableNumPerFile + 1⟩ }
  if segmentNo s.logMeta.maxIdxTableId = segno then
    some (write s.logMeta.maxLsn s.logMeta.maxIdxTableId)
  else
    (readTableData s ((segno + 1) * tableNumPerFile)).map fun table =>
      write table.maxLsn ((segno + 1) * tableNumPerFile)

/-- The process that truncates is in its loop, or behind the lock in
`log_index_truncate`. -/
inductive TruncatePc where
  | idle
  | loop (lsn : Nat)
  | bloom (lsn minSegmentNo maxSegmentNo maxUnusedTid : Nat)
  | file (lsn minSegmentNo maxSegmentNo : Nat)
  deriving DecidableEq, Repr

def logIndexTruncate (s : Snapshot cfg) (lsn : Nat) : Option (Snapshot cfg × TruncatePc) :=
  let minSeg := s.logMeta.minSegmentInfo
  let maxSegmentNo := segmentNo s.logMeta.maxIdxTableId
  if s.logMeta.written = false ∨ s.logMeta.maxLsn = invalidXLogRecPtr ∨
      minSeg.maxLsn = invalidXLogRecPtr ∨ lsn ≤ minSeg.maxLsn then some (s, .idle)
  else if maxSegmentNo = minSeg.segmentNo then some (s, .idle)
  else (updateMinSegment s).map fun s' => (s',
    .bloom lsn minSeg.segmentNo (max s.maxAllocatedSegNo maxSegmentNo) minSeg.maxIdxTableId)

/-- `SimpleLruTruncate` with the page of table `tid`: which of the pages before
it are gone depends on what is in the buffers. -/
def truncateBloom (s : Snapshot cfg) (tid : Nat) (gone : Nat → Bool) : Snapshot cfg :=
  { s with bloomPages := fun t =>
      if (t - 1) / bloomNumPerBlock < (tid - 1) / bloomNumPerBlock ∧ gone t then none
      else s.bloomPages t }

/-- The end of `log_index_truncate`, with `log_index_rename_segment_file`. Of
the two calls each may fail. -/
def removeSegmentFile (s : Snapshot cfg) (maxFiles minSegmentNo maxSegmentNo : Nat)
    (renamed unlinked : Bool) : Snapshot cfg :=
  match s.files minSegmentNo with
  | none => s
  | some file =>
    let newSegNo := max (segmentNo s.logMeta.maxIdxTableId) s.maxAllocatedSegNo + 1
    if maxSegmentNo - minSegmentNo < maxFiles ∧ renamed then
      { s with
        files := update (update s.files minSegmentNo none) newSegNo (some file)
        maxAllocatedSegNo := newSegNo }
    else if unlinked then { s with files := update s.files minSegmentNo none }
    else s

variable {s s' : Snapshot cfg} {h : Tables} {L g tid : Nat}

def Snapshot.setMinSegment (s : Snapshot cfg) (minSeg : LogIndexFileSegment) : Snapshot cfg :=
  { s with logMeta := { s.logMeta with minSegmentInfo := minSeg } }

abbrev Snapshot.minSeg (s : Snapshot cfg) : Nat := s.logMeta.minSegmentInfo.segmentNo

section

variable (hi : RingInv s h) (hpos : 0 < s.saved) (hlt : s.minSeg < segmentNo s.saved)
include hi hpos

theorem RingInv.minTid_eq : s.minTid = s.minSeg * tableNumPerFile + 1 :=
  hi.metaOk.min_tid hpos

theorem RingInv.minSeg_le : s.minSeg ≤ segmentNo s.saved :=
  hi.metaOk.min_seg hpos

theorem RingInv.writeMeta_minSegment (minSeg : LogIndexFileSegment) :
    writeMeta s { s.logMeta with minSegmentInfo := minSeg } = s.setMinSegment minSeg := by
  have hlsn : s.logMeta.maxLsn ≠ invalidXLogRecPtr := by
    rw [hi.metaOk.max_lsn hpos]
    exact (hi.entriesMaxLsn_pos hpos hi.saved_le).ne'
  simp only [writeMeta, if_pos hlsn, Snapshot.setMinSegment]
  rw [hi.metaOk.start_lsn hpos, hi.metaOk.written hpos]

include hlt

theorem RingInv.setMinSegment (hg : g = s.minSeg + 1)
    (htid : tid = min s.saved ((g + 1) * tableNumPerFile)) :
    RingInv (s.setMinSegment
      ⟨g, entriesMaxLsn (tableEntries h tid), tid, g * tableNumPerFile + 1⟩) h := by
  have hkept : s.minTid ≤ g * tableNumPerFile + 1 := by
    rw [hi.minTid_eq hpos, hg]
    exact Nat.succ_le_succ (Nat.mul_le_mul_right _ (Nat.le_succ _))
  exact { hi with
    metaOk := { hi.metaOk with
      zero := fun h0 => absurd h0 hpos.ne'
      min_tid := fun _ => rfl
      min_seg := fun _ => hg ▸ hlt
      min_max_tid := fun _ => htid
      min_max_lsn := fun _ => rfl }
    stored := fun t h1 hle => hi.stored t h1 (hkept.trans hle)
    bloomed := fun t h1 hle => hi.bloomed t h1 (hkept.trans hle) }

/-- The next segment becomes the oldest, without a PANIC. -/
theorem RingInv.updateMinSegment : ∃ minSeg, updateMinSegment s = some (s.setMinSegment minSeg) ∧
      minSeg.segmentNo = s.minSeg + 1 ∧ RingInv (s.setMinSegment minSeg) h := by
  have hself := segment_eq hpos
  have hoff := segmentOffset_lt s.saved
  simp only [LogIndex.updateMinSegment, hi.writeMeta_minSegment hpos]
  by_cases hlast : segmentNo s.saved = s.minSeg + 1
  · have htid : s.saved = min s.saved ((s.minSeg + 1 + 1) * tableNumPerFile) := by
      rw [← hlast]
      simp only [tableNumPerFile] at *
      omega
    have hring := hi.setMinSegment hpos hlt rfl htid
    rw [← hi.metaOk.max_lsn hpos] at hring
    exact ⟨_, if_pos hlast, rfl, hring⟩
  · have hin : (s.minSeg + 1 + 1) * tableNumPerFile ≤ s.saved := by
      simp only [tableNumPerFile] at *
      omega
    have hmin := hi.minTid_eq hpos
    obtain ⟨d, hd, hrep⟩ := hi.stored _ (by simp only [tableNumPerFile]; omega)
      (by simp only [tableNumPerFile] at hmin ⊢; omega) hin
    have hring := hi.setMinSegment hpos hlt rfl (Nat.min_eq_right hin).symm
    rw [← hrep.max_eq] at hring
    exact ⟨_, by rw [if_neg hlast, hd]; rfl, rfl, hring⟩

end

theorem RingInv.saved_pos (hi : RingInv s h) (hpos : 0 < s.minSeg) : 0 < s.saved := by
  by_contra h0
  rw [Snapshot.minSeg, (hi.metaOk.zero (Nat.eq_zero_of_not_pos h0)).2.2] at hpos
  exact absurd hpos (lt_irrefl 0)

theorem RingInv.minSeg_maxTid (hi : RingInv s h) (hpos : 0 < s.saved)
    (hlt : s.minSeg < segmentNo s.saved) :
    s.logMeta.minSegmentInfo.maxIdxTableId = (s.minSeg + 1) * tableNumPerFile := by
  have hself := segment_eq hpos
  have htid : _ = min s.saved ((s.minSeg + 1) * _) := hi.metaOk.min_max_tid hpos
  rw [htid]
  simp only [tableNumPerFile] at *
  omega

theorem RingInv.minSeg_lt (hi : RingInv s h) (hpos : 0 < s.minSeg) :
    s.minSeg * tableNumPerFile < s.saved := by
  have hself := segment_eq (hi.saved_pos hpos)
  have hle := hi.minSeg_le (hi.saved_pos hpos)
  simp only [tableNumPerFile] at *
  omega

/-- Bloom data of tables in front of the oldest segment does not matter, -/
theorem RingInv.truncateBloom (hi : RingInv s h) (gone : Nat → Bool)
    (htid : tid ≤ s.minSeg * tableNumPerFile) :
    RingInv (truncateBloom s tid gone) h := by
  refine { hi with bloomed := fun t h1 hle ht => ?_ }
  have hmin := hi.minTid_eq (h1.trans_le ht)
  have hle : s.minTid ≤ t := hle
  have hpage : ¬ (t - 1) / bloomNumPerBlock < (tid - 1) / bloomNumPerBlock :=
    Nat.not_lt.mpr (Nat.div_le_div_right (by omega))
  simp only [LogIndex.truncateBloom, hpage, false_and, if_false]
  exact hi.bloomed t h1 hle ht

/-- and neither do their files. A file may become that of a later segment: what
it holds is older than the tables of that one. -/
theorem RingInv.setFiles (hi : RingInv s h) {files : Nat → Option SegFile} (alloc : Nat)
    (hsame : ∀ g, s.minSeg ≤ g → g ≤ segmentNo s.saved → files g = s.files g)
    (hfrom : ∀ g file, files g = some file → ∃ g0 ≤ g, s.files g0 = some file) :
    RingInv { s with files := files, maxAllocatedSegNo := alloc } h := by
  refine { hi with
    stored := fun t h1 hle ht => ?_
    file_tid := fun g file i d hf hd hlt => ?_ }
  · have hmin := hi.minTid_eq (h1.trans_le ht)
    have hle : s.minTid ≤ t := hle
    have hself := segment_eq h1
    have hoff := segmentOffset_lt t
    obtain ⟨d, hd, hrep⟩ := hi.stored t h1 hle ht
    obtain ⟨file, hfile, hd⟩ := readTableData_eq_some.mp hd
    have hseg := hsame (segmentNo t) (by simp only [tableNumPerFile] at *; omega)
      (segmentNo_mono ht)
    exact ⟨d, readTableData_eq_some.mpr ⟨file, hseg.trans hfile, hd⟩, hrep⟩
  · obtain ⟨g0, hle, hf0⟩ := hfrom g file hf
    have hold := hi.file_tid g0 file i d hf0 hd hlt
    simp only [tableNumPerFile] at *
    omega

theorem RingInv.removeSegmentFile (hi : RingInv s h) (maxFiles maxSegmentNo : Nat)
    (renamed unlinked : Bool) (hg : g < s.minSeg) :
    ∃ files alloc, removeSegmentFile s maxFiles g maxSegmentNo renamed unlinked =
        { s with files := files, maxAllocatedSegNo := alloc } ∧
      RingInv { s with files := files, maxAllocatedSegNo := alloc } h := by
  have hfrom : ∀ g' file, update s.files g none g' = some file → s.files g' = some file := by
    intro g' file hf
    by_cases heq : g' = g
    · rw [heq, update_self] at hf
      cases hf
    · rwa [update_of_ne heq] at hf
  unfold LogIndex.removeSegmentFile
  split
  · exact ⟨_, _, rfl, hi⟩
  rename_i file hfile
  dsimp only
  split
  · refine ⟨_, _, rfl, hi.setFiles _ (fun g' hge hle => ?_) fun g' file' hf => ?_⟩
    · rw [update_of_ne (Nat.lt_succ_of_le (hle.trans (Nat.le_max_left ..))).ne,
        update_of_ne (hg.trans_le hge).ne']
    · by_cases heq : g' = max (segmentNo s.logMeta.maxIdxTableId) s.maxAllocatedSegNo + 1
      · rw [heq, update_self] at hf
        cases hf
        have hle := hi.minSeg_le (hi.saved_pos (Nat.zero_lt_of_lt hg))
        exact ⟨g, heq ▸ (hg.le.trans hle).trans (Nat.le_succ_of_le (Nat.le_max_left ..)), hfile⟩
      · rw [update_of_ne heq] at hf
        exact ⟨g', le_rfl, hfrom g' file' hf⟩
  split
  · exact ⟨_, _, rfl, hi.setFiles _ (fun g' hge _ => update_of_ne (hg.trans_le hge).ne' ..)
      fun g' file' hf => ⟨g', le_rfl, hfrom g' file' hf⟩⟩
  · exact ⟨_, _, rfl, hi⟩

/-! ## Runs -/

structure TruncateSys (cfg : Config) where
  sys : Sys cfg
  pc : TruncatePc

inductive TruncateAction where
  | act (a : Action)
  | truncate (lsn : Nat)
  | next (gone : Nat → Bool) (renamed unlinked : Bool)

def truncateStep (maxFiles : Nat) (y : TruncateSys cfg) : TruncateAction → Option (TruncateSys cfg)
  | .act a => (step y.sys a).map fun x => ⟨x, y.pc⟩
  | .truncate lsn =>
    if y.pc = .idle then
      some ⟨y.sys, if lsn = invalidXLogRecPtr then .idle else .loop lsn⟩
    else none
  | .next gone renamed unlinked =>
    match y.pc with
    | .idle => none
    | .loop lsn =>
      (logIndexTruncate y.sys.snap lsn).map fun r => ⟨{ y.sys with snap := r.1 }, r.2⟩
    | .bloom lsn minSeg maxSeg tid =>
      some ⟨{ y.sys with snap := truncateBloom y.sys.snap tid gone }, .file lsn minSeg maxSeg⟩
    | .file lsn minSeg maxSeg =>
      some ⟨{ y.sys with
        snap := removeSegmentFile y.sys.snap maxFiles minSeg maxSeg renamed unlinked }, .loop lsn⟩

def acts (as : List TruncateAction) : List Action :=
  as.filterMap fun
    | .act a => some a
    | _ => none

/-- What the truncating process is about to remove is in front of segment `g`,
and its LSN is at most `L`. -/
def TruncatePc.Ok (L g : Nat) : TruncatePc → Prop
  | .idle => True
  | .loop lsn => lsn ≤ L
  | .bloom lsn minSegmentNo _ tid => lsn ≤ L ∧ minSegmentNo < g ∧ tid ≤ g * tableNumPerFile
  | .file lsn minSegmentNo _ => lsn ≤ L ∧ minSegmentNo < g

/-- No table that was removed has an LSN from `L` on. -/
def Snapshot.RemovedBelow (s : Snapshot cfg) (L : Nat) (h : Tables) : Prop :=
  0 < s.minSeg → entriesMaxLsn (tableEntries h (s.minSeg * tableNumPerFile)) < L

/-- After a run whose truncations are up to `L` the entries `es` are in the
tables. -/
structure TruncateInv (L : Nat) (as : List TruncateAction) (y : TruncateSys cfg)
    (es : List LogIndexLsn) : Prop extends AddedRun (acts as) y.sys es where
  pc : y.pc.Ok L y.sys.snap.minSeg
  removed : y.sys.snap.RemovedBelow L (cut es)

variable {as : List TruncateAction} {y y' : TruncateSys cfg} {es : List LogIndexLsn} {x : Sys cfg}
  {a : Action} {pc : TruncatePc} {maxFiles : Nat}

theorem acts_append (as bs : List TruncateAction) : acts (as ++ bs) = acts as ++ acts bs :=
  filterMap_append

section

variable (hy : TruncateInv L as y es)
include hy

theorem TruncateInv.act (hok : CallsOk (addCalls (acts as ++ [a]))) (hst : step y.sys a = some x) :
    ∃ es', TruncateInv L (as ++ [.act a]) ⟨x, y.pc⟩ es' := by
  have hacts : acts (as ++ [.act a]) = acts as ++ [a] := acts_append ..
  obtain ⟨es', hrun, hstep⟩ := hy.toAddedRun.step hok hst
  rw [← hacts] at hrun
  refine ⟨es', hrun, ?_, fun hpos => ?_⟩
  · rw [Snapshot.minSeg, hstep.min_seg]
    exact hy.pc
  · simp only [Snapshot.minSeg, hstep.min_seg] at hpos ⊢
    have hlt := hy.inv.ring.minSeg_lt hpos
    rw [hstep.tables.saved_same hstep.inv.ring hstep.inv.pc
      (Nat.mul_pos hpos (by decide)) (hlt.le.trans hstep.saved_le)]
    exact hy.removed hpos

theorem TruncateInv.goto {b : TruncateAction} (hacts : acts [b] = [])
    (hmem : s'.memTable = y.sys.snap.memTable) (hactive : s'.activeTable = y.sys.snap.activeTable)
    (hmax : s'.maxIdxTableId = y.sys.snap.maxIdxTableId) (hadding : s'.adding = y.sys.snap.adding)
    (hsaved : s'.saved = y.sys.snap.saved) (hi : RingInv s' (cut es)) (hpc : pc.Ok L s'.minSeg)
    (hremoved : s'.RemovedBelow L (cut es)) :
    TruncateInv L (as ++ [b]) ⟨{ y.sys with snap := s' }, pc⟩ es where
  calls := by rw [acts_append, hacts, append_nil]; exact hy.calls
  inv := { hy.inv with
    ring := hi
    pc := Quiet.pcInv ⟨hmax, hactive, fun m _ => congrFun hmem m, fun _ => hmem ▸ id⟩ hy.inv.ring
      hy.inv.pc
    caches := fun p => (congrArg (CacheOk cfg _ · _) hsaved).mpr (hy.inv.caches p)
    adding := fun h0 => hy.inv.adding (hadding ▸ h0) }
  adding h0 := hy.adding (hadding ▸ h0)
  pc := hpc
  removed := hremoved

/-- The next step of the truncating process can always be taken. -/
theorem TruncateInv.next (hpc : y.pc ≠ .idle) (gone : Nat → Bool) (renamed unlinked : Bool) :
    ∃ y', truncateStep maxFiles y (.next gone renamed unlinked) = some y' ∧
      TruncateInv L (as ++ [.next gone renamed unlinked]) y' es := by
  have hi := hy.inv.ring
  have hok := hy.pc
  cases hpc' : y.pc with
  | idle => exact absurd hpc' hpc
  | loop lsn =>
    rw [hpc'] at hok
    simp only [truncateStep, hpc', logIndexTruncate]
    split
    · exact ⟨_, rfl, hy.goto rfl rfl rfl rfl rfl rfl hi trivial hy.removed⟩
    rename_i hmeta
    split
    · exact ⟨_, rfl, hy.goto rfl rfl rfl rfl rfl rfl hi trivial hy.removed⟩
    rename_i hseg
    have hpos : 0 < y.sys.snap.saved := by
      by_contra h0
      exact hmeta (.inr (.inl (hi.metaOk.zero (Nat.eq_zero_of_not_pos h0)).1))
    have hlt := (hi.minSeg_le hpos).lt_of_ne (Ne.symm hseg)
    obtain ⟨minSeg, hupdate, hsegno, hi'⟩ := hi.updateMinSegment hpos hlt
    have hlast := hi.minSeg_maxTid hpos hlt
    rw [← hsegno] at hlast
    have hmax := hi.metaOk.min_max_lsn hpos
    rw [hlast] at hmax
    have hle : y.sys.snap.logMeta.minSegmentInfo.maxLsn < L :=
      (not_le.mp fun hle => hmeta (.inr (.inr (.inr hle)))).trans_le hok
    rw [hupdate]
    exact ⟨_, rfl, hy.goto rfl rfl rfl rfl rfl rfl hi'
      ⟨hok, (Nat.lt_succ_self _).trans_eq hsegno.symm, hlast.le⟩ fun _ => hmax ▸ hle⟩
  | bloom lsn minSegmentNo maxSegmentNo tid =>
    rw [hpc'] at hok
    simp only [truncateStep, hpc']
    exact ⟨_, rfl, hy.goto rfl rfl rfl rfl rfl rfl (hi.truncateBloom gone hok.2.2) ⟨hok.1, hok.2.1⟩
      hy.removed⟩
  | file lsn minSegmentNo maxSegmentNo =>
    rw [hpc'] at hok
    obtain ⟨files, alloc, heq, hi'⟩ :=
      hi.removeSegmentFile maxFiles maxSegmentNo renamed unlinked hok.2
    simp only [truncateStep, hpc', heq]
    exact ⟨_, rfl, hy.goto rfl rfl rfl rfl rfl rfl hi' hok.1 hy.removed⟩

end

def truncations (as : List TruncateAction) : List Nat :=
  as.filterMap fun
    | .truncate lsn => some lsn
    | _ => none

theorem truncateInv_of_exec (hok : CallsOk (addCalls (acts as)))
    (hL : ∀ lsn ∈ truncations as, lsn ≤ L)
    (hs : exec (truncateStep maxFiles) ⟨initSys cfg, .idle⟩ as = some y) :
    ∃ es, TruncateInv L as y es := by
  refine exec_invariant (fun as y => CallsOk (addCalls (acts as)) →
    (∀ lsn ∈ truncations as, lsn ≤ L) → ∃ es, TruncateInv L as y es) ?_ ?_ hs hok hL
  · exact fun _ _ =>
      ⟨[], (freshRun_init cfg).toAddedRun, trivial, fun h0 => absurd h0 (lt_irrefl 0)⟩
  intro as y a y' ih hst hok hL
  have hok0 : CallsOk (addCalls (acts as)) := by
    rw [acts_append, addCalls_append] at hok
    exact hok.sublist (sublist_append_left ..)
  have hL0 : ∀ lsn ∈ truncations as, lsn ≤ L := fun lsn hin => hL lsn (by
    rw [truncations, filterMap_append]
    exact mem_append_left _ hin)
  obtain ⟨es, hy⟩ := ih hok0 hL0
  cases a with
  | act a =>
    obtain ⟨x, hx, rfl⟩ := Option.map_eq_some_iff.mp hst
    rw [acts_append] at hok
    exact hy.act hok hx
  | truncate lsn =>
    obtain ⟨-, rfl⟩ := Option.ite_some_none_eq_some.mp hst
    refine ⟨es, hy.goto rfl rfl rfl rfl rfl rfl hy.inv.ring ?_ hy.removed⟩
    split
    · trivial
    · exact hL lsn (by simp [truncations])
  | next gone renamed unlinked =>
    have hpc : y.pc ≠ .idle := by
      intro hidle
      simp only [truncateStep, hidle] at hst
      cases hst
    obtain ⟨y'', hy'', hinv⟩ := hy.next hpc gone renamed unlinked
    cases hy''.symm.trans hst
    exact ⟨es, hinv⟩

section

variable (hok : CallsOk (addCalls (acts as))) (hL : ∀ lsn ∈ truncations as, lsn ≤ L)
  (hs : exec (truncateStep maxFiles) ⟨initSys cfg, .idle⟩ as = some y)
include hok hL hs

/-- In every run with truncations up to `L` the ring is safe, every process can
read every saved table with an LSN from `L` on, and a truncation goes on to its
end. -/
theorem truncate_reads : RingSafe y.sys (cut (addedEntries (acts as) y.sys)) ∧
    (∀ t e, 0 < t → t ≤ y.sys.snap.saved → e ∈ tableEntries (cut (addedEntries (acts as) y.sys)) t →
      L ≤ e.lsn → ∀ proc shared exclusive, ∃ d s' c',
        readTable y.sys.snap (y.sys.caches proc) t shared exclusive = some (d, s', c') ∧
          ReadsAs d t (tableEntries (cut (addedEntries (acts as) y.sys)) t)) ∧
    (y.pc ≠ .idle → ∀ gone renamed unlinked,
      ∃ y', truncateStep maxFiles y (.next gone renamed unlinked) = some y') := by
  obtain ⟨es, hy⟩ := truncateInv_of_exec hok hL hs
  have hi := hy.inv.ring
  rw [hy.addedEntries]
  refine ⟨hy.inv.ringSafe, fun t e h1 ht he hle proc shared exclusive => ?_,
    fun hpc gone renamed unlinked => (hy.next hpc gone renamed unlinked).imp fun _ h => h.1⟩
  have hmin : y.sys.snap.minTid ≤ t := by
    by_contra hlt
    rw [hi.minTid_eq (h1.trans_le ht)] at hlt
    have hseg : 0 < y.sys.snap.minSeg := by
      by_contra h0
      rw [Nat.eq_zero_of_not_pos h0] at hlt
      omega
    have hmono := entriesMaxLsn_mono hi.sorted hi.nonempty h1 (Nat.le_of_lt_succ (not_le.mp hlt))
      ((hi.minSeg_lt hseg).le.trans hi.saved_le)
    exact absurd ((le_entriesMaxLsn he).trans hmono) (not_le.mpr ((hy.removed hseg).trans_le hle))
  obtain ⟨d, s', c', hread, hrep, -⟩ := hi.read (hy.inv.caches proc) h1 hmin ht shared exclusive
  exact ⟨d, s', c', hread, hrep.readsAs⟩

/-- A start on what a crash in any state of such a run leaves succeeds, and has
what was saved and not removed. -/
theorem truncate_crash (hcrash : CrashedIn y.sys.snap s) (checkpointLsn : Nat) :
    ∃ x start, snapshotInit s checkpointLsn = some (x, start) ∧
      x.snap.logMeta = y.sys.snap.logMeta ∧
      RingSafe x ((cut (addedEntries (acts as) y.sys)).take y.sys.snap.saved) := by
  obtain ⟨es, hy⟩ := truncateInv_of_exec hok hL hs
  obtain ⟨hi, hmeta⟩ := hy.inv.ring.crashedIn hcrash
  obtain ⟨x, start, hinit, hr⟩ := hi.snapshotInit checkpointLsn
  have hsafe := hr.inv.ringSafe
  rw [Snapshot.saved, hmeta] at hsafe
  rw [hy.addedEntries]
  exact ⟨x, start, hinit, hr.logMeta.trans hmeta, hsafe⟩

end

/-! ## A segment that is removed -/

/-- Entries with the LSN prefixes below `n`, each in a table of its own that is
saved when the next one is open. -/
def savedTables (n : Nat) : List Action :=
  (range n).flatMap fun k => [.addLsn (pageEntry 7 (k * 2 ^ 32 + 1)), .nextFreeSeg,
    .waitActive false, .setActive, .nextFreeSeg, .flushTable ((k + 2) % 3) false true 0]

/-- 66 tables are saved, the last two in segment 1. A truncation has made that
one the oldest and dropped the bloom pages in front of it. -/
def halfTruncated : List TruncateAction :=
  (savedTables 67).map .act ++ [.truncate (64 * 2 ^ 32), .next (fun _ => true) false true,
    .next (fun _ => true) false true]

theorem savedTables_callsOk : CallsOk (addCalls (savedTables 67)) :=
  ⟨by decide +kernel, by decide +kernel⟩

theorem acts_halfTruncated : acts halfTruncated = savedTables 67 := by
  rw [halfTruncated, acts_append, acts, filterMap_map]
  exact (append_nil _).trans filterMap_some

theorem exec_halfTruncated : ∃ y : TruncateSys smallConfig,
    exec (truncateStep 2) ⟨initSys smallConfig, .idle⟩ halfTruncated = some y ∧
      (y.pc = .file (64 * 2 ^ 32) 0 1 ∧ y.sys.snap.minSeg = 1 ∧ y.sys.snap.saved = 66) ∧
      y.sys.inserter.pending.length = 0 :=
  exec_eval (E := fun y : TruncateSys smallConfig => (y.pc = .file (64 * 2 ^ 32) 0 1 ∧
    y.sys.snap.minSeg = 1 ∧ y.sys.snap.saved = 66) ∧ y.sys.inserter.pending.length = 0)
    (by decide +kernel) fun _ _ h => h

theorem removeSegmentFile_unlink (s : Snapshot cfg) (maxSegmentNo : Nat) :
    removeSegmentFile s maxFiles g maxSegmentNo false true =
      { s with files := update s.files g none } := by
  unfold removeSegmentFile
  split
  · rename_i hfile
    rw [← hfile, update_eq_self]
  · simp only [Bool.false_eq_true, and_false, if_false, if_true]

/-- The truncation goes on and removes the file of segment 0. -/
theorem truncate_reads_segment : ∃ y : TruncateSys smallConfig,
    exec (truncateStep 2) ⟨initSys smallConfig, .idle⟩
        (halfTruncated ++ [.next (fun _ => true) false true]) = some y ∧
      y.sys.snap.files 0 = none ∧ y.sys.snap.minSeg = 1 ∧
      (∃ d s' c', readTable y.sys.snap (y.sys.caches 0) 65 false false = some (d, s', c')) ∧
      ∃ y', truncateStep 2 y (.next (fun _ => true) false true) = some y' := by
  obtain ⟨y, hy, ⟨hpc, hmin, hsaved⟩, hidle⟩ := exec_halfTruncated
  have hs : exec (truncateStep 2) ⟨initSys smallConfig, .idle⟩
      (halfTruncated ++ [.next (fun _ => true) false true]) = some ⟨{ y.sys with
        snap := { y.sys.snap with files := update y.sys.snap.files 0 none } },
          .loop (64 * 2 ^ 32)⟩ :=
    exec_snoc.mpr ⟨y, hy, by simp only [truncateStep, hpc, removeSegmentFile_unlink]⟩
  have hacts : acts (halfTruncated ++ [.next (fun _ => true) false true]) = acts halfTruncated :=
    (acts_append ..).trans (append_nil _)
  obtain ⟨-, hread, hnext⟩ := truncate_reads (L := 64 * 2 ^ 32)
    (by rw [hacts, acts_halfTruncated]; exact savedTables_callsOk) (by decide +kernel) hs
  have he : pageEntry 7 (64 * 2 ^ 32 + 1) ∈
      tableEntries (cut (addedEntries (acts halfTruncated) y.sys)) 65 := by
    rw [addedEntries, acts_halfTruncated, hidle, Nat.sub_zero, take_length]
    decide +kernel
  obtain ⟨d, s', c', hread, -⟩ := hread 65 _ (by decide) (by rw [hsaved]; decide)
    (by rw [hacts]; exact he) (by decide) 0 false false
  exact ⟨_, hs, rfl, hmin, ⟨d, s', c', hread⟩, hnext nofun _ _ _⟩

/-- A crash before the file of segment 0 is removed. -/
theorem truncate_crash_segment :
    ∃ (y : TruncateSys smallConfig) (x : Sys smallConfig) (start : Nat),
    exec (truncateStep 2) ⟨initSys smallConfig, .idle⟩ halfTruncated = some y ∧
      y.pc = .file (64 * 2 ^ 32) 0 1 ∧
      snapshotInit y.sys.snap 1 = some (x, start) ∧ x.snap.minSeg = 1 ∧ x.snap.saved = 66 := by
  obtain ⟨y, hy, ⟨hpc, hmin, hsaved⟩, -⟩ := exec_halfTruncated
  obtain ⟨x, start, hinit, hmeta, -⟩ := truncate_crash (L := 64 * 2 ^ 32)
    (by rw [acts_halfTruncated]; exact savedTables_callsOk) (by decide +kernel) hy (.inl rfl) 1
  exact ⟨y, x, start, hy, hpc, hinit, by rw [Snapshot.minSeg, hmeta]; exact hmin,
    by rw [Snapshot.saved, hmeta]; exact hsaved⟩

end PolarDB.LogIndex
