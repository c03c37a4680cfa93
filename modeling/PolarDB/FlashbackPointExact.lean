import PolarDB.FlashbackPointRun

/-!
# Lookups of flashback points are exact

The invariant of the runs (`Inv`) says what files, buffer and control
file hold of the points made so far, how far the checkpointer is with the
current one (`PcOk`), and what a lookup on its way has already ruled out
(`SearchOk`). Every step that meets `StepOk` keeps it, so that every
lookup of such a run is right (`lookups_exact`).

Two runs show what the condition is for (`lookup_wrong`): a restart at a
segment boundary, and a point that begins a new segment while a lookup
waits for the buffer lock.
-/

namespace PolarDB.FlashbackPoint

open Function List Option

def State.ctlNo (s : State) : Nat := s.ctlFile.elim 0 CtlFile.nextFbpointRecNo

def State.ctlSeg (s : State) : Nat := s.ctlFile.elim 0 fun c => c.snapshotEndPos.segNo

/-! ## The invariant -/

def State.AtRest (s : State) : Prop :=
  s.recs.length = s.nextFbpointRecNo ∧ s.ctlNo = s.nextFbpointRecNo

def State.EndsIn (s : State) (endPos : FbpointPos) : Prop :=
  s.ctlSeg ≤ endPos.segNo ∧ ∀ r ∈ s.recs, r.snapshotPos.segNo ≤ endPos.segNo

def PcOk (s : State) : Pc → Prop
  | .idle => s.AtRest
  | .backup r _ pos | .backedUp r pos =>
    s.AtRest ∧ (∀ r' ∈ s.recs, r'.time ≤ r.time) ∧ s.ctlSeg ≤ pos.segNo ∧
      r.snapshotPos.segNo ≤ pos.segNo
  | .inserted _ endPos =>
    s.recs.length = s.nextFbpointRecNo + 1 ∧ s.ctlNo = s.nextFbpointRecNo ∧ s.loaded = true ∧
      s.EndsIn endPos
  | .written _ endPos =>
    s.recs.length = s.nextFbpointRecNo + 1 ∧ s.ctlNo = s.nextFbpointRecNo ∧ s.loaded = true ∧
      s.EndsIn endPos ∧ FilesHold s.files s.recs (s.nextFbpointRecNo + 1) ∧
      s.files (s.nextFbpointRecNo / recPerSeg) ≠ none
  | .flushed _ endPos =>
    s.recs.length = s.nextFbpointRecNo ∧ s.ctlNo + 1 = s.nextFbpointRecNo ∧ s.loaded = true ∧
      s.EndsIn endPos
  | .kept _ endPos keepTime res =>
    s.recs.length = s.nextFbpointRecNo ∧ s.ctlNo + 1 = s.nextFbpointRecNo ∧ s.EndsIn endPos ∧
      ∃ r n, res = some (r, n / recPerSeg) ∧ s.recs[n]? = some r ∧
        IsKept s.retained keepTime (some r)
  | .saved r segNo =>
    s.AtRest ∧ segNo * recPerSeg < s.nextFbpointRecNo ∧ r.snapshotPos.segNo ≤ s.ctlSeg
  | .truncating segNo =>
    s.AtRest ∧ (segNo + 1) * recPerSeg < s.nextFbpointRecNo ∧ segNo + 1 ≤ s.ctlSeg

/-- A lookup that read `maxRecNo` began with the points from segment `floor`
on; the file below has been missing since. -/
structure Began (s : State) (q : Search) (maxRecNo floor : Nat) : Prop where
  max_lt : maxRecNo < s.nextFbpointRecNo
  before : q.before = points s.recs floor (maxRecNo + 1)
  floor_le : floor ≤ s.floor
  floor_mul_le : floor * recPerSeg ≤ maxRecNo
  miss : ∀ j, j + 1 = floor → s.files j = none

/-- A lookup on its way: the segments it has passed begin beyond its target. -/
def SearchOk (s : State) (q : Search) : Prop :=
  match q.phase with
  | .buffer maxRecNo => ∃ floor, Began s q maxRecNo floor
  | .file maxRecNo segNo =>
    (segNo + 1) * recPerSeg ≤ maxRecNo ∧
      (∀ r, s.recs[(segNo + 1) * recPerSeg]? = some r → q.targetTime < r.time) ∧
      ∃ floor, floor ≤ segNo + 1 ∧ Began s q maxRecNo floor
  | .done res after => IsRight q.before q.targetTime res ∨ IsRight after q.targetTime res

structure Inv (s : State) : Prop where
  failed : s.failed = false
  sorted : Sorted s.recs
  next_le : s.nextFbpointRecNo ≤ s.recs.length
  files : FilesHold s.files s.recs s.nextFbpointRecNo
  exist : ∀ j, s.floor ≤ j → j * recPerSeg < s.nextFbpointRecNo → s.files j ≠ none
  miss : ∀ j, j + 1 = s.floor → s.files j = none
  buf : s.loaded = true →
    Holds s.buf s.recs ((s.recs.length - 1) / recPerSeg) (s.recs.length - 1)
  unloaded : s.loaded = false → s.recs.length % recPerSeg = 0
  ctl_le : s.ctlNo ≤ s.nextFbpointRecNo
  floor_lt : s.floor = 0 ∨ s.floor * recPerSeg < s.ctlNo
  endPos : s.snapshotEndPos.segNo = s.ctlSeg
  floor_le : s.floor ≤ s.ctlSeg
  snapshots : ∀ n r, n < s.ctlNo → s.recs[n]? = some r → r.snapshotPos.segNo ≤ s.ctlSeg
  pc : PcOk s s.pc
  searches : ∀ q ∈ s.searches, SearchOk s q

variable {pc : Pc} {count floor maxRecNo segNo : Nat} {files : Files} {recs : List FbpointRec}
  {endPos : FbpointPos}

theorem Inv.at_pc {s : State} (h : Inv s) (hpc : s.pc = pc) : PcOk s pc :=
  hpc ▸ h.pc

theorem Inv.init : Inv State.init where
  failed := rfl
  sorted := .nil
  next_le := Nat.le_refl 0
  files := nofun
  exist := nofun
  miss := fun _ _ => rfl
  buf := nofun
  unloaded := fun _ => rfl
  ctl_le := Nat.le_refl 0
  floor_lt := .inl rfl
  endPos := rfl
  floor_le := Nat.le_refl 0
  snapshots := nofun
  pc := ⟨rfl, rfl⟩
  searches := forall_mem_nil _

/-! ## Lookups -/

structure Extends (s s' : State) : Prop where
  recs : ∃ more, s'.recs = s.recs ++ more
  next_le : s.nextFbpointRecNo ≤ s'.nextFbpointRecNo
  floor_le : s.floor ≤ s'.floor
  miss : ∀ j, j < s.floor → s.files j = none → s'.files j = none

variable {s s' : State} {q : Search} {buf : SegBuf} {j n : Nat} {r : FbpointRec}

theorem Began.extends (h : Began s q maxRecNo floor) (hlen : s.nextFbpointRecNo ≤ s.recs.length)
    (he : Extends s s') : Began s' q maxRecNo floor where
  max_lt := Nat.lt_of_lt_of_le h.max_lt he.next_le
  before := by
    obtain ⟨more, hmore⟩ := he.recs
    rw [hmore, points_append (Nat.le_trans h.max_lt hlen)]
    exact h.before
  floor_le := Nat.le_trans h.floor_le he.floor_le
  floor_mul_le := h.floor_mul_le
  miss := fun j hj => he.miss j (by have := h.floor_le; omega) (h.miss j hj)

theorem SearchOk.extends (h : SearchOk s q)
    (hlen : s.nextFbpointRecNo ≤ s.recs.length) (he : Extends s s') : SearchOk s' q := by
  unfold SearchOk at h ⊢
  split at h
  · obtain ⟨floor, hb⟩ := h
    exact ⟨floor, hb.extends hlen he⟩
  · obtain ⟨hseg, hfirst, floor, hfloor, hb⟩ := h
    refine ⟨hseg, fun r hr => hfirst r ?_, floor, hfloor, hb.extends hlen he⟩
    obtain ⟨more, hmore⟩ := he.recs
    have := hb.max_lt
    rwa [hmore, getElem?_append_left (by omega)] at hr
  · exact h

theorem Extends.refl (s : State) : Extends s s :=
  ⟨⟨[], (append_nil _).symm⟩, le_rfl, le_rfl, fun _ _ hnone => hnone⟩

theorem Inv.searches_extends (h : Inv s) (he : Extends s s') : ∀ q ∈ s.searches, SearchOk s' q :=
  fun q hq => (h.searches q hq).extends h.next_le he

theorem Inv.floor_mul_le (h : Inv s) : s.floor * recPerSeg ≤ s.ctlNo := by
  rcases h.floor_lt with hf | hf
  · simp [hf]
  · exact hf.le

theorem Inv.floor_mul_lt (h : Inv s) (hpos : 0 < s.nextFbpointRecNo) :
    s.floor * recPerSeg < s.nextFbpointRecNo := by
  have := h.ctl_le
  rcases h.floor_lt with hf | hf
  · rwa [hf]
  · omega

theorem SearchOk.turn (hinv : Inv s) (hb : Holds buf s.recs segNo maxRecNo)
    (hbegan : Began s q maxRecNo floor) (hfloor : floor ≤ segNo)
    (hseg : segNo * recPerSeg ≤ maxRecNo)
    (habove : ∀ k r, (segNo + 1) * recPerSeg ≤ k → k ≤ maxRecNo → s.recs[k]? = some r →
      q.targetTime < r.time) :
    SearchOk s (q.turn buf maxRecNo segNo s.retained) := by
  have hmax : maxRecNo < s.recs.length := hbegan.max_lt.trans_le hinv.next_le
  unfold SearchOk Search.turn
  cases h : searchSeg buf q.targetTime segNo maxRecNo with
  | some r =>
    refine .inl ?_
    rw [hbegan.before]
    exact isRight_of_searchSeg hb hmax hseg hinv.sorted h hfloor habove
  | none =>
    have hfirst := searchSeg_none hb hmax hseg h
    by_cases hzero : segNo = 0
    · simp only [hzero]
      refine .inl ?_
      rw [hbegan.before]
      exact isRight_none hinv.sorted (Nat.zero_le _) (by omega) (hzero ▸ hfirst)
    · have hsucc : segNo - 1 + 1 = segNo := by omega
      simp only [if_neg hzero, hsucc]
      exact ⟨hseg, hfirst, floor, hfloor, { hbegan with }⟩

theorem SearchOk.next {p : Search × Bool} (hinv : Inv s)
    (hq : SearchOk s q) (hok : q.phase.BufOk s) (h : q.next s = some p) :
    SearchOk s p.1 ∧ p.2 = false := by
  unfold Search.next at h
  unfold SearchOk at hq
  split at h
  · rename_i maxRecNo hph
    simp only [hph] at hq hok
    obtain ⟨floor, hb⟩ := hq
    cases h
    have hmax := hb.max_lt.trans_le hinv.next_le
    have hbuf : Holds s.buf s.recs (maxRecNo / recPerSeg) maxRecNo := fun n r hn hseg hr =>
      hinv.buf hok.1 n r (by omega) (hseg.trans hok.2) hr
    refine ⟨.turn hinv hbuf hb ((Nat.le_div_iff_mul_le recPerSeg_pos).mpr hb.floor_mul_le)
      (Nat.div_mul_le_self _ _) ?_, rfl⟩
    have := Nat.lt_mul_of_div_lt (Nat.lt_add_one (maxRecNo / recPerSeg)) recPerSeg_pos
    omega
  · rename_i maxRecNo segNo hph
    simp only [hph] at hq
    obtain ⟨hseg, hfirst, floor, hfloor, hb⟩ := hq
    have hmax := hb.max_lt.trans_le hinv.next_le
    have hseg' : segNo * recPerSeg ≤ maxRecNo :=
      (Nat.mul_le_mul_right _ (Nat.le_succ segNo)).trans hseg
    cases hfile : s.files segNo with
    | none =>
      simp only [readFbpointRecords, hfile] at h
      cases h
      have hgone : segNo + 1 ≤ s.floor := by
        by_contra hlt
        exact hinv.exist segNo (by omega) (hseg'.trans_lt hb.max_lt) hfile
      exact ⟨.inr (isRight_none hinv.sorted hgone (by omega) hfirst), rfl⟩
    | some buf =>
      rw [hinv.files.read hfile hb.max_lt hinv.next_le hseg'] at h
      cases h
      have hfloor' : floor ≤ segNo := by
        by_contra hlt
        rw [hb.miss segNo (by omega)] at hfile
        cases hfile
      exact ⟨.turn hinv (hinv.files.holds hfile hb.max_lt) hb hfloor' hseg'
        fun k r hk _ hr => hinv.sorted.beyond (by omega) hfirst k r hk hr, rfl⟩
  · cases h

/-- The invariant says of a state with other lookups what it says of this
one, when the lookups are on their way. -/
theorem Inv.setSearches (h : Inv s) {qs : List Search}
    (hqs : ∀ q ∈ qs, SearchOk s q) : Inv { s with searches := qs } :=
  { h with
    searches := fun q hq => (hqs q hq).extends h.next_le { Extends.refl s with } }

theorem Inv.search (h : Inv s) (targetTime : Int) :
    SearchOk s { targetTime := targetTime, before := s.retained,
                 phase := if s.nextFbpointRecNo = 0 then .done none s.retained
                   else .buffer (s.nextFbpointRecNo - 1) } := by
  by_cases hzero : s.nextFbpointRecNo = 0
  · simp only [hzero]
    refine .inl fun r hr => ?_
    obtain ⟨n, _, hn, _⟩ := mem_points.mp hr
    omega
  · simp only [if_neg hzero]
    have hsucc : s.nextFbpointRecNo - 1 + 1 = s.nextFbpointRecNo := by omega
    refine ⟨s.floor, by omega, by rw [hsucc]; rfl, le_rfl, ?_, h.miss⟩
    have := h.floor_mul_lt (Nat.pos_of_ne_zero hzero)
    omega

/-! ## The checkpointer -/

theorem Inv.setPc (h : Inv s) (hpc : PcOk s pc) : Inv { s with pc := pc } :=
  { h with
    searches := h.searches_extends { Extends.refl s with }
    pc := hpc }

theorem fbpointFileInit_of_ne_none (h : files j ≠ none) :
    fbpointFileInit files segNo j = files j := by
  unfold fbpointFileInit
  by_cases hj : j = segNo
  · obtain ⟨buf, hbuf⟩ := ne_none_iff_exists'.mp h
    rw [← hj, update_self, hbuf, getD_some]
  · rw [update_of_ne hj]

theorem fbpointFileInit_of_lt (h : j < segNo) : fbpointFileInit files segNo j = files j :=
  update_of_ne h.ne _ _

/-- Snapshot data goes to segments that are kept or not yet reached. -/
theorem FilesHold.fileInit (hf : FilesHold files recs count) (hfloor : floor ≤ segNo)
    (hexist : ∀ j, floor ≤ j → j * recPerSeg < count → files j ≠ none) :
    FilesHold (fbpointFileInit files segNo) recs count := by
  intro j buf hbuf n r hn hnj hr
  have hsame : fbpointFileInit files segNo j = files j := by
    rcases lt_or_ge j segNo with hlt | hge
    · exact fbpointFileInit_of_lt hlt
    · exact fbpointFileInit_of_ne_none
        (hexist j (hfloor.trans hge) ((hnj ▸ Nat.div_mul_le_self _ _).trans_lt hn))
  exact hf j buf (hsame ▸ hbuf) n r hn hnj hr

variable {totalSize : Nat} {pos : FbpointPos} {keepTime : Int}

theorem Inv.backup (h : Inv s) (hpc : s.pc = .backup r totalSize pos)
    (hpc' : pc = .backup r (totalSize - min totalSize (pos.offset - recEndPos))
        ⟨pos.segNo + 1, segSize⟩ ∨
      pc = .backedUp r ⟨pos.segNo, pos.offset - min totalSize (pos.offset - recEndPos)⟩) :
    Inv { s with files := fbpointFileInit s.files pos.segNo, pc := pc } := by
  obtain ⟨hrest, htime, hseg, hsnap⟩ := h.at_pc hpc
  have hfloor : s.floor ≤ pos.segNo := h.floor_le.trans hseg
  exact { h with
    files := h.files.fileInit hfloor h.exist
    exist := fun j hj hn =>
      (fbpointFileInit_of_ne_none (h.exist j hj hn)).trans_ne (h.exist j hj hn)
    miss := fun j hj => (fbpointFileInit_of_lt (by change j + 1 = s.floor at hj; omega)).trans
      (h.miss j hj)
    searches := h.searches_extends { Extends.refl s with
      miss := fun j hj hnone => (fbpointFileInit_of_lt (by omega)).trans hnone }
    pc := by
      rcases hpc' with rfl | rfl
      · exact ⟨hrest, htime, Nat.le_succ_of_le hseg, Nat.le_succ_of_le hsnap⟩
      · exact ⟨hrest, htime, hseg, hsnap⟩ }

/-- Records beyond `count` do not matter to what the files hold. -/
theorem FilesHold.append
    (hf : FilesHold files recs count) (hlen : count ≤ recs.length) (more : List FbpointRec) :
    FilesHold files (recs ++ more) count := by
  intro j buf hbuf n r hn hnj hr
  rw [getElem?_append_left (by omega)] at hr
  exact hf j buf hbuf n r hn hnj hr

/-- The buffer after `insert_fbpoint_rec`: a new segment begins empty, an
old one goes on. -/
theorem Holds.insert (h : Inv s) {r : FbpointRec} (hlen : s.recs.length = s.nextFbpointRecNo) :
    Holds (insertFbpointRec s.buf s.nextFbpointRecNo r) (s.recs ++ [r])
      (s.nextFbpointRecNo / recPerSeg) s.nextFbpointRecNo := by
  intro n r' hn hseg hr'
  rcases Nat.eq_or_lt_of_le hn with rfl | hlt
  · rw [← hlen, getElem?_concat_length] at hr'
    cases hr'
    exact recAt_insertFbpointRec_self _ _ _
  · rw [getElem?_append_left (by omega)] at hr'
    have hne : s.nextFbpointRecNo % recPerSeg ≠ 0 := by
      rw [recPerSeg_eq] at hseg ⊢
      omega
    have hloaded : s.loaded = true := by
      by_contra hl
      exact hne (hlen ▸ h.unloaded (Bool.eq_false_iff.mpr hl))
    have hseg' : n / recPerSeg = (s.recs.length - 1) / recPerSeg := by
      rw [recPerSeg_eq] at hseg hne ⊢
      omega
    rw [recAt_insertFbpointRec hne hseg hlt.ne]
    exact h.buf hloaded n r' (by omega) hseg' hr'

theorem Inv.insert (h : Inv s) (hpc : s.pc = .backedUp r endPos) : Inv { s with
      buf := insertFbpointRec s.buf s.nextFbpointRecNo r
      recs := s.recs ++ [r]
      loaded := true
      pc := .inserted r endPos } := by
  obtain ⟨⟨hlen, hctl⟩, htime, hseg, hsnap⟩ := h.at_pc hpc
  have hlen' : (s.recs ++ [r]).length = s.nextFbpointRecNo + 1 := by
    rw [length_append, hlen, length_singleton]
  exact { h with
    sorted := pairwise_snoc h.sorted htime
    next_le := hlen' ▸ Nat.le_succ _
    files := h.files.append h.next_le _
    buf := by
      intro _
      simp only [hlen']
      exact Holds.insert h hlen
    unloaded := nofun
    snapshots := by
      intro n r' hn hr'
      change n < s.ctlNo at hn
      rw [getElem?_append_left (by omega)] at hr'
      exact h.snapshots n r' hn hr'
    pc := by
      refine ⟨hlen', hctl, rfl, hseg, forall_mem_snoc (fun r' hr' => ?_) hsnap⟩
      obtain ⟨n, hn⟩ := mem_iff_getElem?.mp hr'
      have hlt := lt_of_getElem? hn
      exact (h.snapshots n r' (by omega) hn).trans hseg
    searches := h.searches_extends { Extends.refl s with recs := ⟨[r], rfl⟩ } }

/-- The file after `write_fbpoint_rec` holds the new record as well. -/
theorem FilesHold.write (hf : FilesHold files recs n) (hb : Holds buf recs (n / recPerSeg) n)
    (hexist : n / recPerSeg * recPerSeg < n → files (n / recPerSeg) ≠ none) :
    FilesHold (writeFbpointRecFiles buf files n) recs (n + 1) := by
  intro j fbuf hfbuf k r hk hkj hr
  unfold writeFbpointRecFiles writePage at hfbuf
  by_cases hj : j = n / recPerSeg
  · subst hj
    rw [update_self] at hfbuf
    cases hfbuf
    unfold recAt
    by_cases hp : pageNo k = pageNo n
    · rw [hp, update_self]
      refine ⟨?_, fillHeader_crcOk _⟩
      have := hb k r (Nat.le_of_lt_succ hk) hkj hr
      rwa [recAt, hp] at this
    · rw [update_of_ne hp]
      have hkn : k < n := (Nat.le_of_lt_succ hk).lt_of_ne fun hkn => hp (hkn ▸ rfl)
      cases hfile : files (n / recPerSeg) with
      | some old => exact hf _ old hfile k r hkn hkj hr
      | none =>
        refine absurd hfile (hexist (Nat.lt_of_le_of_lt ?_ hkn))
        rw [← hkj]
        exact Nat.div_mul_le_self _ _
  · rw [update_of_ne hj] at hfbuf
    refine hf j fbuf hfbuf k r ?_ hkj hr
    refine (Nat.le_of_lt_succ hk).lt_of_ne fun hkn => hj ?_
    rw [← hkj, hkn]

theorem writeFbpointRecFiles_self (buf : SegBuf) (files : Files) (n : Nat) :
    writeFbpointRecFiles buf files n (n / recPerSeg) ≠ none := by
  unfold writeFbpointRecFiles writePage
  rw [update_self]
  exact some_ne_none _

theorem writeFbpointRecFiles_of_ne
    (h : j ≠ n / recPerSeg) : writeFbpointRecFiles buf files n j = files j :=
  update_of_ne h _ _

theorem Inv.floor_le_div (h : Inv s) : s.floor ≤ s.nextFbpointRecNo / recPerSeg :=
  (Nat.le_div_iff_mul_le recPerSeg_pos).mpr (h.floor_mul_le.trans h.ctl_le)

theorem Inv.write (h : Inv s) (hpc : s.pc = .inserted r endPos) : Inv { s with
      buf := writeFbpointRecBuf s.buf s.nextFbpointRecNo
      files := writeFbpointRecFiles s.buf s.files s.nextFbpointRecNo
      pc := .written r endPos } := by
  obtain ⟨hlen, hctl, hloaded, hends⟩ := h.at_pc hpc
  have hbuf := h.buf hloaded
  simp only [hlen] at hbuf
  have hfiles := h.files.write hbuf fun hlt => h.exist _ h.floor_le_div hlt
  have hexist : ∀ j, s.floor ≤ j → j * recPerSeg < s.nextFbpointRecNo →
      writeFbpointRecFiles s.buf s.files s.nextFbpointRecNo j ≠ none := by
    intro j hj hn
    by_cases hjn : j = s.nextFbpointRecNo / recPerSeg
    · rw [hjn]
      exact writeFbpointRecFiles_self _ _ _
    · rw [writeFbpointRecFiles_of_ne hjn]
      exact h.exist j hj hn
  have hbelow : ∀ j, j < s.floor →
      writeFbpointRecFiles s.buf s.files s.nextFbpointRecNo j = s.files j := fun j hj =>
    writeFbpointRecFiles_of_ne (hj.trans_le h.floor_le_div).ne
  exact { h with
    files := fun j buf hj n r' hn => hfiles j buf hj n r' (Nat.lt_succ_of_lt hn)
    exist := hexist
    miss := fun j hj => (hbelow j (Nat.lt_of_succ_le hj.le)).trans (h.miss j hj)
    buf := by
      intro hl n r' hn hseg hr'
      rw [recAt_writeFbpointRecBuf]
      exact h.buf hl n r' hn hseg hr'
    pc := ⟨hlen, hctl, hloaded, hends, hfiles, writeFbpointRecFiles_self _ _ _⟩
    searches := h.searches_extends { Extends.refl s with
      miss := fun j hj hnone => (hbelow j hj).trans hnone } }

theorem Inv.raise (h : Inv s) (hpc : s.pc = .written r endPos) :
    Inv { s with nextFbpointRecNo := s.nextFbpointRecNo + 1, pc := .flushed r endPos } := by
  obtain ⟨hlen, hctl, hloaded, hends, hfiles, hfile⟩ := h.at_pc hpc
  exact { h with
    next_le := hlen.ge
    files := hfiles
    exist := by
      intro j hj hn
      change j * recPerSeg < s.nextFbpointRecNo + 1 at hn
      rcases lt_or_ge (j * recPerSeg) s.nextFbpointRecNo with hlt | hge
      · exact h.exist j hj hlt
      · have hjn : s.nextFbpointRecNo / recPerSeg = j := by
          rw [show s.nextFbpointRecNo = j * recPerSeg by omega]
          exact Nat.mul_div_cancel _ recPerSeg_pos
        rwa [← hjn]
    ctl_le := Nat.le_succ_of_le h.ctl_le
    pc := ⟨hlen, congrArg (· + 1) hctl, hloaded, hends⟩
    searches := h.searches_extends { Extends.refl s with next_le := Nat.le_succ _ } }

theorem Inv.lookup (h : Inv s) (hloaded : s.loaded = true)
    (hlen : s.recs.length = s.nextFbpointRecNo) (hpos : 0 < s.nextFbpointRecNo) (targetTime : Int)
    (keep : Bool) :
    ∃ res, getRightFbpoint s.buf s.files s.nextFbpointRecNo targetTime keep = .found res ∧
      WalkOk s.recs targetTime (s.nextFbpointRecNo - 1) s.floor keep res := by
  have hsucc : s.nextFbpointRecNo - 1 + 1 = s.nextFbpointRecNo := by omega
  have hfloor := h.floor_mul_lt hpos
  have hbuf := h.buf hloaded
  rw [hlen] at hbuf
  rw [getRightFbpoint, if_neg (by omega)]
  refine walkSegs_spec keep h.sorted (by omega) (hsucc.symm ▸ h.files)
    (fun j hj hn => h.exist j hj (by omega)) h.miss _ s.buf ?_ (Nat.div_mul_le_self _ _) hbuf ?_
  · rw [Nat.le_div_iff_mul_le recPerSeg_pos]
    omega
  · have := Nat.lt_mul_of_div_lt (Nat.lt_add_one ((s.nextFbpointRecNo - 1) / recPerSeg))
      recPerSeg_pos
    omega

/-- The lookup of the checkpointer finds the point to keep. -/
theorem Inv.keep (h : Inv s) (hpc : s.pc = .flushed r endPos) (keepTime : Int) :
    ∃ res, getRightFbpoint s.buf s.files s.nextFbpointRecNo keepTime true = .found res ∧
      Inv { s with pc := .kept r endPos keepTime res } := by
  obtain ⟨hlen, hctl, hloaded, hends⟩ := h.at_pc hpc
  have hpos : 0 < s.nextFbpointRecNo := by omega
  obtain ⟨res, hres, _, hkept⟩ := h.lookup hloaded hlen hpos keepTime true
  obtain ⟨r', n, hrn, hn, _, hright⟩ := hkept rfl
  rw [Nat.sub_add_cancel hpos] at hright
  exact ⟨res, hres, h.setPc ⟨hlen, hctl, hends, r', n, hrn, hn, hright⟩⟩

theorem Inv.save
    {res : Option (FbpointRec × Nat)} (h : Inv s) (hpc : s.pc = .kept r endPos keepTime res) :
    Inv { s with
      snapshotEndPos := endPos
      ctlFile := some ⟨s.nextFbpointRecNo, endPos⟩
      pc := .saved (res.getD (r, 0)).1 (res.getD (r, 0)).2 } := by
  obtain ⟨hlen, _, ⟨hseg, hsnap⟩, r', n, rfl, hn, _⟩ := h.at_pc hpc
  have hlt := lt_of_getElem? hn
  exact { h with
    ctl_le := le_rfl
    floor_lt := h.floor_lt.imp_right fun hf => hf.trans_le h.ctl_le
    endPos := rfl
    floor_le := h.floor_le.trans hseg
    snapshots := fun n r'' _ hr'' => hsnap r'' (mem_of_getElem? hr'')
    pc := ⟨⟨hlen, rfl⟩, (Nat.div_mul_le_self _ _).trans_lt (hlen ▸ hlt),
      hsnap r' (mem_of_getElem? hn)⟩
    searches := h.searches_extends { Extends.refl s with } }

theorem pcOk_truncate (hrest : s.AtRest) (hlt : segNo * recPerSeg < s.nextFbpointRecNo)
    (hseg : segNo ≤ s.ctlSeg) : PcOk s (if segNo = 0 then .idle else .truncating (segNo - 1)) := by
  split
  · exact hrest
  · rename_i hz
    have hsucc := Nat.sub_add_cancel (Nat.pos_of_ne_zero hz)
    exact ⟨hrest, hsucc.symm ▸ hlt, hsucc.symm ▸ hseg⟩

theorem truncateStart_pcOk (h : PcOk s (.saved r segNo)) : PcOk s (truncateStart r segNo) := by
  obtain ⟨hrest, hseg, hsnap⟩ := h
  unfold truncateStart
  split
  · exact pcOk_truncate hrest ((Nat.mul_le_mul_right _ (Nat.min_le_right ..)).trans_lt hseg)
      ((Nat.min_le_left ..).trans hsnap)
  · exact hrest

/-- Removing a segment file: the points kept begin above it. -/
theorem Inv.unlink (h : Inv s) (hpc : s.pc = .truncating segNo) : Inv { s with
      files := update s.files segNo none
      floor := max s.floor (segNo + 1)
      pc := if segNo = 0 then .idle else .truncating (segNo - 1) } := by
  obtain ⟨hrest, hlt, hseg⟩ := h.at_pc hpc
  have hfloor : s.floor ≤ max s.floor (segNo + 1) := Nat.le_max_left _ _
  have hgone : ∀ j, s.files j = none → update s.files segNo none j = none := by
    intro j hj
    rw [update_apply, hj, ite_self]
  have hexist : ∀ j, max s.floor (segNo + 1) ≤ j → j * recPerSeg < s.nextFbpointRecNo →
      update s.files segNo none j ≠ none := by
    intro j hj hn
    rw [update_of_ne (by omega)]
    exact h.exist j (by omega) hn
  have hmiss : ∀ j, j + 1 = max s.floor (segNo + 1) → update s.files segNo none j = none := by
    intro j hj
    rcases lt_or_ge s.floor (segNo + 1) with hf | hf
    · rw [show j = segNo by omega, update_self]
    · exact hgone j (h.miss j (by omega))
  exact { h with
    files := fun j buf hbuf =>
      h.files j buf (ite_none_left_eq_some.mp ((update_apply ..).symm.trans hbuf)).2
    exist := hexist
    miss := hmiss
    floor_lt := by
      refine .inr ?_
      change max s.floor (segNo + 1) * recPerSeg < s.ctlNo
      rw [hrest.2, ← Nat.mul_max_mul_right]
      exact Nat.max_lt.mpr ⟨h.floor_mul_lt (Nat.zero_lt_of_lt hlt), hlt⟩
    floor_le := Nat.max_le.mpr ⟨h.floor_le, hseg⟩
    pc := pcOk_truncate hrest ((Nat.mul_le_mul_right _ (Nat.le_succ _)).trans_lt hlt)
      ((Nat.le_succ _).trans hseg)
    searches := h.searches_extends { Extends.refl s with
      floor_le := hfloor, miss := fun j _ hnone => hgone j hnone } }

theorem Inv.checkpointer (h : Inv s) (hs : checkpointerStep s keepTime = some s') : Inv s' := by
  unfold checkpointerStep at hs
  split at hs
  · cases hs
  · rename_i r totalSize pos hpc
    cases hs
    refine h.backup hpc ?_
    split
    · exact .inl rfl
    · exact .inr rfl
  · rename_i r endPos hpc
    cases hs
    exact h.insert hpc
  · rename_i r endPos hpc
    cases hs
    exact h.write hpc
  · rename_i r endPos hpc
    cases hs
    exact h.raise hpc
  · rename_i r endPos hpc
    obtain ⟨res, hres, hinv⟩ := h.keep hpc keepTime
    rw [hres] at hs
    cases hs
    exact hinv
  · rename_i r endPos _ res hpc
    cases hs
    exact h.save hpc
  · rename_i r segNo hpc
    cases hs
    exact h.setPc (truncateStart_pcOk (h.at_pc hpc))
  · rename_i segNo hpc
    split at hs
    · cases hs
      exact h.setPc (h.at_pc hpc).1
    · cases hs
      exact h.unlink hpc

/-! ## Restart -/

theorem getElem?_of_take {k : Nat}
    (hr : (recs.take n)[k]? = some r) : k < n ∧ recs[k]? = some r := by
  rw [getElem?_take] at hr
  exact ite_none_right_eq_some.mp hr

theorem Inv.restarted (h : Inv s) {buf : SegBuf} {loaded : Bool}
    (hend : endPos.segNo = s.ctlSeg)
    (hbuf : loaded = true →
      Holds buf (s.recs.take s.ctlNo) ((s.ctlNo - 1) / recPerSeg) (s.ctlNo - 1))
    (hun : loaded = false → s.ctlNo % recPerSeg = 0) :
    Inv { s with
      nextFbpointRecNo := s.ctlNo
      buf := buf
      snapshotEndPos := endPos
      pc := .idle
      searches := []
      recs := s.recs.take s.ctlNo
      loaded := loaded } := by
  have hlen : (s.recs.take s.ctlNo).length = s.ctlNo := length_take_of_le (h.ctl_le.trans h.next_le)
  exact { h with
    sorted := h.sorted.sublist (take_sublist _ _)
    next_le := hlen.ge
    files := fun j fbuf hf n r hn hnj hr =>
      h.files j fbuf hf n r (hn.trans_le h.ctl_le) hnj (getElem?_of_take hr).2
    exist := fun j hj hn => h.exist j hj (hn.trans_le h.ctl_le)
    buf := by
      simp only [hlen]
      exact hbuf
    unloaded := by
      simp only [hlen]
      exact hun
    ctl_le := le_rfl
    endPos := hend
    snapshots := fun n r hn hr => h.snapshots n r hn (getElem?_of_take hr).2
    pc := ⟨hlen, rfl⟩
    searches := forall_mem_nil _ }

theorem startPos_segNo (c : Option CtlFile) :
    (if c.elim ⟨0, 0⟩ CtlFile.snapshotEndPos = (⟨0, 0⟩ : FbpointPos) then ⟨0, segSize⟩
      else c.elim ⟨0, 0⟩ CtlFile.snapshotEndPos : FbpointPos).segNo =
      c.elim 0 fun c => c.snapshotEndPos.segNo := by
  cases c with
  | none => rfl
  | some c =>
    change (if c.snapshotEndPos = ⟨0, 0⟩ then ⟨0, segSize⟩ else c.snapshotEndPos :
      FbpointPos).segNo = c.snapshotEndPos.segNo
    split
    · rename_i hz
      rw [hz]
    · rfl

/-- The files and the control file alone give a state with the invariant. -/
theorem Inv.restart (h : Inv s) : Inv s.restart := by
  have hend := startPos_segNo s.ctlFile
  simp only [State.restart]
  split
  · rename_i hne
    change s.ctlNo % recPerSeg ≠ 0 at hne
    have hpos : 0 < s.ctlNo := Nat.pos_of_ne_zero fun hz => hne (by rw [hz, Nat.zero_mod])
    have hseg : (s.ctlNo - 1) / recPerSeg = s.ctlNo / recPerSeg := by
      rw [recPerSeg_eq] at hne ⊢
      omega
    have hlt : s.ctlNo / recPerSeg * recPerSeg ≤ s.ctlNo - 1 := hseg ▸ Nat.div_mul_le_self _ _
    have hmax : s.ctlNo - 1 < s.nextFbpointRecNo := by
      have := h.ctl_le
      omega
    have hfloor : s.floor ≤ s.ctlNo / recPerSeg :=
      (Nat.le_div_iff_mul_le recPerSeg_pos).mpr h.floor_mul_le
    obtain ⟨buf, hbuf⟩ := ne_none_iff_exists'.mp (h.exist _ hfloor (by omega))
    have hread := h.files.read hbuf hmax h.next_le hlt
    unfold State.ctlNo at hread
    rw [hread]
    refine h.restarted hend (fun _ => ?_) nofun
    rw [hseg]
    exact fun n r hn hnj hr => h.files.holds hbuf hmax n r hn hnj (getElem?_of_take hr).2
  · rename_i heq
    exact h.restarted hend nofun fun _ => Decidable.not_not.mp heq

/-! ## Every run -/

theorem snapshotStart_le (endPos : FbpointPos) : endPos.segNo ≤ (snapshotStart endPos).segNo := by
  unfold snapshotStart
  split
  · exact Nat.le_succ _
  · exact le_rfl

theorem snapshotPos_segNo (start : FbpointPos) (totalSize : Nat) :
    (snapshotPos start totalSize).segNo = start.segNo := by
  unfold snapshotPos
  split <;> rfl

theorem Inv.step {a : Action} (h : Inv s) (hok : StepOk s a)
    (hs : step s a = some s') : Inv s' := by
  cases a with
  | fbpoint r dataSize =>
    simp only [FlashbackPoint.step] at hs
    split at hs
    · rename_i hpc
      obtain ⟨htime, rfl⟩ := ite_some_none_eq_some.mp hs
      refine h.setPc ⟨h.at_pc hpc, htime, ?_, (snapshotPos_segNo _ _).le⟩
      exact h.endPos ▸ snapshotStart_le _
    · cases hs
  | checkpointer keepTime => exact h.checkpointer hs
  | search targetTime =>
    cases hs
    exact h.setSearches (forall_mem_snoc h.searches (h.search targetTime))
  | searchNext i =>
    obtain ⟨q, hq, hs⟩ := bind_eq_some_iff.mp hs
    obtain ⟨p, hp, rfl⟩ := map_eq_some_iff.mp hs
    obtain ⟨hnext, hfine⟩ := SearchOk.next h (h.searches q (mem_of_getElem? hq)) (hok q hq) hp
    have hall : ∀ q' ∈ s.searches.set i p.1, SearchOk s q' := by
      intro q' hq'
      rcases mem_or_eq_of_mem_set hq' with hq' | rfl
      · exact h.searches q' hq'
      · exact hnext
    rw [hfine, Bool.or_false]
    exact h.setSearches hall
  | restart =>
    cases hs
    exact h.restart

theorem inv_exec {as : List Action} (hm : Meets step StepOk .init as)
    (hs : exec step .init as = some s) : Inv s :=
  exec_invariant_of_meets (fun _ s => Inv s) (fun _ _ _ _ h hok hs => h.step hok hs) .init hm hs

def Phase.turnsLeft : Phase → Nat
  | .buffer maxRecNo => maxRecNo / recPerSeg + 2
  | .file _ segNo => segNo + 1
  | .done _ _ => 0

theorem turn_turnsLeft (q : Search) (buf : SegBuf) (maxRecNo segNo : Nat)
    (after : List FbpointRec) : (q.turn buf maxRecNo segNo after).phase.turnsLeft ≤ segNo := by
  unfold Search.turn
  cases searchSeg buf q.targetTime segNo maxRecNo with
  | some r => exact Nat.zero_le _
  | none =>
    by_cases hz : segNo = 0
    · simp [hz, Phase.turnsLeft]
    · simp only [if_neg hz, Phase.turnsLeft]
      omega

theorem next_turnsLeft (q : Search) (s : State) : (∃ res after, q.phase = .done res after) ∨
      ∃ p, q.next s = some p ∧ p.1.phase.turnsLeft < q.phase.turnsLeft := by
  cases hph : q.phase with
  | buffer maxRecNo =>
    refine .inr ⟨(q.turn s.buf maxRecNo (maxRecNo / recPerSeg) s.retained, false),
      by simp only [Search.next, hph], (turn_turnsLeft _ _ _ _ _).trans_lt ?_⟩
    exact Nat.lt_add_of_pos_right (by decide)
  | file maxRecNo segNo =>
    refine .inr ?_
    cases hr : readFbpointRecords s.files segNo maxRecNo with
    | ok buf =>
      exact ⟨(q.turn buf maxRecNo segNo s.retained, false),
        by simp only [Search.next, hph, hr],
        (turn_turnsLeft _ _ _ _ _).trans_lt (Nat.lt_succ_self _)⟩
    | noent =>
      exact ⟨({ q with phase := .done none s.retained }, false),
        by simp only [Search.next, hph, hr], Nat.succ_pos _⟩
    | corrupt =>
      exact ⟨({ q with phase := .done none s.retained }, true),
        by simp only [Search.next, hph, hr], Nat.succ_pos _⟩
  | done res after => exact .inl ⟨res, after, rfl⟩

/-- **Lookups of flashback points are exact** in every run whose lookups
find the buffer with the segment they expect: no file fails, every lookup
that ended returned the right point over those kept at its beginning or at
its end, every other one comes to its end, the checkpointer keeps the right
point or the oldest, and a lookup nobody interrupts is right at once. -/
theorem lookups_exact {as : List Action} {s : State} (hm : Meets step StepOk .init as)
    (hs : exec step .init as = some s) :
    s.failed = false ∧ (∀ q ∈ s.searches, q.Right) ∧
      (∀ i q, s.searches[i]? = some q → (∃ res after, q.phase = .done res after) ∨
        ∃ s' q', step s (.searchNext i) = some s' ∧ s'.searches[i]? = some q' ∧
          q'.phase.turnsLeft < q.phase.turnsLeft) ∧
      (∀ r endPos keepTime res, s.pc = .kept r endPos keepTime res →
        ∃ r' n, res = some (r', n / recPerSeg) ∧ s.recs[n]? = some r' ∧
          IsKept s.retained keepTime (some r')) ∧
      (s.loaded = true → s.recs.length = s.nextFbpointRecNo → ∀ targetTime,
        ∃ res, getRightFbpoint s.buf s.files s.nextFbpointRecNo targetTime false = .found res ∧
          IsRight s.retained targetTime (res.map Prod.fst)) := by
  have h := inv_exec hm hs
  refine ⟨h.failed, fun q hq res after hph => ?_, fun i q hq => ?_, fun r endPos t res hpc => ?_,
    fun hloaded hlen targetTime => ?_⟩
  · have := h.searches q hq
    rwa [SearchOk, hph] at this
  · refine (next_turnsLeft q s).imp_right fun ⟨p, hp, hlt⟩ => ?_
    refine ⟨{ s with searches := s.searches.set i p.1, failed := s.failed || p.2 }, p.1, ?_,
      getElem?_set_self (lt_of_getElem? hq), hlt⟩
    simp only [step, hq, hp, bind_some, map_some]
  · exact (h.at_pc hpc).2.2.2
  · rcases Nat.eq_zero_or_pos s.nextFbpointRecNo with hz | hpos
    · refine ⟨none, by rw [getRightFbpoint, if_pos hz], fun r hr => ?_⟩
      obtain ⟨n, _, hn, _⟩ := mem_points.mp hr
      omega
    · obtain ⟨res, hres, hright, _⟩ := h.lookup hloaded hlen hpos targetTime false
      rw [Nat.sub_add_cancel hpos] at hright
      exact ⟨res, hres, hright rfl⟩

/-! ## Runs -/

/-- A point with these contents from its beginning to its end, when it is
not the first of a later segment. -/
def point (r : FbpointRec) : List Action :=
  .fbpoint r 0 :: List.replicate 7 (.checkpointer r.time)

def pointAt (t : Int) : FbpointRec := { FbpointRec.zero with time := t }

theorem snapshotStart_room (endPos : FbpointPos) :
    snapshotHeaderSize ≤ (snapshotStart endPos).offset - recEndPos := by
  unfold snapshotStart
  split
  · change snapshotHeaderSize ≤ segSize - recEndPos
    decide
  · omega

theorem checkpointerStep_backup
    (hpc : s.pc = .backup r totalSize pos) (hroom : totalSize ≤ pos.offset - recEndPos) (t : Int) :
    ∃ endPos, checkpointerStep s t = some { s with
      files := fbpointFileInit s.files pos.segNo
      pc := .backedUp r endPos } := by
  have hdone : totalSize - min totalSize (pos.offset - recEndPos) = 0 := by omega
  refine ⟨⟨pos.segNo, pos.offset - min totalSize (pos.offset - recEndPos)⟩, ?_⟩
  simp only [checkpointerStep, hpc, hdone, lt_irrefl, if_false]

theorem exec_insert (hpc : s.pc = .idle) (htime : ∀ r' ∈ s.recs, r'.time ≤ r.time) (t : Int) :
    ∃ s' files r' endPos, exec step s [.fbpoint r 0, .checkpointer t, .checkpointer t] = some s' ∧
      s' = { s with
        files := files
        buf := insertFbpointRec s.buf s.nextFbpointRecNo r'
        recs := s.recs ++ [r']
        loaded := true
        pc := .inserted r' endPos } ∧ r'.time = r.time := by
  obtain ⟨start, hstart⟩ : ∃ start, start = snapshotStart s.snapshotEndPos := ⟨_, rfl⟩
  obtain ⟨pos, hpos⟩ : ∃ pos, pos = snapshotPos start snapshotHeaderSize := ⟨_, rfl⟩
  have hbegin : step s (.fbpoint r 0) = some { s with
      pc := .backup { r with snapshotPos := pos } snapshotHeaderSize start } := by
    simp only [step, hpc, if_pos htime, Nat.add_zero, hpos, hstart]
  obtain ⟨endPos, hbackup⟩ := checkpointerStep_backup
    (s := { s with pc := .backup { r with snapshotPos := pos } snapshotHeaderSize start }) rfl
    (hstart ▸ snapshotStart_room _) t
  rw [exec, hbegin, bind_some, exec, step, hbackup]
  exact ⟨_, _, _, endPos, rfl, rfl, rfl⟩

/-- In the first segment the oldest point to keep is in it as well. -/
theorem getRightFbpoint_first (hn : n < recPerSeg)
    (t : Int) : ∃ r, getRightFbpoint buf files (n + 1) t true = .found (some (r, 0)) := by
  rw [getRightFbpoint, Nat.add_sub_cancel, Nat.div_eq_of_lt hn]
  unfold walkSegs
  cases searchSeg buf t 0 n with
  | some r => exact ⟨r, rfl⟩
  | none => exact ⟨firstRecInSeg buf, rfl⟩

theorem exec_point (hpc : s.pc = .idle)
    (htime : ∀ r' ∈ s.recs, r'.time ≤ r.time) (hn : s.nextFbpointRecNo < recPerSeg) :
    ∃ buf files r' endPos, exec step s (point r) = some { s with
        nextFbpointRecNo := s.nextFbpointRecNo + 1
        buf := buf
        snapshotEndPos := endPos
        files := files
        ctlFile := some ⟨s.nextFbpointRecNo + 1, endPos⟩
        pc := .idle
        recs := s.recs ++ [r']
        loaded := true } ∧ r'.time = r.time := by
  obtain ⟨_, files, r', endPos, hs1, rfl, hr'⟩ := exec_insert hpc htime r.time
  have hsplit : point r = [.fbpoint r 0, .checkpointer r.time, .checkpointer r.time] ++
      replicate 5 (.checkpointer r.time) := rfl
  rw [hsplit, exec_append, hs1]
  simp only [replicate, exec, step, checkpointerStep, bind_some]
  obtain ⟨kept, hkept⟩ := getRightFbpoint_first hn r.time
  rw [hkept]
  exact ⟨_, _, r', endPos, rfl, hr'⟩

structure FirstSegment (s : State) (n : Nat) : Prop where
  pc : s.pc = .idle
  next : s.nextFbpointRecNo = n
  length : s.recs.length = n
  time : ∀ r ∈ s.recs, r.time = 100
  ctl : 0 < n → ∃ endPos, s.ctlFile = some ⟨n, endPos⟩
  floor : s.floor = 0
  searches : s.searches = []

theorem FirstSegment.init : FirstSegment .init 0 :=
  ⟨rfl, rfl, rfl, forall_mem_nil _, fun h => absurd h (lt_irrefl 0), rfl, rfl⟩

theorem FirstSegment.exec_points {m : Nat} (h : FirstSegment s m) (n : Nat)
    (hn : m + n ≤ recPerSeg) :
    ∃ s', exec step s (replicate n (point (pointAt 100))).flatten = some s' ∧
      FirstSegment s' (m + n) := by
  induction n with
  | zero => exact ⟨s, rfl, h⟩
  | succ n ih =>
    obtain ⟨s', hs', h'⟩ := ih (Nat.le_of_succ_le hn)
    obtain ⟨buf, files, r, endPos, hs'', hr⟩ := exec_point (r := pointAt 100) h'.pc
      (fun r hr => (h'.time r hr).le) (h'.next ▸ hn)
    rw [replicate_succ', flatten_append, exec_append, hs']
    refine ⟨_, hs'', rfl, congrArg (· + 1) h'.next, ?_, forall_mem_snoc h'.time hr,
      fun _ => ⟨endPos, by rw [h'.next]; rfl⟩, h'.floor, h'.searches⟩
    rw [length_append, h'.length]
    rfl

theorem FirstSegment.restart (h : FirstSegment s n) (hpos : 0 < n) : FirstSegment s.restart n := by
  obtain ⟨endPos, hctl⟩ := h.ctl hpos
  have hrecs : s.recs.take n = s.recs := take_of_length_le h.length.le
  simp only [State.restart, hctl, elim_some, hrecs]
  split
  · split <;> exact ⟨rfl, rfl, h.length, h.time, fun _ => ⟨endPos, rfl⟩, h.floor, rfl⟩
  · exact ⟨rfl, rfl, h.length, h.time, fun _ => ⟨endPos, rfl⟩, h.floor, rfl⟩

theorem restart_boundary (hctl : s.ctlFile = some ⟨recPerSeg, endPos⟩) :
    s.restart.buf = zeroBuf := by
  simp [State.restart, hctl]

theorem mem_of_mem_points (h : r ∈ points recs floor count) : r ∈ recs := by
  obtain ⟨n, _, _, hn⟩ := mem_points.mp h
  exact mem_of_getElem? hn

theorem exec_search (hs : s.searches = []) (hn : s.nextFbpointRecNo = recPerSeg) (t : Int) :
    exec step s [.search t] = some { s with
      searches := [⟨t, s.retained, .buffer (recPerSeg - 1)⟩] } := by
  have hpos : recPerSeg ≠ 0 := by decide
  simp only [exec, step, hs, hn, if_neg hpos, bind_some, nil_append]

theorem exec_searchNext (hs : s.searches = [q]) (hq : q.phase = .buffer maxRecNo) :
    ∃ s', exec step s [.searchNext 0] = some s' ∧
      s'.searches = [q.turn s.buf maxRecNo (maxRecNo / recPerSeg) s.retained] := by
  simp only [exec, step, hs, getElem?_cons_zero, bind_some, Search.next, hq]
  exact ⟨_, rfl, rfl⟩

/-- Two points, a restart, the rest of the first segment, and a point in the next
one that is in the files. -/
def twoSegments : List Action :=
  (List.replicate 2 (point (pointAt 100))).flatten ++ [.restart] ++
    (List.replicate 894 (point (pointAt 100))).flatten ++
      ([.fbpoint (pointAt 200) 0, .checkpointer 0, .checkpointer 0] ++
        [.checkpointer 0, .checkpointer 0, .search 150])

theorem exec_twoSegments : ∃ s q, exec step .init twoSegments = some s ∧ s.searches = [q] ∧
    q.targetTime = 150 ∧ q.phase = .buffer recPerSeg ∧ s.loaded = true ∧
      s.recs.length = recPerSeg + 1 ∧
      searchSeg s.buf 150 (recPerSeg / recPerSeg) recPerSeg = none := by
  obtain ⟨s1, hs1, h1⟩ := FirstSegment.init.exec_points 2 (by decide)
  obtain ⟨s2, hs2, h2⟩ := (h1.restart (by decide)).exec_points 894 (by decide)
  obtain ⟨_, files, r, endPos, hs3, rfl, hr⟩ := exec_insert (r := pointAt 200) h2.pc
    (fun r hr => by rw [h2.time r hr]; decide) 0
  have hnext : s2.nextFbpointRecNo = recPerSeg := h2.next.trans (by decide)
  have hlen : s2.recs.length = recPerSeg := h2.length.trans (by decide)
  have hrestart : exec step s1 [.restart] = some s1.restart := rfl
  rw [twoSegments, exec_append, exec_append, exec_append, hs1, bind_some, hrestart, bind_some, hs2,
    bind_some, exec_append, hs3, bind_some]
  simp only [exec, step, checkpointerStep, bind_some, h2.searches, hnext, nil_append]
  refine ⟨_, _, rfl, rfl, rfl, rfl, rfl, ?_, ?_⟩
  · rw [length_append, hlen]
    rfl
  · rw [searchSeg, firstRecInSeg_eq _ 1, Nat.one_mul, recAt_writeFbpointRecBuf,
      recAt_insertFbpointRec_self, hr]
    exact if_neg (by decide)

/-- The newest segment has no point that is old enough; the lookup goes on to the
file of the first one. -/
theorem lookups_exact_twoSegments :
    ∃ s, exec step .init (twoSegments ++ [.searchNext 0] ++ [.searchNext 0]) = some s ∧
      s.failed = false ∧ ∀ q ∈ s.searches, q.Right := by
  obtain ⟨s, q, hs, hsearch, htarget, hq, hloaded, hlen, hnone⟩ := exec_twoSegments
  obtain ⟨s1, hs1, hsearch1⟩ := exec_searchNext hsearch hq
  have hq1 : (q.turn s.buf recPerSeg (recPerSeg / recPerSeg) s.retained).phase =
      .file recPerSeg 0 := by
    rw [Search.turn, htarget, hnone]
    rfl
  obtain ⟨s2, hs2⟩ : ∃ s2, exec step s1 [.searchNext 0] = some s2 := by
    simp only [exec, step, hsearch1, getElem?_cons_zero, bind_some, Search.next, hq1]
    split <;> exact ⟨_, rfl⟩
  have hrun : exec step .init (twoSegments ++ [.searchNext 0]) = some s1 := by
    rw [exec_append, hs, bind_some, hs1]
  have hrun2 : exec step .init (twoSegments ++ [.searchNext 0] ++ [.searchNext 0]) = some s2 := by
    rw [exec_append, hrun, bind_some, hs2]
  have hquiet : ∀ a ∈ twoSegments, ∀ s, StepOk s a := by
    intro a ha s
    cases a with
    | searchNext i => simp [twoSegments, point, -reduceReplicate] at ha
    | _ => trivial
  have hm : Meets step StepOk .init (twoSegments ++ [.searchNext 0] ++ [.searchNext 0]) := by
    refine (meets_snoc hrun).mpr ⟨(meets_snoc hs).mpr ⟨meets_of_forall hquiet, ?_⟩, ?_⟩
    · intro q' hq'
      rw [hsearch] at hq'
      cases hq'
      rw [hq]
      exact ⟨hloaded, by rw [hlen, Nat.add_sub_cancel]⟩
    · intro q' hq'
      rw [hsearch1] at hq'
      cases hq'
      rw [hq1]
      trivial
  have hall := lookups_exact hm hrun2
  exact ⟨s2, hrun2, hall.1, hall.2.1⟩

/-- After a restart at a segment boundary a lookup finds the zeros of the
empty buffer. -/
theorem FirstSegment.restart_wrong (h : FirstSegment s recPerSeg) :
    ∃ s', exec step s [.restart, .search 50, .searchNext 0] = some s' ∧
      ∃ q ∈ s'.searches, ¬ q.Right := by
  obtain ⟨endPos, hctl⟩ := h.ctl recPerSeg_pos
  have hbuf := restart_boundary hctl
  have h' := h.restart recPerSeg_pos
  obtain ⟨s', hs', hsearch'⟩ := exec_searchNext
    (s := { s.restart with searches := [⟨50, s.restart.retained, .buffer (recPerSeg - 1)⟩] })
    rfl rfl
  refine ⟨s', ?_, _, hsearch' ▸ mem_singleton_self _, fun hright => ?_⟩
  · change exec step s.restart ([.search 50] ++ [.searchNext 0]) = some s'
    rwa [exec_append, exec_search h'.searches h'.next]
  have hzero : ∀ after, FbpointRec.zero ∉ points s.restart.recs s.restart.floor after := by
    intro after hmem
    exact absurd (h'.time _ (mem_of_mem_points hmem)) (by decide)
  simp only [hbuf] at hright
  rcases hright _ _ rfl with h | h
  · exact hzero _ h.1
  · exact hzero _ h.1

/-- A lookup waits for the buffer lock while a point begins the next
segment: it finds nothing, although all points before are old enough. -/
theorem FirstSegment.boundary_wrong (h : FirstSegment s recPerSeg) :
    ∃ s', exec step s [.search 150, .fbpoint (pointAt 200) 0, .checkpointer 0, .checkpointer 0,
      .searchNext 0] = some s' ∧ ∃ q ∈ s'.searches, ¬ q.Right := by
  obtain ⟨s1, files, r, endPos, hs1, heq, hr⟩ := exec_insert
    (s := { s with searches := [⟨150, s.retained, .buffer (recPerSeg - 1)⟩] }) (r := pointAt 200)
    h.pc (fun r hr => by rw [h.time r hr]; decide) 0
  obtain ⟨s', hs', hsearch'⟩ := exec_searchNext (s := s1) (by rw [heq]) rfl
  subst heq
  refine ⟨s', ?_, _, hsearch' ▸ mem_singleton_self _, fun hright => ?_⟩
  · rw [show [Action.search 150, .fbpoint (pointAt 200) 0, .checkpointer 0, .checkpointer 0,
      .searchNext 0] = [.search 150] ++ ([.fbpoint (pointAt 200) 0, .checkpointer 0,
        .checkpointer 0] ++ [.searchNext 0]) from rfl, exec_append, exec_search h.searches h.next,
      bind_some, exec_append, hs1]
    exact hs'
  have hnone : searchSeg (insertFbpointRec s.buf s.nextFbpointRecNo r) 150
      ((recPerSeg - 1) / recPerSeg) (recPerSeg - 1) = none := by
    rw [searchSeg, firstRecInSeg_eq _ 1, h.next, Nat.one_mul, recAt_insertFbpointRec_self, hr]
    exact if_neg (by decide)
  simp only [Search.turn, hnone] at hright
  have hlen0 : 0 < s.recs.length := h.length ▸ recPerSeg_pos
  have hget := getElem?_eq_getElem hlen0
  have hold : ¬ (150 : Int) < (s.recs[0]).time := by
    rw [h.time _ (getElem_mem hlen0)]
    decide
  have hkept : s.floor * recPerSeg ≤ 0 ∧ 0 < s.nextFbpointRecNo := by
    rw [h.floor, h.next]
    decide
  rcases hright _ _ rfl with h | h
  · exact hold (h _ (mem_points.mpr ⟨0, hkept.1, hkept.2, hget⟩))
  · exact hold (h _ (mem_points.mpr ⟨0, hkept.1, hkept.2, (getElem?_append_left hlen0).trans hget⟩))

/-- Two runs with a wrong answer. After a restart at a segment boundary a
lookup finds the zeros of the empty buffer instead of nothing; a lookup
that waits for the buffer lock while a point begins the next segment finds
nothing although 896 points are old enough. -/
theorem lookup_wrong :
    (∃ as s, exec step .init (as ++ [.restart, .search 50, .searchNext 0]) = some s ∧
      ∃ q ∈ s.searches, ¬ q.Right) ∧
    ∃ as s, exec step .init (as ++ [.search 150, .fbpoint (pointAt 200) 0, .checkpointer 0,
      .checkpointer 0, .searchNext 0]) = some s ∧ ∃ q ∈ s.searches, ¬ q.Right := by
  obtain ⟨s, hs, h⟩ := FirstSegment.init.exec_points recPerSeg (Nat.zero_add _).le
  rw [Nat.zero_add] at h
  obtain ⟨s1, hs1, h1⟩ := h.restart_wrong
  obtain ⟨s2, hs2, h2⟩ := h.boundary_wrong
  exact ⟨⟨_, s1, by rw [exec_append, hs, bind_some, hs1], h1⟩,
    ⟨_, s2, by rw [exec_append, hs, bind_some, hs2], h2⟩⟩

end PolarDB.FlashbackPoint
