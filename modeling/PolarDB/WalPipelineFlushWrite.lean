import PolarDB.WalPipelineFlushInv

/-!
# The write worker hands over what it wrote

The entries of the ring lead from the first segment that is not synced to the
one the write worker is in, so that a sync of the file of an entry completes
everything below its end. The write worker keeps this: an iteration of the page
loop stays in the segment or ends it, a complete segment is handed over before
the next one is opened, and a flush request makes an entry for an incomplete one.

Two flush requests do not fit: with a sync method where a write syncs, no entry
is made although the write worker takes the position as flushed; and a file
that is opened for a complete segment is handed over as one of an incomplete
one. `WriterStepOk` leaves them out.
-/

namespace PolarDB.WalFlush

open Function List Option

variable {c : Conf} {s s' : State} {w0 d fd : Nat} {q : List Unflushed} {e : Unflushed}

/-! ## The invariant -/

def Writer.isAppendSeg : Writer → Bool
  | .appendSeg _ _ => true
  | _ => false

/-- The file the write worker writes to, if its segment is not complete. -/
def State.current (c : Conf) (s : State) : Option (Nat × Nat) :=
  if s.writer.isAppendSeg || s.localWrite % c.segSize != 0 then
    s.openLogFile.map fun fd => (fd, s.openLogSegNo)
  else none

def State.curSeg (c : Conf) (s : State) : Nat :=
  if s.writer.isAppendSeg then s.localWrite / c.segSize - 1 else s.localWrite / c.segSize

def State.headNo (s : State) : Nat :=
  match s.flusher with
  | .idle | .start | .panic => s.delSlotNo
  | .look curr | .sync curr _ _ | .setFlush curr _ _ | .close curr _ | .release curr _ => curr

def Flusher.advanced : Flusher → Bool
  | .sync .. | .setFlush .. | .close .. | .release .. => true
  | _ => false

def live (f : Flusher) (q : List Unflushed) : List Unflushed :=
  match f, q with
  | .release _ _, e :: q => if e.needClose then q else e :: q
  | _, q => q

def WriterOk (c : Conf) (s : State) : Writer → Prop
  | .idle => s.written = s.localWrite ∧ s.sharedWrite = s.localWrite
  | .page write _ npages startOffset =>
    npages = 0 ∧ s.written = s.localWrite
      ∨ npages ≠ 0 ∧ s.localWrite < write ∧ c.blcksz ∣ s.localWrite ∧ s.openLogFile ≠ none
        ∧ s.localWrite % c.segSize ≠ 0
        ∧ s.localWrite % c.segSize = startOffset + npages * c.blcksz
  | .appendSeg _ _ =>
    s.written = s.localWrite ∧ s.localWrite % c.segSize = 0 ∧ 0 < s.localWrite
      ∧ s.openLogFile ≠ none
  | .flushRequest _ => s.written = s.localWrite
  | .appendFlush =>
    s.written = s.localWrite ∧ s.localWrite % c.segSize ≠ 0 ∧ s.openLogFile ≠ none
  | .publish => s.written = s.localWrite

def FlusherOk (s : State) (q : List Unflushed) : Flusher → Prop
  | .idle | .start => True
  | .look _ => q ≠ []
  | .sync _ close stop =>
    ∃ e q', q = e :: q' ∧ close = e.needClose ∧ (stop = false → q' ≠ [])
      ∧ e.endLsn ≤ s.sharedWrite
  | .setFlush _ close stop =>
    ∃ e q', q = e :: q' ∧ close = e.needClose ∧ (stop = false → q' ≠ [])
      ∧ e.endLsn ≤ s.synced e.segNo ∧ e.endLsn ≤ s.sharedWrite
  | .close _ stop =>
    ∃ e q', q = e :: q' ∧ e.needClose = true ∧ (stop = false → q' ≠ [])
      ∧ e.endLsn ≤ s.synced e.segNo ∧ s.sharedFlush = e.endLsn
  | .release _ stop =>
    ∃ e q', q = e :: q' ∧ (stop = false → q' ≠ []) ∧ (stop = true → s.sharedFlush = e.endLsn)
      ∧ (e.needClose = true → e.endLsn ≤ s.synced e.segNo)
  | .panic => False

/-- Everything below the segment `d` and below the flushed position is synced. -/
structure SyncedOk (c : Conf) (w0 d flushed written : Nat) (synced : Nat → Nat) : Prop where
  below : ∀ lsn, w0 ≤ lsn → lsn < d * c.segSize ∨ lsn < flushed → lsn < synced (lsn / c.segSize)
  written : ∀ g, synced g ≤ written

structure Inv (c : Conf) (w0 : Nat) (s : State) (q : List Unflushed) (d : Nat) : Prop where
  queue : SlotQueue c.arraySize s.slots s.headNo q
  add : s.addSlotNo = s.headNo + q.length
  del : s.delSlotNo = s.headNo + (if s.flusher.advanced then 1 else 0)
  entries : QueueOk c q d (s.curSeg c) s.written s.sharedFlush
  files : FilesOk c s.files s.opened s.closed s.written (s.current c) (live s.flusher q)
  handed : max s.localFlush w0 = (q.getLast?.map Unflushed.endLsn).getD s.sharedFlush
  synced : SyncedOk c w0 d s.sharedFlush s.written s.synced
  flushLe : s.sharedFlush ≤ s.sharedWrite
  writeLe : s.sharedWrite ≤ s.written
  publishedLe : s.published ≤ s.addSlotNo
  published : ∀ i e, q[i]? = some e → s.headNo + i < s.published → e.endLsn ≤ s.sharedWrite
  writtenLe : s.written ≤ s.localWrite
  startLe : w0 ≤ s.written
  fresh : s.openLogFile = none → q = [] ∧ s.localWrite = w0
  seg : s.openLogFile ≠ none → s.current c ≠ none ∧ s.openLogSegNo = s.curSeg c
    ∨ s.current c = none ∧ s.openLogSegNo + 1 = s.curSeg c ∧ s.localFlush = s.localWrite
  writer : WriterOk c s s.writer
  flusher : FlusherOk s q s.flusher

theorem Inv.init (c : Conf) (w0 : Nat) : Inv c w0 (State.init w0) [] (w0 / c.segSize) where
  queue := SlotQueue.nil _ _
  add := rfl
  del := rfl
  entries := ⟨rfl, forall_mem_nil _, List.Pairwise.nil,
    forall_mem_nil _⟩
  files := by
    have hcur : (State.init w0).current c = none := by
      unfold State.current
      split <;> rfl
    rw [hcur]
    exact ⟨forall_mem_nil _, nofun, nofun,
      nofun, nodup_nil, forall_mem_nil _,
      forall_mem_nil _⟩
  handed := Nat.zero_max w0
  synced := by
    refine ⟨fun lsn hle hlt => absurd hle (not_le.mpr ?_), fun _ => le_rfl⟩
    rcases hlt with hlt | hlt
    · exact hlt.trans_le (Nat.div_mul_le_self w0 c.segSize)
    · exact hlt
  flushLe := le_rfl
  writeLe := le_rfl
  publishedLe := le_rfl
  published := nofun
  writtenLe := le_rfl
  startLe := le_rfl
  fresh _ := ⟨rfl, rfl⟩
  seg h := absurd rfl h
  writer := ⟨rfl, rfl⟩
  flusher := trivial

variable {flush flushed npages startOffset write : Nat} {cacheEnd : Bool}

theorem SyncedOk.mono {written written' : Nat} {synced : Nat → Nat}
    (h : SyncedOk c w0 d flushed written synced) (hle : written ≤ written') :
    SyncedOk c w0 d flushed written' synced :=
  ⟨h.below, fun g => (h.written g).trans hle⟩

theorem SyncedOk.sync {written : Nat} {synced : Nat → Nat}
    (h : SyncedOk c w0 d flushed written synced) (g : Nat) :
    SyncedOk c w0 d flushed written (update synced g written) := by
  refine ⟨fun lsn hle hlt => (h.below lsn hle hlt).trans_le ?_,
    (forall_update_iff synced fun _ v => v ≤ written).mpr ⟨le_rfl, fun g' _ => h.written g'⟩⟩
  exact le_update_self_iff.mpr (h.written g) _

variable {f : Flusher} {lsn : Nat} {w' : Writer}

theorem FlusherOk.push (h : FlusherOk s q f) (e : Unflushed) :
    FlusherOk s (q ++ [e]) f ∧ live f (q ++ [e]) = live f q ++ [e] := by
  have hne : ∀ {q' : List Unflushed}, q' ++ [e] ≠ [] := by simp
  cases f with
  | idle | start => exact ⟨trivial, rfl⟩
  | look curr => exact ⟨hne, rfl⟩
  | sync curr close stop | setFlush curr close stop | close curr stop =>
    obtain ⟨e', q', rfl, hc, -, hrest⟩ := h
    exact ⟨⟨e', q' ++ [e], rfl, hc, fun _ => hne, hrest⟩, rfl⟩
  | release curr stop =>
    obtain ⟨e', q', rfl, -, hrest⟩ := h
    refine ⟨⟨e', q' ++ [e], rfl, fun _ => hne, hrest⟩, ?_⟩
    simp only [live, cons_append]
    split <;> rfl
  | panic => exact h.elim

/-! ## Positions -/

def Conf.pageEnd (c : Conf) (lsn : Nat) : Nat := (lsn / c.blcksz + 1) * c.blcksz

theorem lt_pageEnd (lsn : Nat) : lsn < c.pageEnd lsn := by
  have := Nat.lt_mul_div_succ lsn c.blcksz_pos
  rwa [Nat.mul_comm] at this

theorem prevSeg_pageEnd (lsn : Nat) : c.prevSeg (c.pageEnd lsn) = lsn / c.segSize := by
  have hB := c.blcksz_pos
  have hend : c.pageEnd lsn = lsn / c.blcksz * c.blcksz + c.blcksz := Nat.succ_mul ..
  have hdiv : (c.pageEnd lsn - 1) / c.blcksz = lsn / c.blcksz :=
    Nat.div_eq_of_lt_le (by omega) (by rw [Nat.succ_mul]; omega)
  rw [Conf.prevSeg, Conf.segSize, Nat.mul_comm, ← Nat.div_div_eq_div_mul, hdiv,
    Nat.div_div_eq_div_mul]

theorem pageEnd_eq (lsn : Nat) :
    c.pageEnd lsn = lsn / c.segSize * c.segSize + (lsn / c.blcksz % c.segPages + 1) * c.blcksz := by
  have hseg : lsn / c.blcksz / c.segPages = lsn / c.segSize := by
    rw [Nat.div_div_eq_div_mul, Conf.segSize, Nat.mul_comm]
  calc c.pageEnd lsn
      = (lsn / c.blcksz / c.segPages * c.segPages + lsn / c.blcksz % c.segPages + 1) *
        c.blcksz := by
        rw [Nat.div_add_mod']; rfl
    _ = lsn / c.segSize * c.segSize + (lsn / c.blcksz % c.segPages + 1) * c.blcksz := by
        rw [hseg, Nat.add_assoc, Nat.add_mul, Nat.mul_assoc]; rfl

theorem mod_segSize (hdvd : c.blcksz ∣ lsn) :
    lsn % c.segSize = lsn / c.blcksz % c.segPages * c.blcksz := by
  obtain ⟨n, rfl⟩ := hdvd
  rw [Nat.mul_div_cancel_left _ c.blcksz_pos, Conf.segSize, Nat.mul_comm c.blcksz n,
    Nat.mul_mod_mul_right]

def Conf.segEnd (c : Conf) (lsn : Nat) : Nat := (lsn / c.segSize + 1) * c.segSize

theorem pageEnd_le_segEnd (lsn : Nat) : c.pageEnd lsn ≤ c.segEnd lsn
      ∧ (c.segSize ≤ (lsn / c.blcksz % c.segPages + 1) * c.blcksz ↔
      c.pageEnd lsn = c.segEnd lsn) := by
  have hle : (lsn / c.blcksz % c.segPages + 1) * c.blcksz ≤ c.segSize :=
    Nat.mul_le_mul_right _ (Nat.mod_lt _ c.segPages_pos)
  have heq := pageEnd_eq (c := c) lsn
  have hend : c.segEnd lsn = lsn / c.segSize * c.segSize + c.segSize := by
    rw [Conf.segEnd, Nat.add_mul, Nat.one_mul]
  omega

theorem seg_of_lt {lsn' : Nat} (hlt : lsn < lsn') (hle : lsn' ≤ c.pageEnd lsn)
    (hne : lsn' ≠ c.segEnd lsn) : lsn' / c.segSize = lsn / c.segSize ∧ lsn' % c.segSize ≠ 0 := by
  have hup := (hle.trans (pageEnd_le_segEnd lsn).1).lt_of_ne hne
  have hlow := Nat.div_mul_le_self lsn c.segSize
  have hdiv : lsn' / c.segSize = lsn / c.segSize := Nat.div_eq_of_lt_le (by omega) hup
  refine ⟨hdiv, fun hz => ?_⟩
  have := Nat.div_add_mod' lsn' c.segSize
  rw [hdiv] at this
  omega

theorem segEnd_div (lsn : Nat) :
    c.segEnd lsn / c.segSize = lsn / c.segSize + 1 ∧ c.segEnd lsn % c.segSize = 0 :=
  ⟨Nat.mul_div_cancel _ c.segSize_pos, Nat.mul_mod_left _ _⟩

theorem prevSeg_of_mod_ne (h : lsn % c.segSize ≠ 0) : c.prevSeg lsn = lsn / c.segSize := by
  have hup := Nat.lt_mul_div_succ lsn c.segSize_pos
  have hdm := Nat.div_add_mod' lsn c.segSize
  rw [Nat.mul_comm] at hup
  exact Nat.div_eq_of_lt_le (by omega) (by omega)

/-! ## The page loop -/

/-- What an iteration of the page loop does: the file of the page is open, and
a part of the page up to `lsn` is dumped, at the end of the segment or before,
or the whole page is left for the next iteration. -/
theorem pageStep_cases (h : pageStep c s write flush npages startOffset fd cacheEnd = some s')
    (hlt : s.localWrite < write)
    (hoff : npages ≠ 0 → c.blcksz ∣ s.localWrite
      ∧ s.localWrite % c.segSize = startOffset + npages * c.blcksz) :
    ∃ s1 lsn, s.switchFile c (c.pageEnd s.localWrite) fd = some s1
      ∧ s.localWrite < lsn ∧ lsn ≤ c.pageEnd s.localWrite
      ∧ (lsn = c.segEnd s.localWrite
          ∧ s' = { s1.dump c lsn with localWrite := lsn, writer := .appendSeg write flush }
        ∨ lsn ≠ c.segEnd s.localWrite
          ∧ (∃ w', (w' = .flushRequest flush ∨ ∃ off, w' = .page write flush 0 off)
            ∧ s' = { s1.dump c lsn with localWrite := lsn, writer := w' })
        ∨ lsn ≠ c.segEnd s.localWrite ∧ lsn < write ∧ c.blcksz ∣ lsn
          ∧ ∃ off, lsn % c.segSize = off + (npages + 1) * c.blcksz
            ∧ s' = { s1 with
                localWrite := lsn, writer := .page write flush (npages + 1) off }) := by
  obtain ⟨s1, hs1, rfl⟩ := map_eq_some_iff.mp h
  have hE : (s.localWrite / c.blcksz + 1) * c.blcksz = c.pageEnd s.localWrite := rfl
  have hpos := lt_pageEnd (c := c) s.localWrite
  obtain ⟨hle, hfin⟩ := pageEnd_le_segEnd s.localWrite
  have hend : (if npages = 0 then (c.pageEnd s.localWrite - c.blcksz) % c.segSize else startOffset)
      + (npages + 1) * c.blcksz = (s.localWrite / c.blcksz % c.segPages + 1) * c.blcksz := by
    split
    · next hn =>
      have hsub : c.pageEnd s.localWrite - c.blcksz = c.blcksz * (s.localWrite / c.blcksz) := by
        rw [Conf.pageEnd, Nat.add_mul, Nat.one_mul, Nat.add_sub_cancel, Nat.mul_comm]
      rw [hsub, mod_segSize (Nat.dvd_mul_right _ _), Nat.mul_div_cancel_left _ c.blcksz_pos, hn,
        ← Nat.add_mul]
    · next hn =>
      obtain ⟨hdvd, hmod⟩ := hoff hn
      rw [mod_segSize hdvd] at hmod
      rw [Nat.add_mul, Nat.add_mul]
      omega
  refine ⟨s1, if write < c.pageEnd s.localWrite then write else c.pageEnd s.localWrite, hs1,
    ?_, ?_, ?_⟩
  · split
    · exact hlt
    · exact hpos
  · split
    · next hp => exact hp.le
    · exact le_rfl
  · rw [← hend] at hfin
    simp only [hE]
    by_cases hp : write < c.pageEnd s.localWrite
    · refine .inr (.inl ⟨by rw [if_pos hp]; omega, .flushRequest flush, .inl rfl, ?_⟩)
      simp only [hp, hp.le, decide_true, Bool.not_true, Bool.false_and, Bool.true_or, if_true,
        Bool.false_eq_true, if_false]
    · simp only [hp, decide_false, Bool.not_false, Bool.true_and, if_false, Bool.false_eq_true]
      by_cases hf : c.pageEnd s.localWrite = c.segEnd s.localWrite
      · refine .inl ⟨hf, ?_⟩
        simp only [hfin.mpr hf, decide_true, Bool.or_true, if_true]
      · have hnf := mt hfin.mp hf
        simp only [hnf, decide_false, Bool.or_false]
        split
        · exact .inr (.inl ⟨hf, _, .inr ⟨_, rfl⟩, rfl⟩)
        · next hlast =>
          simp only [Bool.or_eq_true, decide_eq_true_eq, not_or, not_le] at hlast
          have hdvd : c.blcksz ∣ c.pageEnd s.localWrite := Nat.dvd_mul_left _ _
          refine .inr (.inr ⟨hf, hlast.1, hdvd, _, ?_, rfl⟩)
          rw [hend] at hnf ⊢
          rw [pageEnd_eq, Nat.mul_add_mod', Nat.mod_eq_of_lt (not_le.mp hnf)]

theorem FlusherOk.mono (h : FlusherOk s q f) (hflush : s'.sharedFlush = s.sharedFlush)
    (hwrite : s.sharedWrite ≤ s'.sharedWrite) (hsynced : ∀ g, s.synced g ≤ s'.synced g) :
    FlusherOk s' q f := by
  cases f with
  | idle | start => trivial
  | look curr | panic => exact h
  | sync curr close stop =>
    obtain ⟨e, q', hq, hc, hstop, hpub⟩ := h
    exact ⟨e, q', hq, hc, hstop, hpub.trans hwrite⟩
  | setFlush curr close stop =>
    obtain ⟨e, q', hq, hc, hstop, hle, hpub⟩ := h
    exact ⟨e, q', hq, hc, hstop, hle.trans (hsynced _), hpub.trans hwrite⟩
  | close curr stop =>
    obtain ⟨e, q', hq, hc, hstop, hle, heq⟩ := h
    exact ⟨e, q', hq, hc, hstop, hle.trans (hsynced _), hflush.trans heq⟩
  | release curr stop =>
    obtain ⟨e, q', hq, hstop, heq, hle⟩ := h
    exact ⟨e, q', hq, hstop, fun hs => hflush.trans (heq hs), fun hc => (hle hc).trans (hsynced _)⟩

theorem dump_synced (h : SyncedOk c w0 d flushed s.written s.synced) (hle : s.written ≤ lsn) :
    SyncedOk c w0 d flushed lsn (s.dump c lsn).synced
      ∧ ∀ g, s.synced g ≤ (s.dump c lsn).synced g := by
  unfold State.dump
  split
  · exact ⟨(h.mono hle).sync _, le_update_self_iff.mpr ((h.written _).trans hle)⟩
  · exact ⟨h.mono hle, fun _ => le_rfl⟩

theorem Inv.advance {fd g v : Nat} {files : Nat → Option Nat} {opened : List Nat}
    {sy : Nat → Nat} (h : Inv c w0 s q d)
    (hfiles : FilesOk c files opened s.closed s.written (some (fd, g)) (live s.flusher q))
    (hg : g = s.curSeg c)
    (hcur : (if w'.isAppendSeg then lsn / c.segSize - 1 else lsn / c.segSize) = s.curSeg c)
    (hact : (w'.isAppendSeg || lsn % c.segSize != 0) = true) (hv : s.written ≤ v) (hlsn : v ≤ lsn)
    (hsy : SyncedOk c w0 d s.sharedFlush v sy) (hmono : ∀ g, s.synced g ≤ sy g)
    (hw : WriterOk c { s with
      openLogFile := some fd, openLogSegNo := g, files := files, opened := opened,
      localWrite := lsn, written := v, synced := sy, writer := w' } w') :
    Inv c w0 { s with
      openLogFile := some fd, openLogSegNo := g, files := files, opened := opened,
      localWrite := lsn, written := v, synced := sy, writer := w' } q d :=
  { h with
    entries := by
      rw [State.curSeg, hcur]
      exact h.entries.mono hv
    files := by
      rw [State.current, if_pos hact]
      exact hfiles.mono hv
    synced := hsy
    writeLe := h.writeLe.trans hv
    writtenLe := hlsn
    startLe := h.startLe.trans hv
    fresh := nofun
    seg _ := by
      refine .inl ⟨?_, hg.trans hcur.symm⟩
      rw [State.current, if_pos hact]
      exact some_ne_none _
    writer := hw
    flusher := h.flusher.mono rfl le_rfl hmono }

theorem mem_of_mem_live (he : e ∈ live f q) : e ∈ q := by
  unfold live at he
  split at he
  · split at he
    · exact mem_cons_of_mem _ he
    · exact he
  · exact he

theorem current_of_some {fd : Nat} (hfile : s.openLogFile = some fd) (hcur : s.current c ≠ none) :
    s.current c = some (fd, s.openLogSegNo) := by
  unfold State.current at hcur ⊢
  split at hcur
  · next hact => rw [if_pos hact, hfile]; rfl
  · exact absurd rfl hcur

theorem curSeg_of_not_appendSeg (hw : s.writer.isAppendSeg = false) :
    s.curSeg c = s.localWrite / c.segSize := by
  rw [State.curSeg, hw]
  rfl

theorem current_of_none (hfile : s.openLogFile = none) : s.current c = none := by
  rw [State.current, hfile]
  split <;> rfl

section

variable (h : Inv c w0 s q d)
include h

theorem Inv.current_seg {g : Nat} (hc : s.current c = some (fd, g)) :
    g = s.curSeg c := by
  obtain ⟨fd', hfd'⟩ : ∃ fd', s.openLogFile = some fd' := by
    refine ne_none_iff_exists'.mp fun hnone => ?_
    rw [current_of_none hnone] at hc
    cases hc
  rcases h.seg (by rw [hfd']; exact some_ne_none _) with ⟨hcur, hseg⟩ | ⟨hnone, -⟩
  · rw [current_of_some hfd' hcur] at hc
    cases hc
    exact hseg
  · rw [hnone] at hc
    cases hc

theorem Inv.openFile (hw : s.writer.isAppendSeg = false)
    (hcur : s.current c = none) (hs : s.openFile (s.curSeg c) fd = some s') :
    ∃ files opened,
      s' = { s with
        openLogFile := some fd, openLogSegNo := s.curSeg c, files := files, opened := opened }
      ∧ FilesOk c files opened s.closed s.written (some (fd, s.curSeg c)) (live s.flusher q) := by
  obtain ⟨hfd, rfl⟩ := ite_some_none_eq_some.mp hs
  have hfiles := h.files
  rw [hcur] at hfiles
  refine ⟨_, _, rfl, hfiles.openNew hfd (fun fd' hf => ?_) fun hclosed => ?_⟩
  · rcases hfiles.owners fd' _ hf with hc | ⟨e, he, hclose, -, hseg⟩
    · cases hc
    · have := (h.entries.track.mem (mem_of_mem_live he)).2.2 hclose
      omega
  · have hle := (hfiles.shut _ hclosed).1
    have hlt := Nat.lt_mul_div_succ s.localWrite c.segSize_pos
    rw [Nat.mul_comm, ← curSeg_of_not_appendSeg hw] at hlt
    have := h.writtenLe
    omega

theorem Inv.switchFile (hpc : s.writer = .page write flush npages startOffset)
    (hs : s.switchFile c (c.pageEnd s.localWrite) fd = some s') :
    ∃ fd' files opened,
      s' = { s with
        openLogFile := some fd', openLogSegNo := s.curSeg c, files := files, opened := opened }
      ∧ FilesOk c files opened s.closed s.written (some (fd', s.curSeg c)) (live s.flusher q) := by
  have hw : s.writer.isAppendSeg = false := by rw [hpc]; rfl
  rw [State.switchFile, prevSeg_pageEnd, ← curSeg_of_not_appendSeg hw] at hs
  split at hs
  · next hswitch =>
    have hcur : s.current c = none := by
      by_cases hnone : s.openLogFile = none
      · exact current_of_none hnone
      · rcases h.seg hnone with ⟨-, hseg⟩ | ⟨hcur, -⟩
        · exact absurd hseg.symm (hswitch.resolve_left hnone)
        · exact hcur
    obtain ⟨files, opened, heq, hfiles⟩ := h.openFile hw hcur hs
    exact ⟨fd, files, opened, heq, hfiles⟩
  · next hsame =>
    cases hs
    obtain ⟨hopen, hseg⟩ := not_or.mp hsame
    have hseg := not_not.mp hseg
    obtain ⟨fd', hfd'⟩ := ne_none_iff_exists'.mp hopen
    rcases h.seg hopen with ⟨hcur, -⟩ | ⟨-, hnext, -⟩
    · have hfiles := h.files
      rw [current_of_some hfd' hcur] at hfiles
      refine ⟨fd', s.files, s.opened, ?_, ?_⟩
      · rw [hseg, ← hfd']
      · rwa [hseg]
    · omega

theorem Inv.pageStep
    (hpc : s.writer = .page write flush npages startOffset) (hlt : s.localWrite < write)
    (hs : pageStep c s write flush npages startOffset fd cacheEnd = some s') : Inv c w0 s' q d := by
  have hw := h.writer
  rw [hpc] at hw
  have hcs : s.curSeg c = s.localWrite / c.segSize := curSeg_of_not_appendSeg (by rw [hpc]; rfl)
  have hoff : npages ≠ 0 → c.blcksz ∣ s.localWrite
      ∧ s.localWrite % c.segSize = startOffset + npages * c.blcksz := by
    rcases hw with ⟨hz, -⟩ | ⟨-, -, hdvd, -, -, hmod⟩
    · exact fun hn => absurd hz hn
    · exact fun _ => ⟨hdvd, hmod⟩
  obtain ⟨s1, lsn, hs1, hlo, hle, hcase⟩ := pageStep_cases hs hlt hoff
  obtain ⟨fd', files, opened, rfl, hfiles⟩ := h.switchFile hpc hs1
  have hwlsn : s.written ≤ lsn := h.writtenLe.trans hlo.le
  obtain ⟨hsy, hmono⟩ := dump_synced (c := c) (s := { s with
    openLogFile := some fd', openLogSegNo := s.curSeg c, files := files, opened := opened })
    h.synced hwlsn
  rcases hcase with ⟨rfl, rfl⟩ | ⟨hne, w', hw', rfl⟩ | ⟨hne, hlsn, hdvd, off, hmod, rfl⟩
  · obtain ⟨hdiv, hz⟩ := segEnd_div (c := c) s.localWrite
    refine h.advance hfiles rfl ?_ rfl hwlsn le_rfl hsy hmono
      ⟨rfl, hz, (Nat.zero_le _).trans_lt hlo, some_ne_none _⟩
    rw [hcs]
    rw [hdiv]
    rfl
  · obtain ⟨hdiv, hz⟩ := seg_of_lt hlo hle hne
    have hseg : w'.isAppendSeg = false := by
      rcases hw' with rfl | ⟨off, rfl⟩ <;> rfl
    refine h.advance hfiles rfl ?_ ?_ hwlsn le_rfl hsy hmono ?_
    · rwa [hseg, hcs]
    · rw [hseg]
      exact bne_iff_ne.mpr hz
    · rcases hw' with rfl | ⟨off, rfl⟩
      · exact rfl
      · exact .inl ⟨rfl, rfl⟩
  · obtain ⟨hdiv, hz⟩ := seg_of_lt hlo hle hne
    exact h.advance hfiles rfl (hdiv.trans hcs.symm) (bne_iff_ne.mpr hz) le_rfl hwlsn
      h.synced (fun _ => le_rfl)
      (.inr ⟨Nat.succ_ne_zero _, hlsn, hdvd, some_ne_none _, hz, hmod⟩)

/-! ## The write worker -/

theorem Inv.publish {v n : Nat} (hw : s.writer.isAppendSeg = false)
    (hw' : w'.isAppendSeg = false) (hle : s.sharedWrite ≤ v) (hv : v ≤ s.written)
    (hn : n ≤ s.addSlotNo) (hpub : ∀ i e, q[i]? = some e → s.headNo + i < n → e.endLsn ≤ v)
    (hok : WriterOk c { s with writer := w', sharedWrite := v, published := n } w') :
    Inv c w0 { s with writer := w', sharedWrite := v, published := n } q d := by
  have hcur : ({ s with writer := w', sharedWrite := v, published := n } : State).current c =
      s.current c := by
    simp only [State.current, hw, hw']
  have hcs : ({ s with writer := w', sharedWrite := v, published := n } : State).curSeg c =
      s.curSeg c := by
    simp only [State.curSeg, hw, hw']
  exact { h with
    entries := by rw [hcs]; exact h.entries
    files := by rw [hcur]; exact h.files
    flushLe := h.flushLe.trans hle
    writeLe := hv
    publishedLe := hn
    published := hpub
    seg := by rw [hcur, hcs]; exact h.seg
    writer := hok
    flusher := h.flusher.mono rfl hle fun _ => le_rfl }

theorem Inv.setWriter (hw : s.writer.isAppendSeg = false)
    (hw' : w'.isAppendSeg = false) (hok : WriterOk c { s with writer := w' } w') :
    Inv c w0 { s with writer := w' } q d :=
  h.publish hw hw' le_rfl h.writeLe h.publishedLe h.published hok

theorem Inv.append {fd' : Nat} {close : Bool}
    (hs : s.append c fd' close = some s') (hfile : s.openLogFile = some fd')
    (hcur : s.current c = some (fd', s.openLogSegNo)) (hseg : s.openLogSegNo = s.curSeg c)
    (hwritten : s.written = s.localWrite) (hpos : 0 < s.localWrite)
    (hprev : c.prevSeg s.localWrite = s.openLogSegNo)
    (hclose : close = true ↔ s.localWrite % c.segSize = 0)
    (hcur' : ({ s with writer := w' } : State).current c
      = if close then none else some (fd', s.openLogSegNo))
    (hcs' : ({ s with writer := w' } : State).curSeg c =
      if close then s.curSeg c + 1 else s.curSeg c)
    (hok : WriterOk c { s with writer := w' } w') :
    Inv c w0 { s' with writer := w' } (q ++ [⟨fd', s.openLogSegNo, s.localWrite, close⟩]) d := by
  obtain ⟨hfree, rfl⟩ := ite_some_none_eq_some.mp hs
  rw [h.add] at hfree
  obtain ⟨hflusher, hlive⟩ := h.flusher.push ⟨fd', s.openLogSegNo, s.localWrite, close⟩
  have hfiles := h.files
  rw [hcur] at hfiles
  exact { h with
    queue := by
      rw [h.add]
      exact h.queue.push _ (Nat.two_pos.trans_le c.two_le) hfree
    add := by
      rw [h.add, length_append]
      rfl
    entries := by
      have hpush := h.entries.push (e := ⟨fd', s.openLogSegNo, s.localWrite, close⟩) hseg
        ⟨hpos, hprev, hclose, hwritten.symm.le⟩
        (fun e he => hwritten ▸ (h.entries.entries e he).written)
        (h.flushLe.trans (h.writeLe.trans h.writtenLe))
      rwa [← hcs'] at hpush
    files := by
      have hpush := hfiles.push (e := ⟨fd', s.openLogSegNo, s.localWrite, close⟩)
      rwa [← hcur', ← hlive] at hpush
    handed := by
      have hle := h.startLe.trans h.writtenLe
      rw [getLast?_append]
      exact Nat.max_eq_left hle
    publishedLe := Nat.le_succ_of_le h.publishedLe
    published := fun i e he hlt => by
      have hi : i < q.length := by
        have hadd := h.add
        have hle := h.publishedLe
        change s.headNo + i < s.published at hlt
        omega
      rw [getElem?_append_left hi] at he
      exact h.published i e he hlt
    fresh := fun hnone => by
      rw [show s.openLogFile = none from hnone] at hfile
      cases hfile
    seg := fun _ => by
      change ({ s with writer := w' } : State).current c ≠ none
        ∧ s.openLogSegNo = ({ s with writer := w' } : State).curSeg c
        ∨ ({ s with writer := w' } : State).current c = none
          ∧ s.openLogSegNo + 1 = ({ s with writer := w' } : State).curSeg c ∧
            s.localWrite = s.localWrite
      rw [hcur', hcs', hseg]
      cases close with
      | true => exact .inr ⟨rfl, rfl, rfl⟩
      | false => exact .inl ⟨some_ne_none _, rfl⟩
    writer := by
      cases w' <;> exact hok
    flusher := hflusher.mono rfl le_rfl fun _ => le_rfl }

theorem Inv.startWrite (hs : startWrite s write flush = some s') : Inv c w0 s' q d := by
  unfold WalFlush.startWrite at hs
  split at hs
  · next hidle =>
    have hw := h.writer
    rw [hidle] at hw
    have hsame : { s with localWrite := s.sharedWrite } = s :=
      congrArg (fun v => { s with localWrite := v }) hw.2
    rw [hsame] at hs
    dsimp only at hs
    split at hs
    · cases hs
      exact h
    · cases hs
      exact h.setWriter (by rw [hidle]; rfl) rfl (.inl ⟨rfl, hw.1⟩)
  · cases hs

/-- A flush request that is not served yet makes an entry, and not for a
complete segment. -/
def WriterStepOk (c : Conf) (s : State) : Writer → Prop
  | .flushRequest flush =>
    s.localFlush < flush ∧ s.localFlush < s.localWrite →
      c.syncMethod.isOpen = false ∧ (s.openLogFile = none → s.localWrite % c.segSize ≠ 0)
  | _ => True

instance WriterStepOk.decidable (c : Conf) (s : State) : ∀ w, Decidable (WriterStepOk c s w)
  | .flushRequest flush => inferInstanceAs (Decidable
      (s.localFlush < flush ∧ s.localFlush < s.localWrite →
        c.syncMethod.isOpen = false ∧ (s.openLogFile = none → s.localWrite % c.segSize ≠ 0)))
  | .idle | .page _ _ _ _ | .appendSeg _ _ | .appendFlush | .publish => .isTrue trivial

/-- A flush request makes the write worker append, with a file for an
incomplete segment. -/
theorem Inv.flushRequest (hpc : s.writer = .flushRequest flush) (hok : WriterStepOk c s s.writer)
    (hs : writerStep c s fd cacheEnd = some s') : Inv c w0 s' q d := by
  have hw : s.written = s.localWrite := by
    have := h.writer
    rwa [hpc] at this
  have hseg : s.writer.isAppendSeg = false := by rw [hpc]; rfl
  have hcs : s.curSeg c = s.localWrite / c.segSize := curSeg_of_not_appendSeg hseg
  rw [hpc] at hok
  simp only [writerStep, hpc] at hs
  split at hs
  · next hneed =>
    obtain ⟨hopen, hfresh⟩ := hok hneed
    rw [hopen, if_neg Bool.false_ne_true] at hs
    split at hs
    · next hnone =>
      have hz := hfresh hnone
      obtain ⟨s1, hs1, rfl⟩ := map_eq_some_iff.mp hs
      rw [prevSeg_of_mod_ne hz, ← hcs] at hs1
      obtain ⟨files, opened, rfl, hfiles⟩ := h.openFile hseg (current_of_none hnone) hs1
      exact h.advance hfiles rfl hcs.symm (bne_iff_ne.mpr hz) le_rfl h.writtenLe h.synced
        (fun _ => le_rfl) ⟨hw, hz, some_ne_none _⟩
    · next hsome =>
      cases hs
      refine h.setWriter hseg rfl ⟨hw, fun hz => ?_, hsome⟩
      rcases h.seg hsome with ⟨hcur, -⟩ | ⟨-, -, hflush⟩
      · apply hcur
        rw [State.current, hseg, hz]
        rfl
      · omega
  · cases hs
    exact h.setWriter hseg rfl hw

theorem Inv.writerStep (hok : WriterStepOk c s s.writer)
    (hs : writerStep c s fd cacheEnd = some s') : ∃ q', Inv c w0 s' q' d := by
  unfold WalFlush.writerStep at hs
  have hw := h.writer
  cases hpc : s.writer with
  | idle =>
    simp only [hpc] at hs
    cases hs
  | page write flush npages startOffset =>
    simp only [hpc] at hs
    split at hs
    · next hlt => exact ⟨q, h.pageStep hpc hlt hs⟩
    · next hge =>
      cases hs
      rw [hpc] at hw
      rcases hw with ⟨-, hwr⟩ | ⟨-, hlt, -⟩
      · exact ⟨q, h.setWriter (by rw [hpc]; rfl) rfl hwr⟩
      · exact absurd hlt hge
  | appendSeg write flush =>
    rw [hpc] at hw
    obtain ⟨hwr, hz, hpos, _⟩ := hw
    simp only [hpc] at hs
    obtain ⟨fd', hfd', hs⟩ := bind_eq_some_iff.mp hs
    obtain ⟨s1, hs1, rfl⟩ := map_eq_some_iff.mp hs
    have hcur : s.current c = some (fd', s.openLogSegNo) := by
      simp only [State.current, hpc, Writer.isAppendSeg, Bool.true_or, if_true, hfd', map_some]
    have hcs : s.curSeg c + 1 = s.localWrite / c.segSize := by
      have := prevSeg_of_mod_eq hpos hz
      simp only [State.curSeg, hpc, Writer.isAppendSeg, if_true]
      omega
    have hseg := h.current_seg hcur
    refine ⟨_, h.append hs1 hfd' hcur hseg hwr hpos ?_ (iff_of_true rfl hz) ?_ ?_ (.inl ⟨rfl, hwr⟩)⟩
    · have := prevSeg_of_mod_eq hpos hz
      omega
    · simp only [State.current, Writer.isAppendSeg, hz, Bool.false_or, bne_self_eq_false,
        Bool.false_eq_true, if_false, if_true]
    · simp only [State.curSeg, Writer.isAppendSeg, Bool.false_eq_true, if_false, if_true]
      exact hcs.symm
  | flushRequest flush => exact ⟨q, h.flushRequest hpc hok hs⟩
  | appendFlush =>
    rw [hpc] at hw
    obtain ⟨hwr, hz, _⟩ := hw
    simp only [hpc] at hs
    obtain ⟨fd', hfd', hs⟩ := bind_eq_some_iff.mp hs
    obtain ⟨s1, hs1, rfl⟩ := map_eq_some_iff.mp hs
    have hcur : s.current c = some (fd', s.openLogSegNo) := by
      simp only [State.current, hpc, Writer.isAppendSeg, Bool.false_or, bne_iff_ne.mpr hz, if_true,
        hfd', map_some]
    have hseg := h.current_seg hcur
    have hpos : 0 < s.localWrite := by
      refine Nat.pos_of_ne_zero fun hzero => hz ?_
      rw [hzero, Nat.zero_mod]
    refine ⟨_, h.append hs1 hfd' hcur hseg hwr hpos ?_ (iff_of_false Bool.false_ne_true hz)
      ?_ ?_ hwr⟩
    · rw [prevSeg_of_mod_ne hz, hseg, curSeg_of_not_appendSeg (by rw [hpc]; rfl)]
    · rw [if_neg Bool.false_ne_true, ← hcur, State.current, State.current, hpc]
      rfl
    · rw [if_neg Bool.false_ne_true, State.curSeg, State.curSeg, hpc]
      rfl
  | publish =>
    rw [hpc] at hw
    simp only [hpc] at hs
    cases hs
    refine ⟨q, h.publish (by rw [hpc]; rfl) rfl (h.writeLe.trans h.writtenLe) hw.symm.le le_rfl
      (fun i e he _ => ?_) ⟨hw, rfl⟩⟩
    exact hw ▸ (h.entries.entries e (mem_of_getElem? he)).written

end

end PolarDB.WalFlush
