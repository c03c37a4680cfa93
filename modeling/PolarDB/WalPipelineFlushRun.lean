import PolarDB.WalPipelineFlushWrite

/-!
# What is reported as flushed is synced

The flush worker keeps the invariant as well: it closes a file exactly behind
the entry of a complete segment, and the entries that it merges with later ones
are not the last. But the entry of a complete segment is in the ring before the
write worker publishes what it wrote, and the flush worker must not take it
until then. `flushOk_fails` has a run for this and for each of the two flush
requests that `WriterStepOk` leaves out.
-/

namespace PolarDB.WalFlush

open List Option

variable {c : Conf} {s s' : State} {w0 d : Nat} {q : List Unflushed} {e : Unflushed}

/-! ## The flush worker -/

variable {curr fd flushed t written : Nat} {stop : Bool}

/-- A file is closed exactly behind the entry of a complete segment. -/
theorem decideFlush_spec {files : Nat → Option Nat} {opened closed : List Nat}
    {cur : Option (Nat × Nat)} (hq : QueueOk c (e :: q) d t written flushed)
    (hf : FilesOk c files opened closed written cur (e :: q)) :
    ∃ flush stop, decideFlush e q.head? = (flush, e.needClose, stop) ∧ (stop = false → q ≠ [])
      ∧ (flush = false → e.needClose = false ∧ stop = false) := by
  cases q with
  | nil => exact ⟨true, true, rfl, nofun, nofun⟩
  | cons next q =>
    have hfd := hf.fd_eq_iff mem_cons_self (mem_cons_of_mem e mem_cons_self)
    simp only [head?_cons, decideFlush]
    by_cases heq : e.fd = next.fd
    · have hclose : e.needClose = false := by
        refine Bool.eq_false_iff.mpr fun hc => ?_
        exact (hq.lt_of_close hc mem_cons_self).ne (hfd.mp heq)
      rw [if_neg (not_not.mpr heq), hclose]
      split
      · exact ⟨true, false, rfl, fun _ => cons_ne_nil _ _, nofun⟩
      · exact ⟨false, false, rfl, fun _ => cons_ne_nil _ _, fun _ => ⟨rfl, rfl⟩⟩
    · have hclose : e.needClose = true := by
        by_contra hc
        exact heq (hfd.mpr (hq.eq_of_not_close (Bool.eq_false_iff.mpr hc)).symm)
      rw [if_pos heq, hclose]
      exact ⟨true, false, rfl, fun _ => cons_ne_nil _ _, nofun⟩

theorem Inv.setFlusher {f' : Flusher} {n : Nat} {sy : Nat → Nat} (h : Inv c w0 s q d)
    (hhead : ({ s with flusher := f', delSlotNo := n, synced := sy } : State).headNo = s.headNo)
    (hdel : n = s.headNo + (if f'.advanced then 1 else 0)) (hlive : live f' q = live s.flusher q)
    (hsy : SyncedOk c w0 d s.sharedFlush s.written sy)
    (hok : FlusherOk { s with flusher := f', delSlotNo := n, synced := sy } q f') :
    Inv c w0 { s with flusher := f', delSlotNo := n, synced := sy } q d :=
  { h with
    queue := by rw [hhead]; exact h.queue
    add := by rw [hhead]; exact h.add
    del := by rw [hhead]; exact hdel
    published := by rw [hhead]; exact h.published
    files := by
      rw [hlive]
      exact h.files
    synced := hsy
    writer := by
      have := h.writer
      cases hw : s.writer <;> rw [hw] at this <;> exact this
    flusher := hok }

theorem Inv.first (h : Inv c w0 s (e :: q) d) : s.slots (s.headNo % c.arraySize) = some e :=
  h.queue.first (Nat.two_pos.trans_le c.two_le)

variable {synced : Nat → Nat}

theorem SyncedOk.flush
    (h : SyncedOk c w0 d flushed written synced) (hq : QueueOk c (e :: q) d t written flushed)
    (hle : e.endLsn ≤ synced e.segNo) : SyncedOk c w0 d e.endLsn written synced := by
  refine ⟨fun lsn hlsn hlt => ?_, h.written⟩
  by_cases hd : lsn < d * c.segSize
  · exact h.below lsn hlsn (.inl hd)
  · have hend := (hq.entries e mem_cons_self).lt
    have hseg := hq.track.1
    rw [hseg] at hend hle
    have hdiv : lsn / c.segSize = d := Nat.div_eq_of_lt_le (by omega) (by omega)
    rw [hdiv]
    omega

theorem SyncedOk.pop
    (h : SyncedOk c w0 d flushed written synced) (hq : QueueOk c (e :: q) d t written flushed)
    (hle : e.needClose = true → e.endLsn ≤ synced e.segNo) :
    SyncedOk c w0 (if e.needClose then d + 1 else d) flushed written synced := by
  split
  · next hc =>
    have hflush := h.flush hq (hle hc)
    have hend := (hq.entries e mem_cons_self).end_eq hc
    rw [hq.track.1] at hend
    refine ⟨fun lsn hlsn hlt => ?_, h.written⟩
    rcases hlt with hlt | hlt
    · exact hflush.below lsn hlsn (.inr (by omega))
    · exact h.below lsn hlsn (.inr hlt)
  · exact h

/-- The flush worker takes an entry when the call of `XLogWrite` that appended
it has published `Write`. -/
def FlusherStepOk (s : State) : Flusher → Prop
  | .look curr => curr < s.published
  | _ => True

def StepOk (c : Conf) (s : State) : Action → Prop
  | .writer _ _ => WriterStepOk c s s.writer
  | .flusher => FlusherStepOk s s.flusher
  | .write _ _ | .flush => True

instance FlusherStepOk.decidable (s : State) : ∀ f, Decidable (FlusherStepOk s f)
  | .look curr => inferInstanceAs (Decidable (curr < s.published))
  | .idle | .start | .sync .. | .setFlush .. | .close .. | .release .. | .panic => .isTrue trivial

instance StepOk.decidable (c : Conf) (s : State) : ∀ a, Decidable (StepOk c s a)
  | .writer _ _ => WriterStepOk.decidable c s s.writer
  | .flusher => FlusherStepOk.decidable s s.flusher
  | .write _ _ | .flush => .isTrue trivial

section

variable (h : Inv c w0 s q d)
include h

section

variable (hs : flusherStep c s = some s')
include hs

theorem Inv.look (hpc : s.flusher = .look curr) (hok : FlusherStepOk s s.flusher) :
    Inv c w0 s' q d := by
  have hne : q ≠ [] := by
    have := h.flusher
    rwa [hpc] at this
  obtain ⟨e, q, rfl⟩ := exists_cons_of_ne_nil hne
  have hhead : s.headNo = curr := by simp only [State.headNo, hpc]
  have hdel := h.del
  have hfirst := h.first
  have hsecond := h.queue.second c.two_le
  have hfiles := h.files
  rw [hhead] at hfirst hsecond hdel
  simp only [hpc, Flusher.advanced, Bool.false_eq_true, if_false, Nat.add_zero] at hdel
  rw [getElem?_cons_succ, ← head?_eq_getElem?, ← hdel] at hsecond
  rw [hpc] at hfiles
  have hpub : e.endLsn ≤ s.sharedWrite := by
    rw [hpc] at hok
    exact h.published 0 e rfl (hhead ▸ hok)
  obtain ⟨flush, stop, hdec, hmore, hskip⟩ := decideFlush_spec h.entries hfiles
  simp only [WalFlush.flusherStep, hpc, hfirst, map_some, hsecond, hdec] at hs
  cases hs
  cases flush with
  | true =>
    exact h.setFlusher hhead.symm (by rw [hhead, hdel]; rfl) (by rw [hpc]; rfl) h.synced
      ⟨e, q, rfl, rfl, hmore, hpub⟩
  | false =>
    obtain ⟨hclose, hstop⟩ := hskip rfl
    refine h.setFlusher hhead.symm (by rw [hhead, hdel]; rfl) ?_ h.synced
      ⟨e, q, rfl, hmore, fun hst => ?_, fun hc => ?_⟩
    · rw [hpc]
      simp only [live, hclose, Bool.false_eq_true, if_false]
    · rw [hstop] at hst
      cases hst
    · rw [hclose] at hc
      cases hc

theorem Inv.sync {close : Bool} (hpc : s.flusher = .sync curr close stop) : Inv c w0 s' q d := by
  have hf := h.flusher
  rw [hpc] at hf
  obtain ⟨e, q, rfl, hclose, hmore, hpub⟩ := hf
  have hhead : s.headNo = curr := by simp only [State.headNo, hpc]
  have hfirst := hhead ▸ h.first
  have hfiles := h.files
  rw [hpc] at hfiles
  have hfile := hfiles.entries e mem_cons_self
  simp only [WalFlush.flusherStep, hpc, hfirst, map_some, hfile] at hs
  cases hs
  have hdel := h.del
  rw [hpc] at hdel
  refine h.setFlusher hhead.symm hdel (by rw [hpc]; rfl) (h.synced.sync _)
    ⟨e, q, rfl, hclose, hmore, ?_, hpub⟩
  dsimp only
  rw [Function.update_self]
  exact (h.entries.entries e mem_cons_self).written

theorem Inv.setFlush {close : Bool} (hpc : s.flusher = .setFlush curr close stop) :
    Inv c w0 s' q d := by
  have hf := h.flusher
  rw [hpc] at hf
  obtain ⟨e, q, rfl, hclose, hmore, hle, hpub⟩ := hf
  have hhead : s.headNo = curr := by simp only [State.headNo, hpc]
  have hfirst := hhead ▸ h.first
  simp only [WalFlush.flusherStep, hpc, hfirst] at hs
  cases hs
  have hnext : ∀ f' : Flusher, f'.advanced = true → live f' (e :: q) = live s.flusher (e :: q) →
      ({ s with sharedFlush := e.endLsn, flusher := f' } : State).headNo = s.headNo →
      FlusherOk { s with sharedFlush := e.endLsn, flusher := f' } (e :: q) f' →
      Inv c w0 { s with sharedFlush := e.endLsn, flusher := f' } (e :: q) d := by
    intro f' hadv hlive hhd hf'
    have hdel := h.del
    rw [hpc] at hdel
    exact { h with
      queue := by rw [hhd]; exact h.queue
      add := by rw [hhd]; exact h.add
      del := by rw [hhd]; dsimp only; rw [hadv]; exact hdel
      published := by rw [hhd]; exact h.published
      entries := h.entries.flush
      files := by dsimp only; rw [hlive]; exact h.files
      synced := h.synced.flush h.entries hle
      flushLe := hpub
      flusher := hf' }
  cases hc : e.needClose with
  | true =>
    rw [hclose, hc]
    exact hnext (.close curr stop) rfl (by rw [hpc]; rfl) hhead.symm
      ⟨e, q, rfl, hc, hmore, hle, rfl⟩
  | false =>
    rw [hclose, hc]
    refine hnext (.release curr stop) rfl ?_ hhead.symm
      ⟨e, q, rfl, hmore, fun _ => rfl, fun _ => hle⟩
    rw [hpc]
    simp only [live, hc, Bool.false_eq_true, if_false]

theorem Inv.close (hpc : s.flusher = .close curr stop) : Inv c w0 s' q d := by
  have hf := h.flusher
  rw [hpc] at hf
  obtain ⟨e, q, rfl, hclose, hmore, hle, hflush⟩ := hf
  have hhead : s.headNo = curr := by simp only [State.headNo, hpc]
  have hfirst := hhead ▸ h.first
  have hfiles := h.files
  rw [hpc] at hfiles
  have hentry := h.entries.entries e mem_cons_self
  simp only [WalFlush.flusherStep, hpc, hfirst, map_some, hfiles.entries e mem_cons_self] at hs
  cases hs
  have hdel := h.del
  rw [hpc] at hdel
  exact { h with
    queue := by rw [← hhead]; exact h.queue
    add := by rw [← hhead]; exact h.add
    del := by rw [← hhead]; exact hdel
    published := by rw [← hhead]; exact h.published
    files := by
      simp only [live, hclose]
      refine hfiles.close hclose (fun e' he' => h.entries.lt_of_close hclose he')
        (fun fd g hc => ?_) ?_
      · have := (h.entries.track.mem mem_cons_self).2.2 hclose
        rwa [h.current_seg hc]
      · rw [← hentry.end_eq hclose]
        exact hentry.written
    flusher := ⟨e, q, rfl, hmore, fun _ => hflush, fun _ => hle⟩ }

theorem Inv.release (hpc : s.flusher = .release curr stop) : ∃ q' d', Inv c w0 s' q' d' := by
  have hf := h.flusher
  rw [hpc] at hf
  obtain ⟨e, q, rfl, hmore, hflush, hle⟩ := hf
  have hhead : s.headNo = curr := by simp only [State.headNo, hpc]
  have hdel := h.del
  have hadd := h.add
  have hqueue := h.queue
  have hfiles := h.files
  rw [hhead] at hdel hadd hqueue
  rw [hpc] at hdel hfiles
  simp only [WalFlush.flusherStep, hpc] at hs
  cases hs
  have hhd : ({ s with
      slots := Function.update s.slots (curr % c.arraySize) none
      flusher := if stop then .idle else .look (curr + 1) } : State).headNo = curr + 1 := by
    cases stop with
    | true => exact hdel
    | false => rfl
  refine ⟨q, if e.needClose then d + 1 else d, ?_⟩
  exact { h with
    queue := by rw [hhd]; exact hqueue.pop
    add := by
      rw [hhd]
      rw [hadd, length_cons]
      omega
    del := by
      rw [hhd]
      cases stop with
      | true | false => exact hdel
    entries := h.entries.pop
    published := fun i e' he' hlt => by
      rw [hhd, Nat.add_assoc, Nat.add_comm 1 i, ← hhead] at hlt
      exact h.published (i + 1) e' he' hlt
    files := by
      have hlive : live (if stop then Flusher.idle else .look (curr + 1)) q = q := by
        cases stop <;> rfl
      rw [hlive]
      cases hc : e.needClose with
      | true =>
        simp only [live, hc] at hfiles
        exact hfiles
      | false =>
        simp only [live, hc] at hfiles
        exact hfiles.pop hc
    handed := by
      have hhanded := h.handed
      cases q with
      | nil =>
        have hstop : stop = true := by
          by_contra hst
          exact hmore (Bool.eq_false_iff.mpr hst) rfl
        exact hhanded.trans (hflush hstop).symm
      | cons e' q =>
        exact hhanded
    synced := h.synced.pop h.entries hle
    fresh := fun hnone => absurd (h.fresh hnone).1 (cons_ne_nil _ _)
    flusher := by
      cases stop with
      | true => trivial
      | false => exact hmore rfl }

theorem Inv.flusherStep (hok : FlusherStepOk s s.flusher) : ∃ q' d', Inv c w0 s' q' d' := by
  cases hpc : s.flusher with
  | idle | panic =>
    simp only [WalFlush.flusherStep, hpc] at hs
    cases hs
  | start =>
    have hhead : s.headNo = s.delSlotNo := by simp only [State.headNo, hpc]
    simp only [WalFlush.flusherStep, hpc] at hs
    split at hs
    · cases hs
      exact ⟨q, d, h.setFlusher hhead.symm hhead.symm (by rw [hpc]; rfl) h.synced trivial⟩
    · next hsome =>
      cases hs
      refine ⟨q, d, h.setFlusher hhead.symm hhead.symm (by rw [hpc]; rfl) h.synced fun hq => ?_⟩
      have hfirst := h.queue.first (Nat.two_pos.trans_le c.two_le)
      rw [hhead, hq] at hfirst
      exact hsome hfirst
  | look curr => exact ⟨q, d, h.look hs hpc hok⟩
  | sync curr close stop => exact ⟨q, d, h.sync hs hpc⟩
  | setFlush curr close stop => exact ⟨q, d, h.setFlush hs hpc⟩
  | close curr stop => exact ⟨q, d, h.close hs hpc⟩
  | release curr stop => exact h.release hs hpc

end

/-! ## Runs -/

theorem Inv.startFlush (hs : startFlush s = some s') : Inv c w0 s' q d := by
  obtain ⟨hidle, hs⟩ := ite_none_right_eq_some.mp hs
  have hhead : s.headNo = s.delSlotNo := by simp only [State.headNo, hidle]
  split at hs
  · cases hs
    exact h
  · cases hs
    exact h.setFlusher hhead.symm hhead.symm (by rw [hidle]; rfl) h.synced trivial

theorem Inv.step {a : Action} (hok : StepOk c s a)
    (hs : step c s a = some s') : ∃ q' d', Inv c w0 s' q' d' := by
  cases a with
  | write write flush => exact ⟨q, d, h.startWrite hs⟩
  | writer fd cacheEnd =>
    obtain ⟨q', h'⟩ := h.writerStep hok hs
    exact ⟨q', d, h'⟩
  | flush => exact ⟨q, d, h.startFlush hs⟩
  | flusher => exact h.flusherStep hs hok

def State.busy (c : Conf) (s : State) : Option Unflushed :=
  match s.flusher with
  | .sync curr _ _ | .close curr _ => s.slots (curr % c.arraySize)
  | _ => none

/-- What the pipeline promises, WAL having been flushed up to `start` before. -/
structure FlushOk (c : Conf) (start : Nat) (s : State) : Prop where
  flushLe : s.sharedFlush ≤ s.sharedWrite
  synced : ∀ lsn, start ≤ lsn → lsn < s.sharedFlush → lsn < s.synced (lsn / c.segSize)
  written : ∀ g, s.synced g ≤ s.written
  closedOnce : s.closed.Nodup
  closed : ∀ g ∈ s.closed, (g + 1) * c.segSize ≤ s.written ∧ ∀ fd, s.files fd ≠ some g
  ownFile : ∀ e, s.busy c = some e → s.files e.fd = some e.segNo
  noPanic : s.flusher ≠ .panic
  drained : s.writer = .idle → (∀ i < c.arraySize, s.slots i = none) →
    s.sharedFlush = max s.localFlush start
      ∧ ∀ g ∈ s.opened, g ∈ s.closed ∨ g = s.written / c.segSize ∧ s.written % c.segSize ≠ 0

theorem Inv.flushOk : FlushOk c w0 s := by
  have hf := h.flusher
  refine ⟨h.flushLe, fun lsn hle hlt => h.synced.below lsn hle (.inr hlt), h.synced.written,
    h.files.nodup, h.files.shut, fun e he => ?_, fun hpanic => ?_, fun hidle hempty => ?_⟩
  · have hfiles := h.files
    unfold State.busy at he
    split at he
    · next curr close stop hpc =>
      rw [hpc] at hf hfiles
      obtain ⟨e', q', rfl, -⟩ := hf
      have hfirst := h.first
      simp only [State.headNo, hpc, he] at hfirst
      cases hfirst
      exact hfiles.entries e mem_cons_self
    · next curr stop hpc =>
      rw [hpc] at hf hfiles
      obtain ⟨e', q', rfl, -⟩ := hf
      have hfirst := h.first
      simp only [State.headNo, hpc, he] at hfirst
      cases hfirst
      exact hfiles.entries e mem_cons_self
    · cases he
  · rwa [hpanic] at hf
  · have hq := h.queue.eq_nil (Nat.two_pos.trans_le c.two_le) hempty
    subst hq
    refine ⟨h.handed.symm, fun g hg => (h.files.kept g hg).imp_right fun ⟨fd, hfd⟩ => ?_⟩
    have hw := h.writer
    rw [hidle] at hw
    rcases h.files.owners fd g hfd with hcur | ⟨e, he, -⟩
    · rw [h.current_seg hcur, hw.1]
      unfold State.current at hcur
      unfold State.curSeg
      rw [hidle] at hcur ⊢
      refine ⟨rfl, fun hz => ?_⟩
      rw [hz] at hcur
      cases hcur
    · exact absurd (mem_of_mem_live he) not_mem_nil

end

theorem openFile_sharedFlush {segNo : Nat} (hs : s.openFile segNo fd = some s') :
    s'.sharedFlush = s.sharedFlush := by
  obtain ⟨-, rfl⟩ := ite_some_none_eq_some.mp hs
  rfl

variable {cacheEnd : Bool}

theorem pageStep_sharedFlush {write flush npages startOffset : Nat}
    (hs : pageStep c s write flush npages startOffset fd cacheEnd = some s') :
    s'.sharedFlush = s.sharedFlush := by
  obtain ⟨s1, hs1, rfl⟩ := map_eq_some_iff.mp hs
  have hflush : s1.sharedFlush = s.sharedFlush := by
    unfold State.switchFile at hs1
    split at hs1
    · exact openFile_sharedFlush hs1
    · cases hs1
      rfl
  rw [apply_ite State.sharedFlush]
  exact (ite_self _).trans hflush

theorem append_sharedFlush {close : Bool} (hs : s.append c fd close = some s') :
    s'.sharedFlush = s.sharedFlush := by
  obtain ⟨-, rfl⟩ := ite_some_none_eq_some.mp hs
  rfl

theorem writerStep_sharedFlush (hs : writerStep c s fd cacheEnd = some s') :
    s'.sharedFlush = s.sharedFlush := by
  unfold writerStep at hs
  split at hs
  · cases hs
  · split at hs
    · exact pageStep_sharedFlush hs
    · cases hs
      rfl
  · obtain ⟨fd', -, hs⟩ := bind_eq_some_iff.mp hs
    obtain ⟨s1, hs1, rfl⟩ := map_eq_some_iff.mp hs
    have := append_sharedFlush hs1
    exact this
  · split at hs
    · split at hs
      · cases hs
        rfl
      · split at hs
        · obtain ⟨s1, hs1, rfl⟩ := map_eq_some_iff.mp hs
          have := openFile_sharedFlush hs1
          exact this
        · cases hs
          rfl
    · cases hs
      rfl
  · obtain ⟨fd', -, hs⟩ := bind_eq_some_iff.mp hs
    obtain ⟨s1, hs1, rfl⟩ := map_eq_some_iff.mp hs
    have := append_sharedFlush hs1
    exact this
  · cases hs
    rfl

theorem flusherStep_sharedFlush (hs : flusherStep c s = some s') : s'.sharedFlush = s.sharedFlush
      ∨ ∃ curr close stop e, s.flusher = .setFlush curr close stop
        ∧ s.slots (curr % c.arraySize) = some e ∧ s'.sharedFlush = e.endLsn := by
  unfold flusherStep at hs
  split at hs
  · cases hs
  · cases hs
  · split at hs <;> (cases hs; exact .inl rfl)
  · obtain ⟨e, -, rfl⟩ := map_eq_some_iff.mp hs
    exact .inl rfl
  · obtain ⟨e, -, rfl⟩ := map_eq_some_iff.mp hs
    split <;> exact .inl rfl
  · next curr close stop hpc =>
    obtain ⟨e, he, rfl⟩ := map_eq_some_iff.mp hs
    exact .inr ⟨curr, close, stop, e, hpc, he, rfl⟩
  · obtain ⟨e, -, rfl⟩ := map_eq_some_iff.mp hs
    split <;> exact .inl rfl
  · cases hs
    exact .inl rfl

theorem Inv.flush_mono (h : Inv c w0 s q d) {a : Action} (hs : WalFlush.step c s a = some s') :
    s.sharedFlush ≤ s'.sharedFlush := by
  cases a with
  | write write flush | flush =>
    obtain ⟨-, hs⟩ := ite_none_right_eq_some.mp hs
    split at hs <;> (cases hs; exact le_rfl)
  | writer fd cacheEnd => exact (writerStep_sharedFlush hs).symm.le
  | flusher =>
    rcases flusherStep_sharedFlush hs with heq | ⟨curr, close, stop, e, hpc, he, heq⟩
    · exact heq.symm.le
    · have hf := h.flusher
      rw [hpc] at hf
      obtain ⟨e', q', rfl, -⟩ := hf
      have hfirst := h.first
      simp only [State.headNo, hpc, he] at hfirst
      cases hfirst
      rw [heq]
      exact h.entries.flushed e mem_cons_self

/-- As long as flush requests make entries for incomplete segments and the
flush worker takes only entries of calls that have published what they wrote,
the pipeline keeps its promise. -/
theorem flushOk_of_meets (c : Conf) (start : Nat) (as : List Action) (s : State)
    (hm : Meets (step c) (StepOk c) (.init start) as)
    (hs : exec (step c) (.init start) as = some s) :
    FlushOk c start s ∧ ∀ a s', step c s a = some s' → s.sharedFlush ≤ s'.sharedFlush := by
  obtain ⟨q, d, h⟩ := exec_invariant_of_meets (fun _ s => ∃ q d, Inv c start s q d)
    (fun _ s a s' ⟨_, _, h⟩ hok hs => h.step hok hs) ⟨[], _, Inv.init c start⟩ hm hs
  exact ⟨h.flushOk, fun a s' hs => h.flush_mono hs⟩

/-! ## A run, and runs that fail -/

/-- Segments of two pages of four bytes, two slots. -/
def smallConf (syncMethod : SyncMethod) : Conf where
  blcksz := 4
  segPages := 2
  arraySize := 2
  syncMethod := syncMethod
  blcksz_pos := by decide
  segPages_pos := by decide
  two_le := by decide

/-- A segment and a half is written, then both entries are flushed. -/
def crossSegment : List Action :=
  [.write 12 12, .writer 3 false, .writer 3 false, .writer 3 false, .writer 4 false,
    .writer 4 false,
    .writer 4 false, .writer 4 false, .writer 4 false, .flush, .flusher, .flusher, .flusher,
      .flusher,
    .flusher, .flusher, .flusher, .flusher, .flusher, .flusher]

/-- The flush worker is at work when the second half of a segment is written. -/
def flushBeforePublish : List Action :=
  [.write 4 0, .writer 3 false, .writer 3 false, .writer 3 false, .writer 3 false, .flush,
    .write 8 8, .writer 3 false, .writer 3 false, .flusher, .flusher, .flusher, .flusher]

def halfSegment : List Action :=
  [.write 4 4, .writer 3 false, .writer 3 false, .writer 3 false, .writer 3 false]

/-- A first request to flush at the end of a segment, and the next page. -/
def flushAtBoundary : List Action :=
  [.write 8 8, .writer 3 false, .writer 3 false, .writer 3 false, .writer 3 false,
    .write 12 8, .writer 4 false, .writer 4 false, .writer 4 false, .writer 4 false,
    .flush, .flusher, .flusher, .flusher, .flusher, .flusher]

theorem flushOk_crossSegment : ∃ s, exec (step (smallConf .fsync)) (.init 0) crossSegment = some s
      ∧ s.sharedFlush = 12 ∧ s.closed = [0]
      ∧ FlushOk (smallConf .fsync) 0 s := by
  refine exec_eval (E := fun s => s.sharedFlush = 12 ∧ s.closed = [0]) (by decide)
    fun s hs ⟨hflush, hclosed⟩ => ?_
  exact ⟨hflush, hclosed, (flushOk_of_meets (smallConf .fsync) 0 crossSegment s (by decide) hs).1⟩

/-- Without the conditions: the flushed position gets ahead of the written one;
with a sync method where a write syncs, half a segment is never reported as
flushed; the file of a complete segment stays open. -/
theorem flushOk_fails : (∃ s, exec (step (smallConf .fsync)) (.init 0) flushBeforePublish = some s
      ∧ s.sharedWrite < s.sharedFlush)
    ∧ (∃ s, exec (step (smallConf .open)) (.init 0) halfSegment = some s
      ∧ s.writer = .idle ∧ (∀ i < (smallConf .open).arraySize, s.slots i = none)
      ∧ s.sharedFlush ≠ max s.localFlush 0)
    ∧ ∃ s, exec (step (smallConf .fsync)) (.init 8) flushAtBoundary = some s
      ∧ s.writer = .idle ∧ (∀ i < (smallConf .fsync).arraySize, s.slots i = none)
      ∧ 0 ∈ s.opened ∧ 0 ∉ s.closed ∧ s.written / (smallConf .fsync).segSize ≠ 0 :=
  ⟨exec_eval (by decide) fun _ _ => id, exec_eval (by decide) fun _ _ => id, exec_eval (by decide)
    fun _ _ => id⟩

end PolarDB.WalFlush
