import Mathlib.Order.Nat
import PolarDB.FlushList

/-!
# Progress of the flush list scan

Background writers take buffers from the flush list in batches, and the
next batch starts where the last one ended. The list's end and the limit
`polar_bgwriter_max_batch_size` send the scan back to the first buffer.

A batch of a list that is not empty has a buffer, unless the shared
position is `POLAR_FLUSHNEXT_END_OF_LIST`, which it becomes when the only
buffer of the list is removed while the position stands on it
(`getBatch_empty`). Without such a removal every batch makes progress, and
repeated batches reach every buffer of a list that is not longer than one
round of the scan (`getBatch_progress`).
-/

namespace PolarDB.FlushList

open List Option

/-- No removal takes the only buffer while the shared position stands on
it. -/
def KeepsPos (s : Ctl) : Action → Prop
  | .remove buf =>
    s.currentPos = .node buf → ¬(s.flushPrev buf = .stop ∧ s.flushNext buf = .stop)
  | _ => True

instance (s : Ctl) : (a : Action) → Decidable (KeepsPos s a)
  | .remove _ => inferInstanceAs (Decidable (_ → _))
  | .put .. | .adjust .. | .getBatch => .isTrue trivial

def StepOk (s : Ctl) (a : Action) : Prop := CallOk s a ∧ KeepsPos s a

instance (s : Ctl) (a : Action) : Decidable (StepOk s a) := inferInstanceAs (Decidable (_ ∧ _))

def getBatches (g : Guc) : Nat → Ctl → Option (Ctl × List Nat)
  | 0, s => some (s, [])
  | n + 1, s => (getBatchFlushBuffer g s).bind fun (s, batch) =>
      (getBatches g n s).map fun (s, rest) => (s, batch ++ rest)

variable {s s' : Ctl} {l l1 l2 : List Nat} {buf : Nat} {a : Action} {as : List Action} {g : Guc}

/-! ## The shared position -/

theorem appendOneBuffer_pos (h : appendOneBuffer s buf = some s') :
    s'.currentPos = s.currentPos := by
  unfold appendOneBuffer at h
  split at h
  · cases h
    rfl
  · split at h
    · split at h
      · cases h
      · split at h
        · cases h
        · cases h
          rfl
    · cases h

theorem Holds.removeOneBuffer_pos (hl : Holds s (l1 ++ buf :: l2)) (hpos : s.currentPos ≠ .stop)
    (hok : s.currentPos = .node buf → ¬(s.flushPrev buf = .stop ∧ s.flushNext buf = .stop))
    (h : FlushList.removeOneBuffer s buf = some s') : s'.currentPos ≠ .stop := by
  have hfirst : s.firstFlushBuffer ≠ .stop := fun hc => by simpa using hl.eq_nil_iff.mpr hc
  obtain ⟨-, h⟩ := ite_none_left_eq_some.mp h
  simp only [hl.unlink_eq] at h
  cases h
  simp only
  split
  · rename_i hcur
    split
    · rename_i hnext
      rwa [if_neg fun hprev => hok hcur ⟨hprev, hnext⟩]
    · assumption
  · exact hpos

/-- With `StepOk` the position never marks the end of the list. -/
theorem RunInv.step_pos (hinv : RunInv as s) (hok : StepOk s a) (hpos : s.currentPos ≠ .stop)
    (hs : FlushList.step g s a = some s') : s'.currentPos ≠ .stop := by
  obtain ⟨l, top, hinv, -⟩ := hinv
  cases a with
  | put buf lsn fakeLsn =>
    have hout : bufferNotInFlushList s buf = true := hok.1
    rw [FlushList.step, putBufferToFlushList, if_pos hout] at hs
    obtain ⟨s1, happ, rfl⟩ := map_eq_some_iff.mp hs
    exact appendOneBuffer_pos happ ▸ hpos
  | adjust buf fakeLsn =>
    obtain ⟨l1, l2, rfl⟩ := hinv.split_of_in hok.1
    have hholds : Holds (setOldestLsn s buf fakeLsn) (l1 ++ buf :: l2) := hinv.holds
    rw [FlushList.step, adjustPositionInFlushList, if_neg (Bool.eq_false_iff.mp hok.1)] at hs
    simp only at hs
    split at hs
    · rename_i hnext
      split at hs
      · cases hs
      · obtain ⟨s1, hrem, happ⟩ := bind_eq_some_iff.mp hs
        rw [appendOneBuffer_pos happ]
        exact hholds.removeOneBuffer_pos hpos (fun _ hc => hnext hc.2) hrem
    · cases hs
      exact hpos
  | remove buf =>
    obtain ⟨l1, l2, rfl⟩ := hinv.split_of_in hok.1
    have hholds : Holds (setOldestLsn s buf invalidXLogRecPtr) (l1 ++ buf :: l2) := hinv.holds
    obtain ⟨s1, hrem, rfl⟩ := map_eq_some_iff.mp hs
    have hpos' : s1.currentPos ≠ .stop := hholds.removeOneBuffer_pos hpos hok.2 hrem
    exact hpos'
  | getBatch =>
    obtain ⟨⟨s1, batch⟩, hb, rfl⟩ := map_eq_some_iff.mp hs
    cases hempty : flushListIsEmpty s with
    | true =>
      rw [getBatchFlushBuffer, if_pos hempty] at hb
      cases hb
      exact hpos
    | false =>
      obtain ⟨l1, l2, hl, hstart⟩ := hinv.holds.scanStart hinv.pos
      rw [hinv.holds.getBatch_eq rfl hempty hl hstart] at hb
      cases hb
      split
      · intro hc
        rw [hinv.holds.isEmpty_iff.mpr (hinv.holds.eq_nil_iff.mpr hc)] at hempty
        cases hempty
      · rename_i hcond
        exact fun hc => hcond (.inl hc)

/-! ## Rounds of the scan -/

theorem getBatches_add (m n : Nat) : getBatches g (m + n) s =
    (getBatches g m s).bind fun (s, bs) => (getBatches g n s).map fun (s, cs) => (s, bs ++ cs) := by
  induction m generalizing s with
  | zero => simp [getBatches]
  | succ m ih =>
    rw [Nat.succ_add, getBatches, getBatches]
    cases getBatchFlushBuffer g s with
    | none => rfl
    | some r =>
      simp only [bind_some, ih]
      cases getBatches g m r.1 with
      | none => rfl
      | some r' => simp [Function.comp_def]

/-- From its position the scan comes to the end of the list or to the limit,
and then stands at the first buffer. -/
theorem Holds.round {b k : Nat} (hg : g.polarBgwriterBatchSizeFlushlist = b) (hb : 0 < b)
    (h : Holds s l) (hl : l = l1 ++ l2) (hne : l2 ≠ [])
    (hstart : FlushList.scanStart s = .ofOption l2.head?) (hk : l2.length ≤ k) :
    ∃ n, getBatches g n s = some ({ s with
        currentPos := s.firstFlushBuffer, latestFlushCount := 0 }, l2.take (n * b)) ∧
      (l2.length ≤ n * b ∨ g.polarBgwriterMaxBatchSize < s.latestFlushCount + n * b) := by
  induction k generalizing s l1 l2 with
  | zero => exact absurd (length_eq_zero_iff.mp (Nat.le_zero.mp hk)) hne
  | succ k ih =>
    have hempty : flushListIsEmpty s = false :=
      Bool.eq_false_iff.mpr fun hc => hne (append_eq_nil_iff.mp (hl ▸ h.isEmpty_iff.mp hc)).2
    have hbatch := h.getBatch_eq hg hempty hl hstart
    rw [length_take] at hbatch
    split at hbatch
    · rename_i hcond
      refine ⟨1, by simp [getBatches, hbatch], hcond.imp (fun hend => ?_) fun hmax => ?_⟩
      · cases hrest : l2.drop b with
        | nil => rw [Nat.one_mul]; exact drop_eq_nil_iff.mp hrest
        | cons i rest => rw [hrest] at hend; cases hend
      · omega
    · rename_i hcond
      obtain ⟨hrest, _⟩ := not_or.mp hcond
      have hne' : l2.drop b ≠ [] := fun hc => hrest (by rw [hc]; rfl)
      obtain ⟨n, hn, hend⟩ := ih (s := { s with
          currentPos := .ofOption (l2.drop b).head?
          latestFlushCount := s.latestFlushCount + min b l2.length }) h
        (show l = l1 ++ l2.take b ++ l2.drop b by rw [append_assoc, take_append_drop, hl]) hne'
        (if_neg (Link.ofOption_ne_out _)) (by rw [length_drop]; omega)
      refine ⟨n + 1, ?_, ?_⟩
      · rw [getBatches, hbatch]
        simp only [bind_some, hn, map_some]
        rw [Nat.add_comm n 1, Nat.add_mul, Nat.one_mul, take_add]
      · rw [length_drop] at hend
        rw [Nat.add_mul, Nat.one_mul]
        simp only at hend
        omega

theorem Holds.round_first {b : Nat} (hg : g.polarBgwriterBatchSizeFlushlist = b) (hb : 0 < b)
    (h : Holds s l) (hne : l ≠ []) (hpos : s.currentPos = s.firstFlushBuffer)
    (hcount : s.latestFlushCount = 0)
    (hlen : l.length ≤ (g.polarBgwriterMaxBatchSize / b + 1) * b) :
    ∃ n s', getBatches g n s = some (s', l) := by
  have hstart : FlushList.scanStart s = .ofOption l.head? := by
    rw [FlushList.scanStart, hpos, ite_self, h.first_eq]
  obtain ⟨n, hn, hend⟩ := h.round hg hb (nil_append l).symm hne hstart le_rfl
  have hall : l.length ≤ n * b := by
    rcases hend with hend | hmax
    · exact hend
    · rw [hcount, Nat.zero_add] at hmax
      exact hlen.trans (Nat.mul_le_mul_right b ((Nat.div_lt_iff_lt_mul hb).mpr hmax))
  rw [take_of_length_le hall] at hn
  exact ⟨n, _, hn⟩

/-! ## Runs -/

/-- In every state that a run with `StepOk` reaches, a batch of a list that is
not empty has a buffer, its buffers are consecutive ones from the position
on, and repeated batches reach the whole list if it is not longer than one
round. -/
theorem getBatch_progress {as : List Action} (hlsns : LsnsOk as)
    (hok : Meets (step g) StepOk initCtl as) (hs : exec (step g) initCtl as = some s)
    (hb : 0 < g.polarBgwriterBatchSizeFlushlist) (hne : flushListIsEmpty s = false) :
    ∃ l, FlushListOk s l ∧
      (∃ s' batch l1 l2, getBatchFlushBuffer g s = some (s', batch) ∧ batch ≠ [] ∧ batch.Nodup ∧
        l = l1 ++ batch ++ l2 ∧ scanStart s = .ofOption batch.head?) ∧
      (l.length ≤ (g.polarBgwriterMaxBatchSize / g.polarBgwriterBatchSizeFlushlist + 1) *
          g.polarBgwriterBatchSizeFlushlist →
        ∃ n s' batches, getBatches g n s = some (s', batches) ∧ ∀ i ∈ l, i ∈ batches) := by
  obtain ⟨s0, hs0, ⟨l, top, hinv, -⟩, hpos⟩ := exec_total_of_meets
    (fun as s => RunInv as s ∧ s.currentPos ≠ .stop) LsnsOk (fun _ _ => LsnsOk.init)
    (fun as s a hinv hok hlsns => by
      obtain ⟨s', hs', hinv'⟩ := hinv.1.step g hok.1 hlsns
      exact ⟨s', hs', hinv', hinv.1.step_pos hok hinv.2 hs'⟩)
    ⟨⟨[], 0, listInv_init, .inl rfl⟩, nofun⟩ hok hlsns
  obtain rfl := some.inj (hs0.symm.trans hs)
  have h := hinv.holds
  have hl : l ≠ [] := fun hc => by
    rw [h.isEmpty_iff.mpr hc] at hne
    cases hne
  obtain ⟨l1, l2, hsplit, hstart⟩ := h.scanStart hinv.pos
  have hl2 : l2 ≠ [] := by
    rintro rfl
    rw [scanStart] at hstart
    split at hstart
    · exact hl (h.eq_nil_iff.mpr hstart)
    · exact hpos hstart
  refine ⟨l, hinv.flushListOk, ?_, fun hlen => ?_⟩
  · generalize hg : g.polarBgwriterBatchSizeFlushlist = b at hb
    have hparts : l = l1 ++ l2.take b ++ l2.drop b := by
      rw [append_assoc, take_append_drop, hsplit]
    have hhead : (l2.take b).head? = l2.head? := by rw [head?_take, if_neg hb.ne']
    refine ⟨_, _, l1, _, h.getBatch_eq hg hne hsplit hstart, ?_, ?_, hparts,
      hstart.trans (by rw [hhead])⟩
    · simpa using ⟨hb.ne', hl2⟩
    · exact (nodup_append.mp (nodup_append.mp (hparts ▸ h.nodup)).1).2.1
  · obtain ⟨m, hm, -⟩ := h.round rfl hb hsplit hl2 hstart le_rfl
    obtain ⟨n, s', hn⟩ := Holds.round_first (s := { s0 with
      currentPos := s0.firstFlushBuffer, latestFlushCount := 0 }) rfl hb h hl rfl rfl hlen
    have hmn := getBatches_add (g := g) (s := s0) m n
    simp only [hm, bind_some, hn, map_some] at hmn
    exact ⟨m + n, s', _, hmn, fun i hi => mem_append_right _ hi⟩

theorem getBatch_progress_moved : ∃ s, exec (step ⟨2, 10⟩) initCtl movedRun = some s ∧
    ∃ l, FlushListOk s l ∧
      (∃ s' batch l1 l2, getBatchFlushBuffer ⟨2, 10⟩ s = some (s', batch) ∧ batch ≠ [] ∧
        batch.Nodup ∧ l = l1 ++ batch ++ l2 ∧ scanStart s = .ofOption batch.head?) ∧
      (l.length ≤ (10 / 2 + 1) * 2 →
        ∃ n s' batches, getBatches ⟨2, 10⟩ n s = some (s', batches) ∧ ∀ i ∈ l, i ∈ batches) :=
  ⟨_, rfl, getBatch_progress (show LsnsOk movedRun by rw [LsnsOk]; decide) (by decide) rfl
    (by decide) rfl⟩

/-- The only buffer is removed under the shared position: the batch after the
next insertion is empty. -/
theorem getBatch_empty : ∃ s s',
    exec (step ⟨100, 5000⟩) initCtl [.put 1 10 0, .getBatch, .remove 1, .put 2 11 0] = some s ∧
    Meets (step ⟨100, 5000⟩) CallOk initCtl [.put 1 10 0, .getBatch, .remove 1, .put 2 11 0] ∧
    flushListIsEmpty s = false ∧ getBatchFlushBuffer ⟨100, 5000⟩ s = some (s', []) :=
  ⟨_, _, rfl, by decide, rfl, rfl⟩

end PolarDB.FlushList
