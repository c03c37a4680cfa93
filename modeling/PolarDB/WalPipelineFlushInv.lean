import Mathlib.Algebra.Order.Ring.Nat
import PolarDB.Basic
import PolarDB.Circular
import PolarDB.WalPipelineFlush

/-!
# What is between the write and the flush worker

The entries in the ring follow the segments: an entry is for the segment of
the one before, or for the next one if that was complete (`Track`). The open
files are those of entries for complete segments and the one the write worker
writes to, each segment with one descriptor (`FilesOk`); so two entries have
the same descriptor exactly if they are for the same segment, although
descriptors are used again.
-/

namespace PolarDB.WalFlush

open Function List

/-! ## The ring as a queue -/

section

variable {α : Type} {slots : Nat → Option α} {n head : Nat} {q : List α} {x : α}

/-- The slots of the numbers from `head` on, modulo `n`, have the entries of `q`
in order, and nothing behind them. -/
structure SlotQueue (n : Nat) (slots : Nat → Option α) (head : Nat) (q : List α) : Prop where
  length : q.length ≤ n
  slot : ∀ i < n, slots ((head + i) % n) = q[i]?

namespace SlotQueue

theorem nil (n head : Nat) : SlotQueue n (fun _ => (none : Option α)) head [] :=
  ⟨Nat.zero_le _, fun _ _ => rfl⟩

variable (h : SlotQueue n slots head q)
include h

theorem first (hn : 0 < n) : slots (head % n) = q.head? := by
  have := h.slot 0 hn
  rwa [Nat.add_zero, ← head?_eq_getElem?] at this

theorem second (hn : 1 < n) : slots ((head + 1) % n) = q[1]? := h.slot 1 hn

theorem eq_nil (hn : 0 < n) (hempty : ∀ i < n, slots i = none) : q = [] := by
  have := h.first hn
  rw [hempty _ (Nat.mod_lt head hn)] at this
  exact head?_eq_none_iff.mp this.symm

theorem length_lt (hn : 0 < n) (hfree : slots ((head + q.length) % n) = none) : q.length < n := by
  refine Nat.lt_of_le_of_ne h.length fun heq => ?_
  rw [heq, Nat.add_mod_right, h.first hn] at hfree
  have hnil := head?_eq_none_iff.mp hfree
  rw [hnil, length_nil] at heq
  omega

theorem push (x : α) (hn : 0 < n) (hfree : slots ((head + q.length) % n) = none) :
    SlotQueue n (update slots ((head + q.length) % n) (some x)) head (q ++ [x]) := by
  have hlt := h.length_lt hn hfree
  refine ⟨by rw [length_append]; exact hlt, fun i hi => ?_⟩
  rcases Nat.lt_trichotomy i q.length with hiq | rfl | hiq
  · rw [update_of_ne (window_index_ne hiq hlt), h.slot i hi, getElem?_append_left hiq]
  · rw [update_self, getElem?_concat_length]
  · rw [update_of_ne (window_index_ne hiq hi).symm, h.slot i hi,
      getElem?_eq_none (Nat.le_of_lt hiq), getElem?_eq_none]
    rwa [length_append]

end SlotQueue

theorem SlotQueue.pop (h : SlotQueue n slots head (x :: q)) :
    SlotQueue n (update slots (head % n) none) (head + 1) q := by
  have hlen : q.length < n := h.length
  refine ⟨Nat.le_of_lt hlen, fun i hi => ?_⟩
  rcases Nat.lt_or_eq_of_le (show i + 1 ≤ n from hi) with hlt | heq
  · have hne : (head + 1 + i) % n ≠ head % n := by
      have : (head + 0) % n ≠ (head + (i + 1)) % n := window_index_ne (Nat.succ_pos i) hlt
      rw [Nat.add_assoc, Nat.add_comm 1 i]
      exact this.symm
    rw [update_of_ne hne, Nat.add_assoc, Nat.add_comm 1 i, h.slot (i + 1) hlt, getElem?_cons_succ]
  · have hwrap : (head + 1 + i) % n = head % n := by
      rw [Nat.add_assoc, Nat.add_comm 1 i, heq, Nat.add_mod_right]
    rw [hwrap, update_self, getElem?_eq_none]
    omega

end

variable {c : Conf} {e e' : Unflushed} {q : List Unflushed} {d t fd fd' g lsn written flushed : Nat}
  {files : Nat → Option Nat} {opened closed : List Nat} {cur : Option (Nat × Nat)}

theorem Conf.segSize_pos (c : Conf) : 0 < c.segSize := Nat.mul_pos c.segPages_pos c.blcksz_pos

/-! ## The segments of entries -/

/-- The entries lead from the segment `d` to the segment `t`. -/
def Track : Nat → List Unflushed → Nat → Prop
  | d, [], t => d = t
  | d, e :: q, t => e.segNo = d ∧ Track (if e.needClose then d + 1 else d) q t

theorem Track.push (h : Track d q t) (he : e.segNo = t) :
    Track d (q ++ [e]) (if e.needClose then t + 1 else t) := by
  induction q generalizing d with
  | nil =>
    obtain rfl : d = t := h
    exact ⟨he, rfl⟩
  | cons e' q ih => exact ⟨h.1, ih h.2⟩

theorem Track.le (h : Track d q t) : d ≤ t := by
  induction q generalizing d with
  | nil => exact h.le
  | cons e q ih =>
    have := ih h.2
    split at this <;> omega

theorem Track.mem (h : Track d q t) (he : e ∈ q) :
    d ≤ e.segNo ∧ e.segNo ≤ t ∧ (e.needClose = true → e.segNo < t) := by
  induction q generalizing d with
  | nil => cases he
  | cons e' q ih =>
    obtain ⟨hseg, hrest⟩ := h
    rcases mem_cons.mp he with rfl | he
    · have hle := hrest.le
      refine ⟨hseg.symm.le, ?_, fun hc => ?_⟩
      · split at hle <;> omega
      · rw [if_pos hc] at hle
        omega
    · obtain ⟨hle, hup⟩ := ih hrest he
      refine ⟨?_, hup⟩
      split at hle <;> omega

/-! ## Entries -/

theorem prevSeg_of_mod_eq (hpos : 0 < lsn) (h : lsn % c.segSize = 0) :
    c.prevSeg lsn + 1 = lsn / c.segSize := by
  obtain ⟨n, rfl⟩ := Nat.dvd_of_mod_eq_zero h
  have hS := c.segSize_pos
  obtain ⟨m, rfl⟩ := Nat.exists_eq_add_one.mpr (Nat.pos_of_mul_pos_left hpos)
  rw [Conf.prevSeg, Nat.mul_add, Nat.mul_one, Nat.add_sub_assoc hS, Nat.mul_add_div hS,
    Nat.div_eq_of_lt (Nat.sub_lt hS Nat.one_pos), Nat.add_div_right _ hS,
    Nat.mul_div_cancel_left _ hS]

structure EntryOk (c : Conf) (written : Nat) (e : Unflushed) : Prop where
  pos : 0 < e.endLsn
  seg : c.prevSeg e.endLsn = e.segNo
  close : e.needClose = true ↔ e.endLsn % c.segSize = 0
  written : e.endLsn ≤ written

theorem EntryOk.end_eq (h : EntryOk c written e) (hc : e.needClose = true) :
    e.endLsn = (e.segNo + 1) * c.segSize := by
  have hz := h.close.mp hc
  rw [← h.seg, prevSeg_of_mod_eq h.pos hz, Nat.div_mul_cancel (Nat.dvd_of_mod_eq_zero hz)]

theorem EntryOk.lt (h : EntryOk c written e) : e.endLsn ≤ (e.segNo + 1) * c.segSize := by
  have hseg := h.seg
  have hlt := Nat.lt_mul_div_succ (e.endLsn - 1) c.segSize_pos
  unfold Conf.prevSeg at hseg
  rw [hseg, Nat.mul_comm] at hlt
  omega

structure QueueOk (c : Conf) (q : List Unflushed) (d t written flushed : Nat) : Prop where
  track : Track d q t
  entries : ∀ e ∈ q, EntryOk c written e
  sorted : q.Pairwise fun e e' => e.endLsn ≤ e'.endLsn
  flushed : ∀ e ∈ q, flushed ≤ e.endLsn

namespace QueueOk

theorem mono {written' : Nat} (h : QueueOk c q d t written flushed) (hle : written ≤ written') :
    QueueOk c q d t written' flushed :=
  ⟨h.track, fun e he => ⟨(h.entries e he).pos, (h.entries e he).seg, (h.entries e he).close,
    (h.entries e he).written.trans hle⟩, h.sorted, h.flushed⟩

theorem push (h : QueueOk c q d t written flushed) (hseg : e.segNo = t) (he : EntryOk c written e)
    (hend : ∀ e' ∈ q, e'.endLsn ≤ e.endLsn) (hf : flushed ≤ e.endLsn) :
    QueueOk c (q ++ [e]) d (if e.needClose then t + 1 else t) written flushed := by
  exact ⟨h.track.push hseg, forall_mem_snoc h.entries he,
    pairwise_snoc h.sorted hend, forall_mem_snoc h.flushed hf⟩

section

variable (h : QueueOk c (e :: q) d t written flushed)
include h

theorem pop : QueueOk c q (if e.needClose then d + 1 else d) t written flushed :=
  ⟨h.track.2, (forall_mem_cons.mp h.entries).2, (pairwise_cons.mp h.sorted).2,
    (forall_mem_cons.mp h.flushed).2⟩

theorem flush : QueueOk c (e :: q) d t written e.endLsn :=
  ⟨h.track, h.entries, h.sorted, forall_mem_cons.mpr ⟨le_rfl, (pairwise_cons.mp h.sorted).1⟩⟩

theorem lt_of_close (hc : e.needClose = true) (he' : e' ∈ q) : e.segNo < e'.segNo := by
  have hrest := h.track.2
  rw [if_pos hc] at hrest
  have := (hrest.mem he').1
  have := h.track.1
  omega

end

theorem eq_of_not_close {next : Unflushed} (h : QueueOk c (e :: next :: q) d t written flushed)
    (hc : e.needClose = false) : next.segNo = e.segNo := by
  have hrest := h.track.2
  rw [hc] at hrest
  exact hrest.1.trans h.track.1.symm

end QueueOk

/-! ## Open files -/

/-- `cur` is the file the write worker writes to, `live` are the entries whose
files are still to be synced. -/
structure FilesOk (c : Conf) (files : Nat → Option Nat) (opened closed : List Nat) (written : Nat)
    (cur : Option (Nat × Nat)) (live : List Unflushed) : Prop where
  entries : ∀ e ∈ live, files e.fd = some e.segNo
  current : ∀ fd g, cur = some (fd, g) → files fd = some g
  owners : ∀ fd g, files fd = some g →
    cur = some (fd, g) ∨ ∃ e ∈ live, e.needClose = true ∧ e.fd = fd ∧ e.segNo = g
  inj : ∀ fd fd' g, files fd = some g → files fd' = some g → fd = fd'
  nodup : closed.Nodup
  shut : ∀ g ∈ closed, (g + 1) * c.segSize ≤ written ∧ ∀ fd, files fd ≠ some g
  kept : ∀ g ∈ opened, g ∈ closed ∨ ∃ fd, files fd = some g

namespace FilesOk

theorem mono {written' : Nat} (h : FilesOk c files opened closed written cur q)
    (hle : written ≤ written') : FilesOk c files opened closed written' cur q :=
  ⟨h.entries, h.current, h.owners, h.inj, h.nodup,
    fun g hg => ⟨(h.shut g hg).1.trans hle, (h.shut g hg).2⟩, h.kept⟩

theorem openNew (h : FilesOk c files opened closed written none q) (hfd : files fd = none)
    (hnew : ∀ fd', files fd' ≠ some g) (hclosed : g ∉ closed) :
    FilesOk c (update files fd (some g)) (g :: opened) closed written (some (fd, g)) q := by
  have hother : ∀ fd' g', files fd' = some g' → fd' ≠ fd := by
    rintro fd' g' hf rfl
    rw [hfd] at hf
    cases hf
  have hkeep : ∀ fd' g', files fd' = some g' → update files fd (some g) fd' = some g' :=
    fun fd' g' hf => by rw [update_of_ne (hother fd' g' hf), hf]
  have hback : ∀ fd' g', update files fd (some g) fd' = some g' →
      fd' = fd ∧ g' = g ∨ files fd' = some g' := by
    intro fd' g' hf
    rw [update_apply] at hf
    split at hf
    · next heq => exact .inl ⟨heq, (Option.some.inj hf).symm⟩
    · exact .inr hf
  refine ⟨fun e he => hkeep _ _ (h.entries e he), fun fd' g' hc => ?_, fun fd' g' hf => ?_,
    fun fd1 fd2 g' h1 h2 => ?_, h.nodup, fun g' hg' => ⟨(h.shut g' hg').1, fun fd' hf => ?_⟩,
    fun g' hg' => ?_⟩
  · cases hc
    exact update_self ..
  · rcases hback fd' g' hf with ⟨rfl, rfl⟩ | hf
    · exact .inl rfl
    · exact .inr ((h.owners fd' g' hf).resolve_left nofun)
  · rcases hback fd1 g' h1 with ⟨heq1, hg1⟩ | hf1
    · rcases hback fd2 g' h2 with ⟨heq2, -⟩ | hf2
      · rw [heq1, heq2]
      · exact absurd (hg1 ▸ hf2) (hnew fd2)
    · rcases hback fd2 g' h2 with ⟨-, hg2⟩ | hf2
      · exact absurd (hg2 ▸ hf1) (hnew fd1)
      · exact h.inj fd1 fd2 g' hf1 hf2
  · rcases hback fd' g' hf with ⟨-, rfl⟩ | hf
    · exact hclosed hg'
    · exact (h.shut g' hg').2 fd' hf
  · rcases mem_cons.mp hg' with rfl | hg'
    · exact .inr ⟨fd, update_self ..⟩
    · exact (h.kept g' hg').imp_right fun ⟨fd', hf⟩ => ⟨fd', hkeep fd' g' hf⟩

theorem push (h : FilesOk c files opened closed written (some (e.fd, e.segNo)) q) :
    FilesOk c files opened closed written
      (if e.needClose then none else some (e.fd, e.segNo)) (q ++ [e]) := by
  have hfile := h.current e.fd e.segNo rfl
  refine ⟨forall_mem_snoc h.entries hfile, fun fd g hc => ?_, fun fd g hf => ?_, h.inj, h.nodup,
    h.shut, h.kept⟩
  · split at hc
    · cases hc
    · cases hc
      exact hfile
  · rcases h.owners fd g hf with hc | ⟨e', he', hown⟩
    · cases hc
      split
      · next hc =>
        exact .inr ⟨e, mem_concat_self, hc, rfl, rfl⟩
      · exact .inl rfl
    · exact .inr ⟨e', mem_append_left _ he', hown⟩

section

variable (h : FilesOk c files opened closed written cur (e :: q))
include h

theorem close (hc : e.needClose = true) (hlater : ∀ e' ∈ q, e.segNo < e'.segNo)
    (hcur : ∀ fd g, cur = some (fd, g) → e.segNo < g) (hw : (e.segNo + 1) * c.segSize ≤ written) :
    FilesOk c (update files e.fd none) opened (e.segNo :: closed) written cur q := by
  have hfile := h.entries e mem_cons_self
  have hkeep : ∀ fd g, files fd = some g → g ≠ e.segNo → update files e.fd none fd = some g := by
    intro fd g hf hne
    have hfd : fd ≠ e.fd := by
      rintro rfl
      rw [hfile] at hf
      cases hf
      exact hne rfl
    rw [update_of_ne hfd, hf]
  have hback : ∀ fd g, update files e.fd none fd = some g → files fd = some g ∧ fd ≠ e.fd := by
    intro fd g hf
    rw [update_apply] at hf
    split at hf
    · cases hf
    · next hfd => exact ⟨hf, hfd⟩
  refine ⟨fun e' he' => ?_, fun fd g hcg => ?_, fun fd g hf => ?_, fun fd fd' g h1 h2 => ?_, ?_,
    fun g hg => ?_, fun g hg => ?_⟩
  · exact hkeep _ _ (h.entries e' (mem_cons_of_mem _ he')) (hlater e' he').ne'
  · exact hkeep _ _ (h.current fd g hcg) (hcur fd g hcg).ne'
  · obtain ⟨hf, hfd⟩ := hback fd g hf
    refine (h.owners fd g hf).imp_right fun ⟨e', he', hown⟩ => ?_
    rcases mem_cons.mp he' with rfl | he'
    · exact absurd hown.2.1.symm hfd
    · exact ⟨e', he', hown⟩
  · exact h.inj fd fd' g (hback fd g h1).1 (hback fd' g h2).1
  · exact nodup_cons.mpr ⟨fun hg => (h.shut _ hg).2 _ hfile, h.nodup⟩
  · rcases mem_cons.mp hg with rfl | hg
    · refine ⟨hw, fun fd hf => ?_⟩
      obtain ⟨hf, hfd⟩ := hback fd _ hf
      exact hfd (h.inj fd e.fd _ hf hfile)
    · exact ⟨(h.shut g hg).1, fun fd hf => (h.shut g hg).2 fd (hback fd g hf).1⟩
  · by_cases hge : g = e.segNo
    · exact .inl (by rw [hge]; exact mem_cons_self)
    · exact (h.kept g hg).imp (mem_cons_of_mem _) fun ⟨fd, hf⟩ => ⟨fd, hkeep fd g hf hge⟩

theorem pop (hc : e.needClose = false) : FilesOk c files opened closed written cur q := by
  refine ⟨(forall_mem_cons.mp h.entries).2, h.current, fun fd g hf => ?_, h.inj, h.nodup, h.shut,
    h.kept⟩
  refine (h.owners fd g hf).imp_right fun ⟨e', he', hown⟩ => ?_
  rcases mem_cons.mp he' with rfl | he'
  · rw [hc] at hown
    cases hown.1
  · exact ⟨e', he', hown⟩

end

theorem fd_eq_iff (h : FilesOk c files opened closed written cur q) (he : e ∈ q) (he' : e' ∈ q) :
    e.fd = e'.fd ↔ e.segNo = e'.segNo := by
  have hf := h.entries e he
  have hf' := h.entries e' he'
  constructor
  · intro hfd
    rw [hfd, hf'] at hf
    exact (Option.some.inj hf).symm
  · intro hseg
    rw [hseg] at hf
    exact h.inj _ _ _ hf hf'

end FilesOk

end PolarDB.WalFlush
