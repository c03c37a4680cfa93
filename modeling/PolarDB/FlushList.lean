import PolarDB.Basic
import PolarDB.DoublyLinked
import PolarDB.Lts

/-!
# The flush list

Dirty buffers are kept in a doubly linked list in the order of their
oldest LSN (`polar_flushlist.c`). The links are in the buffer
descriptors: `POLAR_FLUSHNEXT_NOT_IN_LIST` is `Link.out` and
`POLAR_FLUSHNEXT_END_OF_LIST` is `Link.stop`. A buffer is appended when
it is first modified (`put`), moved to the tail when it is first touched
after it has been copied (`adjust`), and removed when it is flushed
(`remove`). Background writers take batches from a shared position
(`getBatch`).

Every call runs under the flush list's spinlock, so it is one step. A
failed `Assert` or a PANIC is `none`. The links always hold a list that
is sorted by oldest LSN, the shared position is in it or marks an end,
and no call fails (`flushList_ok`).
-/

namespace PolarDB.FlushList

open Function List

structure Guc where
  polarBgwriterBatchSizeFlushlist : Nat
  polarBgwriterMaxBatchSize : Nat

structure Ctl where
  count : Nat
  firstFlushBuffer : Link Nat
  lastFlushBuffer : Link Nat
  currentPos : Link Nat
  latestFlushCount : Nat
  flushPrev : Nat → Link Nat
  flushNext : Nat → Link Nat
  oldestLsn : Nat → Nat

def initCtl : Ctl where
  count := 0
  firstFlushBuffer := .stop
  lastFlushBuffer := .stop
  currentPos := .out
  latestFlushCount := 0
  flushPrev _ := .out
  flushNext _ := .out
  oldestLsn _ := invalidXLogRecPtr

/-! ## The calls -/

def flushListIsEmpty (s : Ctl) : Bool := s.firstFlushBuffer = .stop && s.lastFlushBuffer = .stop

def bufferNotInFlushList (s : Ctl) (buf : Nat) : Bool :=
  s.flushPrev buf = .out && s.flushNext buf = .out

def setOldestLsn (s : Ctl) (buf lsn : Nat) : Ctl :=
  { s with oldestLsn := update s.oldestLsn buf lsn }

def unlink (s : Ctl) (prev next : Link Nat) : Ctl :=
  if prev = .stop ∧ next = .stop then
    { s with firstFlushBuffer := .stop, lastFlushBuffer := .stop }
  else if prev = .stop ∧ next ≠ .stop then
    { s with flushPrev := next.set s.flushPrev prev, firstFlushBuffer := next }
  else if prev ≠ .stop ∧ next = .stop then
    { s with flushNext := prev.set s.flushNext next, lastFlushBuffer := prev }
  else
    { s with flushNext := prev.set s.flushNext next, flushPrev := next.set s.flushPrev prev }

def removeOneBuffer (s : Ctl) (buf : Nat) : Option Ctl :=
  if bufferNotInFlushList s buf || flushListIsEmpty s then none
  else
    let next := s.flushNext buf
    let s := unlink s (s.flushPrev buf) next
    let pos :=
      if s.currentPos = .node buf then
        if next = .stop then s.firstFlushBuffer else next
      else s.currentPos
    some { s with
      currentPos := pos
      flushNext := update s.flushNext buf .out
      flushPrev := update s.flushPrev buf .out }

def appendOneBuffer (s : Ctl) (buf : Nat) : Option Ctl :=
  if flushListIsEmpty s then
    some { s with
      flushNext := update s.flushNext buf .stop
      flushPrev := update s.flushPrev buf .stop
      firstFlushBuffer := .node buf
      lastFlushBuffer := .node buf }
  else
    match s.lastFlushBuffer with
    | .node tail =>
      -- "Append buffer with a small oldest lsn than last buffer in flush list."
      if s.oldestLsn buf < s.oldestLsn tail then none
      else if s.flushNext tail ≠ .stop then none
      else some { s with
        flushPrev := update s.flushPrev buf (.node tail)
        flushNext :=
          update (update s.flushNext buf (s.flushNext tail)) tail (.node buf)
        lastFlushBuffer := .node buf }
    | _ => none

/-- `polar_put_buffer_to_flush_list`. `fakeLsn` is what
`polar_fake_oldest_lsn` returns. -/
def putBufferToFlushList (s : Ctl) (buf lsn fakeLsn : Nat) : Option Ctl :=
  if bufferNotInFlushList s buf then
    let s := setOldestLsn s buf (if lsn = invalidXLogRecPtr then fakeLsn else lsn)
    (appendOneBuffer s buf).map fun s => { s with count := s.count + 1 }
  else none

def adjustPositionInFlushList (s : Ctl) (buf fakeLsn : Nat) : Option Ctl :=
  if bufferNotInFlushList s buf then none
  else
    let s := setOldestLsn s buf fakeLsn
    if s.flushNext buf ≠ .stop then
      if s.flushNext buf = .out then none
      else (removeOneBuffer s buf).bind fun s => appendOneBuffer s buf
    else some s

def removeBufferFromFlushList (s : Ctl) (buf : Nat) : Option Ctl :=
  (removeOneBuffer (setOldestLsn s buf invalidXLogRecPtr) buf).map fun s =>
    { s with count := s.count - 1 }

/-- The loop of `polar_get_batch_flush_buffer`, with `n` turns left: the
batch and the position behind it. -/
def batchLoop (s : Ctl) : Nat → Link Nat → Option (List Nat × Link Nat)
  | 0, pos => some ([], pos)
  | _ + 1, .out => none
  | _ + 1, .stop => some ([], .stop)
  | n + 1, .node buf => (batchLoop s n (s.flushNext buf)).map fun r => (buf :: r.1, r.2)

def getBatchFlushBuffer (g : Guc) (s : Ctl) : Option (Ctl × List Nat) :=
  if flushListIsEmpty s then some (s, [])
  else
    let start := if s.currentPos = .out then s.firstFlushBuffer else s.currentPos
    (batchLoop s g.polarBgwriterBatchSizeFlushlist start).map fun (batch, pos) =>
      if pos = .stop ∨ g.polarBgwriterMaxBatchSize < s.latestFlushCount + batch.length then
        ({ s with currentPos := s.firstFlushBuffer, latestFlushCount := 0 }, batch)
      else
        ({ s with
            currentPos := pos
            latestFlushCount := s.latestFlushCount + batch.length }, batch)

inductive Action where
  | put (buf lsn fakeLsn : Nat)
  | adjust (buf fakeLsn : Nat)
  | remove (buf : Nat)
  | getBatch
  deriving DecidableEq, Repr

def step (g : Guc) (s : Ctl) : Action → Option Ctl
  | .put buf lsn fakeLsn => putBufferToFlushList s buf lsn fakeLsn
  | .adjust buf fakeLsn => adjustPositionInFlushList s buf fakeLsn
  | .remove buf => removeBufferFromFlushList s buf
  | .getBatch => (getBatchFlushBuffer g s).map Prod.fst

/-! ## What the callers promise -/

/-- A buffer is put only if it is not in the list, and adjusted or removed
only if it is. -/
def CallOk (s : Ctl) : Action → Prop
  | .put buf _ _ => bufferNotInFlushList s buf = true
  | .adjust buf _ => bufferNotInFlushList s buf = false
  | .remove buf => bufferNotInFlushList s buf = false
  | .getBatch => True

instance (s : Ctl) : (a : Action) → Decidable (CallOk s a)
  | .put .. => inferInstanceAs (Decidable (_ = _))
  | .adjust .. => inferInstanceAs (Decidable (_ = _))
  | .remove _ => inferInstanceAs (Decidable (_ = _))
  | .getBatch => .isTrue trivial

def assignedLsns (as : List Action) : List Nat :=
  as.filterMap fun
    | .put _ lsn fakeLsn => some (if lsn = invalidXLogRecPtr then fakeLsn else lsn)
    | .adjust _ fakeLsn => some fakeLsn
    | _ => none

def LsnsOk (as : List Action) : Prop := (assignedLsns as).Pairwise (· ≤ ·)

/-! ## The representation -/

def Holds (s : Ctl) (l : List Nat) : Prop :=
  Linked s.flushNext s.flushPrev s.firstFlushBuffer s.lastFlushBuffer l

def PosOk (pos : Link Nat) (l : List Nat) : Prop :=
  pos = .out ∨ pos = .stop ∨ ∃ i ∈ l, pos = .node i

variable {s s' : Ctl} {l l1 l2 : List Nat} {buf : Nat}

theorem posOk_ofOption {o : Option Nat} (hin : ∀ i ∈ o, i ∈ l) : PosOk (.ofOption o) l := by
  cases o with
  | none => exact .inr (.inl rfl)
  | some i => exact .inr (.inr ⟨i, hin i rfl, rfl⟩)

theorem Holds.isEmpty_iff (h : Holds s l) : flushListIsEmpty s = true ↔ l = [] := by
  rw [flushListIsEmpty, Bool.and_eq_true, decide_eq_true_eq, decide_eq_true_eq]
  exact ⟨fun he => h.eq_nil_iff.mpr he.1, fun he => ⟨h.eq_nil_iff.mp he, h.eq_nil_iff_last.mp he⟩⟩

theorem Holds.not_in_iff (h : Holds s l) : bufferNotInFlushList s buf = true ↔ buf ∉ l := by
  rw [bufferNotInFlushList, Bool.and_eq_true, decide_eq_true_eq, decide_eq_true_eq]
  exact ⟨fun he hin => h.mem_iff_next.mp hin he.2, fun hni => (h.outside buf hni).symm⟩

theorem Holds.unlink_eq (h : Holds s (l1 ++ buf :: l2)) :
    unlink s (s.flushPrev buf) (s.flushNext buf) = { s with
      flushNext := (s.flushPrev buf).set s.flushNext (s.flushNext buf)
      flushPrev := (s.flushNext buf).set s.flushPrev (s.flushPrev buf)
      firstFlushBuffer := if s.flushPrev buf = .stop then s.flushNext buf else s.firstFlushBuffer
      lastFlushBuffer :=
        if s.flushNext buf = .stop then s.flushPrev buf else s.lastFlushBuffer } := by
  obtain ⟨hn, hp⟩ := h.inside l1 buf l2 rfl
  cases hnext : s.flushNext buf with
  | out => exact absurd (hn ▸ hnext) (Link.ofOption_ne_out _)
  | stop | node n =>
    cases hprev : s.flushPrev buf with
    | out => exact absurd (hp ▸ hprev) (Link.ofOption_ne_out _)
    | stop => rfl
    | node p => rfl

structure SameLsns (s s' : Ctl) : Prop where
  oldestLsn : s'.oldestLsn = s.oldestLsn
  count : s'.count = s.count

theorem Holds.removeOneBuffer (h : Holds s (l1 ++ buf :: l2))
    (hpos : PosOk s.currentPos (l1 ++ buf :: l2)) :
    ∃ s', removeOneBuffer s buf = some s' ∧ Holds s' (l1 ++ l2) ∧ PosOk s'.currentPos (l1 ++ l2) ∧
      SameLsns s s' := by
  have hin : bufferNotInFlushList s buf = false :=
    Bool.eq_false_iff.mpr fun hc => h.not_in_iff.mp hc (by simp)
  have hne : flushListIsEmpty s = false :=
    Bool.eq_false_iff.mpr fun hc => by simpa using h.isEmpty_iff.mp hc
  obtain ⟨hn, -⟩ := h.inside l1 buf l2 rfl
  have hrem := Linked.remove h
  simp only [FlushList.removeOneBuffer, hin, hne, Bool.or_self, Bool.false_eq_true, if_false,
    h.unlink_eq]
  refine ⟨_, rfl, hrem, ?_, rfl, rfl⟩
  simp only
  split
  · split
    · rw [hrem.first_eq]
      exact posOk_ofOption fun i hi => mem_of_mem_head? hi
    · rw [hn]
      exact posOk_ofOption fun i hi => mem_append_right _ (mem_of_mem_head? hi)
  · rename_i hother
    rcases hpos with hout | hstop | ⟨i, hi, heq⟩
    · exact .inl hout
    · exact .inr (.inl hstop)
    · refine .inr (.inr ⟨i, ?_, heq⟩)
      rcases mem_append.mp hi with hi | hi
      · exact mem_append_left _ hi
      · refine mem_append_right _ ((mem_cons.mp hi).resolve_left fun hc => hother ?_)
        rw [heq, hc]

theorem Holds.appendOneBuffer (h : Holds s l) (hbuf : buf ∉ l)
    (hpos : PosOk s.currentPos l) (hlsn : ∀ i ∈ l, s.oldestLsn i ≤ s.oldestLsn buf) :
    ∃ s', appendOneBuffer s buf = some s' ∧ Holds s' (l ++ [buf]) ∧
      PosOk s'.currentPos (l ++ [buf]) ∧ SameLsns s s' := by
  have hpos' : PosOk s.currentPos (l ++ [buf]) :=
    hpos.imp_right fun h => h.imp_right fun ⟨i, hi, heq⟩ => ⟨i, mem_append_left _ hi, heq⟩
  have happ := Linked.append h hbuf
  rcases eq_nil_or_concat' l with rfl | ⟨l', tail, rfl⟩
  · have hlast := h.last_eq
    rw [FlushList.appendOneBuffer, if_pos (h.isEmpty_iff.mpr rfl)]
    refine ⟨_, rfl, ?_, hpos', rfl, rfl⟩
    rwa [hlast] at happ
  · have hlast : s.lastFlushBuffer = .node tail := by
      rw [h.last_eq, getLast?_concat]
      rfl
    have htail : s.flushNext tail = .stop := (h.inside l' tail [] rfl).1
    have hne : tail ≠ buf := fun hc => hbuf (hc ▸ by simp)
    have hempty : ¬ flushListIsEmpty s = true := fun hc => by simpa using h.isEmpty_iff.mp hc
    have hle := hlsn tail (by simp)
    rw [FlushList.appendOneBuffer, if_neg hempty]
    simp only [hlast, if_neg (Nat.not_lt.mpr hle), htail, ne_eq, not_true_eq_false, if_false]
    refine ⟨_, rfl, ?_, hpos', rfl, rfl⟩
    rw [hlast, if_neg (by exact nofun)] at happ
    rwa [update_comm hne.symm]

/-- A batch is a piece of the list. -/
theorem Holds.batchLoop (h : Holds s l) (n : Nat) (hl : l = l1 ++ l2) :
    batchLoop s n (.ofOption l2.head?) = some (l2.take n, .ofOption (l2.drop n).head?) := by
  induction n generalizing l1 l2 with
  | zero => rfl
  | succ n ih =>
    cases l2 with
    | nil => rfl
    | cons buf l2 =>
      rw [head?_cons, Link.ofOption_some, FlushList.batchLoop, (h.inside l1 buf l2 hl).1,
        ih (hl.trans (append_cons ..))]
      rfl

def scanStart (s : Ctl) : Link Nat :=
  if s.currentPos = .out then s.firstFlushBuffer else s.currentPos

theorem Holds.scanStart (h : Holds s l) (hpos : PosOk s.currentPos l) :
    ∃ l1 l2, l = l1 ++ l2 ∧ scanStart s = .ofOption l2.head? := by
  rw [FlushList.scanStart]
  rcases hpos with hout | hstop | ⟨i, hi, heq⟩
  · exact ⟨[], l, rfl, by rw [if_pos hout, h.first_eq]⟩
  · exact ⟨l, [], (append_nil l).symm, by rw [hstop]; rfl⟩
  · obtain ⟨l1, l2, hl⟩ := append_of_mem hi
    exact ⟨l1, i :: l2, hl, by rw [heq]; rfl⟩

theorem Holds.getBatch_eq {g : Guc} {n : Nat} (hn : g.polarBgwriterBatchSizeFlushlist = n)
    (h : Holds s l) (hne : flushListIsEmpty s = false) (hl : l = l1 ++ l2)
    (hstart : FlushList.scanStart s = .ofOption l2.head?) :
    getBatchFlushBuffer g s = some (if .ofOption (l2.drop n).head? = Link.stop ∨
          g.polarBgwriterMaxBatchSize < s.latestFlushCount + (l2.take n).length then
        { s with currentPos := s.firstFlushBuffer, latestFlushCount := 0 }
      else { s with
        currentPos := .ofOption (l2.drop n).head?
        latestFlushCount := s.latestFlushCount + (l2.take n).length }, l2.take n) := by
  rw [FlushList.scanStart] at hstart
  simp only [FlushList.getBatchFlushBuffer, hn, hne, hstart, h.batchLoop _ hl, Bool.false_eq_true,
    if_false, Option.map_some]
  split <;> rfl

theorem Holds.getBatchFlushBuffer (h : Holds s l) (hpos : PosOk s.currentPos l) (g : Guc) :
    ∃ s' batch, getBatchFlushBuffer g s = some (s', batch) ∧ Holds s' l ∧
      PosOk s'.currentPos l ∧ SameLsns s s' := by
  cases hempty : flushListIsEmpty s with
  | true => exact ⟨s, [], by rw [FlushList.getBatchFlushBuffer, if_pos hempty], h, hpos, rfl, rfl⟩
  | false =>
    obtain ⟨l1, l2, rfl, hstart⟩ := h.scanStart hpos
    refine ⟨_, _, h.getBatch_eq rfl hempty rfl hstart, ?_⟩
    split
    · refine ⟨h, ?_, rfl, rfl⟩
      rw [h.first_eq]
      exact posOk_ofOption fun i hi => mem_of_mem_head? hi
    · exact ⟨h, posOk_ofOption fun i hi => mem_append_right _
        (mem_of_mem_drop (mem_of_mem_head? hi)), rfl, rfl⟩

/-! ## One call

`ListInv top s l` is kept by every call that a caller may make, with
`top` the greatest LSN so far. The rules also say what becomes of the
oldest LSNs, which is all that a caller sees. -/

structure ListInv (top : Nat) (s : Ctl) (l : List Nat) : Prop where
  holds : Holds s l
  pos : PosOk s.currentPos l
  sorted : l.Pairwise fun i j => s.oldestLsn i ≤ s.oldestLsn j
  count : s.count = l.length
  bound : ∀ i ∈ l, s.oldestLsn i ≤ top

variable {top : Nat}

theorem listInv_init : ListInv 0 initCtl [] where
  holds := Linked.nil
  pos := .inl rfl
  sorted := List.Pairwise.nil
  count := rfl
  bound _ hi := absurd hi not_mem_nil

theorem ListInv.mono (hinv : ListInv top s l) {top' : Nat} (hle : top ≤ top') : ListInv top' s l :=
  { hinv with bound := fun i hi => Nat.le_trans (hinv.bound i hi) hle }

theorem ListInv.split_of_in (hinv : ListInv top s l) (hin : bufferNotInFlushList s buf = false) :
    ∃ l1 l2, l = l1 ++ buf :: l2 := by
  refine append_of_mem ?_
  by_contra hc
  rw [hinv.holds.not_in_iff.mpr hc] at hin
  cases hin

theorem setOldestLsn_others (s : Ctl) (lsn : Nat) (hbuf : buf ∉ l) :
    ∀ i ∈ l, (setOldestLsn s buf lsn).oldestLsn i = s.oldestLsn i := by
  intro i hi
  have hne : i ≠ buf := fun hc => hbuf (hc ▸ hi)
  exact update_of_ne hne ..

theorem setOldestLsn_self (s : Ctl) (buf lsn : Nat) :
    (setOldestLsn s buf lsn).oldestLsn buf = lsn :=
  update_self ..

theorem setOldestLsn_sorted (lsn : Nat) (hbuf : buf ∉ l)
    (hsorted : l.Pairwise fun i j => s.oldestLsn i ≤ s.oldestLsn j) :
    l.Pairwise fun i j =>
      (setOldestLsn s buf lsn).oldestLsn i ≤ (setOldestLsn s buf lsn).oldestLsn j := by
  refine hsorted.imp_of_mem fun {i j} hi hj hle => ?_
  rwa [setOldestLsn_others s lsn hbuf i hi, setOldestLsn_others s lsn hbuf j hj]

variable {lsn : Nat} {as : List Action} {a : Action}

theorem setOldestLsn_bound (hbuf : buf ∉ l) (hbound : ∀ i ∈ l, s.oldestLsn i ≤ top)
    (hle : top ≤ lsn) :
    ∀ i ∈ l, (setOldestLsn s buf lsn).oldestLsn i ≤ (setOldestLsn s buf lsn).oldestLsn buf := by
  intro i hi
  rw [setOldestLsn_others s lsn hbuf i hi, setOldestLsn_self]
  exact Nat.le_trans (hbound i hi) hle

theorem ListInv.snoc {s1 : Ctl} (hsorted : l.Pairwise fun i j => s1.oldestLsn i ≤ s1.oldestLsn j)
    (hbound : ∀ i ∈ l, s1.oldestLsn i ≤ s1.oldestLsn buf) (hlsn : s1.oldestLsn buf = lsn)
    (hsame : s'.oldestLsn = s1.oldestLsn) (hholds : Holds s' (l ++ [buf]))
    (hpos : PosOk s'.currentPos (l ++ [buf])) (hcount : s'.count = (l ++ [buf]).length) :
    ListInv lsn s' (l ++ [buf]) := by
  rw [← hsame] at hsorted hbound hlsn
  exact ⟨hholds, hpos, pairwise_snoc hsorted hbound, hcount,
    hlsn ▸ forall_mem_snoc hbound (Nat.le_refl _)⟩

theorem ListInv.put {fakeLsn : Nat} (hinv : ListInv top s l)
    (hout : bufferNotInFlushList s buf = true)
    (hle : top ≤ if lsn = invalidXLogRecPtr then fakeLsn else lsn) :
    ∃ s', putBufferToFlushList s buf lsn fakeLsn = some s' ∧
      ListInv (if lsn = invalidXLogRecPtr then fakeLsn else lsn) s' (l ++ [buf]) ∧
      s'.oldestLsn = update s.oldestLsn buf
        (if lsn = invalidXLogRecPtr then fakeLsn else lsn) := by
  have hbuf : buf ∉ l := hinv.holds.not_in_iff.mp hout
  rw [putBufferToFlushList, if_pos hout]
  generalize (if lsn = invalidXLogRecPtr then fakeLsn else lsn) = x at hle ⊢
  have hbound := setOldestLsn_bound hbuf hinv.bound hle
  have hholds : Holds (setOldestLsn s buf x) l := hinv.holds
  obtain ⟨s', happ, hholds', hpos', hsame⟩ := hholds.appendOneBuffer hbuf hinv.pos hbound
  simp only [happ]
  refine ⟨_, rfl, ListInv.snoc (setOldestLsn_sorted x hbuf hinv.sorted) hbound
    (setOldestLsn_self ..) hsame.oldestLsn hholds' hpos' ?_, hsame.oldestLsn⟩
  rw [length_append, ← hinv.count]
  exact congrArg (· + 1) hsame.count

theorem ListInv.not_mem (hinv : ListInv top s (l1 ++ buf :: l2)) : buf ∉ l1 ++ l2 :=
  (nodup_cons.mp (nodup_middle.mp hinv.holds.nodup)).1

theorem sublist_middle (l1 l2 : List Nat) (buf : Nat) : (l1 ++ l2).Sublist (l1 ++ buf :: l2) :=
  List.Sublist.append_left (sublist_cons_self ..) _

theorem ListInv.remove (hinv : ListInv top s (l1 ++ buf :: l2)) :
    ∃ s', removeBufferFromFlushList s buf = some s' ∧ ListInv top s' (l1 ++ l2) ∧
      s'.oldestLsn = update s.oldestLsn buf invalidXLogRecPtr := by
  have hsub := sublist_middle l1 l2 buf
  have hholds : Holds (setOldestLsn s buf invalidXLogRecPtr) (l1 ++ buf :: l2) := hinv.holds
  obtain ⟨s', hrem, hholds', hpos', hsame⟩ := hholds.removeOneBuffer hinv.pos
  rw [removeBufferFromFlushList, hrem]
  refine ⟨_, rfl, ⟨hholds', hpos', ?_, ?_, fun i hi => ?_⟩, hsame.oldestLsn⟩
  · simp only [hsame.oldestLsn]
    exact setOldestLsn_sorted _ hinv.not_mem (hinv.sorted.sublist hsub)
  · have hlen := hinv.count
    simp only [hsame.count]
    rw [length_append] at hlen
    rw [length_append]
    exact Nat.sub_eq_of_eq_add hlen
  · simp only [hsame.oldestLsn]
    rw [setOldestLsn_others s _ hinv.not_mem i hi]
    exact hinv.bound i (hsub.subset hi)

theorem ListInv.adjust {fakeLsn : Nat} (hinv : ListInv top s (l1 ++ buf :: l2))
    (hle : top ≤ fakeLsn) : ∃ s', adjustPositionInFlushList s buf fakeLsn = some s' ∧
      ListInv fakeLsn s' (l1 ++ l2 ++ [buf]) ∧
      s'.oldestLsn = update s.oldestLsn buf fakeLsn := by
  have hsub := sublist_middle l1 l2 buf
  have hin : ¬ bufferNotInFlushList s buf = true := fun hc => hinv.holds.not_in_iff.mp hc (by simp)
  have hbound := setOldestLsn_bound hinv.not_mem (fun i hi => hinv.bound i (hsub.subset hi)) hle
  have hsorted := setOldestLsn_sorted fakeLsn hinv.not_mem (hinv.sorted.sublist hsub)
  have hholds : Holds (setOldestLsn s buf fakeLsn) (l1 ++ buf :: l2) := hinv.holds
  have hnext := (hholds.inside l1 buf l2 rfl).1
  rw [adjustPositionInFlushList, if_neg hin]
  simp only [hnext]
  cases l2 with
  | nil =>
    rw [append_nil] at hsorted hbound ⊢
    exact ⟨_, rfl, ListInv.snoc hsorted hbound (setOldestLsn_self ..) rfl hholds hinv.pos
      hinv.count, rfl⟩
  | cons n l2 =>
    obtain ⟨s1, hrem, hholds1, hpos1, hsame1⟩ := hholds.removeOneBuffer hinv.pos
    obtain ⟨s', happ, hholds', hpos', hsame'⟩ :=
      hholds1.appendOneBuffer hinv.not_mem hpos1 fun i hi => by
        rw [hsame1.oldestLsn]
        exact hbound i hi
    have hsame : s'.oldestLsn = (setOldestLsn s buf fakeLsn).oldestLsn :=
      hsame'.oldestLsn.trans hsame1.oldestLsn
    refine ⟨s', ?_, ListInv.snoc hsorted hbound (setOldestLsn_self ..) hsame hholds' hpos' ?_,
      hsame⟩
    · rwa [if_pos (by exact nofun), hrem]
    · rw [hsame'.count, hsame1.count]
      refine hinv.count.trans ?_
      simp only [length_append, length_cons, length_nil]
      omega

theorem ListInv.getBatch (hinv : ListInv top s l) (g : Guc) :
    ∃ s' batch, getBatchFlushBuffer g s = some (s', batch) ∧ ListInv top s' l := by
  obtain ⟨s', batch, hbatch, hholds, hpos, hsame⟩ := hinv.holds.getBatchFlushBuffer hinv.pos g
  refine ⟨s', batch, hbatch, hholds, hpos, ?_, ?_, fun i hi => ?_⟩
  · rw [hsame.oldestLsn]
    exact hinv.sorted
  · rw [hsame.count]
    exact hinv.count
  · rw [hsame.oldestLsn]
    exact hinv.bound i hi

/-! ## Runs -/

def RunInv (as : List Action) (s : Ctl) : Prop :=
  ∃ l top, ListInv top s l ∧ (top = 0 ∨ top ∈ assignedLsns as)

theorem mem_assignedLsns_append {bs : List Action} {x : Nat} :
    x ∈ assignedLsns (as ++ bs) ↔ x ∈ assignedLsns as ∨ x ∈ assignedLsns bs := by
  rw [assignedLsns, filterMap_append, mem_append]
  rfl

theorem LsnsOk.init (hok : LsnsOk (as ++ [a])) : LsnsOk as := by
  rw [LsnsOk, assignedLsns, filterMap_append] at hok
  exact (pairwise_append.mp hok).1

theorem LsnsOk.le (hok : LsnsOk (as ++ [a]))
    (ha : assignedLsns [a] = [lsn]) (htop : top = 0 ∨ top ∈ assignedLsns as) : top ≤ lsn := by
  rcases htop with rfl | hin
  · exact Nat.zero_le _
  · rw [LsnsOk, assignedLsns, filterMap_append, ← assignedLsns, ← assignedLsns, ha] at hok
    exact (pairwise_append.mp hok).2.2 _ hin lsn (mem_singleton_self _)

theorem RunInv.step (g : Guc) (hinv : RunInv as s) (hcall : CallOk s a) (hok : LsnsOk (as ++ [a])) :
    ∃ s', step g s a = some s' ∧ RunInv (as ++ [a]) s' := by
  obtain ⟨l, top, hinv, htop⟩ := hinv
  have hkeep : top = 0 ∨ top ∈ assignedLsns (as ++ [a]) :=
    htop.imp_right fun hin => mem_assignedLsns_append.mpr (.inl hin)
  have hnew {lsn : Nat} (ha : assignedLsns [a] = [lsn]) : lsn ∈ assignedLsns (as ++ [a]) :=
    mem_assignedLsns_append.mpr (.inr (ha ▸ mem_singleton_self _))
  cases a with
  | put buf lsn fakeLsn =>
    obtain ⟨s', hs', hinv', -⟩ := hinv.put hcall (hok.le rfl htop)
    exact ⟨s', hs', _, _, hinv', .inr (hnew rfl)⟩
  | adjust buf fakeLsn =>
    obtain ⟨l1, l2, rfl⟩ := hinv.split_of_in hcall
    obtain ⟨s', hs', hinv', -⟩ := hinv.adjust (hok.le rfl htop)
    exact ⟨s', hs', _, _, hinv', .inr (hnew rfl)⟩
  | remove buf =>
    obtain ⟨l1, l2, rfl⟩ := hinv.split_of_in hcall
    obtain ⟨s', hs', hinv', -⟩ := hinv.remove
    exact ⟨s', hs', _, _, hinv', hkeep⟩
  | getBatch =>
    obtain ⟨s', batch, hbatch, hinv'⟩ := hinv.getBatch g
    exact ⟨s', by rw [FlushList.step, hbatch]; rfl, _, _, hinv', hkeep⟩

structure FlushListOk (s : Ctl) (l : List Nat) : Prop where
  nodup : l.Nodup
  forward : Walks s.flushNext s.firstFlushBuffer l
  backward : Walks s.flushPrev s.lastFlushBuffer l.reverse
  mem_next : ∀ i, i ∈ l ↔ s.flushNext i ≠ .out
  mem_prev : ∀ i, i ∈ l ↔ s.flushPrev i ≠ .out
  sorted : l.Pairwise fun i j => s.oldestLsn i ≤ s.oldestLsn j
  pos : PosOk s.currentPos l
  count : s.count = l.length

theorem ListInv.flushListOk (hinv : ListInv top s l) : FlushListOk s l :=
  { hinv with
    nodup := hinv.holds.nodup
    forward := hinv.holds.walk_next
    backward := hinv.holds.walk_prev
    mem_next _ := hinv.holds.mem_iff_next
    mem_prev _ := hinv.holds.mem_iff_prev }

/-- Any calls within their conditions succeed, and the links hold a list
that is sorted by oldest LSN. -/
theorem flushList_ok (g : Guc) {as : List Action} (hlsns : LsnsOk as)
    (hcalls : Meets (step g) CallOk initCtl as) :
    ∃ s l, exec (step g) initCtl as = some s ∧ FlushListOk s l := by
  obtain ⟨s, hs, l, top, hinv, -⟩ := exec_total_of_meets RunInv LsnsOk
    (fun _ _ => LsnsOk.init) (fun _ _ _ hinv hcall hok => hinv.step g hcall hok)
    ⟨[], 0, listInv_init, .inl rfl⟩ hcalls hlsns
  exact ⟨s, l, hs, hinv.flushListOk⟩

/-- Three buffers, the first of them moved to the tail while it is the
shared position, and the last one removed. -/
def movedRun : List Action :=
  [.put 4 10 0, .put 7 0 11, .put 2 12 0, .getBatch, .adjust 4 13, .remove 2, .getBatch]

theorem flushList_ok_moved : ∃ s l,
    exec (step ⟨3, 10⟩) initCtl movedRun = some s ∧ FlushListOk s l :=
  flushList_ok ⟨3, 10⟩ (show LsnsOk movedRun by rw [LsnsOk]; decide) (by decide)

end PolarDB.FlushList
