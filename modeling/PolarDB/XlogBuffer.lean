import PolarDB.Lts

/-!
# The shared WAL page buffer

A slot of the buffer has a range of LSNs, a page and a lock
(`polar_xlogbuf.c`). `polar_xlog_buffer_lookup` returns with the lock held
shared if the slot has the range asked for, or held exclusively if the
slot is to be filled by the caller. In the second case the range of the
slot is already the new one, and the caller's bytes come later: from pages
read before (read-ahead), or from a read of the file in between (the
local page reader), which may fail with an error that releases the lock.

An unlocked slot has the WAL bytes of its range (`SlotOk`). Only a failed
read breaks this: the slot then claims a range it never got (`stale_hit`).
With every fill successful, what a lookup returns is WAL (`lookup_bytes`). A
slot without a page has LSN 0 as its range, which must not be looked up.
-/

namespace PolarDB.XlogBuffer

open Function Option

/-! ## State -/

structure Conf where
  blckSz : Nat
  slotNum : Nat
  wal : Nat → UInt8

/-- `polar_get_xlog_buffer_id`. -/
def Conf.bufId (conf : Conf) (lsn : Nat) : Nat :=
  lsn / conf.blckSz % conf.slotNum

structure Slot where
  startLsn : Nat
  endLsn : Nat
  bytes : Nat → UInt8

/-- Who looks a page up: `XLogPageRead` without eviction, the local page
reader, and read-ahead, which has the bytes already. -/
inductive Caller where
  | pageRead
  | localRead
  | readAhead
  deriving DecidableEq

def Caller.doEvict : Caller → Bool
  | .pageRead => false
  | .localRead | .readAhead => true

inductive Pc where
  | idle
  /-- The lookup decided to evict and gave up the shared lock. -/
  | evict (lsn len : Nat) (caller : Caller)
  /-- The lookup returned false with the slot locked exclusively. -/
  | fill (lsn len : Nat) (caller : Caller)
  /-- The lookup returned true with the slot locked shared. -/
  | hit (lsn len : Nat)
  /-- In `polar_xlog_buffer_reset_all_buffer`, before slot `bufId`. -/
  | reset (bufId : Nat)
  deriving DecidableEq

structure State where
  slots : Nat → Slot
  readers : Nat → List Nat
  writer : Nat → Option Nat
  procs : Nat → Pc

def State.setPc (s : State) (i : Nat) (pc : Pc) : State :=
  { s with procs := update s.procs i pc }

def State.setSlot (s : State) (b : Nat) (slot : Slot) : State :=
  { s with slots := update s.slots b slot }

def State.unlocked (s : State) (b : Nat) : Bool :=
  s.writer b = none && s.readers b = []

/-! ## Steps -/

def Slot.has (slot : Slot) (lsn len : Nat) : Prop :=
  slot.startLsn = lsn ∧ slot.endLsn ≥ lsn + len - 1

instance (slot : Slot) (lsn len : Nat) : Decidable (slot.has lsn len) :=
  inferInstanceAs (Decidable (_ ∧ _))

def Slot.shouldEvict (slot : Slot) (lsn len : Nat) : Bool :=
  !(slot.endLsn ≥ lsn + len - 1)

/-- `polar_xlog_buffer_lookup` up to the release of the shared lock, or to
the return if that is before. -/
def State.lookup (conf : Conf) (s : State) (i lsn len : Nat) (caller : Caller) : State :=
  let b := conf.bufId lsn
  if (s.slots b).has lsn len then
    { s.setPc i (.hit lsn len) with readers := update s.readers b (i :: s.readers b) }
  else if caller.doEvict = false ∨ (s.slots b).shouldEvict lsn len = false then s
  else s.setPc i (.evict lsn len caller)

/-- The rest of the lookup: the range is set before there are bytes. -/
def State.evict (conf : Conf) (s : State) (i lsn len : Nat) (caller : Caller) : State :=
  let b := conf.bufId lsn
  { (s.setPc i (.fill lsn len caller)).setSlot b
      { s.slots b with startLsn := lsn, endLsn := lsn + len - 1 } with
    writer := update s.writer b (some i) }

/-- The caller copies the page and unlocks; if its read has failed, the
error handling unlocks. -/
def State.fill (conf : Conf) (s : State) (i lsn len : Nat) (readOk : Bool) : State :=
  let b := conf.bufId lsn
  let bytes := fun k => if k < len then conf.wal (lsn + k) else (s.slots b).bytes k
  { (s.setPc i .idle).setSlot b
    (if readOk then { s.slots b with bytes := bytes } else s.slots b) with
    writer := update s.writer b none }

def Slot.update (slot : Slot) (pageOff lsn : Nat) : Slot :=
  if slot.startLsn = pageOff ∧ slot.endLsn > lsn then { slot with endLsn := lsn } else slot

def Slot.invalidate (slot : Slot) : Slot :=
  { slot with startLsn := 0, endLsn := 0 }

def Slot.remove (slot : Slot) (pageOff : Nat) : Slot :=
  if slot.startLsn = pageOff then slot.invalidate else slot

def Conf.pageOff (conf : Conf) (lsn : Nat) : Nat :=
  lsn - lsn % conf.blckSz

inductive Action where
  | lookup (i lsn len : Nat) (caller : Caller)
  | evict (i : Nat)
  | fill (i : Nat) (readOk : Bool)
  | unlock (i : Nat)
  | update (lsn : Nat)
  | remove (lsn : Nat)
  | resetAll (i : Nat)
  | reset (i : Nat)
  deriving DecidableEq

def step (conf : Conf) (s : State) : Action → Option State
  | .lookup i lsn len caller =>
    if s.procs i = .idle ∧ lsn % conf.blckSz = 0 ∧ len ≤ conf.blckSz ∧
        s.writer (conf.bufId lsn) = none then
      some (s.lookup conf i lsn len caller)
    else none
  | .evict i =>
    match s.procs i with
    | .evict lsn len caller =>
      if s.unlocked (conf.bufId lsn) then some (s.evict conf i lsn len caller) else none
    | _ => none
  | .fill i readOk =>
    match s.procs i with
    | .fill lsn len caller =>
      -- read-ahead has read before the lookup
      if readOk = true ∨ caller = .localRead then some (s.fill conf i lsn len readOk) else none
    | _ => none
  | .unlock i =>
    match s.procs i with
    | .hit lsn _ =>
      let b := conf.bufId lsn
      some { s.setPc i .idle with
        readers := update s.readers b ((s.readers b).erase i) }
    | _ => none
  | .update lsn =>
    let b := conf.bufId lsn
    if s.unlocked b then some (s.setSlot b ((s.slots b).update (conf.pageOff lsn) lsn)) else none
  | .remove lsn =>
    let b := conf.bufId lsn
    if s.unlocked b then some (s.setSlot b ((s.slots b).remove (conf.pageOff lsn))) else none
  | .resetAll i =>
    match s.procs i with
    | .idle => some (s.setPc i (.reset 0))
    | _ => none
  | .reset i =>
    match s.procs i with
    | .reset b =>
      if b < conf.slotNum then
        if s.unlocked b then
          some ((s.setSlot b (s.slots b).invalidate).setPc i (.reset (b + 1)))
        else none
      else some (s.setPc i .idle)
    | _ => none

/-- `polar_init_xlog_buffer`: slots without a page, whatever is in memory. -/
def State.init (junk : Nat → Nat → UInt8) : State where
  slots b := ⟨0, 0, junk b⟩
  readers _ := []
  writer _ := none
  procs _ := .idle

/-- The file can be read, and nobody asks for the invalid LSN. -/
def StepOk : Action → Prop
  | .lookup _ lsn _ _ => lsn ≠ 0
  | .fill _ readOk => readOk = true
  | _ => True

instance : (a : Action) → Decidable (StepOk a)
  | .lookup _ lsn _ _ => inferInstanceAs (Decidable (lsn ≠ 0))
  | .fill _ readOk => inferInstanceAs (Decidable (readOk = true))
  | .evict _ | .unlock _ | .update _ | .remove _ | .resetAll _ | .reset _ => isTrue trivial

/-! ## The invariant -/

def SlotOk (wal : Nat → UInt8) (slot : Slot) : Prop :=
  slot.startLsn ≠ 0 → ∀ k, slot.startLsn + k ≤ slot.endLsn → slot.bytes k = wal (slot.startLsn + k)

variable {wal : Nat → UInt8} {slot : Slot}

theorem SlotOk.update (h : SlotOk wal slot) (pageOff lsn : Nat) :
    SlotOk wal (slot.update pageOff lsn) := by
  unfold Slot.update
  split
  · rename_i hshrink
    exact fun hvalid k hk => h hvalid k (Nat.le_of_lt (Nat.lt_of_le_of_lt hk hshrink.2))
  · exact h

theorem slotOk_invalidate (wal : Nat → UInt8) (slot : Slot) : SlotOk wal slot.invalidate :=
  fun hvalid => absurd rfl hvalid

theorem SlotOk.remove (h : SlotOk wal slot) (pageOff : Nat) : SlotOk wal (slot.remove pageOff) := by
  unfold Slot.remove
  split
  · exact slotOk_invalidate wal slot
  · exact h

def PcOk (conf : Conf) (s : State) (i : Nat) : Pc → Prop
  | .hit lsn len =>
    i ∈ s.readers (conf.bufId lsn) ∧
      ∀ k < len, (s.slots (conf.bufId lsn)).bytes k = conf.wal (lsn + k)
  | .fill lsn len _ =>
    lsn ≠ 0 ∧ s.writer (conf.bufId lsn) = some i ∧ (s.slots (conf.bufId lsn)).startLsn = lsn ∧
      (s.slots (conf.bufId lsn)).endLsn = lsn + len - 1
  | .evict lsn _ _ => lsn ≠ 0
  | .idle | .reset _ => True

structure Inv (conf : Conf) (s : State) : Prop where
  slots : ∀ b, s.writer b = none → SlotOk conf.wal (s.slots b)
  procs : ∀ i, PcOk conf s i (s.procs i)
  modes : ∀ b, s.writer b ≠ none → s.readers b = []

theorem Inv.init (conf : Conf) (junk : Nat → Nat → UInt8) : Inv conf (State.init junk) where
  slots _ _ := fun hvalid => absurd rfl hvalid
  procs _ := trivial
  modes _ _ := rfl

section Inv

variable {conf : Conf} {s s' : State} {i : Nat}
  {b len lsn : Nat} {pc : Pc} {slot : Slot} {caller : Caller}

theorem unlocked_iff : s.unlocked b = true ↔ s.writer b = none ∧ s.readers b = [] := by
  simp [State.unlocked]

/-- A process is not concerned by changes of other slots, nor of its own as
long as it holds no lock on it. -/
theorem PcOk.frame (h : PcOk conf s i pc)
    (hhit : ∀ lsn len, pc = .hit lsn len →
      (i ∈ s.readers (conf.bufId lsn) → i ∈ s'.readers (conf.bufId lsn)) ∧
        s'.slots (conf.bufId lsn) = s.slots (conf.bufId lsn))
    (hfill : ∀ lsn len caller, pc = .fill lsn len caller →
      s'.writer (conf.bufId lsn) = s.writer (conf.bufId lsn) ∧
        s'.slots (conf.bufId lsn) = s.slots (conf.bufId lsn)) : PcOk conf s' i pc := by
  cases pc with
  | hit lsn len =>
    obtain ⟨hreaders, hslot⟩ := hhit lsn len rfl
    exact ⟨hreaders h.1, hslot ▸ h.2⟩
  | fill lsn len caller =>
    obtain ⟨hwriter, hslot⟩ := hfill lsn len caller rfl
    exact ⟨h.1, hwriter ▸ h.2.1, hslot ▸ h.2.2.1, hslot ▸ h.2.2.2⟩
  | idle | evict _ _ _ | reset _ => exact h

section

variable (h : Inv conf s)
include h

theorem PcOk.setPc (hslots : s'.slots = s.slots) (hwriter : s'.writer = s.writer)
    (hreaders : ∀ j ≠ i, ∀ b, j ∈ s.readers b → j ∈ s'.readers b)
    (hprocs : s'.procs = update s.procs i pc) (hpc : PcOk conf s' i pc) (j : Nat) :
    PcOk conf s' j (s'.procs j) := by
  rw [hprocs]
  refine (forall_update_iff s.procs (PcOk conf s')).mpr ⟨hpc, fun j hj => ?_⟩ j
  exact (h.procs j).frame (fun _ _ _ => ⟨hreaders j hj _, by rw [hslots]⟩)
    (fun _ _ _ _ => ⟨by rw [hwriter], by rw [hslots]⟩)

theorem Inv.setPc (hpc : PcOk conf (s.setPc i pc) i pc) : Inv conf (s.setPc i pc) :=
  { h with
    procs := PcOk.setPc h rfl rfl (fun _ _ _ => id) rfl hpc }

/-- Slot `b` changes while nobody but process `i` has it locked. -/
theorem PcOk.setSlot (s' : State) (hreaders : s.readers b = [])
    (hmine : ∀ j, s.writer b = some j → j = i)
    (hslots : ∀ b' ≠ b, s'.slots b' = s.slots b' ∧ s'.writer b' = s.writer b')
    (hsame : s'.readers = s.readers) {j : Nat} (hj : j ≠ i) : PcOk conf s' j (s.procs j) := by
  have hpc := h.procs j
  refine hpc.frame (fun lsn len heq => ?_) (fun lsn len caller heq => ?_)
  · rw [heq] at hpc
    have hne : conf.bufId lsn ≠ b := by
      intro hb
      have hmem := hpc.1
      rw [hb, hreaders] at hmem
      cases hmem
    exact ⟨by rw [hsame]; exact id, (hslots _ hne).1⟩
  · rw [heq] at hpc
    have hne : conf.bufId lsn ≠ b := by
      intro hb
      have hwriter := hpc.2.1
      rw [hb] at hwriter
      exact hj (hmine j hwriter)
    exact ⟨(hslots _ hne).2, (hslots _ hne).1⟩

/-- The same as a step of process `i`, which then holds the lock of the slot
exclusively or not at all. -/
theorem Inv.change (hreaders : s.readers b = [])
    (hmine : ∀ j, s.writer b = some j → j = i) (writer : Option Nat)
    (hslot : writer = none → SlotOk conf.wal slot)
    (hpc : PcOk conf { (s.setPc i pc).setSlot b slot with
      writer := update s.writer b writer } i pc) :
    Inv conf { (s.setPc i pc).setSlot b slot with
      writer := update s.writer b writer } where
  slots b' hb' := by
    by_cases heq : b' = b
    · subst heq
      simpa [State.setSlot] using hslot (by simpa using hb')
    · simpa [State.setSlot, State.setPc, heq] using h.slots b' (by simpa [heq] using hb')
  procs j := by
    by_cases hj : j = i
    · subst hj
      simpa [State.setSlot, State.setPc] using hpc
    · have hother := PcOk.setSlot h { (s.setPc i pc).setSlot b slot with
          writer := update s.writer b writer } hreaders hmine
        (fun b' hb' => ⟨update_of_ne hb' _ _, update_of_ne hb' _ _⟩) rfl hj
      simpa [State.setSlot, State.setPc, hj] using hother
  modes b' hb' := by
    by_cases heq : b' = b
    · subst heq
      exact hreaders
    · exact h.modes b' (by simpa [heq] using hb')

theorem Inv.setSlot (hfree : s.unlocked b = true)
    (hslot : SlotOk conf.wal slot) : Inv conf (s.setSlot b slot) where
  slots b' hb' := by
    by_cases heq : b' = b
    · subst heq
      simpa [State.setSlot] using hslot
    · simpa [State.setSlot, heq] using h.slots b' hb'
  procs j := by
    obtain ⟨hwriter, hreaders⟩ := unlocked_iff.mp hfree
    exact PcOk.setSlot h (s.setSlot b slot) hreaders (by simp [hwriter])
      (fun b' hb' => ⟨update_of_ne hb' _ _, rfl⟩) rfl (Nat.ne_of_lt (Nat.lt_succ_self j))
  modes := h.modes

end

/-! ## The steps -/

theorem Slot.has.bytes_eq {wal : Nat → UInt8}
    (hhas : slot.has lsn len) (hslot : SlotOk wal slot) (hlsn : lsn ≠ 0) :
    ∀ k < len, slot.bytes k = wal (lsn + k) := by
  obtain ⟨rfl, hend⟩ := hhas
  exact fun k hk => hslot hlsn k (by omega)

section

variable (h : Inv conf s)
include h

theorem Inv.lookup (hlsn : lsn ≠ 0) (hwriter : s.writer (conf.bufId lsn) = none) :
    Inv conf (s.lookup conf i lsn len caller) := by
  simp only [State.lookup]
  split
  case isTrue hhas =>
    have hbytes := Slot.has.bytes_eq hhas (h.slots _ hwriter) hlsn
    refine ⟨h.slots, ?_, ?_⟩
    · refine PcOk.setPc h rfl rfl (fun j _ b hmem => ?_) rfl ⟨?_, hbytes⟩
      · by_cases hb : b = conf.bufId lsn
        · subst hb
          simp [hmem]
        · simpa [hb] using hmem
      · simp
    · intro b hb
      have hne : b ≠ conf.bufId lsn := by
        rintro rfl
        exact hb hwriter
      simpa [hne] using h.modes b hb
  case isFalse =>
    split
    · exact h
    · exact h.setPc hlsn

theorem Inv.evict
    (hpc : s.procs i = .evict lsn len caller) (hfree : s.unlocked (conf.bufId lsn) = true) :
    Inv conf (s.evict conf i lsn len caller) := by
  obtain ⟨hwriter, hreaders⟩ := unlocked_iff.mp hfree
  have hlsn : lsn ≠ 0 := by
    have := h.procs i
    rwa [hpc] at this
  refine h.change hreaders (by simp [hwriter]) (some i) nofun ?_
  simp [State.setSlot, PcOk, hlsn]

theorem Inv.fill (hpc : s.procs i = .fill lsn len caller) :
    Inv conf (s.fill conf i lsn len true) := by
  have hmine := h.procs i
  rw [hpc] at hmine
  obtain ⟨hlsn, hwriter, hstart, hend⟩ := hmine
  have hreaders : s.readers (conf.bufId lsn) = [] := h.modes _ (by simp [hwriter])
  refine h.change hreaders (by simp [hwriter]) none (fun _ _ k hk => ?_) trivial
  simp only [if_true, hstart] at hk ⊢
  rw [if_pos (by omega)]

theorem Inv.unlock (b : Nat) :
    Inv conf { s.setPc i .idle with readers := update s.readers b ((s.readers b).erase i) } := by
  refine ⟨h.slots, ?_, fun b' hb' => ?_⟩
  · refine PcOk.setPc h rfl rfl (fun j hj b' hmem => ?_) rfl trivial
    by_cases heq : b' = b
    · subst heq
      simpa using (List.mem_erase_of_ne hj).mpr hmem
    · simpa [heq] using hmem
  · have hempty := h.modes b' hb'
    by_cases heq : b' = b
    · subst heq
      simp [hempty]
    · simpa [heq] using hempty

theorem Inv.step {a : Action} (hok : StepOk a)
    (hs : XlogBuffer.step conf s a = some s') : Inv conf s' := by
  cases a with
  | lookup i lsn len caller =>
    obtain ⟨hguard, rfl⟩ := ite_some_none_eq_some.mp hs
    exact h.lookup hok hguard.2.2.2
  | evict i =>
    simp only [XlogBuffer.step] at hs
    split at hs
    case h_1 lsn len caller hpc =>
      obtain ⟨hfree, rfl⟩ := ite_some_none_eq_some.mp hs
      exact h.evict hpc hfree
    case h_2 => cases hs
  | fill i readOk =>
    simp only [XlogBuffer.step] at hs
    split at hs
    case h_1 lsn len caller hpc =>
      obtain ⟨-, rfl⟩ := ite_some_none_eq_some.mp hs
      have hread : readOk = true := hok
      subst hread
      exact h.fill hpc
    case h_2 => cases hs
  | unlock i =>
    simp only [XlogBuffer.step] at hs
    split at hs
    · cases hs
      exact h.unlock _
    · cases hs
  | update lsn =>
    obtain ⟨hfree, rfl⟩ := ite_some_none_eq_some.mp hs
    exact h.setSlot hfree ((h.slots _ (unlocked_iff.mp hfree).1).update _ _)
  | remove lsn =>
    obtain ⟨hfree, rfl⟩ := ite_some_none_eq_some.mp hs
    exact h.setSlot hfree ((h.slots _ (unlocked_iff.mp hfree).1).remove _)
  | resetAll i =>
    simp only [XlogBuffer.step] at hs
    split at hs
    · cases hs
      exact h.setPc trivial
    · cases hs
  | reset i =>
    simp only [XlogBuffer.step] at hs
    split at hs
    case h_1 b _ =>
      split at hs
      · obtain ⟨hfree, rfl⟩ := ite_some_none_eq_some.mp hs
        exact (h.setSlot hfree (slotOk_invalidate _ _)).setPc trivial
      · cases hs
        exact h.setPc trivial
    case h_2 => cases hs

end

end Inv

/-! ## What a lookup returns -/

/-- In every run of successful file reads that looks up no invalid LSN, the
slot of a lookup that returned true has the WAL bytes asked for, for as
long as the lookup's lock is held. -/
theorem lookup_bytes (conf : Conf) (junk : Nat → Nat → UInt8) {as : List Action} {s : State}
    (hok : Meets (step conf) (fun _ a => StepOk a) (State.init junk) as)
    (hs : exec (step conf) (State.init junk) as = some s) {i lsn len : Nat}
    (hhit : s.procs i = .hit lsn len) :
    ∀ k < len, (s.slots (conf.bufId lsn)).bytes k = conf.wal (lsn + k) := by
  have hinv : Inv conf s := exec_invariant_of_meets (fun _ s => Inv conf s)
    (fun _ _ _ _ h hP hs => h.step hP hs) (Inv.init conf junk) hok hs
  have hpc := hinv.procs i
  rw [hhit] at hpc
  exact hpc.2

def tiny : Conf := ⟨4, 2, fun lsn => UInt8.ofNat lsn⟩

/-- The local reader fills slot 0 with the page at 8 and the page is found;
then read-ahead evicts it for the page at 16. -/
def fillRun : List Action :=
  [.lookup 0 8 4 .localRead, .evict 0, .fill 0 true, .lookup 1 8 3 .pageRead, .unlock 1,
    .update 10, .lookup 2 16 4 .readAhead, .evict 2, .fill 2 true, .lookup 0 16 4 .localRead]

theorem lookup_bytes_fillRun : ∃ s, exec (step tiny) (State.init fun _ _ => 0) fillRun = some s ∧
      s.procs 0 = .hit 16 4 ∧ ∀ k < 4, (s.slots (tiny.bufId 16)).bytes k = tiny.wal (16 + k) := by
  refine exec_eval (E := fun s => s.procs 0 = .hit 16 4) (by decide) fun s hs hhit => ?_
  exact ⟨hhit, lookup_bytes tiny _ (by decide) hs hhit⟩

/-- The local reader's read fails after the lookup has set the range; the
next lookup of the page finds it, with whatever was in the slot. -/
def failedRead : List Action :=
  [.lookup 0 8 4 .localRead, .evict 0, .fill 0 false, .lookup 1 8 4 .pageRead]

theorem stale_hit : (exec (step tiny) (State.init fun _ _ => 0) failedRead).map
      (fun s => (s.procs 1, (s.slots (tiny.bufId 8)).bytes 0, tiny.wal 8)) =
        some (.hit 8 4, 0, 8) := by
  decide

end PolarDB.XlogBuffer
