import PolarDB.ConsensusSlruInv

/-!
# One step of a thread

The steps that keep the page cache consistent are those of `StepOk`: no entry
is appended to a page while it is being written, and only the first dirty page
is written. `PcOk` is what a thread relies on while another has the lock,
`Keeps` what a step leaves to the other threads, and `Covered` which pages are
in the files without being durable yet. `Good` collects what one step has to
show; there is one lemma for each operation of the cache.
-/

namespace PolarDB.ConsensusSlru

open Function List

/-! ## The condition -/

/-- The entry goes to a page that is not being written, and if it is to be
written at once no other page is dirty before it. -/
def AppendOk (m : Store) (i : Nat) : Goal → Prop
  | .read _ => True
  | .append _ _ _ flush =>
    (m.slots i).status ≠ .writeInProgress
      ∧ (flush = true → m.firstDirtySlot = none ∨ m.firstDirtySlot = some i)

instance (m : Store) (i : Nat) : ∀ g, Decidable (AppendOk m i g)
  | .read _ => .isTrue trivial
  | .append _ _ _ _ => inferInstanceAs (Decidable (_ ∧ _))

def WriteOk (m : Store) (i pageno : Nat) : Prop :=
  (m.slots i).dirty = true ∧ (m.slots i).status = .valid ∧ (m.slots i).pageNumber = pageno →
    m.firstDirtySlot = some i

instance (m : Store) (i pageno : Nat) : Decidable (WriteOk m i pageno) :=
  inferInstanceAs (Decidable (_ → _))

def SelectOk (numSlots : Nat) (m : Store) (c : Choice) (g : Goal) : Prop :=
  match findSlot numSlots m g.pageno, c with
  | some i, _ => ¬Waits m i g → AppendOk m i g
  | none, .use i => g.extend = true → AppendOk m i g
  | none, _ => True

instance (numSlots : Nat) (m : Store) (c : Choice) (g : Goal) :
    Decidable (SelectOk numSlots m c g) :=
  match h : findSlot numSlots m g.pageno, c with
  | some i, _ => decidable_of_iff (¬Waits m i g → AppendOk m i g) (by simp [SelectOk, h])
  | none, .use i => decidable_of_iff (g.extend = true → AppendOk m i g) (by simp [SelectOk, h])
  | none, .wait => .isTrue (by simp [SelectOk, h])
  | none, .write => .isTrue (by simp [SelectOk, h])

def LockedOk (numSlots : Nat) (m : Store) (c : Choice) : Pc → Prop
  | .select g => SelectOk numSlots m c g
  | .readDone i g ok => ok = true → AppendOk m i g
  | .check i pageno _ => WriteOk m i pageno
  | _ => True

instance (numSlots : Nat) (m : Store) (c : Choice) : ∀ pc, Decidable (LockedOk numSlots m c pc)
  | .idle | .reading .. | .writing .. | .wrote .. | .flushTop .. | .syncing .. | .written ..
  | .flushed .. => .isTrue trivial
  | .select g => inferInstanceAs (Decidable (SelectOk numSlots m c g))
  | .readDone i g ok => inferInstanceAs (Decidable (ok = true → AppendOk m i g))
  | .check i pageno _ => inferInstanceAs (Decidable (WriteOk m i pageno))

/-- No entry is appended to a page while it is being written, and only the
first dirty page is written. -/
def StepOk (numSlots : Nat) (s : State) : Action → Prop
  | .locked t c => LockedOk numSlots s.store c (s.threads t)
  | _ => True

instance (numSlots : Nat) (s : State) : ∀ a, Decidable (StepOk numSlots s a)
  | .append .. | .flush _ | .read .. | .io .. | .leave _ => .isTrue trivial
  | .locked t c => inferInstanceAs (Decidable (LockedOk numSlots s.store c (s.threads t)))

/-! ## What a thread relies on -/

variable {numSlots t i pageno : Nat} {o : Option Nat} {m m' m1 : Store} {pc pc1 : Pc}
  {r : Store × Pc} {g : Goal} {k : Caller}

def Busy (m : Store) (i : Nat) : Prop :=
  (m.slots i).status = .readInProgress ∨ (m.slots i).status = .writeInProgress

theorem Busy.ne_empty (h : Busy m i) : (m.slots i).status ≠ .empty := by
  rcases h with h | h <;> rw [h] <;> decide

def Pc.owns : Pc → Option Nat
  | .reading i _ | .readDone i _ _ | .writing i _ _ _ | .wrote i _ _ _ => some i
  | _ => none

/-- Readers ask for pages that were started, the appender for the latest page
or for one behind all others. -/
def GoalOk (m : Store) (t : Nat) : Goal → Prop
  | .read pageno => Known m pageno
  | .append pageno extend _ _ => t = appender
      ∧ (extend = true → ∀ p, Known m p → p < pageno)
      ∧ (extend = false → m.latestPageNumber = some pageno)

def CallerOk (m : Store) (t pageno : Nat) : Caller → Prop
  | .victim g => GoalOk m t g
  | .writePage p before => t = appender ∧ p = pageno ∧ before <+: m.content p
  | .flush _ seg _ _ before => t = flusher ∧ seg = segno pageno ∧ ∀ p, before p <+: m.content p

def Reads (m : Store) (i : Nat) (g : Goal) : Prop :=
  (m.slots i).status = .readInProgress ∧ (m.slots i).pageNumber = g.pageno ∧ g.extend = false

def Writes (m : Store) (i pageno : Nat) : Prop :=
  (m.slots i).status = .writeInProgress ∧ (m.slots i).pageNumber = pageno
    ∧ m.firstDirtySlot = some i

/-- A written page is durable, or a flush has the file open. -/
def Caller.Kept (m : Store) (pageno : Nat) : Caller → Prop
  | .flush _ _ _ opened _ => opened = true
  | _ => m.durable pageno = m.content pageno

def PcOk (m : Store) (t : Nat) : Pc → Prop
  | .idle => True
  | .select g => GoalOk m t g
  | .reading i g => GoalOk m t g ∧ Reads m i g
  | .readDone i g ok => GoalOk m t g ∧ Reads m i g
      ∧ (ok = true → (m.slots i).buffer = m.content g.pageno)
  | .check _ pageno k => CallerOk m t pageno k ∧ ∀ p before, k ≠ .writePage p before
  | .writing i pageno offset k => CallerOk m t pageno k ∧ Writes m i pageno
      ∧ offset = m.firstDirtyOffset
  | .wrote i pageno ok k => CallerOk m t pageno k ∧ Writes m i pageno
      ∧ (ok = true → m.file pageno = m.content pageno ∧ k.Kept m pageno)
  | .flushTop _ before => t = flusher ∧ ∀ p, before p <+: m.content p
  | .syncing _ _ _ _ before => t = flusher ∧ ∀ p, before p <+: m.content p
  | .written ok p before => ok = true → before <+: m.durable p
  | .flushed ok limit before => ok = true → limit = 0 → ∀ p, before p <+: m.durable p

structure Keeps (t : Nat) (o : Option Nat) (m m' : Store) : Prop where
  slots : ∀ i, Busy m i → o ≠ some i → m'.slots i = m.slots i
  own : ∀ i, Busy m i → o ≠ some i →
    m'.content (m.slots i).pageNumber = m.content (m.slots i).pageNumber
  first : ∀ i, (m.slots i).status = .writeInProgress → m.firstDirtySlot = some i →
    o ≠ some i → m'.firstDirtySlot = m.firstDirtySlot
      ∧ m'.firstDirtyOffset = m.firstDirtyOffset
  content : ∀ p, m.content p <+: m'.content p
  file : ∀ p, m.file p <+: m'.file p
  durable : ∀ p, m.durable p <+: m'.durable p
  known : ∀ p, Known m p → Known m' p
  latest : t ≠ appender → m'.latestPageNumber = m.latestPageNumber

theorem Keeps.refl (t : Nat) (o : Option Nat) (m : Store) : Keeps t o m m :=
  ⟨fun _ _ _ => rfl, fun _ _ _ => rfl, fun _ _ _ _ => ⟨rfl, rfl⟩, fun _ => prefix_refl _,
    fun _ => prefix_refl _, fun _ => prefix_refl _, fun _ => id, fun _ => rfl⟩

theorem Keeps.busy (h : Keeps t o m m') (hb : Busy m i) (ho : o ≠ some i) : Busy m' i := by
  rwa [Busy, h.slots i hb ho]

theorem Keeps.trans (h : Keeps t o m m1) (h' : Keeps t none m1 m') : Keeps t o m m' where
  slots i hb ho := (h'.slots i (h.busy hb ho) (Option.some_ne_none i).symm).trans (h.slots i hb ho)
  own i hb ho := by
    have := h'.own i (h.busy hb ho) (Option.some_ne_none i).symm
    rw [h.slots i hb ho] at this
    exact this.trans (h.own i hb ho)
  first i hs hf ho := by
    obtain ⟨hf1, ho1⟩ := h.first i hs hf ho
    have hs1 : (m1.slots i).status = .writeInProgress := by rw [h.slots i (.inr hs) ho]; exact hs
    obtain ⟨hf2, ho2⟩ := h'.first i hs1 (hf1.trans hf) (Option.some_ne_none i).symm
    exact ⟨hf2.trans hf1, ho2.trans ho1⟩
  content p := (h.content p).trans (h'.content p)
  file p := (h.file p).trans (h'.file p)
  durable p := (h.durable p).trans (h'.durable p)
  known p hp := h'.known p (h.known p hp)
  latest ht := (h'.latest ht).trans (h.latest ht)

variable {x : Slot}

theorem keeps_put (h : Puts m m' i x) (hi : Busy m i → o = some i)
    (hown : ∀ j, j ≠ i → Busy m j → m'.content (m.slots j).pageNumber =
      m.content (m.slots j).pageNumber)
    (hfirst : ∀ j, m.firstDirtySlot = some j → o ≠ some j →
      m'.firstDirtySlot = m.firstDirtySlot ∧ m'.firstDirtyOffset = m.firstDirtyOffset)
    (hlatest : t ≠ appender → m'.latestPageNumber = m.latestPageNumber) : Keeps t o m m' := by
  have hne : ∀ j, Busy m j → o ≠ some j → j ≠ i := fun j hb ho e => ho (e ▸ hi (e ▸ hb))
  exact
    { slots j hb ho := h.of_ne (hne j hb ho)
      own j hb ho := hown j (hne j hb ho) hb
      first j _ hj ho := hfirst j hj ho
      content := h.content
      file p := by rw [h.file]
      durable p := by rw [h.durable]
      known := h.known
      latest := hlatest }

theorem keeps_setSlot (hi : Busy m i → o = some i) : Keeps t o m (m.setSlot i x) :=
  keeps_put (puts_setSlot m i x) hi (fun _ _ _ => rfl) (fun _ _ _ => ⟨rfl, rfl⟩) fun _ => rfl

theorem GoalOk.of_latest (hlatest : m'.latestPageNumber = m.latestPageNumber)
    (h : GoalOk m t g) : GoalOk m' t g := by
  cases g <;> simpa only [GoalOk, Known, hlatest] using h

theorem CallerOk.mono (hg : ∀ g, GoalOk m t g → GoalOk m' t g)
    (hcontent : ∀ p, m.content p <+: m'.content p) (h : CallerOk m t pageno k) :
    CallerOk m' t pageno k := by
  cases k with
  | victim g => exact hg g h
  | writePage p before => exact ⟨h.1, h.2.1, h.2.2.trans (hcontent p)⟩
  | flush limit seg next opened before =>
    exact ⟨h.1, h.2.1, fun p => (h.2.2 p).trans (hcontent p)⟩

section others

variable {t' : Nat} (hk : Keeps t o m m') (ht : t' ≠ t)
include hk ht

theorem GoalOk.keeps (h : GoalOk m t' g) : GoalOk m' t' g := by
  cases g with
  | read p => exact hk.known p h
  | append p extend entry flush =>
    exact h.of_latest (hk.latest fun e => ht (h.1.trans e.symm))

theorem CallerOk.keeps (h : CallerOk m t' pageno k) : CallerOk m' t' pageno k :=
  h.mono (fun _ => GoalOk.keeps hk ht) hk.content

end others

theorem Keeps.page (hk : Keeps t o m m') (hb : Busy m i) (ho : o ≠ some i)
    (hp : (m.slots i).pageNumber = pageno) :
    m'.slots i = m.slots i ∧ m'.content pageno = m.content pageno :=
  ⟨hk.slots i hb ho, hp ▸ hk.own i hb ho⟩

theorem Writes.keeps (hk : Keeps t o m m') (ho : o ≠ some i) (h : Writes m i pageno) :
    Writes m' i pageno ∧ m'.firstDirtyOffset = m.firstDirtyOffset
      ∧ m'.content pageno = m.content pageno := by
  obtain ⟨hslot, hown⟩ := hk.page (.inr h.1) ho h.2.1
  obtain ⟨hfirst, hoff⟩ := hk.first i h.1 h.2.2 ho
  exact ⟨⟨hslot ▸ h.1, hslot ▸ h.2.1, hfirst.trans h.2.2⟩, hoff, hown⟩

theorem Reads.keeps (hk : Keeps t o m m') (ho : o ≠ some i) (h : Reads m i g) :
    Reads m' i g ∧ m'.slots i = m.slots i ∧ m'.content g.pageno = m.content g.pageno := by
  obtain ⟨hslot, hown⟩ := hk.page (.inl h.1) ho h.2.1
  exact ⟨⟨hslot ▸ h.1, hslot ▸ h.2.1, h.2.2⟩, hslot, hown⟩

theorem eq_of_prefix {a b c : List Nat} (hab : a <+: b) (hbc : b <+: c) (hac : a = c) : b = c :=
  hbc.eq_of_length_le (hac ▸ hab.length_le)

theorem PcOk.keeps {t' : Nat} (hm : Mem numSlots m') (hk : Keeps t o m m') (ht : t' ≠ t)
    (ho : ∀ i, pc.owns = some i → o ≠ some i) (h : PcOk m t' pc) : PcOk m' t' pc := by
  cases pc with
  | idle => trivial
  | select g => exact GoalOk.keeps hk ht h
  | reading i g => exact ⟨h.1.keeps hk ht, (h.2.keeps hk (ho i rfl)).1⟩
  | readDone i g ok =>
    obtain ⟨hr, hslot, hcontent⟩ := h.2.1.keeps hk (ho i rfl)
    refine ⟨h.1.keeps hk ht, hr, fun hok => ?_⟩
    rw [hslot, hcontent]
    exact h.2.2 hok
  | check i pageno k => exact ⟨h.1.keeps hk ht, h.2⟩
  | writing i pageno offset k =>
    obtain ⟨hw, hoff, _⟩ := h.2.1.keeps hk (ho i rfl)
    exact ⟨h.1.keeps hk ht, hw, h.2.2.trans hoff.symm⟩
  | wrote i pageno ok k =>
    obtain ⟨hw, _, hcontent⟩ := h.2.1.keeps hk (ho i rfl)
    refine ⟨h.1.keeps hk ht, hw, fun hok => ?_⟩
    obtain ⟨hfile, hkept⟩ := h.2.2 hok
    have hfile' : m'.file pageno = m'.content pageno :=
      eq_of_prefix (hk.file pageno) (hm.file pageno) (hfile.trans hcontent.symm)
    have hdur : m.durable pageno = m.content pageno → m'.durable pageno = m'.content pageno :=
      fun hd => eq_of_prefix (hk.durable pageno) ((hm.durable pageno).trans (hm.file pageno))
        (hd.trans hcontent.symm)
    refine ⟨hfile', ?_⟩
    cases k with
    | victim g | writePage p before => exact hdur hkept
    | flush limit seg next opened before => exact hkept
  | flushTop limit before
  | syncing limit seg opened ok before => exact ⟨h.1, fun p => (h.2 p).trans (hk.content p)⟩
  | written ok p before => exact fun hok => (h hok).trans (hk.durable p)
  | flushed ok limit before => exact fun hok hl p => (h hok hl p).trans (hk.durable p)

/-! ## What is not yet durable -/

def Caller.Unsynced (q : Nat) : Caller → Prop
  | .flush _ seg _ opened _ => opened = true ∧ seg = q
  | _ => False

def Pc.Unsynced (q : Nat) : Pc → Prop
  | .check _ _ k | .writing _ _ _ k | .wrote _ _ _ k => k.Unsynced q
  | .syncing _ seg opened _ _ => opened = true ∧ seg = q
  | .flushed false _ _ => True
  | _ => False

theorem Caller.Kept.cases (h : k.Kept m pageno) (hk : CallerOk m t pageno k) :
    m.durable pageno = m.content pageno ∨ t = flusher ∧ k.Unsynced (segno pageno) := by
  cases k with
  | victim g | writePage p before => exact .inl h
  | flush limit seg next opened before => exact .inr ⟨hk.1, h, hk.2.1⟩

def DirtyPage (m : Store) (p : Nat) : Prop :=
  ∃ i, (m.slots i).dirty = true ∧ (m.slots i).pageNumber = p

/-- The file of the page is durable, or it will be written again, or the
flusher is about to `fsync` it. -/
def Covered (m : Store) (t : Nat) (pc : Pc) (p : Nat) : Prop :=
  m.durable p = m.file p ∨ DirtyPage m p ∨ t = flusher ∧ pc.Unsynced (segno p)

variable {p : Nat} {pc' : Pc} {ok : Bool}

/-- A slot is changed, and what becomes of its page if it was dirty is known. -/
theorem Covered.put (h : Covered m t pc p) (hput : Puts m m' i x)
    (hdirty : (m.slots i).dirty = true → Covered m' t pc1 (m.slots i).pageNumber)
    (hun : ∀ q, pc.Unsynced q → pc1.Unsynced q) : Covered m' t pc1 p := by
  rcases h with h | ⟨j, hj, rfl⟩ | ⟨ht, hq⟩
  · exact .inl (by rw [hput.durable, hput.file, h])
  · by_cases hji : j = i
    · exact hji ▸ hdirty (hji ▸ hj)
    · refine .inr (.inl ⟨j, ?_⟩)
      rw [hput.of_ne hji]
      exact ⟨hj, rfl⟩
  · exact .inr (.inr ⟨ht, hun _ hq⟩)

theorem Puts.covered (hput : Puts m m' i x) (hx : x.dirty = true)
    (hpage : x.pageNumber = pageno) : Covered m' t pc pageno :=
  .inr (.inl ⟨i, by rw [hput.self]; exact ⟨hx, hpage⟩⟩)

/-! ## Steps of a thread -/

structure Good (numSlots t : Nat) (m : Store) (pc : Pc) (r : Store × Pc) : Prop where
  mem : Mem numSlots r.1
  pcOk : PcOk r.1 t r.2
  owns : ∀ i, r.2.owns = some i → pc.owns = some i ∨ ¬Busy m i
  keeps : Keeps t pc.owns m r.1
  covered : ∀ p, Covered m t pc p → Covered r.1 t r.2 p

/-- A part of a step that the lock covers together with the rest. -/
theorem Good.trans (pc1 : Pc) (hk : Keeps t pc.owns m m1)
    (hc : ∀ p, Covered m t pc p → Covered m1 t pc1 p) (ho : pc1.owns = none)
    (h : Good numSlots t m1 pc1 r) : Good numSlots t m pc r where
  mem := h.mem
  pcOk := h.pcOk
  owns i hi := by
    by_contra hcon
    rw [not_or, not_not] at hcon
    rcases h.owns i hi with hi' | hi'
    · rw [ho] at hi'
      cases hi'
    · exact hi' (hk.busy hcon.2 hcon.1)
  keeps := hk.trans (ho ▸ h.keeps)
  covered p hp := h.covered p (hc p hp)

theorem returnTo_owns (m : Store) (ok : Bool) (k : Caller) : (returnTo m ok k).owns = none := by
  cases k with
  | victim g => rfl
  | writePage p before => rfl
  | flush limit seg next opened before =>
    simp only [returnTo, flushNext]
    split
    · split <;> rfl
    · rfl

theorem returnTo_unsynced (m : Store) (ok : Bool) {q : Nat} (h : k.Unsynced q) :
    (returnTo m ok k).Unsynced q := by
  cases k with
  | victim g | writePage p before => cases h
  | flush limit seg next opened before =>
    simp only [returnTo, flushNext]
    split
    · split <;> exact h
    · exact h

theorem returnTo_ok (h : CallerOk m t pageno k)
    (hw : ∀ p before, k = .writePage p before → ok = true → before <+: m.durable p) :
    PcOk m t (returnTo m ok k) := by
  cases k with
  | victim g => exact h
  | writePage p before => exact hw p before rfl
  | flush limit seg next opened before =>
    simp only [returnTo, flushNext]
    split
    next j =>
      split
      · exact ⟨h.1, h.2.2⟩
      next hseg =>
        rw [not_or, not_not] at hseg
        exact ⟨⟨h.1, hseg.2.symm, h.2.2⟩, nofun⟩
    · exact ⟨h.1, h.2.2⟩

/-- The files after a write or an `fsync`: nothing else has changed, and no
page in the files got shorter. -/
theorem keeps_files {file durable : Nat → List Nat} (hfile : ∀ p, m.file p <+: file p)
    (hdurable : ∀ p, m.durable p <+: durable p) :
    Keeps t o m { m with file := file, durable := durable } :=
  { Keeps.refl t o m with file := hfile, durable := hdurable }

theorem Covered.sync {seg : Nat} (hp : Covered m t pc p)
    (hun : segno p ≠ seg → pc.Unsynced (segno p) → pc'.Unsynced (segno p)) :
    Covered (m.sync seg) t pc' p := by
  by_cases hseg : segno p = seg
  · exact .inl (if_pos hseg)
  · rcases hp with hp | hp | ⟨ht, hq⟩
    · exact .inl ((if_neg hseg).trans hp)
    · exact .inr (.inl hp)
    · exact .inr (.inr ⟨ht, hun hseg hq⟩)

theorem Reads.ne_empty (h : Reads m i g) : (m.slots i).status ≠ .empty := by
  rw [h.1]
  decide

theorem findSlot_some (h : findSlot numSlots m pageno = some i) :
    i < numSlots ∧ (m.slots i).pageNumber = pageno ∧ (m.slots i).status ≠ .empty := by
  have hp := find?_some h
  rw [decide_eq_true_eq] at hp
  exact ⟨mem_range.mp (mem_of_find?_eq_some h), hp⟩

theorem GoalOk.known (h : GoalOk m t g) (he : g.extend = false) : Known m g.pageno := by
  cases g with
  | read p => exact h
  | append p extend entry flush => exact ⟨p, h.2.2 he, Nat.le_refl p⟩

/-- Where a thread stands does not matter once it does no I/O and has no file
open. -/
theorem Good.of_idle (ho : pc.owns = none) (hun : ∀ q, ¬pc.Unsynced q)
    (h : Good numSlots t m .idle r) : Good numSlots t m pc r :=
  { h with
    owns i hi := .inr ((h.owns i hi).resolve_left nofun)
    keeps := ho ▸ h.keeps
    covered p hp :=
      h.covered p (hp.imp_right fun hp => hp.imp_right fun hp => absurd hp.2 (hun _)) }

section

variable (hm : Mem numSlots m)
include hm

theorem good_goto (hpc : PcOk m t pc') (hown : pc'.owns = none)
    (hun : ∀ q, pc.Unsynced q → pc'.Unsynced q) :
    Good numSlots t m pc (m, pc') where
  mem := hm
  pcOk := hpc
  owns i hi := by rw [hown] at hi; cases hi
  keeps := Keeps.refl t _ m
  covered p hp := hp.imp_right fun hp => hp.imp_right fun hp => ⟨hp.1, hun _ hp.2⟩

/-! ### Writing -/

/-- `consensus_slru_internal_write_page` is called for the first dirty page, or
for one that needs no write. -/
theorem good_internalWritePage (hk : CallerOk m t pageno k) (hok : WriteOk m i pageno)
    (hpage : ∀ p before, k = .writePage p before → (m.slots i).dirty = true
      ∧ (m.slots i).status = .valid ∧ (m.slots i).pageNumber = pageno)
    (hun : ∀ q, pc.Unsynced q → k.Unsynced q) :
    Good numSlots t m pc (internalWritePage m i pageno k) := by
  unfold internalWritePage
  split
  next hwait =>
    refine good_goto hm ⟨hk, fun p before e => ?_⟩ rfl hun
    rw [(hpage p before e).2.1] at hwait
    exact absurd hwait.1 (by decide)
  next =>
    split
    next hclean =>
      refine good_goto hm (returnTo_ok hk fun p before e => ?_) (returnTo_owns m true k)
        fun q hq => returnTo_unsynced m true (hun q hq)
      obtain ⟨hd, hs, hp⟩ := hpage p before e
      rcases hclean with h | h | h
      · rw [hd] at h; cases h
      · exact absurd hs h
      · exact absurd hp h
    next hdirty =>
      rw [not_or, not_or, not_not, not_not, Bool.not_eq_false] at hdirty
      have hfirst := hok hdirty
      have hbusy : ¬Busy m i := by
        rw [Busy, hdirty.2.1]
        decide
      have hself : (m.setStatus i .writeInProgress).slots i
          = { m.slots i with status := .writeInProgress } := update_self ..
      refine ⟨hm.setStatus hdirty.1 (.inr rfl), ⟨hk, ⟨?_, ?_, hfirst⟩, rfl⟩, fun j hj => ?_,
        keeps_setSlot fun hb => absurd hb hbusy,
        fun p hp => hp.put (puts_setSlot m i _) (fun hd => (puts_setSlot m i _).covered hd rfl) hun⟩
      · rw [hself]
      · rw [hself]
        exact hdirty.2.2
      · exact .inr (Option.some.inj hj ▸ hbusy)

/-- A write ends: a page that reached the file leaves the dirty list. -/
theorem good_finishWrite (hpc : PcOk m t (.wrote i pageno ok k)) :
    Good numSlots t m (.wrote i pageno ok k) (finishWrite m i ok k) := by
  obtain ⟨hcaller, hw, hwritten⟩ := hpc
  have hdirty := hm.dirty_of_first hw.2.2
  unfold finishWrite
  cases ok with
  | false =>
    have hcaller' : CallerOk (m.setStatus i .valid) t pageno k := hcaller
    refine ⟨hm.setStatus hdirty (.inl rfl), returnTo_ok hcaller' nofun,
      fun j hj => ?_, keeps_setSlot fun _ => rfl,
      fun p hp => hp.put (puts_setSlot m i _) (fun hd => (puts_setSlot m i _).covered hd rfl)
        fun _ => returnTo_unsynced _ _⟩
    rw [returnTo_owns] at hj
    cases hj
  | true =>
    obtain ⟨hfile, hkept⟩ := hwritten rfl
    have hput := puts_finish hdirty
    have hl : ((m.popDirty i).setStatus i .valid).latestPageNumber = m.latestPageNumber := by
      unfold Store.popDirty
      split <;> rfl
    have hkeeps : Keeps t (some i) m ((m.popDirty i).setStatus i .valid) :=
      keeps_put hput (fun _ => rfl) (fun _ _ _ => hput.other _ nofun)
        (fun j hj hne => absurd (hw.2.2.symm.trans hj) hne) fun _ => hl
    have hcaller' : CallerOk ((m.popDirty i).setStatus i .valid) t pageno k :=
      hcaller.mono (fun _ => GoalOk.of_latest hl) hkeeps.content
    refine ⟨hm.finish hw.2.2 (by rw [hw.2.1]; exact hfile),
      returnTo_ok hcaller' fun p before e _ => ?_, fun j hj => ?_, hkeeps,
      fun p hp => hp.put hput (fun _ => ?_) fun _ => returnTo_unsynced _ _⟩
    · subst e
      refine IsPrefix.trans ?_ (hkeeps.durable p)
      rw [hcaller.2.1]
      have hdur : m.durable pageno = m.content pageno := hkept
      rw [hdur, ← hcaller.2.1]
      exact hcaller.2.2
    · rw [returnTo_owns] at hj
      cases hj
    · rw [hw.2.1]
      rcases hkept.cases hcaller with hdur | ⟨ht, hq⟩
      · refine .inl ((congrFun hput.durable _).trans (hdur.trans ?_))
        exact hfile.symm.trans (congrFun hput.file _).symm
      · exact .inr (.inr ⟨ht, returnTo_unsynced _ _ hq⟩)

/-! ### I/O -/

theorem Mem.prefix_sync (seg p : Nat) : m.durable p <+: (m.sync seg).durable p := by
  change m.durable p <+: if segno p = seg then m.file p else m.durable p
  split
  · exact hm.durable p
  · exact prefix_refl _

theorem Mem.prefix_writePage (hw : Writes m i pageno) (p : Nat) :
    m.file p <+: (m.writePage i pageno m.firstDirtyOffset).file p := by
  rw [hm.writePage_file hw.2.2 hw.2.1]
  exact prefix_update (hm.file pageno) p

/-- A page is as durable as before after a write, or it is the page written. -/
theorem Covered.writePage (hp : Covered m t pc p) (hw : Writes m i pageno)
    (hun : ∀ q, pc.Unsynced q → pc'.Unsynced q) :
    Covered (m.writePage i pageno m.firstDirtyOffset) t pc' p := by
  by_cases hpp : p = pageno
  · exact .inr (.inl ⟨i, hm.dirty_of_first hw.2.2, hpp ▸ hw.2.1⟩)
  · rcases hp with hp | hp | ⟨ht, hq⟩
    · refine .inl ?_
      rwa [hm.writePage_file hw.2.2 hw.2.1, update_of_ne hpp]
    · exact .inr (.inl hp)
    · exact .inr (.inr ⟨ht, hun _ hq⟩)

theorem good_ioWrite {offset : Nat} (hpc : PcOk m t (.writing i pageno offset k)) (r : IoResult) :
    Good numSlots t m (.writing i pageno offset k) (ioWrite m i pageno offset k r) := by
  obtain ⟨hk, hw, rfl⟩ := hpc
  have hmem := hm.writePage hw.2.2 hw.2.1
  have hfile : (m.writePage i pageno m.firstDirtyOffset).file pageno = m.content pageno := by
    rw [hm.writePage_file hw.2.2 hw.2.1, update_self]
  have hkeeps : Keeps t (some i) m (m.writePage i pageno m.firstDirtyOffset) :=
    keeps_files (hm.prefix_writePage hw) fun _ => prefix_refl _
  have howns : ∀ j, some i = some j → some i = some j ∨ ¬Busy m j := fun _ hj => .inl hj
  have hsynced :
      (∀ q, ¬k.Unsynced q) → k.withFile = k →
        Caller.Kept ((m.writePage i pageno m.firstDirtyOffset).sync (segno pageno))
        pageno k →
      Good numSlots t m (.writing i pageno m.firstDirtyOffset k)
        ((m.writePage i pageno m.firstDirtyOffset).sync (segno pageno),
          .wrote i pageno true k.withFile) := by
    intro hun hopen hkept
    rw [hopen]
    refine ⟨hmem.sync _, ⟨hk, hw, fun _ => ⟨hfile, hkept⟩⟩, howns,
      keeps_files (hm.prefix_writePage hw) (hmem.prefix_sync _), fun p hp => ?_⟩
    have hfiled : Covered _ t (.wrote i pageno true k) p := hp.writePage hm hw fun _ => id
    exact hfiled.sync fun _ hq => absurd hq (hun _)
  cases r with
  | done =>
    cases k with
    | victim g | writePage p before => exact hsynced (fun _ => id) rfl ((if_pos rfl).trans hfile)
    | flush limit seg next opened before =>
      exact ⟨hmem, ⟨⟨hk.1, hk.2.1, hk.2.2⟩, hw, fun _ => ⟨hfile, rfl⟩⟩, howns, hkeeps,
        fun p hp => hp.writePage hm hw fun q hq => ⟨rfl, hq.2⟩⟩
  | failed =>
    exact ⟨hm, ⟨hk, hw, nofun⟩, howns, Keeps.refl t _ m, fun p hp => hp⟩
  | syncFailed =>
    exact ⟨hmem, ⟨hk, hw, nofun⟩, howns, hkeeps, fun p hp => hp.writePage hm hw fun _ => id⟩

theorem good_ioSync {limit seg : Nat} {opened ok : Bool} {before : Nat → List Nat}
    (hpc : PcOk m t (.syncing limit seg opened ok before)) (r : IoResult) :
    Good numSlots t m (.syncing limit seg opened ok before)
      (ioSync m limit seg opened ok before r) := by
  have hnext : ∀ m' : Store, m'.content = m.content →
      PcOk m' t (if ok then .flushTop limit before else .flushed false limit before) := by
    intro m' hc
    cases ok with
    | true => exact ⟨hpc.1, fun p => by rw [hc]; exact hpc.2 p⟩
    | false => exact nofun
  have howns : Pc.owns (if ok then .flushTop limit before else .flushed false limit before)
      = none := by
    cases ok <;> rfl
  unfold ioSync
  cases opened with
  | false =>
    exact good_goto hm (hnext m rfl) howns fun _ hq => absurd hq.1 (by decide)
  | true =>
    rw [if_pos rfl]
    split
    · refine ⟨hm.sync seg, hnext _ rfl, fun j hj => ?_,
        keeps_files (fun _ => prefix_refl _) (hm.prefix_sync seg),
        fun p hp => hp.sync fun hne hq => absurd hq.2.symm hne⟩
      rw [howns] at hj
      cases hj
    · exact good_goto hm nofun rfl fun _ _ => trivial

/-! ### Reading -/

theorem Reads.clean (h : Reads m i g) : (m.slots i).dirty = false := by
  refine Bool.eq_false_iff.mpr fun hd => ?_
  have := (hm.slot i).dirty hd
  rw [h.1] at this
  exact absurd this (by decide)

theorem good_setClean (hi : (m.slots i).dirty = false) (hx : x.dirty = false)
    (hslot : SlotOk numSlots m i x)
    (hpage : PageFree m i x) (hbusy : Busy m i → pc.owns = some i)
    (hpc : PcOk (m.setSlot i x) t pc') (howns : pc'.owns = none ∨ pc'.owns = some i)
    (hun : ∀ q, pc.Unsynced q → pc'.Unsynced q) :
    Good numSlots t m pc (m.setSlot i x, pc') where
  mem := hm.setClean hi hx hslot hpage
  pcOk := hpc
  owns j hj := by
    rcases howns with h | h
    · rw [h] at hj
      cases hj
    · cases h.symm.trans hj
      by_cases hb : Busy m i
      · exact .inl (hbusy hb)
      · exact .inr hb
  keeps := keeps_setSlot hbusy
  covered p hp := hp.put (puts_setSlot m i x) (fun hd => nomatch hi.symm.trans hd) hun

theorem Mem.file_eq (hs : (m.slots i).status ≠ .empty)
    (hi : (m.slots i).dirty = false) :
    m.file (m.slots i).pageNumber = m.content (m.slots i).pageNumber :=
  hm.settled _ fun _ hj => hm.page_ne hs (not_dirty_ne hi hj) (hm.status_ne_empty_of_dirty hj)

theorem Reads.slotOk (h : Reads m i g) (buffer : List Nat) :
    SlotOk numSlots m i { m.slots i with buffer := buffer } where
  bound := (hm.slot i).bound
  known := (hm.slot i).known
  held hs := by
    rw [h.1] at hs
    exact absurd hs (by decide)
  busy := (hm.slot i).busy
  dirty := (hm.slot i).dirty

theorem good_ioRead {x : IoResult} (hpc : PcOk m t (.reading i g))
    (hr : ioRead m i g x = some r) : Good numSlots t m (.reading i g) r := by
  obtain ⟨hg, hreads⟩ := hpc
  have hclean := hreads.clean hm
  unfold ioRead at hr
  split at hr
  · split at hr
    · cases hr
    · cases hr
      have hself : (m.setSlot i { m.slots i with buffer := m.file g.pageno }).slots i
          = { m.slots i with buffer := m.file g.pageno } := update_self ..
      refine good_setClean hm hclean hclean (hreads.slotOk hm _)
        (fun _ j hj hs => hm.page_ne hreads.ne_empty hj hs) (fun _ => rfl)
        ⟨hg, ⟨?_, ?_, hreads.2.2⟩, fun _ => ?_⟩ (.inr rfl) fun _ => id
      · rw [hself]
        exact hreads.1
      · rw [hself]
        exact hreads.2.1
      · rw [hself]
        have := hm.file_eq hreads.ne_empty hclean
        rwa [hreads.2.1] at this
  · cases hr
    exact ⟨hm, ⟨hg, hreads, nofun⟩, fun _ hj => .inl hj, Keeps.refl t _ m, fun _ hp => hp⟩

theorem findSlot_none (h : findSlot numSlots m pageno = none) {j : Nat}
    (hj : (m.slots j).status ≠ .empty) : (m.slots j).pageNumber ≠ pageno := by
  have := find?_eq_none.mp h j (mem_range.mpr ((hm.slot j).bound hj))
  rw [decide_eq_true_eq] at this
  exact fun he => this ⟨he, hj⟩

theorem Freeable.clean (h : Freeable m i) :
    (m.slots i).dirty = false ∧ ¬Busy m i := by
  unfold Busy
  rcases h with h | h
  · rw [h]
    exact ⟨Bool.eq_false_iff.mpr fun hd => hm.status_ne_empty_of_dirty hd h, by decide⟩
  · rw [h.1]
    exact ⟨h.2.1, by decide⟩

theorem good_startRead (hg : GoalOk m t g) (he : g.extend = false)
    (hbound : i < numSlots) (hfree : Freeable m i) (hfind : findSlot numSlots m g.pageno = none) :
    Good numSlots t m (.select g) (startRead m i g) := by
  obtain ⟨hclean, hbusy⟩ := hfree.clean hm
  have hself : (m.setSlot i ⟨.readInProgress, g.pageno, false, (m.slots i).buffer⟩).slots i
      = ⟨.readInProgress, g.pageno, false, (m.slots i).buffer⟩ := update_self ..
  refine good_setClean hm hclean rfl ⟨fun _ => hbound, fun _ => hg.known he,
    nofun, nofun, nofun⟩ (fun _ j _ hs => findSlot_none hm hfind hs) (fun hb => absurd hb hbusy)
    ⟨hg, ?_, ?_, he⟩ (.inr rfl) fun _ => id
  · rw [hself]
  · rw [hself]

/-! ### Appending -/

section append

variable {entry : Nat} {flush : Bool}

theorem keeps_appendEntry (hstatus : (m.slots i).status = .valid)
    (hpage : (m.slots i).pageNumber = pageno) :
    Keeps t o m (m.appendEntry i pageno entry) := by
  have hne : ∀ j, Busy m j → j ≠ i := by
    rintro j hj rfl
    rw [Busy, hstatus] at hj
    revert hj
    decide
  have hput := puts_appendEntry entry hpage
  refine keeps_put hput (fun hb => absurd rfl (hne i hb)) (fun j hj hb => ?_) (fun j hj _ => ?_)
    fun _ => appendEntry_latest
  · exact hput.other _ fun _ =>
      (hm.page_ne (by rw [hstatus]; decide) hj hb.ne_empty).symm
  · rcases appendEntry_first m i pageno entry with ⟨_, hnone, _⟩ | ⟨hf, hoff, _⟩
    · rw [hj] at hnone
      cases hnone
    · exact ⟨hf, hoff⟩

theorem keeps_zeroPage (ht : t = appender) (hbusy : ¬Busy m i)
    (hi : (m.slots i).dirty = false) (hnew : ∀ p, Known m p → p < pageno) :
    Keeps t o m (m.zeroPage i pageno) := by
  have hput := hm.puts_zeroPage i hnew
  refine keeps_put hput (fun hb => absurd hb hbusy) (fun j _ hb => ?_) (fun j hj _ => ?_)
    fun h => absurd ht h
  · exact hput.other _ fun _ => (hnew _ ((hm.slot j).known hb.ne_empty)).ne'
  · rcases zeroPage_first pageno hi with ⟨hnone, _⟩ | ⟨first, hf, hf', hoff⟩
    · rw [hj] at hnone
      cases hnone
    · exact ⟨hf'.trans hf.symm, hoff⟩

/-- The first dirty slot after an append to a page that is to be written. -/
theorem appendEntry_first_eq (hfirst : m.firstDirtySlot = none ∨ m.firstDirtySlot = some i) :
    (m.appendEntry i pageno entry).firstDirtySlot = some i := by
  rcases appendEntry_first m i pageno entry with ⟨_, _, hf, _⟩ | ⟨hf, _, hdirty⟩
  · exact hf
  · rcases hfirst with hnone | hsome
    · exact absurd (hdirty hnone) (hm.clean_of_first hnone i)
    · exact hf.trans hsome

/-- An entry is added to the latest page and written at once if asked for. -/
theorem good_append (ht : t = appender) (hstatus : (m.slots i).status = .valid)
    (hpage : (m.slots i).pageNumber = pageno) (hlatest : m.latestPageNumber = some pageno)
    (hfirst : flush = true → m.firstDirtySlot = none ∨ m.firstDirtySlot = some i) :
    Good numSlots t m .idle (deliver m i (.append pageno false entry flush)) := by
  have hmem : Mem numSlots (m.appendEntry i pageno entry) := hm.appendEntry hstatus hpage hlatest
  have hput := puts_appendEntry entry hpage
  have hkeeps : Keeps t none m (m.appendEntry i pageno entry) := keeps_appendEntry hm hstatus hpage
  have hcovered : ∀ p, Covered m t .idle p → Covered (m.appendEntry i pageno entry) t .idle p :=
    fun p hp => hp.put hput (fun _ => hput.covered rfl rfl) fun _ => id
  refine Good.trans .idle hkeeps hcovered rfl ?_
  cases flush with
  | false => exact good_goto hmem trivial rfl fun _ => id
  | true =>
    exact good_internalWritePage hmem ⟨ht, rfl, prefix_refl _⟩
      (fun _ => appendEntry_first_eq hm (hfirst rfl))
      (fun _ _ _ => by rw [hput.self]; exact ⟨rfl, hstatus, hpage⟩) fun _ => False.elim

/-- The first entry of a page that is started in a free slot. -/
theorem good_extend (ht : t = appender) (hbound : i < numSlots)
    (hi : (m.slots i).dirty = false) (hbusy : ¬Busy m i) (hnew : ∀ p, Known m p → p < pageno)
    (hfirst : flush = true → m.firstDirtySlot = none ∨ m.firstDirtySlot = some i) :
    Good numSlots t m .idle (deliver m i (.append pageno true entry flush)) := by
  have hput := hm.puts_zeroPage i hnew
  have hkeeps : Keeps t none m (m.zeroPage i pageno) := keeps_zeroPage hm ht hbusy hi hnew
  have hcovered : ∀ p, Covered m t .idle p → Covered (m.zeroPage i pageno) t .idle p :=
    fun p hp => hp.put hput (fun hd => nomatch hi.symm.trans hd) fun _ => id
  refine Good.trans .idle hkeeps hcovered rfl ?_
  refine good_append (hm.zeroPage hi hbound hnew) ht (by rw [hput.self])
    (by rw [hput.self]) rfl fun hflush => .inr ?_
  rcases zeroPage_first pageno hi with ⟨_, hf, _⟩ | ⟨first, hf, _⟩
  · exact hf
  · rcases hfirst hflush with hnone | hsome
    · rw [hf] at hnone
      cases hnone
    · have := hm.dirty_of_first hsome
      rw [hi] at this
      cases this

end append

theorem good_deliver (hg : GoalOk m t g) (he : g.extend = false)
    (hread : (m.slots i).status ≠ .readInProgress) (hempty : (m.slots i).status ≠ .empty)
    (hpage : (m.slots i).pageNumber = g.pageno) (hok : AppendOk m i g) :
    Good numSlots t m .idle (deliver m i g) := by
  cases g with
  | read p => exact good_goto hm trivial rfl fun _ => id
  | append p extend entry flush =>
    subst he
    have hstatus : (m.slots i).status = .valid := by
      cases hs : (m.slots i).status with
      | empty => exact absurd hs hempty
      | readInProgress => exact absurd hs hread
      | valid => rfl
      | writeInProgress => exact absurd hs hok.1
    exact good_append hm hg.1 hstatus hpage (hg.2.2 rfl) hok.2

theorem good_selectLruPage {c : Choice} (hg : GoalOk m t g)
    (hok : SelectOk numSlots m c g) (hr : selectLruPage numSlots m c g = some r) :
    Good numSlots t m (.select g) r := by
  unfold selectLruPage at hr
  unfold SelectOk at hok
  cases hfind : findSlot numSlots m g.pageno with
  | some i =>
    obtain ⟨_, hpage, hempty⟩ := findSlot_some hfind
    rw [hfind] at hr hok
    cases hr
    split
    · exact good_goto hm hg rfl fun _ => id
    next hwaits =>
      refine Good.of_idle rfl (fun _ hq => hq) ?_
      cases he : g.extend with
      | false =>
        exact good_deliver hm hg he (fun hs => hwaits ⟨he, hs⟩) hempty hpage (hok hwaits)
      | true =>
        cases g with
        | read p => cases he
        | append p extend entry flush =>
          have hlt := hg.2.1 he _ ((hm.slot i).known hempty)
          rw [hpage] at hlt
          exact absurd hlt (lt_irrefl _)
  | none =>
    rw [hfind] at hr hok
    cases c with
    | wait =>
      cases hr
      exact good_goto hm hg rfl fun _ => id
    | write =>
      cases hfirst : m.firstDirtySlot with
      | none =>
        rw [hfirst] at hr
        cases hr
        exact good_goto hm hg rfl fun _ => id
      | some i =>
        rw [hfirst] at hr
        cases hr
        exact good_internalWritePage hm hg (fun _ => hfirst) nofun fun _ => False.elim
    | use i =>
      dsimp only at hr hok
      split at hr
      next hfree =>
        cases hr
        cases he : g.extend with
        | false => exact good_startRead hm hg he hfree.1 hfree.2 hfind
        | true =>
          refine Good.of_idle rfl (fun _ hq => hq) ?_
          obtain ⟨hclean, hbusy⟩ := hfree.2.clean hm
          cases g with
          | read p => cases he
          | append p extend entry flush =>
            subst he
            exact good_extend hm hg.1 hfree.1 hclean hbusy (hg.2.1 rfl) (hok rfl).2
      next => cases hr

theorem good_readDone {ok : Bool} (hpc : PcOk m t (.readDone i g ok))
    (hok : ok = true → AppendOk m i g) :
    Good numSlots t m (.readDone i g ok)
      (if ok then deliver (m.setStatus i .valid) i g else (m.setStatus i .empty, .idle)) := by
  obtain ⟨hg, hreads, hbuffer⟩ := hpc
  have hclean := hreads.clean hm
  have hempty := hreads.ne_empty
  cases ok with
  | false =>
    exact good_setClean hm hclean hclean ⟨(absurd rfl ·), (absurd rfl ·), nofun, nofun,
        fun hd => nomatch hclean.symm.trans hd⟩
      (fun h => absurd rfl h) (fun _ => rfl) trivial (.inl rfl) fun _ => id
  | true =>
    have hself : (m.setStatus i .valid).slots i = { m.slots i with status := .valid } :=
      update_self ..
    have hslot : SlotOk numSlots m i { m.slots i with status := .valid } := by
      refine ⟨fun _ => (hm.slot i).bound hempty, fun _ => (hm.slot i).known hempty, fun _ => ?_,
        nofun, fun _ => .inl rfl⟩
      rw [hreads.2.1]
      exact hbuffer rfl
    have hgood : Good numSlots t m (.readDone i g true) (m.setStatus i .valid, .idle) :=
      good_setClean hm hclean hclean hslot (fun _ j hj hs => hm.page_ne hempty hj hs)
        (fun _ => rfl) trivial (.inl rfl) fun _ => id
    refine Good.trans .idle hgood.keeps hgood.covered rfl ?_
    refine good_deliver hgood.mem hg hreads.2.2 ?_ ?_ ?_ ?_
    · rw [hself]
      exact nofun
    · rw [hself]
      exact nofun
    · rw [hself]
      exact hreads.2.1
    · have happend := hok rfl
      cases g with
      | read p => trivial
      | append p extend entry flush =>
        refine ⟨?_, happend.2⟩
        rw [hself]
        exact nofun

/-- One turn of a flush. When nothing is dirty any more, everything is
durable. -/
theorem good_flushLoop {limit : Nat} {before : Nat → List Nat}
    (hpc : PcOk m t (.flushTop limit before)) (hcov : ∀ p, Covered m t (.flushTop limit before) p) :
    Good numSlots t m (.flushTop limit before) (flushLoop m limit before) := by
  unfold flushLoop
  cases hfirst : m.firstDirtySlot with
  | none =>
    have hclean : ∀ p, ¬DirtyPage m p := fun p ⟨j, hj, _⟩ => hm.clean_of_first hfirst j hj
    refine good_goto hm (fun _ _ p => ?_) rfl fun _ => False.elim
    have hfile : m.file p = m.content p := hm.settled p fun j hj hjp => hclean p ⟨j, hj, hjp⟩
    rcases hcov p with h | h | ⟨_, h⟩
    · rw [h, hfile]
      exact hpc.2 p
    · exact absurd h (hclean p)
    · exact h.elim
  | some i =>
    dsimp only
    split
    next hlimit =>
      exact good_goto hm (fun _ h => absurd h hlimit.1.ne') rfl fun _ => False.elim
    next =>
      exact good_internalWritePage hm ⟨hpc.1, rfl, hpc.2⟩ (fun _ => hfirst)
        nofun fun _ => False.elim

end

end PolarDB.ConsensusSlru
