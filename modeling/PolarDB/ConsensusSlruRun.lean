import PolarDB.ConsensusSlruThread

/-!
# No page change is lost

What the cache owes its callers is `Sound`. The dirty mark is cleared when a
write is over, not when it starts, so an entry appended while its page is being
written is lost with it (`changedWhileWritten`): a reader that needs a slot
writes the page, and `ConsensusLOGRead` does not hold `info_lock` while it does
so. And a page is taken out of the list as if it were the first one, whatever
page `ConsensusSimpleLruWritePage` is called for. In a run in which no page is
changed while it is written and only the first dirty page is written, everything
holds (`slru_sound`).
-/

namespace PolarDB.ConsensusSlru

open Option

/-- What a successful `ConsensusSimpleLruWritePage` or
`ConsensusSimpleLruFlush(0)` has left in the files. -/
def Returned (m : Store) : Pc → Prop
  | .written true pageno before => before <+: m.file pageno ∧ before <+: m.durable pageno
  | .flushed true 0 before => ∀ p, before p <+: m.file p ∧ before p <+: m.durable p
  | _ => True

structure Sound (s : State) : Prop where
  clean : ∀ i, (s.store.slots i).status = .valid → (s.store.slots i).dirty = false →
    (s.store.slots i).buffer = s.store.file (s.store.slots i).pageNumber
  dirty : ∃ l, DirtyList s.store l
  returned : ∀ t, Returned s.store (s.threads t)

/-! ## A change that is lost -/

def flushedBefore (p : Nat) : Pc → Option (List Nat)
  | .flushed true 0 before => some (before p)
  | _ => none

theorem not_returned_of_flushedBefore {m : Store} {p : Nat} {pc : Pc} {l : List Nat}
    (h : flushedBefore p pc = some l) (hl : ¬l <+: m.file p) : ¬Returned m pc := by
  unfold flushedBefore at h
  split at h
  · cases h
    exact fun hr => hl (hr p).1
  · cases h

def flushedPage (entry slotno : Nat) : List Action :=
  [.append true entry false, .locked appender (.use slotno), .flush 0, .locked flusher .wait,
    .io flusher .done, .locked flusher .wait, .io flusher .done, .locked flusher .wait,
    .leave flusher]

/-- Three slots, and a window of two as there is one of 128. Pages 0 and 1
are in the first two, page 2 takes the place of page 0, and page 3 gets the
third slot and entry 8. A reader of page 0 looks at that slot only and writes
it; entry 9 is appended before it takes the lock again. The flush behind the
two entries finds nothing to write. -/
def changedWhileWritten : List Action :=
  flushedPage 5 0 ++ flushedPage 6 1 ++ flushedPage 7 0 ++
    [.append true 8 false, .locked appender (.use 2), .read 2 0, .locked 2 .write, .io 2 .done,
      .append false 9 false, .locked appender .wait, .locked 2 .wait, .flush 0,
      .locked flusher .wait]

theorem page_change_lost : ∃ s, exec (step 3) State.init changedWhileWritten = some s
      ∧ (s.store.slots 2).status = .valid ∧ (s.store.slots 2).dirty = false
      ∧ (s.store.slots 2).buffer ≠ s.store.file (s.store.slots 2).pageNumber
      ∧ ¬Returned s.store (s.threads flusher) := by
  refine exec_eval (E := fun s => s.store.slots 2 = ⟨.valid, 3, false, [8, 9]⟩
      ∧ s.store.file 3 = [8] ∧ flushedBefore 3 (s.threads flusher) = some [8, 9])
    (by decide) fun s _ ⟨hslot, hfile, hflush⟩ => ?_
  refine ⟨by rw [hslot], by rw [hslot], ?_, ?_⟩
  · rw [hslot, hfile]
    decide
  · refine not_returned_of_flushedBefore hflush ?_
    rw [hfile]
    decide

/-! ## Runs -/

variable {numSlots t i pageno : Nat} {m : Store} {pc : Pc} {r : Store × Pc}

structure Inv (numSlots : Nat) (s : State) : Prop where
  mem : Mem numSlots s.store
  pcOk : ∀ t, PcOk s.store t (s.threads t)
  owners : ∀ t t' i, (s.threads t).owns = some i → (s.threads t').owns = some i → t = t'
  covered : ∀ p, Covered s.store flusher (s.threads flusher) p

theorem Inv.init : Inv numSlots State.init where
  mem := Mem.init
  pcOk _ := trivial
  owners := nofun
  covered _ := .inl rfl

theorem PcOk.busy (h : PcOk m t pc) (hi : pc.owns = some i) : Busy m i := by
  cases pc with
  | reading j g => exact some.inj hi ▸ .inl h.2.1
  | readDone j g ok => exact some.inj hi ▸ .inl h.2.1.1
  | writing j p offset k | wrote j p ok k => exact some.inj hi ▸ .inr h.2.1.1
  | _ => cases hi

variable {s s' : State}

/-- A good step of one thread keeps what all of them rely on. -/
theorem Inv.put (h : Inv numSlots s) (hr : Good numSlots t s.store (s.threads t) r) :
    Inv numSlots (s.put t r) := by
  have hself : (s.put t r).threads t = r.2 := Function.update_self ..
  have hother : ∀ t', t' ≠ t → (s.put t r).threads t' = s.threads t' :=
    fun t' ht => Function.update_of_ne ht _ _
  have hold : ∀ t', t' ≠ t → ∀ i, (s.threads t').owns = some i → (s.threads t).owns ≠ some i :=
    fun t' ht i hi hi' => ht (h.owners t' t i hi hi')
  have hnew : ∀ t', t' ≠ t → ∀ i, (s.threads t').owns = some i → r.2.owns ≠ some i := by
    intro t' ht i hi hi'
    rcases hr.owns i hi' with ho | ho
    · exact hold t' ht i hi ho
    · exact ho ((h.pcOk t').busy hi)
  refine ⟨hr.mem, fun t' => ?_, fun t1 t2 i h1 h2 => ?_, fun p => ?_⟩
  · by_cases ht : t' = t
    · rw [ht, hself]
      exact hr.pcOk
    · rw [hother t' ht]
      exact PcOk.keeps hr.mem hr.keeps ht (hold t' ht) (h.pcOk t')
  · by_cases ht1 : t1 = t <;> by_cases ht2 : t2 = t
    · rw [ht1, ht2]
    · rw [ht1, hself] at h1
      rw [hother t2 ht2] at h2
      exact absurd h1 (hnew t2 ht2 i h2)
    · rw [ht2, hself] at h2
      rw [hother t1 ht1] at h1
      exact absurd h2 (hnew t1 ht1 i h1)
    · rw [hother t1 ht1] at h1
      rw [hother t2 ht2] at h2
      exact h.owners t1 t2 i h1 h2
  · by_cases ht : flusher = t
    · rw [ht, hself]
      exact hr.covered p (ht ▸ h.covered p)
    · rw [hother flusher ht]
      have hthread : ∀ pc, Covered r.1 t pc p → Covered r.1 flusher (s.threads flusher) p :=
        fun _ hc => hc.imp_right fun hc => hc.imp_right fun hc => absurd hc.1.symm ht
      rcases h.covered p with hc | hc | hc
      · exact hthread r.2 (hr.covered p (.inl hc))
      · exact hthread r.2 (hr.covered p (.inr (.inl hc)))
      · exact .inr (.inr hc)

theorem appendPage_ok {extend : Bool} (entry : Nat) (flush : Bool)
    (h : appendPage m extend = some pageno) :
    GoalOk m appender (.append pageno extend entry flush) := by
  unfold appendPage at h
  refine ⟨rfl, fun he p hp => ?_, fun he => ?_⟩
  · obtain ⟨latest, hlatest, hle⟩ := hp
    have hl : m.latestPageNumber = some latest := hlatest
    rw [he, hl] at h
    cases h
    exact Nat.lt_succ_of_le hle
  · rw [he] at h
    cases hl : m.latestPageNumber with
    | none => rw [hl] at h; cases h
    | some latest => rw [hl] at h; exact h

theorem not_unsynced_of_returned (h : pc.returned = true) (q : Nat) : ¬pc.Unsynced q := by
  unfold Pc.returned at h
  split at h
  · exact id
  · exact id
  · cases h

theorem eq_idle (h : pc.isIdle = true) : pc = .idle := by
  unfold Pc.isIdle at h
  split at h
  · rfl
  · cases h

section

variable (h : Inv numSlots s)
include h

theorem good_lockedStep {c : Choice} (hok : LockedOk numSlots s.store c (s.threads t))
    (hr : lockedStep numSlots s.store c (s.threads t) = some r) :
    Good numSlots t s.store (s.threads t) r := by
  have hpc := h.pcOk t
  have hcov := h.covered
  cases hth : s.threads t with
  | select g =>
    rw [hth] at hr hpc hok
    exact good_selectLruPage h.mem hpc hok hr
  | readDone i g ok =>
    rw [hth] at hr hpc hok
    cases hr
    exact good_readDone h.mem hpc hok
  | check i pageno k =>
    rw [hth] at hr hpc hok
    cases hr
    exact good_internalWritePage h.mem hpc.1 hok (fun p before e => absurd e (hpc.2 p before))
      fun _ => id
  | wrote i pageno ok k =>
    rw [hth] at hr hpc
    cases hr
    exact good_finishWrite h.mem hpc
  | flushTop limit before =>
    rw [hth] at hr hpc
    cases hr
    have ht : t = flusher := hpc.1
    refine good_flushLoop h.mem hpc fun p => ?_
    have := hcov p
    rwa [← ht, hth] at this
  | _ => rw [hth] at hr; cases hr

theorem good_ioStep {x : IoResult} (hr : ioStep s.store x (s.threads t) = some r) :
    Good numSlots t s.store (s.threads t) r := by
  have hpc := h.pcOk t
  cases hth : s.threads t with
  | reading i g =>
    rw [hth] at hr hpc
    exact good_ioRead h.mem hpc hr
  | writing i pageno offset k =>
    rw [hth] at hr hpc
    cases hr
    exact good_ioWrite h.mem hpc x
  | syncing limit seg opened ok before =>
    rw [hth] at hr hpc
    cases hr
    exact good_ioSync h.mem hpc x
  | _ => rw [hth] at hr; cases hr

theorem Inv.call (hidle : (s.threads t).isIdle = true) (hpc : PcOk s.store t pc)
    (ho : pc.owns = none) : Inv numSlots (s.put t (s.store, pc)) := by
  refine h.put (good_goto h.mem hpc ho fun _ hq => ?_)
  rw [eq_idle hidle] at hq
  exact hq.elim

theorem Inv.step {a : Action} (hok : StepOk numSlots s a)
    (hs : ConsensusSlru.step numSlots s a = some s') : Inv numSlots s' := by
  cases a with
  | append extend entry flush =>
    simp only [ConsensusSlru.step] at hs
    split at hs
    next hidle =>
      obtain ⟨pageno, hpage, rfl⟩ := map_eq_some_iff.mp hs
      exact h.call hidle (appendPage_ok entry flush hpage) rfl
    next => cases hs
  | flush limit =>
    obtain ⟨hidle, rfl⟩ := ite_some_none_eq_some.mp hs
    exact h.call hidle ⟨rfl, fun _ => List.prefix_refl _⟩ rfl
  | read t pageno =>
    obtain ⟨hcond, rfl⟩ := ite_some_none_eq_some.mp hs
    exact h.call hcond.2.2.1 hcond.2.2.2 rfl
  | locked t c =>
    obtain ⟨r, hr, rfl⟩ := map_eq_some_iff.mp hs
    exact h.put (good_lockedStep h hok hr)
  | io t x =>
    obtain ⟨r, hr, rfl⟩ := map_eq_some_iff.mp hs
    exact h.put (good_ioStep h hr)
  | leave t =>
    obtain ⟨hret, rfl⟩ := ite_some_none_eq_some.mp hs
    exact h.put (good_goto h.mem trivial rfl
      fun q hq => absurd hq (not_unsynced_of_returned hret q))

theorem Inv.sound : Sound s := by
  refine ⟨fun i hs hd => ?_, h.mem.list, fun t => ?_⟩
  · rw [(h.mem.slot i).held (.inl hs)]
    exact (h.mem.file_eq (by rw [hs]; decide) hd).symm
  · have hpc := h.pcOk t
    unfold Returned
    split
    next hth =>
      rw [hth] at hpc
      exact ⟨(hpc rfl).trans (h.mem.durable _), hpc rfl⟩
    next hth =>
      rw [hth] at hpc
      exact fun p => ⟨(hpc rfl rfl p).trans (h.mem.durable p), hpc rfl rfl p⟩
    next => trivial

end

/-- In every run in which no entry is appended to a page that is being written
and only the first dirty page is written, no page change is lost. -/
theorem slru_sound (numSlots : Nat) (as : List Action) (s : State)
    (hm : Meets (step numSlots) (StepOk numSlots) State.init as)
    (hs : exec (step numSlots) State.init as = some s) : Sound s :=
  (exec_invariant_of_meets (fun _ => Inv numSlots) (fun _ _ _ _ h hok hs => h.step hok hs)
    Inv.init hm hs).sound

/-- Two entries, a flush while a reader asks for the page, and a third entry
that starts the next page and is written at once. -/
def appendAndFlush : List Action :=
  [.append true 7 false, .locked appender (.use 0), .append false 8 false,
    .locked appender .wait, .flush 0, .locked flusher .wait, .read 2 0, .locked 2 .wait,
    .io flusher .done, .locked flusher .wait, .io flusher .done, .locked flusher .wait,
    .append true 9 true, .locked appender (.use 1), .io appender .done, .locked appender .wait]

theorem slru_sound_appendAndFlush :
    ∃ s, exec (step 2) State.init appendAndFlush = some s ∧ s.store.file 0 = [7, 8]
      ∧ s.store.durable 1 = [9] ∧ Sound s := by
  refine exec_eval (E := fun s => s.store.file 0 = [7, 8] ∧ s.store.durable 1 = [9])
    (by decide) fun s hs ⟨hfile, hdur⟩ => ?_
  exact ⟨hfile, hdur, slru_sound 2 appendAndFlush s (by decide) hs⟩

/-- In such a run a crash finds of every page a beginning of what was appended
to it, and the file of a page is never behind what is durable. -/
theorem slru_crash (numSlots : Nat) (as : List Action) (s : State)
    (hm : Meets (step numSlots) (StepOk numSlots) State.init as)
    (hs : exec (step numSlots) State.init as = some s) (p : Nat) :
    s.store.durable p <+: s.store.file p ∧ s.store.file p <+: s.store.content p :=
  have h : Inv numSlots s := exec_invariant_of_meets (fun _ => Inv numSlots)
    (fun _ _ _ _ h hok hs => h.step hok hs) Inv.init hm hs
  ⟨h.mem.durable p, h.mem.file p⟩

theorem slru_crash_appendAndFlush : ∃ s, exec (step 2) State.init appendAndFlush = some s
      ∧ s.store.content 0 = [7, 8] ∧ s.store.durable 0 <+: s.store.file 0 := by
  refine exec_eval (E := fun s => s.store.content 0 = [7, 8]) (by decide) fun s hs hcontent => ?_
  exact ⟨hcontent, (slru_crash 2 appendAndFlush s (by decide) hs 0).1⟩

end PolarDB.ConsensusSlru
