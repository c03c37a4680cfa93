import Mathlib.Order.Nat
import PolarDB.WalPipelineNotify

/-!
# No wakeup is lost

A backend that is blocked on a slot has to be woken up: the worker that owns
the slot has not notified its position yet, and if a call of the worker is
under way that will, the walk still comes to the slot (`Expected`). This holds
when the backend finds the shared position below its own while it holds the
mutex of the slot.

`polar_wal_pipeline_commit_wait` does so after each time it was woken up, but
the first time it compares with the copy of the shared position that it read
before it took the mutex. A flush and a whole call of the worker may come between
(`wakeup_lost`). Without a flush that passes a backend's position there, every
blocked backend is expected (`noLostWakeup_of_meets`).
-/

namespace PolarDB.WalPipeline

open Function List Option

variable {c : Conf} {s s' : State} {b w slot cur e last lsn flush : Nat} {slots : List Nat}

/-! ## What is promised -/

def Ahead (c : Conf) (slot cur e : Nat) : Prop :=
  ∃ k, cur + k * c.slotSize ≤ c.alignedEnd e ∧ c.slotNo (cur + k * c.slotSize) = slot

def ToBroadcast (c : Conf) (slot : Nat) : NotifyPc → Prop
  | .idle => False
  | .walk cur e _ | .locked cur e _ => Ahead c slot cur e
  | .broadcasted cur e _ => Ahead c slot (cur + c.slotSize) e

def NotifyPc.endLsn : NotifyPc → Option Nat
  | .idle => none
  | .walk _ e _ | .locked _ e _ | .broadcasted _ e _ => some e

/-- What holds of the notify workers and the backends blocked. A call that is
about to set `last_notify_lsn` has broadcast on the slot of every position it
covers and on no slot of another position or another worker. -/
structure NoLostWakeup (c : Conf) (s : State) : Prop where
  broadcasts : ∀ w cur e slots, s.notifiers w = .walk cur e slots → c.alignedEnd e < cur →
    ∀ lsn, s.lastNotify w < lsn → lsn ≤ e → c.owner lsn = w → c.slotNo lsn ∈ slots
  only : ∀ w cur e slots, s.notifiers w = .walk cur e slots → ∀ slot ∈ slots,
    ∃ lsn, s.lastNotify w ≤ lsn ∧ lsn ≤ e ∧ c.owner lsn = w ∧ c.slotNo lsn = slot
  blocked : ∀ b lsn, (s.backends b).pc = .blocked lsn →
    s.lastNotify (c.owner lsn) < lsn ∨ ToBroadcast c (c.slotNo lsn) (s.notifiers (c.owner lsn))
  covered : ∀ b lsn e, (s.backends b).pc = .blocked lsn →
    (s.notifiers (c.owner lsn)).endLsn = some e → lsn ≤ e →
    ToBroadcast c (c.slotNo lsn) (s.notifiers (c.owner lsn))

/-- One slot of eight bytes after the other, one worker, no spinning. -/
def smallConf : Conf := ⟨3, 1, 1, 0⟩

/-- The backend has read the position 8 and gives up spinning. The flush
position gets to 16 and the worker notifies it. Then the backend takes the
mutex and waits. -/
def flushedBeforeLock : List Action :=
  [.commitWait 0 16, .backend 0, .backend 0, .flushed 16, .notify 0, .notifier 0, .notifier 0,
    .notifier 0, .notifier 0, .notifier 0, .notifier 0, .notifier 0, .backend 0, .backend 0]

theorem wakeup_lost : ∃ s, exec (step smallConf) (State.init 8) flushedBeforeLock = some s
    ∧ (s.backends 0).pc = .blocked 16 ∧ smallConf.owner 16 = 0 ∧ s.flush = 16
    ∧ s.lastNotify 0 = 16 ∧ s.notifiers 0 = .idle ∧ ¬NoLostWakeup smallConf s := by
  refine exec_eval (E := fun s => (s.backends 0).pc = .blocked 16 ∧ s.flush = 16
      ∧ s.lastNotify 0 = 16 ∧ s.notifiers 0 = .idle) (by decide)
    fun s _ ⟨hpc, hflush, hlast, hidle⟩ => ?_
  refine ⟨hpc, rfl, hflush, hlast, hidle, fun h => ?_⟩
  have howner : smallConf.owner 16 = 0 := rfl
  rcases h.blocked 0 16 hpc with hlt | hto
  · rw [howner, hlast] at hlt
    exact absurd hlt (lt_irrefl 16)
  · rwa [howner, hidle] at hto

/-! ## The invariant -/

theorem Ahead.next (h : Ahead c slot cur e) (hne : c.slotNo cur ≠ slot) :
    Ahead c slot (cur + c.slotSize) e := by
  obtain ⟨k, hk, hslot⟩ := h
  cases k with
  | zero => exact absurd (by simpa using hslot) hne
  | succ k =>
    have heq : cur + (k + 1) * c.slotSize = cur + c.slotSize + k * c.slotSize := by
      rw [Nat.add_one_mul]
      omega
    exact ⟨k, heq ▸ hk, heq ▸ hslot⟩

theorem Ahead.le (h : Ahead c slot cur e) : cur ≤ c.alignedEnd e :=
  (Nat.le_add_right _ _).trans h.choose_spec.1

/-- What a walk that began at `last` has done before it comes to `cur`. -/
structure Walked (c : Conf) (w last flush cur e : Nat) (slots : List Nat) : Prop where
  start_lt : last < e
  end_le : e ≤ flush
  visited : ∃ n, cur = last + n * c.slotSize ∧
    ∀ k < n, c.owner (last + k * c.slotSize) = w → c.slotNo (last + k * c.slotSize) ∈ slots
  only : ∀ slot ∈ slots, ∃ lsn, last ≤ lsn ∧ lsn ≤ e ∧ c.owner lsn = w ∧ c.slotNo lsn = slot

theorem Walked.start (hne : last < flush) : Walked c w last flush last flush [] where
  start_lt := hne
  end_le := le_rfl
  visited := ⟨0, by omega, nofun⟩
  only := forall_mem_nil _

section

variable (h : Walked c w last flush cur e slots)
include h

theorem Walked.mono {flush' : Nat} (hf : flush ≤ flush') : Walked c w last flush' cur e slots :=
  { h with end_le := h.end_le.trans hf }

theorem Walked.skip (hne : c.owner cur ≠ w) : Walked c w last flush (cur + c.slotSize) e slots := by
  obtain ⟨n, hn, hv⟩ := h.visited
  refine { h with visited := ⟨n + 1, by rw [hn, Nat.add_one_mul, Nat.add_assoc],
    fun k hk ho => ?_⟩ }
  rcases Nat.lt_succ_iff_lt_or_eq.mp hk with hk | rfl
  · exact hv k hk ho
  · exact absurd (hn ▸ ho) hne

theorem Walked.signal (hle : cur ≤ c.alignedEnd e) (ho : c.owner cur = w) :
    Walked c w last flush (cur + c.slotSize) e (c.slotNo cur :: slots) := by
  obtain ⟨n, hn, hv⟩ := h.visited
  refine ⟨h.start_lt, h.end_le,
    ⟨n + 1, by rw [hn, Nat.add_one_mul, Nat.add_assoc], fun k hk hok => ?_⟩, ?_⟩
  · rcases Nat.lt_succ_iff_lt_or_eq.mp hk with hk | rfl
    · exact mem_cons_of_mem _ (hv k hk hok)
    · exact hn ▸ mem_cons_self
  · refine forall_mem_cons.mpr ⟨?_, h.only⟩
    have hlast : last ≤ cur := by omega
    obtain ⟨lsn, hl, hle', hslot⟩ := Conf.visit_in_range hlast h.start_lt hle
    exact ⟨lsn, hl, hle', by rw [Conf.owner, hslot]; exact ho, hslot⟩

theorem Walked.complete (hover : c.alignedEnd e < cur)
    (hlast : last < lsn) (hle : lsn ≤ e) (ho : c.owner lsn = w) : c.slotNo lsn ∈ slots := by
  obtain ⟨n, rfl, hv⟩ := h.visited
  obtain ⟨k, hk, hslot⟩ := Conf.exists_visit (c := c) hlast hle
  have hkn : k < n := by
    refine Nat.lt_of_mul_lt_mul_right (a := c.slotSize) ?_
    omega
  rw [← hslot]
  exact hv k hkn (by rw [Conf.owner, hslot]; exact ho)

end

def CallOk (c : Conf) (w last flush : Nat) : NotifyPc → Prop
  | .idle => True
  | .walk cur e slots => Walked c w last flush cur e slots
  | .locked cur e slots =>
    Walked c w last flush cur e slots ∧ cur ≤ c.alignedEnd e ∧ c.owner cur = w
  | .broadcasted cur e slots => Walked c w last flush (cur + c.slotSize) e slots

variable {pc : NotifyPc} {m : Nat → Option Proc} {p : Proc} {k : Backend}

theorem CallOk.mono {flush' : Nat} (h : CallOk c w last flush pc)
    (hf : flush ≤ flush') : CallOk c w last flush' pc := by
  cases pc with
  | idle => exact h
  | walk cur e slots | broadcasted cur e slots => exact Walked.mono h hf
  | locked cur e slots => exact ⟨h.1.mono hf, h.2⟩

theorem CallOk.end_le (h : CallOk c w last flush pc) (he : pc.endLsn = some e) : e ≤ flush := by
  cases pc with
  | idle => cases he
  | walk cur e' slots | broadcasted cur e' slots => exact some.inj he ▸ Walked.end_le h
  | locked cur e' slots => exact some.inj he ▸ h.1.end_le

def CommitPc.holds (c : Conf) : CommitPc → Option Nat
  | .locked lsn | .reread lsn => some (c.slotNo lsn)
  | _ => none

def NotifyPc.holds (c : Conf) : NotifyPc → Option Nat
  | .locked cur _ _ | .broadcasted cur _ _ => some (c.slotNo cur)
  | _ => none

/-- The backend is blocked, or will be without looking at the shared position
again. -/
def Backend.Waits (k : Backend) (lsn : Nat) : Prop :=
  k.pc = .blocked lsn ∨ k.pc = .locked lsn ∧ k.flush < lsn

/-- The worker has not notified the position, and in a call that covers it
comes to its slot. -/
def Awaited (c : Conf) (last : Nat) (pc : NotifyPc) (lsn : Nat) : Prop :=
  last < lsn ∧ ∀ e, pc.endLsn = some e → lsn ≤ e → ToBroadcast c (c.slotNo lsn) pc

def Expected (c : Conf) (s : State) (lsn : Nat) : Prop :=
  Awaited c (s.lastNotify (c.owner lsn)) (s.notifiers (c.owner lsn)) lsn

structure Inv (c : Conf) (s : State) : Prop where
  notified : ∀ w, s.lastNotify w ≤ s.flush
  calls : ∀ w, CallOk c w (s.lastNotify w) s.flush (s.notifiers w)
  backendHolds : ∀ b slot, (s.backends b).pc.holds c = some slot →
    s.mutex slot = some (.backend b)
  notifierHolds : ∀ w slot, (s.notifiers w).holds c = some slot →
    s.mutex slot = some (.notifier w)
  expected : ∀ b lsn, (s.backends b).Waits lsn → Expected c s lsn

theorem Inv.init (flush : Nat) : Inv c (State.init flush) where
  notified _ := le_rfl
  calls _ := trivial
  backendHolds := nofun
  notifierHolds := nofun
  expected _ _ h := by
    rcases h with h | ⟨h, -⟩ <;> cases h

theorem Inv.noLostWakeup (h : Inv c s) : NoLostWakeup c s where
  broadcasts w cur e slots hpc hover lsn hlast hle ho := by
    have hc := h.calls w
    rw [hpc] at hc
    exact Walked.complete hc hover hlast hle ho
  only w cur e slots hpc := by
    have hc := h.calls w
    rw [hpc] at hc
    exact Walked.only hc
  blocked b lsn hpc := .inl (h.expected b lsn (.inl hpc)).1
  covered b lsn e hpc := (h.expected b lsn (.inl hpc)).2 e

theorem Inv.expected_of_flush_lt (h : Inv c s) (hlt : s.flush < lsn) : Expected c s lsn := by
  refine ⟨(h.notified _).trans_lt hlt, fun e he hle => ?_⟩
  have := (h.calls _).end_le he
  omega

/-! ## Steps of the backends -/

def KeepsOthers (m m' : Nat → Option Proc) (p : Proc) : Prop :=
  ∀ slot q, q ≠ p → m slot = some q → m' slot = some q

theorem keepsOthers_lock (p : Proc) (hfree : m slot = none) :
    KeepsOthers m (update m slot (some p)) p := by
  intro slot' q _ hq
  have hne : slot' ≠ slot := by
    rintro rfl
    rw [hfree] at hq
    cases hq
  rwa [update_of_ne hne]

theorem keepsOthers_unlock (hm : m slot = some p) : KeepsOthers m (update m slot none) p := by
  intro slot' q hqp hq
  have hne : slot' ≠ slot := by
    rintro rfl
    rw [hm] at hq
    exact hqp (some.inj hq).symm
  rwa [update_of_ne hne]

theorem Inv.moveBackend (h : Inv c s) (m : Nat → Option Proc) (k : Backend)
    (hm : KeepsOthers s.mutex m (.backend b))
    (hholds : ∀ slot, k.pc.holds c = some slot → m slot = some (.backend b))
    (hwaits : ∀ lsn, k.Waits lsn → Expected c s lsn) :
    Inv c ({ s with mutex := m }.setBackend b k) where
  notified := h.notified
  calls := h.calls
  backendHolds := (forall_update_iff s.backends fun b' k => ∀ slot, k.pc.holds c = some slot →
    m slot = some (.backend b')).mpr ⟨hholds, fun b' hbb slot hb' =>
      hm slot _ (by simpa using hbb) (h.backendHolds b' slot hb')⟩
  notifierHolds w slot hw := hm slot _ (by simp) (h.notifierHolds w slot hw)
  expected := (forall_update_iff s.backends fun _ k => ∀ lsn, k.Waits lsn → Expected c s lsn).mpr
    ⟨hwaits, fun b' _ => h.expected b'⟩

theorem not_waits_of_pc (hl : ∀ lsn, k.pc ≠ .locked lsn)
    (hb : ∀ lsn, k.pc ≠ .blocked lsn) (lsn : Nat) : ¬k.Waits lsn := by
  rintro (h | ⟨h, -⟩)
  · exact hb lsn h
  · exact hl lsn h

theorem Inv.setBackend (h : Inv c s) (k : Backend) (hholds : k.pc.holds c = none)
    (hl : ∀ lsn, k.pc ≠ .locked lsn) (hb : ∀ lsn, k.pc ≠ .blocked lsn) : Inv c (s.setBackend b k) :=
  h.moveBackend s.mutex k (fun _ _ _ hq => hq) (fun _ hs => nomatch hholds.symm.trans hs)
    (fun lsn hw => absurd hw (not_waits_of_pc hl hb lsn))

theorem lock_eq_some (hs : s.lock slot p = some s') :
    s.mutex slot = none ∧ s' = { s with mutex := update s.mutex slot (some p) } := by
  obtain ⟨hfree, rfl⟩ := ite_some_none_eq_some.mp hs
  exact ⟨hfree, rfl⟩

/-- The moment that decides: the own copy is compared under the mutex. -/
def StepOk (s : State) : Action → Prop
  | .backend b =>
    match s.backends b with
    | ⟨flush, .toLock lsn⟩ => lsn ≤ flush ∨ s.flush < lsn
    | _ => True
  | _ => True

instance StepOk.decidable (s : State) : ∀ a, Decidable (StepOk s a)
  | .backend b =>
    match h : s.backends b with
    | ⟨flush, .toLock lsn⟩ =>
      decidable_of_iff (lsn ≤ flush ∨ s.flush < lsn) (by simp only [StepOk, h])
    | ⟨_, .idle⟩ | ⟨_, .request _⟩ | ⟨_, .spin _ _⟩ | ⟨_, .locked _⟩ | ⟨_, .blocked _⟩
    | ⟨_, .woken _⟩ | ⟨_, .reread _⟩ => .isTrue (by simp only [StepOk, h])
  | .flushed _ | .refresh _ | .commitWait _ _ | .wake _ | .notify _ | .notifier _ => .isTrue trivial

/-- After a look at the shared position a backend returns or spins on. -/
theorem Inv.setBackend_ite (h : Inv c s) (P : Prop) [Decidable P] (f lsn spins : Nat) :
    Inv c (s.setBackend b ⟨f, if P then .idle else .spin lsn spins⟩) := by
  split <;> exact h.setBackend _ rfl nofun nofun

theorem Inv.commitStep (h : Inv c s) (hok : StepOk s (.backend b))
    (hs : commitStep c s b = some s') : Inv c s' := by
  unfold WalPipeline.commitStep at hs
  rcases hk : s.backends b with ⟨f, pc⟩
  simp only [hk] at hs
  cases pc with
  | idle | blocked lsn => cases hs
  | request lsn =>
    cases hs
    have h' : Inv c { s with rqstWrite := max s.rqstWrite lsn, rqstFlush := max s.rqstFlush lsn } :=
      { h with }
    exact h'.setBackend_ite _ _ _ _
  | spin lsn spins =>
    simp only at hs
    split at hs
    · cases hs
      exact h.setBackend _ rfl nofun nofun
    · cases hs
      exact h.setBackend_ite _ _ _ _
  | toLock lsn =>
    obtain ⟨s1, hlock, rfl⟩ := map_eq_some_iff.mp hs
    obtain ⟨hfree, rfl⟩ := lock_eq_some hlock
    refine h.moveBackend _ _ (keepsOthers_lock _ hfree) ?_ ?_
    · intro slot hslot
      cases hslot
      exact update_self ..
    · rintro lsn' (hb | ⟨hl, hlt⟩)
      · cases hb
      · cases hl
        simp only [StepOk, hk] at hok
        rcases hok with hle | hflush
        · simp only at hlt
          omega
        · exact h.expected_of_flush_lt hflush
  | locked lsn =>
    cases hs
    have hmutex : s.mutex (c.slotNo lsn) = some (.backend b) := h.backendHolds b _ (by rw [hk]; rfl)
    refine h.moveBackend _ _ (keepsOthers_unlock hmutex) ?_ ?_
    · intro slot hslot
      by_cases hle : lsn ≤ f
      · simp only [hle, ↓reduceIte] at hslot
        cases hslot
      · simp only [hle, ↓reduceIte] at hslot
        cases hslot
    · intro lsn' hw
      by_cases hle : lsn ≤ f
      · simp only [hle, ↓reduceIte] at hw
        exact absurd hw (not_waits_of_pc (by simp) (by simp) lsn')
      · simp only [hle, ↓reduceIte] at hw
        rcases hw with hb | ⟨hl, -⟩
        · cases hb
          exact h.expected b lsn (by rw [hk]; exact .inr ⟨rfl, by simp only; omega⟩)
        · cases hl
  | woken lsn =>
    obtain ⟨s1, hlock, rfl⟩ := map_eq_some_iff.mp hs
    obtain ⟨hfree, rfl⟩ := lock_eq_some hlock
    refine h.moveBackend _ _ (keepsOthers_lock _ hfree) ?_ ?_
    · intro slot hslot
      cases hslot
      exact update_self ..
    · intro lsn' hw
      exact absurd hw (not_waits_of_pc (by simp) (by simp) lsn')
  | reread lsn =>
    cases hs
    refine h.moveBackend s.mutex _ (fun _ _ _ hq => hq) ?_ ?_
    · intro slot hslot
      exact h.backendHolds b slot (by rw [hk]; exact hslot)
    · rintro lsn' (hb | ⟨hl, hlt⟩)
      · cases hb
      · cases hl
        exact h.expected_of_flush_lt hlt

/-! ## Steps of the notify workers -/

section

variable {pc0 : NotifyPc} (h : Inv c s) (hpc : s.notifiers w = pc0) (m : Nat → Option Proc)
  (hm : KeepsOthers s.mutex m (.notifier w))
  (hholds : ∀ slot, pc.holds c = some slot → m slot = some (.notifier w))
include h hpc hm hholds

theorem Inv.setNotifier (n : Nat) (hn : n ≤ s.flush) (hcall : CallOk c w n s.flush pc)
    (hto : ∀ lsn, c.owner lsn = w → (∃ b, (s.backends b).Waits lsn) →
      Awaited c (s.lastNotify w) pc0 lsn → Awaited c n pc lsn) :
    Inv c ({ s with mutex := m, lastNotify := update s.lastNotify w n }.setNotifier w pc) where
  notified := (forall_update_iff s.lastNotify fun _ n => n ≤ s.flush).mpr
    ⟨hn, fun w' _ => h.notified w'⟩
  calls w' := by
    simp only [State.setNotifier, update_apply]
    split
    · next hw => exact hw ▸ hcall
    · exact h.calls w'
  backendHolds b slot hb := hm slot _ (by simp) (h.backendHolds b slot hb)
  notifierHolds := (forall_update_iff s.notifiers fun w' pc => ∀ slot, pc.holds c = some slot →
    m slot = some (.notifier w')).mpr ⟨hholds, fun w' hww slot hw' =>
      hm slot _ (by simpa using hww) (h.notifierHolds w' slot hw')⟩
  expected b lsn hb := by
    have hexp := h.expected b lsn hb
    by_cases hww : c.owner lsn = w
    · simp only [Expected, State.setNotifier, hww, update_self] at hexp ⊢
      exact hto lsn hww ⟨b, hb⟩ (hpc ▸ hexp)
    · simp only [Expected, State.setNotifier, update_of_ne hww]
      exact hexp

theorem Inv.moveNotifier (hcall : CallOk c w (s.lastNotify w) s.flush pc)
    (hto : ∀ lsn, c.owner lsn = w → (∃ b, (s.backends b).Waits lsn) →
      Awaited c (s.lastNotify w) pc0 lsn → Awaited c (s.lastNotify w) pc lsn) :
    Inv c ({ s with mutex := m }.setNotifier w pc) := by
  have hinv := h.setNotifier hpc m hm hholds _ (h.notified w) hcall hto
  rwa [update_eq_self] at hinv

end

theorem Inv.notify (h : Inv c s) (hs : step c s (.notify w) = some s') : Inv c s' := by
  obtain ⟨hidle, hs⟩ := ite_none_right_eq_some.mp hs
  split at hs
  · cases hs
    exact h
  · next hne =>
    cases hs
    have hlt : s.lastNotify w < s.flush := (h.notified w).lt_of_ne hne
    refine h.moveNotifier hidle.2 s.mutex (fun _ _ _ hq => hq) nofun (Walked.start hlt) ?_
    refine fun lsn _ _ hexp => ⟨hexp.1, fun e he hle => ?_⟩
    cases he
    exact Conf.exists_visit hexp.1 hle

/-- What a broadcast leaves waiting is on another slot, or holds its mutex. -/
theorem Backend.waits_wake (h : (k.wake c slot).Waits lsn) :
    k.Waits lsn ∧ (c.slotNo lsn ≠ slot ∨ k.pc = .locked lsn) := by
  obtain ⟨f, pc⟩ := k
  cases pc with
  | blocked lsn' =>
    by_cases hslot : c.slotNo lsn' = slot
    · simp only [Backend.wake, hslot] at h
      exact absurd h (not_waits_of_pc (by simp) (by simp) lsn)
    · simp only [Backend.wake, hslot] at h
      rcases h with hb | ⟨hl, -⟩
      · cases hb
        exact ⟨.inl rfl, .inl hslot⟩
      · cases hl
  | locked lsn' =>
    rcases h with hb | ⟨hl, hlt⟩
    · cases hb
    · cases hl
      exact ⟨.inr ⟨rfl, hlt⟩, .inr rfl⟩
  | _ => exact absurd h (not_waits_of_pc (by simp [Backend.wake]) (by simp [Backend.wake]) lsn)

theorem Backend.holds_wake (k : Backend) : (k.wake c slot).pc.holds c = k.pc.holds c := by
  obtain ⟨f, pc⟩ := k
  cases pc with
  | blocked lsn =>
    simp only [Backend.wake]
    split <;> rfl
  | _ => rfl

/-- After the broadcast nobody waits on the slot. -/
theorem Inv.broadcast (h : Inv c s) (hmutex : s.mutex slot = some (.notifier w)) :
    Inv c (s.broadcast c slot) ∧
      ∀ b lsn, ((s.broadcast c slot).backends b).Waits lsn → c.slotNo lsn ≠ slot := by
  have hne : ∀ b lsn, ((s.broadcast c slot).backends b).Waits lsn → c.slotNo lsn ≠ slot := by
    intro b lsn hb
    rcases (Backend.waits_wake hb).2 with hne | hl
    · exact hne
    · rintro rfl
      have := h.backendHolds b (c.slotNo lsn) (by rw [hl]; rfl)
      rw [hmutex] at this
      cases this
  refine ⟨⟨h.notified, h.calls, fun b slot' hb => ?_, h.notifierHolds, fun b lsn hb => ?_⟩, hne⟩
  · exact h.backendHolds b slot' (by rw [← Backend.holds_wake]; exact hb)
  · exact h.expected b lsn (Backend.waits_wake hb).1

theorem Inv.finish (h : Inv c s) (hpc : s.notifiers w = .walk cur e slots)
    (hover : c.alignedEnd e < cur) :
    Inv c ({ s with lastNotify := update s.lastNotify w e }.setNotifier w .idle) := by
  have hcall := h.calls w
  rw [hpc] at hcall
  refine h.setNotifier hpc s.mutex (fun _ _ _ hq => hq) (by nofun) e (Walked.end_le hcall) trivial
    fun lsn _ _ hexp => ⟨?_, nofun⟩
  by_contra hle
  exact absurd (Ahead.le (hexp.2 e rfl (by omega))) (not_le.mpr hover)

theorem Inv.notifyStep (h : Inv c s) (hs : notifyStep c s w = some s') : Inv c s' := by
  unfold WalPipeline.notifyStep at hs
  have hcall := h.calls w
  split at hs
  · cases hs
  · next cur e slots hpc =>
    rw [hpc] at hcall
    split at hs
    · next hle =>
      split at hs
      · next how =>
        obtain ⟨s1, hlock, rfl⟩ := map_eq_some_iff.mp hs
        obtain ⟨hfree, rfl⟩ := lock_eq_some hlock
        refine h.moveNotifier hpc _ (keepsOthers_lock _ hfree) ?_ ⟨hcall, hle, how⟩
          fun _ _ _ hexp => hexp
        intro slot hslot
        cases hslot
        exact update_self ..
      · next hne =>
        cases hs
        refine h.moveNotifier hpc s.mutex (fun _ _ _ hq => hq) nofun (Walked.skip hcall hne) ?_
        refine fun lsn how' _ hexp => ⟨hexp.1, fun e' he hl => ?_⟩
        refine Ahead.next (hexp.2 e' he hl) fun heq => hne ?_
        rwa [Conf.owner, heq]
    · next hover =>
      cases hs
      exact h.finish hpc (not_le.mp hover)
  · next cur e slots hpc =>
    rw [hpc] at hcall
    cases hs
    have hmutex := h.notifierHolds w (c.slotNo cur) (by rw [hpc]; rfl)
    obtain ⟨h', hne⟩ := h.broadcast hmutex
    refine h'.moveNotifier hpc s.mutex (fun _ _ _ hq => hq) (fun slot hslot => ?_)
      (hcall.1.signal hcall.2.1 hcall.2.2) fun lsn _ ⟨b, hb⟩ hexp => ⟨hexp.1, fun e' he hl => ?_⟩
    · cases hslot
      exact hmutex
    · exact Ahead.next (hexp.2 e' he hl) fun heq => hne b lsn hb heq.symm
  · next cur e slots hpc =>
    rw [hpc] at hcall
    cases hs
    have hmutex := h.notifierHolds w (c.slotNo cur) (by rw [hpc]; rfl)
    exact h.moveNotifier hpc _ (keepsOthers_unlock hmutex) nofun hcall fun _ _ _ hexp => hexp

/-! ## Runs -/

theorem Inv.step {a : Action} (h : Inv c s) (hok : StepOk s a) (hs : step c s a = some s') :
    Inv c s' := by
  cases a with
  | flushed lsn =>
    obtain ⟨hle, rfl⟩ := ite_some_none_eq_some.mp hs
    exact ⟨fun w => (h.notified w).trans hle, fun w => (h.calls w).mono hle,
      h.backendHolds, h.notifierHolds, h.expected⟩
  | refresh b =>
    obtain ⟨-, rfl⟩ := ite_some_none_eq_some.mp hs
    exact h.setBackend _ rfl nofun nofun
  | commitWait b lsn =>
    obtain ⟨-, hs⟩ := ite_none_right_eq_some.mp hs
    split at hs
    · cases hs
      exact h
    · cases hs
      exact h.setBackend _ rfl nofun nofun
  | backend b => exact h.commitStep hok hs
  | wake b =>
    simp only [WalPipeline.step] at hs
    split at hs
    · cases hs
      exact h.setBackend _ rfl nofun nofun
    · cases hs
  | notify w => exact h.notify hs
  | notifier w => exact h.notifyStep hs

/-- No wakeup is lost in a run where no backend takes the mutex of its slot
with a copy of the shared position that hides that its own was reached. -/
theorem noLostWakeup_of_meets (c : Conf) (flush : Nat) (as : List Action) (s : State)
    (hm : Meets (step c) StepOk (State.init flush) as)
    (hs : exec (step c) (State.init flush) as = some s) : NoLostWakeup c s :=
  (exec_invariant_of_meets (fun _ => Inv c) (fun _ _ _ _ h hok hs => h.step hok hs)
    (Inv.init flush) hm hs).noLostWakeup

/-- The backend is blocked before the flush position gets to 16; it is then
still to be woken up by the call that is under way. -/
def flushedAfterLock : List Action :=
  [.commitWait 0 16, .backend 0, .backend 0, .backend 0, .backend 0, .flushed 16, .notify 0]

theorem noLostWakeup_flushedAfterLock :
    ∃ s, exec (step smallConf) (State.init 8) flushedAfterLock = some s
      ∧ (s.backends 0).pc = .blocked 16 ∧ s.notifiers 0 = .walk 8 16 []
      ∧ NoLostWakeup smallConf s := by
  refine exec_eval (E := fun s => (s.backends 0).pc = .blocked 16 ∧ s.notifiers 0 = .walk 8 16 [])
    (by decide) fun s hs ⟨hpc, hw⟩ => ?_
  exact ⟨hpc, hw, noLostWakeup_of_meets smallConf 8 flushedAfterLock s (by decide) hs⟩

end PolarDB.WalPipeline
