import Mathlib.Order.Nat
import PolarDB.ConsistentLsn

/-!
# One buffer of the consistent LSN's system

A step works on one buffer: its descriptor, its oldest LSN, its copy, and
what is logged and stored of its page. `View` has these together, and
`ViewOk` says how they are related. The point is `covered`: a
modification that is not on storage is at or behind the oldest LSN of the
buffer or of a copy that holds it. There is one lemma for each thing a
step does to a view.
-/

namespace PolarDB.ConsistentLsn

open List Option

structure View where
  desc : BufferDesc
  oldest : Nat
  copy : Option CopyBufferDesc
  mods : List Nat
  stored : List Nat

def Sys.view (s : Sys) (b : Nat) : View where
  desc := s.buf b
  oldest := s.oldestLsn b
  copy := (s.buf b).copyBuffer.map s.copyBuf
  mods := ofPage s.mods (s.buf b).tag
  stored := ofPage s.storage (s.buf b).tag

def IoOk (v : View) : Prop :=
  match v.desc.io with
  | .idle => True
  | .written => v.mods ⊆ v.stored
  | .copyWritten => ∀ k ∈ v.copy, k.block ⊆ v.stored
  | .freed => v.mods ⊆ v.stored ∧ v.copy = none

/-- A copy is older than its buffer. Until the buffer is touched again it
has everything that is logged. -/
structure CopyOk (v : View) (k : CopyBufferDesc) : Prop where
  valid : k.oldestLsn ≠ invalidXLogRecPtr
  le : k.oldestLsn ≤ v.oldest
  block : k.block ⊆ v.desc.block
  mods : v.desc.firstTouchedAfterCopy = false → v.mods ⊆ k.block
  stored : v.desc.io ≠ .written → v.stored ⊆ k.block

structure WriterOk (v : View) (lsn : Nat) : Prop where
  io : v.desc.io = .idle
  tag : v.desc.tag.isSome
  valid : v.oldest ≠ invalidXLogRecPtr
  le : v.oldest ≤ lsn
  touched : v.copy.isSome → v.desc.firstTouchedAfterCopy = true

structure ViewOk (insertLsn : Nat) (v : View) : Prop where
  le : v.oldest ≤ insertLsn
  out : v.oldest = invalidXLogRecPtr →
    v.desc.recentlyModifiedCount = 0 ∧ v.desc.oldestLsnIsFake = false ∧ v.copy = none
  touched : v.desc.firstTouchedAfterCopy = true → v.copy.isSome
  dirty : v.oldest ≠ invalidXLogRecPtr → v.desc.io = .idle ∨ v.desc.io = .copyWritten →
    v.desc.dirty = true
  block : v.mods ⊆ v.desc.block
  stored : v.stored ⊆ v.desc.block
  copy : ∀ k ∈ v.copy, CopyOk v k
  covered : ∀ m ∈ v.mods, m ∈ v.stored ∨ (v.oldest ≠ invalidXLogRecPtr ∧ v.oldest ≤ m) ∨
    ∃ k ∈ v.copy, k.oldestLsn ≤ m ∧ m ∈ k.block
  writer : ∀ lsn ∈ v.desc.contentLock, WriterOk v lsn
  io : IoOk v

variable {insertLsn : Nat} {v : View}

theorem forall_mem_none {α : Type} {o : Option α} {P : α → Prop} (h : o = none) : ∀ x ∈ o, P x := by
  rw [h]
  nofun

section

variable (h : ViewOk insertLsn v)
include h

theorem ViewOk.mono {lsn : Nat} (hle : insertLsn ≤ lsn) : ViewOk lsn v :=
  { h with le := h.le.trans hle }

theorem ViewOk.mods_stored (hout : v.oldest = invalidXLogRecPtr) : v.mods ⊆ v.stored := by
  intro m hm
  rcases h.covered m hm with hst | ⟨hne, -⟩ | ⟨k, hk, -⟩
  · exact hst
  · exact absurd hout hne
  · rw [(h.out hout).2.2] at hk
    cases hk

theorem ViewOk.untouched (hcopy : v.copy = none) : v.desc.firstTouchedAfterCopy = false := by
  cases ht : v.desc.firstTouchedAfterCopy with
  | false => rfl
  | true =>
    have := h.touched ht
    rw [hcopy] at this
    cases this

theorem ViewOk.no_writer (hio : v.desc.io ≠ .idle) : v.desc.contentLock = none := by
  cases hlock : v.desc.contentLock with
  | none => rfl
  | some lsn => exact absurd (h.writer lsn hlock).io hio

end

theorem IoOk.of_idle (hio : v.desc.io = .idle) : IoOk v := by
  rw [IoOk, hio]
  trivial

/-! ## Modifying -/

def marked (d : BufferDesc) (insertLsn : Nat) : BufferDesc :=
  { d with
    dirty := true
    justDirtied := true
    contentLock := some insertLsn
    recentlyModifiedCount := d.recentlyModifiedCount + 1 }

section

variable (h : ViewOk insertLsn v)
include h

theorem ViewOk.markPut (hout : v.oldest = invalidXLogRecPtr)
    (hlsn : insertLsn ≠ invalidXLogRecPtr) (htag : v.desc.tag.isSome) (hio : v.desc.io = .idle) :
    ViewOk insertLsn { v with
      desc := { marked v.desc insertLsn with oldestLsnIsFake := true }
      oldest := insertLsn } :=
  { h with
    le := le_rfl
    out := fun hc => absurd hc hlsn
    dirty := fun _ _ => rfl
    copy := forall_mem_none (h.out hout).2.2
    covered := fun m hm => .inl (h.mods_stored hout hm)
    writer := fun lsn hlsn' => by
      refine ⟨hio, htag, hlsn, (some.inj hlsn').le, fun hc => ?_⟩
      rw [show v.copy = none from (h.out hout).2.2] at hc
      cases hc
    io := IoOk.of_idle hio }

/-- The first touch after a copy: the copy keeps what is not on storage. -/
theorem ViewOk.markAdjust (hcopy : v.copy.isSome)
    (huntouched : v.desc.firstTouchedAfterCopy = false) (hlsn : insertLsn ≠ invalidXLogRecPtr)
    (htag : v.desc.tag.isSome) (hio : v.desc.io = .idle) :
    ViewOk insertLsn { v with
      desc := { marked v.desc insertLsn with firstTouchedAfterCopy := true }
      oldest := insertLsn } where
  le := le_rfl
  out := fun hc => absurd hc hlsn
  touched := fun _ => hcopy
  dirty := fun _ _ => rfl
  block := h.block
  stored := h.stored
  copy := fun k hk =>
    have hk := h.copy k hk
    ⟨hk.valid, hk.le.trans h.le, hk.block, nofun, hk.stored⟩
  covered := fun m hm => by
    rcases h.covered m hm with hst | ⟨-, hle⟩ | hk
    · exact .inl hst
    · obtain ⟨k, hk⟩ := isSome_iff_exists.mp hcopy
      exact .inr (.inr ⟨k, hk, (h.copy k hk).le.trans hle, (h.copy k hk).mods huntouched hm⟩)
    · exact .inr (.inr hk)
  writer := fun _ hlsn' => ⟨hio, htag, hlsn, (some.inj hlsn').le, fun _ => rfl⟩
  io := IoOk.of_idle hio

theorem ViewOk.markAgain (hin : v.oldest ≠ invalidXLogRecPtr)
    (htouched : v.copy.isSome → v.desc.firstTouchedAfterCopy = true) (htag : v.desc.tag.isSome)
    (hio : v.desc.io = .idle) :
    ViewOk insertLsn { v with desc := marked v.desc insertLsn } :=
  { h with
    out := fun hc => absurd hc hin
    dirty := fun _ _ => rfl
    copy := fun k hk => { h.copy k hk with }
    writer := fun _ hlsn =>
      ⟨hio, htag, hin, h.le.trans (some.inj hlsn).le, htouched⟩
    io := IoOk.of_idle hio }

theorem ViewOk.log {lsn start : Nat} (hlock : lsn ∈ v.desc.contentLock) (hle : lsn ≤ start) :
    ViewOk insertLsn { v with
      desc := { v.desc with block := start :: v.desc.block }
      mods := start :: v.mods } :=
  { h with
    block := cons_subset_cons _ h.block
    stored := subset_cons_of_subset _ h.stored
    copy := fun k hk =>
      have hk' := h.copy k hk
      have htouched : v.desc.firstTouchedAfterCopy = true :=
        (h.writer lsn hlock).touched (isSome_of_mem hk)
      ⟨hk'.valid, hk'.le, subset_cons_of_subset _ hk'.block,
        fun hc => absurd (hc.symm.trans htouched) nofun, hk'.stored⟩
    covered := fun m hm => by
      have hw := h.writer lsn hlock
      rcases mem_cons.mp hm with rfl | hm
      · exact .inr (.inl ⟨hw.valid, hw.le.trans hle⟩)
      · exact h.covered m hm
    writer := fun _ hlsn => { h.writer _ hlsn with }
    io := IoOk.of_idle (h.writer lsn hlock).io }

theorem ViewOk.unlock : ViewOk insertLsn { v with desc := { v.desc with contentLock := none } } :=
  { h with
    copy := fun k hk => { h.copy k hk with }
    writer := nofun }

theorem ViewOk.hint :
    ViewOk insertLsn { v with desc := { v.desc with dirty := true, justDirtied := true } } :=
  { h with
    dirty := fun _ _ => rfl
    copy := fun k hk => { h.copy k hk with }
    writer := fun lsn hlsn => { h.writer lsn hlsn with } }

/-! ## Copying and writing -/

theorem ViewOk.takeCopy (hlock : Unlocked v.desc)
    (hin : v.oldest ≠ invalidXLogRecPtr) (hnone : v.copy = none) (c : Nat) :
    ViewOk insertLsn { v with
      desc := { v.desc with copyBuffer := some c }
      copy := some ⟨v.oldest, true, v.desc.block⟩ } :=
  { h with
    out := fun hc => absurd hc hin
    touched := fun _ => rfl
    copy := fun k hk => by
      cases hk
      exact ⟨hin, le_rfl, List.Subset.refl _, fun _ => h.block, fun _ => h.stored⟩
    covered := fun m hm => by
      rcases h.covered m hm with hst | hold | ⟨k, hk, -⟩
      · exact .inl hst
      · exact .inr (.inl hold)
      · rw [hnone] at hk
        cases hk
    writer := forall_mem_none hlock.2.1
    io := IoOk.of_idle hlock.2.2 }

theorem ViewOk.writeCopy (hlock : Unlocked v.desc) {k : CopyBufferDesc} (hk : k ∈ v.copy) :
    ViewOk insertLsn { v with
      desc := { v.desc with io := .copyWritten }
      stored := k.block } :=
  { h with
    dirty := fun hin _ => h.dirty hin (.inl hlock.2.2)
    stored := (h.copy k hk).block
    copy := fun k' hk' => by
      have hok := h.copy k hk
      rw [mem_unique hk' hk]
      exact ⟨hok.valid, hok.le, hok.block, hok.mods, fun _ => List.Subset.refl _⟩
    covered := fun m hm => by
      have hidle : v.desc.io ≠ .written := by rw [hlock.2.2]; nofun
      rcases h.covered m hm with hst | hold | ⟨k', hk', -, hin⟩
      · exact .inl ((h.copy k hk).stored hidle hst)
      · exact .inr (.inl hold)
      · rw [mem_unique hk' hk] at hin
        exact .inl hin
    writer := forall_mem_none hlock.2.1
    io := fun k' hk' => by
      rw [mem_unique hk' hk]
      exact List.Subset.refl _ }

theorem ViewOk.write (hlock : Unlocked v.desc) : ViewOk insertLsn { v with
      desc := { v.desc with justDirtied := false, io := .written }
      stored := v.desc.block } :=
  { h with
    dirty := nofun
    stored := List.Subset.refl _
    copy := fun k hk =>
      have hk := h.copy k hk
      ⟨hk.valid, hk.le, hk.block, hk.mods, fun hc => absurd rfl hc⟩
    covered := fun _ hm => .inl (h.block hm)
    writer := forall_mem_none hlock.2.1
    io := h.block }

theorem ViewOk.freeWritten (hio : v.desc.io = .written) : ViewOk insertLsn { v with
      desc := { v.desc with copyBuffer := none, firstTouchedAfterCopy := false, io := .freed }
      copy := none } where
  le := h.le
  out := fun hc => ⟨(h.out hc).1, (h.out hc).2.1, rfl⟩
  touched := nofun
  dirty := nofun
  block := h.block
  stored := h.stored
  copy := nofun
  covered := fun m hm => by
    have hst : v.mods ⊆ v.stored := by
      have := h.io
      rwa [IoOk, hio] at this
    exact .inl (hst hm)
  writer := forall_mem_none (h.no_writer (hio ▸ nofun))
  io := by
    have := h.io
    rw [IoOk, hio] at this
    exact ⟨this, rfl⟩

theorem ViewOk.freeCopyWritten (hio : v.desc.io = .copyWritten) : ViewOk insertLsn { v with
      desc := { v.desc with copyBuffer := none, firstTouchedAfterCopy := false, io := .idle }
      copy := none } :=
  { h with
    out := fun hc => ⟨(h.out hc).1, (h.out hc).2.1, rfl⟩
    touched := nofun
    dirty := fun hin _ => h.dirty hin (.inr hio)
    copy := nofun
    covered := fun m hm => by
      have hwritten := h.io
      rw [IoOk, hio] at hwritten
      rcases h.covered m hm with hst | hold | ⟨k, hk, -, hin⟩
      · exact .inl hst
      · exact .inr (.inl hold)
      · exact .inl (hwritten k hk hin)
    writer := forall_mem_none (h.no_writer (hio ▸ nofun))
    io := trivial }

/-- The end of a write or a drop: the buffer leaves the list with its
flags reset. -/
theorem ViewOk.finish (hio : v.desc.io = .freed) {d : BufferDesc}
    (hcount : d.recentlyModifiedCount = 0) (hfake : d.oldestLsnIsFake = false)
    (htouched : d.firstTouchedAfterCopy = false) (hidle : d.io = .idle)
    (hblock : d.block = v.desc.block) (hlock : d.contentLock = v.desc.contentLock) :
    ViewOk insertLsn { v with desc := d, oldest := invalidXLogRecPtr } := by
  have hfreed := h.io
  rw [IoOk, hio] at hfreed
  exact {
    le := Nat.zero_le _
    out := fun _ => ⟨hcount, hfake, hfreed.2⟩
    touched := fun hc => absurd (hc.symm.trans htouched) nofun
    dirty := fun hc => absurd rfl hc
    block := hblock ▸ h.block
    stored := hblock ▸ h.stored
    copy := forall_mem_none hfreed.2
    covered := fun _ hm => .inl (hfreed.1 hm)
    writer := forall_mem_none (hlock.trans (h.no_writer (hio ▸ nofun)))
    io := IoOk.of_idle hidle }

theorem ViewOk.invalidate (hlock : Unlocked v.desc) : ViewOk insertLsn {
      desc := { v.desc with
        copyBuffer := none
        firstTouchedAfterCopy := false
        tag := none
        dirty := false
        justDirtied := false
        io := .freed }
      oldest := v.oldest
      copy := none
      mods := []
      stored := [] } where
  le := h.le
  out := fun hc => ⟨(h.out hc).1, (h.out hc).2.1, rfl⟩
  touched := nofun
  dirty := nofun
  block := nil_subset _
  stored := nil_subset _
  copy := nofun
  covered := nofun
  writer := forall_mem_none hlock.2.1
  io := ⟨nil_subset _, rfl⟩

theorem ViewOk.load (hout : v.oldest = invalidXLogRecPtr) (hlock : v.desc.contentLock = none)
    (hio : v.desc.io = .idle) (p : BufferTag) {mods stored : List Nat} (hsub : mods ⊆ stored) :
    ViewOk insertLsn { v with
      desc := { v.desc with tag := some p, block := stored }
      mods := mods
      stored := stored } :=
  { h with
    block := hsub
    stored := List.Subset.refl _
    copy := forall_mem_none (h.out hout).2.2
    covered := fun _ hm => .inl (hsub hm)
    writer := forall_mem_none hlock
    io := IoOk.of_idle hio }

end

end PolarDB.ConsistentLsn
