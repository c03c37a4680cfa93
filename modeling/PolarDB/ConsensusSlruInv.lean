import Mathlib.Data.List.GetD
import Mathlib.Data.List.Infix
import PolarDB.Basic
import PolarDB.ConsensusSlru
import PolarDB.SinglyLinked

/-!
# The consistent states of the page cache

`DirtyList` says that the links of the dirty list pass through exactly the
dirty slots in page order, `Mem` what else is true of slots, files and page
contents whenever the lock is free. Each operation on the cache keeps `Mem`
under conditions that say where the slot stands; the threads come in later.

The file may be behind the content of a page only while a slot holds the page
and is dirty (`Mem.settled`). The offset from which the first dirty page is
written never skips an entry that is not in the file (`Mem.offset`), so a
write brings the file up to date (`Mem.writePage`).
-/

namespace PolarDB.ConsensusSlru

open Function List

variable {numSlots i offset pageno entry : Nat} {m : Store} {l : List Nat} {x : Slot}

/-! ## The dirty list -/

structure DirtyList (m : Store) (l : List Nat) : Prop where
  follows : Follows m.nextDirtySlot m.firstDirtySlot l
  last : m.lastDirtySlot = l.getLast?
  mem : ∀ i, i ∈ l ↔ (m.slots i).dirty = true
  sorted : l.Pairwise fun i j => (m.slots i).pageNumber < (m.slots j).pageNumber
  off : ∀ i, i ∉ l → m.nextDirtySlot i = none

section

variable (h : DirtyList m l)
include h

theorem DirtyList.nodup : l.Nodup :=
  h.sorted.imp fun {a b} hlt (e : a = b) => absurd hlt (e ▸ lt_irrefl _)

theorem DirtyList.dirty_of_first (hi : m.firstDirtySlot = some i) : (m.slots i).dirty = true := by
  refine (h.mem i).mp (mem_of_mem_head? ?_)
  rwa [← h.follows.head]

theorem DirtyList.eq_nil (hfirst : m.firstDirtySlot = none) : l = [] := by
  have := h.follows.head
  rw [hfirst] at this
  exact head?_eq_none_iff.mp this.symm

/-- A change that leaves the dirty marks, the pages of dirty slots and the
links alone. -/
theorem DirtyList.setSlot (hdirty : x.dirty = (m.slots i).dirty)
    (hpage : x.dirty = true → x.pageNumber = (m.slots i).pageNumber) :
    DirtyList (m.setSlot i x) l := by
  have hd : ∀ j, ((m.setSlot i x).slots j).dirty = (m.slots j).dirty := by
    intro j
    by_cases hj : j = i
    · subst hj
      simpa [Store.setSlot] using hdirty
    · simp [Store.setSlot, hj]
  have hp : ∀ j ∈ l, ((m.setSlot i x).slots j).pageNumber = (m.slots j).pageNumber := by
    intro j hj
    by_cases hji : j = i
    · subst hji
      simpa [Store.setSlot] using hpage (hdirty.trans ((h.mem j).mp hj))
    · simp [Store.setSlot, hji]
  refine ⟨h.follows, h.last, fun j => by rw [hd]; exact h.mem j, ?_, h.off⟩
  refine h.sorted.imp_of_mem fun {a b} ha hb hlt => ?_
  rwa [hp a ha, hp b hb]

end

/-! ## Fields after a push -/

theorem setSlot_slots : (m.setSlot i x).slots = update m.slots i x := rfl

theorem Store.pushDirty_of_dirty {head : Bool} (h : (m.slots i).dirty = true) :
    m.pushDirty i offset head = m := by
  rw [Store.pushDirty, if_pos h]

theorem setDirty_of_dirty (h : (m.slots i).dirty = true) : m.setDirty i true = m := by
  have : { m.slots i with dirty := true } = m.slots i := by rw [← h]
  unfold Store.setDirty Store.setSlot
  rw [this, update_eq_self]

section

variable (head : Bool)
include head

@[simp] theorem pushDirty_slots :
    (m.pushDirty i offset head).slots = (m.setDirty i true).slots := by
  unfold Store.pushDirty
  split
  case isTrue h => rw [setDirty_of_dirty h]
  case isFalse => split; · rfl
                  · split <;> rfl

theorem pushDirty_rest :
    (m.pushDirty i offset head).file = m.file ∧ (m.pushDirty i offset head).durable = m.durable ∧
      (m.pushDirty i offset head).content = m.content ∧
      (m.pushDirty i offset head).latestPageNumber = m.latestPageNumber := by
  unfold Store.pushDirty
  split; · exact ⟨rfl, rfl, rfl, rfl⟩
  split; · exact ⟨rfl, rfl, rfl, rfl⟩
  split <;> exact ⟨rfl, rfl, rfl, rfl⟩

@[simp] theorem pushDirty_file : (m.pushDirty i offset head).file = m.file :=
  (pushDirty_rest head).1

@[simp] theorem pushDirty_durable : (m.pushDirty i offset head).durable = m.durable :=
  (pushDirty_rest head).2.1

@[simp] theorem pushDirty_content : (m.pushDirty i offset head).content = m.content :=
  (pushDirty_rest head).2.2.1

@[simp] theorem pushDirty_latest :
    (m.pushDirty i offset head).latestPageNumber = m.latestPageNumber :=
  (pushDirty_rest head).2.2.2

end

theorem pushDirty_first (offset : Nat) (hi : (m.slots i).dirty = false) :
    (m.firstDirtySlot = none ∧ (m.pushDirty i offset false).firstDirtySlot = some i
        ∧ (m.pushDirty i offset false).firstDirtyOffset = offset)
      ∨ ∃ first, m.firstDirtySlot = some first
        ∧ (m.pushDirty i offset false).firstDirtySlot = some first
        ∧ (m.pushDirty i offset false).firstDirtyOffset = m.firstDirtyOffset := by
  rw [Store.pushDirty, if_neg (by rw [hi]; decide)]
  cases hfirst : m.firstDirtySlot with
  | none => exact .inl ⟨rfl, rfl, rfl⟩
  | some first => exact .inr ⟨first, rfl, hfirst, rfl⟩

theorem DirtyList.push (offset : Nat) (h : DirtyList m l) (hi : (m.slots i).dirty = false)
    (hlt : ∀ j ∈ l, (m.slots j).pageNumber < (m.slots i).pageNumber) :
    DirtyList (m.pushDirty i offset false) (l ++ [i]) := by
  have hil : i ∉ l := fun hm => by rw [(h.mem i).mp hm] at hi; cases hi
  have hother : ∀ j, j ≠ i → (m.pushDirty i offset false).slots j = m.slots j := by
    intro j hj
    rw [pushDirty_slots]
    exact update_of_ne hj _ _
  have hself : (m.pushDirty i offset false).slots i = { m.slots i with dirty := true } := by
    rw [pushDirty_slots]
    exact update_self ..
  have hmem : ∀ j, j ∈ l ++ [i] ↔ ((m.pushDirty i offset false).slots j).dirty = true := by
    intro j
    by_cases hj : j = i
    · subst hj
      simp [hself]
    · rw [hother j hj, ← h.mem j]
      simp [hj]
  have hpage : ∀ j ∈ l, ((m.pushDirty i offset false).slots j).pageNumber
      = (m.slots j).pageNumber := fun j hj => by rw [hother j fun e => hil (e ▸ hj)]
  have hsorted : (l ++ [i]).Pairwise fun a b =>
      ((m.pushDirty i offset false).slots a).pageNumber
        < ((m.pushDirty i offset false).slots b).pageNumber := by
    refine pairwise_snoc ?_ fun a ha => ?_
    · exact h.sorted.imp_of_mem fun ha hb hab => by rw [hpage _ ha, hpage _ hb]; exact hab
    · rw [hpage a ha, hself]
      exact hlt a ha
  have hlast : (l ++ [i]).getLast? = some i := getLast?_concat
  cases hfirst : m.firstDirtySlot with
  | none =>
    have hl : l = [] := h.eq_nil hfirst
    subst hl
    have heq : m.pushDirty i offset false = { m.setDirty i true with
        firstDirtySlot := some i, lastDirtySlot := some i, firstDirtyOffset := offset } := by
      rw [Store.pushDirty, if_neg (by rw [hi]; decide), hfirst]
    refine ⟨?_, ?_, hmem, hsorted, ?_⟩
    · rw [heq]
      exact ⟨rfl, h.off i hil⟩
    · rw [heq]
      rfl
    · intro j _
      rw [heq]
      exact h.off j not_mem_nil
  | some first =>
    obtain ⟨last, hb⟩ : ∃ last, l.getLast? = some last := by
      cases hl : l.getLast? with
      | some last => exact ⟨last, rfl⟩
      | none =>
        have := h.follows.head
        rw [hfirst, getLast?_eq_none_iff.mp hl] at this
        cases this
    have hlastslot : m.lastDirtySlot = some last := h.last.trans hb
    have heq : m.pushDirty i offset false = { m.setDirty i true with
        nextDirtySlot := update m.nextDirtySlot last (some i)
        lastDirtySlot := some i } := by
      rw [Store.pushDirty, if_neg (by rw [hi]; decide), hfirst, hlastslot]
      rfl
    refine ⟨?_, ?_, hmem, hsorted, ?_⟩
    · rw [heq]
      exact h.follows.snoc hb h.nodup hil (h.off i hil)
    · rw [heq, hlast]
    · intro j hj
      rw [mem_append, not_or] at hj
      rw [heq]
      refine (update_of_ne (fun e => hj.1 ?_) _ _).trans (h.off j hj.1)
      exact e ▸ mem_of_getLast? hb

theorem DirtyList.pop (h : DirtyList m (i :: l)) : DirtyList (m.popDirty i) l := by
  have hi : (m.slots i).dirty = true := (h.mem i).mp mem_cons_self
  have hnd := nodup_cons.mp h.nodup
  have heq : m.popDirty i = { m.setDirty i false with
      firstDirtySlot := m.nextDirtySlot i
      firstDirtyOffset := 0
      nextDirtySlot := update m.nextDirtySlot i none
      lastDirtySlot := if m.nextDirtySlot i = none then none else m.lastDirtySlot } := by
    rw [Store.popDirty, if_pos hi]
  have hother : ∀ j, j ≠ i → (m.popDirty i).slots j = m.slots j := by
    intro j hj
    rw [heq]
    exact update_of_ne hj _ _
  have hne : ∀ j ∈ l, j ≠ i := fun j hj e => hnd.1 (e ▸ hj)
  refine ⟨?_, ?_, fun j => ?_, ?_, fun j hj => ?_⟩
  · rw [heq]
    exact h.follows.tail h.nodup
  · rw [heq]
    have hnext : m.nextDirtySlot i = l.head? := h.follows.2.head
    rw [hnext, h.last]
    cases l with
    | nil => rfl
    | cons b l => rw [if_neg (by simp), getLast?_cons_cons]
  · by_cases hj : j = i
    · subst hj
      rw [heq]
      simp [Store.setDirty, Store.setSlot, hnd.1]
    · rw [hother j hj, ← h.mem j]
      simp [hj]
  · refine (pairwise_cons.mp h.sorted).2.imp_of_mem fun ha hb hlt => ?_
    rwa [hother _ (hne _ ha), hother _ (hne _ hb)]
  · rw [heq]
    by_cases hji : j = i
    · subst hji
      exact update_self ..
    · refine (update_of_ne hji _ _).trans (h.off j ?_)
      simp [hji, hj]

theorem writeFrom_eq {old buffer : List Nat} (h : old <+: buffer) (hoff : offset ≤ old.length) :
    writeFrom old offset buffer = buffer := by
  obtain ⟨rest, rfl⟩ := h
  refine ext_getElem (by simp [writeFrom]) fun j hj hj' => ?_
  simp only [writeFrom, getElem_map, getElem_range]
  by_cases hlt : j < offset
  · have hold : j < old.length := hlt.trans_le hoff
    rw [if_pos hlt, getD_eq_getElem _ _ hold, getElem_append_left hold]
  · rw [if_neg hlt, getD_eq_getElem _ _ hj']

/-! ## Consistent states -/

structure SlotOk (numSlots : Nat) (m : Store) (i : Nat) (x : Slot) : Prop where
  bound : x.status ≠ .empty → i < numSlots
  known : x.status ≠ .empty → Known m x.pageNumber
  held : x.status = .valid ∨ x.status = .writeInProgress → x.buffer = m.content x.pageNumber
  busy : x.status = .writeInProgress → x.dirty = true
  dirty : x.dirty = true → x.status = .valid ∨ x.status = .writeInProgress

/-- A change elsewhere: the content of the slot's page stays, and no page is
forgotten. -/
theorem SlotOk.mono {m' : Store} (h : SlotOk numSlots m i x)
    (hcontent : x.status ≠ .empty → m'.content x.pageNumber = m.content x.pageNumber)
    (hknown : ∀ p, Known m p → Known m' p) : SlotOk numSlots m' i x :=
  { h with
    known hs := hknown _ (h.known hs)
    held hs := (h.held hs).trans (hcontent fun he => by rw [he] at hs; revert hs; decide).symm }

theorem SlotOk.ne_empty (h : SlotOk numSlots m i x) (hd : x.dirty = true) : x.status ≠ .empty := by
  rcases h.dirty hd with hs | hs <;> rw [hs] <;> decide

structure Mem (numSlots : Nat) (m : Store) : Prop where
  slot : ∀ i, SlotOk numSlots m i (m.slots i)
  unique : ∀ i j, (m.slots i).status ≠ .empty → (m.slots j).status ≠ .empty →
    (m.slots i).pageNumber = (m.slots j).pageNumber → i = j
  settled : ∀ p, (∀ i, (m.slots i).dirty = true → (m.slots i).pageNumber ≠ p) →
    m.file p = m.content p
  file : ∀ p, m.file p <+: m.content p
  durable : ∀ p, m.durable p <+: m.file p
  unknown : ∀ p, ¬Known m p → m.content p = []
  list : ∃ l, DirtyList m l
  offset : ∀ i, m.firstDirtySlot = some i →
    m.firstDirtyOffset ≤ (m.file (m.slots i).pageNumber).length

theorem Mem.init : Mem numSlots Store.init where
  slot _ := ⟨(absurd rfl ·), (absurd rfl ·), nofun, nofun, nofun⟩
  unique _ _ h := absurd rfl h
  settled _ _ := rfl
  file _ := nil_prefix
  durable _ := nil_prefix
  unknown _ _ := rfl
  list := ⟨[], rfl, rfl, fun _ => by simp [Store.init], List.Pairwise.nil, fun _ _ => rfl⟩
  offset := nofun

def PageFree (m : Store) (i : Nat) (x : Slot) : Prop :=
  x.status ≠ .empty → ∀ j, j ≠ i → (m.slots j).status ≠ .empty →
    (m.slots j).pageNumber ≠ x.pageNumber

section

variable (h : Mem numSlots m)
include h

theorem Mem.dirty_of_first (hi : m.firstDirtySlot = some i) : (m.slots i).dirty = true :=
  have ⟨_, hl⟩ := h.list
  hl.dirty_of_first hi

theorem Mem.status_ne_empty_of_dirty (hi : (m.slots i).dirty = true) :
    (m.slots i).status ≠ .empty :=
  (h.slot i).ne_empty hi

theorem Mem.clean_of_first (hfirst : m.firstDirtySlot = none) (i : Nat) :
    (m.slots i).dirty ≠ true :=
  have ⟨_, hl⟩ := h.list
  fun hi => not_mem_nil (hl.eq_nil hfirst ▸ (hl.mem i).mpr hi)

theorem Mem.page_ne (hi : (m.slots i).status ≠ .empty) {j : Nat}
    (hj : j ≠ i) (hs : (m.slots j).status ≠ .empty) :
    (m.slots j).pageNumber ≠ (m.slots i).pageNumber :=
  fun he => hj (h.unique j i hs hi he)

theorem Mem.update_unique (hpage : PageFree m i x) (j k : Nat) :
    (update m.slots i x j).status ≠ .empty → (update m.slots i x k).status ≠ .empty →
      (update m.slots i x j).pageNumber = (update m.slots i x k).pageNumber →
      j = k := by
  by_cases hj : j = i <;> by_cases hk : k = i
  · exact fun _ _ _ => hj.trans hk.symm
  · rw [hj, update_self, update_of_ne hk]
    exact fun hs hs' he => absurd he.symm (hpage hs k hk hs')
  · rw [hk, update_self, update_of_ne hj]
    exact fun hs' hs he => absurd he (hpage hs j hj hs')
  · rw [update_of_ne hj, update_of_ne hk]
    exact h.unique j k

end

theorem forall_update {P : Nat → Slot → Prop} {f : Nat → Slot} (hx : P i x)
    (hother : ∀ j, j ≠ i → P j (f j)) (j : Nat) : P j (update f i x j) :=
  (forall_update_iff f P).mpr ⟨hx, hother⟩ j

theorem prefix_update {f : Nat → List Nat} {pageno : Nat} {l : List Nat} (h : f pageno <+: l)
    (p : Nat) : f p <+: update f pageno l p :=
  (forall_update_iff f fun p l => f p <+: l).mpr ⟨h, fun _ _ => prefix_refl _⟩ p

structure Puts (m m' : Store) (i : Nat) (x : Slot) : Prop where
  slots : m'.slots = update m.slots i x
  file : m'.file = m.file
  durable : m'.durable = m.durable
  content : ∀ p, m.content p <+: m'.content p
  other : ∀ p, (x.dirty = true → x.pageNumber ≠ p) → m'.content p = m.content p
  known : ∀ p, Known m p → Known m' p

section puts

variable {m' : Store} {j : Nat}

theorem Puts.self (h : Puts m m' i x) : m'.slots i = x := by rw [h.slots, update_self]

theorem Puts.of_ne (h : Puts m m' i x) (hj : j ≠ i) : m'.slots j = m.slots j := by
  rw [h.slots, update_of_ne hj]

theorem puts_setSlot (m : Store) (i : Nat) (x : Slot) : Puts m (m.setSlot i x) i x :=
  ⟨rfl, rfl, rfl, fun _ => prefix_refl _, fun _ _ => rfl, fun _ => id⟩

theorem Mem.put (h : Mem numSlots m) (hput : Puts m m' i x) (hslot : SlotOk numSlots m' i x)
    (hpage : PageFree m i x)
    (hwas : (m.slots i).dirty = true → x.pageNumber = (m.slots i).pageNumber
      ∧ (x.dirty = false → m.file x.pageNumber = m.content x.pageNumber))
    (hlist : ∃ l, DirtyList m' l)
    (hoffset : ∀ j, m'.firstDirtySlot = some j →
      m'.firstDirtyOffset ≤ (m.file (m'.slots j).pageNumber).length) : Mem numSlots m' where
  slot := by
    rw [hput.slots]
    refine forall_update hslot fun j hj => (h.slot j).mono (fun hs => ?_) hput.known
    exact hput.other _ fun hd he => hpage (hslot.ne_empty hd) j hj hs he.symm
  unique := by
    rw [hput.slots]
    exact h.update_unique hpage
  settled p hp := by
    have hx := hp i
    rw [hput.self] at hx
    rw [hput.file, hput.other p hx]
    by_cases hi : (m.slots i).dirty = true ∧ x.pageNumber = p
    · obtain ⟨hd, rfl⟩ := hi
      exact (hwas hd).2 (Bool.eq_false_iff.mpr fun hxd => hx hxd rfl)
    · refine h.settled p fun j hj hjp => ?_
      by_cases hji : j = i
      · subst hji
        exact hi ⟨hj, (hwas hj).1.trans hjp⟩
      · have := hp j
        rw [hput.of_ne hji] at this
        exact this hj hjp
  file p := by
    rw [hput.file]
    exact (h.file p).trans (hput.content p)
  durable p := by
    rw [hput.file, hput.durable]
    exact h.durable p
  unknown p hp := by
    rw [hput.other p fun hd he => hp (he ▸ hslot.known (hslot.ne_empty hd))]
    exact h.unknown p fun hk => hp (hput.known p hk)
  list := hlist
  offset j hj := by
    rw [hput.file]
    exact hoffset j hj

end puts

theorem not_dirty_ne (hi : (m.slots i).dirty = false) {j : Nat} (hj : (m.slots j).dirty = true) :
    j ≠ i := fun e => by rw [e, hi] at hj; cases hj

theorem Mem.setClean (h : Mem numSlots m) (hi : (m.slots i).dirty = false) (hx : x.dirty = false)
    (hslot : SlotOk numSlots m i x) (hpage : PageFree m i x) :
    Mem numSlots (m.setSlot i x) := by
  have hput := puts_setSlot m i x
  refine h.put hput (hslot.mono (fun _ => rfl) fun _ => id) hpage
    (fun hd => nomatch hi.symm.trans hd) ?_ fun j hj => ?_
  · obtain ⟨l, hl⟩ := h.list
    exact ⟨l, hl.setSlot (hx.trans hi.symm) fun hd => nomatch hx.symm.trans hd⟩
  · rw [hput.of_ne (not_dirty_ne hi (h.dirty_of_first hj))]
    exact h.offset j hj

/-- A write of a dirty slot begins, or ends without success. -/
theorem Mem.setStatus (h : Mem numSlots m) (hi : (m.slots i).dirty = true) {status : PageStatus}
    (hstatus : status = .valid ∨ status = .writeInProgress) :
    Mem numSlots (m.setStatus i status) := by
  have hempty := h.status_ne_empty_of_dirty hi
  have hslot : SlotOk numSlots m i { m.slots i with status := status } :=
    ⟨fun _ => (h.slot i).bound hempty, fun _ => (h.slot i).known hempty,
      fun _ => (h.slot i).held ((h.slot i).dirty hi), fun _ => hi, fun _ => hstatus⟩
  refine h.put (puts_setSlot m i _) (hslot.mono (fun _ => rfl) fun _ => id)
    (fun _ j hj hs => h.page_ne hempty hj hs)
    (fun _ => ⟨rfl, fun hd => nomatch hi.symm.trans hd⟩) ?_ fun j hj => ?_
  · obtain ⟨l, hl⟩ := h.list
    exact ⟨l, hl.setSlot rfl fun _ => rfl⟩
  · refine (h.offset j hj).trans_eq (congrArg _ (congrArg _ ?_))
    exact forall_update (x := { m.slots i with status := status })
      (P := fun j y => (m.slots j).pageNumber = y.pageNumber) rfl (fun _ _ => rfl) j

/-! ### The end of a write -/

theorem puts_finish (hi : (m.slots i).dirty = true) : Puts m ((m.popDirty i).setStatus i .valid) i
    { m.slots i with status := .valid, dirty := false } := by
  rw [Store.popDirty, if_pos hi]
  exact ⟨by simp [Store.setStatus, Store.setSlot, Store.setDirty], rfl, rfl,
    fun _ => prefix_refl _, fun _ _ => rfl, fun _ => id⟩

section

variable (h : Mem numSlots m) (hfirst : m.firstDirtySlot = some i)
include h hfirst

/-- The first dirty slot is written and taken out of the list. -/
theorem Mem.finish (hfile : m.file (m.slots i).pageNumber = m.content (m.slots i).pageNumber) :
    Mem numSlots ((m.popDirty i).setStatus i .valid) := by
  have hi := h.dirty_of_first hfirst
  have hempty := h.status_ne_empty_of_dirty hi
  have hput := puts_finish hi
  have hslot : SlotOk numSlots m i { m.slots i with status := .valid, dirty := false } :=
    ⟨fun _ => (h.slot i).bound hempty, fun _ => (h.slot i).known hempty,
      fun _ => (h.slot i).held ((h.slot i).dirty hi), nofun, nofun⟩
  refine h.put hput (hslot.mono (fun _ => hput.other _ nofun) hput.known)
    (fun _ j hj hs => h.page_ne hempty hj hs) (fun _ => ⟨rfl, fun _ => hfile⟩) ?_ fun j _ => ?_
  · obtain ⟨l, hl⟩ := h.list
    have hhead : l.head? = some i := hl.follows.head.symm.trans hfirst
    obtain ⟨l', rfl⟩ := head?_eq_some_iff.mp hhead
    exact ⟨l', hl.pop.setSlot rfl fun _ => rfl⟩
  · have hoffset : (m.popDirty i).firstDirtyOffset = 0 := by
      rw [Store.popDirty, if_pos hi]
    change (m.popDirty i).firstDirtyOffset ≤ _
    rw [hoffset]
    exact Nat.zero_le _

/-! ### Writing and synchronising the files -/

theorem Mem.writePage_file (hpage : (m.slots i).pageNumber = pageno) :
    (m.writePage i pageno m.firstDirtyOffset).file
      = update m.file pageno (m.content pageno) := by
  subst hpage
  have hbuf := (h.slot i).held ((h.slot i).dirty (h.dirty_of_first hfirst))
  rw [Store.writePage, hbuf, writeFrom_eq (h.file _) (h.offset i hfirst)]

theorem Mem.writePage (hpage : (m.slots i).pageNumber = pageno) :
    Mem numSlots (m.writePage i pageno m.firstDirtyOffset) := by
  have hfile := h.writePage_file hfirst hpage
  have hmono : ∀ p, m.file p <+: (m.writePage i pageno m.firstDirtyOffset).file p := by
    rw [hfile]
    exact prefix_update (h.file pageno)
  refine ⟨fun j => ?_, h.unique, fun p hp => ?_, fun p => ?_,
    fun p => (h.durable p).trans (hmono p), h.unknown, ?_, fun j hj => ?_⟩
  · exact (h.slot j).mono (fun _ => rfl) fun _ => id
  · rw [hfile]
    rw [update_apply]
    split
    · next hpp => rw [hpp]; rfl
    · exact h.settled p hp
  · rw [hfile]
    rw [update_apply]
    split
    · next hp => exact hp ▸ prefix_refl _
    · exact h.file p
  · obtain ⟨l, hl⟩ := h.list
    exact ⟨l, { hl with }⟩
  · exact (h.offset j hj).trans (hmono _).length_le

end

theorem Mem.sync (h : Mem numSlots m) (seg : Nat) : Mem numSlots (m.sync seg) := by
  refine ⟨fun j => ?_, h.unique, h.settled, h.file, fun p => ?_, h.unknown, ?_, h.offset⟩
  · exact (h.slot j).mono (fun _ => rfl) fun _ => id
  · change (if segno p = seg then m.file p else m.durable p) <+: m.file p
    split
    · exact prefix_refl _
    · exact h.durable p
  · obtain ⟨l, hl⟩ := h.list
    exact ⟨l, { hl with }⟩

/-! ### Appending -/

theorem Mem.puts_zeroPage (h : Mem numSlots m) (i : Nat) (hnew : ∀ p, Known m p → p < pageno) :
    Puts m (m.zeroPage i pageno) i ⟨.valid, pageno, true, []⟩ := by
  have hcontent : (m.zeroPage i pageno).content = m.content := by
    rw [Store.zeroPage, ← h.unknown pageno fun hk => lt_irrefl _ (hnew _ hk)]
    simp [Store.setSlot]
  exact ⟨by simp [Store.zeroPage, Store.setSlot, Store.setDirty],
    by simp [Store.zeroPage, Store.setSlot], by simp [Store.zeroPage, Store.setSlot],
    fun _ => by rw [hcontent], fun _ _ => by rw [hcontent],
    fun p hp => ⟨pageno, rfl, (hnew p hp).le⟩⟩

theorem zeroPage_first (pageno : Nat) (hi : (m.slots i).dirty = false) :
    (m.firstDirtySlot = none ∧ (m.zeroPage i pageno).firstDirtySlot = some i
        ∧ (m.zeroPage i pageno).firstDirtyOffset = 0)
      ∨ ∃ first, m.firstDirtySlot = some first ∧ (m.zeroPage i pageno).firstDirtySlot = some first
        ∧ (m.zeroPage i pageno).firstDirtyOffset = m.firstDirtyOffset :=
  pushDirty_first (m := m.setSlot i { m.slots i with status := .valid, pageNumber := pageno }) 0
    (by simpa [Store.setSlot] using hi)

theorem appendEntry_content : (m.appendEntry i pageno entry).content
    = update m.content pageno (m.content pageno ++ [entry]) := by
  simp [Store.appendEntry]

theorem appendEntry_latest :
    (m.appendEntry i pageno entry).latestPageNumber = m.latestPageNumber := by
  simp [Store.appendEntry, Store.setSlot]

theorem puts_appendEntry (entry : Nat) (hpage : (m.slots i).pageNumber = pageno) :
    Puts m (m.appendEntry i pageno entry) i
      { m.slots i with buffer := (m.slots i).buffer ++ [entry], dirty := true } where
  slots := by simp [Store.appendEntry, Store.setSlot, Store.setDirty]
  file := by simp [Store.appendEntry, Store.setSlot]
  durable := by simp [Store.appendEntry, Store.setSlot]
  content := by
    rw [appendEntry_content]
    exact prefix_update (prefix_append _ _)
  other p hp := by
    rw [appendEntry_content, update_of_ne fun e => hp rfl (hpage.trans e.symm)]
  known p hp := by
    rwa [Known, appendEntry_latest]

theorem appendEntry_first (m : Store) (i pageno entry : Nat) :
    ((m.slots i).dirty = false ∧ m.firstDirtySlot = none
        ∧ (m.appendEntry i pageno entry).firstDirtySlot = some i
        ∧ (m.appendEntry i pageno entry).firstDirtyOffset = (m.slots i).buffer.length)
      ∨ ((m.appendEntry i pageno entry).firstDirtySlot = m.firstDirtySlot
        ∧ (m.appendEntry i pageno entry).firstDirtyOffset = m.firstDirtyOffset
        ∧ (m.firstDirtySlot = none → (m.slots i).dirty = true)) := by
  cases hi : (m.slots i).dirty with
  | true =>
    refine .inr ?_
    rw [Store.appendEntry, Store.pushDirty_of_dirty (by simpa [Store.setSlot] using hi)]
    exact ⟨rfl, rfl, fun _ => rfl⟩
  | false =>
    have hclean : ((Store.setSlot m i { m.slots i with
        buffer := (m.slots i).buffer ++ [entry] }).slots i).dirty = false := by
      simpa [Store.setSlot] using hi
    rcases pushDirty_first (m := { m.setSlot i { m.slots i with
          buffer := (m.slots i).buffer ++ [entry] } with
        content := update m.content pageno (m.content pageno ++ [entry]) })
        (m.slots i).buffer.length hclean with h | ⟨first, h⟩
    · exact .inl ⟨rfl, h⟩
    · refine .inr ⟨h.2.1.trans h.1.symm, h.2.2, fun hn => ?_⟩
      rw [show m.firstDirtySlot = some first from h.1] at hn
      cases hn

theorem Mem.zeroPage (h : Mem numSlots m) (hi : (m.slots i).dirty = false) (hbound : i < numSlots)
    (hnew : ∀ p, Known m p → p < pageno) : Mem numSlots (m.zeroPage i pageno) := by
  have hput := h.puts_zeroPage i hnew
  have hslot : SlotOk numSlots (m.zeroPage i pageno) i ⟨.valid, pageno, true, []⟩ :=
    ⟨fun _ => hbound, fun _ => ⟨pageno, rfl, le_rfl⟩,
      fun _ => by simp [Store.zeroPage, Store.setSlot], nofun, fun _ => .inl rfl⟩
  refine h.put hput hslot (fun _ j _ hs => (hnew _ ((h.slot j).known hs)).ne)
    (fun hd => nomatch hi.symm.trans hd) ?_ fun j hj => ?_
  · obtain ⟨l, hl⟩ := h.list
    have hl1 := hl.setSlot (x := { m.slots i with status := .valid, pageNumber := pageno }) rfl
      fun hd => nomatch hi.symm.trans hd
    have hlt : ∀ j ∈ l, (update m.slots i
        { m.slots i with status := .valid, pageNumber := pageno } j).pageNumber < pageno := by
      intro j hj
      have hdirty : (m.slots j).dirty = true := (hl.mem j).mp hj
      rw [update_of_ne (not_dirty_ne hi hdirty)]
      exact hnew _ ((h.slot j).known (h.status_ne_empty_of_dirty hdirty))
    have hl2 := hl1.push (i := i) 0 (by simpa [setSlot_slots] using hi)
      (by simpa [setSlot_slots] using hlt)
    have hl3 := hl2.setSlot (i := i) (x := ⟨.valid, pageno, true, []⟩)
      (by simp [Store.setDirty, Store.setSlot]) fun _ => by simp [Store.setDirty, Store.setSlot]
    refine ⟨l ++ [i], hl3.follows, hl3.last, fun j => ?_, ?_, hl3.off⟩
    · rw [hl3.mem, hput.slots]
      simp [Store.setDirty, Store.setSlot]
    · rw [hput.slots]
      simpa [Store.setDirty, Store.setSlot] using hl3.sorted
  · rcases zeroPage_first pageno hi with ⟨_, _, hoff⟩ | ⟨first, hf, hf', hoff⟩
    · rw [hoff]
      exact Nat.zero_le _
    · have hjf : first = j := Option.some.inj (hf'.symm.trans hj)
      subst hjf
      rw [hoff, hput.of_ne (not_dirty_ne hi (h.dirty_of_first hf))]
      exact h.offset first hf

theorem Mem.appendEntry (h : Mem numSlots m) (hstatus : (m.slots i).status = .valid)
    (hpage : (m.slots i).pageNumber = pageno) (hlatest : m.latestPageNumber = some pageno) :
    Mem numSlots (m.appendEntry i pageno entry) := by
  have hempty : (m.slots i).status ≠ .empty := by rw [hstatus]; decide
  have hput := puts_appendEntry entry hpage
  have hslot : SlotOk numSlots (m.appendEntry i pageno entry) i
      { m.slots i with buffer := (m.slots i).buffer ++ [entry], dirty := true } := by
    refine ⟨fun _ => (h.slot i).bound hempty, fun _ => hput.known _ ((h.slot i).known hempty),
      fun _ => ?_, fun _ => rfl, fun _ => .inl hstatus⟩
    rw [(h.slot i).held (.inl hstatus), hpage, appendEntry_content, update_self]
  refine h.put hput hslot (fun _ j hj hs => h.page_ne hempty hj hs)
    (fun _ => ⟨rfl, nofun⟩) ?_ fun j hj => ?_
  · obtain ⟨l, hl⟩ := h.list
    have hl1 := hl.setSlot
      (x := { m.slots i with buffer := (m.slots i).buffer ++ [entry] }) rfl fun _ => rfl
    have hl2 : DirtyList { m.setSlot i { m.slots i with
        buffer := (m.slots i).buffer ++ [entry] } with
        content := update m.content pageno (m.content pageno ++ [entry]) } l :=
      { hl1 with }
    cases hi : (m.slots i).dirty with
    | true =>
      refine ⟨l, ?_⟩
      rw [Store.appendEntry, Store.pushDirty_of_dirty (by simpa [setSlot_slots] using hi)]
      exact hl2
    | false =>
      refine ⟨l ++ [i], hl2.push _ (by simpa [setSlot_slots] using hi) fun j hj => ?_⟩
      have hdirty : (m.slots j).dirty = true := (hl.mem j).mp hj
      have hji := not_dirty_ne hi hdirty
      have hs := h.status_ne_empty_of_dirty hdirty
      obtain ⟨latest, hmem, hle⟩ := (h.slot j).known hs
      have hlp : pageno = latest := Option.some.inj (hlatest.symm.trans hmem)
      simp only [setSlot_slots, update_of_ne hji, update_self]
      rw [hpage, hlp]
      exact hle.lt_of_ne fun e => h.page_ne hempty hji hs (e.trans (hpage.trans hlp).symm)
  · rcases appendEntry_first m i pageno entry with
      ⟨_, hnone, hf, hoff⟩ | ⟨hf, hoff, _⟩
    · have hji : i = j := Option.some.inj (hf.symm.trans hj)
      subst hji
      have hfile : m.file pageno = m.content pageno := h.settled pageno fun k hk =>
        absurd hk (h.clean_of_first hnone k)
      rw [hoff, hput.self]
      rw [(h.slot i).held (.inl hstatus), hpage, hfile]
    · have hold := h.offset j (hf.symm.trans hj)
      rw [hoff]
      by_cases hji : j = i
      · rw [hji] at hold ⊢
        rwa [hput.self]
      · rwa [hput.of_ne hji]

end PolarDB.ConsensusSlru
