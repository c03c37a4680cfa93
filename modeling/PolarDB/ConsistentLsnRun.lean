import PolarDB.ConsistentLsnView

/-!
# The consistent LSN is a lower bound

`SysInv` has what holds in every state. `Bound v s` says that no oldest LSN
of a buffer or a copy is below `v`. Buffers come into the list at the
insert LSN, and a copy gets the oldest LSN of a buffer, so a bound stays a
bound (`Later.bound`). That is why a value read from the list in one step
and from the copies in others is a bound all the same (`CalOk`), and why
the next one is not smaller.
-/

namespace PolarDB.ConsistentLsn

open FlushList Function List Option

variable {n b : Nat} {s s' : Sys} {fl : Ctl}

variable {f : BufferTag → List Nat} {tag : Option BufferTag} {x : List Nat} {p : BufferTag}
  {b' : Nat}

theorem setPage_of_ne (h : tag ≠ some p) : setPage f tag x p = f p := by
  cases tag with
  | none => rfl
  | some q =>
    have hne : p ≠ q := fun hc => h (congrArg some hc.symm)
    exact update_of_ne hne ..

theorem ofPage_setPage (h : tag.isSome) : ofPage (setPage f tag x) tag = x := by
  cases tag with
  | none => cases h
  | some p => exact update_self ..

/-! ## The flush list -/

def ListOk (top : Nat) (fl : Ctl) : Prop :=
  ∃ l, ListInv top fl l ∧ ∀ b, b ∈ l ↔ fl.oldestLsn b ≠ invalidXLogRecPtr

variable {lsn top : Nat} {d : BufferDesc}

theorem ListOk.split (h : ListOk top fl) (hin : fl.oldestLsn b ≠ invalidXLogRecPtr) :
    ∃ l1 l2, ListInv top fl (l1 ++ b :: l2) ∧
      ∀ i, i ∈ l1 ++ b :: l2 ↔ fl.oldestLsn i ≠ invalidXLogRecPtr := by
  obtain ⟨l, hl, hmem⟩ := h
  obtain ⟨l1, l2, rfl⟩ := append_of_mem ((hmem b).mpr hin)
  exact ⟨l1, l2, hl, hmem⟩

theorem ListOk.put (h : ListOk lsn fl) (hout : fl.oldestLsn b = invalidXLogRecPtr)
    (hlsn : lsn ≠ invalidXLogRecPtr) :
    ∃ fl', putBufferToFlushList fl b invalidXLogRecPtr lsn = some fl' ∧ ListOk lsn fl' ∧
      fl'.oldestLsn = update fl.oldestLsn b lsn := by
  obtain ⟨l, hl, hmem⟩ := h
  have hnot : b ∉ l := fun hc => (hmem b).mp hc hout
  obtain ⟨fl', hput, hl', hold⟩ := hl.put (hl.holds.not_in_iff.mpr hnot)
      (show lsn ≤ if invalidXLogRecPtr = invalidXLogRecPtr then lsn else _ from le_rfl)
  refine ⟨fl', hput, ⟨_, hl', fun i => ?_⟩, hold⟩
  rw [hold]
  by_cases hi : i = b
  · subst hi
    simp [hlsn]
  · rw [update_of_ne hi, ← hmem i]
    simp [hi]

theorem ListOk.adjust (h : ListOk lsn fl) (hin : fl.oldestLsn b ≠ invalidXLogRecPtr)
    (hlsn : lsn ≠ invalidXLogRecPtr) :
    ∃ fl', adjustPositionInFlushList fl b lsn = some fl' ∧ ListOk lsn fl' ∧
      fl'.oldestLsn = update fl.oldestLsn b lsn := by
  obtain ⟨l1, l2, hl, hmem⟩ := h.split hin
  obtain ⟨fl', hadj, hl', hold⟩ := hl.adjust le_rfl
  refine ⟨fl', hadj, ⟨_, hl', fun i => ?_⟩, hold⟩
  rw [hold]
  by_cases hi : i = b
  · subst hi
    simp [hlsn]
  · rw [update_of_ne hi, ← hmem i]
    simp [hi]

theorem ListOk.remove (h : ListOk top fl) (hin : fl.oldestLsn b ≠ invalidXLogRecPtr) :
    ∃ fl', removeBufferFromFlushList fl b = some fl' ∧ ListOk top fl' ∧
      fl'.oldestLsn = update fl.oldestLsn b invalidXLogRecPtr := by
  obtain ⟨l1, l2, hl, hmem⟩ := h.split hin
  obtain ⟨fl', hrem, hl', hold⟩ := hl.remove
  refine ⟨fl', hrem, ⟨_, hl', fun i => ?_⟩, hold⟩
  rw [hold]
  by_cases hi : i = b
  · subst hi
    simpa using hl.not_mem
  · rw [update_of_ne hi, ← hmem i]
    simp [hi]

/-- The list is empty, or its head has the least of the oldest LSNs. -/
theorem ListOk.head (h : ListOk top fl) :
    (flushListIsEmpty fl = true ∧ ∀ b, fl.oldestLsn b = invalidXLogRecPtr) ∨
    (flushListIsEmpty fl = false ∧ ∃ b, fl.firstFlushBuffer = .node b ∧
      fl.oldestLsn b ≤ top ∧ fl.oldestLsn b ≠ invalidXLogRecPtr ∧
      ∀ i, fl.oldestLsn i ≠ invalidXLogRecPtr → fl.oldestLsn b ≤ fl.oldestLsn i) := by
  obtain ⟨l, hl, hmem⟩ := h
  cases l with
  | nil =>
    refine .inl ⟨hl.holds.isEmpty_iff.mpr rfl, fun b => ?_⟩
    by_contra hc
    exact not_mem_nil ((hmem b).mpr hc)
  | cons b l =>
    have hfull : flushListIsEmpty fl = false :=
      Bool.eq_false_iff.mpr fun hc => cons_ne_nil _ _ (hl.holds.isEmpty_iff.mp hc)
    refine .inr ⟨hfull, b, hl.holds.first_eq, hl.bound b (by simp), (hmem b).mp (by simp),
      fun i hi => ?_⟩
    rcases mem_cons.mp ((hmem i).mpr hi) with rfl | hil
    · exact le_rfl
    · exact (pairwise_cons.mp hl.sorted).1 i hil

/-! ## The system -/

structure CopiesOk (n : Nat) (s : Sys) : Prop where
  nodup : s.freeList.Nodup
  free : ∀ c ∈ s.freeList, c < n ∧ (s.copyBuf c).used = false
  owned : ∀ c, (s.copyBuf c).oldestLsn ≠ invalidXLogRecPtr → ∃ b, c ∈ (s.buf b).copyBuffer
  used : ∀ b, ∀ c ∈ (s.buf b).copyBuffer, c < n ∧ (s.copyBuf c).used = true
  owner : ∀ b b' c, c ∈ (s.buf b).copyBuffer → c ∈ (s.buf b').copyBuffer → b = b'

theorem CopiesOk.congr (h : CopiesOk n s) (hbuf : ∀ b, (s'.buf b).copyBuffer = (s.buf b).copyBuffer)
    (hcopy : s'.copyBuf = s.copyBuf) (hfree : s'.freeList = s.freeList) : CopiesOk n s' where
  nodup := hfree ▸ h.nodup
  free := by rw [hfree, hcopy]; exact h.free
  owned := by simp only [hbuf, hcopy]; exact h.owned
  used := by simp only [hbuf, hcopy]; exact h.used
  owner := by simp only [hbuf]; exact h.owner

theorem CopiesOk.ne_of_free {c c' : Nat} (h : CopiesOk n s) (hfree : c ∈ s.freeList)
    (hc' : c' ∈ (s.buf b).copyBuffer) : c' ≠ c := by
  rintro rfl
  have := (h.used b c' hc').2
  rw [(h.free c' hfree).2] at this
  cases this

theorem CopiesOk.setBuf (h : CopiesOk n s) (hcopy : d.copyBuffer = (s.buf b).copyBuffer) :
    CopiesOk n (s.setBuf b d) := by
  refine h.congr (fun b' => ?_) rfl rfl
  by_cases hb : b' = b
  · rw [hb, ← hcopy]
    exact congrArg _ (update_self ..)
  · exact congrArg _ (update_of_ne hb ..)

structure SysInv (n : Nat) (s : Sys) : Prop where
  valid : s.insertLsn ≠ invalidXLogRecPtr
  list : ListOk s.insertLsn s.flushList
  table : ∀ p b, s.bufTable p = some b ↔ (s.buf b).tag = some p
  away : ∀ p, s.bufTable p = none → s.mods p ⊆ s.storage p
  copies : CopiesOk n s
  views : ∀ b, ViewOk s.insertLsn (s.view b)

structure Frame (s s' : Sys) (b : Nat) : Prop where
  insertLsn : s'.insertLsn = s.insertLsn
  bufTable : s'.bufTable = s.bufTable
  tag : (s'.buf b).tag = (s.buf b).tag
  buf : ∀ b' ≠ b, s'.buf b' = s.buf b'
  oldest : ∀ b' ≠ b, s'.oldestLsn b' = s.oldestLsn b'
  copyBuf : ∀ b' ≠ b, ∀ c ∈ (s.buf b').copyBuffer, s'.copyBuf c = s.copyBuf c
  page : ∀ p, (s.buf b).tag ≠ some p → s'.mods p = s.mods p ∧ s'.storage p = s.storage p

section

variable (hbuf : s'.buf b = s.buf b) (hold : s'.oldestLsn b = s.oldestLsn b)
  (hcopy : ∀ c ∈ (s.buf b).copyBuffer, s'.copyBuf c = s.copyBuf c)
  (hpage : ∀ p, (s.buf b).tag = some p → s'.mods p = s.mods p ∧ s'.storage p = s.storage p)
include hbuf hold hcopy hpage

theorem Sys.view_congr : s'.view b = s.view b := by
  have hcopies : (s.buf b).copyBuffer.map s'.copyBuf = (s.buf b).copyBuffer.map s.copyBuf := by
    cases hc : (s.buf b).copyBuffer with
    | none => rfl
    | some c => exact congrArg some (hcopy c hc)
  simp only [Sys.view, hbuf, hold, hcopies]
  cases htag : (s.buf b).tag with
  | none => rfl
  | some p =>
    obtain ⟨hmods, hstorage⟩ := hpage p htag
    simp only [ofPage, elim_some, hmods, hstorage]

theorem ViewOk.congr (h : ViewOk s.insertLsn (s.view b)) (hins : s'.insertLsn = s.insertLsn) :
    ViewOk s'.insertLsn (s'.view b) := by
  rwa [hins, Sys.view_congr hbuf hold hcopy hpage]

end

theorem SysInv.tag_unique (hinv : SysInv n s) (hne : b' ≠ b)
    (hp : (s.buf b').tag = some p) : (s.buf b).tag ≠ some p := fun hc =>
  hne (some.inj (((hinv.table p b').mpr hp).symm.trans ((hinv.table p b).mpr hc)))

theorem SysInv.frame (hinv : SysInv n s) (hf : Frame s s' b)
    (hlist : ListOk s.insertLsn s'.flushList)
    (hcopies : CopiesOk n s') (hview : ViewOk s.insertLsn (s'.view b)) : SysInv n s' where
  valid := hf.insertLsn ▸ hinv.valid
  list := by rw [hf.insertLsn]; exact hlist
  table := fun p b' => by
    rw [hf.bufTable, hinv.table]
    by_cases hb : b' = b
    · rw [hb, hf.tag]
    · rw [hf.buf b' hb]
  away := fun p hp => by
    rw [hf.bufTable] at hp
    have hne : (s.buf b).tag ≠ some p := fun hc => by
      rw [(hinv.table p b).mpr hc] at hp
      cases hp
    rw [(hf.page p hne).1, (hf.page p hne).2]
    exact hinv.away p hp
  copies := hcopies
  views := fun b' => by
    by_cases hb : b' = b
    · rwa [hb, hf.insertLsn]
    · exact (hinv.views b').congr (hf.buf b' hb) (hf.oldest b' hb) (hf.copyBuf b' hb)
        (fun p hp => hf.page p (hinv.tag_unique hb hp)) hf.insertLsn

structure Later (s s' : Sys) : Prop where
  insertLsn : s.insertLsn ≤ s'.insertLsn
  oldest : ∀ b, s'.oldestLsn b ≠ invalidXLogRecPtr →
    s'.oldestLsn b = s.oldestLsn b ∨ s.insertLsn ≤ s'.oldestLsn b
  copy : ∀ c, (s'.copyBuf c).oldestLsn ≠ invalidXLogRecPtr →
    (s'.copyBuf c).oldestLsn = (s.copyBuf c).oldestLsn ∨
    ∃ b, s.oldestLsn b ≠ invalidXLogRecPtr ∧ s.oldestLsn b ≤ (s'.copyBuf c).oldestLsn
  cal : s'.cal = s.cal
  results : s'.results = s.results

structure StepOk (n : Nat) (s s' : Sys) : Prop where
  inv : SysInv n s'
  later : Later s s'

theorem SysInv.stutter (hinv : SysInv n s) : StepOk n s s :=
  ⟨hinv, le_rfl, fun _ _ => .inl rfl, fun _ _ => .inl rfl, rfl, rfl⟩

/-- A step that writes the descriptor of `b`, its place in the list, and
what is logged and stored of its page. -/
theorem SysInv.list_step {mods storage : BufferTag → List Nat} (hinv : SysInv n s)
    (hlist : ListOk s.insertLsn fl)
    (hold : fl.oldestLsn = update s.flushList.oldestLsn b lsn)
    (hlsn : lsn ≠ invalidXLogRecPtr → lsn = s.oldestLsn b ∨ s.insertLsn ≤ lsn)
    (hpage : ∀ p, (s.buf b).tag ≠ some p → mods p = s.mods p ∧ storage p = s.storage p)
    (hview : ViewOk s.insertLsn ⟨d, lsn, (s.view b).copy, ofPage mods (s.buf b).tag,
      ofPage storage (s.buf b).tag⟩)
    (htag : d.tag = (s.buf b).tag) (hcopy : d.copyBuffer = (s.buf b).copyBuffer) :
    StepOk n s ({ s with flushList := fl, mods := mods, storage := storage }.setBuf b d) := by
  have hother : ∀ b' ≠ b, fl.oldestLsn b' = s.oldestLsn b' := fun b' hne =>
    (congrFun hold b').trans (update_of_ne hne ..)
  refine ⟨hinv.frame ⟨rfl, rfl, ?_, fun b' hne => update_of_ne hne .., hother, fun _ _ _ _ => rfl,
      hpage⟩ hlist { hinv.copies.setBuf hcopy with } ?_,
    le_rfl, fun b' hin => ?_, fun _ _ => .inl rfl, rfl, rfl⟩
  · exact (congrArg _ (update_self ..)).trans htag
  · simpa only [Sys.view, Sys.setBuf, Sys.oldestLsn, hold, update_self, htag, hcopy] using hview
  · by_cases hb : b' = b
    · have hnew : fl.oldestLsn b' = lsn := by rw [hb, hold, update_self]
      rw [Sys.oldestLsn, Sys.setBuf, hnew] at hin ⊢
      exact hb ▸ hlsn hin
    · exact .inl (hother b' hb)

theorem SysInv.desc_step (hinv : SysInv n s)
    (hview : ViewOk s.insertLsn { s.view b with desc := d }) (htag : d.tag = (s.buf b).tag)
    (hcopy : d.copyBuffer = (s.buf b).copyBuffer) : StepOk n s (s.setBuf b d) :=
  hinv.list_step hinv.list (update_eq_self b _).symm (fun _ => .inl rfl) (fun _ _ => ⟨rfl, rfl⟩)
    hview htag hcopy

/-! ## The steps -/

theorem SysInv.insert (hinv : SysInv n s) {lsn : Nat} (hle : s.insertLsn ≤ lsn) :
    StepOk n s { s with insertLsn := lsn } := by
  obtain ⟨l, hl, hmem⟩ := hinv.list
  refine ⟨{ hinv with
      valid := ?_
      list := ⟨l, hl.mono hle, hmem⟩
      copies := { hinv.copies with }
      views := fun b => (hinv.views b).mono hle },
    hle, fun _ _ => .inl rfl, fun _ _ => .inl rfl, rfl, rfl⟩
  exact Nat.pos_iff_ne_zero.mp ((Nat.pos_iff_ne_zero.mpr hinv.valid).trans_le hle)

theorem markBufferDirty_eq (s : Sys) (b : Nat) : markBufferDirty s b =
    if s.oldestLsn b = invalidXLogRecPtr then
      (putBufferToFlushList s.flushList b invalidXLogRecPtr s.insertLsn).map fun fl =>
        { s with flushList := fl }.setBuf b
          { marked (s.buf b) s.insertLsn with oldestLsnIsFake := true }
    else if firstTouchAfterCopy (s.buf b) then
      (adjustPositionInFlushList s.flushList b s.insertLsn).map fun fl =>
        { s with flushList := fl }.setBuf b
          { marked (s.buf b) s.insertLsn with firstTouchedAfterCopy := true }
    else some (s.setBuf b (marked (s.buf b) s.insertLsn)) := by
  simp only [markBufferDirty, setBufferFakeOldestLsn, Sys.setBuf, update_self, update_idem]
  rfl

section

variable (hinv : SysInv n s)
include hinv

theorem SysInv.mark (htag : (s.buf b).tag.isSome) (hio : (s.buf b).io = .idle) :
    ∃ s', markBufferDirty s b = some s' ∧ StepOk n s s' := by
  have hv := hinv.views b
  have hcopy : (s.view b).copy.isSome = (s.buf b).copyBuffer.isSome := isSome_map
  rw [markBufferDirty_eq]
  split
  · rename_i hout
    obtain ⟨fl, hput, hlist, hold⟩ := hinv.list.put hout hinv.valid
    rw [hput]
    exact ⟨_, rfl, hinv.list_step hlist hold (fun _ => .inr le_rfl)
      (fun _ _ => ⟨rfl, rfl⟩) (hv.markPut hout hinv.valid htag hio) rfl rfl⟩
  · rename_i hin
    split
    · rename_i hfirst
      simp only [firstTouchAfterCopy, Bool.and_eq_true, Bool.not_eq_true'] at hfirst
      obtain ⟨fl, hadj, hlist, hold⟩ := hinv.list.adjust hin hinv.valid
      rw [hadj]
      exact ⟨_, rfl, hinv.list_step hlist hold (fun _ => .inr le_rfl)
        (fun _ _ => ⟨rfl, rfl⟩) (hv.markAdjust (hcopy.trans hfirst.1) hfirst.2 hinv.valid htag hio)
          rfl rfl⟩
    · rename_i hfirst
      refine ⟨_, rfl, hinv.desc_step (hv.markAgain hin (fun hc => ?_) htag hio) rfl rfl⟩
      rw [hcopy] at hc
      rwa [firstTouchAfterCopy, hc, Bool.true_and, Bool.not_eq_true', Bool.not_eq_false] at hfirst

theorem SysInv.log {lsn start : Nat} (hlock : lsn ∈ (s.buf b).contentLock)
    (hle : lsn ≤ start) : StepOk n s (logModification s b start) := by
  have hv := hinv.views b
  have hsome : (s.buf b).tag.isSome := (hv.writer lsn hlock).tag
  refine hinv.list_step hinv.list (update_eq_self b _).symm (fun _ => .inl rfl)
    (fun _ hp => ⟨setPage_of_ne hp, rfl⟩) ?_ rfl rfl
  rw [ofPage_setPage hsome]
  exact hv.log hlock hle

theorem SysInv.store_step {stored : List Nat} (hsome : (s.buf b).tag.isSome)
    (hview : ViewOk s.insertLsn { s.view b with desc := d, stored := stored })
    (htag : d.tag = (s.buf b).tag) (hcopy : d.copyBuffer = (s.buf b).copyBuffer) :
    StepOk n s ({ s with storage := setPage s.storage (s.buf b).tag stored }.setBuf b d) := by
  refine hinv.list_step hinv.list (update_eq_self b _).symm (fun _ => .inl rfl)
    (fun _ hp => ⟨rfl, setPage_of_ne hp⟩) ?_ htag hcopy
  rwa [ofPage_setPage hsome]

theorem SysInv.flush (hlock : Unlocked (s.buf b)) : StepOk n s (flushBuffer s b) := by
  rw [flushBuffer]
  split
  · exact hinv.store_step hlock.1 ((hinv.views b).write hlock) rfl rfl
  · exact hinv.stutter

theorem SysInv.flushCopy (hlock : Unlocked (s.buf b)) : StepOk n s (flushCopyBuffer s b) := by
  rw [flushCopyBuffer]
  split
  · rename_i c _ hc
    have hk : s.copyBuf c ∈ (s.view b).copy := by
      rw [Sys.view, hc]
      exact rfl
    exact hinv.store_step hlock.1 ((hinv.views b).writeCopy hlock hk) rfl rfl
  · exact hinv.stutter

end

variable {c : Nat}

theorem CopiesOk.take (h : CopiesOk n s) {freeList : List Nat} (hfree : s.freeList = c :: freeList)
    (hnone : (s.buf b).copyBuffer = none) (k : CopyBufferDesc) (hk : k.used = true) :
    CopiesOk n ({ s with
      copyBuf := update s.copyBuf c k
      freeList := freeList }.setBuf b { s.buf b with copyBuffer := some c }) := by
  have hnodup := h.nodup
  rw [hfree, nodup_cons] at hnodup
  have hc := h.free c (hfree ▸ mem_cons_self)
  have hother : ∀ b' c', c' ∈ (s.buf b').copyBuffer → c' ≠ c := fun _ _ =>
    h.ne_of_free (hfree ▸ mem_cons_self)
  have hbuf (b' c' : Nat) :
      c' ∈ (update s.buf b { s.buf b with copyBuffer := some c } b').copyBuffer ↔
      (b' = b ∧ c' = c) ∨ c' ∈ (s.buf b').copyBuffer := by
    by_cases hb : b' = b
    · subst hb
      simp [hnone, eq_comm]
    · simp [hb]
  refine ⟨hnodup.2, fun c' hc' => ?_, fun c' hold => ?_, fun b' c' hc' => ?_,
    fun b1 b2 c' h1 h2 => ?_⟩
  · have hne : c' ≠ c := fun heq => hnodup.1 (heq ▸ hc')
    have := h.free c' (hfree ▸ mem_cons_of_mem _ hc')
    simpa only [Sys.setBuf, update_of_ne hne] using this
  · by_cases hne : c' = c
    · exact ⟨b, (hbuf b c').mpr (.inl ⟨rfl, hne⟩)⟩
    · simp only [Sys.setBuf, update_of_ne hne] at hold
      obtain ⟨b', hb'⟩ := h.owned c' hold
      exact ⟨b', (hbuf b' c').mpr (.inr hb')⟩
  · rcases (hbuf b' c').mp hc' with ⟨-, rfl⟩ | hc'
    · exact ⟨hc.1, by simpa only [Sys.setBuf, update_self] using hk⟩
    · simpa only [Sys.setBuf, update_of_ne (hother b' c' hc')] using h.used b' c' hc'
  · rcases (hbuf b1 c').mp h1 with ⟨rfl, rfl⟩ | h1'
    · rcases (hbuf b2 c').mp h2 with ⟨rfl, -⟩ | h2'
      · rfl
      · exact absurd rfl (hother b2 c' h2')
    · rcases (hbuf b2 c').mp h2 with ⟨-, rfl⟩ | h2'
      · exact absurd rfl (hother b1 c' h1')
      · exact h.owner b1 b2 c' h1' h2'

theorem SysInv.copy (hinv : SysInv n s) (hlock : Unlocked (s.buf b)) :
    ∃ s', copyBufferAlloc s b = some s' ∧ StepOk n s s' := by
  rw [copyBufferAlloc]
  split
  · exact ⟨s, rfl, hinv.stutter⟩
  rename_i hcond
  simp only [not_or, Bool.not_eq_true, isSome_eq_false_iff, isNone_iff_eq_none] at hcond
  obtain ⟨-, hnone, hin⟩ := hcond
  split
  · exact ⟨s, rfl, hinv.stutter⟩
  rename_i c freeList hfree
  have hc := hinv.copies.free c (hfree ▸ mem_cons_self)
  rw [if_neg (by rw [hc.2]; exact nofun)]
  refine ⟨_, rfl, hinv.frame ⟨rfl, rfl, ?_, fun b' hne => update_of_ne hne .., fun _ _ => rfl,
      fun b' _ c' hc' => ?_, fun _ _ => ⟨rfl, rfl⟩⟩ hinv.list
        (hinv.copies.take hfree hnone _ rfl) ?_,
    le_rfl, fun _ _ => .inl rfl, fun c' _ => ?_, rfl, rfl⟩
  · simp only [Sys.setBuf, update_self]
  · exact update_of_ne (hinv.copies.ne_of_free (hfree ▸ mem_cons_self) hc') ..
  · have hview : (s.view b).copy = none := by rw [Sys.view, hnone]; rfl
    have := (hinv.views b).takeCopy hlock hin hview c
    simpa only [Sys.view, Sys.setBuf, Sys.oldestLsn, update_self, map_some] using this
  · by_cases hne : c' = c
    · refine .inr ⟨b, hin, ?_⟩
      simp only [Sys.setBuf, hne, update_self]
      exact le_rfl
    · exact .inl (by simp only [Sys.setBuf, update_of_ne hne])

structure Freed (n : Nat) (s : Sys) (b : Nat) (copyBuf : Nat → CopyBufferDesc)
    (freeList : List Nat) : Prop where
  keeps : ∀ b' ≠ b, ∀ c ∈ (s.buf b').copyBuffer, copyBuf c = s.copyBuf c
  oldest : ∀ c, (copyBuf c).oldestLsn ≠ invalidXLogRecPtr →
    (copyBuf c).oldestLsn = (s.copyBuf c).oldestLsn
  copies : ∀ d : BufferDesc, d.copyBuffer = none →
    CopiesOk n ({ s with copyBuf := copyBuf, freeList := freeList }.setBuf b d)

theorem CopiesOk.release (h : CopiesOk n s) (hc : c ∈ (s.buf b).copyBuffer)
    {d : BufferDesc} (hd : d.copyBuffer = none) :
    CopiesOk n ({ s with
      copyBuf := update s.copyBuf c { s.copyBuf c with
        oldestLsn := invalidXLogRecPtr
        used := false }
      freeList := c :: s.freeList }.setBuf b d) := by
  have hbuf (b' c' : Nat) : c' ∈ (update s.buf b d b').copyBuffer ↔
      b' ≠ b ∧ c' ∈ (s.buf b').copyBuffer := by
    by_cases hb : b' = b
    · subst hb
      simp [hd]
    · simp [hb]
  have hne : ∀ b' ≠ b, ∀ c' ∈ (s.buf b').copyBuffer, c' ≠ c := fun b' hb c' hc' heq =>
    hb (h.owner b' b c (heq ▸ hc') hc)
  refine ⟨nodup_cons.mpr ⟨fun hin => ?_, h.nodup⟩, fun c' hc' => ?_, fun c' hold => ?_,
    fun b' c' hc' => ?_, fun b1 b2 c' h1 h2 =>
      h.owner b1 b2 c' ((hbuf b1 c').mp h1).2 ((hbuf b2 c').mp h2).2⟩
  · exact h.ne_of_free hin hc rfl
  · simp only [Sys.setBuf, update_apply]
    split
    · next heq => exact ⟨heq ▸ (h.used b c hc).1, rfl⟩
    · next heq => exact h.free c' ((mem_cons.mp hc').resolve_left heq)
  · by_cases heq : c' = c
    · subst heq
      simp [Sys.setBuf] at hold
    · simp only [Sys.setBuf, update_of_ne heq] at hold
      obtain ⟨b', hb'⟩ := h.owned c' hold
      refine ⟨b', (hbuf b' c').mpr ⟨fun hb => heq ?_, hb'⟩⟩
      rw [hb] at hb'
      exact mem_unique hb' hc
  · obtain ⟨hb, hc'⟩ := (hbuf b' c').mp hc'
    simp only [Sys.setBuf, update_of_ne (hne b' hb c' hc')]
    exact h.used b' c' hc'

theorem SysInv.freed (hinv : SysInv n s) (b : Nat) : ∃ copyBuf freeList,
    Freed n s b copyBuf freeList ∧ freeCopyBuffer s b =
      { s with copyBuf := copyBuf, freeList := freeList }.setBuf b
        { s.buf b with copyBuffer := none, firstTouchedAfterCopy := false } := by
  rw [freeCopyBuffer]
  split
  · rename_i hnone
    have huntouched := (hinv.views b).untouched (by rw [Sys.view, hnone]; rfl)
    refine ⟨s.copyBuf, s.freeList, ⟨fun _ _ _ _ => rfl, fun _ _ => rfl,
      fun d hd => hinv.copies.setBuf (hd.trans hnone.symm)⟩, ?_⟩
    rw [← hnone, show false = (s.buf b).firstTouchedAfterCopy from huntouched.symm]
    simp only [Sys.setBuf, update_eq_self]
  · rename_i c hc
    refine ⟨_, _, ⟨fun b' hb c' hc' => ?_, fun c' hold => ?_,
      fun d hd => hinv.copies.release hc hd⟩, rfl⟩
    · refine update_of_ne (fun heq => hb ?_) ..
      exact hinv.copies.owner b' b c (heq ▸ hc') hc
    · by_cases heq : c' = c
      · subst heq
        simp at hold
      · simp only [update_of_ne heq]

theorem SysInv.free_step {copyBuf : Nat → CopyBufferDesc} {freeList : List Nat}
    (hinv : SysInv n s) (h : Freed n s b copyBuf freeList)
    (hview : ViewOk s.insertLsn { s.view b with desc := d, copy := none })
    (htag : d.tag = (s.buf b).tag) (hd : d.copyBuffer = none) :
    StepOk n s ({ s with copyBuf := copyBuf, freeList := freeList }.setBuf b d) := by
  refine ⟨hinv.frame ⟨rfl, rfl, ?_, fun b' hne => update_of_ne hne .., fun _ _ => rfl, h.keeps,
      fun _ _ => ⟨rfl, rfl⟩⟩ hinv.list (h.copies d hd) ?_,
    le_rfl, fun _ _ => .inl rfl, fun c hold => .inl (h.oldest c hold), rfl, rfl⟩
  · simp only [Sys.setBuf, update_self, htag]
  · simpa only [Sys.view, Sys.setBuf, Sys.oldestLsn, update_self, hd, htag, map_none] using hview

theorem SysInv.free (hinv : SysInv n s)
    (hio : (s.buf b).io = .written ∨ (s.buf b).io = .copyWritten) :
    StepOk n s (freeWritten s b) := by
  obtain ⟨copyBuf, freeList, hf, heq⟩ := hinv.freed b
  rw [freeWritten, heq]
  simp only [Sys.setBuf, update_self, update_idem]
  rcases hio with hio | hio
  · rw [if_pos hio]
    exact hinv.free_step hf ((hinv.views b).freeWritten hio) rfl rfl
  · rw [if_neg (by rw [hio]; exact nofun)]
    exact hinv.free_step hf ((hinv.views b).freeCopyWritten hio) rfl rfl

theorem SysInv.finish (hinv : SysInv n s) (hio : (s.buf b).io = .freed) :
    ∃ s', finishBuffer s b = some s' ∧ StepOk n s s' := by
  have hv := hinv.views b
  rw [finishBuffer, resetBufferOldestLsn]
  split
  · rename_i hout
    obtain ⟨hcount, hfake, hnone⟩ := hv.out hout
    have huntouched := hv.untouched hnone
    rw [if_pos ⟨hcount, hfake, huntouched⟩]
    refine ⟨_, rfl, hinv.desc_step ?_ rfl rfl⟩
    rw [show s.view b = { s.view b with oldest := invalidXLogRecPtr } by rw [← hout]; rfl]
    exact hv.finish hio hcount hfake huntouched rfl rfl rfl
  · rename_i hin
    obtain ⟨fl, hrem, hlist, hold⟩ := hinv.list.remove hin
    rw [hrem]
    refine ⟨_, rfl, ?_⟩
    simp only [Sys.setBuf, update_self, update_idem]
    exact hinv.list_step hlist hold (fun hc => absurd rfl hc)
      (fun _ _ => ⟨rfl, rfl⟩) (hv.finish hio rfl rfl rfl rfl rfl rfl) rfl rfl

end PolarDB.ConsistentLsn
