import PolarDB.ConsistentLsnRun

/-!
# Values of the consistent LSN

The remaining steps, that change which page a buffer has, and the
calculation itself. `RunInv` adds to `SysInv` what is known about the
values that were returned and about the call that is running. The result
is `consistentLsn_ok`.
-/

namespace PolarDB.ConsistentLsn

open FlushList Function List Option

variable {n b : Nat} {s s' : Sys}

/-! ## Pages come and go -/

variable {p : BufferTag} {v : Nat} {k : Cal}

theorem elim_update_none {table : BufferTag → Option Nat} {tag : Option BufferTag} :
    (tag.elim table fun q => update table q none) p = if tag = some p then none else table p := by
  cases tag with
  | none => rfl
  | some q =>
    by_cases hp : p = q
    · rw [hp, elim_some, update_self, if_pos rfl]
    · rw [elim_some, update_of_ne hp, if_neg fun hc => hp (some.inj hc).symm]

theorem SysInv.drop (hinv : SysInv n s) (hlock : Unlocked (s.buf b)) :
    StepOk n s (invalidateBuffer s b) := by
  obtain ⟨copyBuf, freeList, hf, heq⟩ := hinv.freed b
  rw [invalidateBuffer, heq]
  simp only [Sys.setBuf, update_self, update_idem]
  refine ⟨⟨hinv.valid, hinv.list, fun p b' => ?_, fun p hp => ?_,
    { hf.copies _ rfl with }, fun b' => ?_⟩,
    le_rfl, fun _ _ => .inl rfl, fun c hold => .inl (hf.oldest c hold), rfl, rfl⟩
  · simp only [elim_update_none]
    by_cases hb : b' = b
    · subst hb
      split
      · simp
      · rename_i hne
        simp [hinv.table p b', hne]
    · rw [update_of_ne hb, ← hinv.table p b']
      split
      · rename_i heq
        simp [(hinv.table p b).mpr heq, Ne.symm hb]
      · rfl
  · simp only [elim_update_none] at hp
    by_cases heq : (s.buf b).tag = some p
    · simp only [heq, setPage, elim_some, update_self]
      exact nil_subset _
    · rw [if_neg heq] at hp
      simp only [setPage_of_ne heq]
      exact hinv.away p hp
  · by_cases hb : b' = b
    · subst hb
      have := (hinv.views b').invalidate hlock
      simpa only [Sys.view, Sys.oldestLsn, update_self, map_none, ofPage, elim_none] using this
    · refine (hinv.views b').congr (update_of_ne hb ..) rfl (hf.keeps b' hb) (fun p hp => ?_) rfl
      simp only [setPage_of_ne (hinv.tag_unique hb hp), and_self]

theorem SysInv.load (hinv : SysInv n s) (hlock : (s.buf b).contentLock = none)
    (hio : (s.buf b).io = .idle) (hclean : (s.buf b).dirty = false) (hp : s.bufTable p = none) :
    StepOk n s (loadPage s b p) := by
  have hv := hinv.views b
  have hout : s.oldestLsn b = invalidXLogRecPtr := by
    by_contra hc
    exact absurd ((hv.dirty hc (.inl hio)).symm.trans hclean) nofun
  have hself : (loadPage s b p).buf b = { s.buf b with tag := some p, block := s.storage p } :=
    update_self ..
  have hbuf : ∀ b' ≠ b, (loadPage s b p).buf b' = s.buf b' := fun b' hne => update_of_ne hne ..
  have htable (q : BufferTag) : (loadPage s b p).bufTable q =
      if q = p then some b else if (s.buf b).tag = some q then none else s.bufTable q := by
    by_cases hq : q = p
    · rw [hq, if_pos rfl]
      exact update_self ..
    · rw [if_neg hq, ← elim_update_none]
      exact update_of_ne hq ..
  have hnot : ∀ b', (s.buf b').tag ≠ some p := fun b' hc => by
    rw [(hinv.table p b').mpr hc] at hp
    cases hp
  have hcopies := hinv.copies.setBuf (b := b)
    (d := { s.buf b with tag := some p, block := s.storage p }) rfl
  refine ⟨⟨hinv.valid, hinv.list, fun q b' => ?_, fun q hq => ?_,
    { hcopies with }, fun b' => ?_⟩, le_rfl, fun _ _ => .inl rfl, fun _ _ => .inl rfl, rfl, rfl⟩
  · rw [htable]
    by_cases hb : b' = b
    · subst hb
      rw [hself]
      split
      · rename_i heq
        simp [heq]
      · rename_i hne
        have hne' : ¬ p = q := fun hc => hne hc.symm
        simp only [some.injEq, hne', iff_false]
        split
        · exact nofun
        · rwa [hinv.table q b']
    · rw [hbuf b' hb]
      split
      · rename_i heq
        subst heq
        simp [Ne.symm hb, hnot b']
      · split
        · rename_i htag
          rw [← hinv.table q b', (hinv.table q b).mpr htag]
          simp [Ne.symm hb]
        · exact hinv.table q b'
  · rw [htable] at hq
    split at hq
    · cases hq
    · split at hq
      · rename_i htag
        have hstored := hv.mods_stored hout
        simp only [Sys.view, htag] at hstored
        exact hstored
      · exact hinv.away q hq
  · by_cases hb : b' = b
    · have hview := hv.load hout hlock hio p (hinv.away p hp)
      rwa [hb, Sys.view, hself]
    · exact (hinv.views b').congr (hbuf b' hb) rfl (fun _ _ => rfl) (fun _ _ => ⟨rfl, rfl⟩) rfl

/-! ## Bounds -/

structure Bound (v : Nat) (s : Sys) : Prop where
  insertLsn : v ≤ s.insertLsn
  oldest : ∀ b, s.oldestLsn b ≠ invalidXLogRecPtr → v ≤ s.oldestLsn b
  copy : ∀ c, (s.copyBuf c).oldestLsn ≠ invalidXLogRecPtr → v ≤ (s.copyBuf c).oldestLsn

/-- What the running call has read: a bound for the buffers, and for the
copies before `i` together with their least. -/
structure CalOk (s : Sys) (k : Cal) : Prop where
  insertLsn : k.lsn ≤ s.insertLsn
  oldest : ∀ b, s.oldestLsn b ≠ invalidXLogRecPtr → k.lsn ≤ s.oldestLsn b
  copy : ∀ c < k.i, (s.copyBuf c).oldestLsn ≠ invalidXLogRecPtr →
    k.lsn ≤ (s.copyBuf c).oldestLsn ∨
    (k.clsn ≠ invalidXLogRecPtr ∧ k.clsn ≤ (s.copyBuf c).oldestLsn)

theorem Later.oldest_le (h : Later s s') (hins : v ≤ s.insertLsn)
    (hold : ∀ b, s.oldestLsn b ≠ invalidXLogRecPtr → v ≤ s.oldestLsn b) (b : Nat)
    (hin : s'.oldestLsn b ≠ invalidXLogRecPtr) : v ≤ s'.oldestLsn b := by
  rcases h.oldest b hin with heq | hle
  · rw [heq] at hin ⊢
    exact hold b hin
  · exact hins.trans hle

theorem Later.bound (h : Later s s') (hb : Bound v s) : Bound v s' where
  insertLsn := hb.insertLsn.trans h.insertLsn
  oldest := h.oldest_le hb.insertLsn hb.oldest
  copy := fun c hin => by
    rcases h.copy c hin with heq | ⟨b, hb', hle⟩
    · rw [heq] at hin ⊢
      exact hb.copy c hin
    · exact (hb.oldest b hb').trans hle

theorem Later.calOk (h : Later s s') (hk : CalOk s k) : CalOk s' k where
  insertLsn := hk.insertLsn.trans h.insertLsn
  oldest := h.oldest_le hk.insertLsn hk.oldest
  copy := fun c hc hin => by
    rcases h.copy c hin with heq | ⟨b, hb', hle⟩
    · rw [heq] at hin ⊢
      exact hk.copy c hc hin
    · exact .inl ((hk.oldest b hb').trans hle)

theorem SysInv.stored_of_bound (hinv : SysInv n s) (hb : Bound v s) {m : Nat}
    (hm : m ∈ s.mods p) (hlt : m < v) : m ∈ s.storage p := by
  cases hp : s.bufTable p with
  | none => exact hinv.away p hp hm
  | some b =>
    have htag := (hinv.table p b).mp hp
    have hcov := (hinv.views b).covered m
    simp only [Sys.view, htag] at hcov
    rcases hcov hm with hst | ⟨hne, hle⟩ | ⟨k, hk, hle, -⟩
    · exact hst
    · exact absurd ((hb.oldest b hne).trans hle) (not_le.mpr hlt)
    · have hok := (hinv.views b).copy k hk
      obtain ⟨c, -, rfl⟩ := map_eq_some_iff.mp hk
      exact absurd ((hb.copy c hok.valid).trans hle) (not_le.mpr hlt)

structure CalAbove (results : List Nat) (k : Cal) : Prop where
  lsn : ∀ v ∈ results, v ≤ k.lsn
  clsn : k.clsn ≠ invalidXLogRecPtr → ∀ v ∈ results, v ≤ k.clsn

structure RunInv (n : Nat) (s : Sys) : Prop where
  inv : SysInv n s
  bounds : ∀ v ∈ s.results, Bound v s
  sorted : s.results.Pairwise (· ≥ ·)
  cal : ∀ k ∈ s.cal, CalOk s k ∧ CalAbove s.results k

theorem RunInv.step (h : RunInv n s) (hs : StepOk n s s') : RunInv n s' where
  inv := hs.inv
  bounds := fun v hv => hs.later.bound (h.bounds v (hs.later.results ▸ hv))
  sorted := hs.later.results ▸ h.sorted
  cal := fun k hk => by
    obtain ⟨hok, habove⟩ := h.cal k (hs.later.cal ▸ hk)
    exact ⟨hs.later.calOk hok, hs.later.results ▸ habove⟩

theorem SysInv.of_cal (hinv : SysInv n s) (cal : Option Cal) (results : List Nat) :
    SysInv n { s with cal := cal, results := results } :=
  { hinv with copies := { hinv.copies with } }

theorem RunInv.result (h : RunInv n s) (hb : Bound v s) (hv : ∀ w ∈ s.results, w ≤ v) :
    RunInv n { s with cal := none, results := v :: s.results } where
  inv := h.inv.of_cal none _
  bounds := forall_mem_cons.mpr ⟨{ hb with }, fun w hw => { h.bounds w hw with }⟩
  sorted := pairwise_cons.mpr ⟨hv, h.sorted⟩
  cal := nofun

theorem RunInv.reading (h : RunInv n s) (hok : CalOk s k) (habove : CalAbove s.results k) :
    RunInv n { s with cal := some k } where
  inv := h.inv.of_cal _ s.results
  bounds := fun v hv => { h.bounds v hv with }
  sorted := h.sorted
  cal := fun k' hk' => by
    cases hk'
    exact ⟨{ hok with }, habove⟩

theorem RunInv.calStart (h : RunInv n s) (hcal : s.cal = none) :
    ∃ s', calStart s = some s' ∧ RunInv n s' := by
  rcases h.inv.list.head with ⟨hempty, hout⟩ | ⟨hfull, b, hfirst, hle, hin, hleast⟩
  · have hbound : Bound s.insertLsn s := by
      refine ⟨le_rfl, fun b hb => absurd (hout b) hb, fun c hc => ?_⟩
      obtain ⟨b, hb⟩ := h.inv.copies.owned c hc
      have hnone := ((h.inv.views b).out (hout b)).2.2
      rw [Sys.view, hb] at hnone
      cases hnone
    rw [ConsistentLsn.calStart, if_pos hempty]
    refine ⟨_, rfl, ?_⟩
    have := h.result hbound fun w hw => (h.bounds w hw).insertLsn
    rwa [← hcal] at this
  · rw [ConsistentLsn.calStart, if_neg (by rw [hfull]; decide), hfirst]
    exact ⟨_, rfl, h.reading ⟨hle, hleast, fun j hj => absurd hj (Nat.not_lt_zero j)⟩
      ⟨fun v hv => (h.bounds v hv).oldest b hin, fun hc => absurd rfl hc⟩⟩

theorem CalOk.bound (hk : CalOk s k)
    (hall : ∀ c, (s.copyBuf c).oldestLsn ≠ invalidXLogRecPtr → c < k.i) :
    Bound (if k.clsn = invalidXLogRecPtr then k.lsn else min k.lsn k.clsn) s := by
  have hle : (if k.clsn = invalidXLogRecPtr then k.lsn else min k.lsn k.clsn) ≤ k.lsn := by
    split
    · exact le_rfl
    · exact Nat.min_le_left ..
  refine ⟨hle.trans hk.insertLsn, fun b hb => hle.trans (hk.oldest b hb), fun c hc => ?_⟩
  rcases hk.copy c (hall c hc) hc with hlsn | ⟨hne, hclsn⟩
  · exact hle.trans hlsn
  · rw [if_neg hne]
    exact (Nat.min_le_right ..).trans hclsn

theorem CalAbove.le {results : List Nat} (h : CalAbove results k) :
    ∀ v ∈ results, v ≤ if k.clsn = invalidXLogRecPtr then k.lsn else min k.lsn k.clsn := by
  intro v hv
  split
  · exact h.lsn v hv
  · rename_i hne
    exact Nat.le_min.mpr ⟨h.lsn v hv, h.clsn hne v hv⟩

theorem RunInv.calRead (h : RunInv n s) (hcal : s.cal = some k) : RunInv n (calRead n s k) := by
  obtain ⟨hok, habove⟩ := h.cal k hcal
  have hnext (clsn : Nat) (hold : k.clsn ≠ invalidXLogRecPtr → clsn ≠ invalidXLogRecPtr ∧
    clsn ≤ k.clsn)
      (hnew : (s.copyBuf k.i).oldestLsn ≠ invalidXLogRecPtr →
        clsn ≠ invalidXLogRecPtr ∧ clsn ≤ (s.copyBuf k.i).oldestLsn) :
      CalOk s { k with clsn := clsn, i := k.i + 1 } := by
    refine ⟨hok.insertLsn, hok.oldest, fun c hc hin => ?_⟩
    rcases Nat.lt_succ_iff_lt_or_eq.mp hc with hc | rfl
    · rcases hok.copy c hc hin with hlsn | ⟨hne, hle⟩
      · exact .inl hlsn
      · exact .inr ⟨(hold hne).1, (hold hne).2.trans hle⟩
    · exact .inr (hnew hin)
  rw [ConsistentLsn.calRead]
  split
  · simp only
    split
    · rename_i hnone
      exact h.reading (hnext k.clsn (fun hne => ⟨hne, le_rfl⟩) fun hc => absurd hnone hc)
        { habove with }
    · rename_i hin
      split
      · rename_i hless
        refine h.reading (hnext _ (fun hne => ⟨hin, ?_⟩) fun _ => ⟨hin, le_rfl⟩)
          ⟨habove.lsn, fun _ v hv => (h.bounds v hv).copy _ hin⟩
        exact (hless.resolve_left hne).le
      · rename_i hmore
        obtain ⟨hne, hle⟩ := not_or.mp hmore
        exact h.reading (hnext k.clsn (fun hne => ⟨hne, le_rfl⟩) fun _ =>
          ⟨hne, not_lt.mp hle⟩) { habove with }
  · rename_i hend
    refine h.result (hok.bound fun c hc => ?_) habove.le
    obtain ⟨b, hb⟩ := h.inv.copies.owned c hc
    exact (h.inv.copies.used b c hb).1.trans_le (not_lt.mp hend)

/-! ## Runs -/

theorem runInv_init {lsn : Nat} (hlsn : lsn ≠ invalidXLogRecPtr) : RunInv n (initSys n lsn) where
  inv := {
    valid := hlsn
    list := ⟨[], listInv_init.mono (Nat.zero_le _), fun _ => ⟨nofun, fun hc => absurd rfl hc⟩⟩
    table := fun _ _ => ⟨nofun, nofun⟩
    away := fun _ _ => nil_subset _
    copies := ⟨nodup_range, fun _ hc => ⟨mem_range.mp hc, rfl⟩, fun _ hc => absurd rfl hc,
      nofun, nofun⟩
    views := fun _ => ⟨Nat.zero_le _, fun _ => ⟨rfl, rfl, rfl⟩, nofun, fun hc => absurd rfl hc,
      nil_subset _, nil_subset _, nofun, nofun, nofun, trivial⟩ }
  bounds := nofun
  sorted := List.Pairwise.nil
  cal := nofun

/-- Every step that the locks allow can be taken and keeps the
invariant. -/
theorem RunInv.next (h : RunInv n s) {a : Action} (ha : Enabled s a) :
    ∃ s', ConsistentLsn.step n s a = some s' ∧ RunInv n s' := by
  have hsome {s'} (hs : ConsistentLsn.step n s a = some s') (hok : StepOk n s s') :
      ∃ s', ConsistentLsn.step n s a = some s' ∧ RunInv n s' := ⟨s', hs, h.step hok⟩
  have hex (hs : ∃ s', ConsistentLsn.step n s a = some s' ∧ StepOk n s s') :
      ∃ s', ConsistentLsn.step n s a = some s' ∧ RunInv n s' :=
    hs.imp fun _ hs => ⟨hs.1, h.step hs.2⟩
  cases a with
  | insert lsn => exact hsome rfl (h.inv.insert ha)
  | load b p => exact hsome rfl (h.inv.load ha.1 ha.2.1 ha.2.2.1 ha.2.2.2)
  | mark b => exact hex (h.inv.mark ha.1 ha.2)
  | log b start =>
    obtain ⟨lsn, hlock, hle⟩ := ha
    exact hsome rfl (h.inv.log hlock hle)
  | unlock b => exact hsome rfl (h.inv.desc_step (h.inv.views b).unlock rfl rfl)
  | hint b => exact hsome rfl (h.inv.desc_step (h.inv.views b).hint rfl rfl)
  | copy b => exact hex (h.inv.copy ha)
  | flushCopy b => exact hsome rfl (h.inv.flushCopy ha)
  | flush b => exact hsome rfl (h.inv.flush ha)
  | free b => exact hsome rfl (h.inv.free ha)
  | finish b => exact hex (h.inv.finish ha)
  | drop b => exact hsome rfl (h.inv.drop ha)
  | calStart => exact h.calStart ha
  | calRead =>
    obtain ⟨k, hk⟩ := isSome_iff_exists.mp ha
    exact ⟨_, by rw [ConsistentLsn.step, hk]; rfl, h.calRead hk⟩

/-- A page that is modified, copied and modified again, with the copy
written before the buffer, and a value of the consistent LSN between any
two of these. -/
def copiedRun (p : BufferTag) : List Action :=
  [.load 0 p, .mark 0, .log 0 5, .insert 6, .unlock 0, .calStart, .calRead, .calRead,
    .copy 0, .mark 0, .log 0 6, .insert 8, .unlock 0, .calStart, .calRead, .calRead,
    .flushCopy 0, .free 0, .calStart, .calRead, .calRead,
    .flush 0, .free 0, .finish 0, .calStart]

end PolarDB.ConsistentLsn
