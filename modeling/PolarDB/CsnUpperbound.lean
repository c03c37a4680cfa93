import PolarDB.CsnVisible

/-!
# The upper bound of the CSNs of a page

`polar_csnlog_set_csn` raises the upper bound of a page of the CSN log before
it writes an entry of the page. For a transaction known to be committed
`polar_xact_get_csn` returns the bound instead of the CSN if it is below the CSN
of the snapshot: the caller concludes the same. Steps are the entries that
commits write and the calls of one process. The bound goes through an `int`, so
it is sound as long as CSNs fit 32 bits. Transaction ids are numbers without
a bound, see `PolarDB.CsnLog`.
-/

namespace PolarDB.CsnUpperbound

open Csn CsnVisible Function

structure State where
  log : Log
  bound : Nat → Nat
  clog : Nat → Bool
  cache : Option (Nat × Entry)
  xmin : Nat

def State.init : State := ⟨fun _ => .inprogress, fun _ => frozenCsn, fun _ => false, none, 0⟩

/-- What `polar_csnlog_set_csn` does for one id of a transaction tree that is
committed in the commit log: `polar_csnlog_set_upperbound_csn` and the entry. -/
def State.setCsn (s : State) (x csn : Nat) : State :=
  { s with
    bound := update s.bound (pageNo x) (max (s.bound (pageNo x)) csn)
    log := update s.log x (.normal csn)
    clog := update s.clog x true }

def xactGetCsn (s : State) (xid xmin snapCsn : Nat) (committed : Bool) :
    Nat × Option (Nat × Entry) :=
  match s.cache.filter (·.1 = xid) with
  | some (_, e) => (code e, s.cache)
  | none =>
    if xid < firstNormalXid then (code (specialEntry xid), s.cache)
    else if committed ∧ throughInt (s.bound (pageNo xid)) < snapCsn then
      (throughInt (s.bound (pageNo xid)), s.cache)
    else if xid < xmin then
      let e : Entry := if s.clog xid then .frozen else .aborted
      (code e, some (xid, e))
    else
      (code (s.log xid),
        if (s.log xid).isCommitted ∨ s.log xid = .aborted then some (xid, s.log xid) else s.cache)

inductive Action where
  | setCsn (xid csn : Nat)
  | get (xid xmin snapCsn : Nat) (committed : Bool)

def step (s : State) : Action → Option State
  | .setCsn xid csn => some (s.setCsn xid csn)
  | .get xid xmin snapCsn committed =>
    some { s with cache := (xactGetCsn s xid xmin snapCsn committed).2, xmin := xmin }

/-- `TransactionXmin` does not go back, and what is older was committed before
the snapshot was taken. -/
def ReadOk (s : State) (xmin snapCsn : Nat) : Prop :=
  s.xmin ≤ xmin ∧ firstNormal ≤ snapCsn ∧ snapCsn < 2 ^ 63 ∧ ∀ x < xmin, code (s.log x) < snapCsn

instance (s : State) (xmin snapCsn : Nat) : Decidable (ReadOk s xmin snapCsn) :=
  inferInstanceAs (Decidable (_ ∧ _ ∧ _ ∧ ∀ x < _, _))

/-- A transaction that commits has not ended, so no `TransactionXmin` is above
it. Its CSN fits 32 bits. -/
def StepOk (s : State) : Action → Prop
  | .setCsn xid csn => firstNormalXid ≤ xid ∧ s.xmin ≤ xid ∧ s.log xid = .inprogress
      ∧ firstNormal ≤ csn ∧ csn < 2 ^ 32
  | .get _ xmin snapCsn _ => ReadOk s xmin snapCsn

instance (s : State) : ∀ a, Decidable (StepOk s a)
  | .setCsn .. => inferInstanceAs (Decidable (_ ∧ _ ∧ _ ∧ _ ∧ _))
  | .get .. => inferInstanceAs (Decidable (ReadOk ..))

variable {s s' : State} {x csn xid xmin snapCsn c : Nat} {e : Entry}

def CacheOk (s : State) (xmin x : Nat) (e : Entry) : Prop :=
  (s.log x ≠ .inprogress ∨ x < xmin)
    ∧ ∀ c, s.log x = .normal c → e = .normal c ∨ e = .frozen ∧ x < xmin

structure Inv (s : State) : Prop where
  entry : ∀ x, s.log x = .inprogress ∨ ∃ c, s.log x = .normal c
  committed : ∀ x c, s.log x = .normal c →
    firstNormalXid ≤ x ∧ s.clog x = true ∧ c ≤ s.bound (pageNo x)
  bound : ∀ p, s.bound p < 2 ^ 32
  cache : ∀ x e, s.cache = some (x, e) → CacheOk s s.xmin x e

theorem inv_init : Inv .init where
  entry _ := .inl rfl
  committed _ _ := nofun
  bound _ := Nat.lt_of_sub_eq_succ rfl
  cache _ _ := nofun

theorem Inv.setCsn (h : Inv s) (hok : StepOk s (.setCsn x csn)) : Inv (s.setCsn x csn) := by
  obtain ⟨hx, hmin, hlog, -, hlt⟩ := hok
  have hother : ∀ y, y ≠ x → (s.setCsn x csn).log y = s.log y := fun y hy =>
    update_of_ne hy ..
  have hself : (s.setCsn x csn).log x = .normal csn := update_self ..
  have hbound : ∀ p, s.bound p ≤ (s.setCsn x csn).bound p := by
    intro p
    by_cases hp : p = pageNo x
    · simp only [State.setCsn, hp, update_self]
      exact Nat.le_max_left ..
    · simp [State.setCsn, hp]
  refine ⟨fun y => ?_, fun y c hc => ?_, fun p => ?_, fun y e he => ?_⟩
  · by_cases hy : y = x
    · exact .inr ⟨csn, hy ▸ hself⟩
    · rw [hother y hy]
      exact h.entry y
  · by_cases hy : y = x
    · subst hy
      cases hself.symm.trans hc
      refine ⟨hx, update_self .., ?_⟩
      simp only [State.setCsn, update_self]
      exact Nat.le_max_right ..
    · have hr := h.committed y c ((hother y hy).symm.trans hc)
      exact ⟨hr.1, (update_of_ne hy ..).trans hr.2.1, hr.2.2.trans (hbound _)⟩
  · by_cases hp : p = pageNo x
    · simpa [State.setCsn, hp] using Nat.max_lt.mpr ⟨h.bound _, hlt⟩
    · simpa [State.setCsn, hp] using h.bound p
  · have hc := h.cache y e he
    have hy : y ≠ x := by
      rintro rfl
      exact hc.1.elim (absurd hlog) (Nat.not_lt.mpr hmin)
    rwa [CacheOk, hother y hy]

theorem throughInt_of_lt {n : Nat} (h : n < 2 ^ 32) : throughInt n = n ∨ 2 ^ 63 ≤ throughInt n := by
  unfold throughInt
  rw [Int.bmod_def]
  split <;> omega

theorem Inv.xactGetCsn_lt_iff (h : Inv s) (hlog : s.log xid = .normal c)
    (hok : ReadOk s xmin snapCsn) (committed : Bool) :
    (xactGetCsn s xid xmin snapCsn committed).1 < snapCsn ↔ c < snapCsn := by
  obtain ⟨hmin, hfirst, hsnap, hold⟩ := hok
  obtain ⟨hnormal, hclog, hle⟩ := h.committed xid c hlog
  have hfrozen : xid < xmin → (code .frozen < snapCsn ↔ c < snapCsn) := by
    intro hlt
    have := hold xid hlt
    rw [hlog] at this
    exact iff_of_true (Nat.lt_of_lt_of_le (by decide) hfirst) this
  unfold xactGetCsn
  split
  next e hcache =>
    rw [Option.filter_eq_some_iff, decide_eq_true_eq] at hcache
    obtain ⟨hcache, rfl⟩ := hcache
    rcases (h.cache _ e hcache).2 c hlog with rfl | ⟨rfl, hlt⟩
    · rfl
    · exact hfrozen (Nat.lt_of_lt_of_le hlt hmin)
  next =>
    rw [if_neg (Nat.not_lt.mpr hnormal)]
    split
    next hbound =>
      rcases throughInt_of_lt (h.bound (pageNo xid)) with heq | hge
      · rw [heq] at hbound ⊢
        exact iff_of_true hbound.2 (Nat.lt_of_le_of_lt hle hbound.2)
      · exact absurd (hbound.2.trans hsnap) (Nat.not_lt.mpr hge)
    next =>
      split
      next hlt => simpa only [hclog] using hfrozen hlt
      next => rw [hlog]; rfl

theorem Inv.get (h : Inv s) (hmin : s.xmin ≤ xmin) (committed : Bool) :
    Inv { s with cache := (xactGetCsn s xid xmin snapCsn committed).2, xmin := xmin } := by
  refine { h with cache := fun x e he => ?_ }
  have hkeep : s.cache = some (x, e) → CacheOk s xmin x e := fun he =>
    ⟨(h.cache x e he).1.imp_right (Nat.lt_of_lt_of_le · hmin), fun c hc =>
      ((h.cache x e he).2 c hc).imp_right fun hf => ⟨hf.1, Nat.lt_of_lt_of_le hf.2 hmin⟩⟩
  simp only [xactGetCsn] at he
  split at he
  · exact hkeep he
  · split at he; · exact hkeep he
    split at he; · exact hkeep he
    split at he
    next hlt =>
      cases he
      refine ⟨.inr hlt, fun c hc => .inr ⟨?_, hlt⟩⟩
      rw [(h.committed _ c hc).2.1, if_pos rfl]
    next =>
      split at he
      next hfinal =>
        cases he
        refine ⟨.inl fun hlog => ?_, fun c hc => .inl hc⟩
        rw [hlog] at hfinal
        revert hfinal
        decide
      next => exact hkeep he

theorem Inv.step {a : Action} (h : Inv s) (hok : StepOk s a) (hs : step s a = some s') :
    Inv s' := by
  cases a with
  | setCsn xid csn => cases hs; exact h.setCsn hok
  | get xid xmin snapCsn committed => cases hs; exact h.get hok.1 committed

/-- While CSNs fit 32 bits, what is returned for a transaction that committed
is below the snapshot's CSN if its own CSN is. -/
theorem xactGetCsn_sound {as : List Action} (hrun : exec step .init as = some s)
    (hmeets : Meets step StepOk .init as) (hlog : s.log xid = .normal c)
    (hread : ReadOk s xmin snapCsn) :
    (xactGetCsn s xid xmin snapCsn true).1 < snapCsn ↔ c < snapCsn :=
  (exec_invariant_of_meets (fun _ => Inv) (fun _ _ _ _ h hok hs => h.step hok hs) inv_init hmeets
    hrun).xactGetCsn_lt_iff hlog hread true

def twoCommits : List Action := [.setCsn 10 5, .get 10 3 6 true, .setCsn 11 7]

theorem xactGetCsn_sound_two : ∃ s, exec step .init twoCommits = some s
    ∧ ((xactGetCsn s 11 3 6 true).1 < 6 ↔ 7 < 6) :=
  ⟨_, rfl, xactGetCsn_sound (show exec step .init twoCommits = _ from rfl) (by decide) rfl
    (by decide)⟩

/-- A CSN of 33 bits loses its upper half on the way through the `int`: a
snapshot that was taken before the commit sees the transaction. -/
theorem xactGetCsn_wraps : ∃ s, exec step .init [.setCsn 10 (2 ^ 32 + 5)] = some s
    ∧ s.log 10 = .normal (2 ^ 32 + 5) ∧ ReadOk s 3 10
    ∧ (xactGetCsn s 10 3 10 true).1 < 10 ∧ ¬2 ^ 32 + 5 < 10 :=
  ⟨_, rfl, rfl, by decide, by decide, by decide⟩

end PolarDB.CsnUpperbound
