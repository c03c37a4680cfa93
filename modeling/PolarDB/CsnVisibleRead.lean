import PolarDB.CsnVisibleTx

/-!
# What a check sees

A check with a snapshot is right if it says that the id is visible exactly
when its transaction drew a CSN below the one of the snapshot and the id was
not aborted (`Sees`), which does not change once the snapshot is taken.

What a reader found for an id is the final entry, or the transaction had not
drawn a CSN when the entry was read, or it has set its mark (`Found`). A parent
that is final has final children, so the second look at a child settles the case
that the source takes for a wrong state. After the wait the transaction that had
set its mark is over.

Two things are outside of this. A check is right with the upper bound of a page,
which passes through an `int`, as long as the value is not below the snapshot's
CSN unless the bound is. And what a scan for running transactions lists is right
only under a condition of its own; `X` says whether the scans of a run meet it.
-/

namespace PolarDB.CsnVisible

open Csn

variable {X : Prop} {c : Conf} {s s' : State} {x csn : Nat} {e : Entry} {k : Reader} {q : Query}
  {snap : Snap} {children : List Nat} {again : Bool}

/-! ## Visible ids -/

def Sees (s : State) (csn x : Nat) : Prop := Before s csn x ∧ s.log x ≠ .aborted

def Settled (s : State) (csn x : Nat) : Prop := Before s csn x ∨ s.log x = .aborted

instance (s : State) (csn x : Nat) : Decidable (Before s csn x) :=
  decidable_of_iff ((s.drawn (s.top x)).any (· < csn) = true)
    (by simp [Before, Option.any_eq_true])

theorem Grows.sees (hg : Grows s s') (hn : csn ≤ s.nextCsn) : Sees s' csn x ↔ Sees s csn x := by
  rw [Sees, hg.before csn x hn]
  refine and_congr_right fun hb => not_congr ⟨fun hab => ?_, fun hab => ?_⟩
  · refine hg.unaborted x ?_ hab
    obtain ⟨n, hd, -⟩ := hb
    rw [hd]
    simp
  · exact (hg.final x (by rw [hab]; rfl)).trans hab

theorem Grows.settled (hg : Grows s s') (hn : csn ≤ s.nextCsn) (h : Settled s csn x) :
    Settled s' csn x :=
  h.imp (hg.before csn x hn).mpr fun hab => (hg.final x (by rw [hab]; rfl)).trans hab

theorem Grows.isCommitted (hg : Grows s s') (h : (s.log x).isCommitted = true) :
    (s'.log x).isCommitted = true := by
  rwa [hg.final x (isFinal_of_isCommitted h)]

/-! ## What entries say -/

section

variable (h : TxInv c s) (hx : x < s.nextXid)
include h hx

theorem TxInv.top_log (htop : s.top x = x) :
    s.log x = .inprogress ∧ s.drawn x = none ∨ s.log x = .committing ∨
      isFinal (s.log x) = true := by
  have hin : s.InTree x x := ⟨hx, htop⟩
  have hpc := (h.trees x).pc
  cases hp : s.txs x with
  | none =>
    rw [hp] at hpc
    exact .inr (.inr (hpc x hin).1)
  | releasing =>
    rw [hp] at hpc
    exact .inr (.inr (hpc.2 x hin).1)
  | drawing subxids | bounding todo csn | stamping todo csn =>
    rw [hp] at hpc
    exact .inr (.inl hpc.1.log)
  | _ =>
    rw [hp] at hpc
    exact .inl ⟨hpc.1.log, hpc.1.drawn⟩

theorem TxInv.subtrans_spec {p : Nat} (hlog : s.log x = .subtrans p) :
    s.top x ≠ x ∧ s.parent x = p ∧ p < s.nextXid ∧ s.top p = s.top x := by
  have hne : s.top x ≠ x := by
    intro htop
    rcases h.top_log hx htop with ⟨hl, -⟩ | hl | hl
    · rw [hlog] at hl
      cases hl
    · rw [hlog] at hl
      cases hl
    · rw [hlog] at hl
      cases hl
  have hin : s.InTree (s.top x) x := ⟨hx, rfl⟩
  obtain ⟨-, hpin, -⟩ := (h.trees (s.top x)).parents x hin hne.symm
  rcases (h.trees (s.top x)).subs x hin hne.symm (by rw [hlog]; rfl) with hsub | ⟨hl, -⟩
  · rw [hlog] at hsub
    cases hsub
    exact ⟨hne, rfl, hpin⟩
  · rw [hlog] at hl
    cases hl

theorem TxInv.parent_open {p : Nat} (hlog : s.log x = .subtrans p) : isFinal (s.log p) = false := by
  obtain ⟨hne, rfl, -⟩ := h.subtrans_spec hx hlog
  exact ((h.trees (s.top x)).parents x ⟨hx, rfl⟩ hne.symm).2.2 (by rw [hlog]; rfl)

end

section

variable (h : TxInv c s)
include h

section

variable (hx : x < s.nextXid)
include hx

theorem TxInv.inprogress_spec (hlog : s.log x = .inprogress) : s.drawn (s.top x) = none := by
  by_cases htop : s.top x = x
  · rw [htop]
    rcases h.top_log hx htop with ⟨-, hd⟩ | hl | hl
    · exact hd
    · rw [hlog] at hl
      cases hl
    · rw [hlog] at hl
      cases hl
  · rcases (h.trees (s.top x)).subs x ⟨hx, rfl⟩ (Ne.symm htop) (by rw [hlog]; rfl) with hl | ⟨-, hp⟩
    · rw [hlog] at hl
      cases hl
    · have hpc := (h.trees (s.top x)).pc
      rw [hp] at hpc
      exact hpc.1.drawn

theorem TxInv.committing_spec (hlog : s.log x = .committing) : s.top x = x := by
  by_contra htop
  rcases (h.trees (s.top x)).subs x ⟨hx, rfl⟩ (Ne.symm htop) (by rw [hlog]; rfl) with hl | ⟨hl, -⟩
  · rw [hlog] at hl
    cases hl
  · rw [hlog] at hl
    cases hl

theorem TxInv.committed_spec
    (hc : (s.log x).isCommitted = true) : s.drawn (s.top x) = some (code (s.log x)) := by
  rcases (h.trees (s.top x)).stamped x ⟨hx, rfl⟩ (isFinal_of_isCommitted hc) with hab | ⟨-, hd⟩
  · rw [hab] at hc
    cases hc
  · exact hd

theorem TxInv.final_of_isOver (ho : (s.txs (s.top x)).isOver = true) :
    isFinal (s.log x) = true ∧ (s.clog x = true ↔ (s.log x).isCommitted = true) := by
  have hpc := (h.trees (s.top x)).pc
  cases hp : s.txs (s.top x) with
  | none =>
    rw [hp] at hpc
    exact hpc x ⟨hx, rfl⟩
  | releasing =>
    rw [hp] at hpc
    exact hpc.2 x ⟨hx, rfl⟩
  | _ =>
    rw [hp] at ho
    cases ho

theorem TxInv.isOver_of_marked (hm : Marked s x)
    (hfree : s.LockFree) : (s.txs (s.top x)).isOver = true := by
  rcases hm with hlog | ho
  · obtain ⟨hle, _⟩ := h.tops x hx
    have hlt : s.top x < s.nextXid := hle.trans_lt hx
    have hlock := hfree (s.top x) hlt
    have hpc := (h.trees (s.top x)).pc
    cases hp : s.txs (s.top x) with
    | none => rfl
    | releasing => rfl
    | latest subxids | marking subxids | drawing subxids | bounding todo csn | stamping todo csn =>
      rw [hp] at hlock
      cases hlock
    | _ =>
      rw [hp] at hpc
      have := hpc.1.log
      rw [hlog] at this
      cases this
  · exact ho

/-- An id whose transaction is over is visible, or aborted, or later. -/
theorem TxInv.sees_iff_of_final (hf : isFinal (s.log x) = true) :
    Sees s csn x ↔ (s.log x).isCommitted = true ∧ code (s.log x) < csn := by
  rcases (h.trees (s.top x)).stamped x ⟨hx, rfl⟩ hf with hab | ⟨hc, hd⟩
  · simp [Sees, hab, Entry.isCommitted]
  · constructor
    · rintro ⟨⟨n, hn, hlt⟩, -⟩
      rw [hd] at hn
      cases hn
      exact ⟨hc, hlt⟩
    · rintro ⟨-, hlt⟩
      refine ⟨⟨_, hd, hlt⟩, fun hab => ?_⟩
      rw [hab] at hc
      cases hc

/-! ## What a reader has found -/

structure Found (s : State) (csn x : Nat) (e : Entry) : Prop where
  nosub : e.isSubtrans = false
  final : isFinal e = true → s.log x = e
  inprogress : e = .inprogress → ¬Before s csn x
  committing : e = .committing → Marked s x

theorem TxInv.found (hn : (s.log x).isSubtrans = false) : Found s csn x (s.log x) where
  nosub := hn
  final _ := rfl
  inprogress hl := by
    rintro ⟨n, hd, -⟩
    rw [h.inprogress_spec hx hl] at hd
    cases hd
  committing hl := .inl (by rw [h.committing_spec hx hl]; exact hl)

end

end

theorem Found.child {p : Nat} (hf : Found s csn p e) (htop : s.top p = s.top x)
    (he : e = .inprogress ∨ e = .committing) : Found s csn x e where
  nosub := hf.nosub
  final hfin := by
    rcases he with rfl | rfl <;> cases hfin
  inprogress hl := by
    have := hf.inprogress hl
    unfold Before at this ⊢
    rwa [htop] at this
  committing hl := by
    have := hf.committing hl
    unfold Marked at this ⊢
    rwa [htop] at this

theorem Found.grows (hf : Found s csn x e) (hg : Grows s s') (hn : csn ≤ s.nextCsn)
    (hx : x < s.nextXid) : Found s' csn x e where
  nosub := hf.nosub
  final hfin := by
    rw [← hf.final hfin]
    exact hg.final x (by rw [hf.final hfin]; exact hfin)
  inprogress hl := by
    rw [hg.before csn x hn]
    exact hf.inprogress hl
  committing hl := hg.marked x hx (hf.committing hl)

def Path (s : State) (xid : Nat) : List Nat → Nat → Prop
  | [], x => x = xid
  | child :: children, x =>
    s.parent child = x ∧ child < s.nextXid ∧ s.top x = s.top child ∧ Path s xid children child

theorem Path.grows {xid : Nat} (hp : Path s xid children x) (hg : Grows s s') (hx : x < s.nextXid) :
    Path s' xid children x := by
  induction children generalizing x with
  | nil => exact hp
  | cons child children ih =>
    obtain ⟨hpar, hlt, ht, hp⟩ := hp
    refine ⟨(hg.parent child hlt).trans hpar, hlt.trans_le hg.next, ?_, ih hp hlt⟩
    rwa [hg.top x hx, hg.top child hlt]

/-! ## Snapshots -/

structure ListOk (s : State) (snap : Snap) (upto : Nat) : Prop where
  whole : snap.suboverflowed = false
  below : ∀ x ∈ snap.subxip, x < upto
  listed : ∀ x ∈ snap.subxip, ¬Before s snap.csn x
  rest : ∀ x, snap.xmin ≤ x → x < upto → x ∉ snap.subxip → Settled s snap.csn x

structure SnapBase (s : State) (snap : Snap) : Prop where
  normal : firstNormal ≤ snap.csn
  csn : snap.csn ≤ s.nextCsn
  xmin : snap.xmin ≤ s.oldest
  xmax : snap.xmax ≤ s.nextXid
  old : ∀ x < snap.xmin, Settled s snap.csn x
  high : ∀ x, Sees s snap.csn x → x < snap.xmax

structure SnapOk (X : Prop) (s : State) (snap : Snap) : Prop where
  base : SnapBase s snap
  list : X → snap.xidSnapshot = true → ListOk s snap snap.xmax

theorem ListOk.grows {upto : Nat} (h : ListOk s snap upto) (hg : Grows s s')
    (hn : snap.csn ≤ s.nextCsn) : ListOk s' snap upto :=
  { h with
    listed x hx := by
      rw [hg.before snap.csn x hn]
      exact h.listed x hx
    rest x hle hlt hx := hg.settled hn (h.rest x hle hlt hx) }

theorem SnapBase.grows (h : SnapBase s snap) (hg : Grows s s') : SnapBase s' snap where
  normal := h.normal
  csn := h.csn.trans hg.csn
  xmin := h.xmin.trans hg.oldest
  xmax := h.xmax.trans hg.next
  old x hx := hg.settled h.csn (h.old x hx)
  high x hx := h.high x ((hg.sees h.csn).mp hx)

theorem SnapOk.grows (h : SnapOk X s snap) (hg : Grows s s') : SnapOk X s' snap :=
  ⟨h.base.grows hg, fun hX hby => (h.list hX hby).grows hg h.base.csn⟩

theorem sees_of_settled (h : Settled s csn x) (hc : (s.log x).isCommitted = true) :
    Sees s csn x := by
  have hne : s.log x ≠ .aborted := by
    intro hab
    rw [hab] at hc
    cases hc
  exact ⟨h.resolve_right hne, hne⟩

/-- The ids below `polar_oldest_active_xid` are settled for the next CSN. -/
theorem TxInv.settled_of_lt_oldest (h : TxInv c s) (hx : x < s.oldest) : Settled s s.nextCsn x := by
  have hlt : x < s.nextXid := hx.trans_le h.oldest.1
  have hf := (h.final_of_isOver hlt (h.oldest.2 x hx)).1
  rcases (h.trees (s.top x)).stamped x ⟨hlt, rfl⟩ hf with hab | ⟨-, hd⟩
  · exact .inr hab
  · exact .inl ⟨_, hd, ((h.trees (s.top x)).drawn _ hd).2⟩

/-- What has drawn a CSN is covered by `polar_latest_completed_xid`. -/
theorem TxInv.le_latest_of_sees (h : TxInv c s) (hs : Sees s csn x) : x ≤ s.latestCompleted := by
  obtain ⟨⟨n, hd, -⟩, hab⟩ := hs
  have hlt : x < s.nextXid := by
    by_contra hge
    obtain ⟨htop, -, hnone, -⟩ := h.fresh x (not_lt.mp hge)
    rw [htop, hnone] at hd
    cases hd
  exact (h.trees (s.top x)).latest x ⟨hlt, rfl⟩ (by rw [hd]; simp) hab

section

variable (h : SnapOk X s snap) (hX : X) (hby : snap.xidSnapshot = true)
include h hX hby

theorem SnapOk.not_sees_of_inSnapshot (hin : inSnapshot c snap x = true) : ¬Sees s snap.csn x := by
  have hl := h.list hX hby
  unfold inSnapshot at hin
  split at hin
  · cases hin
  split at hin
  · next hge => exact fun hs => not_lt.mpr hge (h.base.high x hs)
  · rw [hl.whole] at hin
    exact fun hs => hl.listed x (by simpa using hin) hs.1

theorem SnapOk.settled_of_inSnapshot (hin : inSnapshot c snap x = false) :
    Settled s snap.csn x := by
  have hl := h.list hX hby
  unfold inSnapshot at hin
  split at hin
  · next hlt => exact h.base.old x hlt
  next hge =>
  split at hin
  · cases hin
  · next hlt =>
    rw [hl.whole] at hin
    exact hl.rest x (not_lt.mp hge) (not_le.mp hlt) (by simpa using hin)

end

theorem SnapBase.lt_of_inSnapshot (h : SnapBase s snap) (ht : TxInv c s)
    (hin : inSnapshot c snap x = false) : x < s.nextXid := by
  unfold inSnapshot at hin
  split at hin
  · next hlt => exact hlt.trans_le (h.xmin.trans ht.oldest.1)
  split at hin
  · cases hin
  · next hlt => exact (not_le.mp hlt).trans_le h.xmax

/-! ## Readers -/

def CacheOk (s : State) (k : Reader) : Prop :=
  ∀ x e, k.cache = some (x, e) →
    isFinal e = true ∧ (s.log x = e
      ∨ e = .frozen ∧ (s.log x).isCommitted = true ∧ x < s.oldest ∧ ∀ m, k.xmin = some m → x < m)

structure Pending (s : State) (k : Reader) (xmin : Nat) : Prop where
  oldest : xmin ≤ s.oldest
  some : ∃ m, k.xmin = some m ∧ m ≤ xmin

structure QueryOk (X : Prop) (s : State) (k : Reader) (q : Query) : Prop where
  snap : q.snap ∈ k.snaps
  xid : q.xid < s.nextXid
  committed : q.committed = true → q.byXid = false ∧ (s.log q.xid).isCommitted = true
  settled : X → q.byXid = true → Settled s q.snap.csn q.xid

def FetchOk (c : Conf) (s : State) (k : Reader) (q : Query) : Fetch → Prop
  | .bound => c.upperboundEnable = true ∧ q.committed = true
  | .clog => ∃ m, k.xmin = some m ∧ q.xid < m
  | .down again children x =>
    x < s.nextXid ∧ Path s q.xid children x ∧ (q.committed = true → children = [])
      ∧ (again = true → isFinal (s.log q.xid) = true)
  | .up again child children e =>
    child < s.nextXid ∧ Path s q.xid children child ∧ q.committed = false
      ∧ (again = true → isFinal (s.log q.xid) = true)
      ∧ s.parent child < s.nextXid ∧ s.top (s.parent child) = s.top child
      ∧ Found s q.snap.csn (s.parent child) e
  | .wait => q.committed = false ∧ Marked s q.xid

def ReaderPcOk (X : Prop) (c : Conf) (s : State) (k : Reader) : ReaderPc → Prop
  | .idle => True
  | .recheck _ _ => k.snaps = [] ∧ k.xmin ≠ none
  | .csn _ xmin => Pending s k xmin
  | .xmax _ xmin n =>
    Pending s k xmin ∧ firstNormal ≤ n ∧ n ≤ s.nextCsn ∧ ∀ x < xmin, Settled s n x
  | .scan snap cur =>
    Pending s k snap.xmin ∧ SnapBase s snap ∧ cur < snap.xmax ∧ (X → ListOk s snap cur)
  | .check q f => QueryOk X s k q ∧ FetchOk c s k q f
  | .panic => False

structure ReaderOk (X : Prop) (c : Conf) (s : State) (k : Reader) : Prop where
  snaps : ∀ snap ∈ k.snaps, SnapOk X s snap
  xmin : ∀ m, k.xmin = some m → m ≤ s.oldest ∧ ∀ snap ∈ k.snaps, m ≤ snap.xmin
  fresh : k.xmin = none → k.snaps = []
  cache : CacheOk s k
  pc : ReaderPcOk X c s k k.pc

theorem CacheOk.grows (h : CacheOk s k) (hg : Grows s s') : CacheOk s' k := by
  intro x e hx
  obtain ⟨hf, heq | ⟨he, hc, ho, hm⟩⟩ := h x e hx
  · exact ⟨hf, .inl ((hg.final x (heq ▸ hf)).trans heq)⟩
  · exact ⟨hf, .inr ⟨he, hg.isCommitted hc, ho.trans_le hg.oldest, hm⟩⟩

theorem Pending.grows {xmin : Nat} (h : Pending s k xmin) (hg : Grows s s') : Pending s' k xmin :=
  ⟨h.oldest.trans hg.oldest, h.some⟩

theorem QueryOk.grows (h : QueryOk X s k q) (hg : Grows s s') (hn : q.snap.csn ≤ s.nextCsn) :
    QueryOk X s' k q where
  snap := h.snap
  xid := h.xid.trans_le hg.next
  committed hc := ⟨(h.committed hc).1, hg.isCommitted (h.committed hc).2⟩
  settled hX hby := hg.settled hn (h.settled hX hby)

theorem FetchOk.grows {f : Fetch} (h : FetchOk c s k q f) (hg : Grows s s') (hx : q.xid < s.nextXid)
    (hn : q.snap.csn ≤ s.nextCsn) : FetchOk c s' k q f := by
  have hfinal : ∀ {again : Bool}, (again = true → isFinal (s.log q.xid) = true) →
      again = true → isFinal (s'.log q.xid) = true := by
    intro again hf ha
    rw [hg.final _ (hf ha)]
    exact hf ha
  cases f with
  | bound | clog => exact h
  | down again children x =>
    obtain ⟨hlt, hp, hc, hf⟩ := h
    exact ⟨hlt.trans_le hg.next, hp.grows hg hlt, hc, hfinal hf⟩
  | up again child children e =>
    obtain ⟨hlt, hp, hc, hf, hplt, htop, hfound⟩ := h
    refine ⟨hlt.trans_le hg.next, hp.grows hg hlt, hc, hfinal hf, ?_⟩
    rw [hg.parent child hlt, hg.top child hlt, hg.top _ hplt]
    exact ⟨hplt.trans_le hg.next, htop, hfound.grows hg hn hplt⟩
  | wait => exact ⟨h.1, hg.marked _ hx h.2⟩

theorem ReaderOk.grows (h : ReaderOk X c s k) (hg : Grows s s') : ReaderOk X c s' k where
  snaps snap hsnap := (h.snaps snap hsnap).grows hg
  xmin m hm := ⟨(h.xmin m hm).1.trans hg.oldest, (h.xmin m hm).2⟩
  fresh := h.fresh
  cache := h.cache.grows hg
  pc := by
    have hpc := h.pc
    cases hk : k.pc with
    | idle => trivial
    | recheck byXid xmin | panic =>
      rwa [hk] at hpc
    | csn byXid xmin =>
      rw [hk] at hpc
      exact Pending.grows hpc hg
    | xmax byXid xmin n =>
      rw [hk] at hpc
      obtain ⟨hp, hn, hle, hold⟩ := hpc
      exact ⟨hp.grows hg, hn, hle.trans hg.csn, fun x hx => hg.settled hle (hold x hx)⟩
    | scan snap cur =>
      rw [hk] at hpc
      obtain ⟨hp, hb, hlt, hl⟩ := hpc
      exact ⟨hp.grows hg, hb.grows hg, hlt, fun hX => (hl hX).grows hg hb.csn⟩
    | check q f =>
      rw [hk] at hpc
      obtain ⟨hq, hf⟩ := hpc
      have hn := (h.snaps _ hq.snap).base.csn
      exact ⟨hq.grows hg hn, hf.grows hg hq.xid hn⟩

end PolarDB.CsnVisible
