import PolarDB.CsnVisibleRead

/-!
# Checks by commit sequence number are atomic

What a check says is decided by the CSN of the snapshot and the one its
transaction has drawn (`HistoryOk`), so for one snapshot a transaction is seen
whole or not at all, and with a commit every earlier one is seen.

This holds in runs in which a check that reads the upper bound of a page gets
a value that is not below its snapshot's CSN unless the bound is: the source
keeps the bound in an `int`. With a bound of `2 ^ 32 + 3` the check of an id
depends on whether it is known to be committed (`committedCheck_differs`).
-/

namespace PolarDB.CsnVisible

open Csn List Option

variable {X : Prop} {c : Conf} {s s' : State} {r x csn : Nat} {e : Entry} {k : Reader} {q : Query}
  {snap : Snap} {children : List Nat} {again : Bool}

/-! ## The invariant -/

/-- The check said what is visible; by xids only if `X`. -/
structure HistoryOk (X : Prop) (s : State) (rec : Check) : Prop where
  csn : rec.query.snap.csn ≤ s.nextCsn
  visible : (rec.query.byXid = true → X) →
    (rec.visible = true ↔ Sees s rec.query.snap.csn rec.query.xid)

structure Inv (X : Prop) (c : Conf) (s : State) : Prop where
  tx : TxInv c s
  readers : ∀ r, ReaderOk X c s (s.readers r)
  history : ∀ rec ∈ s.history, HistoryOk X s rec

theorem HistoryOk.grows {rec : Check} (h : HistoryOk X s rec) (hg : Grows s s') :
    HistoryOk X s' rec :=
  ⟨h.csn.trans hg.csn, fun hX => (h.visible hX).trans (hg.sees h.csn).symm⟩

theorem Inv.init (X : Prop) (c : Conf) (xids csns : Nat) (committed : Nat → Bool) :
    Inv X c (State.init xids csns committed) where
  tx := TxInv.init c xids csns committed
  readers _ := ⟨forall_mem_nil _, fun _ h => (nomatch h), fun _ => rfl,
      fun _ _ h => (nomatch h), trivial⟩
  history _ h := absurd h not_mem_nil

theorem Inv.good (h : Inv X c s) (hg : Good c s s') : Inv X c s' where
  tx := hg.1
  readers r := by
    rw [hg.2.2.readers]
    exact (h.readers r).grows hg.2.1
  history rec hrec := (h.history rec (hg.2.2.history ▸ hrec)).grows hg.2.1

/-! ## A step of a reader -/

theorem TxInv.readers (h : TxInv c s) (readers : Nat → Reader) (n : Nat) (history : List Check) :
    TxInv c { s with readers := readers, nextSnap := n, history := history } :=
  ⟨h.special, h.tops, h.fresh, h.csn, h.latest, h.oldest, fun t => (h.trees t).keeps
    { Keeps.refl s t with }⟩

theorem Inv.setReader (h : Inv X c s) (hk : ReaderOk X c s k) (n : Nat) {history : List Check}
    (hhist : ∀ rec ∈ history, HistoryOk X s rec) :
    Inv X c { s with
      readers := Function.update s.readers r k, nextSnap := n, history := history } where
  tx := h.tx.readers _ _ _
  readers r' := by
    simp only [Function.update_apply]
    split
    · exact hk.grows { Grows.refl s with }
    · exact (h.readers r').grows { Grows.refl s with }
  history rec hrec := (hhist rec hrec).grows { Grows.refl s with }

theorem Inv.move (h : Inv X c s) (hk : ReaderOk X c s k) :
    Inv X c { s with readers := Function.update s.readers r k } :=
  h.setReader hk s.nextSnap h.history

section

variable (h : ReaderOk X c s k)
include h

theorem ReaderOk.setPc {pc : ReaderPc} (hpc : ReaderPcOk X c s { k with pc := pc } pc) :
    ReaderOk X c s { k with pc := pc } :=
  ⟨h.snaps, h.xmin, h.fresh, h.cache, hpc⟩

theorem ReaderOk.idle : ReaderOk X c s { k with pc := .idle } :=
  ⟨h.snaps, h.xmin, h.fresh, h.cache, trivial⟩

theorem ReaderOk.setXmin {pc : ReaderPc} (hnil : k.snaps = [])
    (hpc : ReaderPcOk X c s { k with xmin := some s.oldest, pc := pc } pc) :
    ReaderOk X c s { k with xmin := some s.oldest, pc := pc } := by
  refine ⟨h.snaps, fun m hm => ?_, fun hnone => ?_, fun x e hx => ?_, hpc⟩
  · cases hm
    refine ⟨le_rfl, fun snap hsnap => ?_⟩
    rw [show k.snaps = [] from hnil] at hsnap
    cases hsnap
  · cases hnone
  · obtain ⟨hf, heq | ⟨he, hc, ho, -⟩⟩ := h.cache x e hx
    · exact ⟨hf, .inl heq⟩
    · refine ⟨hf, .inr ⟨he, hc, ho, fun m hm => ?_⟩⟩
      cases hm
      exact ho

theorem ReaderOk.addSnap (hs : SnapOk X s snap) (hp : Pending s k snap.xmin) :
    ReaderOk X c s (k.addSnap snap) where
  snaps := forall_mem_cons.mpr ⟨hs, h.snaps⟩
  xmin m hm := by
    obtain ⟨m', hm', hle⟩ := hp.some
    rw [show k.xmin = some m from hm] at hm'
    cases hm'
    exact ⟨(h.xmin m hm).1, forall_mem_cons.mpr ⟨hle, (h.xmin m hm).2⟩⟩
  fresh hnone := by
    obtain ⟨m, hm, -⟩ := hp.some
    rw [show k.xmin = none from hnone] at hm
    cases hm
  cache := h.cache
  pc := trivial

end

theorem Inv.answer {visible : Bool} (h : Inv X c s) (hk : ReaderOk X c s { k with pc := .idle })
    (hs : SnapBase s q.snap)
    (hv : (q.byXid = true → X) → (visible = true ↔ Sees s q.snap.csn q.xid)) :
    Inv X c (s.answer r k q visible) :=
  h.setReader hk s.nextSnap (forall_mem_cons.mpr ⟨⟨hs.csn, hv⟩, h.history⟩)

/-! ## The status of an id -/

structure Known (s : State) (q : Query) (e : Entry) : Prop where
  sees : e.isCommitted = true ∧ code e < q.snap.csn ↔ Sees s q.snap.csn q.xid
  committed : e.isCommitted = true → (s.log q.xid).isCommitted = true

theorem code_ofCode (n : Nat) : code (ofCode n) = n := by
  match n with
  | 0 | 1 | 2 | 3 => rfl
  | _ + 4 => rfl

theorem Known.of_final (ht : TxInv c s) (hx : q.xid < s.nextXid) (hf : isFinal e = true)
    (hlog : s.log q.xid = e) : Known s q e := by
  refine ⟨?_, fun hc => by rw [hlog]; exact hc⟩
  rw [ht.sees_iff_of_final hx (by rw [hlog]; exact hf), hlog]

theorem Known.of_found (hf : Found s q.snap.csn q.xid e) (ht : TxInv c s) (hx : q.xid < s.nextXid)
    (hne : e ≠ .committing) : Known s q e := by
  cases e with
  | inprogress =>
    have hnb := hf.inprogress rfl
    exact ⟨⟨fun h => by simp [Entry.isCommitted] at h, fun h => absurd h.1 hnb⟩, nofun⟩
  | committing => exact absurd rfl hne
  | subtrans p => exact absurd hf.nosub (by simp [Entry.isSubtrans])
  | aborted | frozen | normal n => exact .of_final ht hx rfl (hf.final rfl)

theorem Known.frozen (hs : SnapBase s q.snap) (hx : q.xid < q.snap.xmin)
    (hc : (s.log q.xid).isCommitted = true) : Known s q .frozen := by
  refine ⟨⟨fun _ => sees_of_settled (hs.old _ hx) hc, fun _ => ⟨rfl, ?_⟩⟩, fun _ => hc⟩
  exact Nat.lt_of_lt_of_le (by decide) hs.normal

theorem Known.visible (hk : Known s q e) (hq : QueryOk X s k q)
    (hc : q.committed = true → e.isCommitted = true) (hX : q.byXid = true → X) :
    (verdict q e).1 = true ↔ Sees s q.snap.csn q.xid := by
  unfold verdict
  by_cases hby : q.byXid = true
  · simp only [hby]
    exact ⟨fun he => sees_of_settled (hq.settled (hX hby) hby) (hk.committed he),
      fun hs => (hk.sees.mpr hs).1⟩
  · rw [← hk.sees]
    by_cases hqc : q.committed = true
    · simp [hby, hqc, hc hqc]
    · simp [hby, hqc]

theorem Inv.conclude {k' : Reader} (h : Inv X c s) (hk : ReaderOk X c s { k' with pc := .idle })
    (hs : SnapBase s q.snap) (hq : QueryOk X s k q) (he : Known s q e)
    (hc : q.committed = true → e.isCommitted = true) : Inv X c (s.conclude r k' q e) :=
  h.setReader hk s.nextSnap (forall_mem_cons.mpr ⟨⟨hs.csn, he.visible hq hc⟩, h.history⟩)

theorem ReaderOk.remember (h : ReaderOk X c s k) (hf : isFinal e = true → s.log x = e) :
    ReaderOk X c s { k.remember x e with pc := .idle } := by
  unfold Reader.remember
  split
  · next hfin =>
    have hfin : isFinal e = true := by
      rcases hfin with hc | rfl
      · exact isFinal_of_isCommitted hc
      · rfl
    refine ⟨h.snaps, h.xmin, h.fresh, fun x' e' hx => ?_, trivial⟩
    cases hx
    exact ⟨hfin, .inl (hf hfin)⟩
  · exact h.idle

/-! ## Getting the status -/

/-- The value of the upper bound in an `int` is not below the snapshot's CSN
unless the bound is. -/
def BoundOk (s : State) (q : Query) : Prop :=
  s.upperbound (pageNo q.xid) < q.snap.csn ∨ q.snap.csn ≤ throughInt (s.upperbound (pageNo q.xid))

instance (s : State) (q : Query) : Decidable (BoundOk s q) := inferInstanceAs (Decidable (_ ∨ _))

theorem isSubtrans_eq_false (hno : ∀ p, e ≠ .subtrans p) : e.isSubtrans = false := by
  cases e with
  | subtrans p => exact absurd rfl (hno p)
  | _ => rfl

section Fetch

variable (h : Inv X c s) (hk : ReaderOk X c s k) (hq : QueryOk X s k q)
include hk hq

theorem ReaderOk.check {f : Fetch} (hf : FetchOk c s k q f) :
    ReaderOk X c s { k with pc := .check q f } := by
  refine hk.setPc ⟨{ hq with }, ?_⟩
  cases f <;> exact hf

theorem ReaderOk.fetchStart : ReaderOk X c s { k with pc := .check q (fetchStart k q) } := by
  refine hk.check hq ?_
  unfold CsnVisible.fetchStart
  split
  · next hlt => simpa [FetchOk, Option.any_eq_true] using hlt
  · exact ⟨hq.xid, rfl, fun _ => rfl, (by cases ·)⟩

theorem ReaderOk.committed_of_cache (hx : k.cache = some (q.xid, e)) (hc : q.committed = true) :
    e.isCommitted = true := by
  obtain ⟨-, heq | ⟨rfl, -⟩⟩ := hk.cache _ _ hx
  · rw [← heq]
    exact (hq.committed hc).2
  · rfl

include h

theorem Inv.known_of_cache (hx : k.cache = some (q.xid, e)) : Known s q e := by
  have hs := hk.snaps _ hq.snap
  obtain ⟨hf, heq | ⟨rfl, hc, -, hm⟩⟩ := hk.cache _ _ hx
  · exact .of_final h.tx hq.xid hf heq
  · refine Known.frozen hs.base ?_ hc
    cases hxm : k.xmin with
    | none =>
      have := hq.snap
      rw [hk.fresh hxm] at this
      cases this
    | some m => exact (hm m hxm).trans_le ((hk.xmin m hxm).2 _ hq.snap)

theorem Inv.fetch : Inv X c (s.fetch c r k q) := by
  have hs := (hk.snaps _ hq.snap).base
  unfold State.fetch
  split
  · next x e hx =>
    obtain ⟨hx, hxq⟩ := filter_eq_some_iff.mp hx
    obtain rfl : x = q.xid := by simpa using hxq
    exact h.conclude hk.idle hs hq (h.known_of_cache hk hq hx) (hk.committed_of_cache hq hx)
  · split
    · next hlt =>
      have hlog := h.tx.special.2 _ hlt
      have hfound : Found s q.snap.csn q.xid (s.log q.xid) :=
        h.tx.found hq.xid (by rw [hlog, specialEntry]; split <;> rfl)
      rw [hlog] at hfound
      refine h.conclude hk.idle hs hq (Known.of_found hfound h.tx hq.xid ?_) fun hc => ?_
      · rw [specialEntry]
        split <;> simp
      · rw [← hlog]
        exact (hq.committed hc).2
    · split
      · next hb =>
        simp only [Bool.and_eq_true] at hb
        exact h.move (hk.check hq (f := .bound) hb.1)
      · exact h.move (hk.fetchStart hq)

/-- A status was found for `x`; it is the one of the log if that is final. -/
theorem Inv.found (hx : x < s.nextXid) (hp : Path s q.xid children x) (hf : Found s q.snap.csn x e)
    (hlog : isFinal (s.log x) = true → e = s.log x) (hc : q.committed = true → children = [])
    (hagain : again = true → isFinal (s.log q.xid) = true) :
    Inv X c (s.found r k q again children e) := by
  have hs := (hk.snaps _ hq.snap).base
  cases children with
  | cons child children =>
    obtain ⟨rfl, hlt, htop, hp⟩ := hp
    refine h.move (hk.check hq ?_)
    exact ⟨hlt, hp, by simpa using hc, hagain, hx, htop, hf⟩
  | nil =>
    obtain rfl : x = q.xid := hp
    simp only [State.found]
    split
    · next hw =>
      refine h.move (hk.check hq (f := .wait) ⟨?_, hf.committing hw.1⟩)
      by_contra hqc
      have hcom := (hq.committed (by simpa using hqc)).2
      rw [← hlog (isFinal_of_isCommitted hcom), hw.1] at hcom
      cases hcom
    · next hw =>
      have hne : e ≠ .committing := by
        intro he
        have ha : again = true := by
          by_contra ha
          exact hw ⟨he, by simpa using ha⟩
        have hfin := hagain ha
        rw [← hlog hfin, he] at hfin
        cases hfin
      refine h.conclude (hk.remember hf.final) hs hq (.of_found hf h.tx hq.xid hne) fun hqc => ?_
      have hcom := (hq.committed hqc).2
      rwa [hlog (isFinal_of_isCommitted hcom)]

theorem Inv.fetchStep {f : Fetch} (hf : FetchOk c s k q f)
    (hb : f = .bound → BoundOk s q) (hs : fetchStep s r k q f = some s') : Inv X c s' := by
  have hbase := (hk.snaps _ hq.snap).base
  cases f with
  | bound =>
    simp only [CsnVisible.fetchStep] at hs
    split at hs
    · next hlt =>
      cases hs
      obtain ⟨hen, hqc⟩ := hf
      obtain ⟨hby, hcom⟩ := hq.committed hqc
      have hup := (hb rfl).resolve_right (not_le.mpr hlt)
      have hle := (h.tx.trees (s.top q.xid)).bound hen q.xid ⟨hq.xid, rfl⟩ hcom
      refine h.setReader hk.idle s.nextSnap
        (forall_mem_cons.mpr ⟨⟨hbase.csn, fun _ => ?_⟩, h.history⟩)
      rw [h.tx.sees_iff_of_final hq.xid (isFinal_of_isCommitted hcom)]
      simp only [verdict, hby, hqc, code_ofCode]
      simp [hlt, hcom, hle.trans_lt hup]
    · cases hs
      exact h.move (hk.fetchStart hq)
  | clog =>
    obtain ⟨m, hm, hlt⟩ := hf
    have hold : q.xid < s.oldest := hlt.trans_le (hk.xmin m hm).1
    obtain ⟨hfin, hclog⟩ := h.tx.final_of_isOver hq.xid (h.tx.oldest.2 _ hold)
    simp only [CsnVisible.fetchStep] at hs
    cases hs
    split
    · next hcl =>
      have hcom := hclog.mp hcl
      refine h.conclude ⟨hk.snaps, hk.xmin, hk.fresh, fun x e hx => ?_, trivial⟩ hbase hq
        (.frozen hbase (hlt.trans_le ((hk.xmin m hm).2 _ hq.snap)) hcom) fun _ => rfl
      cases hx
      refine ⟨rfl, .inr ⟨rfl, hcom, hold, fun m' hm' => ?_⟩⟩
      rw [show k.xmin = some m' from hm'] at hm
      cases hm
      exact hlt
    · next hcl =>
      have hab : s.log q.xid = .aborted := by
        rcases (h.tx.trees (s.top q.xid)).stamped q.xid ⟨hq.xid, rfl⟩ hfin with hab | ⟨hcom, -⟩
        · exact hab
        · exact absurd (hclog.mpr hcom) hcl
      refine h.conclude ⟨hk.snaps, hk.xmin, hk.fresh, fun x e hx => ?_, trivial⟩ hbase hq
        (.of_final h.tx hq.xid rfl hab) fun hqc => ?_
      · cases hx
        exact ⟨rfl, .inl hab⟩
      · rw [← hab]
        exact (hq.committed hqc).2
  | down again children x =>
    obtain ⟨hx, hp, hc, hagain⟩ := hf
    simp only [CsnVisible.fetchStep] at hs
    split at hs
    · next p hlog =>
      cases hs
      obtain ⟨hne, rfl, hplt, htop⟩ := h.tx.subtrans_spec hx hlog
      refine h.move (hk.check hq (f := .down again (x :: children) (s.parent x))
        ⟨hplt, ⟨rfl, hx, htop, hp⟩, fun hqc => ?_, hagain⟩)
      rw [hc hqc] at hp
      obtain rfl : x = q.xid := hp
      have hcom := (hq.committed hqc).2
      rw [hlog] at hcom
      cases hcom
    · next hno =>
      cases hs
      exact h.found hk hq hx hp (h.tx.found hx (isSubtrans_eq_false hno)) (fun _ => rfl) hc hagain
  | up again child children e =>
    obtain ⟨hx, hp, hqc, hagain, _, htop, hfound⟩ := hf
    have hnot : q.committed = true → children = [] := fun hc => by
      rw [hqc] at hc
      cases hc
    simp only [CsnVisible.fetchStep] at hs
    split at hs
    · next p hlog =>
      obtain ⟨-, rfl, -⟩ := h.tx.subtrans_spec hx hlog
      have hopen := h.tx.parent_open hx hlog
      split at hs
      · next he =>
        cases hs
        refine h.found hk hq hx hp (hfound.child htop he) (fun hfin => ?_) hnot hagain
        rw [hlog] at hfin
        cases hfin
      · next he =>
        have hfin : isFinal e = true := by
          cases e with
          | inprogress => exact absurd (.inl rfl) he
          | committing => exact absurd (.inr rfl) he
          | subtrans p => exact absurd hfound.nosub (by simp [Entry.isSubtrans])
          | _ => rfl
        rw [hfound.final hfin, hfin] at hopen
        cases hopen
    · next hno =>
      cases hs
      exact h.found hk hq hx hp (h.tx.found hx (isSubtrans_eq_false hno)) (fun _ => rfl) hnot hagain
  | wait =>
    obtain ⟨_, hmark⟩ := hf
    obtain ⟨hfree, rfl⟩ := ite_some_none_eq_some.mp hs
    have hover := h.tx.isOver_of_marked hq.xid hmark hfree
    refine h.move (hk.check hq (f := .down true [] q.xid) ⟨hq.xid, rfl, fun _ => rfl,
      fun _ => (h.tx.final_of_isOver hq.xid hover).1⟩)

end Fetch

theorem Inv.startCheck (h : Inv X c s) (hk : ReaderOk X c s k) (hsnap : q.snap ∈ k.snaps)
    (hc : q.committed = true → (s.log q.xid).isCommitted = true) :
    Inv X c (s.startCheck c r k q) := by
  have hok := hk.snaps _ hsnap
  unfold State.startCheck
  by_cases hby : q.byXid = true
  · have hxid : q.snap.xidSnapshot = true := by
      simp only [Query.byXid, Bool.and_eq_true] at hby
      exact hby.1
    simp only [hby, if_true]
    split
    · next hqc =>
      refine h.answer hk.idle hok.base fun hX => ?_
      cases hin : inSnapshot c q.snap q.xid with
      | true => simpa using hok.not_sees_of_inSnapshot (hX hby) hxid hin
      | false => simpa using sees_of_settled (hok.settled_of_inSnapshot (hX hby) hxid hin) (hc hqc)
    · next hqc =>
      split
      · next hin =>
        refine h.answer hk.idle hok.base fun hX => ?_
        simpa using hok.not_sees_of_inSnapshot (hX hby) hxid hin
      · next hin =>
        have hin : inSnapshot c q.snap q.xid = false := by simpa using hin
        exact h.fetch hk ⟨hsnap, hok.base.lt_of_inSnapshot h.tx hin, fun hqc' => absurd hqc' hqc,
          fun hX _ => hok.settled_of_inSnapshot hX hxid hin⟩
  · simp only [hby]
    rw [if_neg (by simp)]
    split
    · next hold =>
      simp only [Bool.and_eq_true, decide_eq_true_eq] at hold
      refine h.answer hk.idle hok.base fun _ => ?_
      simpa using sees_of_settled (hok.base.old _ hold.2) (hc hold.1)
    · split
      · next hge =>
        refine h.answer hk.idle hok.base fun _ => ?_
        simpa using fun hs => not_lt.mpr hge (hok.base.high _ hs)
      · next hlt =>
        exact h.fetch hk ⟨hsnap, (not_le.mp hlt).trans_le hok.base.xmax,
          fun hqc => ⟨by simpa using hby, hc hqc⟩, fun _ hby' => absurd hby' hby⟩

/-! ## Taking a snapshot -/

/-- What a scan lists is not visible; the mark says nothing about the CSN that
was drawn. -/
theorem TxInv.not_before_of_scanned (h : TxInv c s) (hx : x < s.nextXid)
    (hsc : scanned csn (s.log x) = true) (hmark : s.log x = .committing → ¬Before s csn x) :
    ¬Before s csn x := by
  by_cases hcom : (s.log x).isCommitted = true
  · rintro ⟨n, hd, hlt⟩
    rw [h.committed_spec hx hcom] at hd
    cases hd
    cases hlog : s.log x with
    | frozen | normal m =>
      rw [hlog] at hsc hlt
      simp [scanned, Entry.isActive] at hsc
      omega
    | _ =>
      rw [hlog] at hcom
      cases hcom
  · cases hlog : s.log x with
    | inprogress =>
      rintro ⟨n, hd, -⟩
      rw [h.inprogress_spec hx hlog] at hd
      cases hd
    | committing => exact hmark hlog
    | _ =>
      rw [hlog] at hsc hcom
      first | cases hsc | exact absurd rfl hcom

theorem TxInv.settled_of_not_scanned (h : TxInv c s) (hx : x < s.nextXid)
    (hsc : scanned csn (s.log x) = false) (hsub : (s.log x).isSubtrans = true → Before s csn x) :
    Settled s csn x := by
  have hstamp : (s.log x).isCommitted = true → code (s.log x) < csn → Settled s csn x :=
    fun hc hlt => .inl ⟨_, h.committed_spec hx hc, hlt⟩
  cases hlog : s.log x with
  | aborted => exact .inr hlog
  | subtrans p => exact .inl (hsub (by rw [hlog]; rfl))
  | frozen | normal m =>
    rw [hlog] at hsc hstamp
    simp [scanned, Entry.isActive, Entry.isCommitted] at hsc
    exact hstamp rfl hsc
  | _ =>
    rw [hlog] at hsc
    cases hsc

def ScanOk (c : Conf) (s : State) (snap : Snap) (cur : Nat) : Prop :=
  (scanned snap.csn (s.log cur) = true → snap.subxip.length ≠ c.maxSubxids)
    ∧ (s.log cur = .committing → ¬Before s snap.csn cur)
    ∧ ((s.log cur).isSubtrans = true → Before s snap.csn cur)

instance (c : Conf) (s : State) (snap : Snap) (cur : Nat) : Decidable (ScanOk c s snap cur) :=
  inferInstanceAs (Decidable (_ ∧ _ ∧ _))

variable {cur : Nat}

theorem ListOk.listed_cur (h : ListOk s snap cur) (ht : TxInv c s) (hx : cur < s.nextXid)
    (hok : ScanOk c s snap cur) (hsc : scanned snap.csn (s.log cur) = true) :
    ListOk s { snap with subxip := snap.subxip ++ [cur] } (cur + 1) where
  whole := h.whole
  below := forall_mem_snoc (fun x hx => Nat.lt_succ_of_lt (h.below x hx)) (Nat.lt_succ_self _)
  listed := forall_mem_snoc h.listed (ht.not_before_of_scanned hx hsc hok.2.1)
  rest x hle hlt hmem := by
    have hne : x ≠ cur := by
      rintro rfl
      exact hmem mem_concat_self
    exact h.rest x hle ((Nat.le_of_lt_succ hlt).lt_of_ne hne) fun hx =>
      hmem (mem_append_left _ hx)

theorem ListOk.passed_cur (h : ListOk s snap cur) (ht : TxInv c s) (hx : cur < s.nextXid)
    (hok : ScanOk c s snap cur) (hsc : scanned snap.csn (s.log cur) = false) :
    ListOk s snap (cur + 1) :=
  { h with
    below x hx := Nat.lt_succ_of_lt (h.below x hx)
    rest x hle hlt hmem := by
      by_cases hne : x = cur
      · rw [hne]
        exact ht.settled_of_not_scanned hx hsc hok.2.2
      · exact h.rest x hle ((Nat.le_of_lt_succ hlt).lt_of_ne hne) hmem }

theorem ReaderOk.scanNext (h : ReaderOk X c s k) (hb : SnapBase s snap)
    (hp : Pending s k snap.xmin) (hcur : cur < snap.xmax) (hl : X → ListOk s snap (cur + 1)) :
    ReaderOk X c s
      (if cur + 1 < snap.xmax then { k with pc := .scan snap (cur + 1) } else k.addSnap snap) := by
  split
  · next hlt => exact h.setPc ⟨{ hp with }, hb, hlt, hl⟩
  · next hge =>
    have hend : snap.xmax = cur + 1 := by omega
    exact h.addSnap ⟨hb, fun hX _ => hend ▸ hl hX⟩ hp

theorem SnapBase.setList (h : SnapBase s snap) (subxip : List Nat) (overflowed : Bool) :
    SnapBase s { snap with subxip := subxip, suboverflowed := overflowed } :=
  { h with }

/-! ## Steps -/

/-! ## Steps that are not those of a reader -/

def Action.IsTx : Action → Prop
  | .snapshot .. | .check .. | .endXact _ | .reader _ => False
  | _ => True

theorem good_step {a : Action} (h : TxInv c s) (hs : step c s a = some s') (ha : a.IsTx) :
    Good c s s' := by
  cases a with
  | begin =>
    cases hs
    exact good_begin h
  | assignSub t parent =>
    obtain ⟨hif, rfl⟩ := ite_some_none_eq_some.mp hs
    refine good_assignSub h hif.1 hif.2.1 ?_
    rcases hif.2.2 with hlog | hlog
    · rw [hlog]
      rfl
    · exact isFinal_eq_false_of_isSubtrans hlog
  | commit t subxids =>
    obtain ⟨hif, rfl⟩ := ite_some_none_eq_some.mp hs
    exact good_startCommit h hif.1 hif.2
  | abort t subxids =>
    obtain ⟨hif, rfl⟩ := ite_some_none_eq_some.mp hs
    exact good_abort h hif.1 hif.2
  | abortSub t xid subxids =>
    obtain ⟨hif, rfl⟩ := ite_some_none_eq_some.mp hs
    exact good_abortSub h hif.1 hif.2.1 hif.2.2.1 hif.2.2.2.1 hif.2.2.2.2
  | tx t => exact good_txStep h hs
  | advance xid =>
    obtain ⟨hif, rfl⟩ := ite_some_none_eq_some.mp hs
    exact good_advance h hif.1 hif.2.1 hif.2.2
  | snapshot | check | endXact | reader => exact ha.elim

def ReadOnly (s s' : State) : Prop :=
  ∃ readers n history, s' = { s with readers := readers, nextSnap := n, history := history }

theorem readOnly_fetch : ReadOnly s (s.fetch c r k q) := by
  unfold State.fetch
  split
  · exact ⟨_, _, _, rfl⟩
  · split_ifs <;> exact ⟨_, _, _, rfl⟩

theorem readOnly_startCheck : ReadOnly s (s.startCheck c r k q) := by
  unfold State.startCheck
  dsimp only
  split_ifs
  all_goals first | exact readOnly_fetch | exact ⟨_, _, _, rfl⟩

theorem readOnly_found : ReadOnly s (s.found r k q again children e) := by
  unfold State.found
  split
  · exact ⟨_, _, _, rfl⟩
  · split_ifs <;> exact ⟨_, _, _, rfl⟩

theorem readOnly_fetchStep {f : Fetch} (hs : fetchStep s r k q f = some s') : ReadOnly s s' := by
  cases f with
  | bound =>
    simp only [fetchStep] at hs
    split at hs <;> (cases hs; exact ⟨_, _, _, rfl⟩)
  | clog =>
    cases hs
    exact ⟨_, _, _, rfl⟩
  | down again children xid =>
    simp only [fetchStep] at hs
    split at hs
    · cases hs
      exact ⟨_, _, _, rfl⟩
    · cases hs
      exact readOnly_found
  | up again child children found =>
    simp only [fetchStep] at hs
    split at hs
    · split at hs
      · cases hs
        exact readOnly_found
      · cases hs
        exact ⟨_, _, _, rfl⟩
    · cases hs
      exact readOnly_found
  | wait =>
    obtain ⟨-, rfl⟩ := ite_some_none_eq_some.mp hs
    exact ⟨_, _, _, rfl⟩

theorem readOnly_readerStep (hs : readerStep c s r = some s') : ReadOnly s s' := by
  unfold readerStep at hs
  dsimp only at hs
  split at hs
  · cases hs
  · cases hs
  · cases hs
    exact ⟨_, _, _, rfl⟩
  · cases hs
    exact ⟨_, _, _, rfl⟩
  · split at hs <;> (cases hs; exact ⟨_, _, _, rfl⟩)
  · split at hs
    · split at hs <;> (cases hs; exact ⟨_, _, _, rfl⟩)
    · cases hs
      exact ⟨_, _, _, rfl⟩
  · exact readOnly_fetchStep hs

theorem TxInv.step {a : Action} (h : TxInv c s) (hs : step c s a = some s') : TxInv c s' := by
  have hread : ReadOnly s s' → TxInv c s' := by
    rintro ⟨readers, n, history, rfl⟩
    exact h.readers readers n history
  cases a with
  | begin | assignSub | commit | abort | abortSub | tx | advance => exact (good_step h hs trivial).1
  | snapshot r byXid =>
    obtain ⟨-, hs⟩ := ite_none_right_eq_some.mp hs
    split at hs <;> (cases hs; exact hread ⟨_, _, _, rfl⟩)
  | check r q =>
    obtain ⟨-, rfl⟩ := ite_some_none_eq_some.mp hs
    exact hread readOnly_startCheck
  | endXact r =>
    obtain ⟨-, rfl⟩ := ite_some_none_eq_some.mp hs
    exact hread ⟨_, _, _, rfl⟩
  | reader r => exact hread (readOnly_readerStep hs)

def ReadOk (X : Prop) (c : Conf) (s : State) : ReaderPc → Prop
  | .check q .bound => BoundOk s q
  | .scan snap cur => X → ScanOk c s snap cur
  | _ => True

instance (X : Prop) [Decidable X] (c : Conf) (s : State) : (pc : ReaderPc) →
    Decidable (ReadOk X c s pc)
  | .check q .bound => inferInstanceAs (Decidable (BoundOk s q))
  | .scan snap cur => inferInstanceAs (Decidable (X → ScanOk c s snap cur))
  | .idle | .recheck .. | .csn .. | .xmax .. | .panic | .check _ .clog | .check _ (.down ..)
  | .check _ (.up ..) | .check _ .wait => .isTrue trivial

def StepOk (X : Prop) (c : Conf) (s : State) : Action → Prop
  | .reader r => ReadOk X c s (s.readers r).pc
  | _ => True

instance (X : Prop) [Decidable X] (c : Conf) (s : State) : (a : Action) →
    Decidable (StepOk X c s a)
  | .reader r => inferInstanceAs (Decidable (ReadOk X c s (s.readers r).pc))
  | .begin | .assignSub .. | .commit .. | .abort .. | .abortSub .. | .tx _ | .advance _
  | .snapshot .. | .check .. | .endXact _ => .isTrue trivial

section

variable (h : Inv X c s)
include h

theorem Inv.readerStep (hok : ReadOk X c s (s.readers r).pc)
    (hs : readerStep c s r = some s') : Inv X c s' := by
  have hk := h.readers r
  have hpc := hk.pc
  unfold CsnVisible.readerStep at hs
  simp only at hs
  generalize s.readers r = k at hk hpc hs hok
  cases hp : k.pc with
  | idle | panic =>
    rw [hp] at hs
    cases hs
  | recheck byXid xmin =>
    rw [hp] at hs hpc
    cases hs
    refine h.move (hk.setXmin hpc.1 ?_)
    exact ⟨le_rfl, s.oldest, rfl, le_rfl⟩
  | csn byXid xmin =>
    rw [hp] at hs hpc
    cases hs
    refine h.move (hk.setPc ?_)
    refine ⟨{ hpc with }, h.tx.csn, le_rfl, fun x hx => ?_⟩
    exact h.tx.settled_of_lt_oldest (hx.trans_le hpc.oldest)
  | xmax byXid xmin n =>
    rw [hp] at hs hpc
    obtain ⟨hpend, hn, hle, hold⟩ := hpc
    have hb : SnapBase s ⟨s.nextSnap, xmin, s.latestCompleted + 1, n, byXid, [], false⟩ :=
      ⟨hn, hle, hpend.oldest, h.tx.latest, hold, fun x hx =>
        Nat.lt_succ_of_le (h.tx.le_latest_of_sees hx)⟩
    have hempty : ListOk s ⟨s.nextSnap, xmin, s.latestCompleted + 1, n, byXid, [], false⟩ xmin :=
      ⟨rfl, forall_mem_nil _, forall_mem_nil _,
        fun x hge hlt => absurd hlt (not_lt.mpr hge)⟩
    simp only at hs
    split at hs
    · next hlt =>
      cases hs
      refine h.setReader (hk.setPc ?_) _ h.history
      exact ⟨{ hpend with }, hb, hlt.2, fun _ => hempty⟩
    · next hge =>
      cases hs
      refine h.setReader (hk.addSnap ⟨hb, fun _ hby => ?_⟩ hpend) _ h.history
      have hle : s.latestCompleted + 1 ≤ xmin := not_lt.mp fun hlt => hge ⟨hby, hlt⟩
      exact ⟨rfl, forall_mem_nil _, forall_mem_nil _,
        fun x hx hlt => absurd (hlt.trans_le hle) (not_lt.mpr hx)⟩
  | scan snap cur =>
    rw [hp] at hs hpc hok
    obtain ⟨hpend, hb, hcur, hl⟩ := hpc
    have hlt : cur < s.nextXid := hcur.trans_le hb.xmax
    simp only at hs
    split at hs
    · next hsc =>
      split at hs
      · next hfull =>
        cases hs
        refine h.move (hk.addSnap ⟨hb.setList _ true, fun hX _ => ?_⟩ hpend)
        exact absurd hfull ((hok hX).1 hsc)
      · cases hs
        refine h.move ?_
        exact hk.scanNext (hb.setList (snap.subxip ++ [cur]) snap.suboverflowed) hpend hcur
          fun hX => (hl hX).listed_cur h.tx hlt (hok hX) hsc
    · next hsc =>
      cases hs
      exact h.move (hk.scanNext hb hpend hcur
        fun hX => (hl hX).passed_cur h.tx hlt (hok hX) (by simpa using hsc))
  | check q f =>
    rw [hp] at hs hpc hok
    refine h.fetchStep hk hpc.1 hpc.2 (fun hf => ?_) hs
    subst hf
    exact hok

theorem Inv.step {a : Action} (hok : StepOk X c s a) (hs : step c s a = some s') : Inv X c s' := by
  cases a with
  | begin | assignSub | commit | abort | abortSub | tx | advance =>
    exact h.good (good_step h.tx hs trivial)
  | snapshot r byXid =>
    have hk := h.readers r
    obtain ⟨-, hs⟩ := ite_none_right_eq_some.mp hs
    split at hs
    · next hnone =>
      cases hs
      refine h.move (hk.setXmin (hk.fresh hnone) ?_)
      exact ⟨hk.fresh hnone, by simp⟩
    · next m hm =>
      cases hs
      refine h.move (hk.setPc ?_)
      exact ⟨le_rfl, m, hm, (hk.xmin m hm).1⟩
  | check r q =>
    obtain ⟨hif, rfl⟩ := ite_some_none_eq_some.mp hs
    exact h.startCheck (h.readers r) hif.2.1 hif.2.2
  | endXact r =>
    have hk := h.readers r
    obtain ⟨hidle, rfl⟩ := ite_some_none_eq_some.mp hs
    refine h.move ⟨forall_mem_nil _, fun m hm => ?_,
      fun _ => rfl, fun x e hx => ?_, ?_⟩
    · cases hm
    · obtain ⟨hf, heq | ⟨he, hc, ho, -⟩⟩ := hk.cache x e hx
      · exact ⟨hf, .inl heq⟩
      · refine ⟨hf, .inr ⟨he, hc, ho, fun m hm => ?_⟩⟩
        cases hm
    · rw [hidle]
      trivial
  | reader r => exact h.readerStep hok hs

/-! ## Atomic visibility -/

def CommittedXid (s : State) (t x : Nat) : Prop :=
  s.top x = t ∧ s.drawn t ≠ none ∧ s.log x ≠ .aborted

instance (s : State) (t x : Nat) : Decidable (CommittedXid s t x) :=
  inferInstanceAs (Decidable (_ ∧ _ ∧ _))

def IsCsnCheck (s : State) (snap : Snap) (rec : Check) : Prop :=
  rec ∈ s.history ∧ rec.query.snap = snap ∧ rec.query.byXid = false

/-- With a snapshot a transaction is seen whole or not at all, and with a
commit all that have drawn a smaller CSN are seen. -/
structure Atomic (s : State) : Prop where
  whole : ∀ snap t,
    (∀ rec, IsCsnCheck s snap rec → CommittedXid s t rec.query.xid → rec.visible = true)
      ∨ ∀ rec, IsCsnCheck s snap rec → CommittedXid s t rec.query.xid → rec.visible = false
  ordered : ∀ snap rec1 rec2 t1 t2 n1 n2, IsCsnCheck s snap rec1 → IsCsnCheck s snap rec2 →
    CommittedXid s t1 rec1.query.xid → CommittedXid s t2 rec2.query.xid →
    s.drawn t1 = some n1 → s.drawn t2 = some n2 → n1 ≤ n2 →
    rec2.visible = true → rec1.visible = true
  noPanic : ∀ r, (s.readers r).pc ≠ .panic

theorem Inv.visible_iff {rec : Check} {t n : Nat} (hrec : IsCsnCheck s snap rec)
    (hx : CommittedXid s t rec.query.xid) (hn : s.drawn t = some n) :
    rec.visible = true ↔ n < snap.csn := by
  obtain ⟨hmem, rfl, hby⟩ := hrec
  obtain ⟨rfl, -, hab⟩ := hx
  rw [(h.history rec hmem).visible fun hb => by rw [hby] at hb; cases hb]
  constructor
  · rintro ⟨⟨m, hm, hlt⟩, -⟩
    rw [hn] at hm
    cases hm
    exact hlt
  · intro hlt
    exact ⟨⟨n, hn, hlt⟩, hab⟩

theorem Inv.atomic : Atomic s where
  whole snap t := by
    cases hn : s.drawn t with
    | none => exact .inl fun rec _ hx => absurd hn hx.2.1
    | some n =>
      by_cases hlt : n < snap.csn
      · exact .inl fun rec hrec hx => (h.visible_iff hrec hx hn).mpr hlt
      · refine .inr fun rec hrec hx => ?_
        have := mt (h.visible_iff hrec hx hn).mp hlt
        simpa using this
  ordered snap rec1 rec2 t1 t2 n1 n2 h1 h2 hx1 hx2 hn1 hn2 hle hv := by
    rw [h.visible_iff h2 hx2 hn2] at hv
    rw [h.visible_iff h1 hx1 hn1]
    exact hle.trans_lt hv
  noPanic r hp := by
    have hpc := (h.readers r).pc
    rwa [hp] at hpc

end

/-- Checks by CSN are atomic in every run where each upper bound that is read
fits its `int` as far as the check needs it. -/
theorem atomic_of_meets (c : Conf) (xids csns : Nat) (committed : Nat → Bool) (as : List Action)
    (s : State) (hm : Meets (step c) (StepOk False c) (State.init xids csns committed) as)
    (hs : exec (step c) (State.init xids csns committed) as = some s) : Atomic s := by
  have h : Inv False c s := exec_invariant_of_meets (fun _ => Inv False c)
    (fun _ _ _ _ h hok hs => h.step hok hs) (Inv.init False c xids csns committed) hm hs
  exact h.atomic

/-- The first snapshot of a session on a server with one running transaction
that has drawn no CSN yet. -/
def earlySnap (csn : Nat) : Snap := ⟨0, 5, 6, csn, false, [], false⟩

/-- A snapshot is taken while transaction 5 is committing; then the id is
checked, first as one known to be committed. -/
def checkedTwice (csn : Nat) : List Action :=
  [.begin, .commit 5 [], .tx 5, .snapshot 0 false, .reader 0, .reader 0, .reader 0, .tx 5, .tx 5,
    .tx 5, .tx 5, .tx 5, .check 0 ⟨earlySnap csn, 5, true, false⟩, .reader 0, .reader 0,
    .check 0 ⟨earlySnap csn, 5, false, false⟩]

/-- The same with an answer from the upper bound, so that nothing is cached. -/
def checkedByBound (csn : Nat) : List Action :=
  [.begin, .commit 5 [], .tx 5, .snapshot 0 false, .reader 0, .reader 0, .reader 0, .tx 5, .tx 5,
    .tx 5, .tx 5, .tx 5, .check 0 ⟨earlySnap csn, 5, true, false⟩, .reader 0,
    .check 0 ⟨earlySnap csn, 5, false, false⟩, .reader 0]

/-- The bound `2 ^ 32 + 3` is 3 in an `int`: the id is visible to one check and
not to the other. -/
theorem committedCheck_differs :
    ∃ s, exec (step ⟨10, true, id⟩) (State.init 2 (2 ^ 32 - 1) fun _ => true)
        (checkedByBound (2 ^ 32 + 3)) = some s
      ∧ s.history.map (fun rec => (rec.query.snap, rec.query.byXid, rec.query.xid, rec.visible))
        = [(earlySnap (2 ^ 32 + 3), false, 5, false), (earlySnap (2 ^ 32 + 3), false, 5, true)]
      ∧ CommittedXid s 5 5 ∧ ¬Atomic s := by
  refine exec_eval (E := fun s =>
      s.history = [⟨⟨earlySnap (2 ^ 32 + 3), 5, false, false⟩, false, .committed⟩,
        ⟨⟨earlySnap (2 ^ 32 + 3), 5, true, false⟩, true, .inprogress⟩] ∧ CommittedXid s 5 5)
    (by decide +kernel) fun s _ ⟨hh, hc⟩ => ?_
  refine ⟨by rw [hh]; rfl, hc, fun hat => ?_⟩
  rcases hat.whole (earlySnap (2 ^ 32 + 3)) 5 with hall | hnone
  · cases hall ⟨⟨earlySnap (2 ^ 32 + 3), 5, false, false⟩, false, .committed⟩
      ⟨by rw [hh]; simp, rfl, rfl⟩ hc
  · cases hnone ⟨⟨earlySnap (2 ^ 32 + 3), 5, true, false⟩, true, .inprogress⟩
      ⟨by rw [hh]; simp, rfl, rfl⟩ hc

/-- With a bound that fits, both checks say that it is not visible. -/
theorem atomic_checkedTwice :
    ∃ s, exec (step ⟨10, true, id⟩) (State.init 2 0 fun _ => true) (checkedTwice 4) = some s
      ∧ s.history.map (fun rec => (rec.query.committed, rec.visible)) =
        [(false, false), (true, false)]
      ∧ Atomic s := by
  refine exec_eval (E := fun s => s.history.map (fun rec => (rec.query.committed, rec.visible)) =
    [(false, false), (true, false)]) (by decide) fun s hs heq => ?_
  exact ⟨heq, atomic_of_meets ⟨10, true, id⟩ 2 0 (fun _ => true) (checkedTwice 4) s (by decide) hs⟩

/-- In every run the entries of a transaction and its subtransactions never
show two CSNs, and a CSN that can be read was given out. -/
theorem oneCsn_of_exec (c : Conf) (xids csns : Nat) (committed : Nat → Bool) (as : List Action)
    (s : State) (hs : exec (step c) (State.init xids csns committed) as = some s) {t x y : Nat}
    (hx : s.InTree t x) (hy : s.InTree t y) (hcx : (s.log x).isCommitted = true)
    (hcy : (s.log y).isCommitted = true) :
    code (s.log x) = code (s.log y) ∧ code (s.log x) < s.nextCsn := by
  have h : TxInv c s := exec_invariant (fun _ => TxInv c) (TxInv.init c xids csns committed)
    (fun _ _ _ _ h hs => h.step hs) hs
  have hdrawn : ∀ {x}, s.InTree t x → (s.log x).isCommitted = true →
      s.drawn t = some (code (s.log x)) := by
    intro x hx hc
    rcases (h.trees t).stamped x hx (isFinal_of_isCommitted hc) with ha | ⟨-, hd⟩
    · rw [ha] at hc
      cases hc
    · exact hd
  exact ⟨some.inj ((hdrawn hx hcx).symm.trans (hdrawn hy hcy)),
    ((h.trees t).drawn _ (hdrawn hx hcx)).2⟩

def commitWithSub : List Action :=
  [.begin, .assignSub 5 5, .tx 5, .commit 5 [6], .tx 5, .tx 5, .tx 5, .tx 5, .tx 5, .tx 5, .tx 5]

theorem oneCsn_commitWithSub :
    ∃ s, exec (step ⟨10, true, id⟩) (State.init 2 0 fun _ => true) commitWithSub = some s
      ∧ code (s.log 5) = code (s.log 6) := by
  refine exec_eval (E := fun s => (s.InTree 5 5 ∧ s.InTree 5 6) ∧
      (s.log 5).isCommitted = true ∧ (s.log 6).isCommitted = true) (by decide)
    fun s hs ⟨⟨h5, h6⟩, hc5, hc6⟩ => ?_
  exact (oneCsn_of_exec ⟨10, true, id⟩ 2 0 (fun _ => true) commitWithSub s hs h5 h6 hc5 hc6).1

end PolarDB.CsnVisible
