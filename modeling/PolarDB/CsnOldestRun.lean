import Mathlib.Order.Bounds.Basic
import PolarDB.CsnOldest

/-!
# The oldest active transaction is safe and moves on

No transaction below `polar_oldest_active_xid` is unfinished, since the value
is only moved over entries that have ended, and it is moved far enough: it is
the next id, or the id of an unfinished transaction, or some process that has
ended its transaction still has to look at it (`Pc.Watches`).

Both rest on the log: an active entry belongs to an active transaction. A
restart breaks this. `polar_csnlog_startup` writes the entries of committed
transactions only, so one that was aborted or cut off keeps an entry in progress
for ever, and the value stops there (`oldest_stuck`). If at each restart all ids
from the oldest prepared transaction on were committed or are prepared,
everything holds (`oldestOk_of_meets`).
-/

namespace PolarDB.CsnOldest

open Csn Function List Option

variable {s s' : State} {t x : Nat} {pc pc' : Pc}

def Unfinished (s : State) (x : Nat) : Prop :=
  x < s.nextXid ∧ (s.procs (s.top x)).isLive = true

/-- Every id below the value has finished. When no call is running the value
is the least unfinished id, or `nextXid` if there is none, unless the
transaction it names has just ended and has its call still to come. -/
structure OldestOk (s : State) : Prop where
  safe : ∀ x < s.oldest, x < s.nextXid ∧ ¬Unfinished s x
  exact : (∀ t < s.nextXid, (s.procs t).isCall = false) →
    IsLeast (insert s.nextXid {x | Unfinished s x}) s.oldest ∨ s.procs s.oldest = .ended

/-! ## The defect -/

/-- Transaction 5 is prepared and 6 aborted before a restart; then 5 is
committed and the value moved. -/
def abortedBeforeRestart : List Action :=
  [.begin, .begin, .prepare 5 [], .abort 6 [], .proc 6, .proc 6, .proc 6, .restart 7 [],
    .commit 5 [], .proc 5, .proc 5, .proc 5, .proc 5, .proc 5, .proc 5, .proc 5, .proc 5,
    .proc 5, .proc 5]

def Pc.isNone : Pc → Bool
  | .none => true
  | _ => false

theorem oldest_stuck : ∃ s, exec step (State.init 5) abortedBeforeRestart = some s
    ∧ s.oldest = 6 ∧ s.nextXid = 7 ∧ (∀ x < 7, s.procs x = .none ∧ ¬Unfinished s x)
    ∧ ¬OldestOk s := by
  refine exec_eval (E := fun s => s.oldest = 6 ∧ s.nextXid = 7 ∧ ∀ x < 7,
      (s.procs x).isNone = true ∧ (s.procs (s.top x)).isLive = false)
    (by decide) fun s _ ⟨hold, hnext, hall⟩ => ?_
  have hnone : ∀ t < 7, s.procs t = .none := by
    intro t ht
    have := (hall t ht).1
    unfold Pc.isNone at this
    split at this
    · assumption
    · cases this
  have hfin : ∀ x < 7, ¬Unfinished s x := by
    intro x hx hu
    rw [Unfinished, (hall x hx).2] at hu
    cases hu.2
  refine ⟨hold, hnext, fun x hx => ⟨hnone x hx, hfin x hx⟩, fun h => ?_⟩
  rcases h.exact fun t ht => by rw [hnone t (hnext ▸ ht)]; rfl with ⟨hmem, -⟩ | hended
  · rw [hold, hnext] at hmem
    rcases hmem with h67 | hu
    · cases h67
    · exact hfin 6 (by omega) hu
  · rw [hold, hnone 6 (by omega)] at hended
    cases hended

/-! ## The invariant -/

structure Live (s : State) (t : Nat) : Prop where
  assigned : t < s.nextXid
  top : s.top t = t
  oldest : s.oldest ≤ t
  active : (s.log t).isActive = true

def Passed (s : State) (old xid : Nat) : Prop :=
  ∀ y, old ≤ y → y < xid → y < s.nextXid ∧ (s.log y).isActive = false

def CallOk (s : State) : Call → Prop
  | .read => True
  | .next old xid => old ≤ xid ∧ xid ≤ s.nextXid ∧ Passed s old xid
  | .scan old xid e => old ≤ xid ∧ xid < e ∧ e ≤ s.nextXid ∧ Passed s old xid
  | .swap old xid => old < xid ∧ xid ≤ s.nextXid ∧ Passed s old xid

def OwnSubxids (s : State) (t : Nat) (subxids : List Nat) : Prop :=
  ∀ x ∈ subxids, x < s.nextXid ∧ s.top x = t ∧ x ≠ t

def PcOk (s : State) (t : Nat) : Pc → Prop
  | .none => True
  | .running => Live s t
  | .assigning xid _ =>
    Live s t ∧ xid < s.nextXid ∧ s.top xid = t ∧ xid ≠ t ∧ s.log xid = .inprogress
  | .prepared subxids | .committing subxids | .drawing subxids =>
    Live s t ∧ OwnSubxids s t subxids
  | .stamping todo csn =>
    Live s t ∧ csn.isActive = false ∧ ∃ subxids, todo = subxids ++ [t] ∧ OwnSubxids s t subxids
  | .ended => t < s.nextXid ∧ (s.log t).isActive = false
  | .call c => (t < s.nextXid ∧ (s.log t).isActive = false) ∧ CallOk s c

def Pc.Watches (oldest t : Nat) : Pc → Prop
  | .ended | .call .read => t = oldest
  | .call (.next old _) | .call (.scan old _ _) | .call (.swap old _) => old = oldest
  | _ => False

def Accounted (s : State) (x : Nat) : Prop :=
  (s.procs x).isLive = true ∨ ∃ parent, s.procs (s.top x) = .assigning x parent

structure Inv (s : State) : Prop where
  le_next : s.oldest ≤ s.nextXid
  tops : ∀ x, s.top x ≤ x
  pcs : ∀ t, PcOk s t (s.procs t)
  active : ∀ x, s.oldest ≤ x → x < s.nextXid → (s.log x).isActive = true → Accounted s x
  watched : s.oldest = s.nextXid ∨ (s.procs s.oldest).isLive = true ∨
    ∃ t, (s.procs t).Watches s.oldest t

theorem PcOk.live (h : PcOk s t pc) (hl : pc.isLive = true) : Live s t := by
  cases pc with
  | none | ended | call c => cases hl
  | running => exact h
  | _ => exact h.1

def Pc.Steady : Pc → Prop
  | .assigning .. => False
  | pc => pc.isLive = true

theorem Pc.Steady.isLive (h : pc.Steady) : pc.isLive = true := by
  cases pc with
  | assigning xid parent => rfl
  | _ => exact h

theorem PcOk.eq_none (h : PcOk s t pc) (ht : s.nextXid ≤ t) : pc = .none := by
  by_cases hl : pc.isLive = true
  · have := (h.live hl).assigned
    omega
  · cases pc with
    | none => rfl
    | ended =>
      have := h.1
      omega
    | call c =>
      have := h.1.1
      omega
    | _ => exact absurd rfl hl

theorem Pc.not_watches_of_isLive {o : Nat} (h : pc.isLive = true) : ¬pc.Watches o t := by
  cases pc with
  | ended | call c => cases h
  | _ => exact id

theorem Inv.own (h : Inv s) (hpc : s.procs t = pc) : PcOk s t pc :=
  hpc ▸ h.pcs t

theorem Inv.init (xid : Nat) : Inv (State.init xid) where
  le_next := le_refl xid
  tops x := le_refl x
  pcs _ := trivial
  active _ hx hlt := absurd hx (not_le.mpr hlt)
  watched := .inl rfl

theorem Inv.oldest_le (h : Inv s) (hu : Unfinished s x) : s.oldest ≤ x :=
  ((h.pcs _).live hu.2).oldest.trans (h.tops x)

theorem Inv.oldestOk (h : Inv s) : OldestOk s where
  safe x hx := ⟨hx.trans_le h.le_next, fun hu => absurd (h.oldest_le hu) (not_le.mpr hx)⟩
  exact hcall := by
    have hbelow : s.oldest ∈ lowerBounds (insert s.nextXid {x | Unfinished s x}) := by
      rintro x (rfl | hu)
      · exact h.le_next
      · exact h.oldest_le hu
    rcases h.watched with heq | hlive | ⟨t, ht⟩
    · exact .inl ⟨.inl heq, hbelow⟩
    · have hl := (h.pcs _).live hlive
      exact .inl ⟨.inr ⟨hl.assigned, by rw [hl.top]; exact hlive⟩, hbelow⟩
    · have hpcs := h.pcs t
      cases hpc : s.procs t with
      | ended =>
        rw [hpc] at ht
        have heq : t = s.oldest := ht
        exact .inr (heq ▸ hpc)
      | call c =>
        rw [hpc] at hpcs
        have hnot := hcall t hpcs.1.1
        rw [hpc] at hnot
        cases hnot
      | _ =>
        rw [hpc] at ht
        exact ht.elim

/-! ## Steps that leave the others alone -/

structure Keeps (s s' : State) (t : Nat) : Prop where
  next : s.nextXid ≤ s'.nextXid
  top : ∀ x < s.nextXid, s'.top x = s.top x
  inactive : ∀ x < s.nextXid, (s.log x).isActive = false → (s'.log x).isActive = false
  own : ∀ x < s.nextXid, s.top x = t → s'.log x = s.log x
  oldest : Live s t → s'.oldest ≤ t

theorem Live.keeps (h : Live s t) (hk : Keeps s s' t) : Live s' t where
  assigned := h.assigned.trans_le hk.next
  top := (hk.top t h.assigned).trans h.top
  oldest := hk.oldest h
  active := by
    rw [hk.own t h.assigned h.top]
    exact h.active

variable {xid : Nat} {subxids : List Nat} {e : Entry}

theorem Passed.keeps {old : Nat} (h : Passed s old xid) (hk : Keeps s s' t) :
    Passed s' old xid := fun y hy hlt =>
  ⟨(h y hy hlt).1.trans_le hk.next, hk.inactive y (h y hy hlt).1 (h y hy hlt).2⟩

theorem CallOk.keeps {c : Call} (h : CallOk s c) (hk : Keeps s s' t) : CallOk s' c := by
  cases c with
  | read => trivial
  | next old xid | swap old xid => exact ⟨h.1, h.2.1.trans hk.next, h.2.2.keeps hk⟩
  | scan old xid e => exact ⟨h.1, h.2.1, h.2.2.1.trans hk.next, h.2.2.2.keeps hk⟩

theorem OwnSubxids.keeps (h : OwnSubxids s t subxids) (hk : Keeps s s' t) :
    OwnSubxids s' t subxids := fun x hx =>
  ⟨(h x hx).1.trans_le hk.next, (hk.top x (h x hx).1).trans (h x hx).2.1, (h x hx).2.2⟩

theorem PcOk.keeps (h : PcOk s t pc) (hk : Keeps s s' t) : PcOk s' t pc := by
  have hover : t < s.nextXid ∧ (s.log t).isActive = false →
      t < s'.nextXid ∧ (s'.log t).isActive = false := fun ho =>
    ⟨ho.1.trans_le hk.next, hk.inactive t ho.1 ho.2⟩
  cases pc with
  | none => trivial
  | running => exact Live.keeps h hk
  | assigning xid parent =>
    obtain ⟨hl, hlt, htop, hne, hlog⟩ := h
    exact ⟨hl.keeps hk, hlt.trans_le hk.next, (hk.top xid hlt).trans htop, hne,
      (hk.own xid hlt htop).trans hlog⟩
  | prepared subxids | committing subxids | drawing subxids => exact ⟨h.1.keeps hk, h.2.keeps hk⟩
  | stamping todo csn =>
    obtain ⟨hl, hcsn, subxids, htodo, hsub⟩ := h
    exact ⟨hl.keeps hk, hcsn, subxids, htodo, hsub.keeps hk⟩
  | ended => exact hover h
  | call c => exact ⟨hover h.1, h.2.keeps hk⟩

theorem Keeps.setPc (s : State) (t' : Nat) (pc : Pc) : Keeps s (s.setPc t' pc) t :=
  ⟨le_refl _, fun _ _ => rfl, fun _ _ hx => hx, fun _ _ _ => rfl, fun hl => hl.oldest⟩

theorem pcs_update (h : Inv s) (hprocs : s'.procs = update s.procs t pc')
    (hk : ∀ t', t' ≠ t → Keeps s s' t') (hpc : PcOk s' t pc') :
    ∀ t', PcOk s' t' (s'.procs t') := by
  rw [hprocs]
  exact (forall_update_iff s.procs (PcOk s')).mpr ⟨hpc, fun t' ht => (h.pcs t').keeps (hk t' ht)⟩

theorem watched_update {o : Nat} (h : (s.procs o).isLive = true ∨ ∃ t', (s.procs t').Watches o t')
    (hlive : (s.procs t).isLive = true → pc'.isLive = true ∨ pc'.Watches t t)
    (hwatch : ¬(s.procs t).Watches o t) :
    (update s.procs t pc' o).isLive = true ∨ ∃ t', (update s.procs t pc' t').Watches o t' := by
  rcases h with hl | ⟨t', ht'⟩
  · by_cases ho : o = t
    · subst ho
      rcases hlive hl with hl' | hw
      · exact .inl (by rwa [update_self])
      · exact .inr ⟨o, by rwa [update_self]⟩
    · exact .inl (by rwa [update_of_ne ho])
  · have hne : t' ≠ t := by
      rintro rfl
      exact hwatch ht'
    exact .inr ⟨t', by rwa [update_of_ne hne]⟩

/-! ## Steps of a live transaction -/

theorem Inv.move (h : Inv s) (hlive : (s.procs t).isLive = true) (log : Log) (nextCsn : Nat)
    (hlog : ∀ x, log x = s.log x ∨ x < s.nextXid ∧ s.top x = t)
    (hmono : ∀ x, (s.log x).isActive = false → (log x).isActive = false)
    (hpc : PcOk { s with log := log, nextCsn := nextCsn } t pc')
    (hnew : pc'.isLive = true ∨ pc' = .ended)
    (hown : ∀ x, s.oldest ≤ x → x < s.nextXid → s.top x = t → (log x).isActive = true →
      x = t ∧ pc'.isLive = true) :
    Inv ({ s with log := log, nextCsn := nextCsn }.setPc t pc') where
  le_next := h.le_next
  tops := h.tops
  pcs := by
    refine pcs_update h rfl (fun t' ht => ⟨le_refl _, fun _ _ => rfl, fun x _ => hmono x,
      fun x _ hx => ?_, fun hl => hl.oldest⟩) (hpc.keeps (Keeps.setPc _ _ _))
    rcases hlog x with heq | ⟨-, htop⟩
    · exact heq
    · exact absurd (hx.symm.trans htop) ht
  active x hold hlt hact := by
    simp only [State.setPc] at hold hlt hact ⊢
    by_cases hx : s.top x = t
    · obtain ⟨rfl, hl⟩ := hown x hold hlt hx hact
      exact .inl (by simp only [update_self]; exact hl)
    · have heq : log x = s.log x := (hlog x).resolve_right fun hr => hx hr.2
      have hxt : x ≠ t := by
        rintro rfl
        exact hx ((h.pcs x).live hlive).top
      rcases h.active x hold hlt (heq ▸ hact) with hl | ⟨parent, hp⟩
      · exact .inl (by simp only [update_of_ne hxt]; exact hl)
      · exact .inr ⟨parent, by simp only [update_of_ne hx]; exact hp⟩
  watched := by
    refine h.watched.imp_right fun hw => watched_update hw ?_ (Pc.not_watches_of_isLive hlive)
    rintro -
    rcases hnew with hl | rfl
    · exact .inl hl
    · exact .inr rfl

/-- No subtransaction of a transaction is being assigned, so that its own
entry is its only active one. -/
theorem Inv.own_active (h : Inv s) (hpc0 : s.procs t = pc) (hst : pc.Steady) (hx : s.oldest ≤ x)
    (hlt : x < s.nextXid) (htop : s.top x = t) (hact : (s.log x).isActive = true) : x = t := by
  rcases h.active x hx hlt hact with hl | ⟨p, hp⟩
  · exact ((h.pcs x).live hl).top.symm.trans htop
  · rw [htop, hpc0] at hp
    rw [hp] at hst
    cases hst

section

variable (h : Inv s) (hpc0 : s.procs t = pc)
include h hpc0

theorem Inv.setPc (hst : pc.Steady) (hnew : pc'.isLive = true) (hpc : PcOk s t pc') :
    Inv (s.setPc t pc') :=
  h.move (hpc0 ▸ hst.isLive) s.log s.nextCsn (fun _ => .inl rfl) (fun _ hx => hx) hpc (.inl hnew)
    fun _ hx hlt htop hact => ⟨h.own_active hpc0 hst hx hlt htop hact, hnew⟩

/-- A live transaction writes one of its entries. It is the only active one
afterwards, and only if it is the transaction's own. -/
theorem Inv.write (hlive : pc.isLive = true)
    (hx : x < s.nextXid ∧ s.top x = t) (hmono : (s.log x).isActive = false → e.isActive = false)
    (hpc : PcOk (s.setEntry x e) t pc') (hnew : pc'.isLive = true ∨ pc' = .ended)
    (hself : e.isActive = true → x = t ∧ pc'.isLive = true)
    (hown : ∀ y ≠ x, s.oldest ≤ y → y < s.nextXid → s.top y = t → (s.log y).isActive = true →
      y = t ∧ pc'.isLive = true) : Inv ((s.setEntry x e).setPc t pc') := by
  refine h.move (hpc0 ▸ hlive) (update s.log x e) s.nextCsn ?_ ?_ hpc hnew ?_
  · exact (forall_update_iff s.log
      fun y e' => e' = s.log y ∨ y < s.nextXid ∧ s.top y = t).mpr ⟨.inr hx, fun _ _ => .inl rfl⟩
  · exact (forall_update_iff s.log
      fun y e' => (s.log y).isActive = false → e'.isActive = false).mpr ⟨hmono, fun _ _ => id⟩
  · exact (forall_update_iff s.log fun y e' => s.oldest ≤ y → y < s.nextXid → s.top y = t →
      e'.isActive = true → y = t ∧ pc'.isLive = true).mpr ⟨fun _ _ _ => hself, hown⟩

theorem Inv.stampSub (hst : pc.Steady) (hnew : pc'.isLive = true)
    (hx : x < s.nextXid ∧ s.top x = t ∧ x ≠ t) (he : e.isActive = false)
    (hpc : PcOk (s.setEntry x e) t pc') : Inv ((s.setEntry x e).setPc t pc') :=
  h.write hpc0 hst.isLive ⟨hx.1, hx.2.1⟩ (fun _ => he) hpc (.inl hnew)
    (fun hact => nomatch he.symm.trans hact)
    fun _ _ hold hlt htop hact => ⟨h.own_active hpc0 hst hold hlt htop hact, hnew⟩

theorem Inv.stampTop (hst : pc.Steady) (hpc : PcOk (s.setEntry t e) t pc')
    (hnew : pc'.isLive = true ∨ pc' = .ended ∧ e.isActive = false) :
    Inv ((s.setEntry t e).setPc t pc') := by
  have hl := (h.own hpc0).live hst.isLive
  refine h.write hpc0 hst.isLive ⟨hl.assigned, hl.top⟩ (fun hin => ?_) hpc
    (hnew.imp_right And.left) (fun hact => ⟨rfl, ?_⟩)
    fun y hyt hold hlt htop hact => absurd (h.own_active hpc0 hst hold hlt htop hact) hyt
  · rw [hl.active] at hin
    cases hin
  · rcases hnew with hl' | ⟨-, he⟩
    · exact hl'
    · rw [he] at hact
      cases hact

end

theorem Live.setEntry_of_ne (h : Live s t) (hne : x ≠ t) : Live (s.setEntry x e) t :=
  { h with active := by simp only [State.setEntry, update_of_ne hne.symm]; exact h.active }

/-! ## New ids -/

theorem Inv.newXid (h : Inv s) (hpc : PcOk (s.newXid t pc') t pc') (hnew : pc'.isLive = true)
    (hno : ∀ y p, s.procs t ≠ .assigning y p)
    (ht : t = s.nextXid ∨ (s.procs t).isLive = true ∧ ∃ p, pc' = .assigning s.nextXid p) :
    Inv (s.newXid t pc') := by
  have htn : t ≤ s.nextXid := by
    rcases ht with rfl | ⟨hl, -⟩
    · exact le_refl _
    · exact ((h.pcs t).live hl).assigned.le
  refine ⟨Nat.le_succ_of_le h.le_next, fun x => ?_, pcs_update h rfl (fun t' _ => ?_) hpc, ?_, ?_⟩
  · simp only [State.newXid, update_apply]
    split
    · next hx => exact hx ▸ htn
    · exact h.tops x
  · refine ⟨Nat.le_succ _, fun x hx => ?_, fun x hx hi => ?_, fun x hx _ => ?_, fun hl => hl.oldest⟩
    · exact update_of_ne hx.ne _ _
    · simp only [State.newXid, update_of_ne hx.ne]
      exact hi
    · exact update_of_ne hx.ne _ _
  · intro x hold hlt hact
    simp only [State.newXid] at hold hlt hact
    by_cases hxn : x = s.nextXid
    · subst hxn
      rcases ht with rfl | ⟨-, p, rfl⟩
      · exact .inl (by simp only [State.newXid, update_self]; exact hnew)
      · exact .inr ⟨p, by simp only [State.newXid, update_self]⟩
    · rw [update_of_ne hxn] at hact
      rcases h.active x hold (by omega) hact with hl | ⟨p, hp⟩
      · by_cases hxt : x = t
        · exact .inl (by simp only [State.newXid, hxt, update_self]; exact hnew)
        · exact .inl (by simp only [State.newXid, update_of_ne hxt]; exact hl)
      · have hne : s.top x ≠ t := by
          rintro rfl
          exact hno x p hp
        refine .inr ⟨p, ?_⟩
        simp only [State.newXid, update_of_ne hxn, update_of_ne hne]
        exact hp
  · simp only [State.newXid]
    rcases h.watched with heq | hw
    · rcases ht with rfl | ⟨hl, -⟩
      · exact .inr (.inl (by rw [heq, update_self]; exact hnew))
      · have hl := (h.pcs t).live hl
        have := hl.oldest
        have := hl.assigned
        omega
    · refine .inr (watched_update hw (fun _ => .inl hnew) ?_)
      rcases ht with rfl | ⟨hl, -⟩
      · rw [(h.pcs _).eq_none (le_refl _)]
        exact id
      · exact Pc.not_watches_of_isLive hl

theorem Live.newXid_of_live (h : Live s t) (pc : Pc) : Live (s.newXid t pc) t := by
  have hne := h.assigned.ne
  refine ⟨Nat.lt_succ_of_lt h.assigned, ?_, h.oldest, ?_⟩
  · simp only [State.newXid, update_of_ne hne]
    exact h.top
  · simp only [State.newXid, update_of_ne hne]
    exact h.active

/-! ## Calls -/

/-- A process moves on within its call. The value stays, or is moved over
entries that have ended. -/
theorem Inv.callMove (h : Inv s) (hlive : (s.procs t).isLive = false) (o : Nat)
    (hle : s.oldest ≤ o) (hnext : o ≤ s.nextXid)
    (hpassed : Passed s s.oldest o) (hpc : PcOk { s with oldest := o } t pc')
    (hwatch : o = s.nextXid ∨ (s.procs o).isLive = true ∨ pc'.Watches o t ∨
      o = s.oldest ∧ ¬(s.procs t).Watches o t) :
    Inv ({ s with oldest := o }.setPc t pc') where
  le_next := hnext
  tops := h.tops
  pcs := by
    refine pcs_update h rfl (fun t' _ => ⟨le_refl _, fun _ _ => rfl, fun _ _ hx => hx,
      fun _ _ _ => rfl, fun hl => ?_⟩) (hpc.keeps (Keeps.setPc _ _ _))
    by_contra hlt
    have := (hpassed t' hl.oldest (not_le.mp hlt)).2
    rw [hl.active] at this
    cases this
  active x hold hlt hact := by
    rcases h.active x (hle.trans hold) hlt hact with hl | ⟨parent, hp⟩
    · have hne : x ≠ t := by
        rintro rfl
        rw [hlive] at hl
        cases hl
      exact .inl (by simp only [State.setPc, update_of_ne hne]; exact hl)
    · have hne : s.top x ≠ t := by
        rintro rfl
        rw [hp] at hlive
        cases hlive
      exact .inr ⟨parent, by simp only [State.setPc, update_of_ne hne]; exact hp⟩
  watched := by
    have hother : ∀ y, (s.procs y).isLive = true → update s.procs t pc' y = s.procs y := by
      intro y hy
      refine update_of_ne ?_ _ _
      rintro rfl
      rw [hlive] at hy
      cases hy
    simp only [State.setPc]
    rcases hwatch with heq | hl | hw | ⟨rfl, hw⟩
    · exact .inl heq
    · exact .inr (.inl (by rw [hother o hl]; exact hl))
    · exact .inr (.inr ⟨t, by rw [update_self]; exact hw⟩)
    · exact h.watched.imp_right fun hold =>
        watched_update hold (fun hl => nomatch hlive.symm.trans hl) hw

theorem Passed.refl (s : State) (o : Nat) : Passed s o o := fun y hy hlt => by omega

theorem Passed.succ {old : Nat} (h : Passed s old xid) (hlt : xid < s.nextXid)
    (hx : (s.log xid).isActive = false) : Passed s old (xid + 1) := by
  intro y hy hyx
  rcases Nat.lt_succ_iff_lt_or_eq.mp hyx with hyx | rfl
  · exact h y hy hyx
  · exact ⟨hlt, hx⟩

theorem Inv.setCall (h : Inv s) (hlive : (s.procs t).isLive = false) (hpc : PcOk s t pc')
    (hwatch : (s.procs t).Watches s.oldest t →
      s.oldest = s.nextXid ∨ (s.procs s.oldest).isLive = true ∨ pc'.Watches s.oldest t) :
    Inv (s.setPc t pc') := by
  refine h.callMove hlive s.oldest (le_refl _) h.le_next (Passed.refl s _) hpc ?_
  by_cases hw : (s.procs t).Watches s.oldest t
  · rcases hwatch hw with heq | hl | hw'
    · exact .inl heq
    · exact .inr (.inl hl)
    · exact .inr (.inr (.inl hw'))
  · exact .inr (.inr (.inr ⟨rfl, hw⟩))

/-- The value names an active entry only if its transaction is live: one that
is being assigned belongs to a transaction below. -/
theorem Inv.live_of_active (h : Inv s) (hlt : s.oldest < s.nextXid)
    (hact : (s.log s.oldest).isActive = true) : (s.procs s.oldest).isLive = true := by
  rcases h.active s.oldest (le_refl _) hlt hact with hl | ⟨p, hp⟩
  · exact hl
  · obtain ⟨hl, -, -, hne, -⟩ := h.own hp
    have := hl.oldest
    have := h.tops s.oldest
    omega

theorem Inv.callStep {c : Call} (h : Inv s) (hc : s.procs t = .call c) : Inv (callStep s t c) := by
  have hlive : (s.procs t).isLive = false := by rw [hc]; rfl
  obtain ⟨hover, hok⟩ := h.own hc
  have hwatch : (s.procs t).Watches s.oldest t → (Pc.call c).Watches s.oldest t := fun hw => hc ▸ hw
  cases c with
  | read =>
    simp only [CsnOldest.callStep]
    split
    · next ht =>
      refine h.setCall hlive ⟨hover, Nat.le_succ t, hover.1, ?_⟩ fun _ => .inr (.inr ht)
      exact (Passed.refl s t).succ hover.1 hover.2
    · next ht =>
      exact h.setCall hlive trivial fun hw => absurd (hwatch hw) ht
  | next old xid =>
    obtain ⟨hle, hnext, hpassed⟩ := hok
    simp only [CsnOldest.callStep]
    split
    · next hlt =>
      exact h.setCall hlive ⟨hover, hle, hlt, le_refl _, hpassed⟩ fun hw => .inr (.inr (hwatch hw))
    · next hlt =>
      split
      · next heq =>
        refine h.setCall hlive trivial fun hw => .inl ?_
        have : old = s.oldest := hwatch hw
        omega
      · next heq =>
        exact h.setCall hlive ⟨hover, by omega, hnext, hpassed⟩ fun hw => .inr (.inr (hwatch hw))
  | scan old xid e =>
    obtain ⟨hle, hlt, hnext, hpassed⟩ := hok
    have hxn : xid < s.nextXid := hlt.trans_le hnext
    simp only [CsnOldest.callStep]
    split
    · next hact =>
      split
      · next heq =>
        refine h.setCall hlive trivial fun hw => ?_
        have hold : xid = s.oldest := heq.trans (hwatch hw)
        exact .inr (.inl (h.live_of_active (hold ▸ hxn) (hold ▸ hact)))
      · next heq =>
        exact h.setCall hlive ⟨hover, by omega, by omega, hpassed⟩ fun hw => .inr (.inr (hwatch hw))
    · next hact =>
      have hpassed' := hpassed.succ hxn (Bool.eq_false_iff.mpr hact)
      split
      · next hmore =>
        exact h.setCall hlive ⟨hover, by omega, hmore, hnext, hpassed'⟩
          fun hw => .inr (.inr (hwatch hw))
      · next hmore =>
        exact h.setCall hlive ⟨hover, by omega, by omega, hpassed'⟩ fun hw =>
          .inr (.inr (hwatch hw))
  | swap old xid =>
    obtain ⟨hlt, hnext, hpassed⟩ := hok
    simp only [CsnOldest.callStep]
    split
    · next heq =>
      subst heq
      exact h.callMove hlive xid hlt.le hnext hpassed
        ⟨hover, le_refl _, hnext, fun y hy hyx => absurd hyx (not_lt.mpr hy)⟩
        (.inr (.inr (.inl rfl)))
    · next heq =>
      exact h.setCall hlive trivial fun hw => absurd (Eq.symm (hwatch hw)) heq

/-! ## Restart -/

variable {next : Nat} {committed : List Nat}

/-- The replay has not lost an id that counted as finished, and every id from
the oldest prepared transaction on was committed or belongs to a prepared
transaction. -/
def RestartOk (s : State) (next : Nat) (committed : List Nat) : Prop :=
  s.oldest ≤ next ∧ ∀ x < next, s.oldestPrepared next ≤ x →
    x ∈ committed ∨ (s.procs x).isPrepared = true ∨ s.Recorded x

instance (s : State) (next : Nat) (committed : List Nat) : Decidable (RestartOk s next committed) :=
  inferInstanceAs (Decidable (_ ∧ _))

def StepOk (s : State) : Action → Prop
  | .restart next committed => RestartOk s next committed
  | _ => True

instance StepOk.decidable (s : State) : ∀ a, Decidable (StepOk s a)
  | .restart next committed => inferInstanceAs (Decidable (RestartOk s next committed))
  | .begin | .assignSub _ _ | .abortSub _ _ | .prepare _ _ | .commit _ _ | .abort _ _ | .proc _ =>
    .isTrue trivial

theorem oldestPrepared_cases (s : State) (next : Nat) : s.oldestPrepared next = next ∨
      s.oldestPrepared next < next ∧ (s.procs (s.oldestPrepared next)).isPrepared = true := by
  unfold State.oldestPrepared
  cases hf : (range next).find? fun t => (s.procs t).isPrepared with
  | none => exact .inl rfl
  | some t =>
    obtain ⟨hp, ht, -⟩ := find?_range_eq_some.mp hf
    exact .inr ⟨mem_range.mp ht, hp⟩

theorem oldestPrepared_le (ht : t < next) (hp : (s.procs t).isPrepared = true) :
    s.oldestPrepared next ≤ t := by
  by_contra hlt
  unfold State.oldestPrepared at hlt
  cases hf : (range next).find? fun t => (s.procs t).isPrepared with
  | none =>
    exact find?_eq_none.mp hf t (mem_range.mpr ht) hp
  | some o =>
    rw [hf] at hlt
    have := (find?_range_eq_some.mp hf).2.2 t (not_le.mp hlt)
    rw [hp] at this
    cases this

theorem isLive_of_isPrepared (hp : pc.isPrepared = true) : pc.isLive = true := by
  cases pc with
  | prepared subxids => rfl
  | _ => cases hp

theorem PcOk.recorded (h : PcOk s t pc) : OwnSubxids s t pc.recorded := by
  cases pc with
  | prepared subxids => exact h.2
  | _ => exact forall_mem_nil _

theorem restart_procs (s : State) (next : Nat) (committed : List Nat) (t : Nat) :
    (s.restart next committed).procs t = s.procs t ∧ (s.procs t).isPrepared = true ∨
      (s.restart next committed).procs t = .none := by
  by_cases hp : (s.procs t).isPrepared = true
  · exact .inl ⟨by simp only [State.restart, hp, ↓reduceIte], hp⟩
  · exact .inr (by simp only [State.restart, hp]; rfl)

theorem restartLog_prepared (h : Inv s) (hcan : s.CanRestart next committed)
    (hp : (s.procs t).isPrepared = true) : s.restartLog next committed t = .inprogress := by
  have hl := (h.pcs t).live (isLive_of_isPrepared hp)
  obtain ⟨hlt, hnot, -⟩ := hcan t hl.assigned hp
  have hrec : ¬s.Recorded t := by
    intro hr
    rw [State.Recorded, hl.top] at hr
    exact ((h.pcs t).recorded t hr).2.2 rfl
  simp only [State.restartLog, oldestPrepared_le hlt hp, hlt, and_self, ↓reduceIte, hnot, hrec]

/-- Among the entries after a restart only those of prepared transactions are
active. -/
theorem prepared_of_restartLog_active (hok : RestartOk s next committed)
    (hx : s.oldestPrepared next ≤ x) (hlt : x < next)
    (hact : (s.restartLog next committed x).isActive = true) : (s.procs x).isPrepared = true := by
  rcases hok.2 x hlt hx with hc | hp | hr
  · simp only [State.restartLog, hx, hlt, hc] at hact
    cases hact
  · exact hp
  · by_cases hc : x ∈ committed
    · simp only [State.restartLog, hx, hlt, hc] at hact
      cases hact
    · simp only [State.restartLog, hx, hlt, hc, hr] at hact
      cases hact

theorem Inv.restart (h : Inv s) (hcan : s.CanRestart next committed)
    (hok : RestartOk s next committed) : Inv (s.restart next committed) := by
  refine ⟨?_, h.tops, fun t => ?_, fun x hx hlt hact => ?_, ?_⟩
  · rcases oldestPrepared_cases s next with heq | ⟨hlt, -⟩
    · exact heq.le
    · exact hlt.le
  · rcases restart_procs s next committed t with ⟨heq, hp⟩ | heq
    · have hpc := h.pcs t
      have hl := hpc.live (isLive_of_isPrepared hp)
      obtain ⟨hlt, -, hsub⟩ := hcan t hl.assigned hp
      have hl' : Live (s.restart next committed) t := ⟨hlt, hl.top, oldestPrepared_le hlt hp, by
          simp only [State.restart, restartLog_prepared h hcan hp, Entry.isActive]⟩
      rw [heq]
      cases hpc' : s.procs t with
      | prepared subxids =>
        rw [hpc'] at hpc hsub
        exact ⟨hl', fun x hx => ⟨hsub x hx, (hpc.2 x hx).2⟩⟩
      | _ =>
        rw [hpc'] at hp
        cases hp
    · rw [heq]
      trivial
  · have hp := prepared_of_restartLog_active hok hx hlt hact
    refine .inl ?_
    simp only [State.restart, hp]
    exact isLive_of_isPrepared hp
  · rcases oldestPrepared_cases s next with heq | ⟨-, hp⟩
    · exact .inl heq
    · refine .inr (.inl ?_)
      simp only [State.restart, hp]
      exact isLive_of_isPrepared hp

/-! ## Runs -/

theorem canEnd_steady (h : pc.canEnd subxids = true) : pc.Steady := by
  cases pc with
  | running => rfl
  | prepared recorded => rfl
  | _ => cases h

theorem ownSubxids_setCsnOrder (hl : Live s t)
    (he : e.isActive = false) (hs : OwnSubxids s t subxids) :
    PcOk s t (.stamping (setCsnOrder t subxids) e) :=
  ⟨hl, he, subxids.reverse, setCsnOrder_eq t subxids, fun x hx => hs x (mem_reverse.mp hx)⟩

section

variable (h : Inv s)
include h

theorem Inv.setParent {parent : Nat} (hpc : s.procs t = .assigning xid parent) :
    Inv ({ s with log := setParent s.log xid parent }.setPc t .running) := by
  obtain ⟨hl, hlt, htop, hne, hlog⟩ := h.own hpc
  have hset : Csn.setParent s.log xid parent = update s.log xid (.subtrans parent) := by
    simp only [Csn.setParent, hlog]
  rw [hset]
  refine h.write hpc rfl ⟨hlt, htop⟩ (fun _ => rfl) (Live.setEntry_of_ne hl hne) (.inl rfl)
    nofun fun y hyx hold hy htopy hact => ?_
  rcases h.active y hold hy hact with hly | ⟨p, hp⟩
  · exact ⟨((h.pcs y).live hly).top.symm.trans htopy, rfl⟩
  · rw [htopy, hpc] at hp
    cases hp
    exact absurd rfl hyx

theorem Inv.procStep (hs : procStep s t = some s') : Inv s' := by
  unfold CsnOldest.procStep at hs
  split at hs
  · cases hs
  · cases hs
  · cases hs
  · next xid parent hpc =>
    cases hs
    exact h.setParent hpc
  · next subxids hpc =>
    have hok := h.own hpc
    cases hs
    refine h.stampTop hpc rfl ⟨?_, hok.2⟩ (.inl rfl)
    exact { hok.1 with active := by simp only [State.setEntry, update_self, Entry.isActive] }
  · next subxids hpc =>
    have hok := h.own hpc
    cases hs
    exact h.move (by rw [hpc]; rfl) s.log (s.nextCsn + 1) (fun _ => .inl rfl) (fun _ hx => hx)
      (ownSubxids_setCsnOrder ⟨hok.1.1, hok.1.2, hok.1.3, hok.1.4⟩ rfl hok.2) (.inl rfl)
      fun _ hx hlt htop hact => ⟨h.own_active hpc rfl hx hlt htop hact, rfl⟩
  · cases hs
  · next x csn hpc =>
    obtain ⟨hl, hcsn, subxids, htodo, -⟩ := h.own hpc
    cases hs
    obtain rfl : x = t := by
      have := congrArg getLast? htodo
      simpa using this
    refine h.stampTop hpc rfl ⟨hl.assigned, ?_⟩ (.inr ⟨rfl, hcsn⟩)
    simp only [State.setEntry, update_self]
    exact hcsn
  · next x todo csn hne hpc =>
    obtain ⟨hl, hcsn, subxids, htodo, hsub⟩ := h.own hpc
    cases hs
    rcases cons_eq_append_iff.mp htodo with ⟨-, heq⟩ | ⟨subxids, rfl, rfl⟩
    · exact absurd (cons.inj heq).2.symm hne
    · have hx := hsub x mem_cons_self
      exact h.stampSub hpc rfl rfl hx hcsn ⟨hl.setEntry_of_ne hx.2.2, hcsn, subxids, rfl,
        fun z hz => hsub z (mem_cons_of_mem _ hz)⟩
  · next hpc =>
    cases hs
    refine h.setCall (by rw [hpc]; rfl) ⟨h.own hpc, trivial⟩ fun hw => ?_
    rw [hpc] at hw
    exact .inr (.inr hw)
  · next c hpc =>
    cases hs
    exact h.callStep hpc

theorem Inv.step {a : Action} (hok : StepOk s a) (hs : step s a = some s') : Inv s' := by
  cases a with
  | begin =>
    cases hs
    have hnone := (h.pcs s.nextXid).eq_none (le_refl _)
    refine h.newXid ⟨Nat.lt_succ_self _, ?_, h.le_next, ?_⟩ rfl (by rw [hnone]; simp) (.inl rfl)
    · simp only [State.newXid, update_self]
    · simp only [State.newXid, update_self, Entry.isActive]
  | assignSub t parent =>
    obtain ⟨hg, rfl⟩ := ite_some_none_eq_some.mp hs
    have hl : Live s t := h.own hg.1
    refine h.newXid ⟨hl.newXid_of_live _, Nat.lt_succ_self _, ?_, hl.assigned.ne', ?_⟩
      rfl (by rw [hg.1]; simp) (.inr ⟨by rw [hg.1]; rfl, parent, rfl⟩)
    · simp only [State.newXid, update_self]
    · simp only [State.newXid, update_self]
  | abortSub t x =>
    obtain ⟨⟨hpc, hx⟩, rfl⟩ := ite_some_none_eq_some.mp hs
    have hl : Live s t := h.own hpc
    have hself : s.setEntry x .aborted = (s.setEntry x .aborted).setPc t .running := by
      simp only [State.setPc, State.setEntry, ← hpc, update_eq_self]
    rw [hself]
    exact h.stampSub hpc rfl rfl hx rfl (hl.setEntry_of_ne hx.2.2)
  | prepare t subxids =>
    obtain ⟨hg, rfl⟩ := ite_some_none_eq_some.mp hs
    exact h.setPc hg.1 rfl rfl ⟨h.own hg.1, hg.2.2⟩
  | commit t subxids =>
    obtain ⟨hg, rfl⟩ := ite_some_none_eq_some.mp hs
    have hst := canEnd_steady hg.1
    exact h.setPc rfl hst rfl ⟨(h.pcs t).live hst.isLive, hg.2.2⟩
  | abort t subxids =>
    obtain ⟨hg, rfl⟩ := ite_some_none_eq_some.mp hs
    have hst := canEnd_steady hg.1
    exact h.setPc rfl hst rfl (ownSubxids_setCsnOrder ((h.pcs t).live hst.isLive) rfl hg.2.2)
  | proc t => exact h.procStep hs
  | restart next committed =>
    obtain ⟨hg, rfl⟩ := ite_some_none_eq_some.mp hs
    exact h.restart hg hok

theorem Inv.procStep_oldest (hs : CsnOldest.procStep s t = some s') : s.oldest ≤ s'.oldest := by
  unfold CsnOldest.procStep at hs
  split at hs
  case h_11 c hpc =>
    cases hs
    cases c with
    | swap old xid =>
      simp only [CsnOldest.callStep]
      split
      · next heq =>
        exact heq ▸ (h.own hpc).2.1.le
      · exact le_refl _
    | _ => exact le_refl _
  all_goals cases hs
  all_goals exact le_refl _

theorem Inv.restart_oldest (hok : RestartOk s next committed) :
    s.oldest ≤ s.oldestPrepared next := by
  rcases oldestPrepared_cases s next with heq | ⟨-, hp⟩
  · rw [heq]
    exact hok.1
  · exact ((h.pcs _).live (isLive_of_isPrepared hp)).oldest

theorem Inv.oldest_mono {a : Action} (hok : StepOk s a)
    (hs : CsnOldest.step s a = some s') : s.oldest ≤ s'.oldest := by
  cases a with
  | begin =>
    cases hs
    exact le_refl _
  | proc t => exact h.procStep_oldest hs
  | restart next committed =>
    obtain ⟨-, rfl⟩ := ite_some_none_eq_some.mp hs
    exact h.restart_oldest hok
  | _ =>
    obtain ⟨-, rfl⟩ := ite_some_none_eq_some.mp hs
    exact le_refl _

end

/-- The value is safe, exact and never lowered in every run where each restart
finds only committed ids and those of prepared transactions in its range. -/
theorem oldestOk_of_meets (xid : Nat) (as : List Action) (s : State)
    (hm : Meets step StepOk (State.init xid) as) (hs : exec step (State.init xid) as = some s) :
    OldestOk s ∧ ∀ a s', StepOk s a → step s a = some s' → s.oldest ≤ s'.oldest := by
  have h : Inv s := exec_invariant_of_meets (fun _ => Inv)
    (fun _ _ _ _ h hok hs => h.step hok hs) (Inv.init xid) hm hs
  exact ⟨h.oldestOk, fun _ _ hok hs => h.oldest_mono hok hs⟩

/-- Transaction 5 with the subtransaction 6 is prepared and 7 committed before
a restart; then 5 is committed. -/
def committedBeforeRestart : List Action :=
  [.begin, .assignSub 5 5, .proc 5, .begin, .prepare 5 [6], .commit 7 [], .proc 7, .proc 7,
    .proc 7, .proc 7, .proc 7, .restart 8 [7], .commit 5 [6], .proc 5, .proc 5, .proc 5, .proc 5,
    .proc 5, .proc 5, .proc 5, .proc 5, .proc 5, .proc 5, .proc 5]

theorem oldestOk_committedBeforeRestart :
    ∃ s, exec step (State.init 5) committedBeforeRestart = some s ∧ s.oldest = 8 ∧ s.nextXid = 8
      ∧ OldestOk s := by
  refine exec_eval (E := fun s => s.oldest = 8 ∧ s.nextXid = 8) (by decide)
    fun s hs ⟨hold, hnext⟩ => ?_
  exact ⟨hold, hnext, (oldestOk_of_meets 5 committedBeforeRestart s (by decide) hs).1⟩

end PolarDB.CsnOldest
