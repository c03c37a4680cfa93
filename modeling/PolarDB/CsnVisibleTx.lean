import PolarDB.Basic
import PolarDB.CsnVisible

/-!
# What the log says of a transaction

The entries of a transaction tree are fixed by how far its process has come.
An entry is open until it is stamped; an open one belongs to a transaction
that is not over, and what is above an open entry is open, since children are
stamped before their parents. A transaction has drawn a CSN before its first
stamp, and its top-level entry carries the mark from before the draw until the
last stamp.

`TreeOk` says this of one tree. A step of a transaction has to keep it of its
own tree; of the others it changes nothing they rely on (`Keeps`). What the
readers rely on is smaller and only grows (`Grows`).
-/

namespace PolarDB.CsnVisible

open Csn Function List

variable {c : Conf} {s s' : State} {t t' x y : Nat} {pc pc' : TxPc} {todo : List Nat} {e : Entry}
  {csn : Nat}

def isFinal : Entry → Bool
  | .aborted | .frozen | .normal _ => true
  | _ => false

theorem isFinal_of_isCommitted (h : e.isCommitted = true) : isFinal e = true := by
  cases e with
  | frozen => rfl
  | normal n => rfl
  | _ => cases h

theorem isFinal_eq_false_of_isSubtrans (h : e.isSubtrans = true) : isFinal e = false := by
  cases e with
  | subtrans p => rfl
  | _ => cases h

/-! ## A transaction tree -/

structure Live (s : State) (t : Nat) (e : Entry) (d : Option Nat) : Prop where
  tree : s.InTree t t
  log : s.log t = e
  drawn : s.drawn t = d

def Clogged (s : State) (t : Nat) : Prop :=
  ∀ x, s.InTree t x → (s.clog x = true ↔ s.log x ≠ .aborted)

def Unclogged (s : State) (t : Nat) : Prop := ∀ x, s.InTree t x → s.clog x = false

def Over (s : State) (t : Nat) : Prop :=
  ∀ x, s.InTree t x →
    isFinal (s.log x) = true ∧ (s.clog x = true ↔ (s.log x).isCommitted = true)

/-- What is to be stamped, for the id `p`: open entries, in descending order
and with everything open below them. -/
structure Todo (s : State) (t p : Nat) (todo : List Nat) : Prop where
  sorted : todo.Pairwise (· > ·)
  mem : ∀ x ∈ todo, s.InTree t x ∧ isFinal (s.log x) = false
  closed : ∀ x, s.InTree t x → x ≠ t → isFinal (s.log x) = false → s.parent x ∈ todo → x ∈ todo
  last : ∃ subxids, todo = subxids ++ [p]
  cover : p = t → ∀ x, s.InTree t x → isFinal (s.log x) = false → x ∈ todo

def Counted (s : State) (todo : List Nat) : Prop := ∀ x ∈ todo, x ≤ s.latestCompleted

def PcOk (c : Conf) (s : State) (t : Nat) : TxPc → Prop
  | .none => Over s t
  | .running => Live s t .inprogress none ∧ Unclogged s t
  | .assigning x p =>
    Live s t .inprogress none ∧ Unclogged s t ∧ s.InTree t x ∧ x ≠ t ∧ s.log x = .inprogress
      ∧ s.parent x = p
  | .latest subxids =>
    Live s t .inprogress none ∧ Clogged s t ∧ Todo s t t (setCsnOrder t subxids)
  | .marking subxids =>
    Live s t .inprogress none ∧ Clogged s t ∧ Todo s t t (setCsnOrder t subxids)
      ∧ Counted s (setCsnOrder t subxids)
  | .drawing subxids =>
    Live s t .committing none ∧ Clogged s t ∧ Todo s t t (setCsnOrder t subxids)
      ∧ Counted s (setCsnOrder t subxids)
  | .bounding todo csn => Live s t .committing (some csn) ∧ Clogged s t ∧ Todo s t t todo
  | .stamping todo csn =>
    Live s t .committing (some csn) ∧ Clogged s t ∧ Todo s t t todo
      ∧ (c.upperboundEnable = true → ∀ x ∈ todo.head?, csn ≤ s.upperbound (pageNo x))
  | .releasing => s.InTree t t ∧ Over s t
  | .aborting p subxids =>
    Live s t .inprogress none ∧ Unclogged s t ∧ Todo s t p (setCsnOrder p subxids)
  | .abortStamping p todo => Live s t .inprogress none ∧ Unclogged s t ∧ Todo s t p todo

structure TreeOk (c : Conf) (s : State) (t : Nat) (pc : TxPc) : Prop where
  parents : ∀ x, s.InTree t x → x ≠ t → s.parent x < x ∧ s.InTree t (s.parent x)
    ∧ (isFinal (s.log x) = false → isFinal (s.log (s.parent x)) = false)
  subs : ∀ x, s.InTree t x → x ≠ t → isFinal (s.log x) = false →
    s.log x = .subtrans (s.parent x) ∨ s.log x = .inprogress ∧ pc = .assigning x (s.parent x)
  stamped : ∀ x, s.InTree t x → isFinal (s.log x) = true →
    s.log x = .aborted ∨ (s.log x).isCommitted = true ∧ s.drawn t = some (code (s.log x))
  drawn : ∀ n, s.drawn t = some n → frozenCsn ≤ n ∧ n < s.nextCsn
  latest : ∀ x, s.InTree t x → s.drawn t ≠ none → s.log x ≠ .aborted → x ≤ s.latestCompleted
  bound : c.upperboundEnable = true → ∀ x, s.InTree t x → (s.log x).isCommitted = true →
    code (s.log x) ≤ s.upperbound (pageNo x)
  pc : PcOk c s t pc

/-- An open entry below points to its parent, except for the one that is
being assigned. -/
theorem TreeOk.sub_of (h : TreeOk c s t pc) (hno : pc ≠ .assigning x (s.parent x))
    (hx : s.InTree t x) (hne : x ≠ t) (hf : isFinal (s.log x) = false) :
    s.log x = .subtrans (s.parent x) :=
  (h.subs x hx hne hf).resolve_right fun hp => hno hp.2

/-- Before a CSN is drawn nothing is stamped, except for what was aborted. -/
theorem TreeOk.aborted_of_final (h : TreeOk c s t pc) (hd : s.drawn t = none) (hx : s.InTree t x)
    (hf : isFinal (s.log x) = true) : s.log x = .aborted :=
  (h.stamped x hx hf).resolve_right fun hr => nomatch hd.symm.trans hr.2

/-! ## Steps of another transaction -/

structure KeepsLog (s s' : State) (t : Nat) : Prop where
  tree : ∀ x, s'.InTree t x ↔ s.InTree t x
  log : ∀ x, s.InTree t x → s'.log x = s.log x
  parent : ∀ x, s.InTree t x → s'.parent x = s.parent x
  drawn : s'.drawn t = s.drawn t
  latest : s.latestCompleted ≤ s'.latestCompleted
  bound : ∀ p, s.upperbound p ≤ s'.upperbound p
  csn : s.nextCsn ≤ s'.nextCsn

structure Keeps (s s' : State) (t : Nat) : Prop extends KeepsLog s s' t where
  clog : ∀ x, s.InTree t x → s'.clog x = s.clog x

theorem Keeps.refl (s : State) (t : Nat) : Keeps s s t :=
  ⟨⟨fun _ => Iff.rfl, fun _ _ => rfl, fun _ _ => rfl, rfl, le_rfl, fun _ => le_rfl, le_rfl⟩,
    fun _ _ => rfl⟩

theorem Live.keeps {d : Option Nat} (h : Live s t e d) (hk : Keeps s s' t) : Live s' t e d where
  tree := (hk.tree t).mpr h.tree
  log := (hk.log t h.tree).trans h.log
  drawn := hk.drawn.trans h.drawn

theorem Clogged.keeps (h : Clogged s t) (hk : Keeps s s' t) : Clogged s' t := by
  intro x hx
  have hx := (hk.tree x).mp hx
  rw [hk.clog x hx, hk.log x hx]
  exact h x hx

theorem Unclogged.keeps (h : Unclogged s t) (hk : Keeps s s' t) : Unclogged s' t := by
  intro x hx
  have hx := (hk.tree x).mp hx
  rw [hk.clog x hx]
  exact h x hx

theorem Over.keeps (h : Over s t) (hk : Keeps s s' t) : Over s' t := by
  intro x hx
  have hx := (hk.tree x).mp hx
  rw [hk.clog x hx, hk.log x hx]
  exact h x hx

variable {p : Nat}

theorem Todo.congr (h : Todo s t p todo) (htree : ∀ x, s'.InTree t x ↔ s.InTree t x)
    (hlog : ∀ x, s.InTree t x → isFinal (s'.log x) = isFinal (s.log x))
    (hparent : ∀ x, s.InTree t x → s'.parent x = s.parent x) : Todo s' t p todo where
  sorted := h.sorted
  mem x hx := by
    obtain ⟨ht, hf⟩ := h.mem x hx
    exact ⟨(htree x).mpr ht, (hlog x ht).trans hf⟩
  closed x hx hne hf hp := by
    have hx := (htree x).mp hx
    rw [hlog x hx] at hf
    rw [hparent x hx] at hp
    exact h.closed x hx hne hf hp
  last := h.last
  cover hp x hx hf := by
    have hx := (htree x).mp hx
    rw [hlog x hx] at hf
    exact h.cover hp x hx hf

theorem Todo.keeps (h : Todo s t p todo) (hk : Keeps s s' t) : Todo s' t p todo :=
  h.congr hk.tree (fun x hx => congrArg isFinal (hk.log x hx)) hk.parent

theorem Counted.mono (h : Counted s todo) (hl : s.latestCompleted ≤ s'.latestCompleted) :
    Counted s' todo :=
  fun x hx => (h x hx).trans hl

theorem PcOk.keeps (h : PcOk c s t pc) (hk : Keeps s s' t) : PcOk c s' t pc := by
  cases pc with
  | none => exact Over.keeps h hk
  | running => exact ⟨h.1.keeps hk, h.2.keeps hk⟩
  | assigning x p =>
    obtain ⟨hl, hu, ht, hne, hlog, hp⟩ := h
    exact ⟨hl.keeps hk, hu.keeps hk, (hk.tree x).mpr ht, hne, (hk.log x ht).trans hlog,
      (hk.parent x ht).trans hp⟩
  | latest subxids | bounding todo csn | aborting p subxids
  | abortStamping p todo => exact ⟨h.1.keeps hk, h.2.1.keeps hk, h.2.2.keeps hk⟩
  | marking subxids | drawing subxids =>
    exact ⟨h.1.keeps hk, h.2.1.keeps hk, h.2.2.1.keeps hk, h.2.2.2.mono hk.latest⟩
  | stamping todo csn =>
    exact ⟨h.1.keeps hk, h.2.1.keeps hk, h.2.2.1.keeps hk,
      fun he x hx => (h.2.2.2 he x hx).trans (hk.bound _)⟩
  | releasing => exact ⟨(hk.tree t).mpr h.1, h.2.keeps hk⟩

theorem TreeOk.recast (h : TreeOk c s t pc) (hk : KeepsLog s s' t)
    (hno : pc' = pc ∨ ∀ x p, pc ≠ .assigning x p) (hpc : PcOk c s' t pc') : TreeOk c s' t pc' where
  parents x hx hne := by
    have hx := (hk.tree x).mp hx
    obtain ⟨hlt, ht, hopen⟩ := h.parents x hx hne
    rw [hk.parent x hx, hk.log x hx, hk.log _ ht]
    exact ⟨hlt, (hk.tree _).mpr ht, hopen⟩
  subs x hx hne := by
    have hx := (hk.tree x).mp hx
    rw [hk.parent x hx, hk.log x hx]
    rcases hno with rfl | hno
    · exact h.subs x hx hne
    · exact fun hf => .inl (h.sub_of (hno _ _) hx hne hf)
  stamped x hx := by
    have hx := (hk.tree x).mp hx
    rw [hk.log x hx, hk.drawn]
    exact h.stamped x hx
  drawn n hn := by
    rw [hk.drawn] at hn
    exact ⟨(h.drawn n hn).1, (h.drawn n hn).2.trans_le hk.csn⟩
  latest x hx hd hlog := by
    have hx := (hk.tree x).mp hx
    rw [hk.drawn] at hd
    rw [hk.log x hx] at hlog
    exact (h.latest x hx hd hlog).trans hk.latest
  bound he x hx hc := by
    have hx := (hk.tree x).mp hx
    rw [hk.log x hx] at hc ⊢
    exact (h.bound he x hx hc).trans (hk.bound _)
  pc := hpc

theorem TreeOk.keeps (h : TreeOk c s t pc) (hk : Keeps s s' t) : TreeOk c s' t pc :=
  h.recast hk.toKeepsLog (.inl rfl) (h.pc.keeps hk)

/-! ## The invariant -/

structure TxInv (c : Conf) (s : State) : Prop where
  special : firstNormalXid ≤ s.nextXid ∧ ∀ x < firstNormalXid, s.log x = specialEntry x
  tops : ∀ x < s.nextXid, s.top x ≤ x ∧ s.top (s.top x) = s.top x
  fresh : ∀ x, s.nextXid ≤ x →
    s.top x = x ∧ s.log x = .inprogress ∧ s.drawn x = none ∧ s.txs x = .none ∧ s.clog x = false
  csn : firstNormal ≤ s.nextCsn
  latest : s.latestCompleted < s.nextXid
  oldest : s.oldest ≤ s.nextXid ∧ ∀ x < s.oldest, (s.txs (s.top x)).isOver = true
  trees : ∀ t, TreeOk c s t (s.txs t)

theorem TxInv.pcOk (h : TxInv c s) (hpc : s.txs t = pc) : PcOk c s t pc :=
  hpc ▸ (h.trees t).pc

def Before (s : State) (csn x : Nat) : Prop := ∃ n, s.drawn (s.top x) = some n ∧ n < csn

def Marked (s : State) (x : Nat) : Prop :=
  s.log (s.top x) = .committing ∨ (s.txs (s.top x)).isOver = true

structure Grows (s s' : State) : Prop where
  next : s.nextXid ≤ s'.nextXid
  csn : s.nextCsn ≤ s'.nextCsn
  oldest : s.oldest ≤ s'.oldest
  parent : ∀ x < s.nextXid, s'.parent x = s.parent x
  top : ∀ x < s.nextXid, s'.top x = s.top x
  final : ∀ x, isFinal (s.log x) = true → s'.log x = s.log x
  before : ∀ n x, n ≤ s.nextCsn → (Before s' n x ↔ Before s n x)
  unaborted : ∀ x, s.drawn (s.top x) ≠ none → s'.log x = .aborted → s.log x = .aborted
  marked : ∀ x < s.nextXid, Marked s x → Marked s' x

theorem Grows.refl (s : State) : Grows s s :=
  ⟨le_rfl, le_rfl, le_rfl, fun _ _ => rfl, fun _ _ => rfl, fun _ _ => rfl,
    fun _ _ _ => Iff.rfl, fun _ _ hab => hab, fun _ _ hm => hm⟩

structure Silent (s s' : State) : Prop where
  readers : s'.readers = s.readers
  history : s'.history = s.history

theorem TxInv.init (c : Conf) (xids csns : Nat) (committed : Nat → Bool) :
    TxInv c (State.init xids csns committed) := by
  have hold : ∀ x < firstNormalXid + xids, (State.init xids csns committed).log x = .frozen
        ∧ (State.init xids csns committed).drawn x = some frozenCsn
        ∧ (State.init xids csns committed).clog x = true
      ∨ (State.init xids csns committed).log x = .aborted
        ∧ (State.init xids csns committed).clog x = false := by
    intro x hx
    cases hw : wasCommitted committed x <;> simp [State.init, hx, hw]
  refine ⟨⟨Nat.le_add_right _ _, fun x hx => ?_⟩, fun x _ => ⟨Nat.le_refl x, rfl⟩, fun x hx => ?_,
    Nat.le_add_right _ _, ?_, ⟨le_rfl, fun _ _ => rfl⟩, fun t => ?_⟩
  · have hw : wasCommitted committed x = decide (x ≠ 0) := if_pos hx
    simp only [State.init, if_pos (hx.trans_le (Nat.le_add_right _ _)), hw, specialEntry]
    by_cases hx0 : x = 0 <;> simp [hx0]
  · have hx : firstNormalXid + xids ≤ x := hx
    exact ⟨rfl, if_neg (not_lt.mpr hx), if_neg fun h => not_lt.mpr hx h.1, rfl,
      by simp [State.init, not_lt.mpr hx]⟩
  · exact Nat.sub_lt (Nat.lt_of_lt_of_le (by decide) (Nat.le_add_right firstNormalXid xids))
      (by decide)
  · refine ⟨fun x hx hne => absurd hx.2 hne, fun x hx hne => absurd hx.2 hne, fun x hx _ => ?_,
      fun n hn => ?_, fun x hx _ _ => Nat.le_sub_one_of_lt hx.1, fun _ x hx hc => ?_,
        fun x hx => ?_⟩
    · obtain ⟨hlt, rfl⟩ : x < firstNormalXid + xids ∧ x = t := hx
      rcases hold x hlt with ⟨hlog, hd, -⟩ | ⟨hlog, -⟩
      · rw [hlog, hd]
        exact .inr ⟨rfl, rfl⟩
      · exact .inl hlog
    · obtain ⟨-, rfl⟩ := Option.ite_some_none_eq_some.mp hn
      exact ⟨le_rfl, Nat.lt_of_lt_of_le (by decide) (Nat.le_add_right firstNormal csns)⟩
    · rcases hold x hx.1 with ⟨hlog, -⟩ | ⟨hlog, -⟩
      · rw [hlog]
        exact le_rfl
      · rw [hlog] at hc
        cases hc
    · rcases hold x hx.1 with ⟨hlog, -, hcl⟩ | ⟨hlog, hcl⟩
      · rw [hlog, hcl]
        exact ⟨rfl, iff_of_true rfl rfl⟩
      · rw [hlog, hcl]
        exact ⟨rfl, iff_of_false nofun nofun⟩

/-! ## Steps of a transaction -/

/-- What a step of the transaction `t` may change: entries that are open, the
commit log of its ids, what it has drawn, and the shared counters. -/
structure Moves (s s' : State) (t : Nat) (pc' : TxPc) : Prop where
  tree : s.InTree t t
  next : s'.nextXid = s.nextXid
  top : s'.top = s.top
  parent : s'.parent = s.parent
  oldest : s'.oldest = s.oldest
  txs : s'.txs = update s.txs t pc'
  silent : Silent s s'
  log : ∀ x, s'.log x = s.log x ∨ s.InTree t x ∧ isFinal (s.log x) = false
  clog : ∀ x, s'.clog x = s.clog x ∨ s.InTree t x
  latest : s.latestCompleted ≤ s'.latestCompleted ∧ s'.latestCompleted < s.nextXid
  bound : ∀ p, s.upperbound p ≤ s'.upperbound p
  csn : s.nextCsn ≤ s'.nextCsn
  drawn : s'.drawn = s.drawn ∨ s.drawn t = none ∧
    ∃ n, s.nextCsn ≤ n ∧ s'.drawn = update s.drawn t (some n)
  unaborted : s.drawn t ≠ none → ∀ x, s'.log x = .aborted → s.log x = .aborted
  stays : (s.txs t).isOver = true → pc'.isOver = true
  mark : s.log t = .committing → s'.log t = .committing ∨ pc'.isOver = true

namespace Moves

variable (hm : Moves s s' t pc')
include hm

theorem inTree : s'.InTree t' x ↔ s.InTree t' x := by
  rw [State.InTree, State.InTree, hm.next, hm.top]

theorem drawn_of_ne (ht : t' ≠ t) : s'.drawn t' = s.drawn t' := by
  rcases hm.drawn with heq | ⟨-, n, -, heq⟩
  · rw [heq]
  · rw [heq, update_of_ne ht]

theorem keeps (ht : t' ≠ t) : Keeps s s' t' where
  tree _ := hm.inTree
  log x hx := (hm.log x).resolve_right fun h => ht (hx.2.symm.trans h.1.2)
  clog x hx := (hm.clog x).resolve_right fun h => ht (hx.2.symm.trans h.2)
  parent x _ := by rw [hm.parent]
  drawn := hm.drawn_of_ne ht
  latest := hm.latest.1
  bound := hm.bound
  csn := hm.csn

theorem before (n x : Nat) (hn : n ≤ s.nextCsn) : Before s' n x ↔ Before s n x := by
  unfold Before
  rw [hm.top]
  rcases hm.drawn with heq | ⟨hnone, m, hle, heq⟩
  · rw [heq]
  · rw [heq]
    by_cases ht : s.top x = t
    · rw [ht, update_self, hnone]
      constructor
      · rintro ⟨n', hn', hlt⟩
        cases hn'
        omega
      · rintro ⟨n', hn', -⟩
        cases hn'
    · rw [update_of_ne ht]

theorem isOver_top (h : (s.txs (s.top x)).isOver = true) : (s'.txs (s.top x)).isOver = true := by
  rw [hm.txs, update_apply]
  split
  · next ht => exact hm.stays (ht ▸ h)
  · exact h

theorem grows (h : TxInv c s) : Grows s s' where
  next := hm.next.symm.le
  csn := hm.csn
  oldest := hm.oldest.symm.le
  parent x _ := by rw [hm.parent]
  top x _ := by rw [hm.top]
  final x hx := (hm.log x).resolve_right fun hr => by
    rw [hr.2] at hx
    cases hx
  before := hm.before
  unaborted x hd hlog := by
    rcases hm.log x with heq | ⟨⟨-, htop⟩, -⟩
    · rwa [← heq]
    · exact hm.unaborted (htop ▸ hd) x hlog
  marked x hx hmk := by
    rw [Marked, hm.top]
    rcases hmk with hlog | hover
    · by_cases ht : s.top x = t
      · rw [ht] at hlog ⊢
        rcases hm.mark hlog with hlog' | hover
        · exact .inl hlog'
        · exact .inr (by rw [hm.txs, update_self]; exact hover)
      · refine .inl ?_
        rw [← hlog]
        refine (hm.log _).resolve_right fun hr => ht ?_
        exact ((h.tops x hx).2.symm.trans hr.1.2)
    · exact .inr (hm.isOver_top hover)

theorem txInv (h : TxInv c s) (hown : TreeOk c s' t pc') : TxInv c s' where
  special := by
    refine ⟨hm.next ▸ h.special.1, fun x hx => ?_⟩
    rw [← h.special.2 x hx]
    refine (hm.grows h).final x ?_
    rw [h.special.2 x hx, specialEntry]
    split <;> rfl
  tops x hx := by
    rw [hm.top]
    exact h.tops x (hm.next ▸ hx)
  fresh x hx := by
    rw [hm.next] at hx
    have hne : x ≠ t := fun hxt => not_lt.mpr hx (hxt ▸ hm.tree.1)
    obtain ⟨htop, hlog, hd, htx, hcl⟩ := h.fresh x hx
    refine ⟨by rw [hm.top]; exact htop, ?_, by rw [hm.drawn_of_ne hne]; exact hd, ?_, ?_⟩
    · rw [← hlog]
      exact (hm.log x).resolve_right fun hr => not_lt.mpr hx hr.1.1
    · rwa [hm.txs, update_of_ne hne]
    · rw [← hcl]
      exact (hm.clog x).resolve_right fun hr => not_lt.mpr hx hr.1
  csn := h.csn.trans hm.csn
  latest := hm.next ▸ hm.latest.2
  oldest := by
    rw [hm.oldest, hm.next, hm.top]
    exact ⟨h.oldest.1, fun x hx => hm.isOver_top (h.oldest.2 x hx)⟩
  trees := by
    rw [hm.txs]
    exact (forall_update_iff s.txs (TreeOk c s')).mpr
      ⟨hown, fun t' ht => (h.trees t').keeps (hm.keeps ht)⟩

end Moves

/-! ## What is to be stamped -/

theorem lt_of_inTree (h : TxInv c s) (hx : s.InTree t x) (hne : x ≠ t) : t < x := by
  have := (h.tops x hx.1).1
  rw [hx.2] at this
  omega

variable {subxids : List Nat}

theorem setCsnOrder_pairwise (hsorted : subxids.Pairwise (· < ·))
    (hlt : ∀ x ∈ subxids, p < x) : (setCsnOrder p subxids).Pairwise (· > ·) := by
  rw [setCsnOrder_eq]
  exact pairwise_snoc (pairwise_reverse.mpr hsorted) fun x hx => hlt x (mem_reverse.mp hx)

theorem mem_setCsnOrder : x ∈ setCsnOrder p subxids ↔ x = p ∨ x ∈ subxids := by
  simp [setCsnOrder_eq, or_comm]

theorem todo_of_subxids (hp : s.InTree t p) (hopen : isFinal (s.log p) = false)
    (hsorted : subxids.Pairwise (· < ·))
    (hmem : ∀ x ∈ subxids, s.InTree t x ∧ p < x ∧ (s.log x).isSubtrans = true)
    (hclosed : ∀ x, s.InTree t x → x ≠ t → isFinal (s.log x) = false →
      s.parent x = p ∨ s.parent x ∈ subxids → x = p ∨ x ∈ subxids)
    (hcover : p = t → ∀ x, s.InTree t x → isFinal (s.log x) = false → x = p ∨ x ∈ subxids) :
    Todo s t p (setCsnOrder p subxids) where
  sorted := setCsnOrder_pairwise hsorted fun x hx => (hmem x hx).2.1
  mem x hx := by
    rcases mem_setCsnOrder.mp hx with rfl | hx
    · exact ⟨hp, hopen⟩
    · obtain ⟨hin, -, hsub⟩ := hmem x hx
      exact ⟨hin, isFinal_eq_false_of_isSubtrans hsub⟩
  closed x hx hne hf hpar := mem_setCsnOrder.mpr (hclosed x hx hne hf (mem_setCsnOrder.mp hpar))
  last := ⟨_, setCsnOrder_eq p subxids⟩
  cover heq x hx hf := mem_setCsnOrder.mpr (hcover heq x hx hf)

theorem todo_of_allSubxids (h : TxInv c s) (ht : s.InTree t t)
    (hopen : isFinal (s.log t) = false) (hs : s.AllSubxids t subxids) :
    Todo s t t (setCsnOrder t subxids) := by
  obtain ⟨hsorted, hmem, hall⟩ := hs
  have hcover : ∀ x, s.InTree t x → isFinal (s.log x) = false → x = t ∨ x ∈ subxids := by
    intro x hx hf
    rcases hall x hx.1 hx.2 with heq | hin | hab
    · exact .inl heq
    · exact .inr hin
    · rw [hab] at hf
      cases hf
  exact todo_of_subxids ht hopen hsorted
    (fun x hx => ⟨(hmem x hx).1, lt_of_inTree h (hmem x hx).1 (hmem x hx).2.1, (hmem x hx).2.2⟩)
    (fun x hx _ hf _ => hcover x hx hf) fun _ => hcover

theorem todo_of_subxidsBelow (hp : s.InTree t p) (hpt : p ≠ t)
    (hsub : (s.log p).isSubtrans = true) (hs : s.SubxidsBelow t p subxids)
    (hsubs : ∀ x, s.InTree t x → x ≠ t → isFinal (s.log x) = false → (s.log x).isSubtrans = true) :
    Todo s t p (setCsnOrder p subxids) :=
  todo_of_subxids hp (isFinal_eq_false_of_isSubtrans hsub) hs.1 hs.2.1
    (fun x hx hne hf hpar => .inr (hs.2.2 x hx.1 ⟨hx.2, hsubs x hx hne hf, hpar⟩))
    fun heq => absurd heq hpt

theorem latestOf_spec (h : TxInv c s) (hs : Todo s t p (setCsnOrder p subxids)) :
    (s.latestCompleted ≤ max s.latestCompleted (latestOf p subxids)
      ∧ max s.latestCompleted (latestOf p subxids) < s.nextXid)
    ∧ ∀ x ∈ setCsnOrder p subxids, x ≤ max s.latestCompleted (latestOf p subxids) := by
  obtain ⟨hmem, hle⟩ := max?_eq_some_iff.mp
    (show (p :: subxids).max? = some (latestOf p subxids) from rfl)
  refine ⟨⟨Nat.le_max_left _ _, Nat.max_lt.mpr ⟨h.latest, ?_⟩⟩, fun x hx => ?_⟩
  · exact (hs.mem _ (mem_setCsnOrder.mpr (mem_cons.mp hmem))).1.1
  · exact (hle x (mem_cons.mpr (mem_setCsnOrder.mp hx))).trans (Nat.le_max_right _ _)

/-! ## Stamping an entry -/

theorem Todo.no_child (h : Todo s t p (x :: todo)) (hy : s.InTree t y) (hne : y ≠ t)
    (hlt : s.parent y < y) (hf : isFinal (s.log y) = false) : s.parent y ≠ x := by
  rintro rfl
  rcases mem_cons.mp (h.closed y hy hne hf mem_cons_self) with heq | hin
  · omega
  · have : y < s.parent y := rel_of_pairwise_cons h.sorted hin
    omega

theorem Todo.head_ne (ht : Todo s t p (x :: todo)) (h : TxInv c s) (hne : todo ≠ []) : x ≠ t := by
  rintro rfl
  obtain ⟨y, hy⟩ := exists_mem_of_ne_nil todo hne
  have hlt : y < x := rel_of_pairwise_cons ht.sorted hy
  have hin := (ht.mem y (mem_cons_of_mem _ hy)).1
  have := lt_of_inTree h hin hlt.ne
  omega

theorem open_of_setEntry (he : isFinal e = true)
    (hy : isFinal ((s.setEntry x e).log y) = false) : y ≠ x ∧ isFinal (s.log y) = false := by
  by_cases hyx : y = x
  · rw [hyx, State.setEntry_self, he] at hy
    cases hy
  · rw [State.setEntry_of_ne hyx] at hy
    exact ⟨hyx, hy⟩

theorem Todo.tail (h : Todo s t p (x :: todo)) (hne : todo ≠ []) (he : isFinal e = true) :
    Todo (s.setEntry x e) t p todo := by
  have hlt : ∀ y ∈ todo, y < x := fun y hy => rel_of_pairwise_cons h.sorted hy
  refine ⟨h.sorted.of_cons, fun y hy => ?_, fun y hy hyt hf hp => ?_, ?_, fun hp y hy hf => ?_⟩
  · obtain ⟨hin, hf⟩ := h.mem y (mem_cons_of_mem _ hy)
    refine ⟨hin, ?_⟩
    rwa [State.setEntry_of_ne (hlt y hy).ne]
  · obtain ⟨hyx, hf⟩ := open_of_setEntry he hf
    exact (mem_cons.mp (h.closed y hy hyt hf (mem_cons_of_mem _ hp))).resolve_left hyx
  · obtain ⟨l, hl⟩ := h.last
    rcases cons_eq_append_iff.mp hl with ⟨-, hl⟩ | ⟨l, -, hl⟩
    · exact absurd (cons.inj hl).2.symm hne
    · exact ⟨l, hl⟩
  · obtain ⟨hyx, hf⟩ := open_of_setEntry he hf
    exact (mem_cons.mp (h.cover hp y hy hf)).resolve_left hyx

theorem Live.setEntry {e' : Entry} {d : Option Nat} (hl : Live s t e' d) (hxt : x ≠ t) :
    Live ((s.setEntry x e).setTx t pc') t e' d :=
  ⟨hl.tree, (State.setEntry_of_ne hxt.symm _).trans hl.log, hl.drawn⟩

theorem Clogged.setEntry (h : Clogged s t) (hopen : isFinal (s.log x) = false) (he : e ≠ .aborted) :
    Clogged ((s.setEntry x e).setTx t pc') t := by
  intro y hy
  refine (h y hy).trans ?_
  by_cases hyx : y = x
  · subst hyx
    have hab : s.log y ≠ .aborted := by
      intro hab
      rw [hab] at hopen
      cases hopen
    simp only [State.setTx, State.setEntry_self]
    exact iff_of_true hab he
  · simp only [State.setTx, State.setEntry_of_ne hyx]

theorem setEntry_isFinal (he : isFinal e = isFinal (s.log x)) (y : Nat) :
    isFinal ((s.setEntry x e).log y) = isFinal (s.log y) := by
  by_cases hy : y = x
  · rw [hy, State.setEntry_self, he]
  · rw [State.setEntry_of_ne hy]

/-- An open entry is replaced by an open one, before a CSN is drawn. -/
theorem TreeOk.reopen (h : TreeOk c s t pc) (hd : s.drawn t = none)
    (hopen : isFinal (s.log x) = false) (he : isFinal e = false)
    (hsubs : ∀ y, s.InTree t y → y ≠ t → isFinal (s.log y) = false →
      (s.setEntry x e).log y = .subtrans (s.parent y))
    (hpc : PcOk c ((s.setEntry x e).setTx t pc') t pc') :
    TreeOk c ((s.setEntry x e).setTx t pc') t pc' := by
  have hfinal := setEntry_isFinal (he.trans hopen.symm)
  have hsame : ∀ y, isFinal (s.log y) = true → (s.setEntry x e).log y = s.log y := by
    intro y hy
    refine State.setEntry_of_ne ?_ e
    rintro rfl
    rw [hopen] at hy
    cases hy
  refine ⟨fun y hy hyt => ?_, fun y hy hyt hf => .inl (hsubs y hy hyt ((hfinal y).symm.trans hf)),
    fun y hy hf => ?_, h.drawn, fun y _ hdr => absurd hd hdr, fun hen y hy hc => ?_, hpc⟩
  · obtain ⟨hlt, hin, himp⟩ := h.parents y hy hyt
    exact ⟨hlt, hin, fun hf => (hfinal _).trans (himp ((hfinal y).symm.trans hf))⟩
  · have hf := (hfinal y).symm.trans hf
    simp only [State.setTx, hsame y hf]
    exact h.stamped y hy hf
  · have hlog := hsame y ((hfinal y).symm.trans (isFinal_of_isCommitted hc))
    simp only [State.setTx, hlog] at hc ⊢
    exact h.bound hen y hy hc

theorem TreeOk.stamp (h : TreeOk c s t pc) (hno : ∀ y p, pc ≠ .assigning y p)
    (ht : Todo s t p (x :: todo))
    (he : e = .aborted ∨ e.isCommitted = true ∧ s.drawn t = some (code e)
      ∧ (c.upperboundEnable = true → code e ≤ s.upperbound (pageNo x)))
    (hpc : PcOk c ((s.setEntry x e).setTx t pc') t pc') :
    TreeOk c ((s.setEntry x e).setTx t pc') t pc' := by
  have hfinal : isFinal e = true := by
    rcases he with rfl | ⟨hc, -⟩
    · rfl
    · exact isFinal_of_isCommitted hc
  have hself : ((s.setEntry x e).setTx t pc').log x = e := update_self ..
  have hother : ∀ y, y ≠ x → ((s.setEntry x e).setTx t pc').log y = s.log y :=
    fun y hy => update_of_ne hy _ _
  refine ⟨fun y hy hyt => ?_, fun y hy hyt hf => ?_, fun y hy hf => ?_, h.drawn,
    fun y hy hd hl => ?_, fun hen y hy hc => ?_, hpc⟩
  · obtain ⟨hlt, hin, hopen⟩ := h.parents y hy hyt
    refine ⟨hlt, hin, fun hf => ?_⟩
    have hf := (open_of_setEntry hfinal hf).2
    have hpar := hother _ (ht.no_child hy hyt hlt hf)
    exact (congrArg isFinal hpar).trans (hopen hf)
  · obtain ⟨hyx, hf⟩ := open_of_setEntry hfinal hf
    rw [hother y hyx]
    exact .inl (h.sub_of (hno _ _) hy hyt hf)
  · by_cases hyx : y = x
    · rw [hyx, hself]
      exact he.imp_right fun hc => ⟨hc.1, hc.2.1⟩
    · rw [hother y hyx] at hf ⊢
      exact h.stamped y hy hf
  · by_cases hyx : y = x
    · have hopen := (ht.mem x mem_cons_self).2
      refine h.latest y hy hd fun hab => ?_
      rw [← hyx, hab] at hopen
      cases hopen
    · rw [hother y hyx] at hl
      exact h.latest y hy hd hl
  · by_cases hyx : y = x
    · rw [hyx, hself] at hc ⊢
      rcases he with rfl | hcm
      · cases hc
      · exact hcm.2.2 hen
    · rw [hother y hyx] at hc ⊢
      exact h.bound hen y hy hc

/-! ## The steps one by one -/

def Good (c : Conf) (s s' : State) : Prop := TxInv c s' ∧ Grows s s' ∧ Silent s s'

theorem Moves.good (hm : Moves s s' t pc') (h : TxInv c s) (hown : TreeOk c s' t pc') :
    Good c s s' :=
  ⟨hm.txInv h hown, hm.grows h, hm.silent⟩

section

variable (h : TxInv c s) (hpc0 : s.txs t = pc) (ht : s.InTree t t)
  (hover : pc.isOver = true → pc'.isOver = true)
include h hpc0 ht hover

theorem good_counters (clog : Nat → Bool) (latest : Nat) (bound : Nat → Nat)
    (hno : ∀ x p, pc ≠ .assigning x p)
    (hclog : ∀ x, clog x = s.clog x ∨ s.InTree t x)
    (hlatest : s.latestCompleted ≤ latest ∧ latest < s.nextXid)
    (hbound : ∀ p, s.upperbound p ≤ bound p)
    (hpc : PcOk c ({ s with
      clog := clog, latestCompleted := latest, upperbound := bound }.setTx t pc') t pc') :
    Good c s ({ s with
      clog := clog, latestCompleted := latest, upperbound := bound }.setTx t pc') := by
  have hm : Moves s ({ s with
      clog := clog, latestCompleted := latest, upperbound := bound }.setTx t pc') t pc' :=
    ⟨ht, rfl, rfl, rfl, rfl, rfl, ⟨rfl, rfl⟩, fun _ => .inl rfl, hclog, hlatest, hbound,
      le_rfl, .inl rfl, fun _ _ h => h, hpc0 ▸ hover, fun h => .inl h⟩
  exact hm.good h ((h.trees t).recast { Keeps.refl s t with latest := hlatest.1, bound := hbound }
    (.inr (hpc0 ▸ hno)) hpc)

theorem good_setEntry
    (hx : s.InTree t x ∧ isFinal (s.log x) = false) (hun : s.drawn t ≠ none → e ≠ .aborted)
    (hmark : s.log t = .committing → x ≠ t ∨ pc'.isOver = true)
    (hown : TreeOk c ((s.setEntry x e).setTx t pc') t pc') :
    Good c s ((s.setEntry x e).setTx t pc') := by
  refine Moves.good ⟨ht, rfl, rfl, rfl, rfl, rfl, ⟨rfl, rfl⟩, fun y => ?_, fun _ => .inl rfl,
    ⟨le_rfl, h.latest⟩, fun _ => le_rfl, le_rfl, .inl rfl, fun hd y hy => ?_,
    hpc0 ▸ hover, fun hlog => ?_⟩ h hown
  · by_cases hyx : y = x
    · exact .inr (hyx ▸ hx)
    · exact .inl (State.setEntry_of_ne hyx e)
  · have hy : (s.setEntry x e).log y = .aborted := hy
    by_cases hyx : y = x
    · rw [hyx, State.setEntry_self] at hy
      exact absurd hy (hun hd)
    · rwa [State.setEntry_of_ne hyx] at hy
  · exact (hmark hlog).imp_left fun hxt => (State.setEntry_of_ne hxt.symm e).trans hlog

theorem good_setTx (hno : ∀ x p, pc ≠ .assigning x p) (hpc : PcOk c s t pc') :
    Good c s (s.setTx t pc') := by
  exact good_counters h hpc0 ht hover s.clog s.latestCompleted s.upperbound hno (fun _ => .inl rfl)
    ⟨le_rfl, h.latest⟩ (fun _ => le_rfl) (hpc.keeps { Keeps.refl s t with })

theorem good_latest {latest : Nat} (hno : ∀ x p, pc ≠ .assigning x p)
    (hlatest : s.latestCompleted ≤ latest ∧ latest < s.nextXid)
    (hpc : PcOk c ({ s with latestCompleted := latest }.setTx t pc') t pc') :
    Good c s ({ s with latestCompleted := latest }.setTx t pc') :=
  good_counters h hpc0 ht hover s.clog latest s.upperbound hno (fun _ => .inl rfl) hlatest
    (fun _ => le_rfl) hpc

end

theorem good_startCommit (h : TxInv c s) (hpc : s.txs t = .running)
    (hs : s.AllSubxids t subxids) : Good c s (s.startCommit t subxids) := by
  obtain ⟨hl, hun⟩ := h.pcOk hpc
  have hopen : isFinal (s.log t) = false := by rw [hl.log]; rfl
  have htodo := todo_of_allSubxids h hl.tree hopen hs
  refine good_counters h hpc hl.tree nofun (fun x => s.clog x || decide (x = t ∨ x ∈ subxids))
    s.latestCompleted s.upperbound nofun (fun x => ?_) ⟨le_rfl, h.latest⟩ (fun _ => le_rfl)
      ⟨{ hl with }, fun x hx => ?_, { htodo with }⟩
  · by_cases hx : x = t ∨ x ∈ subxids
    · refine .inr ?_
      rcases hx with rfl | hx
      · exact hl.tree
      · exact (hs.2.1 x hx).1
    · exact .inl (by simp [hx])
  · have hcl : (s.startCommit t subxids).clog x = decide (x = t ∨ x ∈ subxids) := by
      simp [State.startCommit, hun x hx]
    refine (Bool.eq_iff_iff.mp hcl).trans ?_
    rw [decide_eq_true_iff]
    constructor
    · rintro (rfl | hin) hab
      · have hab : s.log x = .aborted := hab
        rw [hl.log] at hab
        cases hab
      · have hsub := (hs.2.1 x hin).2.2
        have hab : s.log x = .aborted := hab
        rw [hab] at hsub
        cases hsub
    · intro hab
      rcases hs.2.2 x hx.1 hx.2 with heq | hin | hab'
      · exact .inl heq
      · exact .inr hin
      · exact absurd hab' hab

theorem good_abort (h : TxInv c s) (hpc : s.txs t = .running)
    (hs : s.AllSubxids t subxids) : Good c s (s.setTx t (.aborting t subxids)) := by
  obtain ⟨hl, hun⟩ := h.pcOk hpc
  refine good_setTx h hpc hl.tree nofun nofun
    ⟨hl, hun, todo_of_allSubxids h hl.tree (by rw [hl.log]; rfl) hs⟩

theorem good_abortSub (h : TxInv c s) (hpc : s.txs t = .running)
    (hx : s.InTree t x) (hxt : x ≠ t) (hsub : (s.log x).isSubtrans = true)
    (hs : s.SubxidsBelow t x subxids) : Good c s (s.setTx t (.aborting x subxids)) := by
  obtain ⟨hl, hun⟩ := h.pcOk hpc
  refine good_setTx h hpc hl.tree nofun nofun
    ⟨hl, hun, todo_of_subxidsBelow hx hxt hsub hs fun y hy hyt hf => ?_⟩
  rw [(h.trees t).sub_of (by rw [hpc]; nofun) hy hyt hf]
  rfl

theorem good_mark (h : TxInv c s) (hpc : s.txs t = .marking subxids) :
    Good c s ((s.setEntry t .committing).setTx t (.drawing subxids)) := by
  have htree := h.trees t
  obtain ⟨hl, hcl, htodo, hcount⟩ := h.pcOk hpc
  have hopen : isFinal (s.log t) = false := by rw [hl.log]; rfl
  refine good_setEntry h hpc hl.tree nofun ⟨hl.tree, hopen⟩ (by simp) (by simp [hl.log])
    (htree.reopen hl.drawn hopen rfl (fun y hy hyt hf => ?_)
      ⟨⟨hl.tree, State.setEntry_self .., hl.drawn⟩, hcl.setEntry hopen (by simp), ?_, hcount⟩)
  · exact (State.setEntry_of_ne hyt _).trans (htree.sub_of (by rw [hpc]; nofun) hy hyt hf)
  · exact htodo.congr (fun _ => Iff.rfl)
      (fun y _ => setEntry_isFinal (e := .committing) hopen.symm y)
      fun _ _ => rfl

theorem good_draw (h : TxInv c s) (hpc : s.txs t = .drawing subxids) : Good c s ({ s with
      nextCsn := s.nextCsn + 1
      drawn := update s.drawn t (some s.nextCsn) }.setTx t
        (.bounding (setCsnOrder t subxids) s.nextCsn)) := by
  have htree := h.trees t
  obtain ⟨hl, hcl, htodo, hcount⟩ := h.pcOk hpc
  have hself : update s.drawn t (some s.nextCsn) t = some s.nextCsn := update_self ..
  have hm : Moves s ({ s with
      nextCsn := s.nextCsn + 1
      drawn := update s.drawn t (some s.nextCsn) }.setTx t
        (.bounding (setCsnOrder t subxids) s.nextCsn)) t
        (.bounding (setCsnOrder t subxids) s.nextCsn) :=
    ⟨hl.tree, rfl, rfl, rfl, rfl, rfl, ⟨rfl, rfl⟩, fun _ => .inl rfl, fun _ => .inl rfl,
      ⟨le_rfl, h.latest⟩, fun _ => le_rfl, Nat.le_succ _,
      .inr ⟨hl.drawn, s.nextCsn, le_rfl, rfl⟩, fun _ _ h => h,
      hpc ▸ nofun, fun h => .inl h⟩
  have hstamped := fun y => htree.aborted_of_final (x := y) hl.drawn
  refine hm.good h ⟨htree.parents, fun y hy hyt hf => ?_, fun y hy hf => .inl (hstamped y hy hf),
    fun n hn => ?_, fun y hy _ hab => ?_, htree.bound, ⟨hl.tree, hl.log, hself⟩, hcl,
    { htodo with }⟩
  · exact .inl (htree.sub_of (by rw [hpc]; nofun) hy hyt hf)
  · have hn : update s.drawn t (some s.nextCsn) t = some n := hn
    rw [hself] at hn
    cases hn
    exact ⟨Nat.le_trans (by decide) h.csn, Nat.lt_succ_self _⟩
  · have hf : isFinal (s.log y) = false := by
      by_contra hf
      exact hab (hstamped y hy (by simpa using hf))
    exact hcount y (htodo.cover rfl y hy hf)

theorem le_raiseUpperbound (c : Conf) (s : State) (x csn p : Nat) :
    s.upperbound p ≤ s.raiseUpperbound c x csn p := by
  unfold State.raiseUpperbound
  split
  · exact le_update_self_iff.mpr (Nat.le_max_left _ _) p
  · exact le_rfl

theorem good_bound (h : TxInv c s) (hpc : s.txs t = .bounding (x :: todo) csn) :
    Good c s ({ s with upperbound := s.raiseUpperbound c x csn }.setTx t
      (.stamping (x :: todo) csn)) := by
  obtain ⟨hl, hcl, htodo⟩ := h.pcOk hpc
  refine good_counters h hpc hl.tree nofun s.clog s.latestCompleted _ nofun
    (fun _ => .inl rfl) ⟨le_rfl, h.latest⟩ (le_raiseUpperbound c s x csn)
    ⟨{ hl with }, hcl, { htodo with }, fun hen y hy => ?_⟩
  obtain rfl : x = y := by simpa using hy
  simp only [State.setTx, State.raiseUpperbound, hen, ↓reduceIte, update_self]
  exact Nat.le_max_right _ _

/-- The commit log of the tree agrees with its entries once all are stamped. -/
theorem over_of_last (hopen : Todo s t p [x]) (hp : p = t)
    (he : isFinal e = true)
    (hcl : ∀ y, s.InTree t y → isFinal (s.log y) = true →
      (s.clog y = true ↔ (s.log y).isCommitted = true))
    (hx : s.clog x = true ↔ e.isCommitted = true) : Over ((s.setEntry x e).setTx t pc') t := by
  intro y hy
  by_cases hyx : y = x
  · subst hyx
    have hself : ((s.setEntry y e).setTx t pc').log y = e := update_self ..
    rw [hself]
    exact ⟨he, hx⟩
  · have hother : ((s.setEntry x e).setTx t pc').log y = s.log y := update_of_ne hyx _ _
    have hf : isFinal (s.log y) = true := by
      by_contra hf
      have hin := hopen.cover hp y hy (by simpa using hf)
      exact hyx (by simpa using hin)
    rw [hother]
    exact ⟨hf, hcl y hy hf⟩

theorem Todo.eq_of_singleton (h : Todo s t p [x]) : x = p := by
  obtain ⟨l, hl⟩ := h.last
  have := congrArg getLast? hl
  simpa using this

section

variable (h : TxInv c s)
include h

theorem good_stamp (hpc : s.txs t = .stamping (x :: todo) csn) (hne : todo ≠ []) :
    Good c s ((s.setEntry x (.normal csn)).setTx t (.bounding todo csn)) := by
  have htree := h.trees t
  obtain ⟨hl, hcl, htodo, hbound⟩ := h.pcOk hpc
  have hxt := htodo.head_ne h hne
  have htail := htodo.tail (e := .normal csn) hne rfl
  exact good_setEntry h hpc hl.tree nofun (htodo.mem x mem_cons_self) (by simp)
    (fun _ => .inl hxt) (htree.stamp (by rw [hpc]; simp) htodo
      (.inr ⟨rfl, hl.drawn, fun hen => hbound hen x rfl⟩)
      ⟨hl.setEntry hxt, hcl.setEntry (htodo.mem x mem_cons_self).2 (by simp), { htail with }⟩)

theorem good_stampLast (hpc : s.txs t = .stamping [x] csn) :
    Good c s ((s.setEntry x (.normal csn)).setTx t .releasing) := by
  have htree := h.trees t
  obtain ⟨hl, hcl, htodo, hbound⟩ := h.pcOk hpc
  obtain rfl := htodo.eq_of_singleton
  refine good_setEntry h hpc hl.tree (fun _ => rfl) (htodo.mem x mem_cons_self) (by simp)
    (fun _ => .inr rfl) (htree.stamp (by rw [hpc]; simp) htodo
      (.inr ⟨rfl, hl.drawn, fun hen => hbound hen x rfl⟩) ⟨hl.tree, ?_⟩)
  refine over_of_last htodo rfl rfl (fun y hy hf => ?_) ?_
  · rw [hcl y hy]
    rcases htree.stamped y hy hf with hab | ⟨hc, -⟩
    · simp [hab, Entry.isCommitted]
    · refine ⟨fun _ => hc, fun _ hab => ?_⟩
      rw [hab] at hc
      cases hc
  · have := (hcl x hl.tree).mpr (by rw [hl.log]; simp)
    simp [this, Entry.isCommitted]

theorem good_abortStamp (hpc : s.txs t = .abortStamping p (x :: todo))
    (hne : todo ≠ []) : Good c s ((s.setEntry x .aborted).setTx t (.abortStamping p todo)) := by
  have htree := h.trees t
  obtain ⟨hl, hun, htodo⟩ := h.pcOk hpc
  have hxt := htodo.head_ne h hne
  have htail := htodo.tail (e := .aborted) hne rfl
  exact good_setEntry h hpc hl.tree nofun (htodo.mem x mem_cons_self)
    (fun hd => absurd hl.drawn hd) (fun _ => .inl hxt)
      (htree.stamp (by rw [hpc]; simp) htodo (.inl rfl)
      ⟨hl.setEntry hxt, hun, { htail with }⟩)

theorem good_abortStampLast (hpc : s.txs t = .abortStamping p [x]) :
    Good c s ((s.setEntry x .aborted).setTx t (if p = t then .none else .running)) := by
  have htree := h.trees t
  obtain ⟨hl, hun, htodo⟩ := h.pcOk hpc
  obtain rfl := htodo.eq_of_singleton
  refine good_setEntry h hpc hl.tree nofun (htodo.mem x mem_cons_self)
    (fun hd => absurd hl.drawn hd) (by simp [hl.log])
      (htree.stamp (by rw [hpc]; simp) htodo (.inl rfl) ?_)
  by_cases hxt : x = t
  · subst hxt
    rw [if_pos rfl]
    refine over_of_last htodo rfl rfl (fun y hy hf => ?_) ?_
    · simp [hun y hy, htree.aborted_of_final hl.drawn hy hf, Entry.isCommitted]
    · simp [hun x hl.tree, Entry.isCommitted]
  · rw [if_neg hxt]
    exact ⟨hl.setEntry hxt, hun⟩

theorem good_setParent (hpc : s.txs t = .assigning x p) :
    Good c s ({ s with log := setParent s.log x p }.setTx t .running) := by
  have htree := h.trees t
  obtain ⟨hl, hun, hx, hxt, hlog, rfl⟩ := h.pcOk hpc
  have hopen : isFinal (s.log x) = false := by rw [hlog]; rfl
  have hset : { s with log := setParent s.log x (s.parent x) } =
      s.setEntry x (.subtrans (s.parent x)) := by
    simp only [setParent, hlog, State.setEntry]
  rw [hset]
  refine good_setEntry h hpc hl.tree nofun ⟨hx, hopen⟩ (by simp) (fun _ => .inl hxt)
    (htree.reopen hl.drawn hopen rfl (fun y hy hyt hf => ?_) ⟨hl.setEntry hxt, hun⟩)
  by_cases hyx : y = x
  · rw [hyx, State.setEntry_self]
  · rw [State.setEntry_of_ne hyx]
    rcases htree.subs y hy hyt hf with hsub | ⟨-, hp⟩
    · exact hsub
    · rw [hpc] at hp
      cases hp
      exact absurd rfl hyx

end

/-! ## New ids -/

theorem inTree_newXid (htp : t' ≠ t) : (s.newXid t p pc').InTree t' x ↔ s.InTree t' x := by
  unfold State.InTree State.newXid
  by_cases hx : x = s.nextXid
  · simp only [hx, update_self]
    exact ⟨fun h => absurd h.2.symm htp, fun h => absurd h.1 (lt_irrefl _)⟩
  · simp only [update_of_ne hx]
    exact and_congr_left fun _ => ⟨fun h => by omega, fun h => by omega⟩

theorem newXid_of_lt (hx : x < s.nextXid) :
    (s.newXid t p pc').log x = s.log x ∧ (s.newXid t p pc').top x = s.top x
      ∧ (s.newXid t p pc').parent x = s.parent x := by
  have hne := hx.ne
  exact ⟨update_of_ne hne _ _, update_of_ne hne _ _, update_of_ne hne _ _⟩

theorem keeps_newXid (htp : t' ≠ t) : Keeps s (s.newXid t p pc') t' :=
  ⟨⟨fun _ => inTree_newXid htp, fun _ hx => (newXid_of_lt hx.1).1,
    fun _ hx => (newXid_of_lt hx.1).2.2, rfl, le_rfl, fun _ => le_rfl, le_rfl⟩, fun _ _ => rfl⟩

section

variable (h : TxInv c s)
include h

theorem good_newXid (hd : s.drawn t = none)
    (ht : t ≤ s.nextXid ∧ (t < s.nextXid → s.top t = t ∧ (s.txs t).isOver = false))
    (hown : TreeOk c (s.newXid t p pc') t pc') : Good c s (s.newXid t p pc') := by
  have hfresh := h.fresh s.nextXid le_rfl
  have htop : ∀ x < s.nextXid, (s.newXid t p pc').top x = s.top x :=
    fun x hx => (newXid_of_lt hx).2.1
  have hself : (s.newXid t p pc').top s.nextXid = t := update_self ..
  have htopt : s.top t = t := by
    rcases Nat.lt_or_eq_of_le ht.1 with hlt | rfl
    · exact (ht.2 hlt).1
    · exact hfresh.1
  have hover : ∀ x < s.nextXid, (s.txs (s.top x)).isOver = true →
      ((s.newXid t p pc').txs (s.top x)).isOver = true := by
    intro x hx hov
    have hne : s.top x ≠ t := by
      intro heq
      have hlt : t < s.nextXid := heq ▸ (h.tops x hx).1.trans_lt hx
      rw [heq, (ht.2 hlt).2] at hov
      cases hov
    simp only [State.newXid, update_of_ne hne]
    exact hov
  refine ⟨⟨⟨Nat.le_succ_of_le h.special.1, fun x hx => ?_⟩, fun x hx => ?_, fun x hx => ?_, h.csn,
    Nat.lt_succ_of_lt h.latest, ⟨Nat.le_succ_of_le h.oldest.1, fun x hx => ?_⟩, ?_⟩, ?_, rfl, rfl⟩
  · rw [(newXid_of_lt (hx.trans_le h.special.1)).1]
    exact h.special.2 x hx
  · by_cases hxn : x = s.nextXid
    · rw [hxn, hself]
      refine ⟨ht.1, ?_⟩
      by_cases htn : t = s.nextXid
      · rw [htn] at hself ⊢
        exact hself
      · rwa [htop t (ht.1.lt_of_ne htn)]
    · have hlt : x < s.nextXid := (Nat.le_of_lt_succ hx).lt_of_ne hxn
      obtain ⟨hle, htt⟩ := h.tops x hlt
      rw [htop x hlt]
      exact ⟨hle, (htop _ (hle.trans_lt hlt)).trans htt⟩
  · have hx : s.nextXid + 1 ≤ x := hx
    have hne : x ≠ s.nextXid := by omega
    have hnt : x ≠ t := by omega
    obtain ⟨h1, h2, h3, h4, h5⟩ := h.fresh x (by omega)
    exact ⟨(update_of_ne hne _ _).trans h1, (update_of_ne hne _ _).trans h2, h3,
      (update_of_ne hnt _ _).trans h4, h5⟩
  · have hlt : x < s.nextXid := hx.trans_le h.oldest.1
    rw [htop x hlt]
    exact hover x hlt (h.oldest.2 x hx)
  · exact (forall_update_iff s.txs (TreeOk c (s.newXid t p pc'))).mpr
      ⟨hown, fun t' ht => (h.trees t').keeps (keeps_newXid ht)⟩
  · refine ⟨Nat.le_succ _, le_rfl, le_rfl, fun x hx => (newXid_of_lt hx).2.2,
      htop, fun x hx => ?_, fun n x _ => ?_, fun x _ hab => ?_, fun x hx hmk => ?_⟩
    · refine update_of_ne ?_ _ _
      rintro rfl
      rw [hfresh.2.1] at hx
      cases hx
    · by_cases hxn : x = s.nextXid
      · unfold Before
        rw [hxn, hself, hfresh.1, hfresh.2.2.1]
        have hd' : (s.newXid t p pc').drawn t = none := hd
        rw [hd']
      · unfold Before
        have : (s.newXid t p pc').top x = s.top x := update_of_ne hxn _ _
        rw [this]
        exact Iff.rfl
    · by_cases hxn : x = s.nextXid
      · rw [hxn] at hab
        have : (s.newXid t p pc').log s.nextXid = .inprogress := update_self ..
        rw [this] at hab
        cases hab
      · have : (s.newXid t p pc').log x = s.log x := update_of_ne hxn _ _
        rwa [← this]
    · have hlt := (h.tops x hx).1.trans_lt hx
      unfold Marked
      rw [htop x hx, (newXid_of_lt hlt).1]
      exact hmk.imp_right (hover x hx)

theorem good_begin : Good c s (s.newXid s.nextXid s.nextXid .running) := by
  obtain ⟨-, -, hd, -, hcl⟩ := h.fresh s.nextXid le_rfl
  have hin : ∀ x, (s.newXid s.nextXid s.nextXid .running).InTree s.nextXid x → x = s.nextXid := by
    rintro x ⟨hx, hxt⟩
    by_contra hne
    have hlt : x < s.nextXid := (Nat.le_of_lt_succ hx).lt_of_ne hne
    rw [(newXid_of_lt hlt).2.1] at hxt
    have := (h.tops x hlt).1
    omega
  have hlog : (s.newXid s.nextXid s.nextXid .running).log s.nextXid = .inprogress := update_self ..
  refine good_newXid h hd ⟨le_rfl, fun hlt => absurd hlt (lt_irrefl _)⟩
    ⟨fun x hx hne => absurd (hin x hx) hne,
      fun x hx hne => absurd (hin x hx) hne, fun x hx hf => ?_, fun n hn => ?_,
      fun x _ hdr => absurd hd hdr, fun _ x hx hc => ?_, ⟨⟨Nat.lt_succ_self _, update_self ..⟩,
        hlog, hd⟩, fun x hx => ?_⟩
  · rw [hin x hx, hlog] at hf
    cases hf
  · have hn : s.drawn s.nextXid = some n := hn
    rw [hd] at hn
    cases hn
  · rw [hin x hx, hlog] at hc
    cases hc
  · rwa [hin x hx]

theorem good_assignSub (hpc : s.txs t = .running) (hp : s.InTree t p)
    (hopen : isFinal (s.log p) = false) : Good c s (s.newXid t p (.assigning s.nextXid p)) := by
  have htree := h.trees t
  obtain ⟨hl, hun⟩ := h.pcOk hpc
  have htlt : t < s.nextXid := hl.tree.1
  have hself : (s.newXid t p (.assigning s.nextXid p)).log s.nextXid = .inprogress := update_self ..
  have hin : ∀ x, (s.newXid t p (.assigning s.nextXid p)).InTree t x →
      x = s.nextXid ∨ s.InTree t x := by
    rintro x ⟨hx, hxt⟩
    by_cases hxn : x = s.nextXid
    · exact .inl hxn
    · have hlt : x < s.nextXid := (Nat.le_of_lt_succ hx).lt_of_ne hxn
      rw [(newXid_of_lt hlt).2.1] at hxt
      exact .inr ⟨hlt, hxt⟩
  have hstay : ∀ x, s.InTree t x → (s.newXid t p (.assigning s.nextXid p)).InTree t x := by
    rintro x ⟨hx, hxt⟩
    exact ⟨Nat.lt_succ_of_lt hx, (newXid_of_lt hx).2.1.trans hxt⟩
  have hnew : (s.newXid t p (.assigning s.nextXid p)).InTree t s.nextXid :=
    ⟨Nat.lt_succ_self _, update_self ..⟩
  have hpar : (s.newXid t p (.assigning s.nextXid p)).parent s.nextXid = p := update_self ..
  have hdrawn : (s.newXid t p (.assigning s.nextXid p)).drawn t = none := hl.drawn
  refine good_newXid h hl.drawn ⟨htlt.le, fun _ => ⟨hl.tree.2, by rw [hpc]; rfl⟩⟩
    ⟨fun x hx hne => ?_, fun x hx hne hf => ?_, fun x hx hf => ?_, fun n hn => ?_,
      fun x _ hd => absurd hdrawn hd, fun he x hx hc => ?_,
      ⟨hstay t hl.tree, (newXid_of_lt htlt).1.trans hl.log, hdrawn⟩, fun x hx => ?_, hnew,
      htlt.ne', hself, hpar⟩
  · rcases hin x hx with rfl | hx
    · rw [hpar, (newXid_of_lt hp.1).1]
      exact ⟨hp.1, hstay p hp, fun _ => hopen⟩
    · obtain ⟨hlt, hpin, hfin⟩ := htree.parents x hx hne
      rw [(newXid_of_lt hx.1).2.2, (newXid_of_lt hx.1).1, (newXid_of_lt hpin.1).1]
      exact ⟨hlt, hstay _ hpin, hfin⟩
  · rcases hin x hx with rfl | hx
    · exact .inr ⟨hself, by rw [hpar]⟩
    · rw [(newXid_of_lt hx.1).1] at hf ⊢
      rw [(newXid_of_lt hx.1).2.2]
      exact .inl (htree.sub_of (by rw [hpc]; nofun) hx hne hf)
  · rcases hin x hx with rfl | hx
    · rw [hself] at hf
      cases hf
    · rw [(newXid_of_lt hx.1).1] at hf ⊢
      exact htree.stamped x hx hf
  · rw [hdrawn] at hn
    cases hn
  · rcases hin x hx with rfl | hx
    · rw [hself] at hc
      cases hc
    · rw [(newXid_of_lt hx.1).1] at hc ⊢
      exact htree.bound he x hx hc
  · rcases hin x hx with rfl | hx
    · exact (h.fresh s.nextXid le_rfl).2.2.2.2
    · exact hun x hx

theorem good_advance {xid : Nat} (hle : s.oldest ≤ xid) (hn : xid ≤ s.nextXid)
    (hover : ∀ x < xid, (s.txs (s.top x)).isOver = true) : Good c s { s with oldest := xid } := by
  refine ⟨⟨h.special, h.tops, h.fresh, h.csn, h.latest, ⟨hn, hover⟩, fun t => ?_⟩,
    { Grows.refl s with oldest := hle }, rfl, rfl⟩
  exact (h.trees t).keeps { Keeps.refl s t with }

theorem good_txStep (hs : txStep c s t = some s') : Good c s s' := by
  unfold txStep at hs
  split at hs
  · cases hs
  · cases hs
  · next xid parent hpc =>
    cases hs
    exact good_setParent h hpc
  · next subxids hpc =>
    cases hs
    obtain ⟨hl, hcl, htodo⟩ := h.pcOk hpc
    obtain ⟨hlatest, hcount⟩ := latestOf_spec h htodo
    exact good_latest h hpc hl.tree nofun nofun hlatest ⟨{ hl with }, hcl, { htodo with }, hcount⟩
  · next subxids hpc =>
    cases hs
    exact good_mark h hpc
  · next subxids hpc =>
    cases hs
    exact good_draw h hpc
  · cases hs
  · next x todo csn hpc =>
    cases hs
    exact good_bound h hpc
  · cases hs
  · next x csn hpc =>
    cases hs
    exact good_stampLast h hpc
  · next x todo csn hne hpc =>
    cases hs
    exact good_stamp h hpc hne
  · next hpc =>
    cases hs
    obtain ⟨ht, hover⟩ := h.pcOk hpc
    exact good_setTx h hpc ht (fun _ => rfl) nofun hover
  · next xid subxids hpc =>
    cases hs
    obtain ⟨hl, hun, htodo⟩ := h.pcOk hpc
    obtain ⟨hlatest, -⟩ := latestOf_spec h htodo
    exact good_latest h hpc hl.tree nofun nofun hlatest ⟨{ hl with }, hun, { htodo with }⟩
  · cases hs
  · next xid x hpc =>
    cases hs
    exact good_abortStampLast h hpc
  · next xid x todo hne hpc =>
    cases hs
    exact good_abortStamp h hpc hne

end

end PolarDB.CsnVisible
