import Mathlib.Order.Nat
import PolarDB.Basic
import PolarDB.Lts

/-!
# Numbers of full-page snapshots

A primary that writes a page ahead of its replicas keeps the old image of
the page in the full-page files and logs an `XLOG_FPSI` record with the
place of the image, its full-page number. The number comes from the counter
`max_fullpage_no` by fetch-and-add, so the counter is the next free number.
A node that replays the WAL sets the counter to the number of every record
it replays, and one that ends its recovery with a counter of zero sets it
to the number of the last indexed record: there the counter is the last
used number.

There is one primary at a time with any number of backends, nodes that
replay its WAL, the full-page logindex, and crashes. A node that restarts
is one that replays and is then promoted.
-/

namespace PolarDB.Fullpage

open Function List Option

/-! ## Places in the full-page files -/

def blcksz : Nat := 8192

def fullpageSegmentSize : Nat := 256 * 1024 * 1024

def fullpageNumPerFile : Nat := fullpageSegmentSize / blcksz

def fullpageFileSegNo (fullpageNo : Nat) : Nat := fullpageNo / fullpageNumPerFile

def fullpageFileOffset (fullpageNo : Nat) : Nat := fullpageNo * blcksz % fullpageSegmentSize

def place (fullpageNo : Nat) : Nat × Nat :=
  (fullpageFileSegNo fullpageNo, fullpageFileOffset fullpageNo)

theorem place_inj {n k : Nat} (h : place n = place k) : n = k := by
  have h1 : n / 32768 = k / 32768 := congrArg Prod.fst h
  have h2 : n * 8192 % 268435456 = k * 8192 % 268435456 := congrArg Prod.snd h
  omega

/-! ## The state -/

structure FpsiRecord where
  lsn : Nat
  fullpageNo : Nat
  page : Nat
  deriving DecidableEq, Repr

inductive Pc where
  | idle
  | begun (fullpageNo page : Nat)
  | inserted (r : FpsiRecord)
  | writing (r : FpsiRecord)
  deriving DecidableEq, Repr

structure Node where
  next : Nat
  maxFullpageNo : Nat

structure State where
  wal : List FpsiRecord
  walStart : Nat
  indexed : List FpsiRecord
  maxLsn : Nat
  storedLsn : Nat
  primary : Bool
  maxFullpageNo : Nat
  lock : Option Nat
  backends : Nat → Pc
  files : Nat × Nat → Option Nat
  nodes : Nat → Option Node
  /-- No image was logged since the primary was restarted or promoted. -/
  restored : Bool

def State.init : State where
  wal := []
  walStart := 0
  indexed := []
  maxLsn := invalidXLogRecPtr
  storedLsn := invalidXLogRecPtr
  primary := true
  maxFullpageNo := 0
  lock := none
  backends := fun _ => .idle
  files := fun _ => none
  nodes := fun _ => none
  restored := false

def lastLsn (wal : List FpsiRecord) : Nat :=
  (wal.getLast?.map FpsiRecord.lsn).getD invalidXLogRecPtr

/-! ## Logging an image -/

/-- `polar_log_fullpage_begin`, with the lock free. -/
def logFullpageBegin (s : State) (b page : Nat) : State :=
  { s with
    lock := some b
    maxFullpageNo := s.maxFullpageNo + 1
    backends := update s.backends b (.begun s.maxFullpageNo page)
    restored := false }

def insertFpsi (s : State) (b gap fullpageNo page : Nat) : State :=
  let r : FpsiRecord := ⟨lastLsn s.wal + 1 + gap, fullpageNo, page⟩
  { s with
    wal := s.wal ++ [r]
    backends := update s.backends b (.inserted r) }

def logFullpageEnd (s : State) (b : Nat) (r : FpsiRecord) : State :=
  { s with
    lock := none
    backends := update s.backends b (.writing r) }

def writeFullpage (s : State) (b : Nat) (r : FpsiRecord) : State :=
  { s with
    files := update s.files (place r.fullpageNo) (some r.page)
    backends := update s.backends b .idle }

def Node.updateMaxFullpageNo (node : Node) (fullpageNo : Nat) : Node :=
  { node with maxFullpageNo := fullpageNo }

/-- `polar_xlog_idx_parse` or `xlog_redo` with an `XLOG_FPSI` record. -/
def Node.replay (node : Node) (r : FpsiRecord) : Node :=
  { node.updateMaxFullpageNo r.fullpageNo with next := r.lsn + 1 }

/-- `polar_logindex_calc_max_fullpage_no`; `none` where it raises an error. -/
def logindexCalcMaxFullpageNo (s : State) (maxFullpageNo : Nat) : Option Nat :=
  if 0 < maxFullpageNo then some maxFullpageNo
  else if s.maxLsn = invalidXLogRecPtr then some maxFullpageNo
  else if s.maxLsn < s.walStart then some 0
  else (s.wal.find? fun r => r.lsn = s.maxLsn).map FpsiRecord.fullpageNo

/-! ## The system -/

inductive Action where
  | begin (b page : Nat)
  | insert (b gap : Nat)
  | finish (b : Nat)
  | write (b : Nat)
  | save
  | store (lsn : Nat)
  | truncate (n : Nat)
  | removeWal (lsn : Nat)
  /-- the primary is lost, and with it the WAL after `keep` -/
  | crash (keep : Nat)
  | startNode (i lsn : Nat)
  | replay (i : Nat)
  /-- a node that has replayed all there is becomes the primary -/
  | promote (i : Nat)
  deriving DecidableEq, Repr

def step (s : State) : Action → Option State
  | .begin b page =>
    if s.primary = true ∧ s.lock = none ∧ s.backends b = .idle then
      some (logFullpageBegin s b page)
    else none
  | .insert b gap =>
    match s.backends b with
    | .begun fullpageNo page => some (insertFpsi s b gap fullpageNo page)
    | _ => none
  | .finish b =>
    match s.backends b with
    | .inserted r => some (logFullpageEnd s b r)
    | _ => none
  | .write b =>
    match s.backends b with
    | .writing r => some (writeFullpage s b r)
    | _ => none
  | .save =>
    (s.wal.find? fun r => s.maxLsn < r.lsn).map fun r =>
      { s with indexed := s.indexed ++ [r], maxLsn := r.lsn }
  | .store lsn =>
    if s.storedLsn ≤ lsn ∧ ∃ r ∈ s.indexed, r.lsn = lsn then
      some { s with storedLsn := lsn }
    else none
  | .truncate n =>
    if ∀ r ∈ s.indexed.take n, r.lsn ≤ s.storedLsn then
      some { s with indexed := s.indexed.drop n }
    else none
  | .removeWal lsn =>
    if ∀ r ∈ s.wal, r.lsn < lsn → r.lsn ≤ s.storedLsn then
      some { s with walStart := max s.walStart lsn }
    else none
  | .crash keep =>
    if s.storedLsn ≤ keep then
      some { s with
        wal := s.wal.filter fun r => r.lsn ≤ keep
        indexed := s.indexed.filter fun r => r.lsn ≤ s.storedLsn
        maxLsn := s.storedLsn
        primary := false
        lock := none
        backends := fun _ => .idle }
    else none
  | .startNode i lsn =>
    if s.walStart ≤ lsn then
      some { s with nodes := update s.nodes i (some ⟨lsn, 0⟩) }
    else none
  | .replay i => do
      let node ← s.nodes i
      let r ← s.wal.find? fun r => node.next ≤ r.lsn
      some { s with nodes := update s.nodes i (some (node.replay r)) }
  | .promote i => do
      let node ← s.nodes i
      if s.primary = false ∧ ∀ r ∈ s.wal, r.lsn < node.next then
        let maxFullpageNo ← logindexCalcMaxFullpageNo s node.maxFullpageNo
        some { s with
          primary := true
          maxFullpageNo := maxFullpageNo
          nodes := update s.nodes i none
          restored := true }
      else none

def State.Live (s : State) (r : FpsiRecord) : Prop :=
  r ∈ s.indexed ∨ (r ∈ s.wal ∧ s.maxLsn < r.lsn)

/-- When a restarted or promoted primary logs its first image, no record is
indexed and none of the WAL is still to be indexed. -/
def StepOk (s : State) : Action → Prop
  | .begin _ _ => s.restored = true → s.indexed = [] ∧ ∀ r ∈ s.wal, r.lsn ≤ s.maxLsn
  | _ => True

instance (s : State) : ∀ a, Decidable (StepOk s a)
  | .begin _ _ => inferInstanceAs (Decidable (_ → _ ∧ _))
  | .insert _ _ | .finish _ | .write _ | .save | .store _ | .truncate _ | .removeWal _
  | .crash _ | .startNode _ _ | .replay _ | .promote _ => .isTrue trivial

/-! ## The invariant -/

structure Pending (s : State) (r : FpsiRecord) : Prop where
  lt : r.fullpageNo < s.maxFullpageNo
  restored : s.restored = false
  ne : ∀ r', s.Live r' → r' = r ∨ r'.fullpageNo ≠ r.fullpageNo

structure Taken (s : State) (fullpageNo : Nat) : Prop where
  lt : fullpageNo < s.maxFullpageNo
  restored : s.restored = false
  live_lt : ∀ r, s.Live r → r.fullpageNo < fullpageNo
  writing_lt : ∀ b' r, s.backends b' = .writing r → r.fullpageNo < fullpageNo

def PcOk (s : State) (b : Nat) : Pc → Prop
  | .idle => True
  | .begun fullpageNo _ => s.lock = some b ∧ Taken s fullpageNo
  | .inserted r => s.lock = some b ∧ Pending s r
  | .writing r => Pending s r

structure Shape (s : State) : Prop where
  sorted : s.wal.Pairwise fun r r' => r.lsn < r'.lsn
  sublist : s.indexed.Sublist s.wal
  indexed_le : ∀ r ∈ s.indexed, r.lsn ≤ s.maxLsn
  stored_le : s.storedLsn ≤ s.maxLsn
  max_mem : s.maxLsn = invalidXLogRecPtr ∨ ∃ r ∈ s.wal, r.lsn = s.maxLsn
  stored_mem : s.storedLsn = invalidXLogRecPtr ∨ ∃ r ∈ s.wal, r.lsn = s.storedLsn
  saved : ∀ r ∈ s.wal, s.storedLsn < r.lsn → r.lsn ≤ s.maxLsn → r ∈ s.indexed

structure Numbers (s : State) : Prop where
  live_lt : ∀ r r', s.Live r → s.Live r' → r.lsn < r'.lsn → r.fullpageNo < r'.fullpageNo
  live_lt_max : s.primary = true → s.restored = false →
    ∀ r, s.Live r → r.fullpageNo < s.maxFullpageNo
  pcs : ∀ b, PcOk s b (s.backends b)
  idle : s.primary = false → ∀ b, s.backends b = .idle

structure Inv (s : State) : Prop extends Shape s, Numbers s

theorem inv_init : Inv State.init where
  sorted := .nil
  sublist := .slnil
  indexed_le := forall_mem_nil _
  stored_le := le_rfl
  max_mem := .inl rfl
  stored_mem := .inl rfl
  saved := forall_mem_nil _
  live_lt := fun r r' h => absurd h (by simp [State.Live, State.init])
  live_lt_max := fun _ _ r h => absurd h (by simp [State.Live, State.init])
  pcs := fun _ => trivial
  idle := fun _ _ => rfl

variable {s s' : State}
  {r : FpsiRecord} {b b' : Nat} {pc : Pc}

theorem lsn_le_lastLsn {wal : List FpsiRecord} (hs : wal.Pairwise fun r r' => r.lsn < r'.lsn)
    (hr : r ∈ wal) : r.lsn ≤ lastLsn wal := by
  have hlast := getLast?_eq_getLast_of_ne_nil (ne_nil_of_mem hr)
  rw [lastLsn, hlast]
  exact rel_of_getLast? (R := (·.lsn ≤ ·.lsn)) (hs.imp Nat.le_of_lt) le_rfl hlast hr

theorem PcOk.mono (h : PcOk s b pc) (hlive : ∀ r, s'.Live r → s.Live r)
    (hw : ∀ b r, s'.backends b = .writing r → s.backends b = .writing r) (hl : s'.lock = s.lock)
    (hm : s'.maxFullpageNo = s.maxFullpageNo) (hr : s'.restored = s.restored) : PcOk s' b pc := by
  have hpend : ∀ r, Pending s r → Pending s' r := fun r hr' =>
    ⟨hm ▸ hr'.lt, hr ▸ hr'.restored, fun r' hr'' => hr'.ne r' (hlive r' hr'')⟩
  cases pc with
  | idle => exact trivial
  | begun fullpageNo page =>
    obtain ⟨hlock, ht⟩ := h
    exact ⟨hl.trans hlock, hm ▸ ht.lt, hr ▸ ht.restored, fun r hr' => ht.live_lt r (hlive r hr'),
      fun b' r hpc => ht.writing_lt b' r (hw b' r hpc)⟩
  | inserted r => exact ⟨hl.trans h.1, hpend r h.2⟩
  | writing r => exact hpend r h

theorem Numbers.mono (h : Numbers s) (hlive : ∀ r, s'.Live r → s.Live r)
    (hb : s'.backends = s.backends) (hl : s'.lock = s.lock)
    (hm : s'.maxFullpageNo = s.maxFullpageNo) (hr : s'.restored = s.restored)
    (hp : s'.primary = s.primary) : Numbers s' where
  live_lt r r' h1 h2 := h.live_lt r r' (hlive r h1) (hlive r' h2)
  live_lt_max h1 h2 r h3 := by
    rw [hm]
    exact h.live_lt_max (hp ▸ h1) (hr ▸ h2) r (hlive r h3)
  pcs b := by
    rw [hb]
    exact (h.pcs b).mono hlive (fun _ _ hpc => hb ▸ hpc) hl hm hr
  idle hp' := hb ▸ h.idle (hp ▸ hp')

theorem Numbers.writing (h : Numbers s) (hpc : s.backends b = .writing r) : Pending s r := by
  have hb := h.pcs b
  rwa [hpc] at hb

/-! ## The steps of a backend -/

theorem of_update_eq {f : Nat → Pc} {pc' : Pc} (h : update f b pc b' = pc') (hne : pc ≠ pc') :
    f b' = pc' := by
  by_cases hb : b' = b
  · subst hb
    exact absurd ((update_self ..).symm.trans h) hne
  · rwa [update_of_ne hb] at h

theorem pcs_update (hown : PcOk s' b pc) (h : ∀ b', b' ≠ b → PcOk s' b' (s.backends b'))
    (b' : Nat) : PcOk s' b' (update s.backends b pc b') :=
  (forall_update_iff s.backends fun b' => PcOk s' b').mpr ⟨hown, h⟩ b'

theorem PcOk.of_lock_ne (h : PcOk s b pc) (hl : s.lock ≠ some b)
    (hpend : ∀ r, pc = .writing r → Pending s r → Pending s' r) : PcOk s' b pc := by
  cases pc with
  | idle => exact trivial
  | begun fullpageNo page | inserted r => exact absurd h.1 hl
  | writing r => exact hpend r rfl h

section

variable (h : Inv s)
include h

theorem Inv.begin {page : Nat} (hp : s.primary = true) (hl : s.lock = none)
    (hok : StepOk s (.begin b page)) : Inv (logFullpageBegin s b page) := by
  have hlt : ∀ r, s.Live r → r.fullpageNo < s.maxFullpageNo := by
    intro r hr
    cases hres : s.restored with
    | false => exact h.live_lt_max hp hres r hr
    | true =>
      obtain ⟨hidx, hwal⟩ := hok hres
      rcases hr with hr | ⟨hr, hlsn⟩
      · rw [hidx] at hr
        cases hr
      · exact absurd (hwal r hr) (not_le.mpr hlsn)
  exact {
    h.toShape with
    live_lt := h.live_lt
    live_lt_max := fun _ _ r hr => Nat.lt_succ_of_lt (hlt r hr)
    pcs := by
      refine pcs_update ⟨rfl, Nat.lt_succ_self _, rfl, hlt, fun b' r hpc => ?_⟩ fun b' _ => ?_
      · exact (h.writing (of_update_eq hpc nofun)).lt
      · exact (h.pcs b').of_lock_ne (hl ▸ (some_ne_none b').symm) fun r _ hr =>
          ⟨Nat.lt_succ_of_lt hr.lt, rfl, hr.ne⟩
    idle := fun hp' => absurd (hp.symm.trans hp') (by decide) }

theorem Inv.insert {gap fullpageNo page : Nat}
    (hpc : s.backends b = .begun fullpageNo page) : Inv (insertFpsi s b gap fullpageNo page) := by
  obtain ⟨r, hr⟩ : ∃ r : FpsiRecord, r = ⟨lastLsn s.wal + 1 + gap, fullpageNo, page⟩ := ⟨_, rfl⟩
  have heq : insertFpsi s b gap fullpageNo page =
      { s with wal := s.wal ++ [r], backends := update s.backends b (.inserted r) } := by
    rw [hr]
    rfl
  have hno : r.fullpageNo = fullpageNo := by rw [hr]
  have hlsn : ∀ r' ∈ s.wal, r'.lsn < r.lsn := fun r' hr' => by
    have := lsn_le_lastLsn h.sorted hr'
    rw [hr]
    change r'.lsn < lastLsn s.wal + 1 + gap
    omega
  have hmax : s.maxLsn < r.lsn := by
    rcases h.max_mem with hz | ⟨r', hr', hmax⟩
    · rw [hz, hr]
      change 0 < lastLsn s.wal + 1 + gap
      omega
    · exact hmax ▸ hlsn r' hr'
  have hb := h.pcs b
  rw [hpc] at hb
  obtain ⟨hlock, ht⟩ := hb
  rw [heq]
  have hlive : ∀ r', State.Live { s with
      wal := s.wal ++ [r], backends := update s.backends b (.inserted r) } r' →
      s.Live r' ∨ r' = r := by
    rintro r' (hr' | ⟨hr', hlsn'⟩)
    · exact .inl (.inl hr')
    · rcases mem_append.mp hr' with hr' | hr'
      · exact .inl (.inr ⟨hr', hlsn'⟩)
      · exact .inr (mem_singleton.mp hr')
  have hlive_lsn : ∀ r', s.Live r' → r'.lsn < r.lsn := by
    rintro r' (hr' | ⟨hr', _⟩)
    · exact hlsn r' (h.sublist.subset hr')
    · exact hlsn r' hr'
  exact {
    sorted := pairwise_snoc h.sorted hlsn
    sublist := h.sublist.trans (sublist_append_left _ _)
    indexed_le := h.indexed_le
    stored_le := h.stored_le
    max_mem := h.max_mem.imp_right fun ⟨r', hr', he⟩ => ⟨r', mem_append_left _ hr', he⟩
    stored_mem := h.stored_mem.imp_right fun ⟨r', hr', he⟩ => ⟨r', mem_append_left _ hr', he⟩
    saved := fun r' hr' h1 h2 => by
      rcases mem_append.mp hr' with hr' | hr'
      · exact h.saved r' hr' h1 h2
      · rw [mem_singleton.mp hr'] at h2
        exact absurd h2 (Nat.not_le_of_lt hmax)
    live_lt := fun r1 r2 h1 h2 hlt => by
      rcases hlive r1 h1 with h1' | rfl <;> rcases hlive r2 h2 with h2' | rfl
      · exact h.live_lt r1 r2 h1' h2' hlt
      · exact hno ▸ ht.live_lt r1 h1'
      · exact absurd hlt (Nat.lt_asymm (hlive_lsn r2 h2'))
      · exact absurd hlt (lt_irrefl _)
    live_lt_max := fun hp hres r' hr' => by
      rcases hlive r' hr' with hr' | rfl
      · exact h.live_lt_max hp hres r' hr'
      · exact hno ▸ ht.lt
    pcs := by
      refine pcs_update ⟨hlock, hno ▸ ht.lt, ht.restored, fun r1 h1 => ?_⟩ fun b' hne => ?_
      · rcases hlive r1 h1 with h1' | h1'
        · exact .inr (hno ▸ ht.live_lt r1 h1').ne
        · exact .inl h1'
      · have hlock' : s.lock ≠ some b' := fun hb' => hne (some.inj (hb'.symm.trans hlock))
        refine (h.pcs b').of_lock_ne hlock' fun r' hpc' hw => ⟨hw.lt, hw.restored, fun r1 h1 => ?_⟩
        rcases hlive r1 h1 with h1' | rfl
        · exact hw.ne r1 h1'
        · exact .inr (hno ▸ ht.writing_lt b' r' hpc').ne'
    idle := fun hp => absurd ((h.idle hp b).symm.trans hpc) nofun }

theorem Inv.finish (hpc : s.backends b = .inserted r) : Inv (logFullpageEnd s b r) := by
  have hb := h.pcs b
  rw [hpc] at hb
  obtain ⟨hlock, hpend⟩ := hb
  exact {
    h.toShape with
    live_lt := h.live_lt
    live_lt_max := h.live_lt_max
    pcs := by
      refine pcs_update { hpend with } fun b' hne => ?_
      have hlock' : s.lock ≠ some b' := fun hb' => hne (some.inj (hb'.symm.trans hlock))
      exact (h.pcs b').of_lock_ne hlock' fun r' _ hw => { hw with }
    idle := fun hp => absurd ((h.idle hp b).symm.trans hpc) nofun }

theorem Inv.write (hpc : s.backends b = .writing r) : Inv (writeFullpage s b r) where
  toShape := { h.toShape with }
  live_lt := h.live_lt
  live_lt_max := h.live_lt_max
  pcs := pcs_update trivial fun b' _ => (h.pcs b').mono (fun _ hr => hr)
    (fun _ _ hpc => of_update_eq hpc nofun) rfl rfl rfl
  idle hp := absurd ((h.idle hp b).symm.trans hpc) nofun

/-! ## The logindex -/

theorem Inv.save (hr : (s.wal.find? fun r => s.maxLsn < r.lsn) = some r) :
    Inv { s with indexed := s.indexed ++ [r], maxLsn := r.lsn } := by
  have hlt : s.maxLsn < r.lsn := by simpa using find?_some hr
  obtain ⟨before, after, hwal, hbefore⟩ : ∃ before after, s.wal = before ++ r :: after ∧
      ∀ r' ∈ before, r'.lsn ≤ s.maxLsn := by
    obtain ⟨_, before, after, hwal, hnot⟩ := find?_eq_some_iff_append.mp hr
    exact ⟨before, after, hwal, fun r' hr' => by simpa using hnot r' hr'⟩
  have hsorted := h.sorted
  rw [hwal] at hsorted
  have hafter : ∀ r' ∈ after, r.lsn < r'.lsn :=
    (pairwise_cons.mp (pairwise_append.mp hsorted).2.1).1
  have hmem : ∀ r' ∈ s.wal, s.maxLsn < r'.lsn → r' = r ∨ r.lsn < r'.lsn := by
    intro r' hr' hlt'
    rw [hwal] at hr'
    rcases mem_append.mp hr' with hr' | hr'
    · exact absurd hlt' (not_lt.mpr (hbefore r' hr'))
    · rcases mem_cons.mp hr' with rfl | hr'
      · exact .inl rfl
      · exact .inr (hafter r' hr')
  have hin : r ∈ s.wal := mem_of_find?_eq_some hr
  have hsub : (s.indexed ++ [r]).Sublist s.wal := by
    have hidx : s.indexed.Sublist before := by
      have hs := h.sublist.filter fun r' => r'.lsn ≤ s.maxLsn
      rw [filter_eq_self.mpr fun r' hr' => decide_eq_true (h.indexed_le r' hr'), hwal,
        filter_append, filter_eq_nil_iff.mpr (forall_mem_cons.mpr ⟨by simpa using hlt,
          fun r' hr' => by simpa using hlt.trans (hafter r' hr')⟩), append_nil] at hs
      exact hs.trans filter_sublist
    rw [hwal]
    exact hidx.append (List.Sublist.cons_cons r (nil_sublist after))
  exact {
    sorted := h.sorted
    sublist := hsub
    indexed_le := forall_mem_snoc (fun r' hr' => (h.indexed_le r' hr').trans hlt.le) le_rfl
    stored_le := h.stored_le.trans hlt.le
    max_mem := .inr ⟨r, hin, rfl⟩
    stored_mem := h.stored_mem
    saved := fun r' hr' h1 h2 => by
      rcases lt_or_ge s.maxLsn r'.lsn with h3 | h3
      · rcases hmem r' hr' h3 with rfl | h4
        · exact mem_concat_self
        · exact absurd h4 (not_lt.mpr h2)
      · exact mem_append_left _ (h.saved r' hr' h1 h3)
    toNumbers := h.toNumbers.mono (fun r' hr' => by
      rcases hr' with hr' | ⟨hr', hlsn⟩
      · rcases mem_append.mp hr' with hr' | hr'
        · exact .inl hr'
        · rw [mem_singleton.mp hr']
          exact .inr ⟨hin, hlt⟩
      · exact .inr ⟨hr', hlt.trans hlsn⟩) rfl rfl rfl rfl rfl }

theorem Inv.store {lsn : Nat} (hle : s.storedLsn ≤ lsn)
    (hr : ∃ r ∈ s.indexed, r.lsn = lsn) : Inv { s with storedLsn := lsn } := by
  obtain ⟨r, hr, rfl⟩ := hr
  exact { h with
    stored_le := h.indexed_le r hr
    stored_mem := .inr ⟨r, h.sublist.subset hr, rfl⟩
    saved := fun r' hr' h1 => h.saved r' hr' (hle.trans_lt h1)
    toNumbers := h.toNumbers.mono (fun _ hr => hr) rfl rfl rfl rfl rfl }

theorem Inv.truncate {n : Nat} (hle : ∀ r ∈ s.indexed.take n, r.lsn ≤ s.storedLsn) :
    Inv { s with indexed := s.indexed.drop n } :=
  { h with
    sublist := (drop_sublist n _).trans h.sublist
    indexed_le := fun r hr => h.indexed_le r (mem_of_mem_drop hr)
    saved := fun r hr h1 h2 => by
      have hmem := h.saved r hr h1 h2
      rw [← take_append_drop n s.indexed] at hmem
      rcases mem_append.mp hmem with hmem | hmem
      · exact absurd h1 (not_lt.mpr (hle r hmem))
      · exact hmem
    toNumbers := h.toNumbers.mono (fun r hr => hr.imp_left mem_of_mem_drop) rfl rfl rfl rfl rfl }

/-! ## Crashes and promotions -/

theorem Inv.crash {keep : Nat} (hkeep : s.storedLsn ≤ keep) : Inv { s with
      wal := s.wal.filter fun r => r.lsn ≤ keep
      indexed := s.indexed.filter fun r => r.lsn ≤ s.storedLsn
      maxLsn := s.storedLsn
      primary := false
      lock := none
      backends := fun _ => .idle } := by
  have hstored : s.storedLsn = invalidXLogRecPtr ∨
      ∃ r ∈ s.wal.filter fun r => r.lsn ≤ keep, r.lsn = s.storedLsn := by
    refine h.stored_mem.imp_right fun ⟨r, hr, he⟩ => ⟨r, mem_filter.mpr ⟨hr, ?_⟩, he⟩
    exact decide_eq_true (he ▸ hkeep)
  have hlive : ∀ r, (r ∈ s.indexed.filter fun r => r.lsn ≤ s.storedLsn) ∨
      ((r ∈ s.wal.filter fun r => r.lsn ≤ keep) ∧ s.storedLsn < r.lsn) → s.Live r := by
    rintro r (hr | ⟨hr, hlt⟩)
    · exact .inl (mem_filter.mp hr).1
    · have hw := (mem_filter.mp hr).1
      rcases lt_or_ge s.maxLsn r.lsn with h1 | h1
      · exact .inr ⟨hw, h1⟩
      · exact .inl (h.saved r hw hlt h1)
  exact {
    sorted := h.sorted.filter _
    sublist := by
      refine (monotone_filter_right _ fun r hr => ?_).trans (h.sublist.filter _)
      exact decide_eq_true ((of_decide_eq_true hr).trans hkeep)
    indexed_le := fun r hr => of_decide_eq_true (mem_filter.mp hr).2
    stored_le := le_rfl
    max_mem := hstored
    stored_mem := hstored
    saved := fun r _ h1 h2 => absurd h1 (not_lt.mpr h2)
    live_lt := fun r r' h1 h2 => h.live_lt r r' (hlive r h1) (hlive r' h2)
    live_lt_max := nofun
    pcs := fun _ => trivial
    idle := fun _ _ => rfl }

/-- The counter a promoted node starts with does not matter before it is
used. -/
theorem Inv.promote (hp : s.primary = false) (i maxFullpageNo : Nat) : Inv { s with
      primary := true
      maxFullpageNo := maxFullpageNo
      nodes := update s.nodes i none
      restored := true } where
  toShape := { h.toShape with }
  live_lt := h.live_lt
  live_lt_max := nofun
  pcs b := by
    rw [h.idle hp b]
    exact trivial
  idle := nofun

end

theorem inv_step {a : Action} (h : Inv s) (hok : StepOk s a) (hs : step s a = some s') :
    Inv s' := by
  cases a with
  | begin b page =>
    obtain ⟨⟨hp, hl, -⟩, rfl⟩ : _ ∧ logFullpageBegin s b page = s' := by simpa [step] using hs
    exact h.begin hp hl hok
  | insert b gap =>
    simp only [step] at hs
    split at hs
    · rename_i hpc
      cases hs
      exact h.insert hpc
    · cases hs
  | finish b =>
    simp only [step] at hs
    split at hs
    · rename_i hpc
      cases hs
      exact h.finish hpc
    · cases hs
  | write b =>
    simp only [step] at hs
    split at hs
    · rename_i hpc
      cases hs
      exact h.write hpc
    · cases hs
  | save =>
    obtain ⟨r, hr, rfl⟩ := map_eq_some_iff.mp hs
    exact h.save hr
  | store lsn =>
    obtain ⟨⟨hle, hr⟩, rfl⟩ : _ ∧ { s with storedLsn := lsn } = s' := by simpa [step] using hs
    exact h.store hle hr
  | truncate n =>
    obtain ⟨hle, rfl⟩ : _ ∧ { s with indexed := s.indexed.drop n } = s' := by
      simpa only [step, ite_none_right_eq_some, some.injEq] using hs
    exact h.truncate hle
  | removeWal lsn =>
    obtain ⟨-, rfl⟩ : _ ∧ { s with walStart := max s.walStart lsn } = s' := by
      simpa only [step, ite_none_right_eq_some, some.injEq] using hs
    exact { h.toShape with toNumbers := h.toNumbers.mono (fun _ hr => hr) rfl rfl rfl rfl rfl }
  | crash keep =>
    simp only [step, ite_none_right_eq_some, some.injEq] at hs
    obtain ⟨hkeep, rfl⟩ := hs
    exact h.crash hkeep
  | startNode i lsn =>
    simp only [step, ite_none_right_eq_some, some.injEq] at hs
    obtain ⟨-, rfl⟩ := hs
    exact { h.toShape with toNumbers := h.toNumbers.mono (fun _ hr => hr) rfl rfl rfl rfl rfl }
  | replay i =>
    simp only [step, bind_eq_bind, bind_eq_some_iff, some.injEq] at hs
    obtain ⟨node, -, r, -, rfl⟩ := hs
    exact { h.toShape with toNumbers := h.toNumbers.mono (fun _ hr => hr) rfl rfl rfl rfl rfl }
  | promote i =>
    simp only [step, bind_eq_bind, bind_eq_some_iff, ite_none_right_eq_some, some.injEq] at hs
    obtain ⟨node, -, ⟨hp, -⟩, c, -, rfl⟩ := hs
    exact h.promote hp i c

/-! ## The results -/

/-- In every run in which the first image after a restart or a promotion is
logged when no older record is indexed or will be, the numbers of the indexed
records grow with their positions, and writing an image leaves the images of
all other indexed records alone. -/
theorem fullpageNo_unique (as : List Action) (s : State)
    (hm : Meets step StepOk State.init as) (hs : exec step State.init as = some s) :
    (s.indexed.Pairwise fun r r' => r.lsn < r'.lsn ∧ r.fullpageNo < r'.fullpageNo) ∧
      ∀ b r s', s.backends b = .writing r → step s (.write b) = some s' →
        ∀ r' ∈ s.indexed, r' ≠ r →
          s'.files (place r'.fullpageNo) = s.files (place r'.fullpageNo) := by
  have h : Inv s := exec_invariant_of_meets (fun _ => Inv)
    (fun _ _ _ _ h hok hstep => inv_step h hok hstep) inv_init hm hs
  constructor
  · refine (h.sorted.sublist h.sublist).imp_of_mem fun hr hr' hlt => ⟨hlt, ?_⟩
    exact h.live_lt _ _ (.inl hr) (.inl hr') hlt
  · intro b r s' hpc hstep r' hr' hne
    simp only [step, hpc, some.injEq] at hstep
    subst hstep
    refine update_of_ne (fun heq => ?_) _ _
    exact ((h.writing hpc).ne r' (.inl hr')).elim hne fun hno => hno (place_inj heq)

/-- Two images, then the index is stored and truncated before the node
restarts and logs two more. -/
def truncatedRestart : List Action :=
  [.begin 0 7, .insert 0 0, .finish 0, .save, .write 0, .begin 1 8, .insert 1 0, .finish 1, .save,
    .store 2, .truncate 2, .crash 2, .startNode 0 0, .replay 0, .replay 0, .promote 0,
    .begin 0 9, .insert 0 0, .finish 0, .save, .begin 1 10, .insert 1 0, .finish 1, .save]

theorem fullpageNo_unique_truncatedRestart : ∃ s, exec step State.init truncatedRestart = some s ∧
      s.indexed = [⟨3, 1, 9⟩, ⟨4, 2, 10⟩] ∧
      (s.indexed.Pairwise fun r r' => r.lsn < r'.lsn ∧ r.fullpageNo < r'.fullpageNo) ∧
      ∀ b r s', s.backends b = .writing r → step s (.write b) = some s' → ∀ r' ∈ s.indexed, r' ≠ r →
          s'.files (place r'.fullpageNo) = s.files (place r'.fullpageNo) := by
  refine exec_eval (E := fun s => s.indexed = [⟨3, 1, 9⟩, ⟨4, 2, 10⟩]) (by decide)
    fun s hs hidx => ?_
  exact ⟨hidx, fullpageNo_unique truncatedRestart s (by decide) hs⟩

/-- An image, a restart, and one more image up to the write. -/
def imageRestartImage : List Action :=
  [.begin 0 7, .insert 0 0, .finish 0, .save, .write 0, .store 1, .crash 1, .startNode 0 0,
    .replay 0, .promote 0, .begin 0 8, .insert 0 0, .finish 0, .save]

/-- Two images, a restart without the WAL of the second, and a third image. -/
def imagesWithoutWal : List Action :=
  [.begin 0 7, .insert 0 0, .finish 0, .save, .write 0, .begin 0 8, .insert 0 0, .finish 0, .save,
    .write 0, .store 2, .removeWal 3, .crash 2, .startNode 0 3, .promote 0, .begin 0 9, .insert 0 0,
    .finish 0, .save]

/-- After a restart the last number is given out once more, and the image of
the first record is overwritten. After a restart without the WAL of the last
record the numbers begin again at zero. -/
theorem fullpageNo_reused :
    ((exec step State.init imageRestartImage).map State.indexed = some [⟨1, 0, 7⟩, ⟨2, 0, 8⟩] ∧
      (exec step State.init imageRestartImage).map (fun s => s.files (place 0)) = some (some 7) ∧
      (exec step State.init (imageRestartImage ++ [.write 0])).map (fun s => s.files (place 0)) =
        some (some 8)) ∧
      (exec step State.init imagesWithoutWal).map State.indexed =
        some [⟨1, 0, 7⟩, ⟨2, 1, 8⟩, ⟨3, 0, 9⟩] := by
  decide

end PolarDB.Fullpage
