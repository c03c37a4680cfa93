import PolarDB.FlashbackSnapshotRep

/-!
# What the replayed snapshot says

The snapshot a flashback table ends with has a transaction in progress when
it ran or had no id at the flashback point and no replayed record completed
it. A record completes what `xact_redo` completes with it: the transaction
of a commit or an abort, the prepared transaction of the two-phase records,
and all subtransactions.

The replay does not get there for every record. It masks the info bits
before it parses the record, so that no subtransaction is seen; it takes
the id of the two-phase records from the record header; running
transactions it starts with that are not below `xmax` stay in `xip` when
they complete, and stand in it twice after others have; and `next_xid`
moves on only when the very next id writes a record. Under `NoGap` and
`RecOk` none of this matters (`replay_exact`).
-/

namespace PolarDB.FlashbackSnapshot

open List

/-! ## The start of the replay -/

structure Start where
  xmin : Nat
  xmax : Nat
  running : List Nat
  nextXid : Nat
  nextClogSubdirNo : Nat
  deriving DecidableEq, Repr

/-- The snapshot in memory; `behind` is what stands behind the cells. -/
def RelSnapshot.ofStart (start : Start) (behind : Nat → Nat) : RelSnapshot where
  xmin := start.xmin
  xmax := start.xmax
  xcnt := start.running.length
  xip := fun i => start.running.getD i (behind i)
  removedXidPos := []
  xipSize := 0
  enlarged := 0
  nextClogSubdirNo := start.nextClogSubdirNo
  nextXid := start.nextXid

def Start.InProgress (start : Start) (xid : Nat) : Prop :=
  xid ∈ start.running ∨ transactionIdFollowsOrEquals xid start.xmax = true

instance (start : Start) (xid : Nat) : Decidable (start.InProgress xid) :=
  inferInstanceAs (Decidable (_ ∨ _))

/-- The id is a normal one, in the half of the id space that starts with
number `base`. -/
def XidIn (base xid : Nat) : Prop :=
  firstNormalTransactionId ≤ xid ∧ xid < xidSpace ∧ fullOf base xid + 1 < base + xidWindow

instance (base xid : Nat) : Decidable (XidIn base xid) :=
  inferInstanceAs (Decidable (_ ∧ _))

variable {xid : Nat} {r : WalRecord} {endTime : Int}

theorem XidIn.ofFull {base : Nat} (h : XidIn base xid) : PolarDB.ofFull (fullOf base xid) = xid :=
  ofFull_fullOf h.1 h.2.1

theorem XidIn.succ_inWin {base : Nat} (h : XidIn base xid) : InWin base (fullOf base xid + 1) :=
  ⟨Nat.le_succ_of_le (Nat.le_add_right _ _), h.2.2⟩

theorem XidIn.inWin {base : Nat} (h : XidIn base xid) : InWin base (fullOf base xid) :=
  ⟨Nat.le_add_right _ _, Nat.lt_of_succ_lt h.2.2⟩

/-- What the server records with a flashback point: the running ids in
order, none before `xmin`, all ids in one half of the id space. -/
structure Start.Valid (base : Nat) (start : Start) : Prop where
  xmin_in : XidIn base start.xmin
  xmax_in : XidIn base start.xmax
  next_in : XidIn base start.nextXid
  min_le_max : transactionIdFollowsOrEquals start.xmax start.xmin = true
  running_in : ∀ xid ∈ start.running, XidIn base xid
  sorted : start.running.Pairwise fun xid1 xid2 => transactionIdPrecedes xid1 xid2 = true
  min_le : ∀ xid ∈ start.running, transactionIdFollowsOrEquals xid start.xmin = true

/-- The transactions listed as running from `xmax` on have ids that follow
each other: none between them is of a subtransaction. -/
def Start.NoGap (start : Start) : Prop :=
  ∀ xid ∈ start.running, transactionIdFollowsOrEquals xid start.xmax = true → xid ≠ start.xmax →
    ∃ before ∈ start.running, transactionIdAdvance before = xid

instance (start : Start) : Decidable start.NoGap :=
  inferInstanceAs (Decidable (∀ xid ∈ start.running, _ → _ → _))

/-- The records of one history: no transaction completes twice, all ids are
in one half of the id space. -/
structure WalValid (base : Nat) (wal : List WalRecord) : Prop where
  nodup : (wal.flatMap WalRecord.completedXids).Nodup
  completed_in : ∀ xid ∈ wal.flatMap WalRecord.completedXids, XidIn base xid
  xid_in : ∀ r ∈ wal, r.xlXid = invalidTransactionId ∨ XidIn base r.xlXid

/-! ## The condition -/

/-- The condition on a record that completes transactions: it completes the
transaction of its header and no other that was in progress, and none that
ran at the start and was not below `xmax`; `next_xid` is beyond what it
completes, and where it completes the last running one the cell behind it
does no harm. -/
def RecOk (base : Nat) (start : Start) (endTime : Int) (rs : RelSnapshot) (r : WalRecord) : Prop :=
  r.op ≠ .other → r.body.xactTime ≤ endTime →
    (r.xlXid = invalidTransactionId ∨ r.xlXid ∈ r.completedXids) ∧
    (∀ xid ∈ r.completedXids, xid ≠ r.xlXid → ¬ start.InProgress xid) ∧
    (∀ xid ∈ r.completedXids, xid ∈ start.running →
      ¬ transactionIdFollowsOrEquals xid start.xmax = true) ∧
    (∀ xid ∈ r.completedXids, transactionIdPrecedes xid rs.nextXid = true ∨
      (xid = r.xlXid ∧ rs.nextXid = xid)) ∧
    (r.xlXid = rs.xmin → rs.xcnt = 1 → BehindOk base (compactIfFull rs))

instance (base : Nat) (start : Start) (endTime : Int) (rs : RelSnapshot) (r : WalRecord) :
    Decidable (RecOk base start endTime rs r) :=
  inferInstanceAs (Decidable (_ → _ → _ ∧ _ ∧ _ ∧ _ ∧ _))

def WalOk (base : Nat) (start : Start) (junk : Nat → Nat → Nat) (endTime : Int) :
    RelSnapshot → List WalRecord → Prop
  | _, [] => True
  | rs, r :: wal =>
    RecOk base start endTime rs r ∧
      ((flashbackXactRedo junk endTime rs r).2 = false →
        WalOk base start junk endTime (flashbackXactRedo junk endTime rs r).1 wal)

instance decidableWalOk (base : Nat) (start : Start) (junk : Nat → Nat → Nat) (endTime : Int) :
    ∀ rs wal, Decidable (WalOk base start junk endTime rs wal)
  | _, [] => .isTrue trivial
  | rs, r :: wal =>
    have := decidableWalOk base start junk endTime (flashbackXactRedo junk endTime rs r).1 wal
    inferInstanceAs (Decidable (_ ∧ (_ → _)))

/-! ## The invariant -/

/-- The snapshot is the one after the transactions `done` have completed.
At the start `d` transactions from `xmax` on ran. -/
structure Inv (base d : Nat) (start : Start) (done : List Nat) (rs : RelSnapshot)
    (cells : List Nat) (m M n : Nat) : Prop where
  rep : Rep base (fullOf base start.xmax) d rs cells m M
  ahead : ∀ x, fullOf base start.xmax ≤ x → x < fullOf base start.xmax + d →
    ofFull x ∈ start.running
  inProgress : ∀ x, InWin base x →
    ((Running rs cells x ∨ M ≤ x) ↔ start.InProgress (ofFull x) ∧ ofFull x ∉ done)
  removed : ∀ p ∈ rs.removedXidPos, ∀ y, cells[p]? = some y → ofFull y ∈ done
  next : rs.nextXid = ofFull n
  next_win : InWin base n
  done_in : ∀ xid ∈ done, XidIn base xid

variable {base d : Nat} {start : Start} {done : List Nat} {rs : RelSnapshot} {cells : List Nat}
  {m M n x : Nat} {junk : Nat → Nat → Nat}

/-- Numbers from `T` on without a gap. -/
theorem exists_ahead {T : Nat} (h : ∀ x ∈ cells, T < x → x - 1 ∈ cells) :
    ∃ d, (∀ x ∈ cells, x < T ∨ x < T + d) ∧ ∀ x, T ≤ x → x < T + d → x ∈ cells := by
  cases hmax : cells.max? with
  | none =>
    rw [max?_eq_none_iff.mp hmax]
    exact ⟨0, forall_mem_nil _, fun x h1 h2 => by omega⟩
  | some k =>
    obtain ⟨hk, hle⟩ := max?_eq_some_iff.mp hmax
    refine ⟨k + 1 - T, fun x hx => ?_, fun x hT hd => ?_⟩
    · have := hle x hx
      omega
    · have hxk : x ≤ k := by omega
      induction hxk using Nat.decreasingInduction with
      | self => exact hk
      | of_succ y _ ih =>
        have := h _ (ih (by omega) (by omega)) (by omega)
        rwa [Nat.add_sub_cancel] at this

theorem Inv.ofStart (h : start.Valid base) (hgap : start.NoGap) (behind : Nat → Nat) :
    ∃ d, Inv base d start [] (.ofStart start behind) (start.running.map (fullOf base))
      (fullOf base start.xmin) (fullOf base start.xmax) (fullOf base start.nextXid) := by
  have hprec : ∀ {xid1 xid2}, XidIn base xid1 → XidIn base xid2 →
      (transactionIdPrecedes xid1 xid2 = true ↔ fullOf base xid1 < fullOf base xid2) := by
    intro xid1 xid2 h1 h2
    have := precedes_ofFull h1.inWin h2.inWin
    rwa [h1.ofFull, h2.ofFull] at this
  have hfoll : ∀ {xid1 xid2}, XidIn base xid1 → XidIn base xid2 →
      (transactionIdFollowsOrEquals xid1 xid2 = true ↔ fullOf base xid2 ≤ fullOf base xid1) := by
    intro xid1 xid2 h1 h2
    have := followsOrEquals_ofFull h1.inWin h2.inWin
    rwa [h1.ofFull, h2.ofFull] at this
  have hcell : ∀ i y, (start.running.map (fullOf base))[i]? = some y →
      ∃ xid, start.running[i]? = some xid ∧ fullOf base xid = y := fun i y hy => by
    rwa [getElem?_map, Option.map_eq_some_iff] at hy
  have hsorted : (start.running.map (fullOf base)).Pairwise (· < ·) :=
    pairwise_map.mpr (h.sorted.imp_of_mem fun h1 h2 hlt =>
      (hprec (h.running_in _ h1) (h.running_in _ h2)).mp hlt)
  have hnogap : ∀ x ∈ start.running.map (fullOf base), fullOf base start.xmax < x →
      x - 1 ∈ start.running.map (fullOf base) := by
    intro x hx hlt
    obtain ⟨xid, hxid, rfl⟩ := mem_map.mp hx
    have hin := h.running_in xid hxid
    obtain ⟨before, hbefore, hnext⟩ := hgap xid hxid ((hfoll hin h.xmax_in).mpr hlt.le)
      fun heq => hlt.ne (heq ▸ rfl)
    have hbin := h.running_in before hbefore
    rw [← hbin.ofFull, transactionIdAdvance_ofFull, ← hin.ofFull,
      ofFull_inj hbin.succ_inWin hin.inWin] at hnext
    exact mem_map.mpr ⟨before, hbefore, by omega⟩
  obtain ⟨d, hbelow, hahead⟩ := exists_ahead hnogap
  have hrep : Rep base (fullOf base start.xmax) d (.ofStart start behind)
      (start.running.map (fullOf base)) (fullOf base start.xmin) (fullOf base start.xmax) := {
    xip := fun i y hy => by
      obtain ⟨xid, hxid, rfl⟩ := hcell i y hy
      change start.running.getD i (behind i) = _
      rw [getD_eq_getElem?_getD, hxid, (h.running_in xid (mem_of_getElem? hxid)).ofFull]
      rfl
    sorted := fun i j x y hx hy _ =>
      ⟨getElem?_lt_iff_of_sorted hsorted hx hy, getElem?_lt_iff_of_sorted hsorted hy hx⟩
    found := fun x hT hd => findable_of_sorted hsorted (hahead x hT hd)
    win := fun y hy => by
      obtain ⟨xid, hxid, rfl⟩ := mem_map.mp hy
      exact (h.running_in xid hxid).inWin
    length := length_map _
    lt_max := fun y hy => by
      have := hbelow y hy
      omega
    top := .inl rfl
    kept := forall_mem_nil _
    removed_sorted := .nil
    removed_lt := forall_mem_nil _
    removed_le := Nat.zero_le _
    xmin := h.xmin_in.ofFull.symm
    xmax := h.xmax_in.ofFull.symm
    le_min := h.xmin_in.inWin.1
    min_le := (hfoll h.xmax_in h.xmin_in).mp h.min_le_max
    max_win := h.xmax_in.inWin
    min := fun i y hy _ => by
      obtain ⟨xid, hxid, rfl⟩ := hcell i y hy
      have hmem := mem_of_getElem? hxid
      exact (hfoll (h.running_in xid hmem) h.xmin_in).mp (h.min_le xid hmem) }
  exact ⟨d, {
    rep := hrep
    ahead := fun x hT hd => by
      obtain ⟨xid, hxid, rfl⟩ := mem_map.mp (hahead x hT hd)
      rwa [(h.running_in xid hxid).ofFull]
    inProgress := fun x hx => by
      have hle := followsOrEquals_ofFull hx h.xmax_in.inWin
      rw [h.xmax_in.ofFull] at hle
      have hrun : Running (.ofStart start behind) (start.running.map (fullOf base)) x ↔
          ofFull x ∈ start.running := by
        constructor
        · rintro ⟨i, hi, _⟩
          obtain ⟨xid, hxid, rfl⟩ := hcell i x hi
          have hmem := mem_of_getElem? hxid
          rwa [(h.running_in xid hmem).ofFull]
        · intro hmem
          obtain ⟨i, hi⟩ := mem_iff_getElem?.mp hmem
          refine ⟨i, ?_, not_mem_nil⟩
          rw [getElem?_map, hi, Option.map_some, fullOf_ofFull hx]
      rw [hrun, ← hle]
      exact (and_iff_left not_mem_nil).symm
    removed := forall_mem_nil _
    next := h.next_in.ofFull.symm
    next_win := h.next_in.inWin
    done_in := forall_mem_nil _ }⟩

/-! ## One record -/

theorem Inv.updateNextXid (h : Inv base d start done rs cells m M n)
    (hxid : xid = invalidTransactionId ∨ XidIn base xid) :
    ∃ n', Inv base d start done (updateNextXid rs xid) cells m M n' ∧ n ≤ n' ∧
      (rs.nextXid = xid → n' = n + 1) := by
  unfold FlashbackSnapshot.updateNextXid
  split
  · next heq =>
    have hin := hxid.resolve_left heq.1
    have hn : fullOf base xid = n := by
      rw [← heq.2, h.next, fullOf_ofFull h.next_win]
    refine ⟨n + 1, ?_, Nat.le_succ n, fun _ => rfl⟩
    exact {
      rep := { h.rep with }
      ahead := h.ahead
      inProgress := h.inProgress
      removed := h.removed
      next := by
        rw [h.next, transactionIdAdvance_ofFull]
      next_win := hn ▸ hin.succ_inWin
      done_in := h.done_in }
  · next heq =>
    refine ⟨n, h, Nat.le_refl n, fun hnext => absurd ⟨?_, hnext⟩ heq⟩
    rw [← hnext, h.next]
    exact ofFull_ne_zero n

theorem Inv.complete (h : Inv base d start done rs cells m M n) {done' : List Nat}
    (hsub : done ⊆ done') (hin : ∀ xid ∈ done', XidIn base xid)
    (hnot : ∀ xid ∈ done', xid ∉ done → ¬ start.InProgress xid) :
    Inv base d start done' rs cells m M n :=
  { h with
    inProgress := fun x hx => by
      rw [h.inProgress x hx]
      constructor
      · exact fun ⟨h1, h2⟩ => ⟨h1, fun hm => hnot _ hm h2 h1⟩
      · exact fun ⟨h1, h2⟩ => ⟨h1, fun hm => h2 (hsub hm)⟩
    removed := fun p hp y hy => hsub (h.removed p hp y hy)
    done_in := hin }

theorem removeXid_nextXid (rs : RelSnapshot) (xid : Nat) :
    (removeXidFromRunningXids rs xid).nextXid = rs.nextXid := by
  have hc : (compactIfFull rs).nextXid = rs.nextXid := by
    unfold compactIfFull compactRemovedXids
    split
    · split <;> rfl
    · rfl
  unfold removeXidFromRunningXids removeFound
  split
  · rfl
  · split
    · exact hc
    · rw [← hc]
      split <;> rfl

section

variable (h : Inv base d start done rs cells m M n) (junk)
include h junk

/-- `polar_update_flashback_snapshot` with an id that has not completed
before: exactly this one is no longer in progress. -/
theorem Inv.updateSnapshot (hwin : InWin base (x + 1)) (hb : base ≤ x) (hnew : ofFull x ∉ done)
    (hone : x < fullOf base start.xmax ∨ fullOf base start.xmax + d ≤ x)
    (hbehind : ofFull x = rs.xmin → rs.xcnt = 1 → BehindOk base (compactIfFull rs)) :
    ∃ cells' m' M', Rep base (fullOf base start.xmax) d (updateFlashbackSnapshot junk rs (ofFull x))
      cells' m' M' ∧
      (∀ y, (Running (updateFlashbackSnapshot junk rs (ofFull x)) cells' y ∨ M' ≤ y) ↔
        (Running rs cells y ∨ M ≤ y) ∧ y ≠ x) ∧
      (∀ p ∈ (updateFlashbackSnapshot junk rs (ofFull x)).removedXidPos, ∀ y,
        cells'[p]? = some y → y = x ∨ ofFull y ∈ done) ∧
      (updateFlashbackSnapshot junk rs (ofFull x)).nextXid = rs.nextXid := by
  have hxwin : InWin base x := ⟨hb, Nat.lt_of_succ_lt hwin.2⟩
  have hprec := precedes_ofFull hxwin h.rep.max_win
  rw [updateFlashbackSnapshot, h.rep.xmax]
  by_cases hlt : x < M
  · rw [if_pos (hprec.mpr hlt)]
    obtain ⟨cells', m', hrep, hrun, hrem⟩ := h.rep.remove hxwin hone
      (fun p hp hm => hnew (h.removed p hm x hp)) hbehind
    refine ⟨cells', m', M, hrep, fun y => ?_, fun p hp y hy => ?_, removeXid_nextXid rs _⟩
    · rw [hrun y]
      have : M ≤ y → y ≠ x := by omega
      tauto
    · rcases hrem p hp y hy with hy | ⟨q, hq, hy⟩
      · exact .inl hy
      · exact .inr (h.removed q hq y hy)
  · rw [if_neg (mt hprec.mp hlt)]
    obtain ⟨rs', heq, hnext, hsame, hrep, hrun⟩ :=
      h.rep.insert junk (Nat.le_of_not_lt hlt) hone hwin
    rw [heq]
    refine ⟨_, m, x + 1, hrep, fun y => ?_, ?_, hnext⟩
    · rw [hrun y]
      by_cases hy : Running rs cells y
      · have := h.rep.lt_max y (mem_of_getElem? hy.choose_spec.1)
        simp only [hy, true_or, true_and, true_iff]
        omega
      · simp only [hy, false_or]
        omega
    · intro p hp y hy
      rw [hsame] at hp
      rw [getElem?_append_left (h.rep.removed_lt p hp)] at hy
      exact .inr (h.removed p hp y hy)

theorem Inv.completeHeader (hmax : XidIn base start.xmax) (hin : XidIn base xid) (hnew : xid ∉ done)
    (hold : xid ∈ start.running → ¬ transactionIdFollowsOrEquals xid start.xmax = true)
    (hbehind : xid = rs.xmin → rs.xcnt = 1 → BehindOk base (compactIfFull rs)) :
    ∃ cells' m' M', Inv base d start (done ++ [xid]) (updateFlashbackSnapshot junk rs xid)
      cells' m' M' n := by
  obtain ⟨x, hx⟩ : ∃ x, fullOf base xid = x := ⟨_, rfl⟩
  have hxid : ofFull x = xid := hx ▸ hin.ofFull
  have hwin := hx ▸ hin.succ_inWin
  have hxwin := hx ▸ hin.inWin
  subst hxid
  have hone : x < fullOf base start.xmax ∨ fullOf base start.xmax + d ≤ x := by
    by_contra hc
    have hT : fullOf base start.xmax ≤ x := by omega
    refine hold (h.ahead x hT (by omega)) ?_
    have := followsOrEquals_ofFull hxwin hmax.inWin
    rw [hmax.ofFull] at this
    exact this.mpr hT
  obtain ⟨cells', m', M', hrep, hrun, hrem, hnext⟩ :=
    h.updateSnapshot junk hwin hxwin.1 hnew hone hbehind
  exact ⟨cells', m', M', {
    rep := hrep
    ahead := h.ahead
    inProgress := fun y hy => by
      rw [hrun y, h.inProgress y hy, mem_append, mem_singleton, not_or, and_assoc,
        ofFull_inj hy hxwin]
    removed := fun p hp y hy => by
      rcases hrem p hp y hy with rfl | hy
      · exact mem_concat_self
      · exact mem_append.mpr (.inl hy)
    next := hnext.trans h.next
    next_win := h.next_win
    done_in := forall_mem_snoc h.done_in hin }⟩

end

theorem updateFlashbackSnapshot_invalid {T : Nat} (h : Rep base T d rs cells m M) :
    updateFlashbackSnapshot junk rs invalidTransactionId = rs := by
  have hprec : ∀ k, transactionIdPrecedes invalidTransactionId (ofFull k) = true := fun k =>
    decide_eq_true (Nat.pos_of_ne_zero (ofFull_ne_zero k))
  unfold updateFlashbackSnapshot removeXidFromRunningXids
  rw [h.xmax, h.xmin, if_pos (hprec M), if_pos (hprec m)]

theorem redo_other (hop : r.op = .other) :
    flashbackXactRedo junk endTime rs r = (updateNextXid rs r.xlXid, false) := by
  rw [flashbackXactRedo, if_pos hop]

theorem redo_late (hop : r.op ≠ .other) (hlate : endTime < r.body.xactTime) :
    flashbackXactRedo junk endTime rs r = (rs, true) := by
  rw [flashbackXactRedo, if_neg hop, if_pos hlate]

/-- Of a record that completes transactions only the one of the header is
taken out. -/
theorem redo_complete (hop : r.op ≠ .other) (htime : ¬ endTime < r.body.xactTime) :
    flashbackXactRedo junk endTime rs r =
      (updateNextXid (updateFlashbackSnapshot junk rs r.xlXid) r.xlXid,
        decide (r.body.xactTime = endTime)) := by
  rw [flashbackXactRedo, if_neg hop, if_neg htime]
  simp only [parseXactRecord_opmask]
  rfl

theorem completedXids_other (hop : r.op = .other) : r.completedXids = [] := by
  rw [WalRecord.completedXids, hop]

theorem replayed_cons (junk) (rs : RelSnapshot) (wal : List WalRecord) :
    replayed endTime (r :: wal) = replayed endTime [r] ++
      if (flashbackXactRedo junk endTime rs r).2 then [] else replayed endTime wal := by
  by_cases hop : r.op = .other
  · simp [replayed, redo_other, hop]
  · by_cases hlate : endTime < r.body.xactTime
    · simp [replayed, redo_late hop hlate, hop, hlate]
    · by_cases heq : r.body.xactTime = endTime <;>
        simp [replayed, redo_complete hop hlate, hop, hlate, heq]

theorem replayed_single (h : (flashbackXactRedo junk endTime rs r).2 = false) :
    replayed endTime [r] = [r] := by
  by_cases hop : r.op = .other
  · simp [replayed, hop]
  · by_cases hlate : endTime < r.body.xactTime
    · rw [redo_late hop hlate] at h
      cases h
    · simp [replayed, hlate]

/-- One record: the invariant holds with what the record completes, and all
of it is before the next id. -/
theorem Inv.redo (h : Inv base d start done rs cells m M n) (hmax : XidIn base start.xmax)
    (hlt : ∀ xid ∈ done, fullOf base xid < n) (junk) (hok : RecOk base start endTime rs r)
    (hxid : r.xlXid = invalidTransactionId ∨ XidIn base r.xlXid)
    (hin : ∀ xid ∈ r.completedXids, XidIn base xid) (hnew : ∀ xid ∈ r.completedXids, xid ∉ done) :
    ∃ cells' m' M' n',
      Inv base d start (done ++ (replayed endTime [r]).flatMap WalRecord.completedXids)
        (flashbackXactRedo junk endTime rs r).1 cells' m' M' n' ∧
      ∀ xid ∈ done ++ (replayed endTime [r]).flatMap WalRecord.completedXids,
        fullOf base xid < n' := by
  by_cases hop : r.op = .other
  · obtain ⟨n', h', hle, -⟩ := h.updateNextXid hxid
    simp only [replayed, if_pos hop, flatMap_cons, completedXids_other hop, flatMap_nil,
      append_nil, redo_other hop]
    exact ⟨cells, m, M, n', h', fun xid hm => (hlt xid hm).trans_le hle⟩
  by_cases hlate : endTime < r.body.xactTime
  · simp only [replayed, if_neg hop, if_pos hlate, flatMap_nil, append_nil,
      redo_late hop hlate]
    exact ⟨cells, m, M, n, h, hlt⟩
  have hdone : (replayed endTime [r]).flatMap WalRecord.completedXids = r.completedXids := by
    simp [replayed, hlate]
  rw [hdone, redo_complete hop hlate]
  obtain ⟨hhead, hnot, hold, hnext, hbehind⟩ := hok hop (Int.not_lt.mp hlate)
  obtain ⟨cells', m', M', h1⟩ : ∃ cells' m' M', Inv base d start (done ++ r.completedXids)
      (updateFlashbackSnapshot junk rs r.xlXid) cells' m' M' n := by
    have hall : ∀ xid ∈ done ++ r.completedXids, XidIn base xid :=
      forall_mem_append.mpr ⟨h.done_in, hin⟩
    rcases hhead with hzero | hmem
    · rw [hzero, updateFlashbackSnapshot_invalid h.rep]
      refine ⟨cells, m, M, h.complete (subset_append_left _ _) hall fun xid hm hold => ?_⟩
      have hc := (mem_append.mp hm).resolve_left hold
      refine hnot xid hc fun heq => ?_
      have := (hin xid hc).1
      rw [heq, hzero] at this
      exact absurd this (by decide)
    · obtain ⟨cells', m', M', h1⟩ := h.completeHeader junk hmax (hin _ hmem) (hnew _ hmem)
        (hold _ hmem) hbehind
      refine ⟨cells', m', M', h1.complete ?_ hall fun xid hm hold => ?_⟩
      · exact append_subset.mpr ⟨subset_append_left _ _,
          cons_subset.mpr ⟨mem_append.mpr (.inr hmem), nil_subset _⟩⟩
      · rw [mem_append, mem_singleton, not_or] at hold
        exact hnot xid ((mem_append.mp hm).resolve_left hold.1) hold.2
  obtain ⟨n', h2, hle, hadv⟩ := h1.updateNextXid hxid
  have hsame : (updateFlashbackSnapshot junk rs r.xlXid).nextXid = rs.nextXid :=
    h1.next.trans h.next.symm
  refine ⟨cells', m', M', n', h2, forall_mem_append.mpr
    ⟨fun xid hm => (hlt xid hm).trans_le hle, fun xid hm => ?_⟩⟩
  have hxin := hin xid hm
  rcases hnext xid hm with hprec | ⟨heq, hat⟩
  · rw [h.next, ← hxin.ofFull, precedes_ofFull hxin.inWin h.next_win] at hprec
    exact hprec.trans_le hle
  · have hn : fullOf base xid = n := by
      rw [← hat, h.next, fullOf_ofFull h.next_win]
    rw [hn, hadv (by rw [hsame, hat, heq])]
    exact Nat.lt_succ_self n

/-! ## The whole replay -/

theorem Inv.applyWal (hmax : XidIn base start.xmax) (junk endTime) :
    ∀ wal rs done cells m M n, Inv base d start done rs cells m M n →
      (∀ xid ∈ done, fullOf base xid < n) → WalOk base start junk endTime rs wal →
      (∀ r ∈ wal, r.xlXid = invalidTransactionId ∨ XidIn base r.xlXid) →
      (∀ xid ∈ wal.flatMap WalRecord.completedXids, XidIn base xid) →
      (done ++ wal.flatMap WalRecord.completedXids).Nodup →
      ∃ cells' m' M' n',
        Inv base d start (done ++ (replayed endTime wal).flatMap WalRecord.completedXids)
          (applyWal junk endTime rs wal) cells' m' M' n' ∧
        ∀ xid ∈ done ++ (replayed endTime wal).flatMap WalRecord.completedXids,
          fullOf base xid < n' := by
  intro wal
  induction wal with
  | nil =>
    intro rs done cells m M n h hlt _ _ _ _
    simp only [replayed, flatMap_nil, append_nil]
    exact ⟨cells, m, M, n, h, hlt⟩
  | cons r wal ih =>
    intro rs done cells m M n h hlt hok hxid hin hnodup
    rw [flatMap_cons] at hin hnodup
    obtain ⟨hrec, hrest⟩ := hok
    have hdisj := (nodup_append.mp hnodup).2.2
    obtain ⟨cells', m', M', n', h', hlt'⟩ := h.redo hmax hlt junk hrec
      (hxid r mem_cons_self) (fun xid hm => hin xid (mem_append.mpr (.inl hm)))
      (fun xid hm hd => hdisj xid hd xid (mem_append.mpr (.inl hm)) rfl)
    rw [replayed_cons junk rs]
    unfold FlashbackSnapshot.applyWal
    cases hredo : flashbackXactRedo junk endTime rs r with
    | mk rs' stop =>
      rw [hredo] at h' hrest
      cases stop with
      | true =>
        simp only [if_true, append_nil]
        exact ⟨cells', m', M', n', h', hlt'⟩
      | false =>
        have hsingle := replayed_single (congrArg Prod.snd hredo)
        rw [hsingle] at h' hlt' ⊢
        rw [flatMap_singleton] at h' hlt'
        simp only [Bool.false_eq_true, if_false, flatMap_append, flatMap_singleton, ← append_assoc]
        exact ih rs' _ _ _ _ _ h' hlt' (hrest rfl) (fun r hr => hxid r (mem_cons_of_mem _ hr))
          (fun xid hm => hin xid (mem_append.mpr (.inr hm)))
          (by rwa [append_assoc])

def commitOf (xid : Nat) : WalRecord := ⟨xid, rmXactId, 0x00, ⟨1, 0, [], 0⟩⟩

/-- The replay of a valid history on a valid start has a completed
transaction in progress. -/
def LeavesCompleted (start : Start) (wal : List WalRecord) (xid : Nat) : Prop :=
  start.Valid 0 ∧ WalValid 0 wal ∧
    xid ∈ (replayed 2 wal).flatMap WalRecord.completedXids ∧
    xidInFlashbackSnapshot
      (flashbackTableApplyWal (fun _ _ => 0) 2 (.ofStart start fun _ => 0) wal) xid = true

end PolarDB.FlashbackSnapshot
