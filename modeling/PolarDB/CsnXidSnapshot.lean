import PolarDB.CsnVisibleRun

/-!
# Xid snapshots in CSN mode

A snapshot with `polar_csn_xid_snapshot` set carries the list of the ids
between `xmin` and `xmax` that a scan of the CSN log took for running, and its
checks look at this list and at the outcome of a transaction, not at its CSN.
The same snapshot with the flag cleared is checked by CSN.

The scan lists entries in progress, marked ones and those stamped with the
snapshot's CSN or a larger one. So the two agree in runs in which

* an entry that points to a parent belongs to a transaction that has drawn a
  smaller CSN: the scan passes over such entries (`xidSnapshot_differs`);
* an entry with the mark belongs to a transaction that has not;
* the list does not overflow: the snapshot keeps its flag although the list
  is cut.
-/

namespace PolarDB.CsnVisible

open Csn

variable {c : Conf} {s : State}

/-- What a check by xids said is what the check by CSN says of the same id. -/
def XidsAgree (s : State) : Prop :=
  ∀ rec1 ∈ s.history, ∀ rec2 ∈ s.history, rec1.query.byXid = true → rec2.query.byXid = false →
    rec1.query.snap = rec2.query.snap → rec1.query.xid = rec2.query.xid →
    rec1.query.committed = rec2.query.committed → rec1.visible = rec2.visible

theorem Inv.xidsAgree (h : Inv True c s) : XidsAgree s := by
  intro rec1 h1 rec2 h2 _ _ hsnap hxid _
  have hv1 := (h.history rec1 h1).visible fun _ => trivial
  have hv2 := (h.history rec2 h2).visible fun _ => trivial
  rw [hsnap, hxid, ← hv2] at hv1
  exact Bool.eq_iff_iff.mpr hv1

/-- Checks by xids and by CSN agree in every run where the scans meet their
condition and the upper bounds that are read fit. -/
theorem xidsAgree_of_meets (c : Conf) (xids csns : Nat) (committed : Nat → Bool) (as : List Action)
    (s : State) (hm : Meets (step c) (StepOk True c) (State.init xids csns committed) as)
    (hs : exec (step c) (State.init xids csns committed) as = some s) : XidsAgree s := by
  have h : Inv True c s := exec_invariant_of_meets (fun _ => Inv True c)
    (fun _ _ _ _ h hok hs => h.step hok hs) (Inv.init True c xids csns committed) hm hs
  exact h.xidsAgree

/-- Transaction 5 with the subtransaction 6 is running and 7 aborted when the
snapshot is taken. -/
def subSnap : Snap := ⟨0, 5, 8, 4, true, [5], false⟩

/-- Transaction 5 commits after the snapshot, and its subtransaction is checked
in both ways. -/
def subCommittedLater : List Action :=
  [.begin, .assignSub 5 5, .tx 5, .begin, .abort 7 [], .tx 7, .tx 7, .snapshot 0 true, .reader 0,
    .reader 0, .reader 0, .reader 0, .reader 0, .reader 0, .commit 5 [6], .tx 5, .tx 5, .tx 5,
    .tx 5, .tx 5, .tx 5, .tx 5, .tx 5, .check 0 ⟨subSnap, 6, false, false⟩, .reader 0,
    .check 0 ⟨subSnap, 6, false, true⟩]

/-- The subtransaction is visible by xids and not visible by CSN. -/
theorem xidSnapshot_differs :
    ∃ s, exec (step ⟨10, false, id⟩) (State.init 2 0 fun _ => true) subCommittedLater = some s
      ∧ s.history.map (fun rec => (rec.query.snap, rec.query.xid, rec.query.byXid, rec.visible))
        = [(subSnap, 6, false, false), (subSnap, 6, true, true)]
      ∧ ¬XidsAgree s := by
  refine exec_eval (E := fun s => s.history = [⟨⟨subSnap, 6, false, true⟩, false, .committed⟩,
    ⟨⟨subSnap, 6, false, false⟩, true, .committed⟩]) (by decide) fun s _ hh => ?_
  refine ⟨by rw [hh]; rfl, fun hag => ?_⟩
  have := hag ⟨⟨subSnap, 6, false, false⟩, true, .committed⟩ (by rw [hh]; simp)
    ⟨⟨subSnap, 6, false, true⟩, false, .committed⟩ (by rw [hh]; simp) rfl rfl rfl rfl rfl
  cases this

/-- Transaction 5 is running and 6 aborted when the snapshot is taken. -/
def topSnap : Snap := ⟨0, 5, 7, 4, true, [5], false⟩

/-- Transaction 5 commits after the snapshot, and both are checked in both
ways. -/
def topCommittedLater : List Action :=
  [.begin, .begin, .abort 6 [], .tx 6, .tx 6, .snapshot 0 true, .reader 0, .reader 0, .reader 0,
    .reader 0, .reader 0, .commit 5 [], .tx 5, .tx 5, .tx 5, .tx 5, .tx 5, .tx 5,
    .check 0 ⟨topSnap, 5, true, false⟩, .check 0 ⟨topSnap, 5, true, true⟩, .reader 0,
    .check 0 ⟨topSnap, 6, false, false⟩, .reader 0, .check 0 ⟨topSnap, 6, false, true⟩]

theorem xidsAgree_topCommittedLater :
    ∃ s, exec (step ⟨10, false, id⟩) (State.init 2 0 fun _ => true) topCommittedLater = some s
      ∧ s.history.length = 4 ∧ XidsAgree s := by
  refine exec_eval (E := fun s => s.history.length = 4) (by decide) fun s hs heq => ?_
  exact ⟨heq, xidsAgree_of_meets ⟨10, false, id⟩ 2 0 (fun _ => true) topCommittedLater s
    (by decide) hs⟩

end PolarDB.CsnVisible
