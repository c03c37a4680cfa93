import Mathlib.Data.Nat.Init

/-!
# Transaction ids

A transaction id has 32 bits; 0, 1 and 2 are special, and the counter
goes on with 3 after its largest value. Two normal ids are compared by
the sign of their 32-bit difference.

The ids a server gives out are numbered through: the `k`-th one is
`ofFull k`. As long as two numbers are less than `xidWindow` apart,
comparing their ids is comparing the numbers (`precedes_ofFull`), and the
id after `ofFull k` is that of `k + 1` (`transactionIdAdvance_ofFull`).
-/

namespace PolarDB

def xidSpace : Nat := 4294967296

def firstNormalTransactionId : Nat := 3

def invalidTransactionId : Nat := 0

def transactionIdIsNormal (xid : Nat) : Bool := firstNormalTransactionId ≤ xid

def xidDiff (id1 id2 : Nat) : Nat := (id1 + xidSpace - id2) % xidSpace

def xidDiffNegative (id1 id2 : Nat) : Bool := 2147483648 ≤ xidDiff id1 id2

def transactionIdPrecedes (id1 id2 : Nat) : Bool :=
  if !transactionIdIsNormal id1 || !transactionIdIsNormal id2 then id1 < id2
  else xidDiffNegative id1 id2

def transactionIdFollowsOrEquals (id1 id2 : Nat) : Bool :=
  if !transactionIdIsNormal id1 || !transactionIdIsNormal id2 then id2 ≤ id1
  else !xidDiffNegative id1 id2

def transactionIdAdvance (xid : Nat) : Nat :=
  let next := (xid + 1) % xidSpace
  if next < firstNormalTransactionId then firstNormalTransactionId else next

/-! ## Numbered ids -/

def xidNormal : Nat := 4294967293

def ofFull (k : Nat) : Nat := firstNormalTransactionId + k % xidNormal

def xidWindow : Nat := 2147483645

/-- `k` is a number whose id can be compared, from `base` on. -/
def InWin (base k : Nat) : Prop := base ≤ k ∧ k < base + xidWindow

variable {base k l : Nat}

theorem ofFull_eq (k : Nat) : ofFull k = 3 + k % 4294967293 := rfl

theorem ofFull_ne_zero (k : Nat) : ofFull k ≠ 0 := by
  rw [ofFull_eq]
  omega

theorem ofFull_normal (k : Nat) : transactionIdIsNormal (ofFull k) = true :=
  decide_eq_true (Nat.le_add_right 3 _)

/-- The ids of numbers that are close: the larger is ahead by as much, or
by three more where the special ids are passed. -/
theorem ofFull_add (hd : l < xidWindow) :
    (ofFull (k + l) = ofFull k + l ∧ ofFull k + l < xidSpace) ∨
      ofFull (k + l) + xidSpace = ofFull k + l + 3 := by
  rw [ofFull_eq, ofFull_eq]
  unfold xidWindow at hd
  unfold xidSpace
  omega

theorem xidDiff_ofFull (hd : l < xidWindow) :
    (l = 0 ∨ 2147483648 ≤ xidDiff (ofFull k) (ofFull (k + l))) ∧
      xidDiff (ofFull (k + l)) (ofFull k) < 2147483648 := by
  have h := ofFull_add (k := k) hd
  unfold xidDiff
  unfold xidWindow at hd
  unfold xidSpace at *
  omega

section

variable (hk : InWin base k) (hl : InWin base l)
include hk hl

/-- Close numbers compare as their ids do. -/
theorem precedes_ofFull : transactionIdPrecedes (ofFull k) (ofFull l) = true ↔ k < l := by
  obtain ⟨hk, hkw⟩ := hk
  obtain ⟨hl, hlw⟩ := hl
  rw [transactionIdPrecedes, ofFull_normal, ofFull_normal]
  simp only [Bool.not_true, Bool.or_self, Bool.false_eq_true, if_false, xidDiffNegative,
    decide_eq_true_eq]
  rcases Nat.lt_or_ge k l with hlt | hge
  · obtain ⟨d, rfl⟩ := Nat.exists_eq_add_of_le (Nat.le_of_lt hlt)
    have := (xidDiff_ofFull (k := k) (show d < xidWindow by omega)).1
    omega
  · obtain ⟨d, rfl⟩ := Nat.exists_eq_add_of_le hge
    have := (xidDiff_ofFull (k := l) (show d < xidWindow by omega)).2
    omega

theorem followsOrEquals_ofFull : transactionIdFollowsOrEquals (ofFull k) (ofFull l) = true ↔
    l ≤ k := by
  have h : transactionIdFollowsOrEquals (ofFull k) (ofFull l) =
      !transactionIdPrecedes (ofFull k) (ofFull l) := by
    simp only [transactionIdFollowsOrEquals, transactionIdPrecedes, ofFull_normal,
      Bool.not_true, Bool.or_self, Bool.false_eq_true, if_false]
  rw [h, Bool.not_eq_true', ← Bool.not_eq_true, precedes_ofFull hk hl, Nat.not_lt]

end

theorem transactionIdAdvance_ofFull (k : Nat) :
    transactionIdAdvance (ofFull k) = ofFull (k + 1) := by
  rw [ofFull_eq, ofFull_eq]
  unfold transactionIdAdvance xidSpace firstNormalTransactionId
  dsimp only
  split <;> omega

/-! ## The number of an id -/

def fullOf (base xid : Nat) : Nat :=
  base + (xid - firstNormalTransactionId + (xidNormal - base % xidNormal)) % xidNormal

theorem ofFull_fullOf {xid : Nat} (hn : firstNormalTransactionId ≤ xid) (hlt : xid < xidSpace) :
    ofFull (fullOf base xid) = xid := by
  rw [ofFull_eq]
  unfold fullOf
  unfold firstNormalTransactionId at *
  unfold xidNormal
  unfold xidSpace at hlt
  omega

theorem fullOf_ofFull (hk : InWin base k) : fullOf base (ofFull k) = k := by
  obtain ⟨hk, hlt⟩ := hk
  rw [ofFull_eq]
  unfold fullOf firstNormalTransactionId xidNormal
  unfold xidWindow at hlt
  omega

theorem ofFull_inj (hk : InWin base k) (hl : InWin base l) : ofFull k = ofFull l ↔ k = l := by
  refine ⟨fun h => ?_, congrArg ofFull⟩
  rw [← fullOf_ofFull hk, h, fullOf_ofFull hl]

end PolarDB
