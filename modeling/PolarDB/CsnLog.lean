import Mathlib.Data.List.SplitBy

/-!
# The commit sequence number log

The log has one entry for each transaction id: the state of the transaction,
its commit sequence number (CSN), or for a subtransaction that has not ended
its parent. Entries are read and written atomically, one by one; a
transaction and its subtransactions are stamped page by page.

Transaction ids are numbers without a bound here. The ids in use at a time
lie within half of the 32-bit circle, where the comparison of the source is
the one of numbers (`precedes_ofFull` in `PolarDB.TransactionId`).
-/

namespace PolarDB.Csn

/-! ## Entries -/

/-- An entry of the log. A `normal` one is a CSN that was drawn by a commit,
from `POLAR_CSN_FIRST_NORMAL` on; `subtrans` is the bit that marks a
subtransaction, with the parent. -/
inductive Entry where
  | inprogress
  | aborted
  | committing
  | frozen
  | normal (csn : Nat)
  | subtrans (parent : Nat)
  deriving DecidableEq, Repr

namespace Entry

def isCommitted : Entry → Bool
  | .frozen | .normal _ => true
  | _ => false

def isActive : Entry → Bool
  | .inprogress | .committing => true
  | _ => false

def isSubtrans : Entry → Bool
  | .subtrans _ => true
  | _ => false

end Entry

def firstNormal : Nat := 4

abbrev Log := Nat → Entry

/-- `polar_csnlog_set_parent`: the parent is set in an entry that is in
progress or has another parent, and ignored otherwise. -/
def setParent (log : Log) (xid parent : Nat) : Log :=
  match log xid with
  | .inprogress | .subtrans _ => Function.update log xid (.subtrans parent)
  | _ => log

/-! ## Stamping a transaction tree -/

def xactsPerPage : Nat := 1024

def pageNo (xid : Nat) : Nat := xid / xactsPerPage

/-- The calls of `polar_csnlog_set_csn_by_page` that `polar_csnlog_set_csn`
makes: the subtransaction ids from the last one down, one call for each page,
and the id itself with the last of them or in a call of its own. The ids of a
call are written in this order. -/
def setCsnPages (xid : Nat) (subxids : List Nat) : List (List Nat) :=
  let pages := subxids.reverse.splitBy fun a b => pageNo a == pageNo b
  if pages.getLast?.bind (·.head?) |>.any (pageNo · == pageNo xid) then
    pages.dropLast ++ [pages.getLast?.getD [] ++ [xid]]
  else pages ++ [[xid]]

def setCsnOrder (xid : Nat) (subxids : List Nat) : List Nat := (setCsnPages xid subxids).flatten

/-- Children are stamped before their parents, whatever pages they are on. -/
theorem setCsnOrder_eq (xid : Nat) (subxids : List Nat) :
    setCsnOrder xid subxids = subxids.reverse ++ [xid] := by
  have hflat := List.flatten_splitBy (fun a b => pageNo a == pageNo b) subxids.reverse
  unfold setCsnOrder setCsnPages
  generalize subxids.reverse.splitBy (fun a b => pageNo a == pageNo b) = pages at hflat ⊢
  rw [← hflat]
  cases pages using List.reverseRecOn with
  | nil => rfl
  | append_singleton pages last =>
    simp only [List.getLast?_append]
    split <;> simp

end PolarDB.Csn
