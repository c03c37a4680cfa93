import Mathlib.Order.Nat

/-!
# Adaptive parallel scans

How a worker of a parallel query walks the blocks of a relation in an adaptive
scan (heapam.c): it asks the coordinator for a unit, goes through it in the
direction of the scan and asks again behind its end. Block numbers have 32
bits, so the step back from block 0 gives the largest of them: a backward scan
does not see the end of a unit at block 0. That is the only thing that goes
wrong (`adpsScan_blocks_iff`).
-/

namespace PolarDB.PxScan

open List

def invalidBlockNumber : Nat := 0xFFFFFFFF

inductive ScanDirection where
  | forward
  | backward
  deriving DecidableEq, Repr

namespace ScanDirection

def next : ScanDirection → Nat → Nat
  | forward, page => (page + 1) % 0x100000000
  | backward, page => (page + 0xFFFFFFFF) % 0x100000000

def within : ScanDirection → Nat → Nat → Bool
  | forward, page, fetchEnd => page ≤ fetchEnd
  | backward, page, fetchEnd => page ≥ fetchEnd

def blocks : ScanDirection → Nat → Nat → List Nat
  | forward, first, last => range' first (last + 1 - first)
  | backward, first, last => (range' last (first + 1 - last)).reverse

end ScanDirection

structure SeqscanPageResponse where
  pageStart : Nat
  pageEnd : Nat
  deriving DecidableEq, Repr

/-- The end of the unit that is scanned (`pxs_fetch_end`), and the units the
worker will get: the request after them is the first without `success`. -/
structure PXScanDesc where
  fetchEnd : Nat
  responses : List SeqscanPageResponse
  deriving DecidableEq, Repr

def pxAdpsGetAdpsResponse (scan : PXScanDesc) : Option SeqscanPageResponse × PXScanDesc :=
  (scan.responses.head?, { scan with responses := scan.responses.tail })

def pxAdpsExecInit (scan : PXScanDesc) : Nat × PXScanDesc :=
  match pxAdpsGetAdpsResponse scan with
  | (none, scan) => (invalidBlockNumber, scan)
  | (some res, scan) => (res.pageStart, { scan with fetchEnd := res.pageEnd })

variable (dir : ScanDirection)

def pxAdpsNextPage (scan : PXScanDesc) (page : Nat) : Nat × Bool × PXScanDesc :=
  if dir.within (dir.next page) scan.fetchEnd then (dir.next page, false, scan)
  else
    match pxAdpsGetAdpsResponse scan with
    | (none, scan) => (invalidBlockNumber, true, scan)
    | (some res, scan) => (res.pageStart, false, { scan with fetchEnd := res.pageEnd })

/-- The caller's loop over the results of `n` calls: the blocks it reads, and
whether the scan has ended. -/
def readPages : Nat → Nat × Bool × PXScanDesc → List Nat × Bool
  | 0, _ => ([], false)
  | _ + 1, (_, true, _) => ([], true)
  | n + 1, (page, false, scan) =>
    let (pages, ended) := readPages n (pxAdpsNextPage dir scan page)
    (page :: pages, ended)

def adpsScan (scan : PXScanDesc) (n : Nat) : List Nat × Bool :=
  let (page, scan) := pxAdpsExecInit scan
  readPages dir n (page, page == invalidBlockNumber, scan)

def UnitOk (first last : Nat) : Prop :=
  first < invalidBlockNumber ∧ last < invalidBlockNumber ∧ dir.within first last = true

variable {dir} {page last : Nat}

theorem UnitOk.blocks_cons (h : UnitOk dir page last) (hne : page ≠ last) :
    UnitOk dir (dir.next page) last ∧
      dir.blocks page last = page :: dir.blocks (dir.next page) last := by
  obtain ⟨hs, he, hle⟩ := h
  rw [UnitOk, invalidBlockNumber] at *
  cases dir with
  | forward =>
    have hle : page ≤ last := of_decide_eq_true hle
    have hnext : ScanDirection.next .forward page = page + 1 := Nat.mod_eq_of_lt (by omega)
    refine ⟨⟨by omega, he, decide_eq_true (by omega)⟩, ?_⟩
    rw [hnext, ScanDirection.blocks, ScanDirection.blocks, Nat.succ_sub hle, range'_succ,
      Nat.add_sub_add_right]
  | backward =>
    have hle : last ≤ page := of_decide_eq_true hle
    obtain ⟨k, rfl⟩ := Nat.exists_eq_add_of_lt (hle.lt_of_ne hne.symm)
    have hnext : ScanDirection.next .backward (last + k + 1) = last + k := by
      rw [ScanDirection.next]
      omega
    refine ⟨⟨by omega, he, decide_eq_true (by omega)⟩, ?_⟩
    rw [hnext, ScanDirection.blocks, ScanDirection.blocks, Nat.succ_sub hle, range'_1_concat,
      reverse_concat, Nat.add_sub_cancel' hle, Nat.add_right_comm]

theorem blocks_self (dir : ScanDirection) (page : Nat) : dir.blocks page page = [page] := by
  cases dir <;> simp [ScanDirection.blocks]

theorem within_next_self (hpage : page < invalidBlockNumber) (hz : dir = .backward → page ≠ 0) :
    dir.within (dir.next page) page = false := by
  unfold invalidBlockNumber at hpage
  cases dir <;> refine decide_eq_false ?_ <;> rw [ScanDirection.next]
  · omega
  · have := hz rfl
    omega

theorem UnitOk.lt_of_mem {x : Nat} (h : UnitOk dir page last) (hx : x ∈ dir.blocks page last) :
    x < invalidBlockNumber := by
  obtain ⟨hs, he, -⟩ := h
  cases dir <;> simp only [ScanDirection.blocks, mem_reverse, mem_range'_1] at hx <;> omega

/-- A scan inside a unit reads the rest of it and then the units that follow.
Only a backward scan at block 0 does not see the end of its unit. -/
theorem readPages_eq (n : Nat) : ∀ {page last : Nat} {us : List SeqscanPageResponse},
    UnitOk dir page last → (dir = .backward → last ≠ 0) →
    (∀ u ∈ us, UnitOk dir u.pageStart u.pageEnd) → (dir = .backward → ∀ u ∈ us, u.pageEnd ≠ 0) →
    readPages dir n (page, false, ⟨last, us⟩) =
      let blocks := dir.blocks page last ++ us.flatMap fun u => dir.blocks u.pageStart u.pageEnd
      (take n blocks, decide (blocks.length < n)) := by
  induction n with
  | zero => simp [readPages]
  | succ n ih =>
    intro page last us hu hz hus hzs
    rw [readPages, pxAdpsNextPage]
    by_cases hne : page = last
    · subst hne
      rw [if_neg (Bool.eq_false_iff.mp (within_next_self hu.1 hz)), blocks_self]
      cases us with
      | nil => cases n <;> simp [pxAdpsGetAdpsResponse, readPages]
      | cons u us =>
        simp only [pxAdpsGetAdpsResponse, head?_cons, tail_cons]
        rw [forall_mem_cons] at hus
        have hzs := fun hdir => forall_mem_cons.mp (hzs hdir)
        rw [ih hus.1 (fun hdir => (hzs hdir).1) hus.2 fun hdir => (hzs hdir).2]
        simp
    · obtain ⟨hnext, hblocks⟩ := hu.blocks_cons hne
      rw [if_pos hnext.2.2, ih hnext hz hus hzs]
      simp [hblocks]

theorem pxAdpsNextPage_zero (hdir : dir = .backward) (us : List SeqscanPageResponse) :
    pxAdpsNextPage dir ⟨0, us⟩ 0 = (invalidBlockNumber, false, ⟨0, us⟩) := by
  have hnext : dir.next 0 = invalidBlockNumber := by
    rw [hdir, ScanDirection.next, invalidBlockNumber]
  have hwithin : dir.within invalidBlockNumber 0 = true := by
    rw [hdir]
    exact decide_eq_true (Nat.zero_le invalidBlockNumber)
  rw [pxAdpsNextPage, hnext, if_pos hwithin]

/-- A backward scan that reads its units and nothing else has none that ends
at block 0. -/
theorem pageEnd_ne_zero (hdir : dir = .backward) (m : Nat) :
    ∀ {page last : Nat} {us : List SeqscanPageResponse},
    UnitOk dir page last → (∀ u ∈ us, UnitOk dir u.pageStart u.pageEnd) →
    let blocks := dir.blocks page last ++ us.flatMap fun u => dir.blocks u.pageStart u.pageEnd
    blocks.length = m →
    (∀ n, readPages dir n (page, false, ⟨last, us⟩) =
      (take n blocks, decide (blocks.length < n))) →
    last ≠ 0 ∧ ∀ u ∈ us, u.pageEnd ≠ 0 := by
  induction m with
  | zero =>
    intro page last us hu hus blocks hm hread
    have hempty := (append_eq_nil_iff.mp (length_eq_zero_iff.mp hm)).1
    by_cases hne : page = last
    · rw [hne, blocks_self] at hempty
      cases hempty
    · rw [(hu.blocks_cons hne).2] at hempty
      cases hempty
  | succ m ih =>
    intro page last us hu hus blocks hm hread
    have hrest : ∀ rest, blocks = page :: rest → ∀ n,
        readPages dir n (pxAdpsNextPage dir ⟨last, us⟩ page) =
          (take n rest, decide (rest.length < n)) := by
      intro rest heq n
      have hnext := hread (n + 1)
      rw [readPages, heq] at hnext
      simpa [Prod.ext_iff] using hnext
    by_cases hne : page = last
    · subst hne
      have hrest := hrest _ (congrArg (· ++ _) (blocks_self dir page))
      have hz : page ≠ 0 := by
        rintro rfl
        have hread := hrest 1
        rw [pxAdpsNextPage_zero hdir] at hread
        have hmem : [invalidBlockNumber] = take 1 _ := congrArg Prod.fst hread
        obtain ⟨u, hin, hmem⟩ := mem_flatMap.mp (mem_of_mem_take (hmem ▸ mem_singleton_self _))
        exact absurd ((hus u hin).lt_of_mem hmem) (lt_irrefl _)
      refine ⟨hz, ?_⟩
      rw [pxAdpsNextPage,
        if_neg (Bool.eq_false_iff.mp (within_next_self hu.1 fun _ => hz))] at hrest
      cases us with
      | nil => exact forall_mem_nil _
      | cons u us =>
        rw [forall_mem_cons] at hus
        refine forall_mem_cons.mpr (ih hus.1 hus.2 ?_ hrest)
        simpa [blocks, blocks_self] using hm
    · obtain ⟨hnext, hblocks⟩ := hu.blocks_cons hne
      have hrest := hrest _ (congrArg (· ++ _) hblocks)
      rw [pxAdpsNextPage, if_pos hnext.2.2] at hrest
      refine ih hnext hus ?_ hrest
      simpa [blocks, hblocks] using hm

/-- An adaptive scan reads exactly the blocks of the units it was given, in
their order, and then ends, if and only if no unit of a backward scan ends at
block 0. -/
theorem adpsScan_blocks_iff (dir : ScanDirection) (scan : PXScanDesc)
    (hunits : ∀ u ∈ scan.responses, UnitOk dir u.pageStart u.pageEnd) :
    (∀ n, adpsScan dir scan n =
      let blocks := scan.responses.flatMap fun u => dir.blocks u.pageStart u.pageEnd
      (take n blocks, decide (blocks.length < n))) ↔
    (dir = .backward → ∀ u ∈ scan.responses, u.pageEnd ≠ 0) := by
  obtain ⟨last, us⟩ := scan
  cases us with
  | nil =>
    refine iff_of_true (fun n => ?_) fun _ => forall_mem_nil _
    cases n <;> simp [adpsScan, pxAdpsExecInit, pxAdpsGetAdpsResponse, readPages]
  | cons u us =>
    rw [forall_mem_cons] at hunits
    have hvalid : (u.pageStart == invalidBlockNumber) = false :=
      beq_eq_false_iff_ne.mpr hunits.1.1.ne
    simp only [adpsScan, pxAdpsExecInit, pxAdpsGetAdpsResponse, head?_cons, tail_cons, hvalid,
      forall_mem_cons, flatMap_cons]
    constructor
    · intro hread hdir
      exact pageEnd_ne_zero hdir _ hunits.1 hunits.2 rfl hread
    · intro hz n
      exact readPages_eq n hunits.1 (fun hdir => (hz hdir).1) hunits.2 fun hdir => (hz hdir).2

theorem adpsScan_blocks_two :
    adpsScan .backward ⟨0, [⟨9, 8⟩, ⟨1, 1⟩]⟩ 4 = ([9, 8, 1], true) :=
  (adpsScan_blocks_iff .backward ⟨0, [⟨9, 8⟩, ⟨1, 1⟩]⟩
    (by simp [UnitOk, invalidBlockNumber, ScanDirection.within])).mpr (by simp) 4

/-- A backward scan goes on from block 0 with a block that no unit has. -/
theorem adpsScan_behind_zero :
    UnitOk .backward 1 0 ∧
      adpsScan .backward ⟨0, [⟨1, 0⟩]⟩ 3 = ([1, 0, invalidBlockNumber], false) := by
  refine ⟨?_, rfl⟩
  simp [UnitOk, invalidBlockNumber, ScanDirection.within]

end PolarDB.PxScan
