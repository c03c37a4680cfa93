import PolarDB.XlogPosition

/-!
# Flashback log positions

The flashback log is laid out like WAL: segments of pages, a long header on the
first page of a segment and a short one on the others, both of the sizes of
WAL. Its conversions are those of `Xlog.Geometry` at its own page and segment
size.

Space for a record is reserved in byte positions under one lock, so a record
starts where the one before it ends, and a reader that knows the start and the
length of a record finds the next one.
-/

namespace PolarDB.FlogPosition

open Xlog

def geometry : Geometry where
  blcksz := 8192
  segPages := 32768
  long_lt := Nat.le_of_ble_eq_true rfl
  aligned := ⟨1024, rfl⟩
  segPages_pos := Nat.le_of_ble_eq_true rfl

def pos2ptr (bytepos : Nat) : Nat := geometry.bytePosToRecPtr bytepos

def pos2endptr (bytepos : Nat) : Nat := geometry.bytePosToEndRecPtr bytepos

def ptr2pos (ptr : Nat) : Nat := geometry.recPtrToBytePos ptr

def convertToFirstValidPtr (pagePtr : Nat) : Nat :=
  if pagePtr % geometry.walSegmentSize = 0 then pagePtr + sizeOfLongPhd
  else if pagePtr % geometry.blcksz = 0 then pagePtr + sizeOfShortPhd
  else pagePtr

def getNextFlogPtr (ptr logLen : Nat) : Nat := pos2ptr (ptr2pos ptr + maxAlign logLen)

structure Insert where
  currPos : Nat
  prevPos : Nat
  deriving DecidableEq, Repr

structure Reserved where
  startPtr : Nat
  endPtr : Nat
  prevPtr : Nat
  deriving DecidableEq, Repr

def reserveFlogInsertLocation (insert : Insert) (size : Nat) : Reserved × Insert :=
  let endBytepos := insert.currPos + maxAlign size
  let startPtr := pos2ptr insert.currPos
  let prevPtr := if startPtr = sizeOfLongPhd then 0 else pos2ptr insert.prevPos
  let prevPtr :=
    if prevPtr = sizeOfLongPhd ∧ startPtr % geometry.walSegmentSize = sizeOfLongPhd then 0
    else prevPtr
  (⟨startPtr, pos2endptr endBytepos, prevPtr⟩, ⟨endBytepos, insert.currPos⟩)

theorem ptr2pos_pos2ptr (p : Nat) : ptr2pos (pos2ptr p) = p :=
  (geometry.recPtrToBytePos_eq _).trans (geometry.bytePosToRecPtr_spec p).1

theorem ptr2pos_pos2endptr (p : Nat) : ptr2pos (pos2endptr p) = p :=
  (geometry.recPtrToBytePos_eq _).trans (geometry.bytePosToEndRecPtr_spec p).1

theorem lt_of_ptr2pos_lt {a b : Nat} (h : ptr2pos a < ptr2pos b) : a < b := by
  rw [ptr2pos, ptr2pos, Geometry.recPtrToBytePos_eq, Geometry.recPtrToBytePos_eq] at h
  exact geometry.layout.lt_of_pos_lt h

theorem convertToFirstValidPtr_pos2endptr (p : Nat) :
    convertToFirstValidPtr (pos2endptr p) = pos2ptr p := by
  obtain ⟨k, left, hk, hleft, hmod⟩ := geometry.exists_page p
  obtain ⟨hptr, hend⟩ := geometry.bytePosTo_page hk hleft hmod
  have hhead : geometry.headerSize k = if k = 0 then 40 else 24 := by
    rw [Geometry.headerSize, Nat.mod_eq_of_lt hk]
    rfl
  have hk : k < 32768 := hk
  have hleft : left < 8192 - geometry.headerSize k := hleft
  rw [pos2ptr, pos2endptr, hptr, hend, convertToFirstValidPtr]
  rw [hhead] at hleft ⊢
  generalize p / geometry.usableBytesInSegment = f
  simp only [Geometry.walSegmentSize, geometry, sizeOfLongPhd, sizeOfShortPhd]
  split_ifs at hleft ⊢ <;> omega

/-- Positions and pointers, and the start of the next record. -/
theorem position_bijection : (∀ p, ptr2pos (pos2ptr p) = p ∧ ptr2pos (pos2endptr p) = p) ∧
    StrictMono pos2ptr ∧ StrictMono pos2endptr ∧
    (∀ p, geometry.headerSize (pos2ptr p / geometry.blcksz) ≤ pos2ptr p % geometry.blcksz) ∧
    (∀ p, convertToFirstValidPtr (pos2endptr p) = pos2ptr p) ∧
    ∀ insert n m, (reserveFlogInsertLocation (reserveFlogInsertLocation insert n).2 m).1.startPtr =
      getNextFlogPtr (reserveFlogInsertLocation insert n).1.startPtr n := by
  refine ⟨fun p => ⟨ptr2pos_pos2ptr p, ptr2pos_pos2endptr p⟩, fun p q hpq => ?_,
    fun p q hpq => ?_, fun p => (geometry.bytePosToRecPtr_spec p).2,
    convertToFirstValidPtr_pos2endptr, fun insert n _ => ?_⟩
  · apply lt_of_ptr2pos_lt
    rwa [ptr2pos_pos2ptr, ptr2pos_pos2ptr]
  · apply lt_of_ptr2pos_lt
    rwa [ptr2pos_pos2endptr, ptr2pos_pos2endptr]
  · simp only [reserveFlogInsertLocation, getNextFlogPtr, ptr2pos_pos2ptr]

end PolarDB.FlogPosition
