import Mathlib.Algebra.Order.Ring.Nat
import PolarDB.PagedStream

/-!
# WAL positions

WAL is stored in segments of pages; the first page of a segment starts with a
long header and the others with a short one. A record pointer (LSN) counts all
bytes. A byte position counts the usable ones, without the headers; space for
records is reserved in byte positions.

The three conversions of the source are computed by division. They agree with
the layout of pages with headers (`recPtrToBytePos_eq`,
`bytePosToRecPtr_spec`, `bytePosToEndRecPtr_spec`), and no later proof looks at
the divisions again.
-/

namespace PolarDB.Xlog

def sizeOfShortPhd : Nat := 24

def sizeOfLongPhd : Nat := 40

def maximumAlignof : Nat := 8

def maxAlign (n : Nat) : Nat := (n + (maximumAlignof - 1)) / maximumAlignof * maximumAlignof

structure Geometry where
  blcksz : Nat
  segPages : Nat
  long_lt : sizeOfLongPhd < blcksz
  aligned : maximumAlignof ∣ blcksz
  segPages_pos : 0 < segPages

namespace Geometry

variable (g : Geometry) {p b k : Nat}

def walSegmentSize : Nat := g.segPages * g.blcksz

def usableBytesInPage : Nat := g.blcksz - sizeOfShortPhd

def usableBytesInSegment : Nat :=
  g.segPages * g.usableBytesInPage - (sizeOfLongPhd - sizeOfShortPhd)

def segmentOffset (p : Nat) : Nat := p % g.walSegmentSize

def insertFreespace (p : Nat) : Nat := if p % g.blcksz = 0 then 0 else g.blcksz - p % g.blcksz

def bytePosToRecPtr (bytepos : Nat) : Nat :=
  let fullsegs := bytepos / g.usableBytesInSegment
  let bytesleft := bytepos % g.usableBytesInSegment
  let segOffset :=
    if bytesleft < g.blcksz - sizeOfLongPhd then bytesleft + sizeOfLongPhd
    else
      let bytesleft := bytesleft - (g.blcksz - sizeOfLongPhd)
      let fullpages := bytesleft / g.usableBytesInPage
      let bytesleft := bytesleft % g.usableBytesInPage
      g.blcksz + (fullpages * g.blcksz + bytesleft + sizeOfShortPhd)
  fullsegs * g.walSegmentSize + segOffset

def bytePosToEndRecPtr (bytepos : Nat) : Nat :=
  let fullsegs := bytepos / g.usableBytesInSegment
  let bytesleft := bytepos % g.usableBytesInSegment
  let segOffset :=
    if bytesleft < g.blcksz - sizeOfLongPhd then
      if bytesleft = 0 then 0 else bytesleft + sizeOfLongPhd
    else
      let bytesleft := bytesleft - (g.blcksz - sizeOfLongPhd)
      let fullpages := bytesleft / g.usableBytesInPage
      let bytesleft := bytesleft % g.usableBytesInPage
      if bytesleft = 0 then g.blcksz + (fullpages * g.blcksz + bytesleft)
      else g.blcksz + (fullpages * g.blcksz + bytesleft + sizeOfShortPhd)
  fullsegs * g.walSegmentSize + segOffset

def recPtrToBytePos (ptr : Nat) : Nat :=
  let fullsegs := ptr / g.walSegmentSize
  let fullpages := g.segmentOffset ptr / g.blcksz
  let offset := ptr % g.blcksz
  if fullpages = 0 then
    fullsegs * g.usableBytesInSegment + (if 0 < offset then offset - sizeOfLongPhd else 0)
  else
    fullsegs * g.usableBytesInSegment + (g.blcksz - sizeOfLongPhd)
      + (fullpages - 1) * g.usableBytesInPage
      + (if 0 < offset then offset - sizeOfShortPhd else 0)

/-! ## The layout -/

def headerSize (page : Nat) : Nat := if page % g.segPages = 0 then sizeOfLongPhd else sizeOfShortPhd

theorem headerSize_lt (page : Nat) : g.headerSize page < g.blcksz := by
  have := g.long_lt
  unfold headerSize
  split
  · exact this
  · exact Nat.lt_trans (by decide) this

def layout : Layout := ⟨g.blcksz, g.headerSize, g.headerSize_lt⟩

theorem blcksz_pos : 0 < g.blcksz := (Nat.zero_le _).trans_lt g.long_lt

def pageStart (k : Nat) : Nat :=
  if k = 0 then 0 else (g.blcksz - sizeOfLongPhd) + (k - 1) * g.usableBytesInPage

theorem pageStart_succ (k : Nat) :
    g.pageStart (k + 1) = g.blcksz - sizeOfLongPhd + k * g.usableBytesInPage := by
  simp [pageStart]

theorem pageStart_segPages : g.pageStart g.segPages = g.usableBytesInSegment := by
  obtain ⟨n, hn⟩ := Nat.exists_eq_add_one.mpr g.segPages_pos
  have hlong := g.long_lt
  rw [usableBytesInSegment, hn, pageStart_succ, Nat.add_mul]
  simp only [usableBytesInPage, sizeOfLongPhd, sizeOfShortPhd] at *
  omega

theorem start_eq (page : Nat) : g.layout.start page
      = page / g.segPages * g.usableBytesInSegment + g.pageStart (page % g.segPages) := by
  have hpos := g.segPages_pos
  induction page with
  | zero => simp [Layout.start, pageStart]
  | succ page ih =>
    have hstep : g.layout.start (page + 1)
        = g.layout.start page + (g.blcksz - g.headerSize page) := rfl
    have hhead : g.pageStart (page % g.segPages) + (g.blcksz - g.headerSize page)
        = g.pageStart (page % g.segPages + 1) := by
      rw [pageStart_succ, pageStart, headerSize]
      by_cases hz : page % g.segPages = 0
      · simp [hz]
      · obtain ⟨r, hr⟩ : ∃ r, page % g.segPages = r + 1 := ⟨page % g.segPages - 1, by omega⟩
        rw [if_neg hz, if_neg hz, hr, Nat.add_mul]
        simp only [Nat.add_sub_cancel, usableBytesInPage]
        omega
    rw [hstep, ih, Nat.add_assoc, hhead]
    by_cases hlast : page % g.segPages + 1 = g.segPages
    · have hdm := Nat.div_add_mod' page g.segPages
      have hnext : page + 1 = (page / g.segPages + 1) * g.segPages := by
        rw [Nat.add_mul]
        omega
      rw [hlast, pageStart_segPages, hnext, Nat.mul_div_cancel _ hpos, Nat.add_mul]
      simp [pageStart]
    · have hlt : page % g.segPages + 1 < g.segPages := by
        have := Nat.mod_lt page hpos
        omega
      have hdm := Nat.div_add_mod' page g.segPages
      have hnext : page + 1 = page / g.segPages * g.segPages + (page % g.segPages + 1) := by omega
      have hdiv : (page + 1) / g.segPages = page / g.segPages := by
        rw [hnext, Nat.mul_comm, Nat.mul_add_div hpos, Nat.div_eq_of_lt hlt, Nat.add_zero]
      have hmod : (page + 1) % g.segPages = page % g.segPages + 1 := by
        rw [hnext, Nat.mul_comm, Nat.mul_add_mod, Nat.mod_eq_of_lt hlt]
      rw [hdiv, hmod]

/-! ## The conversions -/

theorem recPtrToBytePos_eq (ptr : Nat) : g.recPtrToBytePos ptr = g.layout.pos ptr := by
  have hseg : ptr / g.walSegmentSize = ptr / g.blcksz / g.segPages := by
    rw [walSegmentSize, Nat.mul_comm, Nat.div_div_eq_div_mul]
  have hpage : g.segmentOffset ptr / g.blcksz = ptr / g.blcksz % g.segPages := by
    rw [segmentOffset, walSegmentSize, Nat.mul_comm, Nat.mod_mul_right_div_self]
  have hpos : g.layout.pos ptr = g.layout.start (ptr / g.blcksz)
      + (ptr % g.blcksz - g.headerSize (ptr / g.blcksz)) := rfl
  rw [hpos, start_eq, recPtrToBytePos, hseg, hpage, pageStart, headerSize]
  by_cases hz : ptr / g.blcksz % g.segPages = 0
  · simp only [hz, if_true]
    split <;> omega
  · simp only [hz, if_false]
    split <;> omega

section

variable (fullsegs : Nat) (hk : k < g.segPages)
include fullsegs hk

theorem page_mod : (fullsegs * g.segPages + k) % g.segPages = k := by
  rw [Nat.mul_comm, Nat.mul_add_mod, Nat.mod_eq_of_lt hk]

theorem start_page :
    g.layout.start (fullsegs * g.segPages + k) =
      fullsegs * g.usableBytesInSegment + g.pageStart k := by
  have hdiv : (fullsegs * g.segPages + k) / g.segPages = fullsegs := by
    rw [Nat.mul_comm, Nat.mul_add_div g.segPages_pos, Nat.div_eq_of_lt hk, Nat.add_zero]
  rw [start_eq, page_mod g fullsegs hk, hdiv]

theorem headerSize_page : g.headerSize (fullsegs * g.segPages + k) = g.headerSize k := by
  rw [headerSize, headerSize, page_mod g fullsegs hk, Nat.mod_eq_of_lt hk]

end

theorem usableBytesInPage_pos : 0 < g.usableBytesInPage := by
  have := g.long_lt
  simp only [usableBytesInPage, sizeOfShortPhd, sizeOfLongPhd] at *
  omega

theorem usableBytesInSegment_pos : 0 < g.usableBytesInSegment := by
  rw [← pageStart_segPages, pageStart, if_neg g.segPages_pos.ne']
  have := g.long_lt
  omega

theorem exists_page (bytepos : Nat) : ∃ k left, k < g.segPages ∧ left < g.blcksz - g.headerSize k ∧
      bytepos % g.usableBytesInSegment = g.pageStart k + left := by
  have hlt := Nat.mod_lt bytepos g.usableBytesInSegment_pos
  generalize bytepos % g.usableBytesInSegment = r at hlt
  by_cases hfirst : r < g.blcksz - sizeOfLongPhd
  · refine ⟨0, r, g.segPages_pos, ?_, by simp [pageStart]⟩
    exact hfirst
  · have hup := g.usableBytesInPage_pos
    generalize hq : (r - (g.blcksz - sizeOfLongPhd)) / g.usableBytesInPage = q
    generalize hm : (r - (g.blcksz - sizeOfLongPhd)) % g.usableBytesInPage = m
    have hdm := Nat.div_add_mod' (r - (g.blcksz - sizeOfLongPhd)) g.usableBytesInPage
    rw [hq] at hdm
    have hml : m < g.usableBytesInPage := hm ▸ Nat.mod_lt _ hup
    have hqs : q + 1 < g.segPages := by
      by_contra hge
      obtain ⟨n, hn⟩ := Nat.exists_eq_add_one.mpr g.segPages_pos
      have hle : n * g.usableBytesInPage ≤ q * g.usableBytesInPage :=
        Nat.mul_le_mul_right _ (by omega)
      rw [← pageStart_segPages, hn, pageStart_succ] at hlt
      omega
    refine ⟨q + 1, m, hqs, ?_, ?_⟩
    · rwa [headerSize, Nat.mod_eq_of_lt hqs]
    · rw [pageStart_succ]
      omega

theorem split_left {q m : Nat} (hm : m < g.usableBytesInPage) :
    ¬g.pageStart (q + 1) + m < g.blcksz - sizeOfLongPhd
      ∧ (g.pageStart (q + 1) + m - (g.blcksz - sizeOfLongPhd)) / g.usableBytesInPage = q
      ∧ (g.pageStart (q + 1) + m - (g.blcksz - sizeOfLongPhd)) % g.usableBytesInPage = m := by
  have hsub : g.pageStart (q + 1) + m - (g.blcksz - sizeOfLongPhd) =
      q * g.usableBytesInPage + m := by
    rw [pageStart_succ]
    omega
  rw [hsub, Nat.mul_comm, Nat.mul_add_div g.usableBytesInPage_pos, Nat.mul_add_mod,
    Nat.div_eq_of_lt hm, Nat.mod_eq_of_lt hm, pageStart_succ]
  exact ⟨by omega, Nat.add_zero q, rfl⟩

theorem bytePosTo_page {left : Nat} (hk : k < g.segPages) (hleft : left < g.blcksz - g.headerSize k)
    (hmod : b % g.usableBytesInSegment = g.pageStart k + left) :
    g.bytePosToRecPtr b
        = (b / g.usableBytesInSegment * g.segPages + k) * g.blcksz + (g.headerSize k + left)
      ∧ g.bytePosToEndRecPtr b = (b / g.usableBytesInSegment * g.segPages + k) * g.blcksz
        + (if left = 0 then 0 else g.headerSize k + left) := by
  unfold bytePosToRecPtr bytePosToEndRecPtr
  simp only [hmod]
  rw [headerSize, Nat.mod_eq_of_lt hk] at hleft ⊢
  cases k with
  | zero =>
    rw [if_pos rfl] at hleft ⊢
    rw [show g.pageStart 0 + left = left by simp [pageStart], if_pos hleft, if_pos hleft,
      walSegmentSize, Nat.add_zero, Nat.mul_assoc]
    exact ⟨by omega, by split <;> omega⟩
  | succ q =>
    rw [if_neg (Nat.succ_ne_zero q)] at hleft ⊢
    obtain ⟨hge, hdiv, hm⟩ := g.split_left hleft
    rw [if_neg hge, if_neg hge, hdiv, hm, walSegmentSize]
    simp only [Nat.add_mul, Nat.mul_assoc]
    exact ⟨by omega, by split <;> omega⟩

theorem pos_page {fullsegs off : Nat} (hk : k < g.segPages) (hoff : off < g.layout.block) :
    g.layout.pos ((fullsegs * g.segPages + k) * g.blcksz + off)
      = fullsegs * g.usableBytesInSegment + g.pageStart k + (off - g.headerSize k) := by
  have hpos := g.layout.pos_at (g := fullsegs * g.segPages + k) hoff
  have hhead : g.layout.header (fullsegs * g.segPages + k) = g.headerSize k :=
    g.headerSize_page fullsegs hk
  rwa [hhead, start_page g _ hk] at hpos

/-- The pointer for a byte position is behind the header, and has that
position. -/
theorem bytePosToRecPtr_spec (bytepos : Nat) : g.layout.pos (g.bytePosToRecPtr bytepos) = bytepos
      ∧ g.layout.InBody (g.bytePosToRecPtr bytepos) := by
  obtain ⟨k, left, hk, hleft, hmod⟩ := g.exists_page bytepos
  have hhead := g.headerSize_page (bytepos / g.usableBytesInSegment) hk
  have hoff : g.headerSize k + left < g.layout.block := by
    have : g.layout.block = g.blcksz := rfl
    omega
  rw [(g.bytePosTo_page hk hleft hmod).1]
  constructor
  · rw [g.pos_page hk hoff]
    have hdm := Nat.div_add_mod' bytepos g.usableBytesInSegment
    omega
  · exact (g.layout.inBody_at hoff).mpr (hhead.le.trans (Nat.le_add_right _ _))

/-- The pointer for the end of a record has that position, and is a page
boundary or behind a byte. -/
theorem bytePosToEndRecPtr_spec (bytepos : Nat) :
    g.layout.pos (g.bytePosToEndRecPtr bytepos) = bytepos
      ∧ g.layout.IsEnd (g.bytePosToEndRecPtr bytepos) := by
  obtain ⟨k, left, hk, hleft, hmod⟩ := g.exists_page bytepos
  have hhead := g.headerSize_page (bytepos / g.usableBytesInSegment) hk
  have hblock : g.layout.block = g.blcksz := rfl
  have hoff : (if left = 0 then 0 else g.headerSize k + left) < g.layout.block := by
    split <;> omega
  rw [(g.bytePosTo_page hk hleft hmod).2]
  constructor
  · rw [g.pos_page hk hoff]
    have hdm := Nat.div_add_mod' bytepos g.usableBytesInSegment
    split <;> omega
  · refine (g.layout.isEnd_at hoff).mpr ?_
    have hl : g.layout.header (bytepos / g.usableBytesInSegment * g.segPages + k)
      = g.headerSize k := hhead
    split
    · exact .inl rfl
    · exact .inr (by omega)

/-- Byte positions correspond to the pointers to bytes, and to the pointers
behind bytes. -/
theorem bytePos_recPtr_inverse :
    (∀ p, g.recPtrToBytePos (g.bytePosToRecPtr p) = p ∧
      g.recPtrToBytePos (g.bytePosToEndRecPtr p) = p) ∧
    (∀ ptr, g.layout.InBody ptr → g.bytePosToRecPtr (g.recPtrToBytePos ptr) = ptr) ∧
    ∀ ptr, g.layout.IsEnd ptr → g.bytePosToEndRecPtr (g.recPtrToBytePos ptr) = ptr := by
  simp only [recPtrToBytePos_eq]
  refine ⟨fun p => ⟨(g.bytePosToRecPtr_spec p).1, (g.bytePosToEndRecPtr_spec p).1⟩,
    fun ptr hbody => ?_, fun ptr hend => ?_⟩
  · obtain ⟨hpos, hin⟩ := g.bytePosToRecPtr_spec (g.layout.pos ptr)
    exact le_antisymm (hbody.le_of_pos_le hpos.le) (hin.le_of_pos_le hpos.ge)
  · obtain ⟨hpos, hin⟩ := g.bytePosToEndRecPtr_spec (g.layout.pos ptr)
    exact hin.eq_of_pos_eq hend hpos

end Geometry

end PolarDB.Xlog
