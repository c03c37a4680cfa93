import PolarDB.WalPipelineWritten

/-!
# The links of a record are a chain

The links that `CopyXLogRecordToWAL` adds for a record lead without a gap from
the byte position where its space starts to the one where it ends
(`chain_insert`, `chain_switch`), however the data is cut into pieces and
whatever pages and segments it spans. Together with the alignment of sizes and
headers this is also why the check at the end of the copy does not fail.
-/

namespace PolarDB.WalPipeline

open Xlog

variable {g : Geometry} {curr freespace len fuel p : Nat} {lens : List Nat}

/-! ## Pages -/

theorem headerSize_ge (page : Nat) : sizeOfShortPhd ≤ g.headerSize page := by
  unfold Geometry.headerSize
  split <;> decide

theorem segmentOffset_block (page : Nat) :
    g.segmentOffset (page * g.blcksz) = page % g.segPages * g.blcksz := by
  rw [Geometry.segmentOffset, Geometry.walSegmentSize, Nat.mul_mod_mul_right]

theorem header_next (page : Nat) :
    (if g.segmentOffset (page * g.blcksz) = 0 then sizeOfLongPhd else sizeOfShortPhd)
      = g.headerSize page := by
  have hpos := g.blcksz_pos
  rw [segmentOffset_block, Geometry.headerSize]
  by_cases hz : page % g.segPages = 0
  · simp [hz]
  · rw [if_neg hz, if_neg (by simp [hz]; omega)]

theorem insertFreespace_at {page off : Nat} (hlt : off < g.blcksz) (hpos : 0 < off) :
    g.insertFreespace (page * g.blcksz + off) = g.blcksz - off := by
  have hmod : (page * g.blcksz + off) % g.blcksz = off := g.layout.mod_block hlt
  rw [Geometry.insertFreespace, hmod, if_neg hpos.ne']

/-! ## Where the copy stands -/

structure At (g : Geometry) (curr freespace : Nat) : Prop where
  place : curr % g.blcksz = 0 ∨ g.layout.InBody curr
  freespace : freespace = g.insertFreespace curr

section

variable (h : At g curr freespace)
include h

theorem At.inBody (hpos : 0 < freespace) : g.layout.InBody curr := by
  refine h.place.resolve_left fun hz => ?_
  rw [h.freespace, Geometry.insertFreespace, if_pos hz] at hpos
  exact lt_irrefl 0 hpos

theorem At.le : curr % g.blcksz + freespace ≤ g.blcksz := by
  have := Nat.mod_lt curr g.blcksz_pos
  rw [h.freespace, Geometry.insertFreespace]
  split <;> omega

theorem At.page_end : ∃ page, curr + freespace = page * g.blcksz := by
  have hdm := Nat.div_add_mod' curr g.blcksz
  have hlt := Nat.mod_lt curr g.blcksz_pos
  rw [h.freespace, Geometry.insertFreespace]
  split
  · exact ⟨curr / g.blcksz, by omega⟩
  · refine ⟨curr / g.blcksz + 1, ?_⟩
    rw [Nat.add_mul]
    omega

section

variable (hle : len ≤ freespace)
include hle

theorem At.pos_add : g.layout.pos (curr + len) = g.layout.pos curr + len := by
  rcases Nat.eq_zero_or_pos len with rfl | hpos
  · rfl
  · have hbody := h.inBody (hpos.trans_le hle)
    have := h.le
    exact g.layout.pos_add hbody (show curr % g.blcksz + len ≤ g.blcksz by omega)

theorem At.isEnd_add (hpos : 0 < len) : g.layout.IsEnd (curr + len) := by
  have hbody := h.inBody (hpos.trans_le hle)
  have := h.le
  exact hbody.isEnd_add (show curr % g.blcksz + len ≤ g.blcksz by omega) hpos

theorem At.add : At g (curr + len) (freespace - len) := by
  rcases Nat.eq_zero_or_pos len with rfl | hpos
  · exact h
  · have hbody := h.inBody (hpos.trans_le hle)
    have hdm := Nat.div_add_mod' curr g.blcksz
    have hge : sizeOfShortPhd ≤ curr % g.blcksz := (headerSize_ge _).trans hbody
    have hmod0 : curr % g.blcksz ≠ 0 := by
      simp only [sizeOfShortPhd] at hge
      omega
    have hfree : freespace = g.blcksz - curr % g.blcksz := by
      rw [h.freespace, Geometry.insertFreespace, if_neg hmod0]
    rcases Nat.lt_or_eq_of_le (show curr % g.blcksz + len ≤ g.blcksz by omega) with hin | hend
    · have hsum : curr + len = curr / g.blcksz * g.blcksz + (curr % g.blcksz + len) := by omega
      rw [hsum]
      refine ⟨.inr ((g.layout.inBody_at hin).mpr (hbody.trans (Nat.le_add_right _ _))), ?_⟩
      rw [insertFreespace_at hin (by omega)]
      omega
    · have hsum : curr + len = (curr / g.blcksz + 1) * g.blcksz := by
        rw [Nat.add_mul]
        omega
      have hz : (curr + len) % g.blcksz = 0 := by rw [hsum, Nat.mul_mod_left]
      refine ⟨.inl hz, ?_⟩
      rw [Geometry.insertFreespace, if_pos hz]
      omega

end

end

theorem At.body (page : Nat) :
    At g (page * g.blcksz + g.headerSize page)
      (g.insertFreespace (page * g.blcksz + g.headerSize page))
      ∧ 0 < g.insertFreespace (page * g.blcksz + g.headerSize page)
      ∧ g.layout.pos (page * g.blcksz + g.headerSize page) = g.layout.pos (page * g.blcksz) := by
  have hlt := g.headerSize_lt page
  have hge := headerSize_ge (g := g) page
  refine ⟨⟨.inr (g.layout.inBody_body page), rfl⟩, ?_, ?_⟩
  · rw [insertFreespace_at hlt (Nat.lt_of_lt_of_le (by decide) hge)]
    omega
  · exact (g.layout.pos_body page).trans (g.layout.pos_block page).symm

section

variable (h : At g curr freespace)
include h

theorem At.chain (hle : len ≤ freespace) :
    g.layout.Chain (g.layout.pos curr) (if len ≠ 0 then [(curr, curr + len)] else [])
      (g.layout.pos (curr + len)) := by
  split
  · next hne =>
    refine Layout.chain_singleton rfl ?_
    rw [h.pos_add hle]
    exact Nat.lt_add_of_pos_right (Nat.pos_of_ne_zero hne)
  · next hz =>
    obtain rfl : len = 0 := by simpa using hz
    rfl

/-! ## Data -/

structure Copied (g : Geometry) (curr len : Nat) (r : List Link × Nat × Nat × Nat) : Prop where
  chain : g.layout.Chain (g.layout.pos curr) r.1 (g.layout.pos r.2.1)
  place : At g r.2.1 r.2.2.1
  pos : g.layout.pos r.2.1 + r.2.2.2 = g.layout.pos curr + len
  fits : r.2.2.2 ≤ r.2.2.1
  left : 0 < len → 0 < r.2.2.2
  start : len = 0 → r.2.1 = curr

theorem copyPages_spec (hfuel : len + (if freespace = 0 then 1 else 0) ≤ fuel) :
    Copied g curr len (copyPages g fuel curr freespace len) := by
  induction fuel generalizing curr freespace len with
  | zero =>
    obtain rfl : len = 0 := by omega
    exact ⟨rfl, h, rfl, Nat.zero_le _, id, fun _ => rfl⟩
  | succ fuel ih =>
    simp only [copyPages]
    split
    · next hlt =>
      obtain ⟨page, hpage⟩ := h.page_end
      obtain ⟨hat, hpos, heq⟩ := At.body page
      have hadd := h.pos_add (Nat.le_refl freespace)
      have hlink := h.chain (Nat.le_refl freespace)
      rw [hpage] at hadd hlink
      rw [hpage, header_next]
      have hfuel' : len - freespace
          + (if g.insertFreespace (page * g.blcksz + g.headerSize page) = 0 then 1 else 0) ≤
            fuel := by
        rw [if_neg hpos.ne']
        split at hfuel <;> omega
      obtain ⟨hchain, hplace, hsum, hfits, hleft, -⟩ := ih hat hfuel'
      rw [heq] at hchain hsum
      exact ⟨hlink.append hchain, hplace, by rw [hsum]; omega, hfits, fun _ => hleft (by omega),
        fun hz => by omega⟩
    · next hge => exact ⟨rfl, h, rfl, not_lt.mp hge, id, fun _ => rfl⟩

structure CopiedAll (g : Geometry) (curr total : Nat) (r : List Link × Nat × Nat) : Prop where
  chain : g.layout.Chain (g.layout.pos curr) r.1 (g.layout.pos r.2.1)
  place : At g r.2.1 r.2.2
  pos : g.layout.pos r.2.1 = g.layout.pos curr + total
  isEnd : 0 < total → g.layout.IsEnd r.2.1
  start : total = 0 → r.2.1 = curr

theorem copyPiece_spec : CopiedAll g curr len (copyPiece g curr freespace len) := by
  have hfuel : len + (if freespace = 0 then 1 else 0) ≤ len + 1 := by split <;> omega
  have hcopied := copyPages_spec h hfuel
  unfold copyPiece
  rcases hr : copyPages g (len + 1) curr freespace len with ⟨links, c, f, n⟩
  rw [hr] at hcopied
  obtain ⟨hchain, hplace, hsum, hfits, hleft, hstart⟩ := hcopied
  refine ⟨hchain.append (hplace.chain hfits), hplace.add hfits, ?_, fun hpos => ?_, fun hz => ?_⟩
  · exact (hplace.pos_add hfits).trans hsum
  · exact hplace.isEnd_add hfits (hleft hpos)
  · have hc : c = curr := hstart hz
    have hn : g.layout.pos c + n = g.layout.pos curr + len := hsum
    rw [hc] at hn
    show c + n = curr
    omega

end

theorem copyData_spec (lens : List Nat) (h : At g curr freespace) :
    CopiedAll g curr lens.sum (copyData g lens curr freespace) := by
  induction lens generalizing curr freespace with
  | nil => exact ⟨rfl, h, rfl, fun h => absurd h (lt_irrefl 0), fun _ => rfl⟩
  | cons len lens ih =>
    have hpiece : CopiedAll g curr len _ := copyPiece_spec h
    simp only [copyData, List.sum_cons]
    rcases hr : copyPiece g curr freespace len with ⟨links, c, f⟩
    rw [hr] at hpiece
    obtain ⟨hchain, hplace, hsum, hend, hstart⟩ := hpiece
    have hrest := ih hplace
    rcases hr' : copyData g lens c f with ⟨links', c', f'⟩
    rw [hr'] at hrest
    obtain ⟨hchain', hplace', hsum', hend', hstart'⟩ := hrest
    refine ⟨hchain.append hchain', hplace', ?_, fun hpos => ?_, fun hz => ?_⟩
    · rw [hsum', hsum, Nat.add_assoc]
    · rcases Nat.eq_zero_or_pos lens.sum with hz | hpos'
      · rw [hstart' hz]
        exact hend (by omega)
      · exact hend' hpos'
    · exact (hstart' (by omega)).trans (hstart (by omega))

theorem switchPages_spec {a e : Nat} (hle : a ≤ e) (hfuel : e - a ≤ fuel) :
    g.layout.Chain (g.layout.pos (a * g.blcksz))
        (switchPages g fuel (a * g.blcksz) (e * g.blcksz)).1 (g.layout.pos (e * g.blcksz))
      ∧ (switchPages g fuel (a * g.blcksz) (e * g.blcksz)).2 = e * g.blcksz := by
  induction fuel generalizing a with
  | zero =>
    obtain rfl : a = e := by omega
    exact ⟨rfl, rfl⟩
  | succ fuel ih =>
    simp only [switchPages]
    rcases Nat.lt_or_eq_of_le hle with hlt | rfl
    · have hmul : a * g.blcksz < e * g.blcksz := Nat.mul_lt_mul_of_pos_right hlt g.blcksz_pos
      have hnext : a * g.blcksz + g.blcksz = (a + 1) * g.blcksz := by rw [Nat.add_mul, Nat.one_mul]
      rw [if_pos hmul, hnext]
      obtain ⟨hchain, hend⟩ := ih hlt (by omega)
      refine ⟨⟨rfl, ?_, hchain⟩, hend⟩
      have h1 : g.layout.pos (a * g.blcksz) = g.layout.start a := g.layout.pos_block a
      have h2 : g.layout.pos ((a + 1) * g.blcksz) = g.layout.start (a + 1) :=
        g.layout.pos_block (a + 1)
      rw [h1, h2]
      exact g.layout.start_lt_succ a
    · rw [if_neg (lt_irrefl _)]
      exact ⟨rfl, rfl⟩

/-! ## Records -/

theorem le_maxAlign (n : Nat) : n ≤ maxAlign n := by
  simp only [maxAlign, maximumAlignof]
  omega

theorem at_start (bytePos : Nat) :
    At g (g.bytePosToRecPtr bytePos) (g.insertFreespace (g.bytePosToRecPtr bytePos)) :=
  ⟨.inr (g.bytePosToRecPtr_spec bytePos).2, rfl⟩

section Record

variable {links : List Link} {c f startPos : Nat}
  (hr : copyData g lens startPos (g.insertFreespace startPos) = (links, c, f))
include hr

/-- A record that ends in the middle of a segment, or exactly with it. -/
theorem copyXLogRecordToWal_eq (endPos : Nat) {isLogSwitch : Bool}
    (h : isLogSwitch = false ∨ g.segmentOffset c = 0) :
    copyXLogRecordToWal g isLogSwitch lens startPos endPos
      = (links ++ (if c ≠ endPos then [(c, endPos)] else []), maxAlign c) := by
  rw [copyXLogRecordToWal, hr]
  refine if_neg fun hif => ?_
  rcases h with h | h
  · rw [h] at hif
    cases hif.1
  · exact hif.2 h

/-- A switch record in the middle of a segment. -/
theorem copyXLogRecordToWal_switch (endPos : Nat) (h : g.segmentOffset c ≠ 0) :
    copyXLogRecordToWal g true lens startPos endPos = (links ++ (if f ≠ 0 then [(c, c + f)] else [])
          ++ (switchPages g (endPos - (c + f)) (c + f) endPos).1,
        (switchPages g (endPos - (c + f)) (c + f) endPos).2) := by
  rw [copyXLogRecordToWal, hr]
  exact if_pos ⟨rfl, h⟩

end Record

theorem chain_padding {c endPos a b n : Nat} (hc : g.layout.pos c = a) (hcend : g.layout.IsEnd c)
    (he : g.layout.pos endPos = a + n) (heend : g.layout.IsEnd endPos) (hb : b = a + n) :
    g.layout.Chain a (if c ≠ endPos then [(c, endPos)] else []) b := by
  subst hb
  split
  · next hne =>
    have hlt : a < g.layout.pos endPos := by
      rw [he]
      refine (Nat.le_add_right _ _).lt_of_ne fun heq => hne ?_
      exact hcend.eq_of_pos_eq heend (by rw [hc, he, ← heq])
    exact he ▸ Layout.chain_singleton hc hlt
  · next heq =>
    obtain rfl : c = endPos := by simpa using heq
    exact hc.symm.trans he

/-! ## Alignment -/

theorem headerSize_aligned (page : Nat) : maximumAlignof ∣ g.headerSize page := by
  unfold Geometry.headerSize
  split <;> decide

theorem start_aligned (page : Nat) : maximumAlignof ∣ g.layout.start page := by
  induction page with
  | zero => exact Nat.dvd_zero _
  | succ page ih => exact Nat.dvd_add ih (Nat.dvd_sub g.aligned (headerSize_aligned page))

theorem mod_aligned (h : g.layout.IsEnd p) :
    p % maximumAlignof = g.layout.pos p % maximumAlignof := by
  have hdm := Nat.div_add_mod' p g.blcksz
  obtain ⟨a, ha⟩ := Nat.dvd_trans g.aligned (Nat.dvd_mul_left g.blcksz (p / g.blcksz))
  obtain ⟨b, hb⟩ := start_aligned (g := g) (p / g.blcksz)
  obtain ⟨d, hd⟩ := headerSize_aligned (g := g) (p / g.blcksz)
  have hpos : g.layout.pos p = g.layout.start (p / g.blcksz)
      + (p % g.blcksz - g.headerSize (p / g.blcksz)) := rfl
  have hend : p % g.blcksz = 0 ∨ g.headerSize (p / g.blcksz) < p % g.blcksz := h
  simp only [maximumAlignof] at *
  omega

theorem maxAlign_eq_of_pos {c endPos n : Nat} (hc : g.layout.IsEnd c) (he : g.layout.IsEnd endPos)
    (hstart : maximumAlignof ∣ g.layout.pos c - n) (hn : n ≤ g.layout.pos c)
    (hpos : g.layout.pos endPos = g.layout.pos c - n + maxAlign n) : maxAlign c = endPos := by
  have hmod := mod_aligned hc
  have hpad : maxAlign c = c + (maxAlign n - n) := by
    simp only [maxAlign, maximumAlignof] at *
    omega
  rcases Nat.eq_zero_or_pos (maxAlign n - n) with hz | hgt
  · rw [hpad, hz]
    have := le_maxAlign n
    exact hc.eq_of_pos_eq he (by omega)
  · have hbody : g.layout.InBody c := by
      rcases hc with hzero | hb
      · exfalso
        obtain ⟨d, hd⟩ := Nat.dvd_trans g.aligned (Nat.dvd_of_mod_eq_zero hzero)
        simp only [maxAlign, maximumAlignof] at *
        omega
      · exact hb.le
    have hroom : c % g.layout.block + (maxAlign n - n) ≤ g.layout.block := by
      have hblock : g.layout.block = g.blcksz := rfl
      have hdm := Nat.div_add_mod' c g.blcksz
      obtain ⟨a, ha⟩ := Nat.dvd_trans g.aligned (Nat.dvd_mul_left g.blcksz (c / g.blcksz))
      obtain ⟨b, hb⟩ := g.aligned
      have hlt := Nat.mod_lt c g.blcksz_pos
      rw [hblock]
      simp only [maxAlign, maximumAlignof] at *
      omega
    rw [hpad]
    refine (hbody.isEnd_add hroom hgt).eq_of_pos_eq he ?_
    rw [g.layout.pos_add hbody hroom]
    omega

/-! ## Insertions -/

structure Inserted (g : Geometry) (bytePos : Nat) (isLogSwitch : Bool) (lens : List Nat)
    (r : Reserved) : Prop where
  chain : g.layout.Chain bytePos (copyXLogRecordToWal g isLogSwitch lens r.startPos r.endPos).1
    r.endBytePos
  pos : g.layout.pos r.endPos = r.endBytePos
  isEnd : g.layout.IsEnd r.endPos
  finish : maximumAlignof ∣ bytePos →
    (copyXLogRecordToWal g isLogSwitch lens r.startPos r.endPos).2 = r.endPos
  aligned : maximumAlignof ∣ bytePos → maximumAlignof ∣ r.endBytePos

theorem copyData_start (bytePos : Nat) (hpos : 0 < lens.sum) :
    ∃ links c f, copyData g lens (g.bytePosToRecPtr bytePos)
        (g.insertFreespace (g.bytePosToRecPtr bytePos)) = (links, c, f)
      ∧ g.layout.Chain bytePos links (bytePos + lens.sum) ∧ At g c f
      ∧ g.layout.pos c = bytePos + lens.sum ∧ g.layout.IsEnd c
      ∧ (maximumAlignof ∣ bytePos → ∀ endPos, g.layout.IsEnd endPos →
        g.layout.pos endPos = bytePos + maxAlign lens.sum → maxAlign c = endPos) := by
  have hdata := copyData_spec lens (at_start (g := g) bytePos)
  rcases hr : copyData g lens (g.bytePosToRecPtr bytePos)
    (g.insertFreespace (g.bytePosToRecPtr bytePos)) with ⟨links, c, f⟩
  rw [hr] at hdata
  obtain ⟨hchain, hplace, hsum, hend, -⟩ := hdata
  dsimp only at hchain hplace hsum hend
  rw [(g.bytePosToRecPtr_spec bytePos).1] at hchain hsum
  rw [hsum] at hchain
  refine ⟨links, c, f, rfl, hchain, hplace, hsum, hend hpos, fun hbyte endPos he hepos => ?_⟩
  have hsub : g.layout.pos c - lens.sum = bytePos := by omega
  exact maxAlign_eq_of_pos (hend hpos) he (by rw [hsub]; exact hbyte) (by omega)
    (by rw [hsub, hepos])

theorem inserted_insert (bytePos : Nat) (hpos : 0 < lens.sum) :
    Inserted g bytePos false lens (reserveXLogInsertLocation g bytePos lens.sum) := by
  obtain ⟨links, c, f, hr, hchain, -, hsum, hend, hfinish⟩ := copyData_start (g := g) bytePos hpos
  obtain ⟨hepos, heend⟩ := g.bytePosToEndRecPtr_spec (bytePos + maxAlign lens.sum)
  have hle := le_maxAlign lens.sum
  have hcopy := fun endPos => copyXLogRecordToWal_eq hr endPos (.inl (rfl : false = false))
  refine ⟨?_, hepos, heend, fun hbyte => ?_, fun hbyte => Nat.dvd_add hbyte (Nat.dvd_mul_left _ _)⟩
  · simp only [reserveXLogInsertLocation, hcopy]
    refine hchain.append
      (chain_padding (n := maxAlign lens.sum - lens.sum) hsum hend ?_ heend (by omega))
    omega
  · simp only [reserveXLogInsertLocation, hcopy]
    exact hfinish hbyte _ heend hepos

theorem inserted_switch {bytePos : Nat} {r : Reserved} (hsum : lens.sum = sizeOfXLogRecord)
    (hr : reserveXLogSwitch g bytePos = some r) : Inserted g bytePos true lens r := by
  have halign : maxAlign sizeOfXLogRecord = sizeOfXLogRecord := rfl
  obtain ⟨links, c, f, hd, hchain, hplace, hcpos, hend, hfinish⟩ :=
    copyData_start bytePos (show 0 < lens.sum by rw [hsum]; decide)
  rw [hsum] at hchain hcpos hfinish
  obtain ⟨hepos, heend⟩ := g.bytePosToEndRecPtr_spec (bytePos + maxAlign sizeOfXLogRecord)
  have hce : g.bytePosToEndRecPtr (bytePos + maxAlign sizeOfXLogRecord) = c :=
    heend.eq_of_pos_eq hend (by rw [hepos, hcpos, halign])
  unfold reserveXLogSwitch at hr
  split at hr
  · cases hr
  simp only [hce] at hr
  have hsegpos : 0 < g.walSegmentSize := Nat.mul_pos g.segPages_pos g.blcksz_pos
  have hseglt : g.segmentOffset c < g.walSegmentSize := Nat.mod_lt c hsegpos
  split at hr
  · next hseg =>
    cases hr
    have hoff : g.segmentOffset c ≠ 0 := by omega
    have hdm : c / g.walSegmentSize * g.walSegmentSize + g.segmentOffset c = c :=
      Nat.div_add_mod' c g.walSegmentSize
    have hendPos : c + (g.walSegmentSize - g.segmentOffset c)
        = (c / g.walSegmentSize + 1) * g.segPages * g.blcksz := by
      rw [Nat.mul_assoc, Nat.add_mul, Nat.one_mul]
      change _ = c / g.walSegmentSize * g.walSegmentSize + g.walSegmentSize
      omega
    generalize (c / g.walSegmentSize + 1) * g.segPages = e at hendPos
    obtain ⟨page, hpage⟩ := hplace.page_end
    have hpe : page ≤ e := by
      have hf : f < g.blcksz := by
        have := hplace.freespace
        have hpos := g.blcksz_pos
        rw [Geometry.insertFreespace] at this
        split at this <;> omega
      have hlt : page * g.blcksz < (e + 1) * g.blcksz := by
        rw [Nat.add_mul]
        omega
      exact Nat.le_of_lt_succ (Nat.lt_of_mul_lt_mul_right hlt)
    have hfuel : e - page ≤ e * g.blcksz - page * g.blcksz := by
      rw [← Nat.mul_sub_right_distrib]
      exact Nat.le_mul_of_pos_right _ g.blcksz_pos
    obtain ⟨hpages, hlast⟩ := switchPages_spec hpe hfuel
    have hcopy := copyXLogRecordToWal_switch hd (e * g.blcksz) hoff
    rw [hpage] at hcopy
    have hstart : g.layout.pos (e * g.blcksz) = g.layout.start e := g.layout.pos_block e
    rw [hendPos]
    refine ⟨?_, (g.recPtrToBytePos_eq _).symm, .inl (Nat.mul_mod_left e g.blcksz), fun _ => ?_,
      fun _ => ?_⟩
    · simp only [hcopy, g.recPtrToBytePos_eq]
      have hrest := hplace.chain (Nat.le_refl f)
      rw [hcpos, hpage] at hrest
      exact (hchain.append hrest).append hpages
    · simp only [hcopy]
      exact hlast
    · simp only [g.recPtrToBytePos_eq, hstart]
      exact start_aligned e
  · next hseg =>
    cases hr
    have hoff : g.segmentOffset c = 0 := by omega
    have hcopy := copyXLogRecordToWal_eq hd c (.inr hoff : true = false ∨ _)
    refine ⟨?_, ?_, hend, fun hbyte => ?_, fun hbyte => Nat.dvd_add hbyte (by rw [halign]; decide)⟩
    · simp only [hcopy]
      rwa [if_neg (by simp), List.append_nil]
    · simp only [hcpos, halign]
    · simp only [hcopy]
      exact hfinish hbyte c hend (by rw [hcpos, halign])

end PolarDB.WalPipeline
