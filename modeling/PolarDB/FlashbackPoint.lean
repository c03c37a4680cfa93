import Mathlib.Data.Fintype.Basic
import PolarDB.Basic

/-!
# Flashback points

A flashback point is one record of 36 bytes. Records are numbered from
zero and stored `recPerSeg` to a segment file, `recPerPage` to a page; a
page carries a version and a checksum. The segment that is being filled
is held in a shared buffer as well.

`searchRightFbpointRec` is the bisection within one segment,
`getRightFbpoint` the walk from the newest segment to older ones. What
both have to find is `IsRight`: the newest of the records that are not
newer than the target.
-/

namespace PolarDB.FlashbackPoint

open Function List

/-! ## Layout -/

def segSize : Nat := 4 * 1024 * 1024

/-- `FBPOINT_REC_END_POS`: records end here, snapshot data fills the rest
of the segment file. -/
def recEndPos : Nat := 64 * 1024

def pageSize : Nat := 512

def pageHeaderSize : Nat := 8

def recSize : Nat := 64

def pagePerSeg : Nat := recEndPos / pageSize

def recPerPage : Nat := (pageSize - pageHeaderSize) / recSize

def recPerSeg : Nat := pagePerSeg * recPerPage

theorem recPerSeg_eq : recPerSeg = 896 := rfl

theorem recPerSeg_pos : 0 < recPerSeg := by decide

structure FbpointPos where
  segNo : Nat
  offset : Nat
  deriving DecidableEq, Repr

structure FbpointRec where
  redoLsn : Nat
  flogPtr : Nat
  time : Int
  snapshotPos : FbpointPos
  nextClogSubdirNo : Nat
  deriving DecidableEq, Repr

def FbpointRec.zero : FbpointRec := ⟨0, 0, 0, ⟨0, 0⟩, 0⟩

/-- One page. The checksum is modelled by what it is computed over;
`none` is the zero of a page that was never written. -/
structure FbpointPage where
  version : Nat
  crc : Option (Nat × (Fin recPerPage → FbpointRec))
  recs : Fin recPerPage → FbpointRec

def recVersion : Nat := 1

def zeroPage : FbpointPage := ⟨0, none, fun _ => .zero⟩

abbrev SegBuf := Fin pagePerSeg → FbpointPage

def zeroBuf : SegBuf := fun _ => zeroPage

def pageNo (recNo : Nat) : Fin pagePerSeg :=
  ⟨recNo % recPerSeg / recPerPage,
    Nat.div_lt_of_lt_mul (Nat.mul_comm _ _ ▸ Nat.mod_lt _ recPerSeg_pos)⟩

def slotNo (recNo : Nat) : Fin recPerPage :=
  ⟨recNo % recPerPage, Nat.mod_lt _ (by decide)⟩

def recAt (buf : SegBuf) (recNo : Nat) : FbpointRec :=
  (buf (pageNo recNo)).recs (slotNo recNo)

def firstRecInSeg (buf : SegBuf) : FbpointRec :=
  (buf ⟨0, by decide⟩).recs ⟨0, by decide⟩

theorem firstRecInSeg_eq (buf : SegBuf) (seg : Nat) :
    firstRecInSeg buf = recAt buf (seg * recPerSeg) := by
  have hp : pageNo (seg * recPerSeg) = ⟨0, by decide⟩ := by
    simp [pageNo]
  have hs : slotNo (seg * recPerSeg) = ⟨0, by decide⟩ := by
    simp [slotNo, recPerSeg, ← Nat.mul_assoc]
  rw [recAt, hp, hs, firstRecInSeg]

variable {n : Nat} {buf : SegBuf} {r : FbpointRec}

theorem eq_of_place {m : Nat} (hseg : n / recPerSeg = m / recPerSeg)
    (hp : pageNo n = pageNo m) (hs : slotNo n = slotNo m) : n = m := by
  have hp : n % 896 / 7 = m % 896 / 7 := congrArg Fin.val hp
  have hs : n % 7 = m % 7 := congrArg Fin.val hs
  rw [recPerSeg_eq] at hseg
  omega

/-! ## Writing a record -/

def fbpointPageCompCrc (page : FbpointPage) : Nat × (Fin recPerPage → FbpointRec) :=
  (page.version, page.recs)

def FbpointPage.CrcOk (page : FbpointPage) : Prop :=
  page.crc = some (fbpointPageCompCrc page)

instance (page : FbpointPage) : Decidable page.CrcOk :=
  inferInstanceAs (Decidable (_ = _))

/-- `insert_fbpoint_rec`: what the holder of the exclusive buffer lock does. -/
def insertFbpointRec (buf : SegBuf) (recNo : Nat) (r : FbpointRec) : SegBuf :=
  let buf := if recNo % recPerSeg = 0 then zeroBuf else buf
  update buf (pageNo recNo)
    { buf (pageNo recNo) with
      recs := update (buf (pageNo recNo)).recs (slotNo recNo) r }

def FbpointPage.fillHeader (page : FbpointPage) : FbpointPage :=
  let page := { page with version := recVersion }
  { page with crc := some (fbpointPageCompCrc page) }

abbrev Files := Nat → Option SegBuf

def fbpointFileInit (files : Files) (segNo : Nat) : Files :=
  update files segNo (some ((files segNo).getD zeroBuf))

def writePage (files : Files) (segNo : Nat) (p : Fin pagePerSeg) (page : FbpointPage) : Files :=
  update files segNo (some (update ((files segNo).getD zeroBuf) p page))

def writeFbpointRecBuf (buf : SegBuf) (recNo : Nat) : SegBuf :=
  update buf (pageNo recNo) (buf (pageNo recNo)).fillHeader

def writeFbpointRecFiles (buf : SegBuf) (files : Files) (recNo : Nat) : Files :=
  writePage files (recNo / recPerSeg) (pageNo recNo) (buf (pageNo recNo)).fillHeader

theorem fillHeader_crcOk (page : FbpointPage) : page.fillHeader.CrcOk := rfl

theorem recAt_insertFbpointRec_self (buf : SegBuf) (n : Nat) (r : FbpointRec) :
    recAt (insertFbpointRec buf n r) n = r := by
  simp [recAt, insertFbpointRec]

theorem recAt_insertFbpointRec {m : Nat}
    (hn : n % recPerSeg ≠ 0) (hseg : m / recPerSeg = n / recPerSeg) (hne : m ≠ n) :
    recAt (insertFbpointRec buf n r) m = recAt buf m := by
  unfold recAt insertFbpointRec
  rw [if_neg hn]
  by_cases hp : pageNo m = pageNo n
  · have hs : slotNo m ≠ slotNo n := fun hs => hne (eq_of_place hseg hp hs)
    rw [hp, update_self]
    exact update_of_ne hs _ _
  · rw [update_of_ne hp]

theorem recAt_writeFbpointRecBuf (buf : SegBuf) (n m : Nat) :
    recAt (writeFbpointRecBuf buf n) m = recAt buf m := by
  unfold recAt writeFbpointRecBuf
  by_cases hp : pageNo m = pageNo n
  · rw [hp, update_self]
    rfl
  · rw [update_of_ne hp]

/-- How `read_fbpoint_records` ends: with the segment's pages, with a file
that does not exist, or with a page whose checksum does not match. -/
inductive ReadResult where
  | ok (buf : SegBuf)
  | noent
  | corrupt

def maxPageNo (segNo maxRecNo : Nat) : Nat :=
  if maxRecNo / recPerSeg = segNo then (pageNo maxRecNo).val else pagePerSeg - 1

def readFbpointRecords (files : Files) (segNo maxRecNo : Nat) : ReadResult :=
  match files segNo with
  | none => .noent
  | some buf =>
    if ∀ p : Fin pagePerSeg, p.val ≤ maxPageNo segNo maxRecNo → (buf p).CrcOk then .ok buf
    else .corrupt

/-! ## Searching a segment -/

def searchLoop (buf : SegBuf) (targetTime : Int) (l r : Nat) : Nat :=
  if l < r then
    let mid := (l + r + 1) / 2
    if (recAt buf mid).time < targetTime then searchLoop buf targetTime mid r
    else if (recAt buf mid).time = targetTime then mid
    else searchLoop buf targetTime l (mid - 1)
  else l
  termination_by r - l

def searchRightFbpointRec (buf : SegBuf) (targetTime : Int) (segNo maxRecNo : Nat) : Nat :=
  let l := segNo * recPerSeg
  let r := min maxRecNo ((segNo + 1) * recPerSeg - 1)
  if (recAt buf l).time = targetTime then l else searchLoop buf targetTime l r

/-- What the bisection of `[l, r]` has to return: the time at `m` is the
greatest that is not beyond the target. -/
def LatestIn (buf : SegBuf) (targetTime : Int) (l r m : Nat) : Prop :=
  l ≤ m ∧ m ≤ r ∧ (recAt buf m).time ≤ targetTime ∧
    ∀ k, l ≤ k → k ≤ r → (recAt buf k).time ≤ targetTime →
      (recAt buf k).time ≤ (recAt buf m).time

def SortedIn (buf : SegBuf) (l r : Nat) : Prop :=
  ∀ i j, l ≤ i → i ≤ j → j ≤ r → (recAt buf i).time ≤ (recAt buf j).time

variable {targetTime : Int} {count floor maxRecNo segNo : Nat} {recs : List FbpointRec}
  {files : Files}

theorem searchLoop_latestIn {l r : Nat} (hlr : l ≤ r)
    (hs : SortedIn buf l r) (hl : (recAt buf l).time ≤ targetTime) :
    LatestIn buf targetTime l r (searchLoop buf targetTime l r) := by
  fun_induction searchLoop buf targetTime l r with
  | case1 l r hlt mid hmid ih =>
    have hml : l ≤ mid ∧ mid ≤ r := by omega
    obtain ⟨h1, h2, h3, h4⟩ := ih hml.2 (fun i j hi => hs i j (by omega)) (Int.le_of_lt hmid)
    refine ⟨by omega, h2, h3, fun k hk1 hk2 hk3 => ?_⟩
    rcases lt_or_ge k mid with hkm | hkm
    · exact Int.le_trans (hs k mid hk1 (by omega) hml.2) (h4 mid le_rfl hml.2 (Int.le_of_lt hmid))
    · exact h4 k hkm hk2 hk3
  | case2 l r hlt mid _ heq =>
    exact ⟨by omega, by omega, Int.le_of_eq heq, fun k _ _ hk => heq ▸ hk⟩
  | case3 l r hlt mid hmid hne ih =>
    obtain ⟨h1, h2, h3, h4⟩ := ih (by omega) (fun i j hi hij hj => hs i j hi hij (by omega)) hl
    refine ⟨h1, by omega, h3, fun k hk1 hk2 hk3 => ?_⟩
    rcases lt_or_ge k mid with hkm | hkm
    · exact h4 k hk1 (by omega) hk3
    · have := hs mid k (by omega) hkm hk2
      omega
  | case4 l r hge =>
    refine ⟨le_rfl, hlr, hl, fun k hk1 hk2 _ => ?_⟩
    rw [show k = l by omega]

theorem searchRightFbpointRec_latestIn (hmax : segNo * recPerSeg ≤ maxRecNo)
    (hs : SortedIn buf (segNo * recPerSeg) (min maxRecNo ((segNo + 1) * recPerSeg - 1)))
    (hl : (recAt buf (segNo * recPerSeg)).time ≤ targetTime) :
    LatestIn buf targetTime (segNo * recPerSeg) (min maxRecNo ((segNo + 1) * recPerSeg - 1))
      (searchRightFbpointRec buf targetTime segNo maxRecNo) := by
  have hlr : segNo * recPerSeg ≤ min maxRecNo ((segNo + 1) * recPerSeg - 1) := by
    rw [recPerSeg_eq] at hmax ⊢
    omega
  simp only [searchRightFbpointRec]
  split
  · rename_i heq
    exact ⟨le_rfl, hlr, hl, fun k _ _ hk => heq ▸ hk⟩
  · exact searchLoop_latestIn hlr hs hl

/-- One turn of the loop of `polar_get_right_fbpoint`: the record found in
the segment, if its first record is not beyond the target. -/
def searchSeg (buf : SegBuf) (targetTime : Int) (segNo maxRecNo : Nat) : Option FbpointRec :=
  if (firstRecInSeg buf).time ≤ targetTime then
    some (recAt buf (searchRightFbpointRec buf targetTime segNo maxRecNo))
  else none

/-! ## Walking the segments -/

/-- How `polar_get_right_fbpoint` ends: with what it found and the segment
it found it in, or with the error of a page whose checksum does not match. -/
inductive Lookup where
  | found (res : Option (FbpointRec × Nat))
  | corrupt
  deriving DecidableEq

/-- The loop of `polar_get_right_fbpoint` from segment `segNo`, whose pages
are `buf`, downwards. With `keep` the oldest record is the answer when no
record is old enough. -/
def walkSegs (files : Files) (targetTime : Int) (maxRecNo : Nat) (keep : Bool) :
    Nat → SegBuf → Lookup
  | 0, buf =>
    match searchSeg buf targetTime 0 maxRecNo with
    | some r => .found (some (r, 0))
    | none => .found (if keep then some (firstRecInSeg buf, 0) else none)
  | segNo + 1, buf =>
    match searchSeg buf targetTime (segNo + 1) maxRecNo with
    | some r => .found (some (r, segNo + 1))
    | none =>
      match readFbpointRecords files segNo maxRecNo with
      | .ok older => walkSegs files targetTime maxRecNo keep segNo older
      | .noent => .found (if keep then some (firstRecInSeg buf, segNo + 1) else none)
      | .corrupt => .corrupt

/-- `polar_get_right_fbpoint` without another process between its steps. -/
def getRightFbpoint (buf : SegBuf) (files : Files) (nextFbpointRecNo : Nat) (targetTime : Int)
    (keep : Bool) : Lookup :=
  if nextFbpointRecNo = 0 then .found none
  else
    walkSegs files targetTime (nextFbpointRecNo - 1) keep ((nextFbpointRecNo - 1) / recPerSeg) buf

/-! ## What a search has to find -/

/-- The answer over the points `v`: the newest of those that are not beyond
the target, nothing if all of them are. -/
def IsRight (v : List FbpointRec) (targetTime : Int) : Option FbpointRec → Prop
  | none => ∀ r ∈ v, targetTime < r.time
  | some r => r ∈ v ∧ r.time ≤ targetTime ∧
      ∀ r' ∈ v, r'.time ≤ targetTime → r'.time ≤ r.time

def IsKept (v : List FbpointRec) (targetTime : Int) : Option FbpointRec → Prop
  | none => v = []
  | some r => IsRight v targetTime (some r) ∨ (IsRight v targetTime none ∧ v.head? = some r)

def Sorted (recs : List FbpointRec) : Prop :=
  recs.Pairwise fun r r' => r.time ≤ r'.time

theorem Sorted.time_le (hs : Sorted recs) {i j : Nat}
    {r r' : FbpointRec} (hij : i ≤ j) (hi : recs[i]? = some r) (hj : recs[j]? = some r') :
    r.time ≤ r'.time :=
  rel_of_getElem? (R := fun r r' : FbpointRec => r.time ≤ r'.time) hs (Int.le_refl _) hij hi hj

def Holds (buf : SegBuf) (recs : List FbpointRec) (segNo maxRecNo : Nat) : Prop :=
  ∀ n r, n ≤ maxRecNo → n / recPerSeg = segNo → recs[n]? = some r → recAt buf n = r

theorem Holds.getElem? (hb : Holds buf recs segNo maxRecNo) (hmax : maxRecNo < recs.length)
    (hn : n ≤ maxRecNo) (hseg : n / recPerSeg = segNo) : recs[n]? = some (recAt buf n) := by
  have hlen : n < recs.length := by omega
  rw [hb n recs[n] hn hseg (getElem?_eq_getElem hlen), getElem?_eq_getElem hlen]

/-! ## The points that are kept -/

def points (recs : List FbpointRec) (floor count : Nat) : List FbpointRec :=
  (recs.take count).drop (floor * recPerSeg)

theorem mem_points : r ∈ points recs floor count ↔
      ∃ n, floor * recPerSeg ≤ n ∧ n < count ∧ recs[n]? = some r := by
  rw [points, mem_iff_getElem?]
  constructor
  · rintro ⟨i, hi⟩
    rw [getElem?_drop, getElem?_take] at hi
    obtain ⟨hlt, hi⟩ := Option.ite_none_right_eq_some.mp hi
    exact ⟨_, Nat.le_add_right _ _, hlt, hi⟩
  · rintro ⟨n, h1, h2, hn⟩
    refine ⟨n - floor * recPerSeg, ?_⟩
    rw [getElem?_drop, getElem?_take, Nat.add_sub_cancel' h1, if_pos h2, hn]

theorem points_head? (hlt : floor * recPerSeg < count) (hr : recs[floor * recPerSeg]? = some r) :
    (points recs floor count).head? = some r := by
  rw [points, head?_drop, getElem?_take, if_pos hlt, hr]

theorem points_append (hc : count ≤ recs.length)
    (more : List FbpointRec) : points (recs ++ more) floor count = points recs floor count := by
  unfold points
  rw [take_append_of_le_length hc]

theorem Sorted.beyond (hs : Sorted recs)
    (hn : n < recs.length) (hb : ∀ r, recs[n]? = some r → targetTime < r.time) :
    ∀ k r, n ≤ k → recs[k]? = some r → targetTime < r.time := by
  intro k r hk hr
  have hn' := getElem?_eq_getElem hn
  exact Int.lt_of_lt_of_le (hb _ hn') (hs.time_le hk hn' hr)

def FilesHold (files : Files) (recs : List FbpointRec) (count : Nat) : Prop :=
  ∀ segNo buf, files segNo = some buf → ∀ n r, n < count → n / recPerSeg = segNo →
    recs[n]? = some r → recAt buf n = r ∧ (buf (pageNo n)).CrcOk

section

variable (hf : FilesHold files recs count) (hbuf : files segNo = some buf) (hmax : maxRecNo < count)
include hf hbuf hmax

theorem FilesHold.holds : Holds buf recs segNo maxRecNo :=
  fun n r hn hseg hr => (hf segNo buf hbuf n r (by omega) hseg hr).1

theorem FilesHold.read (hlen : count ≤ recs.length) (hseg : segNo * recPerSeg ≤ maxRecNo) :
    readFbpointRecords files segNo maxRecNo = .ok buf := by
  simp only [readFbpointRecords, hbuf]
  refine if_pos fun p hp => ?_
  have hpage : pageNo (segNo * recPerSeg + p.val * recPerPage) = p := by
    apply Fin.ext
    have hlt : p.val < 128 := p.isLt
    change (segNo * 896 + p.val * 7) % 896 / 7 = p.val
    omega
  have hle : segNo * recPerSeg + p.val * recPerPage ≤ maxRecNo ∧
      (segNo * recPerSeg + p.val * recPerPage) / recPerSeg = segNo := by
    have hlt : p.val < 128 := p.isLt
    unfold maxPageNo at hp
    change segNo * 896 ≤ maxRecNo at hseg
    change segNo * 896 + p.val * 7 ≤ maxRecNo ∧ (segNo * 896 + p.val * 7) / 896 = segNo
    split at hp
    · rename_i heq
      change p.val ≤ maxRecNo % 896 / 7 at hp
      omega
    · rename_i hne
      change ¬ maxRecNo / 896 = segNo at hne
      omega
  have := (hf segNo buf hbuf _ _ (hle.1.trans_lt hmax) hle.2 (getElem?_eq_getElem (by omega))).2
  rwa [hpage] at this

end

theorem isRight_none
    (hs : Sorted recs) (hfloor : segNo ≤ floor) (hlen : segNo * recPerSeg < recs.length)
    (hb : ∀ r, recs[segNo * recPerSeg]? = some r → targetTime < r.time) :
    IsRight (points recs floor count) targetTime none := by
  intro r hr
  obtain ⟨k, hk, _, hk'⟩ := mem_points.mp hr
  exact hs.beyond hlen hb k r ((Nat.mul_le_mul_right _ hfloor).trans hk) hk'

def WalkOk (recs : List FbpointRec) (targetTime : Int) (maxRecNo floor : Nat) (keep : Bool)
    (res : Option (FbpointRec × Nat)) : Prop :=
  (keep = false → IsRight (points recs floor (maxRecNo + 1)) targetTime (res.map Prod.fst)) ∧
    (keep = true → ∃ r n, res = some (r, n / recPerSeg) ∧ recs[n]? = some r ∧ n ≤ maxRecNo ∧
      IsKept (points recs floor (maxRecNo + 1)) targetTime (some r))

section

variable (hb : Holds buf recs segNo maxRecNo) (hmax : maxRecNo < recs.length)
  (hseg : segNo * recPerSeg ≤ maxRecNo)
include hb hmax hseg

theorem Holds.first : recs[segNo * recPerSeg]? = some (firstRecInSeg buf) := by
  rw [firstRecInSeg_eq buf segNo]
  exact hb.getElem? hmax hseg (Nat.mul_div_cancel _ recPerSeg_pos)

/-- A segment in which nothing is found begins beyond the target. -/
theorem searchSeg_none (h : searchSeg buf targetTime segNo maxRecNo = none) :
    ∀ r, recs[segNo * recPerSeg]? = some r → targetTime < r.time := by
  intro r hr
  rw [hb.first hmax hseg] at hr
  cases hr
  by_contra hle
  rw [searchSeg, if_pos (Int.not_lt.mp hle)] at h
  cases h

variable (hs : Sorted recs)
include hs

/-- The walk ends at a segment that begins beyond the target and has none
below it. -/
theorem WalkOk.of_end (keep : Bool) (h : searchSeg buf targetTime segNo maxRecNo = none) :
    WalkOk recs targetTime maxRecNo segNo keep
      (if keep then some (firstRecInSeg buf, segNo) else none) := by
  have hfirst := hb.first hmax hseg
  have hright : IsRight (points recs segNo (maxRecNo + 1)) targetTime none :=
    isRight_none hs le_rfl (by omega) (searchSeg_none hb hmax hseg h)
  refine ⟨fun hk => by simpa [hk] using hright, fun hk => ?_⟩
  refine ⟨firstRecInSeg buf, segNo * recPerSeg, ?_, hfirst, hseg,
    .inr ⟨hright, points_head? (by omega) hfirst⟩⟩
  rw [if_pos hk, Nat.mul_div_cancel _ recPerSeg_pos]

variable (h : searchSeg buf targetTime segNo maxRecNo = some r)
include h

/-- What is found in a segment is the newest record of the segments up to
this one that is not beyond the target. -/
theorem searchSeg_some :
    r.time ≤ targetTime ∧ (∃ n, n ≤ maxRecNo ∧ n / recPerSeg = segNo ∧ recs[n]? = some r) ∧
      ∀ k r', k ≤ maxRecNo → k / recPerSeg ≤ segNo → recs[k]? = some r' →
        r'.time ≤ targetTime → r'.time ≤ r.time := by
  have hin : ∀ n, segNo * recPerSeg ≤ n → n ≤ min maxRecNo ((segNo + 1) * recPerSeg - 1) →
      n ≤ maxRecNo ∧ n / recPerSeg = segNo := by
    intro n hn hn'
    rw [recPerSeg_eq] at hn hn' ⊢
    omega
  have hget : ∀ n, segNo * recPerSeg ≤ n → n ≤ min maxRecNo ((segNo + 1) * recPerSeg - 1) →
      recs[n]? = some (recAt buf n) := fun n hn hn' =>
    hb.getElem? hmax (hin n hn hn').1 (hin n hn hn').2
  have hsorted : SortedIn buf (segNo * recPerSeg) (min maxRecNo ((segNo + 1) * recPerSeg - 1)) :=
    fun i j hi hij hj => hs.time_le hij (hget i hi (by omega)) (hget j (by omega) hj)
  obtain ⟨hle, h⟩ := Option.ite_none_right_eq_some.mp h
  rw [firstRecInSeg_eq buf segNo] at hle
  obtain ⟨h1, h2, h3, h4⟩ := searchRightFbpointRec_latestIn hseg hsorted hle
  cases h
  refine ⟨h3, ⟨_, (hin _ h1 h2).1, (hin _ h1 h2).2, hget _ h1 h2⟩, ?_⟩
  intro k r' hk hkseg hr' hle'
  rcases lt_or_ge k (segNo * recPerSeg) with hlt | hge
  · refine Int.le_trans (hs.time_le hlt.le hr' (hget _ le_rfl (h1.trans h2))) ?_
    exact h4 _ le_rfl (h1.trans h2) hle
  · have hk' : k ≤ min maxRecNo ((segNo + 1) * recPerSeg - 1) := by
      rw [recPerSeg_eq] at hkseg ⊢
      omega
    have := hget k hge hk'
    rw [hr'] at this
    cases this
    exact h4 k hge hk' hle'

variable (hfloor : floor ≤ segNo)
  (habove : ∀ k r, (segNo + 1) * recPerSeg ≤ k → k ≤ maxRecNo → recs[k]? = some r →
    targetTime < r.time)
include hfloor habove

/-- What is found in a segment is right when the segments above it begin
beyond the target. -/
theorem isRight_of_searchSeg : IsRight (points recs floor (maxRecNo + 1)) targetTime (some r) := by
  obtain ⟨hle, ⟨n, hn, hnseg, hr⟩, hbest⟩ := searchSeg_some hb hmax hseg hs h
  have hmem : floor * recPerSeg ≤ n := (Nat.le_div_iff_mul_le recPerSeg_pos).mp (hnseg ▸ hfloor)
  refine ⟨mem_points.mpr ⟨n, hmem, Nat.lt_succ_of_le hn, hr⟩, hle, fun r' hr' hle' => ?_⟩
  obtain ⟨k, _, hk, hk'⟩ := mem_points.mp hr'
  rcases lt_or_ge segNo (k / recPerSeg) with hlt | hge
  · have := habove k r' ((Nat.le_div_iff_mul_le recPerSeg_pos).mp hlt) (Nat.le_of_lt_succ hk) hk'
    omega
  · exact hbest k r' (Nat.le_of_lt_succ hk) hge hk' hle'

theorem WalkOk.of_found {keep : Bool} :
    WalkOk recs targetTime maxRecNo floor keep (some (r, segNo)) := by
  have hright := isRight_of_searchSeg hb hmax hseg hs h hfloor habove
  obtain ⟨-, ⟨n, hn, rfl, hr⟩, -⟩ := searchSeg_some hb hmax hseg hs h
  exact ⟨fun _ => hright, fun _ => ⟨r, n, rfl, hr, hn, .inl hright⟩⟩

end

theorem walkSegs_spec (keep : Bool) (hs : Sorted recs) (hmax : maxRecNo < recs.length)
    (hf : FilesHold files recs (maxRecNo + 1))
    (hexist : ∀ j, floor ≤ j → j * recPerSeg ≤ maxRecNo → files j ≠ none)
    (hmiss : ∀ j, j + 1 = floor → files j = none) :
    ∀ segNo buf, floor ≤ segNo → segNo * recPerSeg ≤ maxRecNo → Holds buf recs segNo maxRecNo →
      (∀ k r, (segNo + 1) * recPerSeg ≤ k → k ≤ maxRecNo → recs[k]? = some r →
        targetTime < r.time) →
      ∃ res, walkSegs files targetTime maxRecNo keep segNo buf = .found res ∧
        WalkOk recs targetTime maxRecNo floor keep res := by
  intro segNo
  induction segNo with
  | zero =>
    intro buf hfloor hseg hb habove
    unfold walkSegs
    cases h : searchSeg buf targetTime 0 maxRecNo with
    | some r =>
      exact ⟨_, rfl, .of_found hb hmax hseg hs h hfloor habove⟩
    | none =>
      cases Nat.le_zero.mp hfloor
      exact ⟨_, rfl, .of_end hb hmax hseg hs keep h⟩
  | succ segNo ih =>
    intro buf hfloor hseg hb habove
    unfold walkSegs
    cases h : searchSeg buf targetTime (segNo + 1) maxRecNo with
    | some r =>
      exact ⟨_, rfl, .of_found hb hmax hseg hs h hfloor habove⟩
    | none =>
      have hseg' : segNo * recPerSeg ≤ maxRecNo :=
        (Nat.mul_le_mul_right _ (Nat.le_succ segNo)).trans hseg
      cases hfile : files segNo with
      | none =>
        have hfloor' : floor = segNo + 1 := by
          by_contra hne
          exact hexist segNo (by omega) hseg' hfile
        subst hfloor'
        simp only [readFbpointRecords, hfile]
        exact ⟨_, rfl, .of_end hb hmax hseg hs keep h⟩
      | some older =>
        have hfloor' : floor ≤ segNo := by
          by_contra hlt
          rw [hmiss segNo (by omega)] at hfile
          cases hfile
        rw [hf.read hfile (Nat.lt_succ_self _) hmax hseg']
        refine ih older hfloor' hseg' (hf.holds hfile (Nat.lt_succ_self _)) ?_
        intro k r hk _ hr
        exact hs.beyond (by omega) (searchSeg_none hb hmax hseg h) k r hk hr

end PolarDB.FlashbackPoint
