import PolarDB.Lts
import PolarDB.FlogPosition

/-!
# Truncation of the flashback log

`polar_truncate_flog_before` goes over the directory and removes the segment
files up to a limit, or renames them to numbers from the segment of the write
position on. File names are compared as text, which for names of one width is
the order of the numbers; a file is its segment number here. Other processes
create segments meanwhile, from the write position on, under the lock that the
renaming takes.

The limit goes through `keep_flog_seg`, which does not go below 1, as in WAL
where the first segment is 1. The flashback log starts with segment 0, and it
is removed although all segments are to be kept (`removed_kept`). A call does
what it should exactly if there is no such segment, and the write position's
own file is there and stays (`truncate_kept_iff`).
-/

namespace PolarDB.FlogTruncate

open FlogPosition Function List
open Option hiding or_assoc

variable {α : Type}

abbrev Files (α : Type) := Nat → Option α

def flogPtrToSeg (ptr : Nat) : Nat := ptr / geometry.walSegmentSize

/-- The search of `install_flog_seg` for a number without a file, up to
`room` numbers behind `segno`. -/
def findFree (files : Files α) (segno : Nat) : Nat → Option Nat
  | 0 => if (files segno).isSome then none else some segno
  | room + 1 => if (files segno).isSome then findFree files (segno + 1) room else some segno

def removeOldFlogFile (files : Files α) (keep endptr segno : Nat) (renamed : Bool) : Files α :=
  match files segno, findFree files (flogPtrToSeg endptr) keep with
  | some file, some n =>
    if renamed then update (update files segno none) n (some file) else update files segno none
  | _, _ => update files segno none

def keepFlogSeg (keep segno : Nat) : Nat :=
  if 0 < keep then if segno ≤ keep then 1 else segno - keep else segno

def lastoff (keep ptr : Nat) : Option Nat :=
  if flogPtrToSeg ptr = 0 then none else some (keepFlogSeg keep (flogPtrToSeg ptr) - 1)

inductive Turn (α : Type) where
  | entry (segno : Nat) (renamed : Bool)
  | create (segno : Nat) (file : α)

/-- `endptr` is the write position at the start. -/
def step (keep ptr endptr : Nat) (files : Files α) : Turn α → Option (Files α)
  | .entry segno renamed => (lastoff keep ptr).map fun last =>
    if segno ≤ last then removeOldFlogFile files keep endptr segno renamed else files
  | .create segno file =>
    if flogPtrToSeg endptr ≤ segno ∧ files segno = none then some (update files segno (some file))
    else none

variable {files files' files0 : Files α} {ts : List (Turn α)} {t : Turn α}
  {keep ptr endptr segno n room : Nat}

theorem findFree_spec (h : findFree files segno room = some n) : segno ≤ n ∧ files n = none := by
  induction room generalizing segno with
  | zero =>
    obtain ⟨hfree, hn⟩ := ite_none_left_eq_some.mp h
    cases hn
    exact ⟨le_rfl, not_isSome_iff_eq_none.mp hfree⟩
  | succ room ih =>
    rw [findFree] at h
    split at h
    · exact (ih h).imp_left Nat.le_of_succ_le
    · rename_i hfree
      cases h
      exact ⟨le_rfl, not_isSome_iff_eq_none.mp hfree⟩

theorem removeOldFlogFile_cases (files : Files α) (keep endptr segno : Nat) (renamed : Bool) :
    removeOldFlogFile files keep endptr segno renamed = update files segno none ∨
    ∃ file n, flogPtrToSeg endptr ≤ n ∧ files n = none ∧
      removeOldFlogFile files keep endptr segno renamed =
        update (update files segno none) n (some file) := by
  unfold removeOldFlogFile
  split
  · rename_i file n _ hfree
    split
    · exact .inr ⟨file, n, (findFree_spec hfree).1, (findFree_spec hfree).2, rfl⟩
    · exact .inl rfl
  · exact .inl rfl

/-- A step creates no file before the write position's segment, -/
theorem step_new {k : Nat} (hs : step keep ptr endptr files t = some files')
    (hk : files' k ≠ none) : files k ≠ none ∨ flogPtrToSeg endptr ≤ k := by
  cases t with
  | entry segno renamed =>
    obtain ⟨last, -, rfl⟩ := map_eq_some_iff.mp hs
    split at hk
    · have hgone : update files segno none k ≠ none → files k ≠ none := fun hk heq =>
        hk (by rw [update_apply, heq, ite_self])
      obtain heq | ⟨file, n, hle, -, heq⟩ := removeOldFlogFile_cases files keep endptr segno renamed
      · rw [heq] at hk
        exact .inl (hgone hk)
      · rw [heq] at hk
        by_cases hkn : k = n
        · exact .inr (hkn ▸ hle)
        · rw [update_of_ne hkn] at hk
          exact .inl (hgone hk)
    · exact .inl hk
  | create segno file =>
    obtain ⟨⟨hle, -⟩, rfl⟩ := ite_some_none_eq_some.mp hs
    by_cases hks : k = segno
    · exact .inr (hks ▸ hle)
    · rw [update_of_ne hks] at hk
      exact .inl hk

/-- and removes none behind the last one to go. -/
theorem step_stays {k : Nat} {file : α} (hs : step keep ptr endptr files t = some files')
    (hk : files k = some file) (hlast : ∀ last, lastoff keep ptr = some last → last < k) :
    files' k = some file := by
  have hother : ∀ {n}, files n = none → k ≠ n :=
    fun hfree hkn => some_ne_none _ (hk.symm.trans (hkn ▸ hfree))
  cases t with
  | entry segno renamed =>
    obtain ⟨last, hl, rfl⟩ := map_eq_some_iff.mp hs
    have hlt := hlast last hl
    split
    · have hkept : update files segno none k = some file := by
        rwa [update_of_ne (by omega)]
      obtain heq | ⟨file, n, -, hfree, heq⟩ :=
        removeOldFlogFile_cases files keep endptr segno renamed
      · rw [heq, hkept]
      · rw [heq, update_of_ne (hother hfree), hkept]
    · exact hk
  | create segno file =>
    obtain ⟨⟨-, hfree⟩, rfl⟩ := ite_some_none_eq_some.mp hs
    rwa [update_of_ne (hother hfree)]

/-- A run from `files0` removes and renames none of the segments to be kept,
those included that others have created, and the next file to be renamed goes
to a free number above the write position. -/
structure Kept (keep ptr endptr : Nat) (files0 : Files α) (ts : List (Turn α)) (files : Files α) :
    Prop where
  kept : ∀ k file, flogPtrToSeg ptr - keep ≤ k →
    files0 k = some file ∨ .create k file ∈ ts → files k = some file
  place : ∀ last segno n, lastoff keep ptr = some last → segno ≤ last → files segno ≠ none →
    findFree files (flogPtrToSeg endptr) keep = some n →
      files n = none ∧ endptr ≤ n * geometry.walSegmentSize

/-- The limit is not the one that `keep_flog_seg` makes up, or there is no
segment 0. -/
def KeepOk (keep ptr endptr : Nat) (files : Files α) : Prop :=
  keep = 0 ∨ keep < flogPtrToSeg ptr ∨ flogPtrToSeg ptr = 0 ∨
    files 0 = none ∧ 0 < flogPtrToSeg endptr

/-- The write position is at the start of a segment, or its segment is there
and does not go, or no other file goes. -/
def PlaceOk (keep ptr endptr : Nat) (files : Files α) : Prop :=
  endptr % geometry.walSegmentSize = 0 ∨ ∀ last, lastoff keep ptr = some last →
    last < flogPtrToSeg endptr ∧ files (flogPtrToSeg endptr) ≠ none ∨
    last ≤ flogPtrToSeg endptr ∧ ∀ k ≤ last, k ≠ flogPtrToSeg endptr → files k = none

theorem KeepOk.step (h : KeepOk keep ptr endptr files)
    (hs : step keep ptr endptr files t = some files') : KeepOk keep ptr endptr files' := by
  refine h.imp_right (.imp_right (.imp_right fun ⟨hnone, hpos⟩ => ⟨?_, hpos⟩))
  by_contra hk
  rcases step_new hs hk with hk | hle
  · exact hk hnone
  · omega

theorem PlaceOk.step (h : PlaceOk keep ptr endptr files)
    (hs : step keep ptr endptr files t = some files') : PlaceOk keep ptr endptr files' := by
  refine h.imp_right fun h last hlast => ?_
  rcases h last hlast with ⟨hlt, hfile⟩ | ⟨hle, hnone⟩
  · obtain ⟨file, hfile⟩ := ne_none_iff_exists'.mp hfile
    refine .inl ⟨hlt, ?_⟩
    rw [step_stays hs hfile fun last' hlast' => by cases hlast.symm.trans hlast'; exact hlt]
    exact some_ne_none _
  · refine .inr ⟨hle, fun k hk hne => ?_⟩
    by_contra hnew
    rcases step_new hs hnew with hold | hge
    · exact hold (hnone k hk hne)
    · omega

theorem KeepOk.lt (h : KeepOk keep ptr endptr files) {last : Nat}
    (hlast : lastoff keep ptr = some last) (hle : segno ≤ last) (hfile : files segno ≠ none) :
    segno < flogPtrToSeg ptr - keep := by
  obtain ⟨hpos, hlast⟩ := ite_none_left_eq_some.mp hlast
  cases hlast
  have hzero : segno = 0 → files 0 ≠ none := fun h0 => h0 ▸ hfile
  unfold keepFlogSeg at hle
  rcases h with h | h | h | ⟨h, -⟩
  · split_ifs at hle <;> omega
  · split_ifs at hle <;> omega
  · exact absurd h hpos
  · by_contra hge
    exact hzero (by split_ifs at hle <;> omega) h

theorem PlaceOk.place (h : PlaceOk keep ptr endptr files) {last : Nat}
    (hlast : lastoff keep ptr = some last) (hle : segno ≤ last) (hfile : files segno ≠ none)
    (hfree : findFree files (flogPtrToSeg endptr) keep = some n) :
    endptr ≤ n * geometry.walSegmentSize := by
  obtain ⟨hn, hnone⟩ := findFree_spec hfree
  rcases h with hzero | h
  · have hdm := Nat.div_add_mod' endptr geometry.walSegmentSize
    rw [hzero, Nat.add_zero] at hdm
    exact hdm ▸ Nat.mul_le_mul_right _ hn
  have hne : flogPtrToSeg endptr ≠ n := by
    rintro rfl
    rcases h last hlast with ⟨-, hthere⟩ | ⟨-, hothers⟩
    · exact hthere hnone
    · exact hfile (hothers segno hle fun heq => hfile (heq ▸ hnone))
  exact (Nat.lt_mul_of_div_lt (lt_of_le_of_ne hn hne) (by decide)).le

theorem Kept.step (h : Kept keep ptr endptr files0 ts files) (hkeep : KeepOk keep ptr endptr files)
    (hplace : PlaceOk keep ptr endptr files) (hs : step keep ptr endptr files t = some files') :
    Kept keep ptr endptr files0 (ts ++ [t]) files' := by
  refine ⟨fun k file hk hfile => ?_, fun last segno n hlast hle hfile hfree =>
    ⟨(findFree_spec hfree).2, (hplace.step hs).place hlast hle hfile hfree⟩⟩
  rw [mem_append, mem_singleton, ← or_assoc] at hfile
  rcases hfile with hfile | rfl
  · have hfile := h.kept k file hk hfile
    refine step_stays hs hfile fun last hlast => not_le.mp fun hle => ?_
    have hlt := hkeep.lt hlast hle (hfile ▸ some_ne_none _)
    omega
  · obtain ⟨-, rfl⟩ := ite_some_none_eq_some.mp hs
    exact update_self ..

theorem step_unlink {last : Nat} (hlast : lastoff keep ptr = some last) (hle : segno ≤ last) :
    step keep ptr endptr files (.entry segno false) = some (update files segno none) := by
  have hgone : removeOldFlogFile files keep endptr segno false = update files segno none := by
    unfold removeOldFlogFile
    split <;> rfl
  simp only [FlogTruncate.step, hlast, map_some, if_pos hle, hgone]

section

variable [Inhabited α] (h : ∀ ts files, exec (step keep ptr endptr) files0 ts = some files →
  Kept keep ptr endptr files0 ts files)
include h

/-- If segment 0 is to be kept, it is not the last one to go. -/
theorem keepOk_of_kept : KeepOk keep ptr endptr files0 := by
  unfold KeepOk
  by_contra hbad
  push Not at hbad
  obtain ⟨hkeep, hle, hseg, hzero⟩ := hbad
  have hlast : lastoff keep ptr = some 0 := by
    simp [lastoff, hseg, keepFlogSeg, Nat.pos_of_ne_zero hkeep, hle]
  by_cases hfile : files0 0 = none
  · have hrun : exec (step keep ptr endptr) files0 [.create 0 default, .entry 0 false] =
        some (update (update files0 0 (some default)) 0 none) := by
      rw [exec, step, if_pos ⟨hzero hfile, hfile⟩, bind_some, exec,
        step_unlink hlast le_rfl]
      rfl
    have hgone := (h _ _ hrun).kept 0 default (by omega) (.inr mem_cons_self)
    rw [update_self] at hgone
    cases hgone
  · obtain ⟨file, hfile⟩ := ne_none_iff_exists'.mp hfile
    have hrun : exec (step keep ptr endptr) files0 [.entry 0 false] =
        some (update files0 0 none) := by
      rw [exec, step_unlink hlast le_rfl]
      rfl
    have hgone := (h _ _ hrun).kept 0 file (by omega) (.inl hfile)
    rw [update_self] at hgone
    cases hgone

/-- If a file can go while the write position's segment is not there, it can be
renamed to its number. -/
theorem placeOk_of_kept : PlaceOk keep ptr endptr files0 := by
  unfold PlaceOk
  by_contra hbad
  push Not at hbad
  obtain ⟨hmod, last, hlast, hthere, hothers⟩ := hbad
  generalize hseg : flogPtrToSeg endptr = seg at *
  have hbelow : seg * geometry.walSegmentSize < endptr := by
    have hdm := Nat.div_add_mod' endptr geometry.walSegmentSize
    rw [← hseg, flogPtrToSeg]
    omega
  have hno : ∀ ts files k, exec (step keep ptr endptr) files0 ts = some files →
      files seg = none → k ≤ last → files k ≠ none → False := by
    intro ts files k hrun hnone hk hfile
    have hfree : findFree files seg keep = some seg := by
      cases keep <;> simp [findFree, hnone]
    have hplace := ((h ts files hrun).place last k seg hlast hk hfile (hseg ▸ hfree)).2
    exact absurd hplace (not_le.mpr hbelow)
  obtain ⟨ts, files, k, hrun, hk, hne, hfile, heq⟩ : ∃ ts files k,
      exec (step keep ptr endptr) files0 ts = some files ∧ k ≤ last ∧ k ≠ seg ∧
        files k ≠ none ∧ files seg = files0 seg := by
    by_cases hle : last ≤ seg
    · obtain ⟨k, hk, hne, hfile⟩ := hothers hle
      exact ⟨[], files0, k, rfl, hk, hne, hfile, rfl⟩
    · have hlt := not_le.mp hle
      by_cases hfile : files0 last = none
      · refine ⟨[.create last default], update files0 last (some default), last, ?_, le_rfl,
          hlt.ne',
          by simp, update_of_ne hlt.ne ..⟩
        rw [exec, step, if_pos ⟨hseg ▸ hlt.le, hfile⟩]
        rfl
      · exact ⟨[], files0, last, rfl, le_rfl, hlt.ne', hfile, rfl⟩
  by_cases hnone : files0 seg = none
  · exact hno ts files k hrun (heq.trans hnone) hk hfile
  · have hle : seg ≤ last := not_lt.mp (mt hthere hnone)
    refine hno (ts ++ [.entry seg false]) (update files seg none) k ?_ (update_self ..) hk ?_
    · rw [exec_append, hrun, bind_some, exec, step_unlink hlast hle]
      rfl
    · rwa [update_of_ne hne]

end

/-- Every run of a call keeps the segments it should, and renames files only to
free numbers above the write position, if and only if segment 0 is not made to
go and the write position's own segment is not taken by another file. -/
theorem truncate_kept_iff [Inhabited α] (keep ptr endptr : Nat) (files0 : Files α) :
    (∀ ts files, exec (step keep ptr endptr) files0 ts = some files →
      Kept keep ptr endptr files0 ts files) ↔
    KeepOk keep ptr endptr files0 ∧ PlaceOk keep ptr endptr files0 := by
  refine ⟨fun h => ⟨keepOk_of_kept h, placeOk_of_kept h⟩, fun ⟨hkeep, hplace⟩ ts files hs => ?_⟩
  have hrun := exec_invariant (fun ts files => KeepOk keep ptr endptr files ∧
      PlaceOk keep ptr endptr files ∧ Kept keep ptr endptr files0 ts files)
    ⟨hkeep, hplace, fun _ _ _ hfile => hfile.resolve_right not_mem_nil,
      fun _ _ _ hlast hle hfile hfree =>
        ⟨(findFree_spec hfree).2, hplace.place hlast hle hfile hfree⟩⟩
    (fun _ _ _ _ ⟨hkeep, hplace, h⟩ hs => ⟨hkeep.step hs, hplace.step hs, h.step hkeep hplace hs⟩)
      hs
  exact hrun.2.2

def fourFiles : Files Nat := fun k => if k ≤ 3 then some k else none

/-- With one segment kept before that of `ptr` the first is renamed. -/
theorem truncate_kept_fourFiles : ∃ files, exec (step 1 (2 * 2 ^ 28) (3 * 2 ^ 28)) fourFiles
        [.create 5 5, .entry 0 true, .entry 1 true] = some files ∧
      files 0 = none ∧ files 4 = some 0 ∧
      Kept 1 (2 * 2 ^ 28) (3 * 2 ^ 28) fourFiles [.create 5 5, .entry 0 true, .entry 1 true]
      files :=
  ⟨_, rfl, rfl, rfl, (truncate_kept_iff ..).mpr ⟨.inr (.inl (by decide)), .inl rfl⟩ _ _ rfl⟩

/-- Five segments are to be kept before segment 1, and segment 0 goes. -/
theorem removed_kept : flogPtrToSeg (2 ^ 28) - 5 = 0 ∧
    ∃ files, exec (step 5 (2 ^ 28) (3 * 2 ^ 28)) fourFiles [.entry 0 true] = some files ∧
      fourFiles 0 = some 0 ∧ files 0 = none :=
  ⟨by decide, _, rfl, rfl, rfl⟩

end PolarDB.FlogTruncate
