import Mathlib.Data.List.Range
import Mathlib.Data.List.Perm.Subperm
import Mathlib.Data.List.Sort
import PolarDB.Basic
import PolarDB.FlashbackSnapshot

/-!
# The running transactions of a replayed snapshot

`Rep` says what a snapshot stands for: the numbers of the transactions in
its cells, and the bounds its `xmin` and `xmax` give. The transactions that
run (`Running`) are those of the cells that are not among the removed
positions. The cells are in order but for the `d` numbers from `T` on:
these ran at the start although they are not below `xmax`, and the first
update beyond `xmax` adds them again.

Searching finds a cell exactly where the number is (`bsearch_eq_some`,
`bsearchXipLoop_spec`), or one of the two (`bsearch_isSome`), compacting
leaves the running transactions as they are (`Rep.compact`), and the two
updates do to them what they are for (`Rep.remove`, `Rep.insert`).
-/

namespace PolarDB.FlashbackSnapshot

open Function List Option

/-! ## Searching -/

variable {M m n p x T d : Nat} {rs : RelSnapshot}
  {base i j k y : Nat} {xip : Nat → Nat} {cells removed : List Nat}

theorem flashbackXidComparator_ofFull (hx : InWin base x) (hy : InWin base y) :
    flashbackXidComparator (ofFull x) (ofFull y) =
      if x = y then .eq else if x < y then .lt else .gt := by
  simp only [flashbackXidComparator, ofFull_inj hx hy, precedes_ofFull hx hy]

theorem getElem?_lt_iff_of_sorted {l : List Nat} (hs : l.Pairwise (· < ·)) {p q : Nat}
    (hi : l[i]? = some p) (hj : l[j]? = some q) : p < q ↔ i < j := by
  obtain ⟨hi', rfl⟩ := List.getElem?_eq_some_iff.mp hi
  obtain ⟨hj', rfl⟩ := List.getElem?_eq_some_iff.mp hj
  exact hs.sortedLT.getElem_lt_getElem_iff

/-- Wherever a search for `x` stands, with smaller numbers before and
greater ones behind, there is a cell of `x`. -/
def Findable (cells : List Nat) (x : Nat) : Prop :=
  ∀ l u, l ≤ u → u ≤ cells.length → (∀ y, l ≠ 0 → cells[l - 1]? = some y → y < x) →
    (∀ y, cells[u]? = some y → x < y) → ∃ p, l ≤ p ∧ p < u ∧ cells[p]? = some x

theorem findable_of_sorted (hs : cells.Pairwise (· < ·)) (hx : x ∈ cells) : Findable cells x := by
  intro l u hlu hu hl hr
  obtain ⟨p, hp⟩ := mem_iff_getElem?.mp hx
  refine ⟨p, ?_, ?_, hp⟩
  · by_contra hpl
    have hcell := getElem?_eq_getElem (show l - 1 < cells.length by omega)
    have := hl _ (by omega) hcell
    have := getElem?_lt_iff_of_sorted hs hcell hp
    omega
  · by_contra hpu
    have hcell := getElem?_eq_getElem (show u < cells.length by have := lt_of_getElem? hp; omega)
    have := hr _ hcell
    have := getElem?_lt_iff_of_sorted hs hp hcell
    omega

/-- The cells of `xip` hold the ids of the numbers `cells`, in order but
for the `d` numbers from `T` on. -/
structure CellsOk (base T d : Nat) (xip : Nat → Nat) (cells : List Nat) : Prop where
  xip : ∀ i x, cells[i]? = some x → xip i = ofFull x
  sorted : ∀ i j x y : Nat, cells[i]? = some x → cells[j]? = some y → x < T ∨ T + d ≤ x →
    (x < y ↔ i < j) ∧ (y < x ↔ j < i)
  found : ∀ x : Nat, T ≤ x → x < T + d → Findable cells x
  win : ∀ x ∈ cells, InWin base x

/-- What `bsearch_xip` returns: the cell of the number, and the number of
removed positions before it behind `removedPos` others. -/
def Found (cells : List Nat) (x : Nat) (rest : List Nat) (removedPos : Nat)
    (res : Option Nat × Nat) : Prop :=
  (∀ p, res.1 = some p ↔ cells[p]? = some x) ∧
    ∀ p, cells[p]? = some x → p ∉ rest → ∃ k, res.2 = removedPos + k ∧ k ≤ rest.length ∧
      ∀ i q, rest[i]? = some q → (q < p ↔ i < k)

section

variable (h : CellsOk base T d xip cells) (hone : x < T ∨ T + d ≤ x)
include h hone

theorem CellsOk.index_inj (hi : cells[i]? = some x) (hj : cells[j]? = some x) : i = j := by
  have := h.sorted i j x x hi hj hone
  omega

variable {start : Nat}

theorem bsearchLoop_eq_some (hx : InWin base x) (hn : start + n ≤ cells.length) (p : Nat) :
    ∀ fuel l u, u ≤ l + fuel → u ≤ n → (∀ i, i < n → cells[start + i]? = some x → l ≤ i ∧ i < u) →
      (bsearchLoop (ofFull x) xip start fuel l u = some p ↔
        start ≤ p ∧ p < start + n ∧ cells[p]? = some x) := by
  intro fuel
  have hempty : ∀ l u, u ≤ l → (∀ i, i < n → cells[start + i]? = some x → l ≤ i ∧ i < u) →
      (none = some p ↔ start ≤ p ∧ p < start + n ∧ cells[p]? = some x) := by
    intro l u hul hin
    refine ⟨nofun, fun ⟨h1, _, h3⟩ => ?_⟩
    have := hin (p - start) (by omega) (by rwa [Nat.add_sub_cancel' h1])
    omega
  induction fuel with
  | zero =>
    intro l u hfuel _ hin
    exact hempty l u hfuel hin
  | succ fuel ih =>
    intro l u hfuel hun hin
    unfold bsearchLoop
    by_cases hlu : l < u
    · simp only [if_pos hlu]
      obtain ⟨y, hy⟩ : ∃ y, cells[start + (l + u) / 2]? = some y :=
        ⟨_, getElem?_eq_getElem (by omega)⟩
      rw [h.xip _ y hy, flashbackXidComparator_ofFull hx (h.win y (mem_of_getElem? hy))]
      by_cases heq : x = y
      · rw [if_pos heq]
        subst heq
        constructor
        · rintro ⟨rfl⟩
          exact ⟨by omega, by omega, hy⟩
        · rintro ⟨_, _, hp⟩
          exact congrArg some (h.index_inj hone hy hp)
      · rw [if_neg heq]
        by_cases hlt : x < y
        · rw [if_pos hlt]
          refine ih l ((l + u) / 2) (by omega) (by omega) fun i hi hxi => ?_
          have := (h.sorted _ _ x y hxi hy hone).1.mp hlt
          exact ⟨(hin i hi hxi).1, by omega⟩
        · rw [if_neg hlt]
          refine ih ((l + u) / 2 + 1) u (by omega) hun fun i hi hxi => ?_
          have := (h.sorted _ _ x y hxi hy hone).2.mp (by omega)
          exact ⟨by omega, (hin i hi hxi).2⟩
    · rw [if_neg hlu]
      exact hempty l u (by omega) hin

theorem bsearch_eq_some (hx : InWin base x) (hn : start + n ≤ cells.length) (p : Nat) :
    bsearch (ofFull x) xip start n = some p ↔ start ≤ p ∧ p < start + n ∧ cells[p]? = some x :=
  bsearchLoop_eq_some h hone hx hn p n 0 n (by omega) le_rfl fun _ hi _ => ⟨Nat.zero_le _, hi⟩

/-- The search loop returns the cell of the number, and how many of the
removed positions are before it. -/
theorem bsearchXipLoop_spec (hx : InWin base x) :
    ∀ rest removedPos start, (∀ q ∈ rest, q < cells.length) → rest.Pairwise (· < ·) →
      start ≤ cells.length → (∀ p, cells[p]? = some x → start ≤ p) →
      Found cells x rest removedPos
        (bsearchXipLoop (ofFull x) xip cells.length rest removedPos start) := by
  intro rest
  induction rest with
  | nil =>
    intro removedPos start _ _ hstart hbefore
    unfold bsearchXipLoop
    refine ⟨fun p => ?_, fun p _ _ => ⟨0, rfl, le_rfl, nofun⟩⟩
    rw [bsearch_eq_some h hone hx (by omega)]
    refine ⟨fun hp => hp.2.2, fun hp => ⟨hbefore p hp, ?_, hp⟩⟩
    have := lt_of_getElem? hp
    omega
  | cons last rest ih =>
    intro removedPos start hlt hsorted hstart hbefore
    have hlast : last < cells.length := hlt last mem_cons_self
    have hget := getElem?_eq_getElem hlast
    obtain ⟨hhead, htail⟩ := pairwise_cons.mp hsorted
    have hstep : ∀ start', start' ≤ cells.length → (∀ p, cells[p]? = some x → start' ≤ p) →
        (∀ p, cells[p]? = some x → p ∉ last :: rest → last < p) →
        Found cells x (last :: rest) removedPos
          (bsearchXipLoop (ofFull x) xip cells.length rest (removedPos + 1) start') := by
      intro start' hstart' hbefore' hpass
      obtain ⟨h1, h2⟩ := ih (removedPos + 1) start'
        (fun q hq => hlt q (mem_cons_of_mem _ hq)) htail hstart' hbefore'
      refine ⟨h1, fun p hp hnot => ?_⟩
      obtain ⟨k, hk, hkl, hki⟩ := h2 p hp fun hm => hnot (mem_cons_of_mem _ hm)
      refine ⟨k + 1, by rw [hk]; omega, Nat.succ_le_succ hkl, fun i q hq => ?_⟩
      cases i with
      | zero =>
        cases hq
        exact ⟨fun _ => Nat.succ_pos _, fun _ => hpass p hp hnot⟩
      | succ i =>
        rw [hki i q hq]
        omega
    unfold bsearchXipLoop
    split
    · next hzero =>
      refine hstep start hstart hbefore fun p _ hnot => ?_
      have := ne_of_not_mem_cons hnot
      omega
    · next hzero =>
      rw [h.xip last _ hget]
      have hprec := precedes_ofFull hx (h.win _ (mem_of_getElem? hget))
      by_cases hxl : x < cells[last]
      · rw [if_pos (hprec.mpr hxl)]
        have hp_lt : ∀ p, cells[p]? = some x → p < last :=
          fun p hp => (h.sorted _ _ _ _ hp hget hone).1.mp hxl
        refine ⟨fun p => ?_, fun p hp _ => ⟨0, rfl, Nat.zero_le _, fun i q hq => ?_⟩⟩
        · rcases lt_or_ge last start with hls | hls
          · rw [Nat.sub_eq_zero_of_le hls.le]
            refine ⟨nofun, fun hp => ?_⟩
            have := hbefore p hp
            have := hp_lt p hp
            omega
          · rw [bsearch_eq_some h hone hx (by omega)]
            refine ⟨fun hp => hp.2.2, fun hp => ⟨hbefore p hp, ?_, hp⟩⟩
            have := hp_lt p hp
            omega
        · have hq' : last ≤ q := by
            cases i with
            | zero => cases hq; exact le_rfl
            | succ i =>
              exact (hhead q (mem_of_getElem? hq)).le
          have := hp_lt p hp
          omega
      · rw [if_neg (mt hprec.mp hxl)]
        have hge : ∀ p, cells[p]? = some x → last ≤ p := fun p hp => by
          by_contra hc
          exact hxl ((h.sorted _ _ _ _ hp hget hone).1.mpr (by omega))
        refine hstep last hlast.le hge fun p hp hnot => ?_
        have := hge p hp
        have := ne_of_not_mem_cons hnot
        omega

omit hone in
/-- A number that can be found is, in whichever of its cells. -/
theorem bsearch_isSome (hx : InWin base x) (hf : Findable cells x) :
    (bsearch (ofFull x) xip 0 cells.length).isSome := by
  suffices ∀ fuel l u, l ≤ u → u ≤ l + fuel → u ≤ cells.length →
      (∀ y, l ≠ 0 → cells[l - 1]? = some y → y < x) → (∀ y, cells[u]? = some y → x < y) →
      (bsearchLoop (ofFull x) xip 0 fuel l u).isSome by
    exact this _ 0 _ (Nat.zero_le _) (by omega) le_rfl (fun _ hl => absurd rfl hl)
      fun y hy => absurd (lt_of_getElem? hy) (lt_irrefl _)
  intro fuel
  induction fuel with
  | zero =>
    intro l u hlu hfuel hu hl hr
    obtain ⟨p, h1, h2, -⟩ := hf l u hlu hu hl hr
    omega
  | succ fuel ih =>
    intro l u hlu hfuel hu hl hr
    obtain ⟨p, h1, h2, -⟩ := hf l u hlu hu hl hr
    have hlt : l < u := by omega
    obtain ⟨y, hy⟩ : ∃ y, cells[(l + u) / 2]? = some y := ⟨_, getElem?_eq_getElem (by omega)⟩
    simp only [bsearchLoop, if_pos hlt, Nat.zero_add]
    rw [h.xip _ y hy, flashbackXidComparator_ofFull hx (h.win y (mem_of_getElem? hy))]
    by_cases heq : x = y
    · rw [if_pos heq]
      rfl
    · rw [if_neg heq]
      by_cases hxy : x < y
      · rw [if_pos hxy]
        refine ih l _ (by omega) (by omega) (by omega) hl fun z hz => ?_
        rw [hy] at hz
        cases hz
        exact hxy
      · rw [if_neg hxy]
        refine ih _ u (by omega) (by omega) hu (fun z _ hz => ?_) hr
        rw [Nat.add_sub_cancel, hy] at hz
        cases hz
        omega

end

/-! ## The next cell that is not removed -/

def keptFrom (removed : List Nat) (i n : Nat) : List Nat :=
  (List.range' i n).filter (· ∉ removed)

theorem mem_keptFrom : p ∈ keptFrom removed i n ↔ i ≤ p ∧ p < i + n ∧ p ∉ removed := by
  simp [keptFrom, and_assoc]

theorem mem_keptFrom_of_getElem? (hx : cells[p]? = some x) (hp : p ∉ removed) :
    p ∈ keptFrom removed 0 cells.length := by
  have := lt_of_getElem? hx
  exact mem_keptFrom.mpr ⟨Nat.zero_le _, by omega, hp⟩

def LastBefore (removed : List Nat) (i k : Nat) : Prop :=
  ∀ j p, removed[j]? = some p → (p < i ↔ j ≤ k)

section

variable (hs : removed.Pairwise (· < ·))
include hs

theorem lastBefore_succ (hk : removed[k]? = some p) : LastBefore removed (p + 1) k := by
  intro j q hq
  have := getElem?_lt_iff_of_sorted hs hk hq
  omega

theorem nextValidLoop_spec (xip : Nat → Nat) (xipPos : Nat) :
    ∀ n i k, LastBefore removed i k →
      (keptFrom removed i n = [] → (nextValidLoop xip removed n i xipPos k).1 = 0) ∧
      ∀ q qs, keptFrom removed i n = q :: qs →
        ∃ k', nextValidLoop xip removed n i xipPos k = (xip q, q, k') ∧
          LastBefore removed (q + 1) k' ∧ i ≤ q ∧ q < i + n ∧
          qs = keptFrom removed (q + 1) (i + n - (q + 1)) := by
  intro n
  induction n with
  | zero => exact fun i k _ => ⟨fun _ => rfl, nofun⟩
  | succ n ih =>
    intro i k hk
    have hkept : keptFrom removed i (n + 1) = if i ∈ removed then keptFrom removed (i + 1) n
        else i :: keptFrom removed (i + 1) n := by
      unfold keptFrom
      rw [range'_succ]
      by_cases hi : i ∈ removed
      · simp [hi]
      · simp [hi]
    unfold nextValidLoop
    by_cases hi : removed[k + 1]? = some i
    · rw [if_pos hi, hkept, if_pos (mem_of_getElem? hi)]
      obtain ⟨h1, h2⟩ := ih (i + 1) (k + 1) (lastBefore_succ hs hi)
      refine ⟨h1, fun q qs hq => ?_⟩
      obtain ⟨k', e1, e2, e3, e4, e5⟩ := h2 q qs hq
      exact ⟨k', e1, e2, by omega, by omega, by rw [e5]; congr 1; omega⟩
    · have hni : i ∉ removed := by
        intro hm
        obtain ⟨j, hj⟩ := mem_iff_getElem?.mp hm
        have hkj : k + 1 ≤ j := by
          have := hk j i hj
          omega
        have hlen : k + 1 < removed.length := by
          have := lt_of_getElem? hj
          omega
        have hget := getElem?_eq_getElem hlen
        have hge := hk (k + 1) _ hget
        rcases Nat.eq_or_lt_of_le hkj with rfl | hlt
        · exact hi hj
        · have := (getElem?_lt_iff_of_sorted hs hget hj).mpr hlt
          omega
      rw [if_neg hi, hkept, if_neg hni]
      refine ⟨nofun, fun q qs hq => ?_⟩
      cases hq
      refine ⟨k, rfl, ?_, le_rfl, by omega, by congr 1; omega⟩
      intro j p hp
      have h1 := hk j p hp
      have : p ≠ i := fun hpi => hni (hpi ▸ mem_of_getElem? hp)
      omega

/-! ## Compacting -/

/-- The cells from `newPos` on become those of the kept positions behind
`oldPos`. -/
theorem compactLoop_spec (xcnt : Nat) :
    ∀ n xip newPos oldPos k, newPos ≤ oldPos → LastBefore removed (oldPos + 1) k →
      (keptFrom removed (oldPos + 1) (xcnt + removed.length - (oldPos + 1))).length = n →
      (∀ i, i < newPos → compactLoop xcnt removed n xip newPos oldPos k i = xip i) ∧
      ∀ j q, (keptFrom removed (oldPos + 1) (xcnt + removed.length - (oldPos + 1)))[j]? = some q →
        compactLoop xcnt removed n xip newPos oldPos k (newPos + j) = xip q := by
  intro n
  induction n with
  | zero =>
    intro xip newPos oldPos k _ _ hlen
    refine ⟨fun i _ => rfl, fun j q hq => ?_⟩
    rw [eq_nil_of_length_eq_zero hlen] at hq
    cases hq
  | succ n ih =>
    intro xip newPos oldPos k hle hk hlen
    obtain ⟨q, qs, hkept⟩ := exists_cons_of_length_eq_add_one hlen
    obtain ⟨k', hnext, hk', hiq, hqn, hqs⟩ :=
      (nextValidLoop_spec hs xip oldPos _ _ k hk).2 q qs hkept
    have hrest : oldPos + 1 + (xcnt + removed.length - (oldPos + 1)) - (q + 1) =
        xcnt + removed.length - (q + 1) := by omega
    rw [hrest] at hqs
    simp only [compactLoop, getNextValidXid, hnext]
    have hlen' : (keptFrom removed (q + 1) (xcnt + removed.length - (q + 1))).length = n := by
      rw [← hqs]
      rw [hkept] at hlen
      exact Nat.succ.inj hlen
    obtain ⟨h1, h2⟩ := ih (update xip newPos (xip q)) (newPos + 1) q k' (by omega) hk' hlen'
    refine ⟨fun i hi => ?_, fun j p hp => ?_⟩
    · rw [h1 i (by omega), update_of_ne (by omega)]
    · rw [hkept] at hp
      cases j with
      | zero =>
        cases hp
        exact (h1 newPos (by omega)).trans (update_self _ _ _)
      | succ j =>
        rw [hqs] at hp
        have hpq := (mem_keptFrom.mp (mem_of_getElem? hp)).1
        rw [show newPos + (j + 1) = newPos + 1 + j by omega, h2 j p hp, update_of_ne (by omega)]

theorem keptFrom_length (hlt : ∀ p ∈ removed, p < n) :
    (keptFrom removed 0 n).length + removed.length = n := by
  have hperm : ((range' 0 n).filter (· ∈ removed)).Perm removed := by
    refine (perm_ext_iff_of_nodup ((nodup_range' 1).filter _) (hs.imp Nat.ne_of_lt)).mpr fun p => ?_
    simp only [mem_filter, mem_range'_1, decide_eq_true_eq]
    exact ⟨fun h => h.2, fun h => ⟨⟨Nat.zero_le _, by have := hlt p h; omega⟩, h⟩⟩
  have hsum := length_eq_length_filter_add (fun p => decide (p ∈ removed)) (l := range' 0 n)
  rw [length_range', hperm.length_eq] at hsum
  simp only [keptFrom, decide_not]
  omega

end

theorem keptFrom_cons {first : Nat} {rest : List Nat} (hs : (first :: rest).Pairwise (· < ·))
    (hn : first < n) : keptFrom (first :: rest) 0 n =
      range' 0 first ++ keptFrom (first :: rest) (first + 1) (n - (first + 1)) := by
  have hsplit : range' 0 n = range' 0 first ++ range' first (n - first) := by
    have := range'_append_1 (s := 0) (m := first) (n := n - first)
    rw [Nat.zero_add, Nat.add_sub_cancel' hn.le] at this
    exact this.symm
  have hcons : range' first (n - first) = first :: range' (first + 1) (n - (first + 1)) := by
    rw [show n - first = n - (first + 1) + 1 by omega, range'_succ]
  unfold keptFrom
  rw [hsplit, filter_append, hcons, filter_cons]
  have hkeep : (range' 0 first).filter (· ∉ first :: rest) = range' 0 first := by
    rw [filter_eq_self]
    intro p hp
    rw [mem_range'_1] at hp
    refine decide_eq_true fun hm => ?_
    rcases mem_cons.mp hm with rfl | hm
    · omega
    · have := (pairwise_cons.mp hs).1 p hm
      omega
  rw [hkeep, if_neg (by simp)]

/-! ## What a snapshot stands for -/

/-- The snapshot stands for the transactions with the numbers `cells`, some
of them removed; `m` and `M` are the numbers of `xmin` and `xmax`. -/
structure Rep (base T d : Nat) (rs : RelSnapshot) (cells : List Nat) (m M : Nat) : Prop
    extends CellsOk base T d rs.xip cells where
  length : cells.length = rs.used
  lt_max : ∀ x ∈ cells, x < M ∨ T ≤ x ∧ x < T + d
  top : M = T ∨ T + d ≤ M
  kept : ∀ p ∈ rs.removedXidPos, ∀ x, cells[p]? = some x → x < T ∨ T + d ≤ x
  removed_sorted : rs.removedXidPos.Pairwise (· < ·)
  removed_lt : ∀ p ∈ rs.removedXidPos, p < cells.length
  removed_le : rs.removedXidPos.length ≤ maxKeepRemovedXids
  xmin : rs.xmin = ofFull m
  xmax : rs.xmax = ofFull M
  le_min : base ≤ m
  min_le : m ≤ M
  max_win : InWin base M
  min : ∀ p x, cells[p]? = some x → p ∉ rs.removedXidPos → m ≤ x

def Running (rs : RelSnapshot) (cells : List Nat) (x : Nat) : Prop :=
  ∃ p, cells[p]? = some x ∧ p ∉ rs.removedXidPos

theorem Rep.min_win (h : Rep base T d rs cells m M) : InWin base m :=
  ⟨h.le_min, h.min_le.trans_lt h.max_win.2⟩

theorem Rep.xcnt_eq
    (h : Rep base T d rs cells m M) :
    (keptFrom rs.removedXidPos 0 cells.length).length = rs.xcnt := by
  have := keptFrom_length h.removed_sorted h.removed_lt
  have := h.length
  unfold RelSnapshot.used at this
  omega

def keptCells (rs : RelSnapshot) (cells : List Nat) : List Nat :=
  (keptFrom rs.removedXidPos 0 cells.length).map (cells.getD · 0)

theorem keptCells_getElem? : (keptCells rs cells)[i]? = some x ↔
      ∃ p, (keptFrom rs.removedXidPos 0 cells.length)[i]? = some p ∧ cells[p]? = some x := by
  rw [keptCells, getElem?_map, map_eq_some_iff]
  refine exists_congr fun p => and_congr_right fun hp => ?_
  have hlt := (mem_keptFrom.mp (mem_of_getElem? hp)).2.1
  rw [Nat.zero_add] at hlt
  rw [getD_eq_getElem?_getD, getElem?_eq_getElem hlt]
  exact some_inj.symm

theorem mem_keptCells : x ∈ keptCells rs cells ↔ Running rs cells x := by
  rw [mem_iff_getElem?]
  constructor
  · rintro ⟨i, hi⟩
    obtain ⟨p, hp, hx⟩ := keptCells_getElem?.mp hi
    exact ⟨p, hx, (mem_keptFrom.mp (mem_of_getElem? hp)).2.2⟩
  · rintro ⟨p, hx, hp⟩
    obtain ⟨i, hi⟩ := mem_iff_getElem?.mp (mem_keptFrom_of_getElem? hx hp)
    exact ⟨i, keptCells_getElem?.mpr ⟨p, hi, hx⟩⟩

theorem keptFrom_lt_iff {q : Nat} (hp : (keptFrom removed 0 n)[i]? = some p)
    (hq : (keptFrom removed 0 n)[j]? = some q) : p < q ↔ i < j :=
  getElem?_lt_iff_of_sorted ((pairwise_lt_range' 1).filter _) hp hq

/-- A number whose cells are all kept can be found among the kept ones. -/
theorem Findable.keptCells (hf : Findable cells x)
    (hkept : ∀ p, cells[p]? = some x → p ∉ rs.removedXidPos) : Findable (keptCells rs cells) x := by
  intro l u hlu hu hl hr
  have hlen : (FlashbackSnapshot.keptCells rs cells).length =
      (keptFrom rs.removedXidPos 0 cells.length).length := length_map _
  obtain ⟨L, hLU, hL, hLlow⟩ : ∃ L,
      (∀ U, (∀ i p, (keptFrom rs.removedXidPos 0 cells.length)[i]? = some p → (p < U ↔ i < u)) →
        L ≤ U) ∧
      (∀ i p, (keptFrom rs.removedXidPos 0 cells.length)[i]? = some p → (L ≤ p ↔ l ≤ i)) ∧
      ∀ y, L ≠ 0 → cells[L - 1]? = some y → y < x := by
    rcases Nat.eq_zero_or_pos l with rfl | hpos
    · exact ⟨0, fun _ _ => Nat.zero_le _, fun _ _ _ => by omega, fun _ h0 => absurd rfl h0⟩
    · obtain ⟨q, hq⟩ : ∃ q, (keptFrom rs.removedXidPos 0 cells.length)[l - 1]? = some q :=
        ⟨_, getElem?_eq_getElem (by omega)⟩
      refine ⟨q + 1, fun U hU => (hU _ q hq).mpr (by omega), fun i p hp => ?_, fun y _ hy => ?_⟩
      · have := keptFrom_lt_iff hq hp
        omega
      · exact hl y (by omega) (keptCells_getElem?.mpr ⟨q, hq, hy⟩)
  obtain ⟨U, hUle, hU, hUhigh⟩ : ∃ U, U ≤ cells.length ∧
      (∀ i p, (keptFrom rs.removedXidPos 0 cells.length)[i]? = some p → (p < U ↔ i < u)) ∧
      ∀ y, cells[U]? = some y → x < y := by
    rcases lt_or_ge u (keptFrom rs.removedXidPos 0 cells.length).length with hlt | hge
    · obtain ⟨q, hq⟩ : ∃ q, (keptFrom rs.removedXidPos 0 cells.length)[u]? = some q :=
        ⟨_, getElem?_eq_getElem hlt⟩
      have hqlt := (mem_keptFrom.mp (mem_of_getElem? hq)).2.1
      refine ⟨q, by omega, fun i p hp => keptFrom_lt_iff hp hq, fun y hy => ?_⟩
      exact hr y (keptCells_getElem?.mpr ⟨q, hq, hy⟩)
    · refine ⟨cells.length, le_rfl, fun i p hp => ?_,
        fun y hy => absurd (lt_of_getElem? hy) (lt_irrefl _)⟩
      have := lt_of_getElem? hp
      have := (mem_keptFrom.mp (mem_of_getElem? hp)).2.1
      omega
  obtain ⟨p, h1, h2, hx⟩ := hf L U (hLU U hU) hUle hLlow hUhigh
  obtain ⟨i, hi⟩ := mem_iff_getElem?.mp (mem_keptFrom_of_getElem? hx (hkept p hx))
  exact ⟨i, (hL i p hi).mp h1, (hU i p hi).mp h2, keptCells_getElem?.mpr ⟨p, hi, hx⟩⟩

section

variable (h : Rep base T d rs cells m M)
include h

theorem Rep.compact_xip (hne : rs.removedXidPos ≠ [])
    (hi : (keptFrom rs.removedXidPos 0 cells.length)[i]? = some p) :
    (compactRemovedXids rs).xip i = rs.xip p := by
  have hcnt := h.xcnt_eq
  have hs := h.removed_sorted
  have hlen := h.length
  have hlt := h.removed_lt
  unfold RelSnapshot.used at hlen
  unfold compactRemovedXids
  cases hr : rs.removedXidPos with
  | nil => exact absurd hr hne
  | cons first rest =>
    rw [hr] at hs hcnt hi hlen hlt
    have hfirst : first < cells.length := hlt first mem_cons_self
    rw [keptFrom_cons hs hfirst, length_append, length_range'] at hcnt
    rw [keptFrom_cons hs hfirst] at hi
    obtain ⟨h1, h2⟩ := compactLoop_spec hs rs.xcnt (rs.xcnt - first) rs.xip first first 0
      le_rfl (lastBefore_succ hs rfl) (by rw [← hlen]; omega)
    change compactLoop rs.xcnt (first :: rest) (rs.xcnt - first) rs.xip first first 0 i = rs.xip p
    rcases lt_or_ge i first with hif | hif
    · rw [getElem?_append_left (by rw [length_range']; exact hif), getElem?_range' hif] at hi
      cases hi
      rw [h1 i hif]
      congr 1
      omega
    · rw [getElem?_append_right (by rw [length_range']; exact hif), length_range', hlen] at hi
      have := h2 (i - first) p hi
      rwa [Nat.add_sub_cancel' hif] at this

omit h in
theorem compactRemovedXids_eq (rs : RelSnapshot) :
    ∃ xip, compactRemovedXids rs = { rs with xip := xip, removedXidPos := [] } := by
  obtain ⟨xmin, xmax, xcnt, xip, removed, size, enlarged, no, next⟩ := rs
  cases removed with
  | nil => exact ⟨xip, rfl⟩
  | cons first rest => exact ⟨_, rfl⟩

theorem Rep.compact : ∃ cells', Rep base T d (compactRemovedXids rs) cells' m M ∧
      (compactRemovedXids rs).removedXidPos = [] ∧
      ∀ x, Running (compactRemovedXids rs) cells' x ↔ Running rs cells x := by
  by_cases hne : rs.removedXidPos = []
  · have hsame : compactRemovedXids rs = rs := by
      rw [compactRemovedXids, hne]
    rw [hsame]
    exact ⟨cells, h, hne, fun x => Iff.rfl⟩
  · have hxip := fun i p => h.compact_xip hne (i := i) (p := p)
    obtain ⟨xip, heq⟩ := compactRemovedXids_eq rs
    rw [heq] at hxip ⊢
    have hmem : ∀ x ∈ keptCells rs cells, x ∈ cells := fun x hx => by
      obtain ⟨p, hp, _⟩ := mem_keptCells.mp hx
      exact mem_of_getElem? hp
    refine ⟨keptCells rs cells, { h with
      xip i x hx := ?_
      sorted i j x y hx hy hone := ?_
      found x hT hd := (h.found x hT hd).keptCells fun p hp hm => by
        have := h.kept p hm x hp
        omega
      kept := forall_mem_nil _
      win x hx := h.win x (hmem x hx)
      length := by rw [RelSnapshot.used, keptCells, length_map, h.xcnt_eq]; rfl
      lt_max x hx := h.lt_max x (hmem x hx)
      removed_sorted := .nil
      removed_lt := forall_mem_nil _
      removed_le := Nat.zero_le _
      min p x hx _ := ?_ }, rfl, fun x => Iff.trans ?_ mem_keptCells⟩
    · obtain ⟨p, hp, hx⟩ := keptCells_getElem?.mp hx
      rw [hxip i p hp, h.xip p x hx]
    · obtain ⟨p, hp, hx⟩ := keptCells_getElem?.mp hx
      obtain ⟨q, hq, hy⟩ := keptCells_getElem?.mp hy
      rw [← keptFrom_lt_iff hp hq, ← keptFrom_lt_iff hq hp]
      exact h.sorted p q x y hx hy hone
    · obtain ⟨q, hq, hnot⟩ := mem_keptCells.mp (mem_of_getElem? hx)
      exact h.min q x hq hnot
    · rw [mem_iff_getElem?]
      exact exists_congr fun p => and_iff_left not_mem_nil

/-- `polar_compact_xip` leaves no removed cell among those searched. -/
theorem Rep.compactXip : ∃ cells', Rep base T d (compactXip rs) cells' m M ∧
      ((compactXip rs).xcnt = 0 ∨ (compactXip rs).removedXidPos = []) ∧
      (∀ x, Running (compactXip rs) cells' x ↔ Running rs cells x) ∧
      (compactXip rs).nextXid = rs.nextXid := by
  unfold FlashbackSnapshot.compactXip
  split
  · next hzero =>
    exact ⟨cells, h, .inl hzero, fun x => Iff.rfl, rfl⟩
  · obtain ⟨cells', h', hnil, hrun⟩ := h.compact
    refine ⟨cells', h', .inr hnil, hrun, ?_⟩
    obtain ⟨_, heq⟩ := compactRemovedXids_eq rs
    rw [heq]

end

/-! ## Taking a transaction out -/

/-- The cell behind those in use is zero or holds an id that is not after
`xmax`. -/
def BehindOk (base : Nat) (rs : RelSnapshot) : Prop :=
  rs.xip rs.used = invalidTransactionId ∨
    (firstNormalTransactionId ≤ rs.xip rs.used ∧ rs.xip rs.used < xidSpace ∧
      fullOf base (rs.xip rs.used) ≤ fullOf base rs.xmax)

instance (base : Nat) (rs : RelSnapshot) : Decidable (BehindOk base rs) :=
  inferInstanceAs (Decidable (_ ∨ _))

theorem insertIdx_sorted {l : List Nat} (hs : l.Pairwise (· < ·)) (hk : k ≤ l.length)
    (hp : ∀ i q, l[i]? = some q → (q < p ↔ i < k)) (hnot : p ∉ l) :
    (l.insertIdx k p).Pairwise (· < ·) ∧ LastBefore (l.insertIdx k p) (p + 1) k := by
  have hself : (l.insertIdx k p)[k]? = some p := by rw [getElem?_insertIdx_self, if_pos hk]
  obtain ⟨l1, l2, rfl, rfl, heq⟩ := exists_of_modifyTailIdx (cons p) hk
  obtain ⟨hs1, hs2, -⟩ := pairwise_append.mp hs
  have hlt : ∀ q ∈ l1, q < p := fun q hq => by
    obtain ⟨i, hi⟩ := mem_iff_getElem?.mp hq
    have hil := lt_of_getElem? hi
    exact (hp i q (by rwa [getElem?_append_left hil])).mpr hil
  have hgt : ∀ q ∈ l2, p < q := fun q hq => by
    obtain ⟨i, hi⟩ := mem_iff_getElem?.mp hq
    have := hp (l1.length + i) q (by
      rwa [getElem?_append_right (Nat.le_add_right ..), Nat.add_sub_cancel_left])
    have : q ≠ p := fun hqp => hnot (hqp ▸ mem_append_right l1 hq)
    omega
  have hsorted : (l1 ++ p :: l2).Pairwise (· < ·) :=
    pairwise_append.mpr ⟨hs1, pairwise_cons.mpr ⟨hgt, hs2⟩, fun q hq =>
      forall_mem_cons.mpr ⟨hlt q hq, fun r hr => (hlt q hq).trans (hgt r hr)⟩⟩
  rw [← heq] at hsorted
  exact ⟨hsorted, lastBefore_succ hsorted hself⟩

theorem Rep.removeAt
    (h : Rep base T d rs cells m M) (hfull : rs.removedXidPos.length < maxKeepRemovedXids)
    (hx : cells[p]? = some x) (hone : x < T ∨ T + d ≤ x) (hp : p ∉ rs.removedXidPos)
    (hk : k ≤ rs.removedXidPos.length)
    (hki : ∀ i q, rs.removedXidPos[i]? = some q → (q < p ↔ i < k)) :
    Rep base T d { rs with
      xcnt := rs.xcnt - 1, removedXidPos := rs.removedXidPos.insertIdx k p } cells m M := by
  have hlt := lt_of_getElem? hx
  have hcnt : 0 < rs.xcnt := by
    rw [← h.xcnt_eq]
    exact length_pos_of_mem (mem_keptFrom_of_getElem? hx hp)
  have hlen : (rs.removedXidPos.insertIdx k p).length = rs.removedXidPos.length + 1 :=
    length_insertIdx_of_le_length hk _
  exact { h with
    length := by
      have := h.length
      simp only [RelSnapshot.used] at this ⊢
      omega
    kept := fun q hq y hy => by
      rcases (mem_insertIdx hk).mp hq with rfl | hq
      · rw [hx] at hy
        cases hy
        exact hone
      · exact h.kept q hq y hy
    removed_sorted := (insertIdx_sorted h.removed_sorted hk hki hp).1
    removed_lt := fun q hq => by
      rcases (mem_insertIdx hk).mp hq with rfl | hq
      · exact hlt
      · exact h.removed_lt q hq
    removed_le := by
      rwa [hlen]
    min := fun q y hy hq => h.min q y hy fun hm => hq ((mem_insertIdx hk).mpr (.inr hm)) }

theorem Rep.setMin {xmin m' : Nat}
    (h : Rep base T d rs cells m M) (hxmin : xmin = ofFull m') (hbase : base ≤ m') (hM : m' ≤ M)
    (hmin : ∀ y, Running rs cells y → m' ≤ y) : Rep base T d { rs with xmin := xmin } cells m' M :=
  { h with
    xmin := hxmin
    le_min := hbase
    min_le := hM
    min := fun p y hy hp => hmin y ⟨p, hy, hp⟩ }

/-- The next running transaction, read from the cells up to the one behind
those in use. -/
theorem Rep.nextMin {rs' : RelSnapshot} (h : Rep base T d rs cells x M)
    (h' : Rep base T d rs' cells x M)
    (hx : cells[p]? = some x) (hone : x < T ∨ T + d ≤ x) (hp : p ∈ rs'.removedXidPos)
    (hused : rs.xcnt + rs'.removedXidPos.length = cells.length + 1)
    (hlast : LastBefore rs'.removedXidPos (p + 1) k) (hbehind : rs.xcnt = 1 → BehindOk base rs) :
    ∃ m', (if (getNextValidXid rs.xip p rs.xcnt rs'.removedXidPos k).1 ≠ invalidTransactionId then
          (getNextValidXid rs.xip p rs.xcnt rs'.removedXidPos k).1 else rs.xmax) = ofFull m' ∧
      base ≤ m' ∧ m' ≤ M ∧ ∀ y, Running rs' cells y → m' ≤ y := by
  have hlt := lt_of_getElem? hx
  rw [getNextValidXid, hused]
  have hn : cells.length + 1 - (p + 1) = cells.length - p := by omega
  rw [hn]
  obtain ⟨-, hcons⟩ :=
    nextValidLoop_spec h'.removed_sorted rs.xip p (cells.length - p) (p + 1) k hlast
  have hmem : cells.length ∈ keptFrom rs'.removedXidPos (p + 1) (cells.length - p) :=
    mem_keptFrom.mpr ⟨by omega, by omega, fun hm => lt_irrefl _ (h'.removed_lt _ hm)⟩
  obtain ⟨q, qs, hq⟩ := exists_cons_of_ne_nil (ne_nil_of_mem hmem)
  obtain ⟨k', hnext, -, hpq, hqn, hqs⟩ := hcons q qs hq
  rw [hnext]
  have hge : ∀ y i, cells[i]? = some y → i ∉ rs'.removedXidPos → q ≤ i := by
    intro y i hy hi
    have hyx : x ≤ y := h'.min i y hy hi
    have hip : p < i := by
      have := h.sorted p i x y hx hy hone
      have : i ≠ p := fun heq => hi (heq ▸ hp)
      omega
    have hilt := lt_of_getElem? hy
    have hmem : i ∈ q :: qs := hq ▸ mem_keptFrom.mpr ⟨by omega, by omega, hi⟩
    rcases mem_cons.mp hmem with rfl | hmem
    · exact le_rfl
    · rw [hqs] at hmem
      have := (mem_keptFrom.mp hmem).1
      omega
  rcases lt_or_ge q cells.length with hql | hql
  · have hget := getElem?_eq_getElem hql
    have hmemq := mem_of_getElem? hget
    have hfirst : cells[q] ≤ M ∧ ∀ y i, cells[i]? = some y → i ∉ rs'.removedXidPos →
        cells[q] ≤ y := by
      by_cases htwice : T ≤ cells[q] ∧ cells[q] < T + d
      · have hT : cells[q] = T := by
          by_contra hne
          obtain ⟨i, -, hiq, hi⟩ := h.found T le_rfl (by omega) 0 q (Nat.zero_le _) hql.le
            (fun _ h0 => absurd rfl h0) fun y hy => by
              rw [hget] at hy
              cases hy
              omega
          have := hge T i hi fun hm => by
            have := h'.kept i hm T hi
            omega
          omega
        have htop := h.top
        refine ⟨by omega, fun y i hy hi => ?_⟩
        by_contra hlt
        have := h.sorted i q y _ hy hget (.inl (by omega))
        have := hge y i hy hi
        omega
      · refine ⟨by have := h.lt_max _ hmemq; omega, fun y i hy hi => ?_⟩
        have := h.sorted q i _ y hget hy (by omega)
        have := hge y i hy hi
        omega
    refine ⟨cells[q], ?_, (h.win _ hmemq).1, hfirst.1, ?_⟩
    · rw [h.xip q _ hget]
      exact if_pos (ofFull_ne_zero _)
    · rintro y ⟨i, hy, hi⟩
      exact hfirst.2 y i hy hi
  · have hnone : ∀ y, ¬ Running rs' cells y := by
      rintro y ⟨i, hy, hi⟩
      have := hge y i hy hi
      have := lt_of_getElem? hy
      omega
    have hq' : q = rs.used := by
      have := h.length
      omega
    have hcnt : rs.xcnt = 1 := by
      have h1 : (keptFrom rs'.removedXidPos 0 cells.length) = [] := by
        rw [eq_nil_iff_forall_not_mem]
        intro i hi
        have hi' := mem_keptFrom.mp hi
        have hil : i < cells.length := by omega
        exact hnone _ ⟨i, getElem?_eq_getElem hil, hi'.2.2⟩
      have := keptFrom_length h'.removed_sorted h'.removed_lt
      rw [h1, length_nil] at this
      omega
    rw [hq']
    rcases hbehind hcnt with hzero | ⟨hn1, hn2, hle⟩
    · rw [if_neg (not_not.mpr hzero)]
      exact ⟨M, h.xmax, h.max_win.1, le_rfl, fun y hy => absurd hy (hnone y)⟩
    · have hne : rs.xip rs.used ≠ invalidTransactionId := by
        intro hz
        rw [hz] at hn1
        exact absurd hn1 (by decide)
      rw [if_pos hne]
      refine ⟨fullOf base (rs.xip rs.used), (ofFull_fullOf hn1 hn2).symm, Nat.le_add_right _ _, ?_,
        fun y hy => absurd hy (hnone y)⟩
      rwa [h.xmax, fullOf_ofFull h.max_win] at hle

section

variable (h : Rep base T d rs cells m M)
include h

theorem Rep.removeFound (hroom : rs.removedXidPos.length < maxKeepRemovedXids)
    (hwin : InWin base x) (hone : x < T ∨ T + d ≤ x)
    (hnew : ∀ p, cells[p]? = some x → p ∉ rs.removedXidPos)
    (hbehind : ofFull x = rs.xmin → rs.xcnt = 1 → BehindOk base rs) :
    ∃ m', Rep base T d (removeFound rs (ofFull x)) cells m' M ∧
      (∀ y, Running (removeFound rs (ofFull x)) cells y ↔ Running rs cells y ∧ y ≠ x) ∧
      ∀ p ∈ (removeFound rs (ofFull x)).removedXidPos,
        p ∈ rs.removedXidPos ∨ cells[p]? = some x := by
  obtain ⟨hfind, hpos⟩ := bsearchXipLoop_spec h.toCellsOk hone hwin rs.removedXidPos 0 0
    h.removed_lt h.removed_sorted (Nat.zero_le _) fun _ _ => Nat.zero_le _
  rw [h.length] at hfind hpos
  by_cases hmem : ∃ p : Nat, cells[p]? = some x
  · obtain ⟨p, hx⟩ := hmem
    obtain ⟨k, hk, hkl, hki⟩ := hpos p hx (hnew p hx)
    have hsearch : bsearchXip rs (ofFull x) = (some p, k) :=
      Prod.ext ((hfind p).mpr hx) (hk.trans (Nat.zero_add k))
    have hrem := h.removeAt hroom hx hone (hnew p hx) hkl hki
    have hrun : ∀ y, (∃ q, cells[q]? = some y ∧ q ∉ rs.removedXidPos.insertIdx k p) ↔
        Running rs cells y ∧ y ≠ x := by
      intro y
      constructor
      · rintro ⟨q, hy, hq⟩
        refine ⟨⟨q, hy, fun hm => hq ((mem_insertIdx hkl).mpr (.inr hm))⟩, fun hyx => hq ?_⟩
        subst hyx
        exact (mem_insertIdx hkl).mpr (.inl (h.index_inj hone hy hx))
      · rintro ⟨⟨q, hy, hq⟩, hne⟩
        refine ⟨q, hy, fun hm => ?_⟩
        rcases (mem_insertIdx hkl).mp hm with rfl | hm
        · rw [hx] at hy
          exact hne (some.inj hy).symm
        · exact hq hm
    have hsub : ∀ q ∈ rs.removedXidPos.insertIdx k p, q ∈ rs.removedXidPos ∨
        cells[q]? = some x := by
      intro q hq
      rcases (mem_insertIdx hkl).mp hq with rfl | hq
      · exact .inr hx
      · exact .inl hq
    simp only [FlashbackSnapshot.removeFound, hsearch]
    split
    · next hmin =>
      have hmx : m = x := by
        rw [h.xmin] at hmin
        exact ((ofFull_inj hwin h.min_win).mp hmin).symm
      subst hmx
      have hused : rs.xcnt + (rs.removedXidPos.insertIdx k p).length = cells.length + 1 := by
        rw [length_insertIdx_of_le_length hkl]
        have := h.length
        unfold RelSnapshot.used at this
        omega
      obtain ⟨m', hm', hb, hM, hall⟩ := h.nextMin hrem hx hone ((mem_insertIdx hkl).mpr (.inl rfl))
        hused (insertIdx_sorted h.removed_sorted hkl hki (hnew p hx)).2 (hbehind hmin)
      exact ⟨m', hrem.setMin hm' hb hM hall, hrun, hsub⟩
    · exact ⟨m, hrem, hrun, hsub⟩
  · have hsearch : (bsearchXip rs (ofFull x)).1 = none := by
      rw [eq_none_iff_forall_ne_some]
      exact fun p hp => hmem ⟨p, (hfind p).mp hp⟩
    have hsame : FlashbackSnapshot.removeFound rs (ofFull x) = rs := by
      unfold FlashbackSnapshot.removeFound
      split
      · rfl
      · rename_i heq
        rw [heq] at hsearch
        cases hsearch
    rw [hsame]
    refine ⟨m, h, fun y => ⟨fun hy => ⟨hy, fun hyx => hmem ?_⟩, fun hy => hy.1⟩, fun p hp =>
      .inl hp⟩
    obtain ⟨p, hp, _⟩ := hy
    exact ⟨p, hyx ▸ hp⟩

theorem Rep.compactIfFull : ∃ cells', Rep base T d (compactIfFull rs) cells' m M ∧
      (compactIfFull rs).removedXidPos.length < maxKeepRemovedXids ∧
      (∀ x, Running (compactIfFull rs) cells' x ↔ Running rs cells x) ∧
      ∀ p ∈ (compactIfFull rs).removedXidPos, ∀ x, cells'[p]? = some x →
        ∃ q ∈ rs.removedXidPos, cells[q]? = some x := by
  unfold FlashbackSnapshot.compactIfFull
  split
  · obtain ⟨cells', h', hnil, hrun⟩ := h.compact
    refine ⟨cells', h', ?_, hrun, fun p hp => ?_⟩
    · rw [hnil]
      decide
    · rw [hnil] at hp
      exact absurd hp not_mem_nil
  · next hfull =>
    exact ⟨cells, h, h.removed_le.lt_of_ne hfull, fun x => Iff.rfl, fun p hp x hx => ⟨p, hp, hx⟩⟩

/-- `remove_xid_from_running_xids`: the transaction does not run any more,
all others are as they were. -/
theorem Rep.remove (hwin : InWin base x) (hone : x < T ∨ T + d ≤ x)
    (hnew : ∀ p, cells[p]? = some x → p ∉ rs.removedXidPos)
    (hbehind : ofFull x = rs.xmin → rs.xcnt = 1 →
      BehindOk base (FlashbackSnapshot.compactIfFull rs)) :
    ∃ cells' m', Rep base T d (removeXidFromRunningXids rs (ofFull x)) cells' m' M ∧
      (∀ y, Running (removeXidFromRunningXids rs (ofFull x)) cells' y ↔
        Running rs cells y ∧ y ≠ x) ∧
      ∀ p ∈ (removeXidFromRunningXids rs (ofFull x)).removedXidPos, ∀ y, cells'[p]? = some y →
        y = x ∨ ∃ q ∈ rs.removedXidPos, cells[q]? = some y := by
  rw [removeXidFromRunningXids, h.xmin]
  by_cases hlt : x < m
  · rw [if_pos ((precedes_ofFull hwin h.min_win).mpr hlt)]
    refine ⟨cells, m, h, fun y => ⟨fun hy => ⟨hy, fun hyx => ?_⟩, fun hy => hy.1⟩,
      fun p hp y hy => .inr ⟨p, hp, hy⟩⟩
    obtain ⟨p, hp, hnot⟩ := hy
    have := h.min p y hp hnot
    omega
  · rw [if_neg (mt (precedes_ofFull hwin h.min_win).mp hlt)]
    obtain ⟨cells', h', hroom, hrun, hold⟩ := h.compactIfFull
    have hkeep : (FlashbackSnapshot.compactIfFull rs).xcnt = rs.xcnt ∧
        (FlashbackSnapshot.compactIfFull rs).xmin = rs.xmin := by
      obtain ⟨_, heq⟩ := compactRemovedXids_eq rs
      rw [FlashbackSnapshot.compactIfFull, heq]
      split <;> exact ⟨rfl, rfl⟩
    have hnew' : ∀ p, cells'[p]? = some x →
        p ∉ (FlashbackSnapshot.compactIfFull rs).removedXidPos := by
      intro p hp hm
      obtain ⟨q, hq, hx⟩ := hold p hm x hp
      exact hnew q hx hq
    obtain ⟨m', h'', hrun', hsub⟩ := h'.removeFound hroom hwin hone hnew' (by
      rw [hkeep.1, hkeep.2]
      exact hbehind)
    refine ⟨cells', m', h'', fun y => (hrun' y).trans (and_congr_left' (hrun y)), ?_⟩
    intro p hp y hy
    rcases hsub p hp with hp | hp
    · exact .inr (hold p hp y hy)
    · rw [hp] at hy
      exact .inl (some.inj hy).symm

end

/-! ## Adding transactions -/

theorem fillLoop_spec : ∀ n xip pos k,
    (∀ i, i < pos → fillLoop n xip pos (ofFull k) i = xip i) ∧
      ∀ j, j < n → fillLoop n xip pos (ofFull k) (pos + j) = ofFull (k + j) := by
  intro n
  induction n with
  | zero => exact fun xip pos k => ⟨fun _ _ => rfl, nofun⟩
  | succ n ih =>
    intro xip pos k
    rw [fillLoop, transactionIdAdvance_ofFull]
    obtain ⟨h1, h2⟩ := ih (update xip pos (ofFull k)) (pos + 1) (k + 1)
    refine ⟨fun i hi => ?_, fun j hj => ?_⟩
    · rw [h1 i (by omega), update_of_ne (by omega)]
    · cases j with
      | zero => exact (h1 pos (Nat.lt_succ_self pos)).trans (update_self _ _ _)
      | succ j =>
        have := h2 j (by omega)
        rwa [show pos + 1 + j = pos + (j + 1) by omega,
          show k + 1 + j = k + (j + 1) by omega] at this

theorem insertCnt_ofFull (hx : InWin base x) (hM : base ≤ M) (hle : M ≤ x) :
    insertCnt (ofFull x) (ofFull M) = x - M := by
  obtain ⟨d, rfl⟩ := Nat.exists_eq_add_of_le hle
  have hd : d < xidWindow := by
    have := hx.2
    omega
  have h := ofFull_add (k := M) hd
  have h1 : ofFull M < xidSpace := by
    rw [ofFull_eq]
    unfold xidSpace
    omega
  rw [Nat.add_sub_cancel_left]
  change (ofFull (M + d) + 4294967296 - ofFull M) % 4294967296 -
    (if ofFull (M + d) < ofFull M then 3 else 0) = d
  unfold xidWindow at hd
  unfold xidSpace at h h1
  split <;> omega

theorem insertXid_fields (junk : Nat → Nat → Nat) (rs : RelSnapshot) (xid : Nat) :
    ∃ xip xipSize enlarged, (∀ i, i < rs.used → xip i = rs.xip i) ∧
      insertXidIntoRunningXids junk rs xid = { rs with
        xcnt := rs.xcnt + insertCnt xid rs.xmax
        xip := fillLoop (insertCnt xid rs.xmax) xip rs.used rs.xmax
        xipSize := xipSize
        enlarged := enlarged } := by
  unfold insertXidIntoRunningXids
  generalize insertCnt xid rs.xmax = cnt
  generalize (if rs.xipSize = 0 then rs.xcnt else rs.xipSize) = size
  by_cases hzero : cnt = 0
  · subst hzero
    exact ⟨rs.xip, rs.xipSize, rs.enlarged, fun _ _ => rfl, rfl⟩
  · simp only [if_neg hzero]
    split
    · exact ⟨_, _, _, fun i hi => if_pos hi, rfl⟩
    · exact ⟨_, _, _, fun i _ => rfl, rfl⟩

/-- A number can still be found when numbers behind it are added, or when
it is added once more with those that follow it. -/
theorem Findable.append_range' (h : Findable cells x) (hx : x < M ∨ M ≤ x ∧ x < M + n) :
    Findable (cells ++ range' M n) x := by
  intro l u hlu hu hl hr
  have hleft : ∀ {i y}, cells[i]? = some y → (cells ++ range' M n)[i]? = some y := fun hi => by
    rwa [getElem?_append_left (lt_of_getElem? hi)]
  have hright : ∀ j, j < n → (cells ++ range' M n)[cells.length + j]? = some (M + j) :=
    fun j hj => by
    rw [getElem?_append_right (Nat.le_add_right _ _), Nat.add_sub_cancel_left, getElem?_range' hj,
      Nat.one_mul]
  rw [length_append, length_range'] at hu
  have hlow : cells.length < l → M + (l - 1 - cells.length) < x := fun hlt => by
    have := hright (l - 1 - cells.length) (by omega)
    rw [Nat.add_sub_cancel' (by omega)] at this
    exact hl _ (by omega) this
  have hhigh : cells.length ≤ u → u < cells.length + n → x < M + (u - cells.length) :=
    fun hle hlt => by
    have := hright (u - cells.length) (by omega)
    rw [Nat.add_sub_cancel' hle] at this
    exact hr _ this
  by_cases hold : u < cells.length ∨ x < M
  · have hcell : ∀ y, cells[min u cells.length]? = some y → x < y := fun y hy => by
      have := lt_of_getElem? hy
      rw [Nat.min_eq_left (by omega)] at hy
      exact hr y (hleft hy)
    obtain ⟨p, h1, h2, hp⟩ := h l (min u cells.length) (by omega) (Nat.min_le_right _ _)
      (fun y h0 hy => hl y h0 (hleft hy)) hcell
    exact ⟨p, h1, by omega, hleft hp⟩
  · have hp := hright (x - M) (by omega)
    rw [Nat.add_sub_cancel' (by omega)] at hp
    exact ⟨cells.length + (x - M), by omega, by omega, hp⟩

section

variable (h : Rep base T d rs cells m M)
include h

/-- A snapshot with the ids from `xmax` up to `x` behind the used cells. -/
theorem Rep.append {xip : Nat → Nat} {size enlarged : Nat} (hle : M ≤ x)
    (hone : x < T ∨ T + d ≤ x) (hwin : InWin base (x + 1))
    (hold : ∀ i, i < rs.used → xip i = rs.xip i)
    (hnew : ∀ j, j < x - M → xip (rs.used + j) = ofFull (M + j)) :
    Rep base T d { rs with
        xcnt := rs.xcnt + (x - M), xip := xip, xmax := ofFull (x + 1), xipSize := size,
        enlarged := enlarged } (cells ++ range' M (x - M)) m (x + 1) ∧
      ∀ y, Running rs (cells ++ range' M (x - M)) y ↔
        Running rs cells y ∨ (M ≤ y ∧ y < x) := by
  have hlen := h.length
  have hget : ∀ i y, (cells ++ range' M (x - M))[i]? = some y →
      cells[i]? = some y ∨ (rs.used ≤ i ∧ i - rs.used < x - M ∧ y = M + (i - rs.used)) := by
    intro i y hy
    refine (getElem?_append_cases hy).imp_right fun ⟨hi, hy⟩ => ?_
    have hlt := lt_of_getElem? hy
    rw [length_range'] at hlt
    rw [getElem?_range' hlt] at hy
    cases hy
    exact ⟨by omega, by omega, by rw [hlen, Nat.one_mul]⟩
  have hmem : ∀ y ∈ range' M (x - M), M ≤ y ∧ y < x := fun y hy => by
    rw [mem_range'_1] at hy
    omega
  constructor
  · exact { h with
      xip := fun i y hy => by
        rcases hget i y hy with hy | ⟨h1, h2, rfl⟩
        · have hi := lt_of_getElem? hy
          exact (hold i (by omega)).trans (h.xip i y hy)
        · have := hnew (i - rs.used) h2
          rwa [Nat.add_sub_cancel' h1] at this
      sorted := fun i j y z hy hz hone' => by
        rcases hget i y hy with hy | ⟨h1, h2, rfl⟩
        · rcases hget j z hz with hz | ⟨h3, -, rfl⟩
          · exact h.sorted i j y z hy hz hone'
          · have := lt_of_getElem? hy
            have := h.lt_max y (mem_of_getElem? hy)
            omega
        · rcases hget j z hz with hz | ⟨h3, -, rfl⟩
          · have := lt_of_getElem? hz
            have := h.lt_max z (mem_of_getElem? hz)
            have := h.top
            omega
          · omega
      found := fun y hT hd => (h.found y hT hd).append_range' (by have := h.top; omega)
      win := forall_mem_append.mpr ⟨h.win, fun y hy => by
        have := hmem y hy
        have := h.max_win.1
        have := hwin.2
        exact ⟨by omega, by omega⟩⟩
      length := by
        rw [length_append, length_range', hlen]
        exact Nat.add_right_comm _ _ _
      lt_max := forall_mem_append.mpr ⟨fun y hy => (h.lt_max y hy).imp_left (by omega),
        fun y hy => .inl ((hmem y hy).2.trans_le (Nat.le_succ _))⟩
      top := by have := h.top; omega
      kept := fun p hp y hy => by
        refine h.kept p hp y ?_
        rwa [getElem?_append_left (h.removed_lt p hp)] at hy
      removed_lt := fun p hp => by
        rw [length_append]
        exact Nat.lt_add_right _ (h.removed_lt p hp)
      xmax := rfl
      min_le := by have := h.min_le; omega
      max_win := hwin
      min := fun p y hy hp => by
        rcases hget p y hy with hy | ⟨_, _, rfl⟩
        · exact h.min p y hy hp
        · have := h.min_le
          omega }
  · intro y
    constructor
    · rintro ⟨p, hy, hp⟩
      rcases hget p y hy with hy | ⟨h1, h2, rfl⟩
      · exact .inl ⟨p, hy, hp⟩
      · exact .inr ⟨by omega, by omega⟩
    · rintro (⟨p, hy, hp⟩ | ⟨h1, h2⟩)
      · have hi := lt_of_getElem? hy
        exact ⟨p, by rw [getElem?_append_left hi]; exact hy, hp⟩
      · refine ⟨cells.length + (y - M), ?_, fun hp => ?_⟩
        · rw [getElem?_append_right (Nat.le_add_right _ _), getElem?_range' (by omega)]
          congr 1
          omega
        · have := h.removed_lt _ hp
          omega

/-- The update for a transaction that is not below `xmax`: those before it
run from now on, it does not. -/
theorem Rep.insert (junk : Nat → Nat → Nat) (hle : M ≤ x) (hone : x < T ∨ T + d ≤ x)
    (hwin : InWin base (x + 1)) :
    ∃ rs', { insertXidIntoRunningXids junk rs (ofFull x) with
        xmax := transactionIdAdvance (ofFull x) } = rs' ∧ rs'.nextXid = rs.nextXid ∧
      rs'.removedXidPos = rs.removedXidPos ∧
      Rep base T d rs' (cells ++ range' M (x - M)) m (x + 1) ∧
      ∀ y, Running rs' (cells ++ range' M (x - M)) y ↔
        Running rs cells y ∨ (M ≤ y ∧ y < x) := by
  have hxwin : InWin base x := ⟨h.max_win.1.trans hle, Nat.lt_of_succ_lt hwin.2⟩
  have hcnt := insertCnt_ofFull hxwin h.max_win.1 hle
  obtain ⟨xip, size, enlarged, hxip, heq⟩ := insertXid_fields junk rs (ofFull x)
  rw [h.xmax, hcnt] at heq
  rw [heq, transactionIdAdvance_ofFull]
  obtain ⟨hbefore, hafter⟩ := fillLoop_spec (x - M) xip rs.used M
  exact ⟨_, rfl, rfl, rfl, h.append hle hone hwin (fun i hi => (hbefore i hi).trans (hxip i hi))
    hafter⟩

/-! ## Reading the snapshot -/

/-- A compacted snapshot has a transaction in progress when it runs or is
not below `xmax`. -/
theorem Rep.inSnapshot (hnil : rs.xcnt = 0 ∨ rs.removedXidPos = []) (hwin : InWin base x) :
    xidInFlashbackSnapshot rs (ofFull x) = true ↔ Running rs cells x ∨ M ≤ x := by
  rw [xidInFlashbackSnapshot, h.xmin, h.xmax]
  by_cases hlt : x < m
  · rw [if_pos ((precedes_ofFull hwin h.min_win).mpr hlt)]
    refine ⟨nofun, ?_⟩
    rintro (⟨p, hx, hp⟩ | hM)
    · have := h.min p x hx hp
      omega
    · have := h.min_le
      omega
  · rw [if_neg (mt (precedes_ofFull hwin h.min_win).mp hlt)]
    have hfoll := followsOrEquals_ofFull hwin h.max_win
    by_cases hM : M ≤ x
    · rw [if_pos (hfoll.mpr hM)]
      exact ⟨fun _ => .inr hM, fun _ => rfl⟩
    · rw [if_neg (mt hfoll.mp hM), isSome_iff_exists]
      have hlen := h.length
      unfold RelSnapshot.used at hlen
      have hcnt : ∀ p, cells[p]? = some x → p ∉ rs.removedXidPos → rs.xcnt = cells.length := by
        intro p hx hp
        rcases hnil with hz | hnil
        · have hkept := h.xcnt_eq
          rw [hz] at hkept
          have hmem := mem_keptFrom_of_getElem? hx hp
          rw [eq_nil_of_length_eq_zero hkept] at hmem
          exact absurd hmem not_mem_nil
        · rw [hnil, length_nil] at hlen
          omega
      by_cases htwice : T ≤ x ∧ x < T + d
      · have hf := h.found x htwice.1 htwice.2
        obtain ⟨p, -, -, hx⟩ := hf 0 _ (Nat.zero_le _) le_rfl (fun _ h0 => absurd rfl h0)
          fun y hy => absurd (lt_of_getElem? hy) (lt_irrefl _)
        have hp : p ∉ rs.removedXidPos := fun hm => by
          have := h.kept p hm x hx
          omega
        refine iff_of_true (isSome_iff_exists.mp ?_) (.inl ⟨p, hx, hp⟩)
        rw [hcnt p hx hp]
        exact bsearch_isSome h.toCellsOk hwin hf
      have hfind := fun p => bsearch_eq_some h.toCellsOk (x := x) (by omega) hwin
        (by omega : 0 + rs.xcnt ≤ cells.length) p
      constructor
      · rintro ⟨p, hp⟩
        obtain ⟨_, hpx, hx⟩ := (hfind p).mp hp
        rcases hnil with hz | hnil
        · omega
        · exact .inl ⟨p, hx, hnil ▸ not_mem_nil⟩
      · rintro (⟨p, hx, hp⟩ | hc)
        · have hpl := lt_of_getElem? hx
          have := hcnt p hx hp
          exact ⟨p, (hfind p).mpr ⟨Nat.zero_le _, by omega, hx⟩⟩
        · exact absurd hc hM

end

end PolarDB.FlashbackSnapshot
