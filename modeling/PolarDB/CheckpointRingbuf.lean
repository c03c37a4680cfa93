import Mathlib.Order.Nat
import PolarDB.Basic
import PolarDB.Circular
import PolarDB.Lts

/-!
# The checkpoint ring buffer

A standby with parallel replay stashes the checkpoints it reads
(`polar_checkpoint_ringbuf_insert`), drops those that background replay
has passed but for the last one (`polar_checkpoint_ringbuf_shrink`), and
takes the oldest for a restartpoint (`polar_checkpoint_ringbuf_front`).

A call is one step. The model keeps the array indexes it uses and whether
the lock is still held at its end. `insert` computes the tail as
`(head + size - 1) % CAPACITY` in `int`, which is -1 in an empty ring: the
first insert reads in front of the array, where it finds `stray`. If the
new checkpoint is behind the tail, `insert` returns with the lock held, and
no later call gets it. All else holds in every run (`ringbuf_calls`).
-/

namespace PolarDB.CheckpointRingbuf

open Function List Option

variable {α : Type}

def capacity : Nat := 5

structure CheckPoint (α : Type) where
  redo : Nat
  rest : α
  deriving DecidableEq, Repr

structure Ringbuf (α : Type) where
  recptrs : Nat → Nat
  endptrs : Nat → Nat
  checkpoints : Nat → CheckPoint α
  locked : Bool
  head : Nat
  size : Nat

structure Entry (α : Type) where
  checkpointRecPtr : Nat
  checkpointEndPtr : Nat
  checkpoint : CheckPoint α
  deriving DecidableEq, Repr

/-! ## The calls -/

structure Result (α : Type) where
  ring : Ringbuf α
  indexes : List Int
  front : Option (Entry α)

inductive Call (α : Type) where
  | insert (info : Entry α) (stray : Nat)
  | shrink (replayed : Nat)
  | front
  deriving DecidableEq, Repr

/-- The loop of `polar_checkpoint_ringbuf_shrink`, with `n` turns left:
where it stops, and the indexes it reads. -/
def shrinkLoop (r : Ringbuf α) (replayed : Nat) : Nat → Nat → Nat × List Int
  | 0, i => (i, [])
  | n + 1, i =>
    let index := (r.head + i) % capacity
    if replayed < (r.checkpoints index).redo then (i, [(index : Int)])
    else
      let rest := shrinkLoop r replayed n (i + 1)
      (rest.1, (index : Int) :: rest.2)

def shrink (r : Ringbuf α) (replayed : Nat) : Result α :=
  let (i, indexes) := shrinkLoop r replayed (r.size - 1) 1
  if 1 < i then
    { ring := { r with head := (r.head + (i - 1)) % capacity, size := r.size - (i - 1) }
      indexes := indexes
      front := none }
  else { ring := r, indexes := indexes, front := none }

/-- `int` arithmetic: the remainder has the sign of the dividend. -/
def tailIndex (r : Ringbuf α) : Int := Int.tmod ((r.head : Int) + r.size - 1) capacity

def tailRedo (r : Ringbuf α) (stray : Nat) : Nat :=
  if 0 ≤ tailIndex r then (r.checkpoints (tailIndex r).toNat).redo else stray

def insert (r : Ringbuf α) (info : Entry α) (stray : Nat) : Result α :=
  if info.checkpoint.redo < tailRedo r stray then
    -- this return leaves the lock held
    { ring := { r with locked := true }, indexes := [tailIndex r], front := none }
  else
    let size := if r.size = capacity then r.size - 1 else r.size
    let target := (r.head + size) % capacity
    { ring := { r with
        recptrs := update r.recptrs target info.checkpointRecPtr
        endptrs := update r.endptrs target info.checkpointEndPtr
        checkpoints := update r.checkpoints target info.checkpoint
        size := size + 1 }
      indexes := [tailIndex r, (target : Int)]
      front := none }

def front [Inhabited α] (r : Ringbuf α) : Result α :=
  if r.size ≠ 0 then
    { ring := r
      indexes := [(r.head : Int)]
      front := some ⟨r.recptrs r.head, r.endptrs r.head, r.checkpoints r.head⟩ }
  else
    { ring := r
      indexes := []
      front := some ⟨invalidXLogRecPtr, invalidXLogRecPtr, ⟨0, default⟩⟩ }

def call [Inhabited α] (r : Ringbuf α) (c : Call α) : Option (Result α) :=
  if r.locked then none
  else some (match c with
    | .insert info stray => insert r info stray
    | .shrink replayed => shrink r replayed
    | .front => front r)

def step [Inhabited α] (r : Ringbuf α) (c : Call α) : Option (Ringbuf α) :=
  (call r c).map Result.ring

def zeroRing [Inhabited α] : Ringbuf α where
  recptrs _ := 0
  endptrs _ := 0
  checkpoints _ := ⟨0, default⟩
  locked := false
  head := 0
  size := 0

/-! ## The stashed checkpoints -/

def entryAt (r : Ringbuf α) (i : Nat) : Entry α := ⟨r.recptrs i, r.endptrs i, r.checkpoints i⟩

def contents (r : Ringbuf α) : List (Entry α) := window (entryAt r) capacity r.head r.size

def RedoSorted (es : List (Entry α)) : Prop :=
  es.Pairwise fun e e' => e.checkpoint.redo ≤ e'.checkpoint.redo

theorem contents_length (r : Ringbuf α) : (contents r).length = r.size := window_length ..

theorem contents_getElem? (r : Ringbuf α) {i : Nat} (hi : i < r.size) :
    (contents r)[i]? = some (entryAt r ((r.head + i) % capacity)) := window_getElem? _ _ _ hi

variable {r : Ringbuf α} {info : Entry α} {stray : Nat}

theorem contents_insert (hsize : r.size ≤ capacity)
    (hge : tailRedo r stray ≤ info.checkpoint.redo) :
    contents (insert r info stray).ring =
      (contents r).take (if r.size = capacity then r.size - 1 else r.size) ++ [info] := by
  rw [insert, if_neg (not_lt.mpr hge)]
  generalize hn : (if r.size = capacity then r.size - 1 else r.size) = size
  have hle : size ≤ r.size := by split at hn <;> omega
  have hlt : size < capacity := by
    split at hn <;> simp only [capacity] at * <;> omega
  have hentry : entryAt ({ r with
      recptrs := update r.recptrs ((r.head + size) % capacity) info.checkpointRecPtr
      endptrs := update r.endptrs ((r.head + size) % capacity) info.checkpointEndPtr
      checkpoints := update r.checkpoints ((r.head + size) % capacity) info.checkpoint
      size := size + 1 } : Ringbuf α) =
      update (entryAt r) ((r.head + size) % capacity) info := by
    funext i
    by_cases hi : i = (r.head + size) % capacity
    · subst hi
      simp only [entryAt, update_self]
    · simp only [entryAt, update_of_ne hi]
  simp only [contents, hentry]
  rw [window_push _ _ _ hlt, window_take _ _ _ hle]

/-- Where the loop of `shrink` stops: everything it has passed is
replayed, and it reads cells of the array only. -/
theorem shrinkLoop_spec (r : Ringbuf α) (replayed n i : Nat) :
    i ≤ (shrinkLoop r replayed n i).1 ∧ (shrinkLoop r replayed n i).1 ≤ i + n ∧
      (∀ j, i ≤ j → j < (shrinkLoop r replayed n i).1 →
        (entryAt r ((r.head + j) % capacity)).checkpoint.redo ≤ replayed) ∧
      ∀ k ∈ (shrinkLoop r replayed n i).2, 0 ≤ k ∧ k < capacity := by
  have hindex : ∀ j, (0 : Int) ≤ ((r.head + j) % capacity : Nat) ∧
      (((r.head + j) % capacity : Nat) : Int) < capacity := fun j =>
    ⟨Int.natCast_nonneg _, Int.ofNat_lt.mpr (Nat.mod_lt _ (by decide))⟩
  induction n generalizing i with
  | zero => exact ⟨le_rfl, le_rfl, fun j h1 h2 => absurd h2 (by simp [shrinkLoop]; omega),
      by simp [shrinkLoop]⟩
  | succ n ih =>
    simp only [shrinkLoop]
    split
    · refine ⟨le_rfl, by omega, fun j h1 h2 => absurd h2 (not_lt.mpr h1), fun k hk => ?_⟩
      rw [mem_singleton.mp hk]
      exact hindex i
    · rename_i hge
      obtain ⟨h1, h2, h3, h4⟩ := ih (i + 1)
      refine ⟨by omega, by omega, fun j hj hlt => ?_, fun k hk => ?_⟩
      · rcases Nat.eq_or_lt_of_le hj with rfl | hj
        · exact not_lt.mp hge
        · exact h3 j hj hlt
      · rcases mem_cons.mp hk with rfl | hk
        · exact hindex i
        · exact h4 k hk

/-- A shrink moves the head over checkpoints that are replayed, never
over the last one. -/
theorem shrink_ring (hhead : r.head < capacity) (replayed : Nat) :
    ∃ k ≤ r.size - 1, (shrink r replayed).ring =
        { r with head := (r.head + k) % capacity, size := r.size - k } ∧
      (0 < k → (entryAt r ((r.head + k) % capacity)).checkpoint.redo ≤ replayed) := by
  obtain ⟨h1, h2, h3, -⟩ := shrinkLoop_spec r replayed (r.size - 1) 1
  refine ⟨(shrinkLoop r replayed (r.size - 1) 1).1 - 1, by omega, ?_, fun hk => h3 _ hk (by omega)⟩
  simp only [shrink]
  split
  · rfl
  · rw [show (shrinkLoop r replayed (r.size - 1) 1).1 - 1 = 0 by omega, Nat.add_zero,
      Nat.mod_eq_of_lt hhead]
    rfl

theorem tailIndex_eq (hpos : 0 < r.size) :
    tailIndex r = ((r.head + (r.size - 1)) % capacity : Nat) := by
  have hsum : (r.head : Int) + r.size - 1 = ((r.head + (r.size - 1) : Nat) : Int) := by omega
  rw [tailIndex, hsum]
  rfl

theorem tailIndex_empty (hsize : r.size = 0) (hhead : r.head = 0) : tailIndex r = -1 := by
  rw [tailIndex, hsize, hhead]
  decide

theorem tailRedo_eq (hpos : 0 < r.size) (stray : Nat) :
    ∃ e, (contents r).getLast? = some e ∧ tailRedo r stray = e.checkpoint.redo := by
  refine ⟨entryAt r ((r.head + (r.size - 1)) % capacity), ?_, ?_⟩
  · rw [getLast?_eq_getElem?, contents_length, contents_getElem? r (by omega)]
  · rw [tailRedo, tailIndex_eq hpos]
    rfl

/-! ## Runs -/

def insertedRedos (cs : List (Call α)) : List Nat :=
  cs.filterMap fun
    | .insert info _ => some info.checkpoint.redo
    | _ => none

def shrinkArgs (cs : List (Call α)) : List Nat :=
  cs.filterMap fun
    | .shrink replayed => some replayed
    | _ => none

structure ReplayOk (cs : List (Call α)) : Prop where
  start : ∀ redo ∈ (insertedRedos cs).head?, ∀ replayed ∈ (shrinkArgs cs).head?, redo ≤ replayed
  sorted : (shrinkArgs cs).Pairwise (· ≤ ·)

structure RingOk (cs : List (Call α)) (r : Ringbuf α) : Prop where
  head_lt : r.head < capacity
  size_le : r.size ≤ capacity
  empty : r.size = 0 → r.head = 0 ∧ (r.locked = false → insertedRedos cs = [])
  sorted : RedoSorted (contents r)
  front : ∀ e ∈ (contents r).head?, (insertedRedos cs).head? = some e.checkpoint.redo ∨
    ∃ replayed ∈ shrinkArgs cs, e.checkpoint.redo ≤ replayed

theorem RedoSorted.snoc {es : List (Entry α)} (hs : RedoSorted es)
    (hlast : ∀ e ∈ es.getLast?, e.checkpoint.redo ≤ info.checkpoint.redo) :
    RedoSorted (es ++ [info]) := by
  refine pairwise_snoc hs fun e he => ?_
  have hlast' := getLast?_eq_getLast_of_ne_nil (ne_nil_of_mem he)
  exact (rel_of_getLast? hs le_rfl hlast' he).trans (hlast _ hlast')

variable {cs : List (Call α)}

/-- An insert that stores: the ring is not empty at its end, and the head
stays where it is. -/
theorem RingOk.insert_stored (hr : RingOk cs r)
    (hfree : r.locked = false) (hge : tailRedo r stray ≤ info.checkpoint.redo) :
    RingOk (cs ++ [.insert info stray]) (insert r info stray).ring ∧
      0 < (insert r info stray).ring.size ∧ (insert r info stray).ring.locked = false := by
  have hcontents := contents_insert hr.size_le hge
  have hring := insert.eq_1 r info stray
  rw [if_neg (not_lt.mpr hge)] at hring
  have hredos :
      insertedRedos (cs ++ [.insert info stray]) = insertedRedos cs ++ [info.checkpoint.redo] := by
    rw [insertedRedos, filterMap_append]
    rfl
  have hargs : shrinkArgs (cs ++ [.insert info stray]) = shrinkArgs cs := by
    rw [shrinkArgs, filterMap_append]
    exact append_nil _
  have hsize : (insert r info stray).ring.size =
      (if r.size = capacity then r.size - 1 else r.size) + 1 := by rw [hring]
  have hpos : 0 < (insert r info stray).ring.size := by omega
  refine ⟨⟨by rw [hring]; exact hr.head_lt, ?_, fun h0 => absurd h0 (by omega), ?_, fun e he => ?_⟩,
    hpos, by rw [hring]; exact hfree⟩
  · have := hr.size_le
    rw [hsize]
    split <;> simp only [capacity] at * <;> omega
  · rw [hcontents]
    refine RedoSorted.snoc (List.Pairwise.sublist (take_sublist ..) hr.sorted) fun e he => ?_
    have hin : e ∈ contents r := mem_of_mem_take (mem_of_getLast? he)
    have hrpos : 0 < r.size := by
      rw [← contents_length]
      exact length_pos_of_mem hin
    obtain ⟨last, hlast, htail⟩ := tailRedo_eq hrpos stray
    exact (rel_of_getLast? hr.sorted le_rfl hlast hin).trans (htail ▸ hge)
  · rw [hredos, hargs]
    by_cases h0 : r.size = 0
    · have hnil : contents r = [] := length_eq_zero_iff.mp (by rw [contents_length, h0])
      rw [hcontents, hnil, take_nil] at he
      rw [(hr.empty h0).2 hfree, ← mem_some_iff.mp he]
      exact .inl rfl
    · have hkept : 0 < (if r.size = capacity then r.size - 1 else r.size) := by
        split <;> simp only [capacity] at * <;> omega
      have hhead : (contents (insert r info stray).ring).head? = (contents r).head? := by
        have hne : (contents r).take (if r.size = capacity then r.size - 1 else r.size) ≠ [] := by
          refine ne_nil_of_length_pos ?_
          rw [length_take, contents_length]
          omega
        rw [hcontents, head?_append_of_ne_nil _ hne, head?_take, if_neg (by omega)]
      rw [hhead] at he
      rcases hr.front e he with hfirst | hpassed
      · refine .inl ?_
        rw [head?_append, hfirst]
        rfl
      · exact .inr hpassed

theorem insert_behind (hlt : info.checkpoint.redo < tailRedo r stray) :
    (insert r info stray).ring = { r with locked := true } := by
  rw [insert, if_pos hlt]

theorem RingOk.insert_kept (hr : RingOk cs r) :
    RingOk (cs ++ [.insert info stray]) { r with locked := true } := by
  refine ⟨hr.head_lt, hr.size_le, fun h0 => ⟨(hr.empty h0).1, nofun⟩, hr.sorted, fun e he => ?_⟩
  rcases hr.front e he with hfirst | ⟨replayed, hin, hle⟩
  · refine .inl ?_
    rw [insertedRedos, filterMap_append, head?_append, ← insertedRedos, hfirst]
    rfl
  · refine .inr ⟨replayed, ?_, hle⟩
    rw [shrinkArgs, filterMap_append]
    exact mem_append_left _ hin

theorem RingOk.shrink (hr : RingOk cs r) (replayed : Nat) :
    RingOk (cs ++ [.shrink replayed]) (shrink r replayed).ring ∧
      (0 < r.size → 0 < (CheckpointRingbuf.shrink r replayed).ring.size) := by
  obtain ⟨k, hk, hring, hfront⟩ := shrink_ring hr.head_lt replayed
  have hcontents : contents (CheckpointRingbuf.shrink r replayed).ring = (contents r).drop k := by
    rw [hring]
    exact window_drop ..
  have hredos : insertedRedos (cs ++ [.shrink replayed]) = insertedRedos cs := by
    rw [insertedRedos, filterMap_append]
    exact append_nil _
  have hargs : shrinkArgs (cs ++ [.shrink replayed]) = shrinkArgs cs ++ [replayed] := by
    rw [shrinkArgs, filterMap_append]
    rfl
  refine ⟨⟨?_, ?_, fun h0 => ?_, ?_, fun e he => ?_⟩, fun hpos => ?_⟩
  · rw [hring]
    exact Nat.mod_lt _ (by decide)
  · rw [hring]
    exact (Nat.sub_le _ _).trans hr.size_le
  · rw [hring] at h0 ⊢
    have hz : r.size = 0 := by
      simp only at h0
      omega
    obtain ⟨h1, h2⟩ := hr.empty hz
    refine ⟨?_, fun hf => hredos ▸ h2 hf⟩
    simp only [h1, show k = 0 by omega]
    rfl
  · rw [hcontents]
    exact List.Pairwise.sublist (drop_sublist ..) hr.sorted
  · rw [hredos, hargs]
    by_cases hkpos : 0 < k
    · rw [hcontents, head?_drop, contents_getElem? r (by omega)] at he
      rw [← mem_some_iff.mp he]
      exact .inr ⟨replayed, mem_concat_self, hfront hkpos⟩
    · rw [hcontents, show k = 0 by omega, drop_zero] at he
      rcases hr.front e he with hfirst | ⟨a, hin, hle⟩
      · exact .inl hfirst
      · exact .inr ⟨a, mem_append_left _ hin, hle⟩
  · rw [hring]
    simp only
    omega

/-- The condition of a call: there is a tail, and an inserted checkpoint
is not behind it. -/
def CallOk (r : Ringbuf α) : Call α → Prop
  | .insert info _ =>
    0 < r.size ∧ ∀ e ∈ (contents r).getLast?, e.checkpoint.redo ≤ info.checkpoint.redo
  | _ => True

def InArray (indexes : List Int) : Prop := ∀ i ∈ indexes, 0 ≤ i ∧ i < capacity

theorem inArray_mod (i : Nat) : (0 : Int) ≤ ((i % capacity : Nat) : Int) ∧
    ((i % capacity : Nat) : Int) < capacity :=
  ⟨Int.natCast_nonneg _, Int.ofNat_lt.mpr (Nat.mod_lt _ (by decide))⟩

/-- An insert keeps to the array and gives the lock back just under its
condition. -/
theorem RingOk.insert_ok_iff (hr : RingOk cs r) (hfree : r.locked = false) :
    (InArray (insert r info stray).indexes ∧ (insert r info stray).ring.locked = false) ↔
      CallOk r (.insert info stray) := by
  by_cases hpos : 0 < r.size
  · obtain ⟨last, hlast, htail⟩ := tailRedo_eq hpos stray
    have hok : CallOk r (.insert info stray) ↔ tailRedo r stray ≤ info.checkpoint.redo := by
      rw [CallOk, hlast, htail]
      exact ⟨fun h => h.2 last (mem_some_self _), fun h =>
        ⟨hpos, fun e he => mem_some_iff.mp he ▸ h⟩⟩
    rw [hok]
    by_cases hlt : info.checkpoint.redo < tailRedo r stray
    · rw [insert_behind hlt]
      exact ⟨fun h => Bool.noConfusion h.2, fun h => absurd hlt (not_lt.mpr h)⟩
    · refine ⟨fun _ => not_lt.mp hlt, fun hge => ⟨fun i hi => ?_, (hr.insert_stored hfree hge).2.2⟩⟩
      rw [insert, if_neg hlt, tailIndex_eq hpos] at hi
      rcases mem_cons.mp hi with rfl | hi
      · exact inArray_mod _
      · rw [mem_singleton.mp hi]
        exact inArray_mod _
  · have hz : r.size = 0 := by omega
    refine ⟨fun h => absurd h.1 fun hin => ?_, fun h => absurd h.1 hpos⟩
    have hmem : tailIndex r ∈ (insert r info stray).indexes := by
      rw [insert]
      split <;> exact mem_cons_self
    have hneg := (hin _ hmem).1
    rw [tailIndex_empty hz (hr.empty hz).1] at hneg
    exact absurd hneg (by decide)

theorem RingOk.front_call (hr : RingOk cs r) : RingOk (cs ++ [.front]) r := by
  refine ⟨hr.head_lt, hr.size_le, ?_, hr.sorted, ?_⟩ <;>
    simp only [insertedRedos, shrinkArgs, filterMap_append, filterMap_cons,
      filterMap_nil, append_nil]
  · exact hr.empty
  · exact hr.front

section Runs

variable [Inhabited α] {c : Call α} {res : Result α}

theorem call_cases (hc : call r c = some res) : r.locked = false ∧
      ((∃ info stray, c = .insert info stray ∧ res = insert r info stray) ∨
        (∃ replayed, c = .shrink replayed ∧ res = shrink r replayed) ∨
        (c = .front ∧ res = front r)) := by
  unfold call at hc
  split at hc
  · cases hc
  · rename_i hlock
    refine ⟨Bool.eq_false_iff.mpr hlock, ?_⟩
    cases c with
    | insert info stray => exact .inl ⟨info, stray, rfl, (some.inj hc).symm⟩
    | shrink replayed => exact .inr (.inl ⟨replayed, rfl, (some.inj hc).symm⟩)
    | front => exact .inr (.inr ⟨rfl, (some.inj hc).symm⟩)

/-- Every call keeps the invariant, and a ring with a checkpoint does not
lose the last one. -/
theorem RingOk.call (hr : RingOk cs r) (hc : call r c = some res) :
    RingOk (cs ++ [c]) res.ring ∧ (0 < r.size → 0 < res.ring.size) := by
  obtain ⟨hfree, ⟨info, stray, rfl, rfl⟩ | ⟨replayed, rfl, rfl⟩ | ⟨rfl, rfl⟩⟩ := call_cases hc
  · by_cases hlt : info.checkpoint.redo < tailRedo r stray
    · rw [insert_behind hlt]
      exact ⟨hr.insert_kept, id⟩
    · obtain ⟨hok, hpos, -⟩ := hr.insert_stored hfree (not_lt.mp hlt)
      exact ⟨hok, fun _ => hpos⟩
  · exact hr.shrink replayed
  · rw [CheckpointRingbuf.front]
    split
    · exact ⟨hr.front_call, id⟩
    · exact ⟨hr.front_call, id⟩

theorem ringOk_zero : RingOk [] (zeroRing : Ringbuf α) :=
  ⟨Nat.succ_pos 4, Nat.zero_le _, fun _ => ⟨rfl, fun _ => rfl⟩, List.Pairwise.nil,
    fun _ he => absurd he (by simp [contents, zeroRing, window])⟩

theorem ringOk_of_run (hrun : exec step zeroRing cs = some r) : RingOk cs r := by
  refine exec_invariant RingOk ringOk_zero (fun cs r c r' hr hst => ?_) hrun
  obtain ⟨res, hc, rfl⟩ := map_eq_some_iff.mp hst
  exact (hr.call hc).1

theorem RingOk.call_ok_iff (hr : RingOk cs r) (hc : CheckpointRingbuf.call r c = some res) :
    (InArray res.indexes ∧ res.ring.locked = false) ↔ CallOk r c := by
  obtain ⟨hfree, ⟨info, stray, rfl, rfl⟩ | ⟨replayed, rfl, rfl⟩ | ⟨rfl, rfl⟩⟩ := call_cases hc
  · exact hr.insert_ok_iff hfree
  · refine ⟨fun _ => trivial, fun _ => ⟨?_, ?_⟩⟩
    · have hindexes := (shrinkLoop_spec r replayed (r.size - 1) 1).2.2.2
      simp only [CheckpointRingbuf.shrink]
      split <;> exact hindexes
    · obtain ⟨k, -, hring, -⟩ := shrink_ring hr.head_lt replayed
      rwa [hring]
  · refine ⟨fun _ => trivial, fun _ => ?_⟩
    rw [CheckpointRingbuf.front]
    split
    · refine ⟨fun i hi => ?_, hfree⟩
      rw [mem_singleton.mp hi]
      exact ⟨Int.natCast_nonneg _, Int.ofNat_lt.mpr hr.head_lt⟩
    · exact ⟨forall_mem_nil _, hfree⟩

theorem RingOk.front_replayed (hr : RingOk cs r) (hok : ReplayOk cs) {e : Entry α}
    (hc : CheckpointRingbuf.call r .front = some res) (he : res.front = some e)
    {replayed : Nat} (hlast : (shrinkArgs cs).getLast? = some replayed) :
    e.checkpoint.redo ≤ replayed := by
  have hle : ∀ a ∈ shrinkArgs cs, a ≤ replayed := fun a =>
    rel_of_getLast? hok.sorted le_rfl hlast
  obtain ⟨-, ⟨info, stray, hno, -⟩ | ⟨replayed, hno, -⟩ | ⟨-, rfl⟩⟩ := call_cases hc
  · cases hno
  · cases hno
  · rw [CheckpointRingbuf.front] at he
    split at he
    · have hhead : (contents r).head? = some e := by
        rw [head?_eq_getElem?, contents_getElem? r (by omega), Nat.add_zero,
          Nat.mod_eq_of_lt hr.head_lt]
        exact he
      rcases hr.front e hhead with hfirst | ⟨a, ha, hea⟩
      · obtain ⟨a, ha⟩ := isSome_iff_exists.mp (isSome_head?.mpr
          (ne_nil_of_mem (mem_of_getLast? hlast)))
        exact (hok.start _ hfirst a ha).trans (hle a (mem_of_mem_head? ha))
      · exact hea.trans (hle a ha)
    · rw [← some.inj he]
      exact Nat.zero_le _

/-- After any calls on a zeroed ring: the size is in its bounds, redo
values do not decrease, and of the next call it holds that

* it keeps to the array and releases the lock if and only if it meets its
  condition;
* it does not empty a ring that has a checkpoint;
* an insert behind the tail changes nothing (but the lock);
* `front` returns a checkpoint that background replay has passed. -/
theorem ringbuf_calls (hrun : exec step zeroRing cs = some r) :
    r.size ≤ capacity ∧ RedoSorted (contents r) ∧ ∀ c res, call r c = some res →
        ((InArray res.indexes ∧ res.ring.locked = false) ↔ CallOk r c) ∧
        (0 < r.size → 0 < res.ring.size) ∧
        (∀ info stray, c = .insert info stray →
          (∃ e ∈ (contents r).getLast?, info.checkpoint.redo < e.checkpoint.redo) →
          res.ring = { r with locked := true }) ∧
        (∀ e replayed, c = .front → res.front = some e → ReplayOk cs →
          (shrinkArgs cs).getLast? = some replayed → e.checkpoint.redo ≤ replayed) := by
  have hr := ringOk_of_run hrun
  refine ⟨hr.size_le, hr.sorted, fun c res hc => ⟨hr.call_ok_iff hc, (hr.call hc).2, ?_, ?_⟩⟩
  · rintro info stray rfl ⟨e, he, hlt⟩
    have hpos : 0 < r.size := by
      rw [← contents_length]
      exact length_pos_of_mem (mem_of_getLast? he)
    obtain ⟨last, hlast, htail⟩ := tailRedo_eq hpos stray
    rw [hlast] at he
    obtain rfl := mem_some_iff.mp he
    obtain ⟨-, ⟨info', stray', hcall, rfl⟩ | ⟨replayed, hno, -⟩ | ⟨hno, -⟩⟩ := call_cases hc
    · cases hcall
      exact insert_behind (htail ▸ hlt)
    · cases hno
    · cases hno
  · rintro e replayed rfl he hok hlast
    exact hr.front_replayed hok hc he hlast

end Runs

/-! ## Where the condition fails -/

def redoEntry (redo : Nat) : Entry Unit := ⟨redo + 1, redo + 2, ⟨redo, ()⟩⟩

def shrunkCalls : List (Call Unit) :=
  [.insert (redoEntry 10) 0, .shrink 10, .insert (redoEntry 20) 0, .shrink 15]

theorem shrunkCalls_replayOk : ReplayOk shrunkCalls := by
  refine ⟨fun redo hredo replayed hreplayed => ?_, by decide⟩
  rw [← mem_some_iff.mp hredo, ← mem_some_iff.mp hreplayed]
  decide

theorem ringbuf_calls_shrunk : ∃ (r : Ringbuf Unit) (res : Result Unit) (e : Entry Unit),
    exec step zeroRing shrunkCalls = some r ∧ call r .front = some res ∧ res.front = some e ∧
      RedoSorted (contents r) ∧ (InArray res.indexes ∧ res.ring.locked = false) ∧
      e.checkpoint.redo ≤ 15 := by
  have hrun := (some_get (x := exec step zeroRing shrunkCalls) (by rfl)).symm
  obtain ⟨-, hsorted, hcalls⟩ := ringbuf_calls hrun
  obtain ⟨hok, -, -, hfront⟩ := hcalls .front _ rfl
  exact ⟨_, _, _, hrun, rfl, rfl, hsorted, hok.mpr trivial,
    hfront _ 15 rfl rfl shrunkCalls_replayOk rfl⟩

/-- The first insert uses the index -1. An insert behind the tail keeps
the lock, and the next call never gets it. -/
theorem ringbuf_index_and_lock :
    (∃ res, call (zeroRing : Ringbuf Unit) (.insert (redoEntry 10) 0) = some res ∧
      ¬ InArray res.indexes) ∧
    ∃ r : Ringbuf Unit, exec step zeroRing [.insert (redoEntry 10) 0, .insert (redoEntry 5) 0] =
      some r ∧ r.locked = true ∧ call r .front = none := by
  refine ⟨⟨_, rfl, fun hin => ?_⟩, _, rfl, rfl, rfl⟩
  exact absurd (hin (-1) (by decide)).1 (by decide)

end PolarDB.CheckpointRingbuf
