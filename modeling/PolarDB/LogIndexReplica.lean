import PolarDB.LogIndexTableRun

/-!
# The table states of a replica

A replica saves no table: it marks those as FLUSHED that the primary has
saved, in the background with `log_index_update_ro_table_state`, from the slot
of the last saved table backwards. Nothing but a slot that is not INACTIVE
ends this loop, so it goes round for ever once the inserter has closed all
tables of the ring and waits for the first of them to be saved
(`updateRoTableState_endless`). It is over after one round exactly if one slot
is in another state (`updateRoTableState_ends_iff`).
-/

namespace PolarDB.LogIndex

open Function List

variable {cfg : Config} {n maxSaved mid stop size : Nat} {tables : Nat → LogMemTable}

/-! ## The background worker -/

def markSaved (maxSaved : Nat) (tables : Nat → LogMemTable) (mid : Nat) : Nat → LogMemTable :=
  if (tables mid).state = .inactive ∧ (tables mid).data.idxTableId ≤ maxSaved then
    update tables mid { tables mid with state := .flushed }
  else tables

/-- The loop of `log_index_update_ro_table_state` without other processes: the
tables and the slots looked at. `none` if it takes more than `n` turns. -/
def updateRoLoop (size maxSaved : Nat) : Nat → Nat → (Nat → LogMemTable) →
    Option ((Nat → LogMemTable) × List Nat)
  | 0, _, _ => none
  | n + 1, mid, tables =>
    if (tables mid).state = .inactive then
      (updateRoLoop size maxSaved n (loopPrevValue mid size) (markSaved maxSaved tables mid)).map
        fun (tables, mids) => (tables, mid :: mids)
    else some (tables, [mid])

def updateRoTableState (s : Snapshot cfg) (maxSaved n : Nat) :
    Option ((Nat → LogMemTable) × List Nat) :=
  if maxSaved = tableInvalidId then some (s.memTable, [])
  else updateRoLoop cfg.memTblSize maxSaved n (cfg.slotOf maxSaved) s.memTable

def Marked (maxSaved : Nat) (m m' : LogMemTable) : Prop :=
  m' = m ∨ m.data.idxTableId ≤ maxSaved ∧ m' = { m with state := .flushed }

theorem Marked.trans {m1 m2 m3 : LogMemTable} (h : Marked maxSaved m1 m2)
    (h' : Marked maxSaved m2 m3) : Marked maxSaved m1 m3 := by
  rcases h with rfl | ⟨hle, rfl⟩
  · exact h'
  · exact .inr ⟨hle, h'.elim id And.right⟩

theorem marked_markSaved (mid m : Nat) :
    Marked maxSaved (tables m) (markSaved maxSaved tables mid m) := by
  unfold markSaved
  split
  · next hle =>
    exact (forall_update_iff tables fun m => Marked maxSaved (tables m)).mpr
      ⟨.inr ⟨hle.2, rfl⟩, fun _ _ => .inl rfl⟩ m
  · exact .inl rfl

theorem markSaved_of_ne {m : Nat} (h : m ≠ mid) : markSaved maxSaved tables mid m = tables m := by
  unfold markSaved
  split
  · exact update_of_ne h ..
  · rfl

def turnsTo (size stop mid : Nat) : Nat :=
  if stop ≤ mid then mid - stop else mid + size - stop

theorem turnsTo_prev (hstop : stop < size) (hmid : mid < size) (hne : mid ≠ stop) :
    loopPrevValue mid size < size ∧
      turnsTo size stop mid = turnsTo size stop (loopPrevValue mid size) + 1 := by
  unfold turnsTo loopPrevValue
  split <;> split <;> split <;> omega

theorem updateRoLoop_ends (hstop : stop < size) : ∀ {mid tables}, mid < size →
      (tables stop).state ≠ .inactive → turnsTo size stop mid < n →
      ∃ tables' mids, updateRoLoop size maxSaved n mid tables = some (tables', mids) ∧
        mids.Nodup ∧ (∀ m ∈ mids, m < size ∧ turnsTo size stop m ≤ turnsTo size stop mid) ∧
        ∀ m, Marked maxSaved (tables m) (tables' m) := by
  induction n with
  | zero =>
    intro mid tables _ _ hn
    exact absurd hn (Nat.not_lt_zero _)
  | succ n ih =>
    intro mid tables hmid hst hn
    rw [updateRoLoop]
    split
    · next hin =>
      have hne : mid ≠ stop := fun heq => hst (heq ▸ hin)
      obtain ⟨hprev, hturns⟩ := turnsTo_prev hstop hmid hne
      have hst' : (markSaved maxSaved tables mid stop).state ≠ .inactive := by
        rcases marked_markSaved mid stop with heq | ⟨-, heq⟩
        · rwa [heq]
        · simp [heq]
      obtain ⟨tables', mids, hrun, hnodup, hmids, hmarks⟩ := ih hprev hst' (by omega)
      refine ⟨tables', mid :: mids, by rw [hrun]; rfl, nodup_cons.mpr ⟨fun hin => ?_, hnodup⟩,
        forall_mem_cons.mpr ⟨⟨hmid, Nat.le_refl _⟩, fun m hm => ?_⟩,
        fun m => (marked_markSaved mid m).trans (hmarks m)⟩
      · have := (hmids mid hin).2
        omega
      · have := hmids m hm
        omega
    · exact ⟨tables, [mid], rfl, nodup_singleton mid,
        forall_mem_singleton.mpr ⟨hmid, Nat.le_refl _⟩, fun _ => .inl rfl⟩

/-- Slots that are INACTIVE and not looked at yet are all looked at, and one
more behind them. -/
theorem updateRoLoop_length (hstop : stop < size) : ∀ {mid tables tables' mids}, mid < size →
      (∀ m < size, turnsTo size stop m ≤ turnsTo size stop mid → (tables m).state = .inactive) →
      updateRoLoop size maxSaved n mid tables = some (tables', mids) →
      turnsTo size stop mid + 1 < mids.length := by
  induction n with
  | zero =>
    intro mid tables tables' mids _ _ hrun
    cases hrun
  | succ n ih =>
    intro mid tables tables' mids hmid hin hrun
    rw [updateRoLoop, if_pos (hin mid hmid le_rfl)] at hrun
    obtain ⟨⟨tables1, mids1⟩, hrun1, heq⟩ := Option.map_eq_some_iff.mp hrun
    cases heq
    rw [length_cons]
    by_cases heq : mid = stop
    · subst heq
      have hself : turnsTo size mid mid = 0 := by simp [turnsTo]
      have hpos : 0 < mids1.length := by
        cases n with
        | zero => cases hrun1
        | succ n =>
          rw [updateRoLoop] at hrun1
          split at hrun1
          · obtain ⟨_, -, heq⟩ := Option.map_eq_some_iff.mp hrun1
            cases heq
            exact Nat.succ_pos _
          · cases hrun1
            exact Nat.succ_pos _
      omega
    · obtain ⟨hprev, hturns⟩ := turnsTo_prev hstop hmid heq
      have hin1 : ∀ m < size, turnsTo size stop m ≤ turnsTo size stop (loopPrevValue mid size) →
          (markSaved maxSaved tables mid m).state = .inactive := by
        intro m hm hle
        have hne : m ≠ mid := by
          rintro rfl
          omega
        rw [markSaved_of_ne hne]
        exact hin m hm (by omega)
      have := ih hprev hin1 hrun1
      omega

theorem turnsTo_lt (hstop : stop < size) (hmid : mid < size) : turnsTo size stop mid < size := by
  unfold turnsTo
  split <;> omega

theorem exists_turnsTo (hmid : mid < size) : ∃ stop < size, turnsTo size stop mid + 1 = size := by
  by_cases hlast : mid + 1 = size
  · exact ⟨0, by omega, by simp only [turnsTo]; split <;> omega⟩
  · exact ⟨mid + 1, by omega, by simp only [turnsTo]; split <;> omega⟩

/-- The call ends, looks at no slot twice and marks saved tables only if and
only if some slot is not INACTIVE or there is nothing to mark. -/
theorem updateRoTableState_ends_iff (s : Snapshot cfg) (maxSaved : Nat) :
    (∃ n tables mids, updateRoTableState s maxSaved n = some (tables, mids) ∧
        mids.Nodup ∧ (∀ m ∈ mids, m < cfg.memTblSize) ∧
        ∀ m, Marked maxSaved (s.memTable m) (tables m)) ↔
      maxSaved = tableInvalidId ∨ ∃ m < cfg.memTblSize, (s.memTable m).state ≠ .inactive := by
  unfold updateRoTableState
  by_cases hvalid : maxSaved = tableInvalidId
  · simp only [hvalid, true_or, iff_true]
    exact ⟨0, _, [], rfl, nodup_nil, forall_mem_nil _, fun _ => .inl rfl⟩
  have hmid : cfg.slotOf maxSaved < cfg.memTblSize :=
    Nat.mod_lt _ (Nat.lt_of_lt_of_le (by decide) cfg.three_le)
  simp only [hvalid, false_or]
  constructor
  · rintro ⟨n, tables, mids, hrun, hnodup, hlt, -⟩
    by_contra hall
    push Not at hall
    obtain ⟨stop, hstop, hturns⟩ := exists_turnsTo hmid
    have hlong := updateRoLoop_length hstop hmid (fun m hm _ => hall m hm) hrun
    have hshort := (hnodup.subperm fun m hm => mem_range.mpr (hlt m hm)).length_le
    rw [length_range] at hshort
    omega
  · rintro ⟨stop, hstop, hst⟩
    obtain ⟨tables, mids, hrun, hnodup, hmids, hmarks⟩ :=
      updateRoLoop_ends hstop hmid hst (turnsTo_lt hstop hmid)
    exact ⟨_, tables, mids, hrun, hnodup, fun m hm => (hmids m hm).1, hmarks⟩

/-! ## The inserter of a replica -/

/-- The inserter while the primary has saved `maxTid` tables:
`log_index_force_save_table` marks the table it waits for instead of saving
it. -/
def roStep (maxTid : Nat) (x : Sys cfg) : Action → Option (Sys cfg)
  | .waitActive _ =>
    match x.inserter with
    | .waitActive c =>
      step { x with snap.memTable := markSaved maxTid x.snap.memTable c.table } (.waitActive false)
    | _ => none
  | .addLsn info => step x (.addLsn info)
  | .nextFreeSeg => step x .nextFreeSeg
  | .setActive => step x .setActive
  | .flushTable .. | .readTable .. => none

/-- Entries with the LSN prefixes from `k` on, each in a table of its own. -/
def prefixRun (k n : Nat) : List Action :=
  (range' k n).flatMap fun k => [.addLsn (pageEntry 7 (k * 0x100000000 + 1)), .nextFreeSeg,
    .waitActive false, .setActive, .nextFreeSeg]

/-- The first table is closed and saved; the call marks it. -/
theorem updateRoTableState_ends_retired : ∃ x : Sys smallConfig,
    exec (roStep 1) (initSys smallConfig) ((prefixRun 0 2).take 7) = some x ∧
      (x.snap.memTable 0).state = .inactive ∧ ∃ n tables mids,
        updateRoTableState x.snap 1 n = some (tables, mids) ∧ mids.Nodup ∧ (∀ m ∈ mids, m < 3) ∧
          ∀ m, Marked 1 (x.snap.memTable m) (tables m) :=
  exec_eval (E := fun x : Sys smallConfig => (x.snap.memTable 0).state = .inactive ∧
      (x.snap.memTable 1).state ≠ .inactive) (by decide) fun x _ ⟨h0, h1⟩ =>
    ⟨h0, (updateRoTableState_ends_iff x.snap 1).mpr (.inr ⟨1, by decide, h1⟩)⟩

theorem updateRoLoop_endless (hmid : mid < size)
    (h : ∀ m < size, (tables m).state = .inactive ∧ maxSaved < (tables m).data.idxTableId) :
    updateRoLoop size maxSaved n mid tables = none := by
  induction n generalizing mid with
  | zero => rfl
  | succ n ih =>
    obtain ⟨hst, hlt⟩ := h mid hmid
    have hprev : loopPrevValue mid size < size := by
      unfold loopPrevValue
      split <;> omega
    rw [updateRoLoop, if_pos hst, markSaved, if_neg (fun hle => Nat.not_le.mpr hlt hle.2), ih hprev]
    rfl

/-- Tables 2, 3 and 4 are closed and the inserter waits for the second one to
be saved. The call does not end while one table is saved, and looks at a slot
twice when two are. -/
theorem updateRoTableState_endless : ∃ x : Sys smallConfig,
    exec (roStep 1) (initSys smallConfig) ((prefixRun 0 5).take 22) = some x ∧
      (∀ n, updateRoTableState x.snap 1 n = none) ∧
      (updateRoTableState x.snap 2 4).map Prod.snd = some [1, 0, 2, 1] :=
  exec_eval (E := fun x : Sys smallConfig => (∀ m < 3, (x.snap.memTable m).state = .inactive ∧
      1 < (x.snap.memTable m).data.idxTableId) ∧
      (updateRoTableState x.snap 2 4).map Prod.snd = some [1, 0, 2, 1]) (by decide) fun _ _ hx =>
    ⟨fun _ => updateRoLoop_endless (by decide) hx.1, hx.2⟩

end PolarDB.LogIndex
