import PolarDB.Lts

/-!
# The last synced index of a server

`LocalServer::writeLogDoneInternal` raises `lastSyncedIndex` to its argument,
in a loop of a load and a weak exchange. When all callers are through, the
value is the maximum of the first one and the arguments, in whatever order
they came. But the loop ends only for a value above the argument or by an
exchange for one below: a call that finds its argument there already turns
until somebody else raises the value (`writeLogDone_stuck`), where
`AliSQLServer::writeLogDone` would leave. A call that is left alone comes to
its end exactly for the other values (`writeLogDone_max_iff`).
-/

namespace PolarDB.SyncedIndex

open Function List Option

/-! ## The callers -/

inductive Pc where
  | load
  | exchange (old : Nat)
  | left (ret : Bool)
  deriving DecidableEq, Repr

structure State where
  lastSyncedIndex : Nat
  calls : Nat → Pc

/-- One atomic operation of `writeLogDoneInternal`, with the value it leaves
behind. A weak exchange may fail with the value unchanged (`spurious`). -/
def writeLogDoneInternal (value logIndex : Nat) (spurious : Bool) : Pc → Option (Nat × Pc)
  | .load =>
    if value > logIndex then some (value, .left false)
    else if value < logIndex then some (value, .exchange value)
    else some (value, .load)
  | .exchange old =>
    if old = value ∧ spurious = false then some (logIndex, .left true) else some (value, .load)
  | .left _ => none

def step (args : List Nat) (s : State) : Nat × Bool → Option State
  | (i, spurious) =>
    args[i]?.bind fun logIndex =>
      (writeLogDoneInternal s.lastSyncedIndex logIndex spurious (s.calls i)).map fun (value, pc) =>
        ⟨value, update s.calls i pc⟩

def State.init (value : Nat) : State := ⟨value, fun _ => .load⟩

/-! ## The value is the maximum -/

variable {value value' logIndex first i : Nat} {args : List Nat} {pc pc' : Pc} {spurious : Bool}
  {s s' : State}

def PcOk (value logIndex : Nat) : Pc → Prop
  | .load => True
  | .exchange old => old < logIndex
  | .left _ => logIndex ≤ value

theorem PcOk.mono (h : PcOk value logIndex pc) (hle : value ≤ value') :
    PcOk value' logIndex pc := by
  cases pc with
  | load | exchange old => exact h
  | left ret => exact Nat.le_trans h hle

theorem writeLogDoneInternal_spec (h : PcOk value logIndex pc)
    (hs : writeLogDoneInternal value logIndex spurious pc = some (value', pc')) :
    value ≤ value' ∧ (value' = value ∨ value' = logIndex) ∧ PcOk value' logIndex pc' := by
  cases pc with
  | load | exchange old | left ret => grind [writeLogDoneInternal, PcOk]

structure Inv (first : Nat) (args : List Nat) (s : State) : Prop where
  mem : s.lastSyncedIndex ∈ first :: args
  first_le : first ≤ s.lastSyncedIndex
  calls : ∀ i logIndex, args[i]? = some logIndex → PcOk s.lastSyncedIndex logIndex (s.calls i)

theorem Inv.step {a : Nat × Bool} (h : Inv first args s) (hs : step args s a = some s') :
    Inv first args s' := by
  obtain ⟨i, spurious⟩ := a
  obtain ⟨logIndex, harg, hs⟩ := bind_eq_some_iff.mp hs
  obtain ⟨⟨value, pc⟩, hcall, rfl⟩ := map_eq_some_iff.mp hs
  obtain ⟨hle, hval, hpc⟩ := writeLogDoneInternal_spec (h.calls i logIndex harg) hcall
  refine ⟨?_, Nat.le_trans h.first_le hle, fun j arg hj => ?_⟩
  · rcases hval with rfl | rfl
    · exact h.mem
    · exact mem_cons_of_mem _ (mem_of_getElem? harg)
  · by_cases hji : j = i
    · subst hji
      obtain rfl : logIndex = arg := some.inj (harg.symm.trans hj)
      simpa only [update_self] using hpc
    · simpa only [update_of_ne hji] using (h.calls j arg hj).mono hle

theorem Inv.max (h : Inv first args s) (hleft : ∀ i < args.length, ∃ ret, s.calls i = .left ret) :
    (first :: args).max? = some s.lastSyncedIndex := by
  refine max?_eq_some_iff.mpr ⟨h.mem, forall_mem_cons.mpr ⟨h.first_le, fun arg harg => ?_⟩⟩
  obtain ⟨i, hi⟩ := getElem?_of_mem harg
  obtain ⟨ret, hret⟩ := hleft i (List.getElem?_eq_some_iff.mp hi).1
  have hpc := h.calls i arg hi
  rwa [hret] at hpc

/-! ## A call that is left alone -/

/-- The operations a call needs if no exchange fails with the value unchanged. -/
def Pc.need (value : Nat) : Pc → Nat
  | .load => 2
  | .exchange old => if old = value then 1 else 3
  | .left _ => 0

theorem Pc.eq_left (h : pc.need value = 0) : ∃ ret, pc = .left ret := by
  cases pc with
  | load | exchange old | left ret => grind [Pc.need]

/-- An operation ends the loop or brings its end nearer, unless it fails with
the value unchanged. -/
theorem writeLogDoneInternal_alone (spurious : Bool) (hne : value ≠ logIndex)
    (hpc : 0 < pc.need value) :
    ∃ value' pc', writeLogDoneInternal value logIndex spurious pc = some (value', pc') ∧
      ((∃ ret, pc' = .left ret) ∨
        value' = value ∧ pc'.need value < pc.need value + 2 * if spurious then 1 else 0) := by
  cases pc with
  | load | exchange old | left ret => grind [writeLogDoneInternal, Pc.need]

/-- Without the others a call leaves the loop, if not every exchange fails with
the value unchanged. -/
theorem leaves_alone (harg : args[i]? = some logIndex) {spurious : List Bool}
    (hne : s.lastSyncedIndex ≠ logIndex)
    (hn : 2 * spurious.count true + (s.calls i).need s.lastSyncedIndex ≤ spurious.length) :
    ∃ n s' ret, exec (step args) s ((spurious.take n).map (i, ·)) = some s' ∧
      s'.calls i = .left ret := by
  induction spurious generalizing s with
  | nil =>
    obtain ⟨ret, hret⟩ := Pc.eq_left (Nat.le_zero.mp (Nat.le_trans (Nat.le_add_left ..) hn))
    exact ⟨0, s, ret, rfl, hret⟩
  | cons b spurious ih =>
    rcases Nat.eq_zero_or_pos ((s.calls i).need s.lastSyncedIndex) with hz | hpos
    · obtain ⟨ret, hret⟩ := Pc.eq_left hz
      exact ⟨0, s, ret, rfl, hret⟩
    · obtain ⟨value, pc, hcall, hnext⟩ := writeLogDoneInternal_alone b hne hpos
      have hs : step args s (i, b) = some ⟨value, update s.calls i pc⟩ := by
        simp only [step, harg, hcall, bind_some, map_some]
      rcases hnext with ⟨ret, rfl⟩ | ⟨rfl, hlt⟩
      · refine ⟨1, ⟨value, update s.calls i (.left ret)⟩, ret, ?_, update_self ..⟩
        simp only [take_succ_cons, take_zero, map_cons, map_nil, exec, hs, bind_some]
      · obtain ⟨n, s', ret, hrun, hret⟩ :=
          ih (s := ⟨s.lastSyncedIndex, update s.calls i pc⟩) hne (by
          rw [count_cons, beq_true, length_cons] at hn
          simp only [update_self]
          omega)
        refine ⟨n + 1, s', ret, ?_, hret⟩
        simp only [take_succ_cons, map_cons, exec, hs, bind_some]
        exact hrun

/-- A call whose argument is the value does not leave the loop alone. -/
theorem stays_alone (harg : args[i]? = some s.lastSyncedIndex) {spurious : List Bool}
    (hok : PcOk s.lastSyncedIndex s.lastSyncedIndex (s.calls i))
    (hin : ∀ ret, s.calls i ≠ .left ret)
    (hs : exec (step args) s (spurious.map (i, ·)) = some s') : ∀ ret, s'.calls i ≠ .left ret := by
  induction spurious generalizing s with
  | nil =>
    cases hs
    exact hin
  | cons b spurious ih =>
    have hcall : writeLogDoneInternal s.lastSyncedIndex s.lastSyncedIndex b (s.calls i) =
        some (s.lastSyncedIndex, .load) := by
      cases hpc : s.calls i with
      | load => simp [writeLogDoneInternal]
      | exchange old =>
        rw [hpc] at hok
        have hne : old ≠ s.lastSyncedIndex := Nat.ne_of_lt hok
        simp [writeLogDoneInternal, hne]
      | left ret => exact absurd hpc (hin ret)
    have hstep : step args s (i, b) = some ⟨s.lastSyncedIndex, update s.calls i .load⟩ := by
      simp only [step, harg, hcall, bind_some, map_some]
    rw [map_cons, exec, hstep] at hs
    refine ih (s := ⟨s.lastSyncedIndex, update s.calls i .load⟩) harg ?_ (fun ret => ?_) hs
    · simp only [update_self]
      trivial
    · simp only [update_self]
      exact Pc.noConfusion

/-- In every run, the value is the maximum when all calls are through, and a
call leaves the loop if it goes on alone if and only if it has left it already
or its argument is not the value: with `k` exchanges that fail with the value
unchanged, after `2 * k + 3` operations at most. -/
theorem writeLogDone_max_iff (first : Nat) (args : List Nat) (as : List (Nat × Bool)) {s : State}
    (hrun : exec (step args) (State.init first) as = some s) :
    ((∀ i < args.length, ∃ ret, s.calls i = .left ret) →
      (first :: args).max? = some s.lastSyncedIndex) ∧
    ∀ i logIndex, args[i]? = some logIndex →
      ((∀ spurious : List Bool, 2 * spurious.count true + 3 ≤ spurious.length →
        ∃ n s' ret, exec (step args) s ((spurious.take n).map (i, ·)) = some s' ∧
          s'.calls i = .left ret) ↔
      (∃ ret, s.calls i = .left ret) ∨ s.lastSyncedIndex ≠ logIndex) := by
  have hinit : Inv first args (State.init first) :=
    ⟨mem_cons_self, Nat.le_refl _, fun _ _ _ => trivial⟩
  have h := exec_invariant (fun _ => Inv first args) hinit (fun _ _ _ _ h => h.step) hrun
  refine ⟨h.max, fun i logIndex harg => ⟨fun hleaves => ?_, ?_⟩⟩
  · by_contra hstuck
    push Not at hstuck
    obtain ⟨hin, rfl⟩ := hstuck
    obtain ⟨n, s', ret, hs', hret⟩ := hleaves (replicate 3 false) (by decide)
    exact stays_alone harg (h.calls i _ harg) hin hs' ret hret
  · rintro (⟨ret, hret⟩ | hne) spurious hn
    · exact ⟨0, s, ret, rfl, hret⟩
    refine leaves_alone harg hne ?_
    have hneed : (s.calls i).need s.lastSyncedIndex ≤ 3 := by
      unfold Pc.need
      split
      · decide
      · split <;> decide
      · decide
    omega

/-- Both calls load 5, the one with 7 exchanges it, and the one with 6 leaves
after a failure. -/
theorem writeLogDone_max_two : ∃ s, exec (step [7, 6]) (State.init 5)
      [(0, false), (1, false), (0, false)] = some s ∧ s.lastSyncedIndex = 7 ∧
        ∃ n s' ret, exec (step [7, 6]) s ((replicate 3 false |>.take n).map (1, ·)) = some s' ∧
          s'.calls 1 = .left ret :=
  exec_eval (E := fun s => s.lastSyncedIndex = 7) (by decide) fun s hs h7 =>
    ⟨h7, ((writeLogDone_max_iff 5 [7, 6] _ hs).2 1 6 rfl).mpr (.inr (by rw [h7]; decide)) _
      (by decide)⟩

theorem load_again (harg : args[i]? = some s.lastSyncedIndex) (hpc : s.calls i = .load)
    (spurious : List Bool) : exec (step args) s (spurious.map (i, ·)) = some s := by
  induction spurious with
  | nil => rfl
  | cons b spurious ih =>
    have hs : step args s (i, b) = some s := by
      have hself : update s.calls i .load = s.calls := by rw [← hpc, update_eq_self]
      simp [step, harg, hpc, writeLogDoneInternal, hself]
    rwa [map_cons, exec, hs]

/-- A call with the first value as its argument, and the second one of two
calls with the same argument. -/
theorem writeLogDone_stuck :
    (∀ spurious : List Bool, exec (step [5]) (State.init 5) (spurious.map (0, ·)) =
      some (State.init 5)) ∧
    ∃ s, exec (step [7, 7]) (State.init 5) [(0, false), (0, false)] = some s ∧
      s.lastSyncedIndex = 7 ∧
      ∀ spurious : List Bool, exec (step [7, 7]) s (spurious.map (1, ·)) = some s :=
  ⟨load_again rfl rfl, exec_eval (E := fun s => s.lastSyncedIndex = 7 ∧ s.calls 1 = .load)
    (by decide) fun s _ ⟨h7, hpc⟩ => ⟨h7, load_again (by rw [h7]; rfl) hpc⟩⟩

end PolarDB.SyncedIndex
