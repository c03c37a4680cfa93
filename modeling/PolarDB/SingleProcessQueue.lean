import PolarDB.Basic
import PolarDB.Lts

/-!
# The single-process task queue

Any thread may push a task, and if `push` returns true it schedules a call
of `process` or `mergeableProcess`. Such a call becomes the worker unless
`onProcess_` is set, runs the callback on one task after the other, and
clears the flag when it finds the list empty. `push`, the start of a call
and each removal from the list hold the lock, so that each is one step
here; the callback runs without the lock.

No task is lost, repeated or out of order (`tasks_delivered`). `stop` is not
called, so that no task is `NULL`.
-/

namespace PolarDB.SingleProcessQueue

open Function List

variable {Task : Type}

structure Queue (Task : Type) where
  taskList : List Task
  onProcess : Bool

def push (q : Queue Task) (task : Task) : Queue Task × Bool :=
  ({ q with taskList := q.taskList ++ [task] }, !q.onProcess)

/-- The first section of `process`. With `none` the call returns. -/
def startProcess (q : Queue Task) : Option (Queue Task) :=
  if q.onProcess then none else some { q with onProcess := true }

/-- A task for the callback. `sources` are the pushed tasks it was made of. -/
structure Delivery (Task : Type) where
  mergeable : Bool
  task : Task
  sources : List Task
  deriving DecidableEq

/-- The inner loop of `mergeableProcess`. `merge` is `none` where it returns
false. -/
def mergeTasks (merge : Task → Task → Option Task) (task : Task) :
    List Task → Task × List Task × List Task
  | [] => (task, [], [])
  | nextTask :: rest =>
    match merge task nextTask with
    | some task =>
      let (task, merged, rest) := mergeTasks merge task rest
      (task, nextTask :: merged, rest)
    | none => (task, [], nextTask :: rest)

/-- The section at the head of the loop. With `none` the call returns. -/
def takeTask (merge : Task → Task → Option Task) (mergeable : Bool) (q : Queue Task) :
    Queue Task × Option (Delivery Task) :=
  match q.taskList with
  | [] => ({ q with onProcess := false }, none)
  | task :: rest =>
    if mergeable then
      let (task', merged, rest) := mergeTasks merge task rest
      ({ q with taskList := rest }, some ⟨true, task', task :: merged⟩)
    else ({ q with taskList := rest }, some ⟨false, task, [task]⟩)

/-! ## Runs -/

inductive Pc where
  | idle
  | loop (mergeable : Bool)
  | callback (mergeable : Bool)
  deriving DecidableEq

structure State (Task : Type) where
  queue : Queue Task
  scheduled : Nat
  threads : Nat → Pc
  delivered : List (Delivery Task)

def State.init : State Task := ⟨⟨[], false⟩, 0, fun _ => .idle, []⟩

inductive Action (Task : Type) where
  | push (task : Task)
  | start (t : Nat) (mergeable : Bool)
  | take (t : Nat)
  | return (t : Nat)

def step (merge : Task → Task → Option Task) (s : State Task) : Action Task → Option (State Task)
  | .push task =>
    let (q, wake) := push s.queue task
    some { s with queue := q, scheduled := if wake then s.scheduled + 1 else s.scheduled }
  | .start t mergeable =>
    if 0 < s.scheduled ∧ s.threads t = .idle then
      match startProcess s.queue with
      | some q => some { s with
          queue := q, scheduled := s.scheduled - 1, threads :=
            update s.threads t (.loop mergeable) }
      | none => some { s with scheduled := s.scheduled - 1 }
    else none
  | .take t =>
    match s.threads t with
    | .loop mergeable =>
      match takeTask merge mergeable s.queue with
      | (q, none) => some { s with queue := q, threads := update s.threads t .idle }
      | (q, some d) => some { s with
          queue := q
          threads := update s.threads t (.callback mergeable)
          delivered := s.delivered ++ [d] }
    | _ => none
  | .return t =>
    match s.threads t with
    | .callback mergeable => some { s with threads := update s.threads t (.loop mergeable) }
    | _ => none

def pushes (as : List (Action Task)) : List Task :=
  as.filterMap fun
    | .push task => some task
    | _ => none

/-- The task is the first of its sources, with the others merged into it one
by one; only `mergeableProcess` merges. -/
def Delivery.Ok (merge : Task → Task → Option Task) (d : Delivery Task) : Prop :=
  ∃ first merged, d.sources = first :: merged ∧ merged.foldlM merge first = some d.task ∧
    (d.mergeable = false → merged = [])

/-! ## The invariant -/

variable {merge : Task → Task → Option Task} {s s' : State Task} {as : List (Action Task)}
  {q : Queue Task} {t : Nat}

/-- `worker` says who is in the loop or the callback: one thread while the flag
is set, and nobody else. -/
structure Inv (merge : Task → Task → Option Task) (as : List (Action Task)) (s : State Task) :
    Prop where
  worker : ∃ w : Option Nat, s.queue.onProcess = w.isSome ∧ ∀ t, s.threads t ≠ .idle ↔ w = some t
  order : pushes as = s.delivered.flatMap (·.sources) ++ s.queue.taskList
  merged : ∀ d ∈ s.delivered, d.Ok merge
  woken : s.queue.onProcess = false → s.queue.taskList ≠ [] → 0 < s.scheduled

variable (merge) in
theorem mergeTasks_spec (task : Task) (l : List Task) :
    l = (mergeTasks merge task l).2.1 ++ (mergeTasks merge task l).2.2 ∧
      (mergeTasks merge task l).2.1.foldlM merge task = some (mergeTasks merge task l).1 := by
  induction l generalizing task with
  | nil => exact ⟨rfl, rfl⟩
  | cons next rest ih =>
    rw [mergeTasks]
    cases hm : merge task next with
    | none => exact ⟨rfl, rfl⟩
    | some task' =>
      refine ⟨congrArg (next :: ·) (ih task').1, ?_⟩
      simp only [foldlM_cons, hm]
      exact (ih task').2

theorem takeTask_cases (merge : Task → Task → Option Task) (mergeable : Bool) (q : Queue Task) :
    (q.taskList = [] ∧ takeTask merge mergeable q = ({ q with onProcess := false }, none)) ∨
    ∃ d rest, takeTask merge mergeable q = ({ q with taskList := rest }, some d) ∧ d.Ok merge ∧
      q.taskList = d.sources ++ rest := by
  unfold takeTask
  split
  · next h => exact .inl ⟨h, rfl⟩
  · next task rest h =>
    rw [h]
    obtain ⟨hsplit, hfold⟩ := mergeTasks_spec merge task rest
    cases mergeable with
    | true => exact .inr ⟨_, _, rfl, ⟨_, _, rfl, hfold, nofun⟩, congrArg (task :: ·) hsplit⟩
    | false => exact .inr ⟨_, _, rfl, ⟨_, _, rfl, rfl, fun _ => rfl⟩, rfl⟩

theorem worker_update {w : Option Nat} (hw : ∀ t', s.threads t' ≠ .idle ↔ w = some t')
    (ht : w = none ∨ w = some t) (pc : Pc) (t' : Nat) :
    update s.threads t pc t' ≠ .idle ↔ (if pc = .idle then none else some t) = some t' := by
  by_cases h : t' = t
  · rw [h, update_self]
    split <;> simp [*]
  · rw [update_of_ne h, hw]
    rcases ht with rfl | rfl <;> split <;> simp [Ne.symm h]

theorem Inv.step {a : Action Task} (h : Inv merge as s) (hs : step merge s a = some s') :
    Inv merge (as ++ [a]) s' := by
  obtain ⟨w, hon, hw⟩ := h.worker
  have hpushes : pushes (as ++ [a]) = pushes as ++ pushes [a] := filterMap_append
  rw [h.order] at hpushes
  cases a with
  | push task =>
    cases hs
    refine ⟨h.worker, hpushes.trans (append_assoc ..), h.merged, fun hoff _ => ?_⟩
    have hoff : s.queue.onProcess = false := hoff
    simp only [hoff]
    exact Nat.succ_pos _
  | start t mergeable =>
    obtain ⟨-, hs⟩ := Option.ite_none_right_eq_some.mp hs
    rw [startProcess] at hs
    have horder := hpushes.trans (append_nil _)
    by_cases hflag : s.queue.onProcess = true
    · rw [if_pos hflag] at hs
      cases hs
      exact { h with order := horder, woken := fun hoff => nomatch hflag.symm.trans hoff }
    · rw [if_neg hflag] at hs
      cases hs
      have hnone : w = none := by simpa [hon] using hflag
      exact ⟨⟨some t, rfl, worker_update hw (.inl hnone) _⟩, horder, h.merged, nofun⟩
  | take t =>
    simp only [SingleProcessQueue.step] at hs
    split at hs
    · next mergeable hpc =>
      have ht : w = some t := (hw t).mp (by rw [hpc]; nofun)
      obtain ⟨hempty, htake⟩ | ⟨d, rest, htake, hd, hsplit⟩ :=
        takeTask_cases merge mergeable s.queue
      · simp only [htake] at hs
        cases hs
        exact ⟨⟨none, rfl, worker_update hw (.inr ht) _⟩, hpushes.trans (append_nil _), h.merged,
          fun _ hne => absurd hempty hne⟩
      · simp only [htake] at hs
        cases hs
        refine ⟨⟨some t, ht ▸ hon, worker_update hw (.inr ht) _⟩, ?_, ?_, ?_⟩
        · rw [hpushes, hsplit, flatMap_append]
          simp [pushes]
        · exact forall_mem_snoc h.merged hd
        · exact fun hoff => nomatch (ht ▸ hon).symm.trans hoff
    · cases hs
  | «return» t =>
    simp only [SingleProcessQueue.step] at hs
    split at hs
    · next mergeable hpc =>
      have ht : w = some t := (hw t).mp (by rw [hpc]; nofun)
      cases hs
      exact { h with
        worker := ⟨some t, ht ▸ hon, worker_update hw (.inr ht) _⟩
        order := hpushes.trans (append_nil _) }
    · cases hs

/-- In every state of a run: at most one call is in its loop or callback, the
pushed tasks are those that were delivered and then those in the list, and
without a scheduled or running call the list is empty. -/
theorem tasks_delivered (hs : exec (step merge) .init as = some s) :
    (∀ t t', s.threads t ≠ .idle → s.threads t' ≠ .idle → t = t') ∧
      pushes as = s.delivered.flatMap (·.sources) ++ s.queue.taskList ∧
      (∀ d ∈ s.delivered, d.Ok merge) ∧
      (s.scheduled = 0 → (∀ t, s.threads t = .idle) → s.queue.taskList = []) := by
  have h : Inv merge as s := exec_invariant (Inv merge)
    ⟨⟨none, rfl, fun _ => iff_of_false (· rfl) nofun⟩, rfl, forall_mem_nil _, fun _ hne =>
      absurd rfl hne⟩
    (fun _ _ _ _ h hs => h.step hs) hs
  obtain ⟨w, hon, hw⟩ := h.worker
  refine ⟨fun t t' ht ht' => ?_, h.order, h.merged, fun h0 hidle => ?_⟩
  · exact Option.some.inj (((hw t).mp ht).symm.trans ((hw t').mp ht'))
  · by_contra hne
    cases w with
    | none => exact Nat.ne_of_gt (h.woken hon hne) h0
    | some t => exact (hw t).mpr rfl (hidle t)

/-- Three pushes, the first two before the call starts: equal tasks are merged,
and the third one comes while the callback runs. -/
theorem tasks_delivered_merged : ∃ s : State Nat,
    exec (step fun x y => if x = y then some x else none) .init [.push 7, .push 7, .start 0 true,
      .take 0, .push 8, .start 1 true, .return 0, .take 0, .return 0, .take 0] = some s ∧
    s.delivered = [⟨true, 7, [7, 7]⟩, ⟨true, 8, [8]⟩] ∧ s.queue.taskList = [] := by
  refine exec_eval (E := fun s => s.delivered = [⟨true, 7, [7, 7]⟩, ⟨true, 8, [8]⟩]) (by decide)
    fun s hs hd => ?_
  have horder := (tasks_delivered hs).2.1
  rw [hd] at horder
  exact ⟨hd, by simpa [pushes] using horder⟩

end PolarDB.SingleProcessQueue
