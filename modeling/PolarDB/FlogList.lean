import PolarDB.DoublyLinked
import PolarDB.Lts

/-!
# The flashback log list

Before a page is changed for the first time after a flashback point its
buffer is pushed to a list, and the flashback log record of the page is
inserted later: by the background worker, which takes buffers from the head
of the list, or by a backend that flushes or invalidates the buffer.

Two flags in the buffer's redo state keep them apart: `inList` is set by the
backend that pushes the buffer, before the entry is filled and linked,
`inserting` by the process that takes it out. Both backends hold the content
lock of the buffer, the push exclusively; the worker holds no lock.

Every access to shared memory is a step of its own, at which the worker and any
number of backends interleave. A backend stands for one call; a process that
deals with several buffers is several of them.
-/

namespace PolarDB.FlogList

open Function List Option

/-! ## The links -/

/-- The list: `none` is `NOT_IN_FLOG_LIST`, the end of the list as well as
the mark of a buffer that is not in it. -/
structure Links where
  head : Option Nat
  tail : Option Nat
  prevBuf : Nat → Option Nat
  nextBuf : Nat → Option Nat

def Links.init : Links where
  head := none
  tail := none
  prevBuf := fun _ => none
  nextBuf := fun _ => none

def Links.addTail (k : Links) (b : Nat) : Links where
  head := match k.tail with
    | none => some b
    | some _ => k.head
  tail := some b
  prevBuf := update k.prevBuf b k.tail
  nextBuf := match k.tail with
    | none => update k.nextBuf b none
    | some prev => update (update k.nextBuf b none) prev (some b)

/-- What is before the buffer gets a new successor; `none` where the cell of
no buffer would be written to. -/
def Links.unlinkPrev (k : Links) (b : Nat) (prev next : Option Nat) : Option Links :=
  if k.head = some b then some { k with head := next }
  else prev.map fun p => { k with nextBuf := update k.nextBuf p next }

def Links.unlinkNext (k : Links) (b : Nat) (prev next : Option Nat) : Option Links :=
  if k.tail = some b then some { k with tail := prev }
  else next.map fun n => { k with prevBuf := update k.prevBuf n prev }

def Links.unlink (k : Links) (b : Nat) : Option Links :=
  (k.unlinkPrev b (k.prevBuf b) (k.nextBuf b)).bind fun k' =>
    k'.unlinkNext b (k.prevBuf b) (k.nextBuf b)

def Links.detach (k : Links) (b : Nat) : Links :=
  { k with
    prevBuf := update k.prevBuf b none
    nextBuf := update k.nextBuf b none }

/-! ## Entries -/

def flogListSlotReady : Nat := 1

def flogListSlotCandidate : Nat := 2

/-- What a slot of `flashback_list` says of its buffer; `info` is zero in an
empty one. -/
structure Entry where
  redoLsn : Nat
  fbpointLsn : Nat
  info : Nat
  deriving DecidableEq, Repr

def Entry.ofPush (redoLsn fbpointLsn : Nat) (isCandidate : Bool) : Entry where
  redoLsn := redoLsn
  fbpointLsn := fbpointLsn
  info := if isCandidate then flogListSlotReady ||| flogListSlotCandidate else flogListSlotReady

/-! ## Processes -/

inductive PushStage where
  | flagged
  | redoLsn
  | fbpointLsn
  | filled
  deriving DecidableEq, Repr

inductive ProcStage where
  | claimed
  | read (e : Entry)
  | emptied (e : Entry)
  | unlinked (e : Entry)
  | detached (e : Entry)
  | logged
  deriving DecidableEq, Repr

inductive Pc where
  | idle
  | toPush (b : Nat) (e : Entry)
  | push (b : Nat) (e : Entry) (k : PushStage)
  | toFlush (b : Nat) (invalidate : Bool)
  | toProcess (b : Nat) (invalidate : Bool)
  | process (b : Nat) (invalidate : Bool) (k : ProcStage)
  | waiting (b : Nat)
  | unlock (b : Nat)
  deriving DecidableEq, Repr

inductive WorkerPc where
  | idle
  | gotHead (b : Nat)
  | process (b : Nat) (k : ProcStage)
  /-- the head was not in the list; `n` things had happened to it -/
  | failed (b n : Nat)
  deriving DecidableEq, Repr

inductive Content where
  | exclusive (t : Nat)
  | shared (ts : List Nat)
  deriving DecidableEq, Repr

inductive Event where
  | push (e : Entry)
  | insert (e : Entry)
  | drop
  | clear
  deriving DecidableEq, Repr

inductive Life where
  | out
  | pushed (e : Entry)
  | done
  deriving DecidableEq, Repr

/-- The order in which things happen to a buffer that is logged once for
each push. -/
def Life.next : Life → Event → Option Life
  | .out, .push e => some (.pushed e)
  | .pushed e, .insert e' => if e = e' then some .done else none
  | .pushed _, .drop => some .done
  | .done, .clear => some .out
  | _, _ => none

/-! ## The state -/

structure State where
  links : Links
  slots : Nat → Entry
  /-- `POLAR_BUF_IN_FLOG_LIST` -/
  inList : Nat → Bool
  inserting : Nat → Bool
  content : Nat → Content
  backends : Nat → Pc
  worker : WorkerPc
  panicked : Bool
  /-- an entry was read that is not ready, or memory was written that
  belongs to no buffer -/
  broken : Bool
  linked : Nat → Bool
  history : Nat → List Event

def State.init : State where
  links := .init
  slots := fun _ => ⟨0, 0, 0⟩
  inList := fun _ => false
  inserting := fun _ => false
  content := fun _ => .shared []
  backends := fun _ => .idle
  worker := .idle
  panicked := false
  broken := false
  linked := fun _ => false
  history := fun _ => []

def State.note (s : State) (b : Nat) (ev : Event) : State :=
  { s with history := update s.history b (s.history b ++ [ev]) }

def State.setSlot (s : State) (b : Nat) (e : Entry) : State :=
  { s with slots := update s.slots b e }

def State.setInList (s : State) (b : Nat) : State :=
  { s with inList := update s.inList b true }

def State.setInserting (s : State) (b : Nat) : State :=
  { s with inserting := update s.inserting b true }

def State.cleanFlags (s : State) (b : Nat) : State :=
  { s with
    inList := update s.inList b false
    inserting := update s.inserting b false }

def addBufToList (s : State) (b : Nat) (e : Entry) : PushStage → State × Option PushStage
  | .flagged => (s.setSlot b { s.slots b with redoLsn := e.redoLsn }, some .redoLsn)
  | .redoLsn => (s.setSlot b { s.slots b with fbpointLsn := e.fbpointLsn }, some .fbpointLsn)
  | .fbpointLsn =>
    (s.setSlot b { s.slots b with info := (s.slots b).info ||| e.info }, some .filled)
  | .filled =>
    ({ s with links := s.links.addTail b, linked := update s.linked b true }, none)

def processBufFlogList (s : State) (b : Nat) (invalidate : Bool) :
    ProcStage → State × Option ProcStage
  | .claimed =>
    ({ s with broken := s.broken || (s.slots b).info &&& flogListSlotReady == 0 },
      some (.read (s.slots b)))
  | .read e => (s.setSlot b { s.slots b with info := 0, redoLsn := 0 }, some (.emptied e))
  | .emptied e =>
    match s.links.unlink b with
    | some links =>
      ({ s with links := links, linked := update s.linked b false },
        some (.unlinked e))
    | none => ({ s with broken := true }, some (.unlinked e))
  | .unlinked e => ({ s with links := s.links.detach b }, some (.detached e))
  | .detached e => (s.note b (if invalidate then .drop else .insert e), some .logged)
  | .logged => ((s.cleanFlags b).note b .clear, none)

def State.setPc (s : State) (t : Nat) (pc : Pc) : State :=
  { s with backends := update s.backends t pc }

def State.setContent (s : State) (b : Nat) (c : Content) : State :=
  { s with content := update s.content b c }

def State.release (s : State) (t b : Nat) : State :=
  match s.content b with
  | .exclusive _ => s.setContent b (.shared [])
  | .shared ts => s.setContent b (.shared (ts.erase t))

def runBackend (s : State) (t : Nat) : Option State :=
  match s.backends t with
  | .idle => none
  | .toPush b e =>
    if s.inList b then some (s.setPc t (.unlock b))
    else some (((s.setInList b).note b (.push e)).setPc t (.push b e .flagged))
  | .push b e k =>
    match addBufToList s b e k with
    | (s', some k') => some (s'.setPc t (.push b e k'))
    | (s', none) => some (s'.setPc t (.unlock b))
  | .toFlush b invalidate =>
    if s.inList b then some (s.setPc t (.toProcess b invalidate))
    else some (s.setPc t (.unlock b))
  | .toProcess b invalidate =>
    if s.inserting b then some (s.setPc t (.waiting b))
    else if s.inList b then
      some ((s.setInserting b).setPc t (.process b invalidate .claimed))
    else some (s.setPc t (.unlock b))
  | .process b invalidate k =>
    match processBufFlogList s b invalidate k with
    | (s', some k') => some (s'.setPc t (.process b invalidate k'))
    | (s', none) => some (s'.setPc t (.unlock b))
  | .waiting b => if s.inList b then none else some (s.setPc t (.unlock b))
  | .unlock b => some ((s.release t b).setPc t .idle)

def runWorker (s : State) : State :=
  match s.worker with
  | .idle =>
    match s.links.head with
    | none => s
    | some b => { s with worker := .gotHead b }
  | .gotHead b =>
    if s.inserting b then { s with worker := .idle }
    else if s.inList b then { s.setInserting b with worker := .process b .claimed }
    else { s with worker := .failed b (s.history b).length }
  | .process b k =>
    match processBufFlogList s b false k with
    | (s', some k') => { s' with worker := .process b k' }
    | (s', none) => { s' with worker := .idle }
  | .failed b _ =>
    if s.links.head = some b then { s with worker := .idle, panicked := true }
    else { s with worker := .idle }

inductive Action where
  /-- a backend locks the content of `b` exclusively and pushes it -/
  | startPush (t b redoLsn fbpointLsn : Nat) (isCandidate : Bool)
  /-- a backend locks the content of `b` and flushes or invalidates it -/
  | startFlush (t b : Nat) (invalidate : Bool)
  | run (t : Nat)
  | timeout (t : Nat)
  | work
  deriving DecidableEq, Repr

def step (s : State) : Action → Option State
  | .startPush t b redoLsn fbpointLsn isCandidate =>
    if s.backends t = .idle ∧ s.content b = .shared [] then
      some ((s.setContent b (.exclusive t)).setPc t
        (.toPush b (.ofPush redoLsn fbpointLsn isCandidate)))
    else none
  | .startFlush t b invalidate =>
    match s.backends t, s.content b with
    | .idle, .shared ts =>
      some ((s.setContent b (.shared (t :: ts))).setPc t (.toFlush b invalidate))
    | _, _ => none
  | .run t => runBackend s t
  | .timeout t =>
    match s.backends t with
    | .waiting b => some (s.setPc t (.unlock b))
    | _ => none
  | .work => some (runWorker s)

/-! ## The condition -/

/-- When the worker claims the buffer it saw at the head, no push of that
buffer is under way; and when it looks at the head again after the buffer
was not in the list, the buffer was not pushed since. -/
def WorkerOk (s : State) : WorkerPc → Prop
  | .gotHead b => s.inList b = true → s.inserting b = true ∨ s.linked b = true
  | .failed b n => (s.history b).length = n
  | .idle | .process _ _ => True

instance (s : State) : ∀ pc, Decidable (WorkerOk s pc)
  | .gotHead _ => inferInstanceAs (Decidable (_ → _ ∨ _))
  | .failed _ _ => inferInstanceAs (Decidable (_ = _))
  | .idle | .process _ _ => .isTrue trivial

def StepOk (s : State) : Action → Prop
  | .work => WorkerOk s s.worker
  | _ => True

instance (s : State) : ∀ a, Decidable (StepOk s a)
  | .work => inferInstanceAs (Decidable (WorkerOk s s.worker))
  | .startPush _ _ _ _ _ | .startFlush _ _ _ | .run _ | .timeout _ => .isTrue trivial

/-! ## What the links hold -/

structure Links.Holds (k : Links) (l : List Nat) : Prop where
  nodup : l.Nodup
  head_eq : k.head = l.head?
  tail_eq : k.tail = l.getLast?
  inside : ∀ l1 b l2, l = l1 ++ b :: l2 → k.nextBuf b = l2.head? ∧ k.prevBuf b = l1.getLast?

/-- The cells of the buffers in the list, as those of a list with separate
marks for its end and for buffers outside. -/
def cells (l : List Nat) (f : Nat → Option Nat) (b : Nat) : Link Nat :=
  if b ∈ l then .ofOption (f b) else .out

theorem ofOption_inj {o o' : Option Nat} (h : Link.ofOption o = Link.ofOption o') : o = o' := by
  cases o <;> cases o' <;> cases h <;> rfl

variable {k : Links} {l : List Nat}

theorem Links.Holds.linked (h : k.Holds l) :
    Linked (cells l k.nextBuf) (cells l k.prevBuf) (.ofOption k.head) (.ofOption k.tail) l where
  nodup := h.nodup
  first_eq := congrArg Link.ofOption h.head_eq
  last_eq := congrArg Link.ofOption h.tail_eq
  inside l1 b l2 heq := by
    have hb : b ∈ l := heq ▸ mem_append_cons_self
    obtain ⟨hn, hp⟩ := h.inside l1 b l2 heq
    unfold cells
    rw [if_pos hb, if_pos hb, hn, hp]
    exact ⟨rfl, rfl⟩
  outside b hb := ⟨if_neg hb, if_neg hb⟩

theorem Links.Holds.of_linked {next prev : Nat → Link Nat} {first last : Link Nat}
    (h : Linked next prev first last l) (hnext : ∀ b ∈ l, next b = .ofOption (k.nextBuf b))
    (hprev : ∀ b ∈ l, prev b = .ofOption (k.prevBuf b)) (hfirst : first = .ofOption k.head)
    (hlast : last = .ofOption k.tail) : k.Holds l where
  nodup := h.nodup
  head_eq := ofOption_inj (hfirst.symm.trans h.first_eq)
  tail_eq := ofOption_inj (hlast.symm.trans h.last_eq)
  inside l1 b l2 heq := by
    have hb : b ∈ l := heq ▸ mem_append_cons_self
    obtain ⟨hn, hp⟩ := h.inside l1 b l2 heq
    exact ⟨ofOption_inj ((hnext b hb).symm.trans hn), ofOption_inj ((hprev b hb).symm.trans hp)⟩

theorem Links.holds_init : Links.init.Holds [] where
  nodup := nodup_nil
  head_eq := rfl
  tail_eq := rfl
  inside l1 b l2 heq := by simp at heq

variable {b : Nat} {l1 l2 : List Nat}

theorem Links.Holds.mem_of_head (h : k.Holds l) (hb : k.head = some b) : b ∈ l :=
  mem_of_mem_head? (h.head_eq ▸ hb)

theorem Links.Holds.addTail (h : k.Holds l) (hb : b ∉ l) : (k.addTail b).Holds (l ++ [b]) := by
  have hmem : ∀ j ∈ l ++ [b], j ≠ b → j ∈ l := fun j hj hjb =>
    (mem_append.mp hj).resolve_right fun hj => hjb (mem_singleton.mp hj)
  refine .of_linked (h.linked.append hb) (fun j hj => ?_) (fun j hj => ?_) ?_ rfl
  · unfold Links.addTail
    by_cases hjb : j = b
    · subst hjb
      cases ht : k.tail with
      | none => simp
      | some p =>
        have hpl : p ∈ l := mem_of_getLast? (h.tail_eq ▸ ht)
        have hne : j ≠ p := fun hc => hb (hc ▸ hpl)
        simp [update_of_ne hne]
    · have hjl := hmem j hj hjb
      rw [update_of_ne hjb, Link.set_ofOption]
      cases ht : k.tail with
      | none => simp [cells, hjl, update_of_ne hjb]
      | some p =>
        by_cases hjp : j = p
        · subst hjp
          simp
        · simp [cells, hjl, update_of_ne hjb, update_of_ne hjp, Ne.symm hjp]
  · unfold Links.addTail
    by_cases hjb : j = b
    · subst hjb
      simp
    · have hjl := hmem j hj hjb
      simp [cells, hjl, update_of_ne hjb]
  · unfold Links.addTail
    cases ht : k.tail with
    | none => rfl
    | some p => rfl

def Links.without (k : Links) (l1 l2 : List Nat) : Links where
  head := if l1 = [] then l2.head? else k.head
  tail := if l2 = [] then l1.getLast? else k.tail
  prevBuf := fun j => if l2.head? = some j then l1.getLast? else k.prevBuf j
  nextBuf := fun j => if l1.getLast? = some j then l2.head? else k.nextBuf j

theorem update_eq_ite (f : Nat → Option Nat) (p : Nat) (x : Option Nat) :
    update f p x = fun j => if some p = some j then x else f j := by
  funext j
  rw [update_apply]
  exact if_congr (by rw [some_inj, eq_comm]) rfl rfl

theorem Links.Holds.unlink_eq (h : k.Holds (l1 ++ b :: l2)) :
    k.unlink b = some (k.without l1 l2) := by
  obtain ⟨hn, hp⟩ := h.inside l1 b l2 rfl
  have hb := (nodup_cons.mp (nodup_middle.mp h.nodup)).1
  have hhead : k.head = some b ↔ l1 = [] := by
    rw [h.head_eq]
    cases l1 with
    | nil => simp
    | cons c l1 =>
      simp only [cons_append, head?_cons, some.injEq, reduceCtorEq, iff_false]
      exact fun hc => hb (hc ▸ mem_cons_self)
  have htail : k.tail = some b ↔ l2 = [] := by
    rw [h.tail_eq]
    rcases eq_nil_or_concat' l2 with rfl | ⟨m, c, rfl⟩
    · simp
    · rw [← cons_append, ← append_assoc, getLast?_concat]
      simp only [some.injEq, append_eq_nil_iff, reduceCtorEq, and_false, iff_false]
      exact fun hc => hb (hc ▸ by simp)
  rw [Links.unlink, hn, hp]
  have hprev : k.unlinkPrev b l1.getLast? l2.head? = some { k with
      head := if l1 = [] then l2.head? else k.head
      nextBuf := fun j => if l1.getLast? = some j then l2.head? else k.nextBuf j } := by
    unfold Links.unlinkPrev
    rcases eq_nil_or_concat' l1 with rfl | ⟨m, p, rfl⟩
    · rw [if_pos (hhead.mpr rfl)]
      simp
    · rw [if_neg (mt hhead.mp (by simp)), getLast?_concat, map_some, update_eq_ite,
        if_neg (by simp)]
  rw [hprev, bind_some]
  unfold Links.unlinkNext
  cases l2 with
  | nil =>
    rw [if_pos (htail.mpr rfl)]
    simp [Links.without]
  | cons c l2 =>
    rw [if_neg (mt htail.mp (by simp)), head?_cons, map_some, update_eq_ite]
    simp [Links.without]

theorem Links.Holds.without (h : k.Holds (l1 ++ b :: l2)) : (k.without l1 l2).Holds (l1 ++ l2) := by
  obtain ⟨hn, hp⟩ := h.linked.inside l1 b l2 rfl
  have hb := (nodup_cons.mp (nodup_middle.mp h.nodup)).1
  have hrem := h.linked.remove
  rw [hn, hp] at hrem
  have hin : ∀ j ∈ l1 ++ l2, j ∈ l1 ++ b :: l2 ∧ j ≠ b := fun j hj => by
    refine ⟨?_, fun hc => hb (hc ▸ hj)⟩
    rw [mem_append] at hj ⊢
    exact hj.imp_right (mem_cons_of_mem _)
  refine .of_linked hrem (fun j hj => ?_) (fun j hj => ?_) ?_ ?_
  · obtain ⟨hjl, hjb⟩ := hin j hj
    rw [update_of_ne hjb, Link.set_ofOption]
    unfold Links.without cells
    by_cases hlast : l1.getLast? = some j <;> simp only [hlast, hjl, if_true, if_false]
  · obtain ⟨hjl, hjb⟩ := hin j hj
    rw [update_of_ne hjb, Link.set_ofOption]
    unfold Links.without cells
    by_cases hfirst : l2.head? = some j <;> simp only [hfirst, hjl, if_true, if_false]
  · unfold Links.without
    rcases eq_nil_or_concat' l1 with rfl | ⟨m, p, rfl⟩
    · simp
    · simp
  · unfold Links.without
    cases l2 with
    | nil | cons c l2 => simp

theorem Links.Holds.detach (h : k.Holds l) (hb : b ∉ l) : (k.detach b).Holds l :=
  { h with
    inside l1 j l2 heq := by
      have hj : j ≠ b := fun hc => hb (hc ▸ heq ▸ mem_append_cons_self)
      simp only [Links.detach, update_of_ne hj]
      exact h.inside l1 j l2 heq }

end PolarDB.FlogList
