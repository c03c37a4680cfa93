import PolarDB.FlogList

/-!
# Every pushed buffer is logged once

Each buffer is in one phase at a time: outside, being pushed by one backend,
in the list, or claimed by one process. The phase fixes the flags of the
buffer, what its slot holds, whether it is linked, and where its owner
stands; every step moves one buffer to its next phase.

The worker breaks this. It takes the head without the content lock, so a buffer
may be taken out by a backend and pushed again between the look at the head and
the claim. It then claims an entry that is neither filled nor linked, or takes
the buffer at the head for one that was never in the list. `WorkerOk` keeps these
two moments apart; nothing else is needed (`flogList_sound`).
-/

namespace PolarDB.FlogList

open Function List Option

/-! ## Phases -/

inductive Proc where
  | backend (t : Nat)
  | worker
  deriving DecidableEq, Repr

inductive Phase where
  | out
  | pushing (t : Nat) (k : PushStage) (e : Entry)
  | linked (e : Entry)
  | claimed (who : Proc) (k : ProcStage) (e : Entry)
  deriving DecidableEq, Repr

def ProcStage.isLinked : ProcStage → Bool
  | .claimed | .read _ | .emptied _ => true
  | .unlinked _ | .detached _ | .logged => false

def ProcStage.life (e : Entry) : ProcStage → Life
  | .logged => .done
  | _ => .pushed e

def ProcStage.Reads (e : Entry) : ProcStage → Prop
  | .read e' | .emptied e' | .unlinked e' | .detached e' => e' = e
  | .claimed | .logged => True

def Phase.life : Phase → Life
  | .out => .out
  | .pushing _ _ e | .linked e => .pushed e
  | .claimed _ k e => k.life e

def Phase.inList : Phase → Bool
  | .out => false
  | _ => true

def Phase.inserting : Phase → Bool
  | .claimed _ _ _ => true
  | _ => false

def Phase.isLinked : Phase → Bool
  | .linked _ => true
  | .claimed _ k _ => k.isLinked
  | _ => false

def Entry.Ready (e : Entry) : Prop := e.info &&& flogListSlotReady ≠ 0

theorem Entry.ofPush_ready (redoLsn fbpointLsn : Nat) (isCandidate : Bool) :
    (Entry.ofPush redoLsn fbpointLsn isCandidate).Ready := by
  change (if isCandidate then 1 ||| 2 else 1) &&& 1 ≠ 0
  revert isCandidate
  decide

def Phase.SlotOk (slot : Entry) : Phase → Prop
  | .out => slot.info = 0
  | .pushing _ .flagged e => slot.info = 0 ∧ e.Ready
  | .pushing _ .redoLsn e => slot.info = 0 ∧ slot.redoLsn = e.redoLsn ∧ e.Ready
  | .pushing _ .fbpointLsn e =>
    slot.info = 0 ∧ slot.redoLsn = e.redoLsn ∧ slot.fbpointLsn = e.fbpointLsn ∧ e.Ready
  | .pushing _ .filled e | .linked e => slot = e ∧ e.Ready
  | .claimed _ .claimed e | .claimed _ (.read _) e => slot = e ∧ e.Ready
  | .claimed _ _ _ => slot.info = 0

structure Buf where
  history : List Event
  inList : Bool
  inserting : Bool
  linked : Bool
  slot : Entry

def State.buf (s : State) (b : Nat) : Buf :=
  ⟨s.history b, s.inList b, s.inserting b, s.linked b, s.slots b⟩

structure BufOk (x : Buf) (p : Phase) : Prop where
  life : exec Life.next .out x.history = some p.life
  inList : x.inList = p.inList
  inserting : x.inserting = p.inserting
  linked : x.linked = p.isLinked
  slot : p.SlotOk x.slot

inductive Task where
  | push (k : PushStage) (e : Entry)
  | process (k : ProcStage)
  deriving DecidableEq, Repr

def Phase.owner : Phase → Option (Proc × Task)
  | .pushing t k e => some (.backend t, .push k e)
  | .claimed who k _ => some (who, .process k)
  | .out | .linked _ => none

def Pc.task : Pc → Option (Nat × Task)
  | .push b e k => some (b, .push k e)
  | .process b _ k => some (b, .process k)
  | _ => none

def WorkerPc.task : WorkerPc → Option (Nat × Task)
  | .process b k => some (b, .process k)
  | _ => none

def State.task (s : State) : Proc → Option (Nat × Task)
  | .backend t => (s.backends t).task
  | .worker => s.worker.task

structure Data (s : State) (phase : Nat → Phase) (l : List Nat) : Prop where
  holds : s.links.Holds l
  mem : ∀ b, b ∈ l ↔ (phase b).isLinked = true
  buf : ∀ b, BufOk (s.buf b) (phase b)
  reads : ∀ b who k e, phase b = .claimed who k e → k.Reads e
  intact : s.broken = false

def Owners (s : State) (phase : Nat → Phase) : Prop :=
  ∀ who b task, s.task who = some (b, task) ↔ (phase b).owner = some (who, task)

variable {s s' : State} {phase : Nat → Phase} {l l' : List Nat} {b t : Nat} {p : Phase}
  {who : Proc}

/-! ## Frames -/

theorem Data.same (h : Data s phase l) (content : Nat → Content) (backends : Nat → Pc)
    (worker : WorkerPc) :
    Data { s with content := content, backends := backends, worker := worker } phase l :=
  ⟨h.holds, h.mem, h.buf, h.reads, h.intact⟩

theorem Data.move (h : Data s phase l) (hsame : ∀ b', b' ≠ b → s'.buf b' = s.buf b')
    (hb : BufOk (s'.buf b) p)
    (hreads : ∀ who k e, p = .claimed who k e → k.Reads e) (hholds : s'.links.Holds l')
    (hmem : ∀ b', b' ∈ l' ↔ if b' = b then p.isLinked = true else b' ∈ l)
    (hintact : s'.broken = false) : Data s' (update phase b p) l' where
  holds := hholds
  mem b' := by
    rw [hmem b', update_apply]
    split
    · rfl
    · exact h.mem b'
  buf := by
    refine (forall_update_iff phase fun b => BufOk (s'.buf b)).mpr ⟨hb, fun b' hbb => ?_⟩
    rw [hsame b' hbb]
    exact h.buf b'
  reads := (forall_update_iff phase fun _ p => ∀ who k e, p = .claimed who k e → k.Reads e).mpr
    ⟨hreads, fun b' _ => h.reads b'⟩
  intact := hintact

theorem Data.mem_same (h : Data s phase l) (hp : p.isLinked = (phase b).isLinked) (b' : Nat) :
    b' ∈ l ↔ if b' = b then p.isLinked = true else b' ∈ l := by
  by_cases hbb : b' = b
  · subst hbb
    rw [if_pos rfl, hp]
    exact h.mem b'
  · rw [if_neg hbb]

/-- One process goes on with the buffer it owns, begins or ends with it. -/
theorem Owners.move (h : Owners s phase) {task' : Option Task}
    (hother : ∀ who', who' ≠ who → s'.task who' = s.task who')
    (hnew : s'.task who = task'.map fun task => (b, task))
    (hold : s.task who = none ∨ ∃ task, s.task who = some (b, task))
    (hfree : ∀ who' task, (phase b).owner = some (who', task) → who' = who)
    (hp : p.owner = task'.map fun task => (who, task)) :
    Owners s' (update phase b p) := by
  intro who' b' task
  by_cases hbb : b' = b
  · subst hbb
    rw [update_self, hp]
    by_cases hw : who' = who
    · subst hw
      rw [hnew]
      cases task' <;> simp
    · rw [hother who' hw, h who' b' task]
      constructor
      · exact fun ho => absurd (hfree who' task ho) hw
      · intro ho
        obtain ⟨_, _, heq⟩ := map_eq_some_iff.mp ho
        exact absurd (congrArg Prod.fst heq).symm hw
  · rw [update_of_ne hbb]
    by_cases hw : who' = who
    · subst hw
      rw [hnew, ← h who' b' task]
      constructor
      · intro ho
        obtain ⟨_, _, heq⟩ := map_eq_some_iff.mp ho
        exact absurd (congrArg Prod.fst heq).symm hbb
      · intro ho
        rcases hold with hold | ⟨_, hold⟩
        · rw [hold] at ho
          cases ho
        · rw [hold] at ho
          exact absurd (congrArg Prod.fst (some.inj ho)).symm hbb
    · rw [hother who' hw]
      exact h who' b' task

/-! ## The memory at each step -/

variable {e : Entry} {k : PushStage} {pc : Pc} {phase' : Nat → Phase} {s1 : State}

theorem exec_note {ev : Event} {life life' : Life}
    (h : exec Life.next .out (s.history b) = some life) (hn : life.next ev = some life') :
    exec Life.next .out ((s.note b ev).history b) = some life' := by
  simp only [State.note, update_self]
  exact exec_snoc.mpr ⟨life, h, hn⟩

section

variable (h : Data s phase l)
include h

theorem Data.setInList (hp : phase b = .out) (he : e.Ready)
    (t : Nat) : Data ((s.setInList b).note b (.push e))
      (update phase b (.pushing t .flagged e)) l := by
  have hb := h.buf b
  rw [hp] at hb
  refine h.move (fun b' hbb => by simp [State.buf, State.note, State.setInList, hbb]) ?_ nofun
    h.holds (h.mem_same (by rw [hp]; rfl)) h.intact
  exact ⟨exec_note hb.life rfl, update_self _ _ _, hb.inserting, hb.linked, hb.slot, he⟩

def afterPush (t : Nat) (e : Entry) : Option PushStage → Phase
  | some k => .pushing t k e
  | none => .linked e

theorem Data.addBufToList (hp : phase b = .pushing t k e) : ∃ l', Data (addBufToList s b e k).1
      (update phase b (afterPush t e (addBufToList s b e k).2)) l' := by
  have hb := h.buf b
  rw [hp] at hb
  have hslot : Phase.SlotOk (s.slots b) _ := hb.slot
  have hlinked : b ∉ l := fun hc => by
    have := (h.mem b).mp hc
    rw [hp] at this
    cases this
  have hfill : ∀ e' k', (Phase.pushing t k' e).SlotOk e' →
      Data (s.setSlot b e') (update phase b (.pushing t k' e)) l := by
    intro e' k' hok
    refine h.move (fun b' hbb => by simp [State.buf, State.setSlot, hbb]) ?_ nofun h.holds
      (h.mem_same (by rw [hp]; rfl)) h.intact
    refine ⟨hb.life, hb.inList, hb.inserting, hb.linked, ?_⟩
    change Phase.SlotOk (update s.slots b e' b) _
    rwa [update_self]
  cases k with
  | flagged => exact ⟨l, hfill _ _ ⟨hslot.1, rfl, hslot.2⟩⟩
  | redoLsn => exact ⟨l, hfill _ _ ⟨hslot.1, hslot.2.1, rfl, hslot.2.2⟩⟩
  | fbpointLsn =>
    obtain ⟨h1, h2, h3, h4⟩ := hslot
    refine ⟨l, hfill _ _ ⟨?_, h4⟩⟩
    simp only [h1, h2, h3, Nat.zero_or]
  | filled =>
    refine ⟨l ++ [b], h.move (fun b' hbb => by simp [State.buf, FlogList.addBufToList, hbb]) ?_
      nofun (h.holds.addTail hlinked) (fun b' => ?_) h.intact⟩
    · exact ⟨hb.life, hb.inList, hb.inserting, update_self _ _ _, hslot⟩
    · rw [mem_append, mem_singleton]
      split
      · next hbb =>
        exact ⟨fun _ => rfl, fun _ => .inr hbb⟩
      · next hbb =>
        exact or_iff_left hbb

theorem Data.setInserting (hp : phase b = .linked e)
    (who : Proc) : Data (s.setInserting b) (update phase b (.claimed who .claimed e)) l := by
  have hb := h.buf b
  rw [hp] at hb
  refine h.move (fun b' hbb => by simp [State.buf, State.setInserting, hbb]) ?_ ?_ h.holds
    (h.mem_same (by rw [hp]; rfl)) h.intact
  · exact ⟨hb.life, hb.inList, update_self _ _ _, hb.linked, hb.slot⟩
  · intro who' k' e' heq
    cases heq
    exact trivial

def afterProcess (who : Proc) (e : Entry) : Option ProcStage → Phase
  | some k => .claimed who k e
  | none => .out

theorem Data.processBufFlogList {k : ProcStage}
    (hp : phase b = .claimed who k e) (invalidate : Bool) :
    ∃ l', Data (processBufFlogList s b invalidate k).1
      (update phase b (afterProcess who e (processBufFlogList s b invalidate k).2)) l' := by
  have hb := h.buf b
  rw [hp] at hb
  have hslot : Phase.SlotOk (s.slots b) _ := hb.slot
  have hreads := h.reads b who k e hp
  have hmem := h.mem b
  rw [hp] at hmem
  have hread : ∀ {k' : ProcStage}, k'.Reads e → ∀ who' k'' e', Phase.claimed who k' e =
      .claimed who' k'' e' → k''.Reads e' := by
    intro k' hk' who' k'' e' heq
    cases heq
    exact hk'
  cases k with
  | claimed =>
    obtain ⟨heq, hready⟩ := hslot
    refine ⟨l, h.move (fun _ _ => rfl) ?_ (hread heq) h.holds (h.mem_same (by rw [hp]; rfl)) ?_⟩
    · exact ⟨hb.life, hb.inList, hb.inserting, hb.linked, heq, hready⟩
    · have hne : (s.slots b).info &&& flogListSlotReady ≠ 0 := by
        rwa [heq]
      simp [FlogList.processBufFlogList, h.intact, hne]
  | read e' =>
    refine ⟨l, h.move
      (fun b' hbb => by simp [State.buf, State.setSlot, FlogList.processBufFlogList, hbb])
      ?_ (hread hreads) h.holds (h.mem_same (by rw [hp]; rfl)) h.intact⟩
    refine ⟨hb.life, hb.inList, hb.inserting, hb.linked, ?_⟩
    change (update s.slots b _ b).info = 0
    rw [update_self]
  | emptied e' =>
    obtain ⟨l1, l2, hl⟩ := append_of_mem (hmem.mpr rfl)
    subst hl
    have hnot := (nodup_cons.mp (nodup_middle.mp h.holds.nodup)).1
    have hstep : FlogList.processBufFlogList s b invalidate (.emptied e') =
        ({ s with links := s.links.without l1 l2, linked := update s.linked b false },
          some (.unlinked e')) := by
      simp only [FlogList.processBufFlogList, h.holds.unlink_eq]
    rw [hstep]
    refine ⟨l1 ++ l2, h.move (fun b' hbb => by simp [State.buf, hbb]) ?_
      (hread hreads) h.holds.without (fun b' => ?_) h.intact⟩
    · exact ⟨hb.life, hb.inList, hb.inserting, update_self _ _ _, hslot⟩
    · by_cases hbb : b' = b
      · subst hbb
        rw [if_pos rfl]
        exact ⟨fun hc => absurd hc hnot, nofun⟩
      · rw [if_neg hbb]
        simp [hbb]
  | unlinked e' =>
    refine ⟨l, h.move (fun _ _ => rfl) ?_ (hread hreads)
      (h.holds.detach fun hc => by cases hmem.mp hc) (h.mem_same (by rw [hp]; rfl)) h.intact⟩
    exact ⟨hb.life, hb.inList, hb.inserting, hb.linked, hslot⟩
  | detached e' =>
    have heq : e' = e := hreads
    subst heq
    refine ⟨l, h.move
      (fun b' hbb => by simp [State.buf, State.note, FlogList.processBufFlogList, hbb])
      ?_ (hread trivial) h.holds (h.mem_same (by rw [hp]; rfl)) h.intact⟩
    refine ⟨exec_note hb.life ?_, hb.inList, hb.inserting, hb.linked, hslot⟩
    cases invalidate with
    | true => rfl
    | false => exact if_pos rfl
  | logged =>
    refine ⟨l, h.move
      (fun b' hbb => by
        simp [State.buf, State.note, State.cleanFlags, FlogList.processBufFlogList, hbb])
      ?_ nofun h.holds (h.mem_same (by rw [hp]; rfl)) h.intact⟩
    exact ⟨exec_note hb.life rfl, update_self _ _ _, update_self _ _ _, hb.linked, hslot⟩

end

def LockOk (content : Nat → Content) (t : Nat) : Pc → Prop
  | .idle => True
  | .toPush b _ | .push b _ _ => content b = .exclusive t
  | .toFlush b _ | .toProcess b _ | .process b _ _ | .waiting b =>
    ∃ ts, content b = .shared ts ∧ t ∈ ts
  | .unlock b => content b = .exclusive t ∨ ∃ ts, content b = .shared ts ∧ t ∈ ts

theorem LockOk.update {content : Nat → Content} {c : Content} (h : LockOk content t pc)
    (hex : content b = .exclusive t → c = .exclusive t)
    (hsh : ∀ ts, content b = .shared ts → t ∈ ts → ∃ ts', c = .shared ts' ∧ t ∈ ts') :
    LockOk (Function.update content b c) t pc := by
  have hkeep : ∀ P : Content → Prop, (P (content b) → P c) →
      ∀ b', P (content b') → P (Function.update content b c b') := fun P hP =>
    (forall_update_iff content fun b' x => P (content b') → P x).mpr ⟨hP, fun _ _ => id⟩
  have hex' := hkeep (· = .exclusive t) hex
  have hsh' := hkeep (fun x => ∃ ts, x = .shared ts ∧ t ∈ ts) fun ⟨ts, hb, hts⟩ => hsh ts hb hts
  cases pc with
  | idle => exact h
  | toPush b' e | push b' e k => exact hex' b' h
  | toFlush b' inv | toProcess b' inv | process b' inv k | waiting b' => exact hsh' b' h
  | unlock b' => exact h.imp (hex' b') (hsh' b')

/-! ## The invariant -/

structure Inv (s : State) (phase : Nat → Phase) (l : List Nat) : Prop extends Data s phase l where
  owners : Owners s phase
  locks : ∀ t, LockOk s.content t (s.backends t)
  ready : ∀ t b e, s.backends t = .toPush b e → e.Ready
  failed : ∀ b n, s.worker = .failed b n →
    n ≤ (s.history b).length ∧ ((s.history b).length = n → phase b = .out)
  calm : s.panicked = false

theorem inv_init : Inv State.init (fun _ => .out) [] where
  holds := Links.holds_init
  mem _ := ⟨fun h => absurd h not_mem_nil, nofun⟩
  buf _ := ⟨rfl, rfl, rfl, rfl, rfl⟩
  reads := nofun
  intact := rfl
  owners who b task := ⟨fun h => (by cases who <;> cases h), nofun⟩
  locks _ := trivial
  ready := nofun
  failed := nofun
  calm := rfl

def Moves (s s' : State) (phase phase' : Nat → Phase) : Prop :=
  ∀ b, (s.history b).length < (s'.history b).length ∨
    (s'.history b = s.history b ∧ (phase b = .out → phase' b = .out))

theorem Inv.failed_move (h : Inv s phase l) (hm : Moves s s' phase phase')
    (hw : s'.worker = s.worker) {b n : Nat} (hf : s'.worker = .failed b n) :
    n ≤ (s'.history b).length ∧ ((s'.history b).length = n → phase' b = .out) := by
  obtain ⟨hle, hout⟩ := h.failed b n (hw ▸ hf)
  rcases hm b with hlt | ⟨heq, hp⟩
  · exact ⟨by omega, fun hc => by omega⟩
  · rw [heq]
    exact ⟨hle, fun hc => hp (hout hc)⟩

theorem Inv.backend (h : Inv s phase l) (hd : Data s' phase' l')
    (hpcs : s'.backends = update s.backends t pc) (hw : s'.worker = s.worker)
    (hpanic : s'.panicked = s.panicked) (hown : Owners s' phase') (hlock : LockOk s'.content t pc)
    (hlocks : ∀ t', t' ≠ t → LockOk s'.content t' (s.backends t'))
    (hready : ∀ b e, pc = .toPush b e → e.Ready) (hm : Moves s s' phase phase') :
    Inv s' phase' l' where
  toData := hd
  owners := hown
  locks := by
    rw [hpcs]
    exact (forall_update_iff s.backends (LockOk s'.content)).mpr ⟨hlock, hlocks⟩
  ready := by
    rw [hpcs]
    exact (forall_update_iff s.backends fun _ pc => ∀ b e, pc = .toPush b e → e.Ready).mpr
      ⟨hready, fun t' _ => h.ready t'⟩
  failed _ _ hf := h.failed_move hm hw hf
  calm := hpanic.trans h.calm

theorem task_update (hpcs : s'.backends = update s.backends t pc)
    (hw : s'.worker = s.worker) {who : Proc} (hne : who ≠ .backend t) :
    s'.task who = s.task who := by
  cases who with
  | worker => exact congrArg WorkerPc.task hw
  | backend t' =>
    have htt : t' ≠ t := fun hc => hne (congrArg Proc.backend hc)
    simp only [State.task, hpcs, update_of_ne htt]

theorem Owners.same (h : Owners s phase) (hsame : ∀ who, s'.task who = s.task who) :
    Owners s' phase := fun who b task => by
  rw [hsame who]
  exact h who b task

theorem task_backend (s : State) (t : Nat) : s.task (.backend t) = (s.backends t).task := rfl

theorem task_setPc (hpcs : s'.backends = update s.backends t pc) :
    s'.task (.backend t) = pc.task := by
  simp only [State.task, hpcs, update_self]

section

variable (h : Inv s phase l)
include h

section

variable {pc0 : Pc} (hpc0 : s.backends t = pc0) (hnone : pc0.task = none) (hpc : pc.task = none)
include hpc0 hnone hpc

theorem Inv.walk (hpcs : s'.backends = update s.backends t pc) (hd : Data s' phase l)
    (hw : s'.worker = s.worker) (hpanic : s'.panicked = s.panicked) (hh : s'.history = s.history)
    (hlock : LockOk s'.content t pc) (hlocks : ∀ t', t' ≠ t → LockOk s'.content t' (s.backends t'))
    (hready : ∀ b e, pc = .toPush b e → e.Ready) : Inv s' phase l := by
  refine h.backend hd hpcs hw hpanic (h.owners.same fun who => ?_) hlock hlocks hready
    fun b => .inr ⟨by rw [hh], id⟩
  by_cases hwho : who = .backend t
  · rw [hwho, task_setPc hpcs, hpc, task_backend, hpc0, hnone]
  · exact task_update hpcs hw hwho

theorem Inv.setPc (hlock : LockOk s.content t pc)
    (hready : ∀ b e, pc = .toPush b e → e.Ready) : Inv (s.setPc t pc) phase l :=
  h.walk hpc0 hnone hpc rfl (h.toData.same _ _ _) rfl rfl rfl hlock (fun t' _ => h.locks t') hready

end

/-! ## The steps of a backend -/

theorem Inv.startPush (hpc : s.backends t = .idle) (hc : s.content b = .shared []) (he : e.Ready) :
    Inv ((s.setContent b (.exclusive t)).setPc t (.toPush b e)) phase l := by
  refine h.walk hpc rfl rfl rfl (h.toData.same _ _ _) rfl rfl rfl
    (update_self _ _ _) (fun t' _ => (h.locks t').update ?_ ?_) ?_
  · intro hex
    rw [hc] at hex
    cases hex
  · intro ts hts hmem
    rw [hc] at hts
    cases hts
    exact absurd hmem not_mem_nil
  · intro b' e' heq
    cases heq
    exact he

theorem Inv.startFlush {ts : List Nat} (hpc : s.backends t = .idle)
    (hc : s.content b = .shared ts) (invalidate : Bool) :
    Inv ((s.setContent b (.shared (t :: ts))).setPc t (.toFlush b invalidate)) phase l := by
  refine h.walk hpc rfl rfl rfl (h.toData.same _ _ _) rfl rfl rfl
    ⟨t :: ts, update_self _ _ _, mem_cons_self⟩
    (fun t' _ => (h.locks t').update ?_ ?_) nofun
  · intro hex
    rw [hc] at hex
    cases hex
  · intro ts' hts hmem
    rw [hc] at hts
    cases hts
    exact ⟨_, rfl, mem_cons_of_mem _ hmem⟩

theorem Inv.unlock (hpc : s.backends t = .unlock b) :
    Inv ((s.release t b).setPc t .idle) phase l := by
  have hlock := h.locks t
  rw [hpc] at hlock
  have hrel : ∃ c, s.release t b = s.setContent b c ∧ ∀ t', t' ≠ t →
      (s.content b = .exclusive t' → c = .exclusive t') ∧
        ∀ ts, s.content b = .shared ts → t' ∈ ts → ∃ ts', c = .shared ts' ∧ t' ∈ ts' := by
    unfold State.release
    rcases hlock with hex | ⟨ts, hsh, _⟩
    · rw [hex]
      refine ⟨_, rfl, fun t' htt => ⟨fun hc => ?_, nofun⟩⟩
      cases hc
      exact absurd rfl htt
    · rw [hsh]
      refine ⟨_, rfl, fun t' htt => ⟨nofun, fun ts' hc hmem => ?_⟩⟩
      cases hc
      exact ⟨_, rfl, (mem_erase_of_ne htt).mpr hmem⟩
  obtain ⟨c, heq, hkeep⟩ := hrel
  rw [heq]
  exact h.walk hpc rfl rfl rfl (h.toData.same _ _ _) rfl rfl rfl
    trivial (fun t' htt => (h.locks t').update (hkeep t' htt).1 (hkeep t' htt).2)
    nofun

structure Frame (s s1 : State) : Prop where
  backends : s1.backends = s.backends
  worker : s1.worker = s.worker
  panicked : s1.panicked = s.panicked
  content : s1.content = s.content
  history : ∀ b, s1.history b = s.history b ∨ (s.history b).length < (s1.history b).length

def State.Mine (s : State) (phase : Nat → Phase) (who : Proc) (b : Nat) : Prop :=
  s.task who = none ∧ (phase b).owner = none ∨ ∃ task, s.task who = some (b, task)

theorem Inv.mine (hmine : s.Mine phase who b) :
    (s.task who = none ∨ ∃ task, s.task who = some (b, task)) ∧
      ∀ who' task, (phase b).owner = some (who', task) → who' = who := by
  rcases hmine with ⟨hnone, hfree⟩ | ⟨task, htask⟩
  · refine ⟨.inl hnone, fun who' task ho => ?_⟩
    rw [hfree] at ho
    cases ho
  · refine ⟨.inr ⟨task, htask⟩, fun who' task' ho => ?_⟩
    rw [(h.owners who b task).mp htask] at ho
    cases ho
    rfl

theorem Inv.own (task' : Option Task) (hd : Data s1 (update phase b p) l') (hf : Frame s s1)
    (hmine : s.Mine phase (.backend t) b) (hpc : pc.task = task'.map fun task => (b, task))
    (hp : p.owner = task'.map fun task => (.backend t, task)) (hlock : LockOk s.content t pc)
    (hready : ∀ b e, pc ≠ .toPush b e)
    (hout : phase b = .out → (s.history b).length < (s1.history b).length) :
    Inv (s1.setPc t pc) (update phase b p) l' := by
  obtain ⟨hold, hfree⟩ := h.mine hmine
  have hpcs : (s1.setPc t pc).backends = update s.backends t pc := by
    rw [State.setPc, hf.backends]
  refine h.backend (hd.same _ _ _) hpcs hf.worker hf.panicked
    (h.owners.move (fun who' hne => task_update hpcs hf.worker hne) ?_ hold hfree hp)
    (hf.content ▸ hlock) (fun t' _ => hf.content ▸ h.locks t')
    (fun b e heq => absurd heq (hready b e)) fun b' => ?_
  · rw [task_setPc hpcs, hpc]
  · rcases hf.history b' with heq | hlt
    · by_cases hbb : b' = b
      · subst hbb
        exact (em (phase b' = .out)).imp hout fun hne => ⟨heq, fun hc => absurd hc hne⟩
      · exact .inr ⟨heq, fun hc => (update_of_ne hbb _ _).trans hc⟩
    · exact .inl hlt

end

theorem Data.eq_out (h : Data s phase l) (hb : s.inList b = false) : phase b = .out := by
  have hin := hb.symm.trans (h.buf b).inList
  cases hp : phase b with
  | out => rfl
  | _ => rw [hp] at hin; cases hin

theorem Data.not_inserting (h : Data s phase l) (hb : s.inList b = true)
    (hi : s.inserting b = false) :
    (∃ e, phase b = .linked e) ∨ ∃ t k e, phase b = .pushing t k e := by
  have hin := hb.symm.trans (h.buf b).inList
  have hins := hi.symm.trans (h.buf b).inserting
  cases hp : phase b with
  | out => rw [hp] at hin; cases hin
  | pushing t k e => exact .inr ⟨t, k, e, rfl⟩
  | linked e => exact .inl ⟨e, rfl⟩
  | claimed who k e => rw [hp] at hins; cases hins

/-- While a backend holds the content lock shared nobody pushes the buffer. -/
theorem Inv.not_pushing (h : Inv s phase l) {ts : List Nat} (hc : s.content b = .shared ts)
    {t' : Nat} : phase b ≠ .pushing t' k e := by
  intro hp
  have htask : s.task (.backend t') = some (b, .push k e) := (h.owners _ _ _).mpr (by rw [hp]; rfl)
  have hlock := h.locks t'
  cases hpc : s.backends t' with
  | push b' e' k' =>
    rw [task_backend, hpc] at htask
    cases htask
    rw [hpc] at hlock
    have hex : s.content b = .exclusive t' := hlock
    rw [hc] at hex
    cases hex
  | _ =>
    rw [task_backend, hpc] at htask
    cases htask

theorem addBufToList_frame (s : State) (b : Nat) (e : Entry) (k : PushStage) :
    Frame s (addBufToList s b e k).1 := by
  cases k <;> exact ⟨rfl, rfl, rfl, rfl, fun _ => .inl rfl⟩

theorem note_history (s : State) (b : Nat) (ev : Event) (b' : Nat) :
    (s.note b ev).history b' = s.history b' ∨
      (s.history b').length < ((s.note b ev).history b').length := by
  unfold State.note
  by_cases hbb : b' = b
  · subst hbb
    simp
  · exact .inl (update_of_ne hbb _ _)

theorem processBufFlogList_frame (s : State) (b : Nat) (invalidate : Bool) (k : ProcStage) :
    Frame s (processBufFlogList s b invalidate k).1 := by
  cases k with
  | claimed | read e | unlinked e => exact ⟨rfl, rfl, rfl, rfl, fun _ => .inl rfl⟩
  | emptied e =>
    unfold processBufFlogList
    simp only
    split <;> exact ⟨rfl, rfl, rfl, rfl, fun _ => .inl rfl⟩
  | detached e => exact ⟨rfl, rfl, rfl, rfl, note_history s b _⟩
  | logged => exact ⟨rfl, rfl, rfl, rfl, note_history (s.cleanFlags b) b _⟩

theorem Phase.eq_pushing (h : p.owner = some (.backend t, .push k e)) : p = .pushing t k e := by
  cases p with
  | pushing t' k' e' => cases h; rfl
  | _ => cases h

theorem Phase.eq_claimed {k : ProcStage} (h : p.owner = some (who, .process k)) :
    ∃ e, p = .claimed who k e := by
  cases p with
  | claimed who' k' e' => cases h; exact ⟨e', rfl⟩
  | _ => cases h

section

variable (h : Inv s phase l)
include h

theorem Inv.push (hpc : s.backends t = .push b e k) (hs : runBackend s t = some s') :
    ∃ phase' l', Inv s' phase' l' := by
  have htask : s.task (.backend t) = some (b, .push k e) := by
    rw [task_backend, hpc]
    rfl
  have hp := Phase.eq_pushing ((h.owners _ _ _).mp htask)
  have hlock := h.locks t
  rw [hpc] at hlock
  obtain ⟨l', hd⟩ := h.toData.addBufToList hp
  have hf := addBufToList_frame s b e k
  have hne : phase b ≠ .out := fun hc => by rw [hp] at hc; cases hc
  simp only [runBackend, hpc] at hs
  cases hnext : addBufToList s b e k with
  | mk s1 next =>
    rw [hnext] at hs hd hf
    cases next with
    | some k' =>
      cases hs
      exact ⟨_, l', h.own (some (.push k' e)) hd hf (.inr ⟨_, htask⟩) rfl rfl hlock nofun
        fun hc => absurd hc hne⟩
    | none =>
      cases hs
      exact ⟨_, l', h.own none hd hf (.inr ⟨_, htask⟩) rfl rfl (.inl hlock) nofun
        fun hc => absurd hc hne⟩

theorem Inv.process {invalidate : Bool} {k : ProcStage}
    (hpc : s.backends t = .process b invalidate k) (hs : runBackend s t = some s') :
    ∃ phase' l', Inv s' phase' l' := by
  have htask : s.task (.backend t) = some (b, .process k) := by
    rw [task_backend, hpc]
    rfl
  obtain ⟨e, hp⟩ := Phase.eq_claimed ((h.owners _ _ _).mp htask)
  have hlock := h.locks t
  rw [hpc] at hlock
  obtain ⟨l', hd⟩ := h.toData.processBufFlogList hp invalidate
  have hf := processBufFlogList_frame s b invalidate k
  have hne : phase b ≠ .out := fun hc => by rw [hp] at hc; cases hc
  simp only [runBackend, hpc] at hs
  cases hnext : processBufFlogList s b invalidate k with
  | mk s1 next =>
    rw [hnext] at hs hd hf
    cases next with
    | some k' =>
      cases hs
      exact ⟨_, l', h.own (some (.process k')) hd hf (.inr ⟨_, htask⟩) rfl rfl hlock nofun
        fun hc => absurd hc hne⟩
    | none =>
      cases hs
      exact ⟨_, l', h.own none hd hf (.inr ⟨_, htask⟩) rfl rfl (.inr hlock) nofun
        fun hc => absurd hc hne⟩

theorem Inv.runBackend (hs : runBackend s t = some s') : ∃ phase' l', Inv s' phase' l' := by
  unfold FlogList.runBackend at hs
  have hlock := h.locks t
  cases hpc : s.backends t with
  | idle =>
    simp only [hpc] at hs
    cases hs
  | toPush b e =>
    rw [hpc] at hlock
    simp only [hpc] at hs
    split at hs
    · cases hs
      exact ⟨phase, l, h.setPc hpc rfl rfl (.inl hlock) nofun⟩
    · rename_i hin
      cases hs
      have hout := h.toData.eq_out (Bool.eq_false_iff.mpr hin)
      refine ⟨_, l, h.own (some (.push .flagged e)) (h.toData.setInList hout (h.ready t b e hpc) t)
        ⟨rfl, rfl, rfl, rfl, note_history (s.setInList b) b _⟩
        (.inl ⟨by rw [task_backend, hpc]; rfl, by rw [hout]; rfl⟩) rfl rfl hlock nofun fun _ => ?_⟩
      simp [State.note, State.setInList]
  | push b e k => exact h.push hpc hs
  | toFlush b invalidate =>
    rw [hpc] at hlock
    simp only [hpc] at hs
    split at hs <;> cases hs
    · exact ⟨phase, l, h.setPc hpc rfl rfl hlock nofun⟩
    · exact ⟨phase, l, h.setPc hpc rfl rfl (.inr hlock) nofun⟩
  | toProcess b invalidate =>
    rw [hpc] at hlock
    simp only [hpc] at hs
    split at hs
    · cases hs
      exact ⟨phase, l, h.setPc hpc rfl rfl hlock nofun⟩
    · rename_i hins
      split at hs
      · rename_i hin
        cases hs
        obtain ⟨ts, hsh, hmem⟩ := hlock
        rcases h.toData.not_inserting hin (Bool.eq_false_iff.mpr hins) with ⟨e, hp⟩ | ⟨t', k, e, hp⟩
        · have hne : phase b ≠ .out := fun hc => by rw [hp] at hc; cases hc
          exact ⟨_, l, h.own (some (.process .claimed)) (h.toData.setInserting hp (.backend t))
            ⟨rfl, rfl, rfl, rfl, fun _ => .inl rfl⟩
            (.inl ⟨by rw [task_backend, hpc]; rfl, by rw [hp]; rfl⟩) rfl rfl ⟨ts, hsh, hmem⟩ nofun
            fun hc => absurd hc hne⟩
        · exact absurd hp (h.not_pushing hsh)
      · cases hs
        exact ⟨phase, l, h.setPc hpc rfl rfl (.inr hlock) nofun⟩
  | process b invalidate k => exact h.process hpc hs
  | waiting b =>
    rw [hpc] at hlock
    simp only [hpc] at hs
    split at hs <;> cases hs
    exact ⟨phase, l, h.setPc hpc rfl rfl (.inr hlock) nofun⟩
  | unlock b =>
    simp only [hpc] at hs
    cases hs
    exact ⟨phase, l, h.unlock hpc⟩

/-! ## The steps of the worker -/

/-- The worker goes on; the buffer it deals with may move to another phase. -/
theorem Inv.worker (hd : Data s' phase' l')
    (hb : s'.backends = s.backends) (hc : s'.content = s.content) (hpanic : s'.panicked = false)
    (hown : Owners s' phase')
    (hfailed : ∀ b n, s'.worker = .failed b n →
      n ≤ (s'.history b).length ∧ ((s'.history b).length = n → phase' b = .out)) :
    Inv s' phase' l' where
  toData := hd
  owners := hown
  locks t := by
    rw [hb, hc]
    exact h.locks t
  ready t b e hpc := h.ready t b e (hb ▸ hpc)
  failed := hfailed
  calm := hpanic

end

theorem task_worker (hb : s'.backends = s.backends) {who : Proc} (hne : who ≠ .worker) :
    s'.task who = s.task who := by
  cases who with
  | worker => exact absurd rfl hne
  | backend t => rw [task_backend, task_backend, hb]

section

variable (h : Inv s phase l)
include h

theorem Inv.look {pc0 pc : WorkerPc} (hw : s.worker = pc0) (hnone : pc0.task = none)
    (hpc : pc.task = none) (hfailed : ∀ b n, pc = .failed b n →
      n ≤ (s.history b).length ∧ ((s.history b).length = n → phase b = .out)) :
    Inv { s with worker := pc } phase l := by
  refine h.worker (h.toData.same _ _ _) rfl rfl h.calm (h.owners.same fun who => ?_) hfailed
  by_cases hwho : who = .worker
  · subst hwho
    exact hpc.trans (hnone.symm.trans (congrArg WorkerPc.task hw.symm))
  · have hb : State.backends { s with worker := pc } = s.backends := rfl
    exact task_worker hb hwho

theorem Inv.workerOwn {pc : WorkerPc} (task' : Option Task)
    (hd : Data s1 (update phase b p) l') (hf : Frame s s1) (hmine : s.Mine phase .worker b)
    (hpc : pc.task = task'.map fun task => (b, task))
    (hp : p.owner = task'.map fun task => (.worker, task)) (hne : ∀ b n, pc ≠ .failed b n) :
    Inv { s1 with worker := pc } (update phase b p) l' := by
  refine h.worker (hd.same _ _ _) hf.backends hf.content (hf.panicked.trans h.calm) ?_
    fun b n heq => absurd heq (hne b n)
  obtain ⟨hold, hfree⟩ := h.mine hmine
  have hb' : State.backends { s1 with worker := pc } = s.backends := hf.backends
  exact h.owners.move (fun who' hne => task_worker hb' hne) hpc hold hfree hp

theorem Inv.work (hok : WorkerOk s s.worker) : ∃ phase' l', Inv (runWorker s) phase' l' := by
  unfold runWorker
  cases hw : s.worker with
  | idle =>
    simp only
    split
    · exact ⟨phase, l, h⟩
    · exact ⟨phase, l, h.look hw rfl rfl nofun⟩
  | gotHead b =>
    rw [hw] at hok
    simp only
    split
    · exact ⟨phase, l, h.look hw rfl rfl nofun⟩
    · rename_i hins
      split
      · rename_i hin
        have hlinked := ((hok hin).resolve_left hins).symm.trans (h.buf b).linked
        rcases h.toData.not_inserting hin (Bool.eq_false_iff.mpr hins) with ⟨e, hp⟩ | ⟨t', k, e, hp⟩
        · exact ⟨_, l, h.workerOwn (some (.process .claimed)) (h.toData.setInserting hp .worker)
            ⟨rfl, rfl, rfl, rfl, fun _ => .inl rfl⟩
              (.inl ⟨congrArg WorkerPc.task hw, by rw [hp]; rfl⟩) rfl rfl nofun⟩
        · rw [hp] at hlinked
          cases hlinked
      · rename_i hin
        refine ⟨phase, l, h.look hw rfl rfl fun b' n heq => ?_⟩
        cases heq
        exact ⟨Nat.le_refl _, fun _ => h.toData.eq_out (Bool.eq_false_iff.mpr hin)⟩
  | process b k =>
    simp only
    have htask : s.task .worker = some (b, .process k) := congrArg WorkerPc.task hw
    obtain ⟨e, hp⟩ := Phase.eq_claimed ((h.owners _ _ _).mp htask)
    obtain ⟨l', hd⟩ := h.toData.processBufFlogList hp false
    have hf := processBufFlogList_frame s b false k
    cases hnext : processBufFlogList s b false k with
    | mk s1 next =>
      rw [hnext] at hd hf
      cases next with
      | some k' =>
        exact ⟨_, l', h.workerOwn (some (.process k')) hd hf (.inr ⟨_, htask⟩) rfl rfl nofun⟩
      | none => exact ⟨_, l', h.workerOwn none hd hf (.inr ⟨_, htask⟩) rfl rfl nofun⟩
  | failed b n =>
    rw [hw] at hok
    simp only
    have hout := (h.failed b n hw).2 hok
    have hhead : s.links.head ≠ some b := fun hc => by
      have := (h.mem b).mp (h.holds.mem_of_head hc)
      rw [hout] at this
      cases this
    rw [if_neg hhead]
    exact ⟨phase, l, h.look hw rfl rfl nofun⟩

/-! ## The result -/

/-- Some process has claimed the buffer and has yet to read its entry, or
has read it and has yet to unlink it. -/
def State.Uses (s : State) (b : Nat) (k : ProcStage) : Prop :=
  k.isLinked = true ∧ ((∃ t invalidate, s.backends t = .process b invalidate k) ∨
    s.worker = .process b k)

structure Sound (s : State) : Prop where
  /-- the list is one list forwards and backwards, over the linked buffers -/
  list : ∃ l, s.links.Holds l ∧ ∀ b, b ∈ l ↔ s.linked b = true
  /-- a buffer is logged or dropped once between two pushes, with the entry
  pushed, and its flags are cleared then -/
  history : ∀ b, ∃ life, exec Life.next .out (s.history b) = some life ∧
    (s.inList b = false ↔ life = .out)
  /-- an entry that is read or unlinked is linked, and complete until it is
  emptied -/
  uses : ∀ b k, s.Uses b k → s.linked b = true ∧
    ∃ e, exec Life.next .out (s.history b) = some (.pushed e) ∧ k.Reads e ∧
      (k = .claimed → s.slots b = e)
  intact : s.broken = false
  calm : s.panicked = false

theorem Inv.sound : Sound s where
  list := ⟨l, h.holds, fun b => by rw [h.mem b, ← (h.buf b).linked]; rfl⟩
  history b := by
    refine ⟨_, (h.buf b).life, ?_⟩
    rw [show s.inList b = _ from (h.buf b).inList]
    cases phase b with
    | out => exact ⟨fun _ => rfl, fun _ => rfl⟩
    | pushing t k e | linked e => exact ⟨nofun, nofun⟩
    | claimed who k e =>
      refine ⟨nofun, fun hc => ?_⟩
      cases k <;> cases hc
  uses b k huse := by
    obtain ⟨hk, huse⟩ := huse
    have htask : ∃ who, s.task who = some (b, .process k) := by
      rcases huse with ⟨t, invalidate, hpc⟩ | hpc
      · exact ⟨.backend t, by rw [task_backend, hpc]; rfl⟩
      · exact ⟨.worker, congrArg WorkerPc.task hpc⟩
    obtain ⟨who, htask⟩ := htask
    obtain ⟨e, hp⟩ := Phase.eq_claimed ((h.owners _ _ _).mp htask)
    have hb := h.buf b
    rw [hp] at hb
    refine ⟨hb.linked.trans hk, e, hb.life.trans ?_, h.reads b who k e hp, fun hkc => ?_⟩
    · cases k <;> first | rfl | cases hk
    · subst hkc
      exact hb.slot.1
  intact := h.intact
  calm := h.calm

theorem inv_step {a : Action} (hok : StepOk s a) (hs : step s a = some s') :
    ∃ phase' l', Inv s' phase' l' := by
  cases a with
  | startPush t b redoLsn fbpointLsn isCandidate =>
    simp only [step, ite_none_right_eq_some, some.injEq] at hs
    obtain ⟨⟨hpc, hc⟩, rfl⟩ := hs
    exact ⟨phase, l, h.startPush hpc hc (Entry.ofPush_ready _ _ _)⟩
  | startFlush t b invalidate =>
    simp only [step] at hs
    split at hs
    · rename_i hpc hc
      cases hs
      exact ⟨phase, l, h.startFlush hpc hc invalidate⟩
    · cases hs
  | run t => exact h.runBackend hs
  | timeout t =>
    simp only [step] at hs
    split at hs
    · rename_i b hpc
      cases hs
      have hlock := h.locks t
      rw [hpc] at hlock
      exact ⟨phase, l, h.setPc hpc rfl rfl (.inr hlock) nofun⟩
    · cases hs
  | work =>
    cases hs
    exact h.work hok

end

/-- In every run in which the worker claims no buffer that is being pushed,
and does not look for a buffer at the head that was pushed since it missed
it: every pushed buffer is logged or dropped once, no entry is used before
it is filled and linked, the list is one list over the linked buffers, and
the worker does not PANIC. -/
theorem flogList_sound (as : List Action) (s : State) (hm : Meets step StepOk State.init as)
    (hs : exec step State.init as = some s) : Sound s := by
  obtain ⟨phase, l, h⟩ : ∃ phase l, Inv s phase l :=
    exec_invariant_of_meets (fun _ s => ∃ phase l, Inv s phase l)
      (fun _ _ _ _ ⟨_, _, h⟩ hok hstep => inv_step h hok hstep) ⟨_, _, inv_init⟩ hm hs
  exact h.sound

def pushRun (t b : Nat) : List Action :=
  .startPush t b 100 50 false :: List.replicate 6 (.run t)

/-- Backend `t` flushes buffer `b`, which is in the list and not claimed. -/
def flushRun (t b : Nat) : List Action :=
  .startFlush t b false :: List.replicate 9 (.run t)

/-- Two buffers are pushed; the worker logs one of them, a backend the
other one while the worker is at it. -/
def workAndFlush : List Action :=
  pushRun 0 0 ++ pushRun 1 1 ++ [.work, .work, .work] ++ flushRun 2 1 ++ List.replicate 6 .work

theorem flogList_sound_workAndFlush :
    ∃ s, exec step State.init workAndFlush = some s ∧ s.links.head = none ∧
      s.history 0 = [.push ⟨100, 50, 1⟩, .insert ⟨100, 50, 1⟩, .clear] ∧ Sound s := by
  refine exec_eval (E := fun s => s.links.head = none ∧
    s.history 0 = [.push ⟨100, 50, 1⟩, .insert ⟨100, 50, 1⟩, .clear]) (by decide)
    fun s hs ⟨hhead, hhist⟩ => ?_
  exact ⟨hhead, hhist, flogList_sound workAndFlush s (by decide) hs⟩

/-- The worker sees buffer 0 at the head, a backend logs it, and another one
begins to push it again: the worker reads an entry that is not filled. -/
def claimPushed : List Action :=
  pushRun 0 0 ++ [.work] ++ flushRun 1 0 ++ [.startPush 0 0 200 50 false, .run 0, .work, .work]

/-- The worker sees buffer 0 at the head, a backend logs it, the worker finds
that it is not in the list, and it is pushed again. -/
def missPushed : List Action :=
  pushRun 0 0 ++ [.work] ++ flushRun 1 0 ++ [.work] ++ pushRun 0 0 ++ [.work]

theorem flogList_broken :
    (exec step State.init claimPushed).map (fun s => (s.broken, s.worker, s.linked 0)) =
        some (true, .process 0 (.read ⟨0, 50, 0⟩), false) ∧
      (exec step State.init missPushed).map State.panicked = some true := by
  decide

end PolarDB.FlogList
