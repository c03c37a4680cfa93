import Mathlib.Order.Nat
import PolarDB.Basic
import PolarDB.BgReplay

/-!
# The background position never passes an unreplayed page

A worker is through with an entry if the page is beyond the record, the primary
has flushed it, or the block is gone. An entry that was dispatched is handled so
or still in the running queue, which is in the order of the logindex. So if
its first task is for the record of a worker's own task, everything before that
record is handled, and stays so until the worker has moved the position.

The dispatcher's own value is the end of what was replayed, read before it
looked for an entry. If it found none, all were dispatched; if it kept one back,
that is for a record whose start is not published, and so not before the value
that was read.
-/

namespace PolarDB.BgReplay

open Function List Option

variable {Tag : Type} {s s' : State Tag} {st : Start Tag} {t : Task Tag}

variable {backendMinLsn i x : Nat} {e : Entry Tag} {accept : Bool}

theorem map_set_of_eq {α β : Type} {f : α → β} {l : List α} {x y : α} (h : l[i]? = some x)
    (hf : f y = f x) : (l.set i y).map f = l.map f := by
  obtain ⟨hi, rfl⟩ := List.getElem?_eq_some_iff.mp h
  rw [map_set, hf, ← getElem_map f, set_getElem_self]
  rwa [length_map]

variable {α : Type}

theorem eq_or_mem_eraseIdx {l : List α} {x y : α} (h : l[i]? = some x)
    (hy : y ∈ l) : y = x ∨ y ∈ l.eraseIdx i := by
  obtain ⟨j, hj⟩ := mem_iff_getElem?.mp hy
  by_cases hji : j = i
  · subst hji
    exact .inl (some.inj (hj.symm.trans h))
  · exact .inr (mem_eraseIdx_iff_getElem?.mpr ⟨j, hji, hj⟩)

/-! ## A handled entry -/

/-- A worker left the page at a position beyond the record, or the primary had
flushed the record, or the block was not there any more. -/
def Entry.Handled (e : Entry Tag) (r : Report) : Prop :=
  (∃ buf, r.buffer = some buf ∧ (e.lsn < buf.pageLsn ∨ buf.redoState.invalidate = true))
    ∨ e.lsn < r.primaryConsistPtr ∨ r.relBlockValid = false

def State.Handled (s : State Tag) (i : Nat) : Prop :=
  ∃ e r, s.entries[i]? = some e ∧ s.report i = some r ∧ e.Handled r

def Status.IsHandled : Status → Prop
  | .handled | .first | .finished => True
  | _ => False

theorem bufferNeedReplay_handled {srv : Server Tag} {buf : Buffer}
    (hbuf : srv.pool e.tag = some buf)
    (h : bufferNeedReplay srv buf e = .isReplayed ∨ bufferNeedReplay srv buf e = .isTruncated) :
    e.Handled (srv.report e) := by
  unfold bufferNeedReplay at h
  split at h
  · next hinv => exact .inl ⟨buf, hbuf, .inr hinv⟩
  · split at h
    · cases h <;> contradiction
    · split at h
      · split at h
        · cases h <;> contradiction
        · next hvalid => exact .inr (.inr (eq_false_of_ne_true hvalid))
      · split at h
        · next hlsn => exact .inl ⟨buf, hbuf, .inl hlsn.2⟩
        · cases h <;> contradiction

theorem lt_applyReadRecord {buf : Buffer} (h : e.lsn < e.endPtr) :
    e.lsn < (applyReadRecord e buf).pageLsn := by
  unfold applyReadRecord applyOneRecord
  split
  · split
    · omega
    · exact h
  · omega

/-! ## The invariant -/

/-- The startup process: entries are for records that are published, or for the
one that is being added, which starts behind them. -/
def StartupOk (s : State Tag) : Startup Tag → Prop
  | .idle => s.lastReplayedReadPtr < s.lastReplayedEndRecPtr
      ∧ ∀ e ∈ s.entries, e.lsn ≤ s.lastReplayedReadPtr
  | .adding lsn endPtr _ | .setRead lsn endPtr =>
    s.lastReplayedReadPtr < s.lastReplayedEndRecPtr ∧ s.lastReplayedEndRecPtr ≤ lsn ∧ lsn < endPtr
      ∧ ∀ e ∈ s.entries, e.lsn ≤ s.lastReplayedReadPtr ∨ e.lsn = lsn
  | .setEnd endPtr => s.lastReplayedEndRecPtr ≤ s.lastReplayedReadPtr
      ∧ s.lastReplayedReadPtr < endPtr ∧ ∀ e ∈ s.entries, e.lsn ≤ s.lastReplayedReadPtr

def State.dispatched (s : State Tag) : Nat :=
  match s.replayPage with
  | none => s.iter
  | some p => p.1

def State.AllDispatched (s : State Tag) (x : Nat) : Prop :=
  ∀ i e, s.dispatched ≤ i → s.entries[i]? = some e → x ≤ e.lsn

/-- The value read by the dispatcher is not above the published end, and the
position not above what the dispatcher would set. -/
def DispatcherOk (s : State Tag) : Dispatcher → Prop
  | .idle | .remove | .readEnd | .readReplayed _ | .setOldest _ _ | .promote _ =>
    s.bgReplayedLsn ≤ max s.lastReplayedEndRecPtr s.maxDispatchedLsn
  | .fetch x => x ≤ s.lastReplayedEndRecPtr ∧ s.bgReplayedLsn ≤ max x s.maxDispatchedLsn
  | .check x => x ≤ s.lastReplayedEndRecPtr ∧ s.bgReplayedLsn ≤ max x s.maxDispatchedLsn
  | .add x => x ≤ s.lastReplayedEndRecPtr ∧ s.bgReplayedLsn ≤ max x s.maxDispatchedLsn
      ∧ ∀ p, s.replayPage = some p → p.2.lsn ≤ s.lastReplayedReadPtr
  | .checkEmpty x => x ≤ s.lastReplayedEndRecPtr ∧ s.bgReplayedLsn ≤ max x s.maxDispatchedLsn
      ∧ s.AllDispatched x
  | .setReplayed x => x ≤ s.lastReplayedEndRecPtr ∧ s.bgReplayedLsn ≤ max x s.maxDispatchedLsn
      ∧ s.AllDispatched x ∧ s.queue = []

structure TaskOk (s : State Tag) (t : Task Tag) : Prop where
  entry : s.entries[t.pos]? = some t.entry
  lt : t.pos < s.dispatched
  le : t.lsn ≤ s.maxDispatchedLsn
  handled : t.status.IsHandled → s.Handled t.pos
  first : t.status = .first → ∀ lsn ∈ s.queue.map Task.lsn, t.lsn ≤ lsn

structure Inv (st : Start Tag) (s : State Tag) : Prop where
  kept : st.entries <+: s.entries
  sorted : s.entries.Pairwise fun e e' => e.lsn ≤ e'.lsn
  ends : ∀ e ∈ s.entries, e.lsn < e.endPtr
  startup : StartupOk s s.startup
  dispatcher : DispatcherOk s s.dispatcher
  start : st.iter ≤ s.dispatched
  iter : s.iter ≤ s.entries.length
  page : ∀ p, s.replayPage = some p → s.iter = p.1 + 1 ∧ s.entries[p.1]? = some p.2
  maxLe : s.maxDispatchedLsn ≤ s.lastReplayedReadPtr
  rest : s.AllDispatched s.maxDispatchedLsn
  tasks : ∀ t ∈ s.queue, TaskOk s t
  queue : (s.queue.map Task.lsn).Pairwise (· ≤ ·)
  done : ∀ i, st.iter ≤ i → i < s.dispatched → s.Handled i ∨ i ∈ s.queue.map Task.pos
  covered : ∀ i e, st.iter ≤ i → s.entries[i]? = some e → e.lsn < s.bgReplayedLsn → s.Handled i

theorem Inv.init (st : Start Tag) : Inv st st.init where
  kept := prefix_refl _
  sorted := st.sorted
  ends := st.ends
  startup := ⟨st.lt, st.added⟩
  dispatcher := st.replayed.trans (Nat.le_max_left _ _)
  start := le_rfl
  iter := List.IsPrefix.length_le ( takeWhile_prefix _)
  page := nofun
  maxLe := Nat.zero_le _
  rest _ _ _ _ := Nat.zero_le _
  tasks _ h := absurd h not_mem_nil
  queue := List.Pairwise.nil
  done _ hge hlt := absurd hge (not_le.mpr hlt)
  covered i e hge he hlt := by
    have hsplit := takeWhile_append_dropWhile (p := fun e => decide (e.lsn < st.bgReplayedLsn))
      (l := st.entries)
    have hsorted := st.sorted.sublist
      (dropWhile_sublist fun e : Entry Tag => decide (e.lsn < st.bgReplayedLsn))
    have hfirst := head?_dropWhile_not (fun e => decide (e.lsn < st.bgReplayedLsn)) st.entries
    change st.entries[i]? = some e at he
    rw [← hsplit, getElem?_append_right hge] at he
    cases hd : st.entries.dropWhile fun e => decide (e.lsn < st.bgReplayedLsn) with
    | nil =>
      rw [hd] at he
      cases he
    | cons x rest =>
      rw [hd] at he hsorted hfirst
      have hx : st.bgReplayedLsn ≤ x.lsn := not_lt.mp (of_decide_eq_false hfirst)
      have hlt : e.lsn < st.bgReplayedLsn := hlt
      rcases mem_cons.mp (mem_of_getElem? he) with rfl | hmem
      · omega
      · have := (pairwise_cons.mp hsorted).1 e hmem
        omega

theorem Inv.bg_le (h : Inv st s) :
    s.bgReplayedLsn ≤ max s.lastReplayedEndRecPtr s.maxDispatchedLsn := by
  have hd := h.dispatcher
  cases hpc : s.dispatcher with
  | idle | remove | readEnd | readReplayed _ | setOldest _ _ | promote _ =>
    rwa [hpc] at hd
  | fetch x | check x | add x | checkEmpty x | setReplayed x =>
    rw [hpc] at hd
    have hx := hd.1
    have hle : s.bgReplayedLsn ≤ max x s.maxDispatchedLsn := by
      first | exact hd.2 | exact hd.2.1
    omega

theorem Inv.lsn_le_of_le (h : Inv st s) {j : Nat} {e' : Entry Tag} (hij : i ≤ j)
    (he : s.entries[i]? = some e) (he' : s.entries[j]? = some e') : e.lsn ≤ e'.lsn :=
  rel_of_getElem? (R := fun e e' : Entry Tag => e.lsn ≤ e'.lsn) h.sorted le_rfl hij he he'

theorem DispatcherOk.mono {d : Dispatcher} (h : DispatcherOk s d)
    (hbg : s'.bgReplayedLsn ≤ max s.bgReplayedLsn s.maxDispatchedLsn)
    (hmax : s'.maxDispatchedLsn = s.maxDispatchedLsn)
    (hpage : s'.replayPage = s.replayPage) (hqueue : s.queue = [] → s'.queue = [])
    (hend : s.lastReplayedEndRecPtr ≤ s'.lastReplayedEndRecPtr)
    (hread : s.lastReplayedReadPtr ≤ s'.lastReplayedReadPtr)
    (hall : ∀ x, x ≤ s.lastReplayedEndRecPtr → s.AllDispatched x → s'.AllDispatched x) :
    DispatcherOk s' d := by
  cases d with
  | idle | remove | readEnd | readReplayed _ | setOldest _ _ | promote _ | fetch x | check x =>
    simp only [DispatcherOk] at h ⊢
    omega
  | add x =>
    simp only [DispatcherOk, hpage] at h ⊢
    exact ⟨h.1.trans hend, by omega, fun p hp => (h.2.2 p hp).trans hread⟩
  | checkEmpty x =>
    simp only [DispatcherOk] at h ⊢
    exact ⟨h.1.trans hend, by omega, hall x h.1 h.2.2⟩
  | setReplayed x =>
    simp only [DispatcherOk] at h ⊢
    exact ⟨h.1.trans hend, by omega, hall x h.1 h.2.2.1, hqueue h.2.2.2⟩

theorem remove_eq_some (hs : remove s i = some s') : ∃ t, s.queue[i]? = some t
    ∧ t.status = .finished ∧ s' = { s with queue := s.queue.eraseIdx i } := by
  unfold remove at hs
  split at hs
  · obtain ⟨t, ht, hs⟩ := bind_eq_some_iff.mp hs
    exact ⟨t, ht, (ite_some_none_eq_some.mp hs).imp_right Eq.symm⟩
  · obtain ⟨t, ht, hs⟩ := bind_eq_some_iff.mp hs
    exact ⟨t, ht, (ite_some_none_eq_some.mp hs).imp_right Eq.symm⟩
  · cases hs

/-! ## The startup process -/

section

variable (h : Inv st s)
include h

/-- An entry is added for a record behind all that were published. -/
theorem Inv.addEntry {lsn endPtr : Nat} {tag : Tag} {image : Bool} {pages : List (Tag × Bool)}
    (hpc : s.startup = .adding lsn endPtr ((tag, image) :: pages)) :
    Inv st { s with
      entries := s.entries ++ [⟨tag, lsn, endPtr, image⟩]
      startup := .adding lsn endPtr pages } := by
  have hs := h.startup
  rw [hpc] at hs
  obtain ⟨hread, hend, hlt, hentries⟩ := hs
  have hmax := h.maxLe
  have hbg := h.bg_le
  have hall : ∀ x, x ≤ lsn → s.AllDispatched x → State.AllDispatched { s with
        entries := s.entries ++ [⟨tag, lsn, endPtr, image⟩]
        startup := .adding lsn endPtr pages } x := by
    intro x hx hall i e hi he
    rcases getElem?_append_cases he with he | ⟨-, he⟩
    · exact hall i e hi he
    · exact mem_singleton.mp (mem_of_getElem? he) ▸ hx
  have hkeep : ∀ {i : Nat} {e},
      s.entries[i]? = some e → (s.entries ++ [⟨tag, lsn, endPtr, image⟩])[i]? = some e := by
    intro i e he
    rw [getElem?_append_left (lt_of_getElem? he), he]
  have hdone : ∀ {i}, s.Handled i → State.Handled { s with
      entries := s.entries ++ [⟨tag, lsn, endPtr, image⟩]
      startup := .adding lsn endPtr pages } i :=
    fun ⟨e, r, he, hr⟩ => ⟨e, r, hkeep he, hr⟩
  exact { h with
    kept := h.kept.trans (prefix_append _ _)
    sorted := by
      refine pairwise_snoc h.sorted fun e he => ?_
      have := hentries e he
      dsimp only
      omega
    ends := forall_mem_snoc h.ends hlt
    startup := ⟨hread, hend, hlt, forall_mem_snoc hentries (.inr rfl)⟩
    dispatcher := h.dispatcher.mono (Nat.le_max_left _ _) rfl rfl id le_rfl le_rfl fun x hx =>
      hall x (hx.trans hend)
    iter := by
      rw [length_append]
      exact Nat.le_add_right_of_le h.iter
    page := fun p hp => ⟨(h.page p hp).1, hkeep (h.page p hp).2⟩
    rest := hall s.maxDispatchedLsn (by omega) h.rest
    tasks := fun t ht =>
      have htask := h.tasks t ht
      { htask with entry := hkeep htask.entry, handled := fun hst => hdone (htask.handled hst) }
    done := fun i hi hlt => (h.done i hi hlt).imp_left hdone
    covered := by
      intro i e hi he hlt
      rcases getElem?_append_cases he with he | ⟨-, he⟩
      · exact hdone (h.covered i e hi he hlt)
      · obtain rfl := mem_singleton.mp (mem_of_getElem? he)
        dsimp only at hlt
        omega }

theorem Inv.setStartup {read last : Nat} {pc : Startup Tag}
    (hok : StartupOk { s with
      lastReplayedReadPtr := read, lastReplayedEndRecPtr := last, startup := pc } pc)
    (hread : s.lastReplayedReadPtr ≤ read) (hend : s.lastReplayedEndRecPtr ≤ last) :
    Inv st { s with
      lastReplayedReadPtr := read, lastReplayedEndRecPtr := last, startup := pc } :=
  { h with
    startup := hok
    dispatcher := h.dispatcher.mono (Nat.le_max_left _ _) rfl rfl id hend hread fun _ _ => id
    maxLe := h.maxLe.trans hread
    tasks := fun t ht => { h.tasks t ht with } }

theorem Inv.readRecord {lsn endPtr : Nat} {pages : List (Tag × Bool)}
    (hs : readRecord s lsn endPtr pages = some s') : Inv st s' := by
  have hst := h.startup
  unfold BgReplay.readRecord at hs
  cases hpc : s.startup with
  | idle =>
    rw [hpc] at hst
    simp only [hpc] at hs
    obtain ⟨hcond, rfl⟩ := ite_some_none_eq_some.mp hs
    exact h.setStartup ⟨hst.1, hcond.1, hcond.2, fun e he => .inl (hst.2 e he)⟩ le_rfl le_rfl
  | adding _ _ _ | setRead _ _ | setEnd _ =>
    simp only [hpc] at hs
    cases hs

theorem Inv.startupStep (hs : startupStep s = some s') : Inv st s' := by
  unfold BgReplay.startupStep at hs
  have hst := h.startup
  cases hpc : s.startup with
  | idle =>
    rw [hpc] at hs
    cases hs
  | adding lsn endPtr pages =>
    cases pages with
    | nil =>
      rw [hpc] at hs
      cases hs
      rw [hpc] at hst
      exact h.setStartup hst le_rfl le_rfl
    | cons tag pages =>
      rw [hpc] at hs
      cases hs
      exact h.addEntry hpc
  | setRead lsn endPtr =>
    rw [hpc] at hs hst
    cases hs
    obtain ⟨hread, hend, hlt, hentries⟩ := hst
    refine h.setStartup ⟨hend, hlt, fun e he => ?_⟩ (hread.trans_le hend).le le_rfl
    have := hentries e he
    dsimp only
    omega
  | setEnd endPtr =>
    rw [hpc] at hs hst
    cases hs
    obtain ⟨hend, hlt, hentries⟩ := hst
    exact h.setStartup ⟨hlt, hentries⟩ le_rfl (hend.trans_lt hlt).le

/-! ## The dispatcher -/

theorem Inv.setDispatcher {pc : Dispatcher} {canHold : Bool} {oldest : Nat}
    {redo : BgRedoState} (hok : DispatcherOk s pc) :
    Inv st { s with
      dispatcher := pc, canHold := canHold, promoteOldestLsn := oldest, bgRedoState := redo } :=
  { h with
    dispatcher := hok.mono (Nat.le_max_left _ _) rfl rfl id le_rfl le_rfl fun _ _ => id
    tasks := fun t ht => { h.tasks t ht with } }

theorem Inv.fetch
    (hpc : s.dispatcher = .fetch x) (hs : dispatcherStep s accept backendMinLsn = some s') :
    Inv st s' := by
  have hd := h.dispatcher
  rw [hpc] at hd
  simp only [dispatcherStep, hpc] at hs
  split at hs
  · cases hs
    exact h.setDispatcher hd
  · next hnone =>
    have hdisp : s.dispatched = s.iter := by simp only [State.dispatched, hnone]
    split at hs
    · next e he =>
      cases hs
      have hstart := h.start
      have hrest := h.rest
      have hdone := h.done
      rw [hdisp] at hstart hdone
      rw [State.AllDispatched, hdisp] at hrest
      exact { h with
        dispatcher := hd
        start := hstart
        iter := lt_of_getElem? he
        page := fun p hp => by
          cases hp
          exact ⟨rfl, he⟩
        rest := hrest
        tasks := fun t ht => by
          have htask := h.tasks t ht
          have hlt := htask.lt
          rw [hdisp] at hlt
          exact { htask with lt := hlt }
        done := hdone }
    · next hend =>
      cases hs
      refine h.setDispatcher ⟨hd.1, hd.2, fun i e hi he => ?_⟩
      have hlen := getElem?_eq_none_iff.mp hend
      have hi' := lt_of_getElem? he
      omega

/-- An entry is kept back for a record that is not published: nothing below the
value that was read is left. -/
theorem Inv.check
    (hpc : s.dispatcher = .check x) (hs : dispatcherStep s accept backendMinLsn = some s') :
    Inv st s' := by
  have hd := h.dispatcher
  rw [hpc] at hd
  simp only [dispatcherStep, hpc] at hs
  obtain ⟨p, hp, rfl⟩ := map_eq_some_iff.mp hs
  obtain ⟨-, hentry⟩ := h.page p hp
  split
  · next hlt =>
    have hx : x ≤ p.2.lsn := by
      have hst := h.startup
      have hmem := mem_of_getElem? hentry
      cases hst' : s.startup with
      | idle =>
        rw [hst'] at hst
        exact absurd (hst.2 _ hmem) (not_le.mpr hlt)
      | adding lsn endPtr pages | setRead lsn endPtr =>
        rw [hst'] at hst
        rw [(hst.2.2.2 _ hmem).resolve_left (not_le.mpr hlt)]
        exact hd.1.trans hst.2.1
      | setEnd endPtr =>
        rw [hst'] at hst
        exact absurd (hst.2.2 _ hmem) (not_le.mpr hlt)
    refine h.setDispatcher ⟨hd.1, hd.2, fun i e hi he => hx.trans ?_⟩
    simp only [State.dispatched, hp] at hi
    exact h.lsn_le_of_le hi hentry he
  · next hle =>
    refine h.setDispatcher ⟨hd.1, hd.2, fun p' hp' => ?_⟩
    rw [hp] at hp'
    cases hp'
    exact not_lt.mp hle

theorem Inv.add (hpc : s.dispatcher = .add x) {p : Nat × Entry Tag} (hp : s.replayPage = some p) :
    Inv st { s with
      queue := s.queue ++ [⟨p.1, p.2, .waiting⟩], maxDispatchedLsn := p.2.lsn, replayPage := none,
      dispatcher := .readEnd } := by
  have hd := h.dispatcher
  rw [hpc] at hd
  obtain ⟨hx, hbg, hread⟩ := hd
  obtain ⟨hiter, hentry⟩ := h.page p hp
  have hdisp : s.dispatched = p.1 := by simp only [State.dispatched, hp]
  have hmax : s.maxDispatchedLsn ≤ p.2.lsn := h.rest p.1 p.2 hdisp.le hentry
  have hle : ∀ lsn ∈ s.queue.map Task.lsn, lsn ≤ p.2.lsn := by
    intro lsn hlsn
    obtain ⟨t, ht, rfl⟩ := mem_map.mp hlsn
    exact (h.tasks t ht).le.trans hmax
  have hmap : (s.queue ++ [(⟨p.1, p.2, .waiting⟩ : Task Tag)]).map Task.lsn
      = s.queue.map Task.lsn ++ [p.2.lsn] := map_append
  exact { h with
    dispatcher := by
      simp only [DispatcherOk]
      omega
    start := by
      have := h.start
      simp only [State.dispatched]
      omega
    page := nofun
    maxLe := hread p hp
    rest := fun i e hi he =>
      h.lsn_le_of_le (show p.1 ≤ i by simp only [State.dispatched] at hi; omega) hentry he
    tasks := by
      refine forall_mem_snoc (fun t ht => ?_) ⟨hentry, ?_, le_rfl, nofun, nofun⟩
      · have htask := h.tasks t ht
        refine ⟨htask.entry, ?_, htask.le.trans hmax, htask.handled, fun hfirst => ?_⟩
        · have := htask.lt
          simp only [State.dispatched]
          omega
        · rw [hmap]
          exact forall_mem_snoc (htask.first hfirst) (htask.le.trans hmax)
      · simp only [State.dispatched]
        omega
    queue := by
      rw [hmap]
      exact pairwise_snoc h.queue hle
    done := fun i hi hlt => by
      simp only [State.dispatched] at hlt
      rw [map_append]
      rcases lt_or_ge i p.1 with hip | hip
      · exact (h.done i hi (by omega)).imp_right (mem_append_left _)
      · refine .inr (mem_append_right _ (mem_singleton.mpr ?_))
        dsimp only
        omega }

theorem Inv.setReplayed (hpc : s.dispatcher = .setReplayed x) : Inv st { s with
      bgReplayedLsn := max x s.maxDispatchedLsn, dispatcher := .readReplayed true } := by
  have hd := h.dispatcher
  rw [hpc] at hd
  obtain ⟨hx, -, hall, hempty⟩ := hd
  exact { h with
    dispatcher := by
      simp only [DispatcherOk]
      omega
    tasks := fun t ht => { h.tasks t ht with }
    covered := fun i e hi he hlt => by
      rcases lt_or_ge i s.dispatched with hid | hid
      · refine (h.done i hi hid).resolve_right fun hmem => ?_
        rw [hempty] at hmem
        cases hmem
      · have := hall i e hid he
        have := h.rest i e hid he
        dsimp only at hlt
        omega }

theorem Inv.dispatcherStep (hs : dispatcherStep s accept backendMinLsn = some s') : Inv st s' := by
  unfold BgReplay.dispatcherStep at hs
  have hbg := h.bg_le
  have hd := h.dispatcher
  cases hpc : s.dispatcher with
  | idle =>
    rw [hpc] at hs
    cases hs
  | remove | readReplayed dispatchDone | promote dispatchDone =>
    rw [hpc] at hs
    cases hs
    exact h.setDispatcher hbg
  | readEnd =>
    rw [hpc] at hs
    cases hs
    exact h.setDispatcher ⟨le_rfl, hbg⟩
  | fetch x => exact h.fetch hpc hs
  | check x => exact h.check hpc hs
  | add x =>
    rw [hpc] at hs
    obtain ⟨p, hp, rfl⟩ := map_eq_some_iff.mp hs
    split
    · exact h.add hpc hp
    · exact h.setDispatcher hbg
  | checkEmpty x =>
    rw [hpc] at hs hd
    cases hs
    split
    · next hempty =>
      exact h.setDispatcher ⟨hd.1, hd.2.1, hd.2.2, isEmpty_iff.mp hempty⟩
    · exact h.setDispatcher hbg
  | setReplayed x =>
    rw [hpc] at hs
    cases hs
    exact h.setReplayed hpc
  | setOldest dispatchDone bgReplayedLsn =>
    rw [hpc] at hs
    cases hs
    refine h.setDispatcher ?_
    split
    · exact hbg
    · exact hbg

/-! ## The workers -/

theorem Inv.updateTask {b : Nat} {status : Status} {srv : Server Tag} {r : Nat → Option Report}
    (ht : s.queue[i]? = some t) (hr : ∀ j, s.Handled j → State.Handled { s with report := r } j)
    (hstatus : status.IsHandled → State.Handled { s with report := r } t.pos)
    (hfirst : status = .first → ∀ lsn ∈ s.queue.map Task.lsn, t.lsn ≤ lsn)
    (hb : b ≤ max s.bgReplayedLsn s.maxDispatchedLsn)
    (hcov : ∀ j e, st.iter ≤ j → s.entries[j]? = some e → e.lsn < b → s.Handled j) :
    Inv st { s with
      bgReplayedLsn := b, server := srv, report := r,
      queue := s.queue.set i { t with status := status } } := by
  have hlsn : (s.queue.set i { t with status := status }).map Task.lsn = s.queue.map Task.lsn :=
    map_set_of_eq ht rfl
  have hpos : (s.queue.set i { t with status := status }).map Task.pos = s.queue.map Task.pos :=
    map_set_of_eq ht rfl
  exact { h with
    dispatcher := h.dispatcher.mono hb rfl rfl (fun hnil => by rw [hnil] at ht; cases ht)
      le_rfl le_rfl fun _ _ => id
    tasks := fun t' ht' => by
      rcases mem_or_eq_of_mem_set ht' with ht' | rfl
      · have htask := h.tasks t' ht'
        refine ⟨htask.entry, htask.lt, htask.le, fun hst => hr _ (htask.handled hst), fun hf => ?_⟩
        rw [hlsn]
        exact htask.first hf
      · have htask := h.tasks t (mem_of_getElem? ht)
        refine ⟨htask.entry, htask.lt, htask.le, hstatus, fun hf => ?_⟩
        rw [hlsn]
        exact hfirst hf
    queue := by
      rw [hlsn]
      exact h.queue
    done := fun j hj hlt => by
      rw [hpos]
      exact (h.done j hj hlt).imp_left (hr j)
    covered := fun j e hj he hlt => hr j (hcov j e hj he hlt) }

theorem Inv.setTask {status : Status} {srv : Server Tag} (ht : s.queue[i]? = some t)
    (hstatus : ¬status.IsHandled) : Inv st (setTask s i t srv status) :=
  h.updateTask ht (fun _ => id) (fun hst => absurd hst hstatus)
    (fun hst => absurd (hst ▸ trivial) hstatus) (Nat.le_max_left _ _) h.covered

/-- A task is handled if the server has its page as it should be. -/
theorem Inv.setHandled {srv : Server Tag} (ht : s.queue[i]? = some t)
    (hok : t.entry.Handled (srv.report t.entry)) : Inv st (setHandled s i t srv) := by
  have hentry := (h.tasks t (mem_of_getElem? ht)).entry
  have hself : State.Handled
      { s with report := update s.report t.pos (some (srv.report t.entry)) } t.pos :=
    ⟨t.entry, _, hentry, update_self _ _ _, hok⟩
  refine h.updateTask ht (fun j hj => ?_) (fun _ => hself) nofun (Nat.le_max_left _ _) h.covered
  by_cases hjt : j = t.pos
  · exact hjt ▸ hself
  · obtain ⟨e, r, he, hr, hok⟩ := hj
    exact ⟨e, r, he, (update_of_ne hjt _ _).trans hr, hok⟩

theorem Inv.workerStep [DecidableEq Tag] {evicted : Bool}
    (hs : workerStep s i evicted = some s') : Inv st s' := by
  obtain ⟨t, ht, hs⟩ := bind_eq_some_iff.mp hs
  have hlt := h.ends t.entry (mem_of_getElem? (h.tasks t (mem_of_getElem? ht)).entry)
  dsimp only at hs
  split at hs
  · cases hs
    refine h.setTask ht ?_
    split <;> exact id
  · obtain ⟨buf, hbuf, rfl⟩ := map_eq_some_iff.mp hs
    split
    · exact h.setTask ht id
    · next hstat => exact h.setHandled ht (bufferNeedReplay_handled hbuf (.inl hstat))
    · next hstat => exact h.setHandled ht (bufferNeedReplay_handled hbuf (.inr hstat))
    · split
      · next hflushed => exact h.setHandled ht (.inr (.inl hflushed.2.1))
      · exact h.setTask ht id
  · split at hs
    · next hflushed =>
      cases hs
      exact h.setHandled ht (.inr (.inl hflushed))
    · split at hs
      · split at hs <;> cases hs <;> exact h.setTask ht id
      · next hvalid =>
        cases hs
        exact h.setHandled ht (.inr (.inr (eq_false_of_ne_true hvalid)))
  · obtain ⟨buf, -, rfl⟩ := map_eq_some_iff.mp hs
    exact h.setHandled ht (.inl ⟨_, update_self _ _ _, .inl (lt_applyReadRecord hlt)⟩)
  · split at hs
    · split at hs
      · cases hs
        exact h.setTask ht id
      · next hvalid =>
        cases hs
        exact h.setHandled ht (.inr (.inr (eq_false_of_ne_true hvalid)))
    · cases hs
      exact h.setTask ht id
  · cases hs
  · cases hs
  · cases hs
  · cases hs

/-- If a task is for the first record of the queue, all entries before that
record are handled. -/
theorem Inv.handled_of_first (ht : t ∈ s.queue)
    (hfirst : ∀ lsn ∈ s.queue.map Task.lsn, t.lsn ≤ lsn) {j : Nat} (hj : st.iter ≤ j)
    (he : s.entries[j]? = some e) (hlt : e.lsn < t.lsn) : s.Handled j := by
  have hle := (h.tasks t ht).le
  rcases lt_or_ge j s.dispatched with hjd | hjd
  · refine (h.done j hj hjd).resolve_right fun hmem => ?_
    obtain ⟨t', ht', rfl⟩ := mem_map.mp hmem
    have hentry := (h.tasks t' ht').entry
    rw [he] at hentry
    have hge := hfirst t'.lsn (mem_map.mpr ⟨t', ht', rfl⟩)
    rw [show t'.lsn = e.lsn from congrArg Entry.lsn (some.inj hentry).symm] at hge
    omega
  · have := h.rest j e hjd he
    omega

theorem Inv.taskFinished (hs : taskFinished s i = some s') : Inv st s' := by
  obtain ⟨t, ht, hs⟩ := bind_eq_some_iff.mp hs
  have hmem := mem_of_getElem? ht
  have htask := h.tasks t hmem
  split at hs
  · next hstatus =>
    obtain ⟨head, hhead, rfl⟩ := map_eq_some_iff.mp hs
    refine h.updateTask ht (fun _ => id) (fun _ => htask.handled (hstatus ▸ trivial))
      (fun hf => ?_) (Nat.le_max_left _ _) h.covered
    have heq : head.lsn = t.lsn := by
      split at hf
      · next heq => exact heq
      · cases hf
    obtain ⟨q, hq⟩ := head?_eq_some_iff.mp hhead
    have hsorted := h.queue
    rw [hq, map_cons] at hsorted ⊢
    rw [← heq]
    exact forall_mem_cons.mpr ⟨le_rfl, (pairwise_cons.mp hsorted).1⟩
  · next hstatus =>
    cases hs
    have hfirst := htask.first hstatus
    have hle := htask.le
    refine h.updateTask ht (fun _ => id) (fun _ => htask.handled (hstatus ▸ trivial))
      nofun (by split <;> omega) fun j e hj he hlt => ?_
    split at hlt
    · exact h.handled_of_first hmem hfirst hj he hlt
    · exact h.covered j e hj he hlt
  · cases hs

theorem Inv.remove (hs : remove s i = some s') : Inv st s' := by
  obtain ⟨t, ht, hstatus, rfl⟩ := remove_eq_some hs
  have hsub : ((s.queue.eraseIdx i).map Task.lsn).Sublist (s.queue.map Task.lsn) :=
    (eraseIdx_sublist s.queue i).map _
  exact { h with
    dispatcher := h.dispatcher.mono (Nat.le_max_left _ _) rfl rfl
      (fun hnil => by rw [hnil] at ht; cases ht) le_rfl le_rfl fun _ _ => id
    tasks := fun t' ht' =>
      have htask := h.tasks t' (mem_of_mem_eraseIdx ht')
      { htask with first := fun hf lsn hlsn => htask.first hf lsn (hsub.subset hlsn) }
    queue := h.queue.sublist hsub
    done := fun j hj hlt => by
      rcases h.done j hj hlt with ho | hmem
      · exact .inl ho
      · obtain ⟨t', ht', rfl⟩ := mem_map.mp hmem
        rcases eq_or_mem_eraseIdx ht ht' with rfl | ht'
        · exact .inl ((h.tasks t' ht').handled (hstatus ▸ trivial))
        · exact .inr (mem_map.mpr ⟨t', ht', rfl⟩) }

/-! ## Runs -/

theorem Inv.step [DecidableEq Tag] {a : Action Tag} (hs : step s a = some s') : Inv st s' := by
  cases a with
  | readRecord lsn endPtr pages => exact h.readRecord hs
  | startup => exact h.startupStep hs
  | onlinePromote =>
    obtain ⟨-, rfl⟩ := ite_some_none_eq_some.mp hs
    exact h.setDispatcher h.dispatcher
  | dispatch =>
    obtain ⟨-, rfl⟩ := ite_some_none_eq_some.mp hs
    exact h.setDispatcher h.bg_le
  | dispatcher accept backendMinLsn => exact h.dispatcherStep hs
  | remove i => exact h.remove hs
  | worker i evicted => exact h.workerStep hs
  | taskFinished i => exact h.taskFinished hs
  | others srv =>
    cases hs
    exact { h with tasks := fun t ht => { h.tasks t ht with } }

end

theorem startupStep_bg (hs : startupStep s = some s') : s'.bgReplayedLsn = s.bgReplayedLsn := by
  unfold startupStep at hs
  split at hs <;> cases hs <;> rfl

theorem dispatcherStep_bg (hs : dispatcherStep s accept backendMinLsn = some s') :
    s'.bgReplayedLsn = s.bgReplayedLsn
      ∨ ∃ x, s.dispatcher = .setReplayed x ∧ s'.bgReplayedLsn = max x s.maxDispatchedLsn := by
  unfold dispatcherStep at hs
  split at hs
  · cases hs
  · cases hs; exact .inl rfl
  · cases hs; exact .inl rfl
  · split at hs
    · cases hs; exact .inl rfl
    · split at hs <;> (cases hs; exact .inl rfl)
  · obtain ⟨p, -, rfl⟩ := map_eq_some_iff.mp hs
    split <;> exact .inl rfl
  · obtain ⟨p, -, rfl⟩ := map_eq_some_iff.mp hs
    split <;> exact .inl rfl
  · cases hs; exact .inl rfl
  · next x hpc =>
    cases hs
    exact .inr ⟨x, hpc, rfl⟩
  · cases hs; exact .inl rfl
  · cases hs; exact .inl rfl
  · cases hs; exact .inl rfl

theorem workerStep_bg [DecidableEq Tag] {evicted : Bool} (hs : workerStep s i evicted = some s') :
    s'.bgReplayedLsn = s.bgReplayedLsn := by
  obtain ⟨t, -, hs⟩ := bind_eq_some_iff.mp hs
  dsimp only at hs
  split at hs
  · cases hs; rfl
  · obtain ⟨buf, -, rfl⟩ := map_eq_some_iff.mp hs
    split <;> try rfl
    split <;> rfl
  · split at hs
    · cases hs; rfl
    · split at hs
      · split at hs <;> cases hs <;> rfl
      · cases hs; rfl
  · obtain ⟨buf, -, rfl⟩ := map_eq_some_iff.mp hs
    rfl
  · split at hs
    · split at hs <;> cases hs <;> rfl
    · cases hs; rfl
  · cases hs
  · cases hs
  · cases hs
  · cases hs

theorem taskFinished_bg (hs : taskFinished s i = some s') : s.bgReplayedLsn ≤ s'.bgReplayedLsn := by
  obtain ⟨t, -, hs⟩ := bind_eq_some_iff.mp hs
  split at hs
  · obtain ⟨head, -, rfl⟩ := map_eq_some_iff.mp hs
    exact le_rfl
  · cases hs
    dsimp only
    split <;> omega
  · cases hs

theorem Inv.bg_mono [DecidableEq Tag] (h : Inv st s) {a : Action Tag}
    (hs : BgReplay.step s a = some s') : s.bgReplayedLsn ≤ s'.bgReplayedLsn := by
  cases a with
  | readRecord lsn endPtr pages =>
    simp only [BgReplay.step, BgReplay.readRecord] at hs
    split at hs
    · split at hs <;> cases hs
      exact le_rfl
    · cases hs
  | startup => exact (startupStep_bg hs).symm.le
  | onlinePromote | dispatch =>
    obtain ⟨-, rfl⟩ := ite_some_none_eq_some.mp hs
    exact le_rfl
  | dispatcher accept backendMinLsn =>
    rcases dispatcherStep_bg hs with heq | ⟨x, hpc, heq⟩
    · exact heq.symm.le
    · have hd := h.dispatcher
      rw [hpc] at hd
      rw [heq]
      exact hd.2.1
  | remove i =>
    obtain ⟨t, -, -, rfl⟩ := remove_eq_some hs
    exact le_rfl
  | worker i evicted => exact (workerStep_bg hs).symm.le
  | taskFinished i => exact taskFinished_bg hs
  | others srv =>
    cases hs
    exact le_rfl

theorem Inv.iter_le (h : Inv st s) (he : s.entries[i]? = some e)
    (hle : st.bgReplayedLsn ≤ e.lsn) : st.iter ≤ i := by
  by_contra hlt
  have hlt := not_le.mp hlt
  have hskip : st.entries.takeWhile (fun e => decide (e.lsn < st.bgReplayedLsn)) <+: s.entries :=
    ( takeWhile_prefix _).trans h.kept
  have hmem : e ∈ st.entries.takeWhile fun e => decide (e.lsn < st.bgReplayedLsn) := by
    rw [prefix_iff_getElem?.mp hskip i hlt] at he
    rw [← some.inj he]
    exact getElem_mem hlt
  have := of_decide_eq_true (all_eq_true.mp all_takeWhile e hmem)
  omega

/-- In every run of the startup process, the dispatcher, the workers and the
rest of the server, for every entry between the position that the dispatcher
started at and the current one a worker left the page beyond the record, or
found that the primary had flushed it or that the block was gone; and the
position does not move back. -/
theorem handled_of_exec [DecidableEq Tag] (st : Start Tag) (as : List (Action Tag)) (s : State Tag)
    (hs : exec step st.init as = some s) :
    (∀ i e, s.entries[i]? = some e → st.bgReplayedLsn ≤ e.lsn → e.lsn < s.bgReplayedLsn →
      ∃ r, s.report i = some r ∧ e.Handled r)
    ∧ ∀ a s', step s a = some s' → s.bgReplayedLsn ≤ s'.bgReplayedLsn := by
  have h : Inv st s := exec_invariant (fun _ s => Inv st s) (Inv.init st)
    (fun _ _ _ _ h hs => h.step hs) hs
  refine ⟨fun i e he hle hlt => ?_, fun a s' hs => h.bg_mono hs⟩
  obtain ⟨e', r, he', hr, hok⟩ := h.covered i e (h.iter_le he hle) he hlt
  rw [he] at he'
  cases he'
  exact ⟨r, hr, hok⟩

/-! ## A run -/

def onePage (replaying : Bool) : Server Nat where
  pool := fun tag => if tag = 1 then some ⟨true, ⟨true, true, replaying, false⟩, false, 5⟩ else none
  storage := fun tag => if tag = 1 then some 5 else none
  relBlockValid := fun _ _ => true
  replica := false
  primaryConsistPtr := 0

def oneRecord : Start Nat where
  server := onePage true
  bgReplayedLsn := 10
  readPtr := 5
  endRecPtr := 10
  entries := [⟨1, 5, 10, false⟩]
  replayed := by decide
  lt := by decide
  sorted := by decide
  added := by decide
  ends := by decide

/-- A record with two pages, one of them new; the first task is put off once. -/
def twoPages : List (Action Nat) :=
  [.readRecord 10 20 [(1, false), (2, true)], .startup, .startup, .startup, .startup, .startup,
    .dispatch] ++ List.replicate 14 (.dispatcher true 0) ++
      [.worker 0 false, .worker 0 false, .others (onePage false),
    .worker 1 false, .worker 1 false, .worker 1 false, .worker 1 false, .taskFinished 1,
    .worker 0 false, .worker 0 false, .worker 0 false, .taskFinished 0,
    .taskFinished 0, .taskFinished 1,
    .dispatch, .remove 0, .remove 0] ++ List.replicate 5 (.dispatcher true 0)

theorem handled_twoPages : ∃ s, exec step oneRecord.init twoPages = some s
      ∧ s.bgReplayedLsn = 20
      ∧ s.entries = [⟨1, 5, 10, false⟩, ⟨1, 10, 20, false⟩, ⟨2, 10, 20, true⟩]
      ∧ (∃ r, s.report 1 = some r ∧ Entry.Handled ⟨1, 10, 20, false⟩ r)
      ∧ ∃ r, s.report 2 = some r ∧ Entry.Handled ⟨2, 10, 20, true⟩ r := by
  refine exec_eval (E := fun s => s.bgReplayedLsn = 20
      ∧ s.entries = [⟨1, 5, 10, false⟩, ⟨1, 10, 20, false⟩, ⟨2, 10, 20, true⟩])
    (by decide +kernel) fun s hs ⟨hbg, hentries⟩ => ?_
  have h := (handled_of_exec oneRecord twoPages s hs).1
  rw [hbg, hentries] at h
  exact ⟨hbg, hentries, h 1 _ rfl (by decide) (by decide), h 2 _ rfl (by decide) (by decide)⟩

end PolarDB.BgReplay
