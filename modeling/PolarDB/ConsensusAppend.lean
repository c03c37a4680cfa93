import PolarDB.Lts

/-!
# Appending a consensus entry only with its WAL

`ConsensusLOGAppend` accepts an entry of term `T` with LSN `L` after
`consensus_check_physical_flush_lsn` has found the WAL term at or above
`T` and the flushed position at or above `L`. Term and position have a
lock each, so a pass of the check is two reads: before the retry loop the
term comes first, inside the loop the position.

The recovery side moves the position forward, and in a state switch
(`polar_check_and_switch_recovery_state`) forces it back to the point of
divergence and then sets the new term. A switch between the two reads of a
pass in the loop leaves the appender with the old position and the new term
(`append_mixed`). An append is safe if no term set between the two reads
changes the answer to "term at or above `T`" (`append_covered`).
-/

namespace PolarDB.ConsensusAppend

open List

/-! ## State -/

inductive OpType where
  | normal
  | nop
  | configChange
  deriving DecidableEq

def OpType.isFixed : OpType → Bool
  | .normal | .nop => true
  | .configChange => false

/-- The arguments of `ConsensusLOGAppend` with `check_lsn`. The LSN and
timeline of the payload are read for entries of fixed length only. -/
structure Request where
  logTerm : Nat
  logIndex : Nat
  opType : OpType
  payloadLsn : Nat
  payloadTimeline : Nat
  flush : Bool
  deriving DecidableEq

structure Wal where
  term : Nat
  flushedLsn : Nat
  flushedTli : Nat
  deriving DecidableEq

def Wal.Covers (w : Wal) (term lsn tli : Nat) : Prop :=
  term ≤ w.term ∧ lsn ≤ w.flushedLsn ∧ tli ≤ w.flushedTli

instance (w : Wal) (term lsn tli : Nat) : Decidable (w.Covers term lsn tli) :=
  inferInstanceAs (Decidable (_ ∧ _))

structure LogCtl where
  currentIndex : Nat
  syncIndex : Nat
  nextAppendTerm : Nat
  lastAppendTerm : Nat
  lastWriteLsn : Nat
  lastWriteTimeline : Nat
  deriving DecidableEq

/-- An append inside `info_lock`: the request, the LSN and timeline it
will be recorded with, and where the history was when the call began. -/
structure Check where
  req : Request
  lsn : Nat
  timeline : Nat
  since : Nat
  deriving DecidableEq

inductive Call where
  | idle
  | called (req : Request) (since xlogTerm : Nat)
  | checkTerm (c : Check)
  | checkFlush (c : Check) (term : Nat)
  | retryFlush (c : Check) (n : Nat)
  | retryTerm (c : Check) (n lsn tli : Nat)
  | write (c : Check)
  deriving DecidableEq

structure Accepted where
  term : Nat
  lsn : Nat
  timeline : Nat
  moments : List Wal
  deriving DecidableEq

/-- What the consensus side tells the startup process, and the startup
process's own copy of it. -/
structure Divergence where
  becameLeader : Bool
  consensusTerm : Nat
  consensusLogTerm : Nat
  consensusLogUpto : Nat
  consensusLogTli : Nat
  deriving DecidableEq

/-- Where the startup process is. `switchTerm` is inside
`consens_state_lck`. -/
inductive Startup where
  | idle
  | switchTerm (term : Nat)
  | checkTerm (term : Nat)
  deriving DecidableEq

structure State where
  wal : Wal
  past : List Wal
  log : LogCtl
  infoLock : Option Nat
  calls : Nat → Call
  accepted : List Accepted
  shared : Divergence
  inLeaderState : Bool
  copy : Divergence
  startup : Startup

def moments (past : List Wal) (wal : Wal) (since : Nat) : List Wal :=
  (past ++ [wal]).drop since

def State.setWal (s : State) (w : Wal) : State :=
  { s with wal := w, past := s.past ++ [s.wal] }

def State.setXLogTerm (s : State) (term : Nat) : State :=
  s.setWal { s.wal with term := term }

def State.setXLogFlushedLsn (s : State) (lsn tli : Nat) (force : Bool) : State :=
  if force = true ∨ lsn > s.wal.flushedLsn then
    s.setWal { s.wal with flushedLsn := lsn, flushedTli := tli }
  else s

def State.setCall (s : State) (i : Nat) (c : Call) : State :=
  { s with calls := Function.update s.calls i c }

/-! ## The append -/

def LogCtl.current (l : LogCtl) (req : Request) : Nat × Nat :=
  if req.opType.isFixed = true ∧ req.payloadLsn > 0 then (req.payloadLsn, req.payloadTimeline)
  else (l.lastWriteLsn, l.lastWriteTimeline)

def State.acquire (s : State) (i : Nat) (req : Request) (since xlogTerm : Nat) : State :=
  let s := { s with log := { s.log with nextAppendTerm := req.logTerm } }
  if req.opType = .normal ∧ xlogTerm ≠ req.logTerm then s.setCall i .idle
  else if req.logIndex ≠ 0 ∧ req.logIndex ≠ s.log.currentIndex then s.setCall i .idle
  else
    let c : Check := ⟨req, (s.log.current req).1, (s.log.current req).2, since⟩
    let s := { s with infoLock := some i }
    if c.lsn ≠ 0 then s.setCall i (.checkTerm c) else s.setCall i (.write c)

def State.refuse (s : State) (i : Nat) : State :=
  { s.setCall i .idle with infoLock := none }

def State.check (total : Nat) (s : State) (i : Nat) : Option State :=
  match s.calls i with
  | .checkTerm c => some (s.setCall i (.checkFlush c s.wal.term))
  | .checkFlush c term =>
    if Wal.Covers { s.wal with term := term } c.req.logTerm c.lsn c.timeline then
      some (s.setCall i (.write c))
    else some (s.setCall i (.retryFlush c 0))
  | .retryFlush c n =>
    some (s.setCall i (.retryTerm c (n + 1) s.wal.flushedLsn s.wal.flushedTli))
  | .retryTerm c n lsn tli =>
    if n < total ∧ ¬Wal.Covers ⟨s.wal.term, lsn, tli⟩ c.req.logTerm c.lsn c.timeline then
      some (s.setCall i (.retryFlush c n))
    else if n ≥ total then some (s.refuse i)
    else some (s.setCall i (.write c))
  | _ => none

def State.accept (s : State) (i : Nat) (c : Check) : State :=
  { s.setCall i .idle with
    infoLock := none
    log :=
      { s.log with
        currentIndex := s.log.currentIndex + 1
        syncIndex := if c.req.flush then s.log.syncIndex + 1 else s.log.syncIndex
        lastWriteLsn :=
          if c.req.opType.isFixed = true ∧ c.lsn > 0 then c.lsn else s.log.lastWriteLsn
        lastWriteTimeline :=
          if c.req.opType.isFixed = true ∧ c.lsn > 0 then c.timeline
          else s.log.lastWriteTimeline
        lastAppendTerm := c.req.logTerm }
    accepted := s.accepted ++ [⟨c.req.logTerm, c.lsn, c.timeline, moments s.past s.wal c.since⟩] }

/-! ## The recovery side -/

def State.signal (s : State) (newLeader resumeLeader : Bool)
    (term xlogTerm xlogUpto xlogTli : Nat) : State :=
  if resumeLeader = true ∧ s.inLeaderState = true then s.setXLogTerm xlogTerm
  else { s with shared := ⟨newLeader || resumeLeader, term, xlogTerm, xlogUpto, xlogTli⟩ }

/-- `polar_check_recovery_state_change`, up to setting the term. -/
def State.checkChange (s : State) : State :=
  if s.shared.becameLeader then s
  else if s.copy.consensusTerm ≠ s.shared.consensusTerm then s
  else if s.copy.consensusLogTerm = 0 ∧ s.shared.consensusLogTerm > 0 then s
  else if s.copy.consensusLogTerm ≠ s.shared.consensusLogTerm then
    if s.shared.consensusLogUpto < s.copy.consensusLogUpto then s
    else
      { s with
        copy := { s.copy with consensusLogTerm := s.shared.consensusLogTerm }
        startup := .checkTerm s.shared.consensusLogTerm }
  else s

def State.forceBack (s : State) : State :=
  { s.setXLogFlushedLsn s.shared.consensusLogUpto s.shared.consensusLogTli true with
    startup := .switchTerm s.shared.consensusLogTerm }

/-- `polar_check_and_switch_recovery_state`, up to setting the term. -/
def State.switch (s : State) : State :=
  if s.shared.becameLeader = true ∧ s.copy.becameLeader = true then s
  else if s.shared.becameLeader = true then
    { s.forceBack with copy := s.shared, inLeaderState := true }
  else if s.copy.consensusTerm ≠ s.shared.consensusTerm then
    if s.copy.consensusLogTerm ≠ s.shared.consensusLogTerm then
      { s.forceBack with copy := s.shared, inLeaderState := false }
    else { s with copy := s.shared, inLeaderState := false }
  else if s.copy.consensusLogTerm ≠ s.shared.consensusLogTerm then
    -- divergence point go backward after repaired consensus log
    if s.copy.consensusLogUpto = 0 ∨ s.shared.consensusLogUpto < s.copy.consensusLogUpto then
      { s.forceBack with copy := s.shared, inLeaderState := false }
    else
      { s with
        copy :=
          { s.copy with
            becameLeader := s.shared.becameLeader
            consensusLogTerm := s.shared.consensusLogTerm }
        startup := .switchTerm s.shared.consensusLogTerm
        inLeaderState := false }
  else s

inductive Action where
  | call (i : Nat) (req : Request)
  | acquire (i : Nat)
  | check (i : Nat)
  | write (i : Nat) (written : Bool)
  | flushed (lsn tli : Nat) (force : Bool)
  | signal (newLeader resumeLeader : Bool) (term xlogTerm xlogUpto xlogTli : Nat)
  | checkChange
  | switch
  | setTerm
  deriving DecidableEq

def step (total : Nat) (s : State) : Action → Option State
  | .call i req =>
    match s.calls i with
    | .idle => some (s.setCall i (.called req s.past.length s.wal.term))
    | _ => none
  | .acquire i =>
    match s.calls i, s.infoLock with
    | .called req since xlogTerm, none => some (s.acquire i req since xlogTerm)
    | _, _ => none
  | .check i => s.check total i
  | .write i written =>
    match s.calls i with
    | .write c => some (if written then s.accept i c else s.refuse i)
    | _ => none
  | .flushed lsn tli force => some (s.setXLogFlushedLsn lsn tli force)
  | .signal newLeader resumeLeader term xlogTerm xlogUpto xlogTli =>
    match s.startup with
    | .switchTerm _ => none
    | _ => some (s.signal newLeader resumeLeader term xlogTerm xlogUpto xlogTli)
  | .checkChange =>
    match s.startup with
    | .idle => some s.checkChange
    | _ => none
  | .switch =>
    match s.startup with
    | .idle => some s.switch
    | _ => none
  | .setTerm =>
    match s.startup with
    | .idle => none
    | .switchTerm term | .checkTerm term => some { s.setXLogTerm term with startup := .idle }

def State.init (wal : Wal) (log : LogCtl) (shared copy : Divergence) (inLeaderState : Bool) :
    State where
  wal := wal
  past := []
  log := log
  infoLock := none
  calls _ := .idle
  accepted := []
  shared := shared
  inLeaderState := inLeaderState
  copy := copy
  startup := .idle

/-! ## The condition -/

/-- A change of the WAL term to `term` does not change what the pass finds
that a call is in the middle of. -/
def PassOk (walTerm term : Nat) : Call → Prop
  | .checkFlush c read => c.req.logTerm ≤ read → c.req.logTerm ≤ term
  | .retryTerm c _ lsn tli =>
    c.lsn ≤ lsn ∧ c.timeline ≤ tli ∧ c.req.logTerm ≤ term → c.req.logTerm ≤ walTerm
  | _ => True

instance (walTerm term : Nat) : (c : Call) → Decidable (PassOk walTerm term c)
  | .idle | .called _ _ _ | .checkTerm _ | .retryFlush _ _ | .write _ => isTrue trivial
  | .checkFlush c read => inferInstanceAs (Decidable (c.req.logTerm ≤ read → c.req.logTerm ≤ term))
  | .retryTerm c _ lsn tli =>
    inferInstanceAs (Decidable
      (c.lsn ≤ lsn ∧ c.timeline ≤ tli ∧ c.req.logTerm ≤ term → c.req.logTerm ≤ walTerm))

def TermOk (s : State) (term : Nat) : Prop :=
  match s.infoLock with
  | none => True
  | some i => PassOk s.wal.term term (s.calls i)

instance (s : State) (term : Nat) : Decidable (TermOk s term) :=
  match h : s.infoLock with
  | none => isTrue (by simp [TermOk, h])
  | some i =>
    decidable_of_iff (PassOk s.wal.term term (s.calls i)) (by simp [TermOk, h])

def termSet (s : State) : Action → Option Nat
  | .signal _ resumeLeader _ xlogTerm _ _ =>
    if resumeLeader = true ∧ s.inLeaderState = true then some xlogTerm else none
  | .setTerm =>
    match s.startup with
    | .idle => none
    | .switchTerm term | .checkTerm term => some term
  | _ => none

def StepOk (s : State) (a : Action) : Prop :=
  ∀ term ∈ termSet s a, TermOk s term

instance (s : State) (a : Action) : Decidable (StepOk s a) :=
  inferInstanceAs (Decidable (∀ term ∈ termSet s a, TermOk s term))

/-! ## What a call knows -/

def Seen (past : List Wal) (wal : Wal) (c : Check) : Prop :=
  ∃ w ∈ moments past wal c.since, w.Covers c.req.logTerm c.lsn c.timeline

def CallOk (past : List Wal) (wal : Wal) : Call → Prop
  | .idle => True
  | .called _ since _ => since ≤ past.length
  | .checkTerm c | .retryFlush c _ => c.since ≤ past.length
  | .checkFlush c term =>
    c.since ≤ past.length ∧ (c.req.logTerm ≤ term → c.req.logTerm ≤ wal.term)
  | .retryTerm c _ lsn tli =>
    c.since ≤ past.length ∧
      (c.lsn ≤ lsn → c.timeline ≤ tli → Seen past wal c ∨ wal.term < c.req.logTerm)
  | .write c => c.since ≤ past.length ∧ (0 < c.lsn → Seen past wal c)

section CallOk

variable {past : List Wal} {wal w : Wal} {c : Check}

theorem mem_moments_now {since : Nat} (h : since ≤ past.length) : wal ∈ moments past wal since := by
  rw [moments, drop_append_of_le_length h]
  exact mem_concat_self

theorem moments_snoc {since : Nat} (h : since ≤ past.length) :
    moments (past ++ [wal]) w since = moments past wal since ++ [w] := by
  rw [moments, moments, drop_append_of_le_length]
  simp only [length_append]
  omega

theorem Seen.snoc (h : Seen past wal c) (hsince : c.since ≤ past.length) :
    Seen (past ++ [wal]) w c := by
  obtain ⟨m, hm, hcov⟩ := h
  refine ⟨m, ?_, hcov⟩
  rw [moments_snoc hsince]
  exact mem_append_left _ hm

theorem seen_now (hsince : c.since ≤ past.length)
    (h : wal.Covers c.req.logTerm c.lsn c.timeline) : Seen past wal c :=
  ⟨wal, mem_moments_now hsince, h⟩

/-- Term and position may change under a call as long as its pass is not
misled. -/
theorem CallOk.setWal {call : Call} (h : CallOk past wal call)
    (hpass : PassOk wal.term w.term call) : CallOk (past ++ [wal]) w call := by
  have hlen : (past ++ [wal]).length = past.length + 1 := by simp
  cases call with
  | idle => trivial
  | called req since xlogTerm | checkTerm c | retryFlush c n =>
    simp only [CallOk] at h ⊢
    omega
  | checkFlush c term => exact ⟨by have := h.1; omega, hpass⟩
  | retryTerm c n lsn tli =>
    refine ⟨by have := h.1; omega, fun hlsn htli => ?_⟩
    rcases h.2 hlsn htli with hseen | hlow
    · exact .inl (hseen.snoc h.1)
    · refine .inr (Nat.lt_of_not_le fun hterm => ?_)
      exact Nat.not_le_of_lt hlow (hpass ⟨hlsn, htli, hterm⟩)
  | write c => exact ⟨by have := h.1; omega, fun hlsn => (h.2 hlsn).snoc h.1⟩

theorem CallOk.passOk {call : Call} (h : CallOk past wal call) : PassOk wal.term wal.term call := by
  cases call with
  | checkFlush c term => exact h.2
  | retryTerm c n lsn tli => exact fun hread => hread.2.2
  | idle | called _ _ _ | checkTerm _ | retryFlush _ _ | write _ => trivial

end CallOk

/-! ## The invariant -/

def Call.locked : Call → Bool
  | .idle | .called _ _ _ => false
  | .checkTerm _ | .checkFlush _ _ | .retryFlush _ _ | .retryTerm _ _ _ _ | .write _ => true

def Accepted.Covered (a : Accepted) : Prop :=
  0 < a.lsn → ∃ w ∈ a.moments, w.Covers a.term a.lsn a.timeline

structure Inv (s : State) : Prop where
  calls : ∀ i, CallOk s.past s.wal (s.calls i)
  holder : ∀ i, (s.calls i).locked = true → s.infoLock = some i
  accepted : ∀ a ∈ s.accepted, a.Covered

section Inv

variable {s s' : State} {i : Nat}

theorem Inv.init (wal : Wal) (log : LogCtl) (shared copy : Divergence) (inLeaderState : Bool) :
    Inv (State.init wal log shared copy inLeaderState) where
  calls _ := trivial
  holder := nofun
  accepted := nofun

section

variable (h : Inv s)
include h

theorem Inv.setCall {c : Call} (hc : CallOk s.past s.wal c)
    (hlock : c.locked = true → s.infoLock = some i) : Inv (s.setCall i c) where
  calls := (Function.forall_update_iff s.calls fun _ c => CallOk s.past s.wal c).mpr
    ⟨hc, fun j _ => h.calls j⟩
  holder := (Function.forall_update_iff s.calls fun j c => c.locked = true →
    s.infoLock = some j).mpr
    ⟨hlock, fun j _ => h.holder j⟩
  accepted := h.accepted

theorem Inv.setWal {w : Wal} (hterm : w.term = s.wal.term ∨ TermOk s w.term) :
    Inv (s.setWal w) where
  calls j := by
    refine (h.calls j).setWal ?_
    rcases hterm with heq | hok
    · exact heq ▸ (h.calls j).passOk
    · cases hlocked : (s.calls j).locked with
      | true =>
        simp only [TermOk, h.holder j hlocked] at hok
        exact hok
      | false =>
        revert hlocked
        cases s.calls j <;> simp [PassOk, Call.locked]
  holder := h.holder
  accepted := h.accepted

theorem Inv.setXLogFlushedLsn (lsn tli : Nat) (force : Bool) :
    Inv (s.setXLogFlushedLsn lsn tli force) := by
  unfold State.setXLogFlushedLsn
  split
  · exact h.setWal (.inl rfl)
  · exact h

theorem Inv.unlock (hlock : s.infoLock = some i) : Inv (s.refuse i) where
  calls := (h.setCall (c := .idle) trivial nofun).calls
  holder j hj := by
    by_cases heq : j = i
    · subst heq
      simp [State.refuse, State.setCall, Call.locked] at hj
    · have hheld := h.holder j (by simpa [State.refuse, State.setCall, heq] using hj)
      rw [hlock] at hheld
      exact absurd (Option.some.inj hheld).symm heq
  accepted := h.accepted

theorem Inv.acquire (hfree : s.infoLock = none) {req : Request} {since xlogTerm : Nat}
    (hcall : s.calls i = .called req since xlogTerm) : Inv (s.acquire i req since xlogTerm) := by
  have hsince : since ≤ s.past.length := by
    have := h.calls i
    rwa [hcall] at this
  have hlog : Inv { s with log := { s.log with nextAppendTerm := req.logTerm } } :=
    { h with }
  have hheld : Inv { s with
      log := { s.log with nextAppendTerm := req.logTerm }
      infoLock := some i } :=
    ⟨h.calls, fun j hj => (by rw [h.holder j hj] at hfree; cases hfree), h.accepted⟩
  simp only [State.acquire]
  split
  · exact hlog.setCall trivial nofun
  · split
    · exact hlog.setCall trivial nofun
    · split
      · exact hheld.setCall hsince fun _ => rfl
      · rename_i hzero
        refine hheld.setCall ⟨hsince, fun hpos => ?_⟩ fun _ => rfl
        exact absurd hpos (by simpa using hzero)

theorem Inv.check {total : Nat} (hs : s.check total i = some s') : Inv s' := by
  have hcall := h.calls i
  have hlock := h.holder i
  unfold State.check at hs
  split at hs
  · rename_i c heq
    rw [heq] at hcall hlock
    cases hs
    exact h.setCall ⟨hcall, id⟩ fun _ => hlock rfl
  · rename_i c term heq
    rw [heq] at hcall hlock
    split at hs
    · rename_i hcov
      cases hs
      have hnow : s.wal.Covers c.req.logTerm c.lsn c.timeline :=
        ⟨hcall.2 hcov.1, hcov.2.1, hcov.2.2⟩
      exact h.setCall ⟨hcall.1, fun _ => seen_now hcall.1 hnow⟩ fun _ => hlock rfl
    · cases hs
      exact h.setCall hcall.1 fun _ => hlock rfl
  · rename_i c n heq
    rw [heq] at hcall hlock
    cases hs
    refine h.setCall ⟨hcall, fun hlsn htli => ?_⟩ fun _ => hlock rfl
    rcases Nat.lt_or_ge s.wal.term c.req.logTerm with hlow | hterm
    · exact .inr hlow
    · exact .inl (seen_now hcall ⟨hterm, hlsn, htli⟩)
  · rename_i c n lsn tli heq
    rw [heq] at hcall hlock
    split at hs
    · cases hs
      exact h.setCall hcall.1 fun _ => hlock rfl
    · rename_i hstop
      split at hs
      · cases hs
        exact h.unlock (hlock rfl)
      · cases hs
        have hcov : Wal.Covers ⟨s.wal.term, lsn, tli⟩ c.req.logTerm c.lsn c.timeline := by
          by_contra hnot
          exact hstop ⟨by omega, hnot⟩
        have hseen : Seen s.past s.wal c := by
          rcases hcall.2 hcov.2.1 hcov.2.2 with hseen | hlow
          · exact hseen
          · exact absurd hcov.1 (Nat.not_le_of_lt hlow)
        exact h.setCall ⟨hcall.1, fun _ => hseen⟩ fun _ => hlock rfl
  · cases hs

theorem Inv.write {c : Check} (hcall : s.calls i = .write c) (written : Bool) :
    Inv (if written then s.accept i c else s.refuse i) := by
  have hlock : s.infoLock = some i := h.holder i (by rw [hcall]; rfl)
  have hfree := h.unlock hlock
  split
  · refine ⟨hfree.calls, hfree.holder, fun a ha => ?_⟩
    rcases mem_append.mp ha with ha | ha
    · exact h.accepted a ha
    · obtain rfl := mem_singleton.mp ha
      have hok := h.calls i
      rw [hcall] at hok
      exact hok.2
  · exact hfree

theorem Inv.forceBack : Inv s.forceBack := by
  have hset := h.setXLogFlushedLsn s.shared.consensusLogUpto s.shared.consensusLogTli true
  exact { hset with }

theorem Inv.setTerm {term : Nat} (hok : TermOk s term) :
    Inv { s.setXLogTerm term with startup := .idle } := by
  have hset : Inv (s.setXLogTerm term) := h.setWal (.inr hok)
  exact { hset with }

theorem Inv.switch : Inv s.switch := by
  have hback := h.forceBack
  unfold State.switch
  split_ifs
  · exact h
  · exact { hback with }
  · exact { hback with }
  · exact { h with }
  · exact { hback with }
  · exact { h with }
  · exact h

theorem Inv.checkChange : Inv s.checkChange := by
  unfold State.checkChange
  split_ifs
  · exact h
  · exact h
  · exact h
  · exact h
  · exact { h with }
  · exact h

theorem Inv.step {total : Nat} {a : Action} (hok : StepOk s a)
    (hs : step total s a = some s') : Inv s' := by
  cases a with
  | call j req =>
    simp only [ConsensusAppend.step] at hs
    split at hs
    · cases hs
      exact h.setCall (Nat.le_refl _) nofun
    · cases hs
  | acquire j =>
    simp only [ConsensusAppend.step] at hs
    split at hs
    · rename_i hcall hfree
      cases hs
      exact h.acquire hfree hcall
    · cases hs
  | check j => exact h.check hs
  | write j written =>
    simp only [ConsensusAppend.step] at hs
    split at hs
    · rename_i hcall
      cases hs
      exact h.write hcall written
    · cases hs
  | flushed lsn tli force =>
    cases hs
    exact h.setXLogFlushedLsn lsn tli force
  | signal newLeader resumeLeader term xlogTerm xlogUpto xlogTli =>
    simp only [ConsensusAppend.step] at hs
    split at hs
    · cases hs
    · cases hs
      unfold State.signal
      split
      · rename_i hresume
        exact h.setWal (.inr (hok xlogTerm (by simp [termSet, hresume])))
      · exact { h with }
  | checkChange =>
    simp only [ConsensusAppend.step] at hs
    split at hs
    · cases hs
      exact h.checkChange
    · cases hs
  | switch =>
    simp only [ConsensusAppend.step] at hs
    split at hs
    · cases hs
      exact h.switch
    · cases hs
  | setTerm =>
    simp only [ConsensusAppend.step] at hs
    split at hs
    · cases hs
    · rename_i term hpc
      cases hs
      exact h.setTerm (hok term (by simp [termSet, hpc]))
    · rename_i term hpc
      cases hs
      exact h.setTerm (hok term (by simp [termSet, hpc]))

end

end Inv

/-- An entry accepted with an LSN had its WAL at one moment of the call:
the WAL term was at or above its term, and the flushed position at or
above its LSN on its timeline or a later one. -/
theorem append_covered {total : Nat} {wal : Wal} {log : LogCtl} {shared copy : Divergence}
    {inLeaderState : Bool} {as : List Action} {s : State}
    (hok : Meets (step total) StepOk (State.init wal log shared copy inLeaderState) as)
    (hs : exec (step total) (State.init wal log shared copy inLeaderState) as = some s) :
    ∀ a ∈ s.accepted, 0 < a.lsn → ∃ w ∈ a.moments, w.Covers a.term a.lsn a.timeline := by
  have hinv : Inv s := exec_invariant_of_meets (fun _ s => Inv s)
    (fun _ _ _ _ h hok hs => h.step hok hs) (Inv.init wal log shared copy inLeaderState) hok hs
  exact hinv.accepted

/-! ## Two appends of a no-op entry -/

def termOne : State :=
  State.init ⟨1, 100, 1⟩ ⟨1, 0, 1, 1, 0, 0⟩ ⟨false, 1, 1, 100, 1⟩ ⟨false, 1, 1, 100, 1⟩ false

def nopRequest : Request := ⟨2, 0, .nop, 100, 1, true⟩

/-- The node switches to term 2, from position 50, before the pass that
finds the WAL streamed again up to 100. -/
def afterSwitch : List Action :=
  [.call 0 nopRequest, .acquire 0, .check 0, .check 0, .signal false false 2 2 50 1, .switch,
    .setTerm, .flushed 100 1 false, .check 0, .check 0, .write 0 true]

theorem append_covered_afterSwitch : ∃ s, exec (step 2) termOne afterSwitch = some s ∧
      ∃ a ∈ s.accepted, 0 < a.lsn ∧ ∃ w ∈ a.moments, w.Covers a.term a.lsn a.timeline := by
  refine exec_eval (E := fun s => ∃ a ∈ s.accepted, 0 < a.lsn) (by decide)
    fun s hs ⟨a, ha, hlsn⟩ => ?_
  exact ⟨a, ha, hlsn, append_covered (by decide) hs a ha hlsn⟩

/-- The switch falls between the reads of the first pass in the loop. -/
def duringSwitch : List Action :=
  [.call 0 nopRequest, .acquire 0, .check 0, .check 0, .check 0, .signal false false 2 2 50 1,
    .switch, .setTerm, .check 0, .write 0 true]

/-- The entry is accepted with LSN 100, and at no moment of the call was
the WAL of term 2 there up to 100. -/
theorem append_mixed : ∃ s, exec (step 2) termOne duringSwitch = some s ∧
      ∃ a ∈ s.accepted, 0 < a.lsn ∧ ∀ w ∈ a.moments, ¬w.Covers a.term a.lsn a.timeline :=
  exec_eval (by decide) fun _ _ => id

end PolarDB.ConsensusAppend
