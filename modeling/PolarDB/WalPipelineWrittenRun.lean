import PolarDB.Basic
import PolarDB.Circular
import PolarDB.WalPipelineCopy

/-!
# The ready position passes no hole

All links of all records form one chain. What the advance worker has consumed
is the first part of it, up to its tail, and all of that was added; in the rest
a slot of the ring is set exactly for the links that were added (`LinkRing`). Two
links of the rest that found space start less than a ring apart, so they have
slots of their own, and the worker finds at its tail the link that starts
there.
-/

namespace PolarDB.WalPipeline

open Function List Xlog

variable {c : WrittenConf} {s s' : Written} {b0 i : Nat} {k k' : Link} {done todo ks : List Link}

theorem WrittenConf.slot_eq (c : WrittenConf) (pos : Nat) : c.slot pos = pos % c.size :=
  Nat.and_two_pow_sub_one_eq_mod pos c.sizeLog

theorem WrittenConf.eq_of_slot_eq {a p q : Nat} (hp : a ≤ p) (hp' : p < a + c.size) (hq : a ≤ q)
    (hq' : q < a + c.size) (h : c.slot p = c.slot q) : p = q := by
  rw [c.slot_eq, c.slot_eq] at h
  by_contra hne
  rcases Nat.lt_or_gt_of_ne hne with hlt | hlt
  · exact mod_ne_of_lt hlt (by omega) h
  · exact mod_ne_of_lt hlt (by omega) h.symm

/-! ## The invariant -/

def Written.tailPos (s : Written) : Nat :=
  match s.advance with
  | .idle => s.readyPos
  | .read _ tailPos | .clear _ tailPos _ | .publish tailPos => tailPos

def WrittenConf.startPos (c : WrittenConf) (k : Link) : Nat := c.geometry.layout.pos k.1

structure LinkRing (c : WrittenConf) (b0 : Nat) (s : Written) (done todo : List Link) : Prop where
  reserved : s.reserved = done ++ todo
  chainDone : c.geometry.layout.Chain b0 done s.tailPos
  chainTodo : c.geometry.layout.Chain s.tailPos todo s.currBytePos
  consumed : ∀ k ∈ done, k ∈ s.added
  ready : s.readyPos ≤ s.tailPos
  space : ∀ k ∈ s.added, c.startPos k < s.readyPos + c.size
  slot : ∀ k ∈ todo, k ∈ s.added → s.slots (c.linkSlot k) = c.distance k
  held : ∀ i, s.slots i ≠ 0 → ∃ k ∈ todo, k ∈ s.added ∧ c.linkSlot k = i

structure Owners (reserved added : List Link) (links : Nat → List Link) : Prop where
  mem_iff : ∀ k, k ∈ reserved ↔ k ∈ added ∨ ∃ i, k ∈ links i
  pending : ∀ i, ∀ k ∈ links i, k ∉ added
  nodup : ∀ i, (links i).Nodup
  apart : ∀ i j k, k ∈ links i → k ∈ links j → i = j

def Written.links (s : Written) (i : Nat) : List Link := (s.inserters i).links

/-- The check at the end of a copy cannot fail if `b0` is aligned. -/
def InserterOk (c : WrittenConf) (b0 : Nat) (s : Written) : Inserter → Prop
  | .idle => True
  | .wait _ ok => maximumAlignof ∣ b0 → ok = true
  | .write links ok =>
    (maximumAlignof ∣ b0 → ok = true) ∧ ∀ k ∈ links.head?, c.startPos k < s.readyPos + c.size
  | .panic => ¬maximumAlignof ∣ b0

def AdvanceOk (c : WrittenConf) (s : Written) : Advance → Prop
  | .idle => True
  | .read oldPos _ => oldPos = s.readyPos
  | .clear oldPos tailPos distance =>
    oldPos = s.readyPos ∧ distance ≠ 0 ∧ s.slots (c.slot tailPos) = distance
  | .publish _ => True

structure WrittenInv (c : WrittenConf) (b0 : Nat) (s : Written) : Prop where
  ring : ∃ done todo, LinkRing c b0 s done todo
  owners : Owners s.reserved s.added s.links
  inserters : ∀ i, InserterOk c b0 s (s.inserters i)
  advance : AdvanceOk c s s.advance
  aligned : maximumAlignof ∣ b0 → maximumAlignof ∣ s.currBytePos
  lastEnd : c.geometry.layout.pos s.lastEnd = s.currBytePos ∧ c.geometry.layout.IsEnd s.lastEnd

theorem linkSlot_eq (k : Link) : c.linkSlot k = c.slot (c.startPos k) := by
  rw [WrittenConf.linkSlot, Geometry.recPtrToBytePos_eq, WrittenConf.startPos]

theorem distance_eq (k : Link) : c.distance k = c.geometry.layout.pos k.2 - c.startPos k := by
  rw [WrittenConf.distance, Geometry.recPtrToBytePos_eq, Geometry.recPtrToBytePos_eq,
    WrittenConf.startPos]

theorem WrittenInv.init (c : WrittenConf) (b0 : Nat) : WrittenInv c b0 (c.init b0) where
  ring := ⟨[], [], rfl, rfl, rfl, forall_mem_nil _, le_rfl,
    forall_mem_nil _, forall_mem_nil _, fun _ h => absurd rfl h⟩
  owners := ⟨fun _ => iff_of_false not_mem_nil (by rintro (h | ⟨_, h⟩) <;> cases h),
    fun _ _ h => absurd h not_mem_nil, fun _ => nodup_nil, fun _ _ _ h => absurd h not_mem_nil⟩
  inserters _ := trivial
  advance := trivial
  aligned := id
  lastEnd := c.geometry.bytePosToEndRecPtr_spec b0

/-! ## Facts of the ring -/

namespace LinkRing

variable (h : LinkRing c b0 s done todo)
include h

theorem mem_todo (hk : k ∈ s.reserved) (hadd : k ∉ s.added) : k ∈ todo := by
  rw [h.reserved] at hk
  exact (mem_append.mp hk).resolve_left fun hd => hadd (h.consumed k hd)

theorem startPos_lt (hk : k ∈ s.reserved) : c.startPos k < s.currBytePos := by
  rw [h.reserved] at hk
  rcases mem_append.mp hk with hk | hk
  · obtain ⟨-, hlt, hle⟩ := h.chainDone.mem hk
    exact hlt.trans_le (hle.trans h.chainTodo.le)
  · obtain ⟨-, hlt, hle⟩ := h.chainTodo.mem hk
    exact hlt.trans_le hle

theorem eq_of_linkSlot_eq (hk : k ∈ todo) (hk' : k' ∈ todo)
    (hsp : c.startPos k < s.readyPos + c.size) (hsp' : c.startPos k' < s.readyPos + c.size)
    (heq : c.linkSlot k = c.linkSlot k') : k = k' := by
  rw [linkSlot_eq, linkSlot_eq] at heq
  have hready := h.ready
  have hpos := WrittenConf.eq_of_slot_eq (hready.trans (h.chainTodo.mem hk).1) hsp
    (hready.trans (h.chainTodo.mem hk').1) hsp' heq
  exact h.chainTodo.eq_of_pos_eq hk hk' hpos

theorem slot_free (hk : k ∈ s.reserved) (hadd : k ∉ s.added)
    (hsp : c.startPos k < s.readyPos + c.size) : s.slots (c.linkSlot k) = 0 := by
  by_contra hne
  obtain ⟨k', hk', hadd', hslot⟩ := h.held _ hne
  have := h.eq_of_linkSlot_eq (h.mem_todo hk hadd) hk' hsp (h.space k' hadd') hslot.symm
  exact hadd (this ▸ hadd')

theorem head_of_slot (hne : s.slots (c.slot s.tailPos) ≠ 0) :
    ∃ k rest, todo = k :: rest ∧ k ∈ s.added ∧ c.startPos k = s.tailPos
      ∧ s.slots (c.slot s.tailPos) = c.distance k := by
  obtain ⟨k, hk, hadd, hslot⟩ := h.held _ hne
  have hval := h.slot k hk hadd
  rw [hslot] at hval
  rw [linkSlot_eq] at hslot
  have hle := (h.chainTodo.mem hk).1
  have hsp := h.space k hadd
  have hready := h.ready
  have hpos : c.startPos k = s.tailPos :=
    WrittenConf.eq_of_slot_eq hle (hsp.trans_le (Nat.add_le_add_right hready _))
      le_rfl (hle.trans_lt (hsp.trans_le (Nat.add_le_add_right hready _))) hslot
  cases todo with
  | nil => cases hk
  | cons k0 rest =>
    have heq : k = k0 := h.chainTodo.eq_of_pos_eq hk mem_cons_self (hpos.trans h.chainTodo.1.symm)
    exact ⟨k, rest, by rw [heq], hadd, hpos, hval⟩

end LinkRing

/-! ## Owners -/

namespace Owners

variable {reserved added : List Link} {links : Nat → List Link} (h : Owners reserved added links)
include h

theorem reserved_of_pending (hk : k ∈ links i) : k ∈ reserved := (h.mem_iff k).mpr (.inr ⟨i, hk⟩)

theorem add (hi : links i = []) (hnew : ∀ k ∈ ks, k ∉ reserved) (hnd : ks.Nodup) :
    Owners (reserved ++ ks) added (update links i ks) where
  mem_iff k := by
    rw [mem_append, h.mem_iff k, or_assoc]
    refine or_congr_right ⟨?_, ?_⟩
    · rintro (⟨j, hj⟩ | hk)
      · have hji : j ≠ i := by
          rintro rfl
          rw [hi] at hj
          cases hj
        exact ⟨j, by rwa [update_of_ne hji]⟩
      · exact ⟨i, by rwa [update_self]⟩
    · rintro ⟨j, hj⟩
      rw [update_apply] at hj
      split at hj
      · exact .inr hj
      · exact .inl ⟨j, hj⟩
  pending := (forall_update_iff links fun _ ks => ∀ k ∈ ks, k ∉ added).mpr
    ⟨fun k hk hadd => hnew k hk ((h.mem_iff k).mpr (.inl hadd)), fun j _ => h.pending j⟩
  nodup := (forall_update_iff links fun _ ks => ks.Nodup).mpr ⟨hnd, fun j _ => h.nodup j⟩
  apart j j' k hk hk' := by
    rw [update_apply] at hk hk'
    split at hk <;> split at hk'
    next hj hj' => exact hj.trans hj'.symm
    next => exact absurd (h.reserved_of_pending hk') (hnew k hk)
    next => exact absurd (h.reserved_of_pending hk) (hnew k hk')
    next => exact h.apart j j' k hk hk'

theorem take (hi : links i = k :: ks) : Owners reserved (k :: added) (update links i ks) := by
  have hnd := h.nodup i
  rw [hi, nodup_cons] at hnd
  have hsub : ∀ j k', k' ∈ update links i ks j → k' ∈ links j ∧ k' ≠ k := by
    intro j k' hk'
    rw [update_apply] at hk'
    split at hk'
    next hj =>
      rw [hj, hi]
      exact ⟨mem_cons_of_mem _ hk', fun heq => hnd.1 (heq ▸ hk')⟩
    next hj =>
      refine ⟨hk', fun heq => hj (h.apart j i k' hk' ?_)⟩
      rw [hi, heq]
      exact mem_cons_self
  refine ⟨fun k' => ⟨fun hk' => ?_, ?_⟩, fun j k' hk' hadd => ?_, ?_,
    fun j j' k' hk hk' => h.apart j j' k' (hsub j k' hk).1 (hsub j' k' hk').1⟩
  · by_cases hkk : k' = k
    · exact .inl (hkk ▸ mem_cons_self)
    · refine ((h.mem_iff k').mp hk').imp (mem_cons_of_mem _) fun ⟨j, hj⟩ => ⟨j, ?_⟩
      rw [update_apply]
      split
      next hji =>
        rw [hji, hi] at hj
        exact (mem_cons.mp hj).resolve_left hkk
      next => exact hj
  · rintro (hadd | ⟨j, hj⟩)
    · rcases mem_cons.mp hadd with rfl | hadd
      · exact h.reserved_of_pending (hi ▸ mem_cons_self)
      · exact (h.mem_iff k').mpr (.inl hadd)
    · exact h.reserved_of_pending (hsub j k' hj).1
  · obtain ⟨hold, hne⟩ := hsub j k' hk'
    exact (mem_cons.mp hadd).elim hne (h.pending j k' hold)
  · exact (forall_update_iff links fun _ ks => ks.Nodup).mpr ⟨hnd.2, fun j _ => h.nodup j⟩

end Owners

theorem links_update (s : Written) (i : Nat) (x : Inserter) :
    (fun j => (update s.inserters i x j).links) = update s.links i x.links :=
  comp_update Inserter.links s.inserters i x

/-! ## Steps -/

theorem inserterOk_next (ks : List Link) {ok : Bool} (h : maximumAlignof ∣ b0 → ok = true) :
    InserterOk c b0 s (.next ks ok) := by
  cases ks with
  | nil =>
    cases ok with
    | true => trivial
    | false => exact fun ha => Bool.noConfusion (h ha)
  | cons k ks => exact h

theorem links_next (ks : List Link) (ok : Bool) : (Inserter.next ks ok).links = ks := by
  cases ks with
  | nil => cases ok <;> rfl
  | cons k ks => rfl

section

variable (h : WrittenInv c b0 s)
include h

theorem WrittenInv.insert {isLogSwitch : Bool} {lens : List Nat} {r : Reserved}
    (hidle : s.inserters i = .idle) (hr : Inserted c.geometry s.currBytePos isLogSwitch lens r) :
    WrittenInv c b0 (s.insert c i isLogSwitch lens r) := by
  obtain ⟨done, todo, hring⟩ := h.ring
  obtain ⟨hchain, hpos, hend, hfinish, halign⟩ := hr
  unfold Written.insert
  generalize copyXLogRecordToWal c.geometry isLogSwitch lens r.startPos r.endPos = links at *
  obtain ⟨ks, curr⟩ := links
  dsimp only at hchain hfinish ⊢
  have hok : maximumAlignof ∣ b0 → decide (curr = r.endPos) = true :=
    fun hb => decide_eq_true (hfinish (h.aligned hb))
  generalize decide (curr = r.endPos) = ok at hok
  have hnew : ∀ k ∈ ks, k ∉ s.reserved := by
    intro k hk hres
    exact not_lt.mpr (hchain.mem hk).1 (hring.startPos_lt hres)
  have howners := h.owners.add (i := i) (by rw [Written.links, hidle]; rfl) hnew hchain.nodup
  rw [← links_next ks ok, ← links_update, links_next] at howners
  refine ⟨⟨done, todo ++ ks, { hring with
      reserved := ?_
      chainTodo := hring.chainTodo.append hchain
      slot := fun k hk hadd => ?_
      held := fun j hj => ?_ }⟩, howners, ?_, h.advance, fun hb => halign (h.aligned hb),
        hpos, hend⟩
  · rw [hring.reserved, append_assoc]
  · rcases mem_append.mp hk with hk | hk
    · exact hring.slot k hk hadd
    · exact absurd ((h.owners.mem_iff k).mpr (.inl hadd)) (hnew k hk)
  · obtain ⟨k, hk, hadd⟩ := hring.held j hj
    exact ⟨k, mem_append_left _ hk, hadd⟩
  · exact (forall_update_iff s.inserters fun _ => InserterOk c b0 s).mpr
      ⟨inserterOk_next ks hok, fun j _ => h.inserters j⟩

theorem WrittenInv.space {ok : Bool} (hi : s.inserters i = .wait (k :: ks) ok)
    (hsp : c.hasSpace s k.1 = true) :
    WrittenInv c b0
      { s with inserters := update s.inserters i (.write (k :: ks) ok) } := by
  obtain ⟨done, todo, hring⟩ := h.ring
  have howners := h.owners
  have hlinks := links_update s i (.write (k :: ks) ok)
  rw [show (Inserter.write (k :: ks) ok).links = s.links i by rw [Written.links, hi]; rfl,
    update_eq_self] at hlinks
  rw [← hlinks] at howners
  have hok : maximumAlignof ∣ b0 → ok = true := by
    have := h.inserters i
    rwa [hi] at this
  refine ⟨⟨done, todo, { hring with }⟩, howners, ?_, h.advance, h.aligned, h.lastEnd⟩
  refine (forall_update_iff s.inserters fun _ => InserterOk c b0 s).mpr
    ⟨⟨hok, fun k' hk' => ?_⟩, fun j _ => h.inserters j⟩
  obtain rfl : k = k' := by simpa using hk'
  rw [WrittenConf.hasSpace, Geometry.recPtrToBytePos_eq] at hsp
  exact of_decide_eq_true hsp

theorem WrittenInv.addLink {ok : Bool} (hi : s.inserters i = .write (k :: ks) ok) :
    WrittenInv c b0 { s with
      slots := update s.slots (c.linkSlot k) (c.distance k)
      inserters := update s.inserters i (.next ks ok)
      added := k :: s.added } := by
  obtain ⟨done, todo, hring⟩ := h.ring
  have hins := h.inserters i
  rw [hi] at hins
  obtain ⟨hok, hhead⟩ := hins
  have hsp : c.startPos k < s.readyPos + c.size := hhead k rfl
  have hmem : s.links i = k :: ks := by rw [Written.links, hi]; rfl
  have hfirst : k ∈ s.links i := hmem ▸ mem_cons_self
  have hres := h.owners.reserved_of_pending hfirst
  have hnot := h.owners.pending i k hfirst
  have hktodo : k ∈ todo := hring.mem_todo hres hnot
  have howners := h.owners.take hmem
  rw [← links_next ks ok, ← links_update] at howners
  refine ⟨⟨done, todo, { hring with
      consumed := fun k' hk' => mem_cons_of_mem _ (hring.consumed k' hk')
      space := forall_mem_cons.mpr ⟨hsp, hring.space⟩
      slot := fun k' hk' hadd => ?_
      held := fun j hj => ?_ }⟩, howners, ?_, ?_, h.aligned, h.lastEnd⟩
  · dsimp only
    rcases mem_cons.mp hadd with rfl | hadd
    · rw [update_self]
    · have hne : c.linkSlot k' ≠ c.linkSlot k := by
        intro heq
        have := hring.eq_of_linkSlot_eq hk' hktodo (hring.space k' hadd) hsp heq
        exact hnot (this ▸ hadd)
      rw [update_of_ne hne]
      exact hring.slot k' hk' hadd
  · dsimp only at hj
    by_cases hjk : j = c.linkSlot k
    · exact ⟨k, hktodo, mem_cons_self, hjk.symm⟩
    · rw [update_of_ne hjk] at hj
      obtain ⟨k', hk', hadd, hslot⟩ := hring.held j hj
      exact ⟨k', hk', mem_cons_of_mem _ hadd, hslot⟩
  · exact (forall_update_iff s.inserters fun _ => InserterOk c b0 s).mpr
      ⟨inserterOk_next ks hok, fun j _ => h.inserters j⟩
  · have hadv := h.advance
    cases ha : s.advance with
    | clear oldPos tailPos distance =>
      rw [ha] at hadv
      obtain ⟨hold, hne, hslot⟩ := hadv
      refine ⟨hold, hne, ?_⟩
      have hfree := hring.slot_free hres hnot hsp
      have hdiff : c.slot tailPos ≠ c.linkSlot k := by
        intro heq
        rw [heq, hfree] at hslot
        exact hne hslot.symm
      show update s.slots _ _ (c.slot tailPos) = _
      rwa [update_of_ne hdiff]
    | _ =>
      rwa [ha] at hadv

theorem WrittenInv.inserterStep (hs : inserterStep c s i = some s') : WrittenInv c b0 s' := by
  unfold WalPipeline.inserterStep at hs
  split at hs
  · cases hs
  · cases hs
  · cases hs
  · cases hs
  · next k ks ok hi =>
    obtain ⟨hsp, rfl⟩ := Option.ite_some_none_eq_some.mp hs
    exact h.space hi hsp
  · next k ks ok hi =>
    cases hs
    exact h.addLink hi

theorem WrittenInv.setAdvance {a : Advance} (htail : { s with advance := a }.tailPos = s.tailPos)
    (hok : AdvanceOk c s a) : WrittenInv c b0 { s with advance := a } := by
  obtain ⟨done, todo, hring⟩ := h.ring
  refine { h with
    ring := ⟨done, todo, { hring with
      chainDone := htail ▸ hring.chainDone
      chainTodo := htail ▸ hring.chainTodo
      ready := htail ▸ hring.ready }⟩
    advance := ?_ }
  cases a <;> exact hok

theorem WrittenInv.clear {oldPos tailPos distance : Nat} {a : Advance}
    (hs : s.advance = .clear oldPos tailPos distance)
    (ha : a = .publish (tailPos + distance) ∨ a = .read oldPos (tailPos + distance)) :
    WrittenInv c b0
      { s with slots := update s.slots (c.slot tailPos) 0, advance := a } := by
  obtain ⟨done, todo, hring⟩ := h.ring
  have hadv := h.advance
  rw [hs] at hadv
  obtain ⟨hold, hne, hslot⟩ := hadv
  have htail : s.tailPos = tailPos := by rw [Written.tailPos, hs]
  have htail' : ({ s with slots := update s.slots (c.slot tailPos) 0, advance := a } :
      Written).tailPos = tailPos + distance := by
    rcases ha with rfl | rfl <;> rfl
  obtain ⟨k, rest, rfl, hadd, hstart, hdist⟩ := hring.head_of_slot (by rw [htail, hslot]; exact hne)
  have hchain := hring.chainTodo
  obtain ⟨hpos, hlt, hrest⟩ := hchain
  have hnext : c.geometry.layout.pos k.2 = tailPos + distance := by
    rw [htail, distance_eq, hstart] at hdist
    omega
  have hready := hring.ready
  refine { h with ring := ⟨done ++ [k], rest, ?_, ?_, ?_, forall_mem_snoc hring.consumed hadd, ?_,
    hring.space, fun k' hk' hadd' => ?_, fun j hj => ?_⟩, advance := ?_ }
  · exact hring.reserved.trans (by rw [append_assoc, singleton_append])
  · rw [htail', ← hnext]
    exact hring.chainDone.append (Layout.chain_singleton hpos hlt)
  · rwa [htail', ← hnext]
  · rw [htail']
    rw [htail] at hready
    exact hready.trans (Nat.le_add_right _ _)
  · dsimp only
    have hne' : c.linkSlot k' ≠ c.slot tailPos := by
      intro heq
      have hk := hring.eq_of_linkSlot_eq (mem_cons_of_mem _ hk') mem_cons_self
        (hring.space k' hadd') (hring.space k hadd) (by rw [heq, linkSlot_eq, hstart, htail])
      exact (nodup_cons.mp hring.chainTodo.nodup).1 (hk ▸ hk')
    rw [update_of_ne hne']
    exact hring.slot k' (mem_cons_of_mem _ hk') hadd'
  · dsimp only at hj
    by_cases hjt : j = c.slot tailPos
    · rw [hjt, update_self] at hj
      exact absurd rfl hj
    · rw [update_of_ne hjt] at hj
      obtain ⟨k', hk', hadd', hslot'⟩ := hring.held j hj
      refine ⟨k', (mem_cons.mp hk').resolve_left fun heq => hjt ?_, hadd', hslot'⟩
      rw [← hslot', heq, linkSlot_eq, hstart, htail]
  · rcases ha with rfl | rfl
    · trivial
    · exact hold

theorem WrittenInv.publish {tailPos : Nat} (hs : s.advance = .publish tailPos) :
    WrittenInv c b0 { s with readyPos := tailPos, advance := .idle } := by
  obtain ⟨done, todo, hring⟩ := h.ring
  have htail : s.tailPos = tailPos := by rw [Written.tailPos, hs]
  have hready : s.readyPos ≤ tailPos := htail ▸ hring.ready
  have hmono : ∀ {p : Nat}, p < s.readyPos + c.size → p < tailPos + c.size := fun hp => by omega
  refine { h with
    ring := ⟨done, todo, { hring with
      chainDone := htail ▸ hring.chainDone
      chainTodo := htail ▸ hring.chainTodo
      ready := le_rfl
      space := fun k hk => hmono (hring.space k hk) }⟩
    inserters := fun i => ?_
    advance := trivial }
  have hins := h.inserters i
  cases hi : s.inserters i with
  | write links ok =>
    rw [hi] at hins
    exact ⟨hins.1, fun k hk => hmono (hins.2 k hk)⟩
  | _ =>
    rwa [hi] at hins

theorem WrittenInv.advanceStep : WrittenInv c b0 (advanceStep c s) := by
  obtain ⟨done, todo, hring⟩ := h.ring
  have hadv := h.advance
  unfold WalPipeline.advanceStep
  cases hs : s.advance with
  | idle => exact h.setAdvance (by simp only [Written.tailPos, hs]) rfl
  | read oldPos tailPos =>
    rw [hs] at hadv
    have hold : oldPos = s.readyPos := hadv
    have htail : s.tailPos = tailPos := by rw [Written.tailPos, hs]
    dsimp only
    split
    · split
      · exact h.setAdvance (by rw [htail]; rfl) trivial
      · next hge =>
        have hready := hring.ready
        refine h.setAdvance ?_ trivial
        show s.readyPos = s.tailPos
        omega
    · next hne => exact h.setAdvance (by rw [htail]; rfl) ⟨hold, hne, rfl⟩
  | clear oldPos tailPos distance =>
    refine h.clear hs ?_
    split
    · exact .inl rfl
    · exact .inr rfl
  | publish tailPos => exact h.publish hs

theorem WrittenInv.step {a : WrittenAction} (hs : writtenStep c s a = some s') :
    WrittenInv c b0 s' := by
  cases a with
  | insert i lens =>
    obtain ⟨hif, rfl⟩ := Option.ite_some_none_eq_some.mp hs
    refine h.insert hif.1 (inserted_insert s.currBytePos ?_)
    by_contra hz
    obtain hz : lens.sum = 0 := by omega
    rw [hz] at hif
    exact absurd hif.2 (by decide)
  | insertSwitch i lens =>
    obtain ⟨hif, hs⟩ := Option.ite_none_right_eq_some.mp hs
    split at hs
    · cases hs
      exact h
    · next r hr =>
      cases hs
      exact h.insert hif.1 (inserted_switch hif.2 hr)
  | inserter i => exact h.inserterStep hs
  | advance =>
    cases hs
    exact h.advanceStep

/-! ## The ready position -/

/-- What holds in every state: the bytes below the ready position were added,
a link is written to a slot that holds none, and when all links are added the
worker stops only at the end of the last record. -/
structure ReadyOk (c : WrittenConf) (startLsn : Nat) (s : Written) : Prop where
  noHole : ∀ p, startLsn ≤ p → p < c.readyWriteLsn s → c.geometry.layout.InBody p →
    ∃ k ∈ s.added, k.1 ≤ p ∧ p < k.2
  noOverwrite : ∀ i k ks ok, s.inserters i = .write (k :: ks) ok → s.slots (c.linkSlot k) = 0
  complete : (∀ i, (s.inserters i).links = []) → s.ReturnsFalse c → c.readyWriteLsn s = s.lastEnd

theorem WrittenInv.readyOk : ReadyOk c (c.geometry.bytePosToEndRecPtr b0) s where
  noHole p hge hlt hbody := by
    obtain ⟨done, todo, hring⟩ := h.ring
    have hb := c.geometry.layout.pos_mono hge
    rw [(c.geometry.bytePosToEndRecPtr_spec b0).1] at hb
    have hr := hbody.pos_lt_pos hlt
    rw [WrittenConf.readyWriteLsn, (c.geometry.bytePosToEndRecPtr_spec s.readyPos).1] at hr
    obtain ⟨k, hk, hle, hlt'⟩ := hring.chainDone.cover hb (hr.trans_le hring.ready)
    exact ⟨k, hring.consumed k hk, hbody.le_of_pos_le hle, c.geometry.layout.lt_of_pos_lt hlt'⟩
  noOverwrite i k ks ok hi := by
    obtain ⟨done, todo, hring⟩ := h.ring
    have hins := h.inserters i
    rw [hi] at hins
    have hk : k ∈ s.links i := by
      rw [Written.links, hi]
      exact mem_cons_self
    exact hring.slot_free (h.owners.reserved_of_pending hk) (h.owners.pending i k hk) (hins.2 k rfl)
  complete hidle hret := by
    obtain ⟨done, todo, hring⟩ := h.ring
    obtain ⟨oldPos, tailPos, ha, hzero, hge⟩ := hret
    have hadv := h.advance
    rw [ha] at hadv
    have hold : oldPos = s.readyPos := hadv
    have htail : s.tailPos = tailPos := by rw [Written.tailPos, ha]
    have hready := hring.ready
    have hnil : todo = [] := by
      cases todo with
      | nil => rfl
      | cons k rest =>
        exfalso
        have hk : k ∈ s.reserved := by
          rw [hring.reserved]
          exact mem_append_cons_self
        have hadd : k ∈ s.added := by
          refine ((h.owners.mem_iff k).mp hk).resolve_right fun ⟨i, hi⟩ => ?_
          rw [Written.links, hidle i] at hi
          cases hi
        have hslot := hring.slot k mem_cons_self hadd
        obtain ⟨hpos, hlt, -⟩ := hring.chainTodo
        have hstart : c.startPos k = s.tailPos := hpos
        rw [linkSlot_eq, hstart, htail, distance_eq] at hslot
        omega
    have hcurr : s.tailPos = s.currBytePos := by
      have := hring.chainTodo
      rwa [hnil] at this
    obtain ⟨hlpos, hlend⟩ := h.lastEnd
    obtain ⟨hspec, hend⟩ := c.geometry.bytePosToEndRecPtr_spec s.readyPos
    refine hend.eq_of_pos_eq hlend ?_
    omega

end

/-- The ready position passes no hole, no link is lost, and the worker comes
to the end of the last record. -/
theorem readyOk_of_exec (c : WrittenConf) (bytePos : Nat) (as : List WrittenAction) (s : Written)
    (hs : exec (writtenStep c) (c.init bytePos) as = some s) :
    ReadyOk c (c.geometry.bytePosToEndRecPtr bytePos) s := by
  have h : WrittenInv c bytePos s := exec_invariant (fun _ => WrittenInv c bytePos)
    (WrittenInv.init c bytePos) (fun _ _ _ _ h hs => h.step hs) hs
  exact h.readyOk

/-- Two pages of 64 bytes in a segment, and a ring of eight slots. -/
def smallRing : WrittenConf :=
  ⟨⟨64, 2, Nat.le_of_ble_eq_true rfl, ⟨8, rfl⟩, Nat.le_of_ble_eq_true rfl⟩, 3, 0⟩

/-- A record over two pages and a switch to the next segment. The first link is
longer than the ring. -/
def recordAndSwitch : List WrittenAction :=
  [.insert 0 [30], .insertSwitch 1 [24], .inserter 0, .inserter 0, .advance, .advance, .advance,
    .advance, .advance, .inserter 0, .inserter 0, .advance, .advance, .advance, .advance, .advance,
    .inserter 0, .inserter 0, .advance, .advance, .advance, .advance, .advance, .inserter 1,
    .inserter 1, .advance, .advance, .advance, .advance, .advance, .inserter 1, .inserter 1,
    .advance, .advance, .advance, .advance, .advance, .advance]

theorem readyOk_recordAndSwitch :
    ∃ s, exec (writtenStep smallRing) (smallRing.init 0) recordAndSwitch = some s
      ∧ s.added = [(120, 128), (96, 120), (94, 96), (88, 94), (40, 64)]
      ∧ smallRing.readyWriteLsn s = 128 ∧ s.lastEnd = 128 ∧ ReadyOk smallRing 0 s := by
  refine exec_eval (E := fun s =>
      s.added = [(120, 128), (96, 120), (94, 96), (88, 94), (40, 64)]
        ∧ smallRing.readyWriteLsn s = 128 ∧ s.lastEnd = 128) (by decide)
    fun s hs ⟨hadded, hready, hlast⟩ => ?_
  exact ⟨hadded, hready, hlast, readyOk_of_exec smallRing 0 recordAndSwitch s hs⟩

/-- Where positions are aligned, no copy finds that it has used another amount
of space than was reserved. -/
theorem no_panic_of_exec (c : WrittenConf) (bytePos : Nat) (hb : maximumAlignof ∣ bytePos)
    (as : List WrittenAction) (s : Written)
    (hs : exec (writtenStep c) (c.init bytePos) as = some s) (i : Nat) :
    s.inserters i ≠ .panic := by
  have h : WrittenInv c bytePos s := exec_invariant (fun _ => WrittenInv c bytePos)
    (WrittenInv.init c bytePos) (fun _ _ _ _ h hs => h.step hs) hs
  intro hp
  have hins := h.inserters i
  rw [hp] at hins
  exact hins hb

theorem no_panic_recordAndSwitch :
    ∃ s, exec (writtenStep smallRing) (smallRing.init 0) recordAndSwitch = some s
      ∧ s.lastEnd = 128 ∧ ∀ i, s.inserters i ≠ .panic := by
  refine exec_eval (E := fun s => s.lastEnd = 128) (by decide) fun s hs hlast => ?_
  exact ⟨hlast, no_panic_of_exec smallRing 0 (Nat.dvd_zero _) recordAndSwitch s hs⟩

end PolarDB.WalPipeline
