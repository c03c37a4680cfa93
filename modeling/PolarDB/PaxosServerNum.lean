import PolarDB.Lts
import PolarDB.PaxosConfigureChange

/-!
# The number of servers

`serversNum` is counted up and down beside the vector of servers, so that
it can be read without a lock. `NumOk d` says that it is `d` too large,
and that every server has the id of its slot. All operations keep this,
but for `installConfig`, which clears the vector and adds what it puts
there to the number counted before. A server that turns from a learner
into a follower, or the other way round, installs a second configuration
(`convertedLearner_serverNum`). The number is right exactly in the runs
without such a step (`serverNum_iff`).
-/

namespace PolarDB.Paxos

open List Option

/-! ## Slots -/

def SlotsOk (P : Nat → Server → Prop) (l : List (Option Server)) : Prop :=
  ∀ k s, l[k]? = some (some s) → P k s

variable {P : Nat → Server → Prop} {l l' l1 l2 : List (Option Server)} {s : Server}
  {p : Server → Bool} {addr : List Char}

theorem takeOut_eq (h : takeOut p l = some (s, l')) :
    ∃ l1 l2, l = l1 ++ some s :: l2 ∧ l' = l1 ++ none :: l2 := by
  induction l generalizing l' with
  | nil => cases h
  | cons o l ih =>
    have hrest : ((takeOut p l).map fun r => (r.1, o :: r.2)) = some (s, l') →
        ∃ l1 l2, o :: l = l1 ++ some s :: l2 ∧ l' = l1 ++ none :: l2 := by
      intro h
      obtain ⟨⟨t, rest⟩, hr, heq⟩ := map_eq_some_iff.mp h
      cases heq
      obtain ⟨l1, l2, rfl, rfl⟩ := ih hr
      exact ⟨o :: l1, l2, rfl, rfl⟩
    cases o with
    | none => exact hrest h
    | some t =>
      rw [takeOut] at h
      split at h
      · cases h
        exact ⟨[], l, rfl, rfl⟩
      · exact hrest h

theorem SlotsOk.takeOut (h : SlotsOk P l) (ht : takeOut p l = some (s, l')) : SlotsOk P l' := by
  obtain ⟨l1, l2, rfl, rfl⟩ := takeOut_eq ht
  intro k t hk
  have hset : l1 ++ none :: l2 = (l1 ++ some s :: l2).set l1.length none := by simp
  rw [hset, getElem?_set] at hk
  split at hk
  · split at hk <;> cases hk
  · exact h k t hk

theorem countP_takeOut (ht : takeOut p l = some (s, l')) :
    l.countP isSome = l'.countP isSome + 1 := by
  obtain ⟨l1, l2, rfl, rfl⟩ := takeOut_eq ht
  simp only [countP_append, countP_cons, isSome_some, isSome_none, if_true,
    Bool.false_eq_true, if_false]
  omega

theorem recycle_eq (l : List (Option Server)) : ∃ k, l = recycle l ++ replicate k none := by
  induction l using reverseRecOn with
  | nil => exact ⟨0, rfl⟩
  | append_singleton l o ih =>
    cases o with
    | none =>
      obtain ⟨k, hk⟩ := ih
      refine ⟨k + 1, ?_⟩
      rw [recycle, rdropWhile_concat_pos _ _ _ rfl, replicate_succ', ← append_assoc]
      exact congrArg (· ++ [none]) hk
    | some t =>
      refine ⟨0, ?_⟩
      rw [recycle, rdropWhile_concat_neg _ _ _ Bool.false_ne_true]
      exact (append_nil _).symm

theorem SlotsOk.recycle (h : SlotsOk P l) : SlotsOk P (recycle l) := by
  obtain ⟨k, hk⟩ := recycle_eq l
  intro i s hi
  refine h i s ?_
  rwa [hk, getElem?_append_left (lt_of_getElem? hi)]

theorem countP_recycle (l : List (Option Server)) :
    (recycle l).countP isSome = l.countP isSome := by
  obtain ⟨k, hk⟩ := recycle_eq l
  have hnone : (replicate k (none : Option Server)).countP isSome = 0 := by
    rw [countP_replicate]
    rfl
  conv_rhs => rw [hk, countP_append, hnone]
  rfl

variable {o : Option Server} {strs strLearners : List (List Char)}

theorem SlotsOk.cons {k : Nat}
    (ho : ∀ s, o = some s → P k s) (h : ∀ i s, l[i]? = some (some s) → P (k + 1 + i) s) :
    ∀ i s, (o :: l)[i]? = some (some s) → P (k + i) s := by
  intro i s hi
  cases i with
  | zero =>
    exact ho s (some.inj hi)
  | succ i =>
    rw [show k + (i + 1) = k + 1 + i by omega]
    exact h i s hi

theorem fillSlot_slots {place : Nat → Server} {id : Nat}
    (h : ∀ i s, l[i]? = some (some s) → P (id + i) s) (hplace : ∀ k, P k (place (k + 1))) :
    ∀ i s, (fillSlot place id l)[i]? = some (some s) → P (id + i) s := by
  induction l generalizing id with
  | nil => exact SlotsOk.cons (fun s hs => by cases hs; exact hplace id) nofun
  | cons o l ih =>
    have hrest : ∀ i s, l[i]? = some (some s) → P (id + 1 + i) s := fun i s hi => by
      have := h (i + 1) s (by rw [getElem?_cons_succ]; exact hi)
      rwa [show id + (i + 1) = id + 1 + i by omega] at this
    cases o with
    | none => exact SlotsOk.cons (fun s hs => by cases hs; exact hplace id) hrest
    | some t => exact SlotsOk.cons (fun s hs => by cases hs; exact h 0 t rfl) (ih hrest)

theorem countP_fillSlot (place : Nat → Server) (id : Nat) :
    (fillSlot place id l).countP isSome = l.countP isSome + 1 := by
  induction l generalizing id with
  | nil => rfl
  | cons o l ih =>
    cases o with
    | none => rw [fillSlot, countP_cons_of_pos rfl, countP_cons_of_neg Bool.false_ne_true]
    | some t =>
      rw [fillSlot, countP_cons_of_pos rfl, countP_cons_of_pos rfl, ih]

theorem SlotsOk.modify (h : SlotsOk P l) {Q : Nat → Server → Prop} {f : Server → Server} {i : Nat}
    (hf : ∀ s, P i s → Q i (f s)) (hother : ∀ k s, k ≠ i → P k s → Q k s) :
    SlotsOk Q (l.modify i (Option.map f)) := by
  intro k s hk
  rw [getElem?_modify] at hk
  obtain ⟨o, ho, heq⟩ := map_eq_some_iff.mp hk
  split at heq
  · subst k
    obtain ⟨t, rfl, rfl⟩ := map_eq_some_iff.mp heq
    exact hf t (h i t ho)
  · rename_i hne
    exact hother k s (Ne.symm hne) (h k s (heq ▸ ho))

theorem countP_modify (f : Server → Server) (i : Nat) :
    (l.modify i (Option.map f)).countP Option.isSome = l.countP Option.isSome := by
  induction l generalizing i with
  | nil => rw [modify_nil]
  | cons o l ih =>
    cases i with
    | zero =>
      rw [modify_zero_cons, countP_cons, countP_cons, isSome_map]
    | succ i =>
      rw [modify_succ_cons, countP_cons, countP_cons, ih]

theorem initServerFromString_serverId {s' : Server} {str : List Char} {isLearner : Bool}
    (h : initServerFromString s str isLearner = some s') : s'.serverId = s.serverId := by
  obtain ⟨-, h⟩ := ite_none_left_eq_some.mp h
  split at h
  · obtain ⟨c1, -, h⟩ := bind_eq_some_iff.mp h
    obtain ⟨c2, -, h⟩ := bind_eq_some_iff.mp h
    cases h
    rfl
  · split at h
    · obtain ⟨c1, -, h⟩ := bind_eq_some_iff.mp h
      obtain ⟨c2, -, h⟩ := bind_eq_some_iff.mp h
      cases h
      rfl
    · cases h
      rfl

theorem installServers_slots {current i : Nat}
    (h : installServers current o (i + 1) strs = some l) :
    ∀ k s, l[k]? = some (some s) → s.serverId = i + k + 1 := by
  induction strs generalizing i l with
  | nil =>
    cases h
    exact nofun
  | cons str strs ih =>
    rw [installServers] at h
    split at h
    · obtain ⟨rest, hrest, rfl⟩ := map_eq_some_iff.mp h
      exact SlotsOk.cons (P := fun k s => s.serverId = k + 1) nofun (ih hrest)
    · obtain ⟨t, ht, h⟩ := bind_eq_some_iff.mp h
      obtain ⟨rest, hrest, h⟩ := bind_eq_some_iff.mp h
      cases h
      refine SlotsOk.cons (P := fun k s => s.serverId = k + 1) (fun s hs => ?_) (ih hrest)
      cases hs
      rw [initServerFromString_serverId ht]
      split
      · rfl
      · rfl

/-! ## The operations -/

/-- A server has the id of its slot. Only the local server of a learner
has an id of its own. -/
def IdOk (n : Node) (k : Nat) (s : Server) : Prop :=
  s.serverId = k + 1 ∨ (n.state = .learner ∧ k = n.localSlot)

/-- The number of servers is `d` too large and their ids are right. The
local server of a learner is in the first slot. -/
structure NumOk (d : Nat) (n : Node) : Prop where
  num : getServerNumLockFree n.config = getServerNum n.config + d
  slots : SlotsOk (IdOk n) n.config.servers
  local_slot : n.state = .learner → n.localSlot = 0
  running : n.stopped = false

variable {d : Nat} {n n' : Node} {val : ConfigureChangeValue} {st : Stored}

theorem NumOk.serversNum (h : NumOk d n) :
    n.config.serversNum = n.config.servers.countP isSome + d :=
  h.num

theorem NumOk.same (h : NumOk d n) (hs : Keeps n n') : NumOk d n' where
  num := by
    rw [getServerNumLockFree, getServerNum, hs.servers, hs.serversNum]
    exact h.num
  slots := by
    intro k s hk
    rw [IdOk, hs.state, hs.localSlot]
    exact h.slots k s (hs.servers ▸ hk)
  local_slot := by
    rw [hs.state, hs.localSlot]
    exact h.local_slot
  running := hs.stopped.trans h.running

theorem NumOk.change (h : NumOk d n) {servers : List (Option Server)} {serversNum : Nat}
    (learners : List (Option Server)) (hnum : serversNum = servers.countP isSome + d)
    (hslots : SlotsOk (IdOk n) servers) :
    NumOk d { n with config := ⟨serversNum, servers, learners⟩ } :=
  { h with
    num := hnum
    slots := hslots }

section

variable (h : NumOk d n)
include h

theorem NumOk.addMember (hs : addMemberAndStore n addr = some n') : NumOk d n' := by
  rw [addMemberAndStore, Paxos.addMember] at hs
  split at hs
  · cases hs
    exact h
  · rw [if_pos rfl] at hs
    obtain ⟨n1, h1, hs⟩ := bind_eq_some_iff.mp hs
    refine NumOk.same (NumOk.same (h.change _ ?_ ?_) (storeLearners_keeps h1))
      (storeMembers_keeps hs)
    · rw [addServer, if_neg Bool.false_ne_true, countP_fillSlot, h.serversNum]
      exact Nat.add_right_comm ..
    · intro k s hk
      have hslots : ∀ i t, n.config.servers[i]? = some (some t) → IdOk n (0 + i) t :=
        fun i t hi => by rw [Nat.zero_add]; exact h.slots i t hi
      have hfill := fillSlot_slots hslots (fun _ => .inl rfl) k s hk
      rwa [Nat.zero_add] at hfill

theorem NumOk.delMember (hs : delMemberAndStore n addr = some n') : NumOk d n' := by
  obtain ⟨r, hr, hs⟩ := bind_eq_some_iff.mp hs
  rw [Paxos.delMember] at hr
  split at hr
  · cases hr
    cases hs
    exact h
  · rename_i s servers ht
    have hnum : n.config.serversNum - 1 = servers.countP isSome + d := by
      rw [h.serversNum, countP_takeOut ht, Nat.add_right_comm, Nat.add_sub_cancel]
    split at hr
    · split at hr
      · cases hr
      · cases hr
        rw [← countP_recycle] at hnum
        exact NumOk.same (h.change _ hnum (h.slots.takeOut ht).recycle) (storeMembers_keeps hs)
    · cases hr
      exact NumOk.same (h.change _ hnum (h.slots.takeOut ht)) (storeMembers_keeps hs)

theorem NumOk.updateServer (serverId : Nat) {f : Server → Server}
    (hf : ∀ s, (f s).serverId = s.serverId) :
    NumOk d { n with config := updateServer n.config serverId f } := by
  rw [Paxos.updateServer]
  split
  · exact h
  · split
    · refine h.change _ ((countP_modify ..).symm ▸ h.num) (h.slots.modify (fun s hs => ?_)
        fun _ _ _ hs => hs)
      exact hs.imp_left (hf s).trans
    · exact h.change _ h.num h.slots

/-- The change is about this server: it turns it from a learner into a
follower or the other way round, or removes it. -/
def ChangesSelf (n : Node) (val : ConfigureChangeValue) : Prop :=
  val.ccType = .memberOp ∧ val.addrs.head? = (localServer n).map Server.strAddr ∧
    (n.state = .learner ∧ val.opType = .addNode ∨
      n.state ≠ .learner ∧ (val.opType = .downgradeNode ∨ val.opType = .delNode))

instance (n : Node) (val : ConfigureChangeValue) : Decidable (ChangesSelf n val) :=
  inferInstanceAs (Decidable (_ ∧ _))

theorem NumOk.addMemberByRole {localAddr : List Char}
    (hself : ¬ (n.state = .learner ∧ addr = localAddr))
    (hs : addMemberByRole n val addr localAddr = some n') : NumOk d n' := by
  rw [Paxos.addMemberByRole] at hs
  split at hs
  · exact h.addMember hs
  · rename_i hstate
    rw [if_neg fun heq => hself ⟨Classical.not_not.mp hstate, heq⟩] at hs
    exact h.same (delLearnersAndStore_keeps hs)

theorem NumOk.applyAddMember
    (hself : ¬ (n.state = .learner ∧ (localServer n).map Server.strAddr = some addr))
    (hs : applyAddMember n val addr = some n') : NumOk d n' := by
  obtain ⟨-, hs⟩ := ite_none_left_eq_some.mp hs
  obtain ⟨s, hlocal, hs⟩ := bind_eq_some_iff.mp hs
  obtain ⟨n1, h1, hs⟩ := bind_eq_some_iff.mp hs
  have hn1 := h.addMemberByRole
    (fun hc => hself ⟨hc.1, map_eq_some_iff.mpr ⟨s, hlocal, hc.2.symm⟩⟩) h1
  cases hs
  split
  · exact hn1.same { Keeps.refl n1 with }
  · exact hn1

section

variable (hself : ¬ (n.state ≠ .learner ∧ (localServer n).map Server.strAddr = some addr))
include hself

theorem NumOk.applyDelMember (hs : applyDelMember n addr = some n') : NumOk d n' := by
  rw [Paxos.applyDelMember] at hs
  split at hs
  · cases hs
    exact h
  · rename_i hstate
    obtain ⟨s, hlocal, hs⟩ := bind_eq_some_iff.mp hs
    split at hs
    · exact h.delMember hs
    · rename_i heq
      exact absurd ⟨hstate, map_eq_some_iff.mpr ⟨s, hlocal, (not_not.mp heq).symm⟩⟩ hself

theorem NumOk.applyDowngradeMember (hs : applyDowngradeMember n addr = some n') : NumOk d n' := by
  rw [Paxos.applyDowngradeMember] at hs
  split at hs
  · exact h.same (addLearnersAndStore_keeps hs)
  · rename_i hstate
    obtain ⟨s, hlocal, hs⟩ := bind_eq_some_iff.mp hs
    split at hs
    · obtain ⟨n1, h1, hs⟩ := bind_eq_some_iff.mp hs
      exact (h.delMember h1).same (addLearnersAndStore_keeps hs)
    · rename_i heq
      exact absurd ⟨hstate, map_eq_some_iff.mpr ⟨s, hlocal, (not_not.mp heq).symm⟩⟩ hself

end

theorem NumOk.applyConfigureMember
    (hs : applyConfigureMember n val addr = some n') : NumOk d n' := by
  rw [Paxos.applyConfigureMember] at hs
  split at hs
  · cases hs
    exact h
  · split at hs
    · cases hs
      exact h
    · split at hs
      · cases hs
        exact h
      · refine NumOk.same ?_ (storeMembers_keeps hs)
        exact h.updateServer _ fun _ => rfl

end

theorem NumOk.applyConfigureLearner (h : NumOk d n)
    (hs : applyConfigureLearner n val addr = some n') : NumOk d n' := by
  rw [Paxos.applyConfigureLearner] at hs
  split at hs
  · cases hs
    exact h
  · split at hs
    · cases hs
      exact h
    · obtain ⟨n1, h1, rfl⟩ := map_eq_some_iff.mp hs
      refine NumOk.updateServer (NumOk.same ?_ (storeLearners_keeps h1)) _ fun _ => rfl
      exact h.updateServer _ fun _ => rfl

/-- A change that is not about this server. -/
theorem NumOk.applyConfigureChangeValue (h : NumOk d n)
    (hself : ¬ ChangesSelf n val) (hs : applyConfigureChangeValue n val = some n') :
    NumOk d n' := by
  rw [Paxos.applyConfigureChangeValue] at hs
  split at hs
  · rename_i opType hcc
    obtain ⟨addr, haddr, hs⟩ := bind_eq_some_iff.mp hs
    split at hs
    · rename_i hop
      exact h.applyAddMember (fun hc => hself ⟨hcc, haddr.trans hc.2.symm, .inl ⟨hc.1, hop⟩⟩) hs
    · rename_i hop
      exact h.applyDelMember (fun hc => hself ⟨hcc, haddr.trans hc.2.symm, .inr ⟨hc.1, .inr hop⟩⟩)
        hs
    · rename_i hop
      exact h.applyDowngradeMember
        (fun hc => hself ⟨hcc, haddr.trans hc.2.symm, .inr ⟨hc.1, .inl hop⟩⟩) hs
    · exact h.applyConfigureMember hs
    · cases hs
      exact h
  · exact h.same (applyAddLearners_keeps hs)
  · exact h.same (applyAddLearners_keeps hs)
  · exact h.same (applyDelLearners_keeps hs)
  · obtain ⟨addr, -, hs⟩ := bind_eq_some_iff.mp hs
    exact h.applyConfigureLearner hs
  · exact h.same (applySyncLearnerAll_keeps hs)
  · cases hs
    exact h

theorem countP_filter_le (p : Server → Bool) :
    (l.map fun s => s.filter p).countP isSome ≤ l.countP isSome := by
  induction l with
  | nil => exact le_rfl
  | cons o l ih =>
    rw [map_cons, countP_cons, countP_cons]
    refine Nat.add_le_add ih ?_
    cases o with
    | none => exact le_rfl
    | some t =>
      split
      · exact le_rfl
      · exact Nat.zero_le _

theorem NumOk.dropOthers (h : NumOk d n) {localAddr : List Char}
    (hs : dropOthers n localAddr = some n') : NumOk d n' := by
  obtain ⟨str, -, hs⟩ := bind_eq_some_iff.mp hs
  obtain ⟨c, hc, hs⟩ := bind_eq_some_iff.mp hs
  cases hs
  obtain ⟨-, hc⟩ := ite_none_left_eq_some.mp hc
  split at hc
  · cases hc
  · cases hc
    refine NumOk.same (h.change n.config.learners ?_ ?_) { Keeps.refl _ with }
    · have hle := countP_filter_le (l := n.config.servers) (·.strAddr = localAddr)
      rw [countP_recycle, h.serversNum]
      omega
    · refine SlotsOk.recycle fun k s hk => ?_
      rw [getElem?_map] at hk
      obtain ⟨o, ho, heq⟩ := map_eq_some_iff.mp hk
      obtain ⟨rfl, -⟩ := filter_eq_some_iff.mp heq
      exact h.slots k s ho

theorem NumOk.promoteLearner (h : NumOk d n) (hstate : n.state = .learner) :
    NumOk d (promoteLearner n) where
  num := by
    rw [getServerNum, Paxos.promoteLearner, updateLocalServer, delAllLearners, countP_modify]
    exact h.num
  slots := by
    refine h.slots.modify (fun s _ => .inl ?_) fun k s hne hs => .inl (hs.resolve_right (hne ·.2))
    rw [h.local_slot hstate]
  local_slot := nofun
  running := h.running

theorem NumOk.forceSingleLeader (h : NumOk d n) (hs : forceSingleLeader n = some n') :
    NumOk d n' := by
  obtain ⟨s, -, hs⟩ := bind_eq_some_iff.mp hs
  obtain ⟨n1, h1, hs⟩ := bind_eq_some_iff.mp hs
  obtain ⟨n2, h2, hs⟩ := bind_eq_some_iff.mp hs
  have hn1 : NumOk d n1 := by
    rw [dropMembers] at h1
    split at h1
    · cases h1
      exact h.promoteLearner (by assumption)
    · exact h.dropOthers h1
  exact (hn1.same (storeLearners_keeps h2)).same (storeMembers_keeps hs)

/-! ## Installing a configuration -/

variable {index : Nat}

theorem numOk_install {c : StableConfiguration} {old : Option Server}
    (h : installConfig c strs index old = some n.config)
    (hslot : n.state = .learner → n.localSlot = 0) (hrun : n.stopped = false) :
    NumOk c.serversNum n := by
  obtain ⟨servers, hs, hc⟩ := map_eq_some_iff.mp h
  refine ⟨?_, fun k s hk => .inl ?_, hslot, hrun⟩
  · rw [getServerNum, ← hc]
    exact Nat.add_comm ..
  · rw [← hc] at hk
    rw [installServers_slots hs k s hk, Nat.zero_add]

theorem NumOk.learner (h : NumOk d n) (hslot : n.localSlot = 0) (f : Server → Server) :
    NumOk d { updateLocalServer n f with state := .learner } where
  num := by
    rw [getServerNum, updateLocalServer, countP_modify]
    exact h.num
  slots := h.slots.modify (fun _ _ => .inr ⟨rfl, rfl⟩) fun _ _ _ hs => hs.imp_right (⟨rfl, ·.2⟩)
  local_slot := fun _ => hslot
  running := h.running

theorem NumOk.learnerToFollower (h : NumOk d n)
    (hs : learnerToFollower n val addr = some n') : NumOk n.config.serversNum n' := by
  obtain ⟨-, hs⟩ := ite_none_left_eq_some.mp hs
  obtain ⟨c, hc, hs⟩ := bind_eq_some_iff.mp hs
  obtain ⟨s, -, hs⟩ := bind_eq_some_iff.mp hs
  obtain ⟨n1, h1, hs⟩ := bind_eq_some_iff.mp hs
  obtain ⟨n2, h2, hs⟩ := bind_eq_some_iff.mp hs
  refine NumOk.same ?_ (((replaceLearners_keeps h1).trans (storeLearners_keeps h2)).trans
    (storeMembers_keeps hs))
  exact numOk_install hc nofun h.running

theorem NumOk.followerToLearner (h : NumOk d n) (hstate : n.state ≠ .learner)
    (hs : followerToLearner n addr = some n') : NumOk n.config.serversNum n' := by
  obtain ⟨s, -, hs⟩ := bind_eq_some_iff.mp hs
  obtain ⟨old, -, hs⟩ := bind_eq_some_iff.mp hs
  obtain ⟨c, hc, hs⟩ := bind_eq_some_iff.mp hs
  obtain ⟨n1, h1, hs⟩ := bind_eq_some_iff.mp hs
  obtain ⟨n2, h2, hs⟩ := bind_eq_some_iff.mp hs
  cases hs
  have hsame := (addLearnersAndStore_keeps h1).trans (storeLearnerNode_keeps h2)
  refine NumOk.learner (NumOk.same ?_ hsame) hsame.localSlot _
  exact numOk_install hc (fun hc => absurd hc hstate) h.running

def Removed (n : Node) : Prop :=
  n.stopped = true ∧ ¬ SlotsOk (IdOk n) n.config.servers

theorem NumOk.removed (h : NumOk d n) (hstate : n.state ≠ .learner)
    (hlocal : localServer n = some s) :
    Removed { updateLocalServer n fun s => { s with serverId := s.serverId + 1000 } with
      stopped := true } := by
  refine ⟨rfl, fun hslots => ?_⟩
  have hget := join_eq_some_iff.mp hlocal
  have hid := (h.slots _ s hget).resolve_right fun hc => hstate hc.1
  have hid' := hslots n.localSlot { s with serverId := s.serverId + 1000 } (by
    rw [updateLocalServer, getElem?_modify, hget]
    exact congrArg some (if_pos rfl))
  rcases hid' with hid' | ⟨hc, -⟩
  · simp only at hid'
    omega
  · exact hstate hc

theorem NumOk.changesSelf (h : NumOk d n) (hself : ChangesSelf n val)
    (hs : Paxos.applyConfigureChangeValue n val = some n') :
    (∃ d', 0 < d' ∧ NumOk d' n') ∨ Removed n' := by
  obtain ⟨hcc, haddr, hop⟩ := hself
  rw [Paxos.applyConfigureChangeValue, hcc] at hs
  obtain ⟨addr, hhead, hs⟩ := bind_eq_some_iff.mp hs
  obtain ⟨s, hlocal, rfl⟩ := map_eq_some_iff.mp (haddr.symm.trans hhead)
  have hpos : 0 < n.config.serversNum := by
    have hmem := mem_of_getElem? (join_eq_some_iff.mp hlocal)
    have : 0 < getServerNum n.config := countP_pos_iff.mpr ⟨_, hmem, rfl⟩
    exact this.trans_le (Nat.le.intro h.num.symm)
  rcases hop with ⟨hstate, hop⟩ | ⟨hstate, hop | hop⟩
  · rw [hop] at hs
    obtain ⟨-, hs⟩ := ite_none_left_eq_some.mp hs
    rw [hlocal, bind_eq_bind, bind_some] at hs
    obtain ⟨n1, h1, hs⟩ := bind_eq_some_iff.mp hs
    rw [Paxos.addMemberByRole, if_neg (not_not.mpr hstate), if_pos rfl] at h1
    have hn1 := h.learnerToFollower h1
    cases hs
    refine .inl ⟨_, hpos, ?_⟩
    split
    · exact hn1.same { Keeps.refl n1 with }
    · exact hn1
  · rw [hop] at hs
    rw [Paxos.applyDowngradeMember, if_neg hstate, hlocal, bind_eq_bind, bind_some,
      if_neg (not_not.mpr rfl)] at hs
    exact .inl ⟨_, hpos, h.followerToLearner hstate hs⟩
  · rw [hop] at hs
    rw [Paxos.applyDelMember, if_neg hstate, hlocal, bind_eq_bind, bind_some,
      if_neg (not_not.mpr rfl)] at hs
    cases hs
    exact .inr (h.removed hstate hlocal)

/-! ## Starting -/

theorem numOk_installNode (h : installNode st strs strLearners index = some n) : NumOk 0 n := by
  obtain ⟨-, h⟩ := ite_none_left_eq_some.mp h
  obtain ⟨c, hc, h⟩ := bind_eq_some_iff.mp h
  refine NumOk.same ?_ (addLearnersAndStore_keeps h)
  exact numOk_install (c := emptyConfiguration) hc nofun rfl

theorem numOk_init {strConfig : List (List Char)} {current : Nat}
    (h : init st strConfig current = some n) : NumOk 0 n := by
  obtain ⟨members, -, h⟩ := bind_eq_some_iff.mp h
  obtain ⟨learners, -, h⟩ := bind_eq_some_iff.mp h
  split at h
  · split at h
    · cases h
    · exact numOk_installNode h
  · obtain ⟨n1, h1, h⟩ := bind_eq_some_iff.mp h
    obtain ⟨n2, h2, h⟩ := bind_eq_some_iff.mp h
    exact ((numOk_installNode h1).same (storeLearners_keeps h2)).same (storeMembers_keeps h)

theorem numOk_installLearner {strMember : List Char}
    (h : installLearner st strMember strLearners = some n) : NumOk 0 n := by
  obtain ⟨c, hc, h⟩ := bind_eq_some_iff.mp h
  have hnum :
      NumOk 0 { bareNode st .learner newCcMgr with config := c, scanIndex := st.scanIndex } :=
    numOk_install (c := emptyConfiguration) hc (fun _ => rfl) rfl
  exact NumOk.same (hnum.learner rfl _) (addLearnersAndStore_keeps h)

theorem numOk_initAsLearner {strConfig : List Char}
    (h : initAsLearner st strConfig = some n) : NumOk 0 n := by
  rw [initAsLearner] at h
  split at h
  · obtain ⟨n1, h1, h⟩ := bind_eq_some_iff.mp h
    exact (numOk_installLearner h1).same (storeLearnerNode_keeps h)
  · split at h
    · obtain ⟨learners, -, h⟩ := bind_eq_some_iff.mp h
      exact numOk_installLearner h
    · obtain ⟨n1, h1, h⟩ := bind_eq_some_iff.mp h
      exact (numOk_installLearner h1).same (storeLearnerNode_keeps h)

def Started (n : Node) : Prop :=
  (∃ st strConfig current, init st strConfig current = some n) ∨
    ∃ st strConfig, initAsLearner st strConfig = some n

theorem Started.numOk (h : Started n) : NumOk 0 n := by
  rcases h with ⟨st, strConfig, current, h⟩ | ⟨st, strConfig, h⟩
  · exact numOk_init h
  · exact numOk_initAsLearner h

/-! ## Runs -/

inductive ConfigOp where
  | change (val : ConfigureChangeValue)
  | forceSingleLeader
  | role (state : State)
  deriving DecidableEq, Repr

/-- One operation of a server that was not removed. A learner leaves its
role by a change or by `forceSingleLeader` only. -/
def configStep (n : Node) (op : ConfigOp) : Option Node :=
  if n.stopped then none
  else
    match op with
    | .change val => applyConfigureChangeValue n val
    | .forceSingleLeader => forceSingleLeader n
    | .role state =>
      if n.state = .learner ∨ state = .learner then none else some { n with state := state }

def KeepsSelf (n : Node) : ConfigOp → Prop
  | .change val => ¬ ChangesSelf n val
  | _ => True

theorem NumOk.configStep (h : NumOk d n) {op : ConfigOp} (hs : configStep n op = some n') :
    KeepsSelf n op ∧ NumOk d n' ∨
      ¬ KeepsSelf n op ∧ ((∃ d', 0 < d' ∧ NumOk d' n') ∨ Removed n') := by
  rw [Paxos.configStep.eq_def, h.running, if_neg Bool.false_ne_true] at hs
  cases op with
  | change val =>
    by_cases hself : ChangesSelf n val
    · exact .inr ⟨not_not.mpr hself, h.changesSelf hself hs⟩
    · exact .inl ⟨hself, h.applyConfigureChangeValue hself hs⟩
  | forceSingleLeader => exact .inl ⟨trivial, h.forceSingleLeader hs⟩
  | role state =>
    simp only at hs
    obtain ⟨hcond, hs⟩ := ite_none_left_eq_some.mp hs
    obtain ⟨hold, hnew⟩ := not_or.mp hcond
    cases hs
    exact .inl ⟨trivial, h.num,
      fun k s hk => .inl ((h.slots k s hk).resolve_right fun hc => hold hc.1),
      fun hc => absurd hc hnew, rfl⟩

/-- After the operations the number is right and every server has the id
of its slot, if and only if no operation changed what this server itself
is: one that turns it from a learner into a follower or the other way
round makes the number too large for good, one that removes it leaves it
with another id. -/
theorem serverNum_iff {n0 : Node} (hn0 : Started n0) {ops : List ConfigOp}
    (hs : exec configStep n0 ops = some n) :
    (getServerNumLockFree n.config = getServerNum n.config ∧
      ∀ k s, n.config.servers[k]? = some (some s) →
        s.serverId = k + 1 ∨ (n.state = .learner ∧ k = n.localSlot)) ↔
    Meets configStep KeepsSelf n0 ops := by
  have h := exec_invariant (fun ops n => exec configStep n0 ops = some n ∧
    ((∃ d, NumOk d n ∧ (d = 0 ↔ Meets configStep KeepsSelf n0 ops)) ∨
      (Removed n ∧ ¬ Meets configStep KeepsSelf n0 ops)))
    ⟨rfl, .inl ⟨0, hn0.numOk, iff_of_true rfl trivial⟩⟩ ?_ hs
  · rcases h.2 with ⟨d, hn, hd⟩ | ⟨hrem, hmeets⟩
    · rw [← hd]
      refine ⟨fun hok => ?_, fun hzero => ⟨?_, hn.slots⟩⟩
      · exact Nat.left_eq_add.mp (hok.1.symm.trans hn.num)
      · rw [hn.num, hzero, Nat.add_zero]
    · exact iff_of_false (fun hok => hrem.2 hok.2) hmeets
  · rintro ops n op n' ⟨hexec, h⟩ hstep
    refine ⟨exec_snoc.mpr ⟨n, hexec, hstep⟩, ?_⟩
    rw [meets_snoc hexec]
    rcases h with ⟨d, hn, hd⟩ | ⟨hrem, -⟩
    · rcases hn.configStep hstep with ⟨hkeep, hn'⟩ | ⟨hkeep, ⟨d', hpos, hn'⟩ | hrem⟩
      · exact .inl ⟨d, hn', by rw [hd, and_iff_left hkeep]⟩
      · exact .inl ⟨d', hn', iff_of_false hpos.ne' fun hm => hkeep hm.2⟩
      · exact .inr ⟨hrem, fun hm => hkeep hm.2⟩
    · rw [configStep.eq_def, if_pos hrem.1] at hstep
      cases hstep

def noStored : Stored := ⟨[], 0, [], []⟩

def addrA : List Char := ['a', ':', '1']

def addrB : List Char := ['b', ':', '1']

/-- `configureChange` of the leader at `addrA` adds the learner at
`addrB`. -/
def addB (ccType : CcType) : ConfigureChangeValue :=
  ⟨ccType, .addNode, [addrB], [addrA ++ ['#', '5', 'N'], addrB], [['0']], 0, false, 0, 0, false⟩

/-- The leader. -/
theorem serverNum_iff_leader :
    ∃ n0 n, exec configStep n0
      [.role .leader, .change (addB .learnerOp), .change (addB .memberOp)] =
        some n ∧
      ((getServerNumLockFree n.config = getServerNum n.config ∧
        ∀ k s, n.config.servers[k]? = some (some s) →
          s.serverId = k + 1 ∨ (n.state = .learner ∧ k = n.localSlot)) ↔
      Meets configStep KeepsSelf n0
        [.role .leader, .change (addB .learnerOp), .change (addB .memberOp)]) :=
  ⟨_, _, rfl, serverNum_iff (.inl ⟨noStored, [addrA], 1, rfl⟩) rfl⟩

/-- The learner that becomes a follower counts three servers instead of
two. -/
theorem convertedLearner_serverNum :
    ((initAsLearner noStored addrB).bind fun n0 =>
      exec configStep n0 [.change (addB .memberOp)]).map
      (fun n => (getServerNumLockFree n.config, getServerNum n.config)) = some (3, 2) := by
  decide

end PolarDB.Paxos
