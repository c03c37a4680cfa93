import PolarDB.PaxosConfigureChange

/-!
# What a configuration change depends on

A configuration change reads the configuration, the slot of the local
server and whether the server is a learner, and it writes these and the
two texts that are stored. Two nodes that agree on them (`Agree`) still
agree after the same change (`applyConfigureChangeValue_agree`), whatever
their logs, their pending changes and their other roles are, and the change
leaves the log and the pending change alone (`applyConfigureChangeValue_frame`).
-/

namespace PolarDB.Paxos

open Option (Rel)

structure Agree (n m : Node) : Prop where
  config : n.config = m.config
  localSlot : n.localSlot = m.localSlot
  learner : n.state = .learner ↔ m.state = .learner
  memberConfigure : n.memberConfigure = m.memberConfigure
  learnerConfigure : n.learnerConfigure = m.learnerConfigure

variable {n m : Node}

theorem Agree.refl (n : Node) : Agree n n := ⟨rfl, rfl, Iff.rfl, rfl, rfl⟩

theorem Agree.trans {k : Node} (h : Agree n m) (h' : Agree m k) : Agree n k :=
  ⟨h.config.trans h'.config, h.localSlot.trans h'.localSlot, h.learner.trans h'.learner,
    h.memberConfigure.trans h'.memberConfigure, h.learnerConfigure.trans h'.learnerConfigure⟩

/-- With the log, the scan index and the pending change of `n0` on the left. -/
structure AgreeIn (n0 n m : Node) : Prop extends Agree n m, Frame n0 n

theorem AgreeIn.refl (n : Node) : AgreeIn n n n := { Agree.refl n, Frame.refl n with }

variable {α : Type} {R : Node → Node → Prop} {f g : α → Option Node}

theorem rel_bind {x y : Option α} {Q : α → α → Prop}
    (h : Rel Q x y) (hf : ∀ a b, Q a b → Rel R (f a) (g b)) :
    Rel R (x.bind f) (y.bind g) := by
  cases h with
  | some h => exact hf _ _ h
  | none => exact .none

theorem rel_bind_same {x : Option α}
    (hf : ∀ a, Rel R (f a) (g a)) : Rel R (x.bind f) (x.bind g) := by
  cases x with
  | some a => exact hf a
  | none => exact .none

theorem rel_map {x y : Option Node} {f g : Node → Node}
    (h : Rel R x y) (hf : ∀ a b, R a b → R (f a) (g b)) :
    Rel R (x.map f) (y.map g) := by
  cases h with
  | some h => exact .some (hf _ _ h)
  | none => exact .none

/-! ## What is stored -/

section

variable {n0 : Node} (h : AgreeIn n0 n m) (strConfig : List (List Char))
  (val : ConfigureChangeValue) (addr : List Char)
include h

theorem AgreeIn.localServer : localServer n = localServer m := by
  rw [Paxos.localServer, Paxos.localServer, h.config, h.localSlot]

theorem AgreeIn.updateLocalServer (f : Server → Server) :
    AgreeIn n0 (updateLocalServer n f) (updateLocalServer m f) :=
  { h with
    config := by rw [Paxos.updateLocalServer, Paxos.updateLocalServer, h.config, h.localSlot] }

theorem AgreeIn.setConfig (config : StableConfiguration) :
    AgreeIn n0 { n with config := config } { m with config := config } :=
  { h with config := rfl }

theorem storeMembers_agree : Rel (AgreeIn n0) (storeMembers n) (storeMembers m) := by
  rw [storeMembers, h.localServer, h.config]
  exact rel_bind_same fun s => rel_bind_same fun str =>
    .some { h with config := rfl, memberConfigure := rfl }

theorem storeLearners_agree : Rel (AgreeIn n0) (storeLearners n) (storeLearners m) := by
  rw [storeLearners, storeLearners, h.config]
  cases learnersToString m.config.learners with
  | none => exact .none
  | some str => exact .some { h with config := rfl, learnerConfigure := rfl }

theorem storeLearnerNode_agree :
    Rel (AgreeIn n0) (storeLearnerNode n) (storeLearnerNode m) := by
  refine rel_bind (storeLearners_agree h) fun a b hab => ?_
  rw [hab.config]
  exact rel_bind_same fun str => .some { hab with config := rfl, memberConfigure := rfl }

theorem addMemberAndStore_agree :
    Rel (AgreeIn n0) (addMemberAndStore n addr) (addMemberAndStore m addr) := by
  rw [addMemberAndStore, addMemberAndStore, h.config]
  split
  · exact rel_bind (storeLearners_agree (h.setConfig _)) fun _ _ => storeMembers_agree
  · exact .some h

theorem delMemberAndStore_agree :
    Rel (AgreeIn n0) (delMemberAndStore n addr) (delMemberAndStore m addr) := by
  rw [delMemberAndStore, h.config]
  refine rel_bind_same fun r => ?_
  split
  · exact storeMembers_agree (h.setConfig _)
  · exact .some h

theorem addLearnersAndStore_agree (replaceAll : Bool) :
    Rel (AgreeIn n0) (addLearnersAndStore n strConfig replaceAll)
      (addLearnersAndStore m strConfig replaceAll) := by
  rw [addLearnersAndStore, addLearnersAndStore, h.config]
  split
  · exact .some h
  · exact rel_bind_same fun config => storeLearners_agree (h.setConfig config)

theorem delLearnersAndStore_agree :
    Rel (AgreeIn n0) (delLearnersAndStore n strConfig)
      (delLearnersAndStore m strConfig) := by
  rw [delLearnersAndStore, h.config]
  exact storeLearners_agree (h.setConfig _)

theorem replaceLearners_agree :
    Rel (AgreeIn n0) (replaceLearners n strConfig) (replaceLearners m strConfig) := by
  rw [replaceLearners, h.config]
  exact addLearnersAndStore_agree (h.setConfig _) strConfig true

/-! ## The changes -/

theorem learnerToFollower_agree :
    Rel (AgreeIn n0) (learnerToFollower n val addr) (learnerToFollower m val addr) := by
  rw [learnerToFollower, learnerToFollower, h.config]
  simp only
  split
  · exact .none
  refine rel_bind_same fun config => ?_
  have hnew (i : Nat) : AgreeIn n0 { n with config := config, localSlot := i, state := .follower }
      { m with config := config, localSlot := i, state := .follower } :=
    { h with config := rfl, localSlot := rfl, learner := Iff.rfl }
  refine rel_bind_same fun s => rel_bind (replaceLearners_agree (hnew _) _) fun a b hab => ?_
  exact rel_bind (storeLearners_agree hab) fun _ _ => storeMembers_agree

theorem addMemberByRole_agree (localAddr : List Char) :
    Rel (AgreeIn n0) (addMemberByRole n val addr localAddr)
      (addMemberByRole m val addr localAddr) := by
  simp only [addMemberByRole, ne_eq, h.learner]
  split
  · exact addMemberAndStore_agree h addr
  split
  · exact learnerToFollower_agree h val addr
  · exact delLearnersAndStore_agree h [addr]

theorem AgreeIn.autoChange {p q : Prop} [Decidable p] [Decidable q] (ret : Int) :
    AgreeIn n0 (if p then autoChangeDone n ret else n) (if q then autoChangeDone m ret else m) := by
  split <;> split <;> exact { h with }

theorem applyAddMember_agree :
    Rel (AgreeIn n0) (applyAddMember n val addr) (applyAddMember m val addr) := by
  rw [applyAddMember, applyAddMember, h.localServer]
  split
  · exact .none
  refine rel_bind_same fun s => rel_bind (addMemberByRole_agree h val addr s.strAddr) fun a b hab =>
    ?_
  exact .some (hab.autoChange 0)

theorem applyDelMember_agree :
    Rel (AgreeIn n0) (applyDelMember n addr) (applyDelMember m addr) := by
  simp only [applyDelMember, h.learner, h.localServer]
  split
  · exact .some h
  refine rel_bind_same fun s => ?_
  split
  · exact delMemberAndStore_agree h addr
  · exact .some { h.updateLocalServer _ with }

theorem followerToLearner_agree :
    Rel (AgreeIn n0) (followerToLearner n addr) (followerToLearner m addr) := by
  rw [followerToLearner, h.localServer, h.config]
  refine rel_bind_same fun s => rel_bind_same fun old => rel_bind_same fun config => ?_
  have hnew :
      AgreeIn n0 { n with config := config, localSlot := 0 }
        { m with config := config, localSlot := 0 } :=
    { h with config := rfl, localSlot := rfl }
  refine rel_bind (addLearnersAndStore_agree hnew [addr] false) fun a b hab => ?_
  refine rel_bind (storeLearnerNode_agree hab) fun a b hab => .some ?_
  exact { hab.updateLocalServer _ with learner := Iff.rfl }

theorem applyDowngradeMember_agree :
    Rel (AgreeIn n0) (applyDowngradeMember n addr) (applyDowngradeMember m addr) := by
  simp only [applyDowngradeMember, h.learner, h.localServer]
  split
  · exact addLearnersAndStore_agree h [addr] false
  refine rel_bind_same fun s => ?_
  split
  · exact rel_bind (delMemberAndStore_agree h addr) fun _ _ hab =>
      addLearnersAndStore_agree hab [addr] false
  · exact followerToLearner_agree h addr

theorem applyConfigureMember_agree :
    Rel (AgreeIn n0) (applyConfigureMember n val addr)
      (applyConfigureMember m val addr) := by
  simp only [applyConfigureMember, h.learner, h.config]
  split
  · exact .some h
  split
  · exact .some h
  split
  · exact .some h
  · exact storeMembers_agree (h.setConfig _)

theorem applyAddLearners_agree :
    Rel (AgreeIn n0) (applyAddLearners n val) (applyAddLearners m val) := by
  rw [applyAddLearners, h.localServer]
  refine rel_bind_same fun s => ?_
  have hrefresh :
      Rel (AgreeIn n0) (refreshLearners n val s.strAddr)
        (refreshLearners m val s.strAddr) := by
    rw [refreshLearners, refreshLearners]
    split
    · exact replaceLearners_agree h _
    · exact .some h
  refine rel_bind hrefresh fun a b hab =>
    rel_bind (addLearnersAndStore_agree hab _ false) fun a b hab => ?_
  split
  · cases val.addrs.head? with
    | none => exact .none
    | some addr => exact .some { hab with }
  · exact .some hab

theorem applyDelLearners_agree :
    Rel (AgreeIn n0) (applyDelLearners n val) (applyDelLearners m val) := by
  exact rel_map (delLearnersAndStore_agree h val.addrs) fun a b hab => hab.autoChange (-2)

theorem applyConfigureLearner_agree :
    Rel (AgreeIn n0) (applyConfigureLearner n val addr)
      (applyConfigureLearner m val addr) := by
  simp only [applyConfigureLearner, h.config]
  split
  · exact .some h
  split
  · exact .some h
  · exact rel_map (storeLearners_agree (h.setConfig _)) fun a b hab =>
      { hab with config := by rw [hab.config] }

theorem applySyncLearnerAll_agree :
    Rel (AgreeIn n0) (applySyncLearnerAll n val) (applySyncLearnerAll m val) := by
  rw [applySyncLearnerAll, h.config]
  refine rel_bind_same fun strLearners => ?_
  split
  · exact rel_bind (replaceLearners_agree h _) fun _ _ => storeLearners_agree
  · exact .some h

theorem applyConfigureChangeValue_agree :
    Rel (AgreeIn n0) (applyConfigureChangeValue n val)
      (applyConfigureChangeValue m val) := by
  rw [applyConfigureChangeValue, applyConfigureChangeValue]
  split
  · refine rel_bind_same fun addr => ?_
    split
    · exact applyAddMember_agree h val addr
    · exact applyDelMember_agree h addr
    · exact applyDowngradeMember_agree h addr
    · exact applyConfigureMember_agree h val addr
    · exact .some h
  · exact applyAddLearners_agree h val
  · exact applyAddLearners_agree h val
  · exact applyDelLearners_agree h val
  · exact rel_bind_same fun addr => applyConfigureLearner_agree h val addr
  · exact applySyncLearnerAll_agree h val
  · exact .some h

end

theorem frame_of_rel {n0 n' : Node} {x : Option Node} (h : Rel (AgreeIn n0) x x)
    (hx : x = some n') : Frame n0 n' := by
  subst hx
  cases h with
  | some h => exact h.toFrame

theorem applyConfigureChangeValue_frame {val : ConfigureChangeValue} {n' : Node}
    (h : applyConfigureChangeValue n val = some n') : Frame n n' :=
  frame_of_rel (applyConfigureChangeValue_agree (.refl n) val) h

theorem finishChange_frame (n : Node) (logIndex : Nat) :
    Frame { n with scanIndex := (finishChange n logIndex).scanIndex } (finishChange n logIndex) ∧
    (n.ccMgr.needNotify = true → (finishChange n logIndex).ccMgr.applied = true) ∧
    Agree n (finishChange n logIndex) := by
  rw [finishChange]
  split <;> split
  · exact ⟨⟨rfl, rfl, rfl, rfl, rfl⟩, fun _ => rfl, { Agree.refl n with }⟩
  · rename_i hnotify
    exact ⟨⟨rfl, rfl, rfl, rfl, rfl⟩, fun h => absurd h hnotify, { Agree.refl n with }⟩
  · exact ⟨⟨rfl, rfl, rfl, rfl, rfl⟩, fun _ => rfl, { Agree.refl n with }⟩
  · rename_i hnotify
    exact ⟨⟨rfl, rfl, rfl, rfl, rfl⟩, fun h => absurd h hnotify, Agree.refl n⟩

end PolarDB.Paxos
