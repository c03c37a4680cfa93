import Mathlib.Data.List.Perm.Subperm
import Mathlib.Order.Nat
import PolarDB.Basic
import PolarDB.Lts

/-!
# The table of a mini transaction

The pages that one WAL record touches are kept in a table with coalesced
hashing: a tag whose home slot is taken goes to the highest free slot, behind
the last slot of the chain that passes through its home. Chains of several
homes grow together.

The slots are found again as long as every tag comes with one key, as where the
key is its hash (`request_coalesced`); under two keys a tag takes two slots
(`two_keys`).

Slot `l` is `info[l - 1]`, whose fields are kept apart; 0 is no slot. The page
locks are left out.
-/

namespace PolarDB.MiniTransaction

open Function List Option Relation

def tableSize : Nat := 31 + 31 / 5

structure MiniTrans (Tag : Type) where
  started : Bool
  lsn : Nat
  occupied : Nat → Bool
  tag : Nat → Tag
  refcount : Nat → Nat
  next : Nat → Nat

def miniTransStart {Tag : Type} (zero : Tag) (lsn : Nat) : MiniTrans Tag :=
  ⟨true, lsn, fun _ => false, fun _ => zero, fun _ => 0, fun _ => 0⟩

/-- The loops over a chain, which end with the first slot that meets `stop`
or with 0. Without `fuel` the loop has not ended. -/
def walk (next : Nat → Nat) (stop : Nat → Bool) : Nat → Nat → Option Nat
  | _, 0 => some 0
  | 0, _ + 1 => none
  | fuel + 1, i + 1 => if stop (i + 1) then some (i + 1) else walk next stop fuel (next (i + 1))

def emptyBucket (occupied : Nat → Bool) : Option Nat :=
  (range' 1 tableSize).reverse.find? fun i => !occupied i

variable {Tag : Type}

def miniTransSetInfo (m : MiniTrans Tag) (l : Nat) (tag : Tag) : MiniTrans Tag :=
  { m with
    occupied := update m.occupied l true
    tag := update m.tag l tag
    refcount := update m.refcount l 1
    next := update m.next l 0 }

/-- `mini_trans_insert_tag`, `none` where it panics. -/
def miniTransInsertTag (m : MiniTrans Tag) (tag : Tag) (key : Nat) : Option (MiniTrans Tag × Nat) :=
  if m.lsn = 0 ∨ m.started = false ∨ tableSize ≤ key then none
  else if m.occupied (key + 1) = false then
    some (miniTransSetInfo m (key + 1) tag, key + 1)
  else match emptyBucket m.occupied with
    | none => some (m, 0)
    | some i =>
      let m := miniTransSetInfo m i tag
      (walk m.next (fun l => m.next l = 0) tableSize (key + 1)).map fun it =>
        ({ m with next := update m.next it i }, i)

section

variable [DecidableEq Tag]

def miniTransFind (m : MiniTrans Tag) (tag : Tag) (key : Nat) : Option Nat :=
  if m.lsn = 0 ∨ m.started = false then none
  else if m.occupied (key + 1) then
    walk m.next (fun l => m.tag l = tag) tableSize (key + 1)
  else some 0

def miniTransIncreaseRef (m : MiniTrans Tag) (tag : Tag) (key : Nat) :
    Option (MiniTrans Tag × Nat) :=
  (miniTransFind m tag key).map fun l =>
    (if l = 0 then m
      else { m with refcount := update m.refcount l (m.refcount l + 1) }, l)

def miniTransKeyLock (m : MiniTrans Tag) (tag : Tag) (key : Nat) : Option (MiniTrans Tag × Nat) :=
  (miniTransIncreaseRef m tag key).bind fun (m, l) =>
    if l = 0 then miniTransInsertTag m tag key else some (m, l)

def request (s : MiniTrans Tag × List (Tag × Nat)) (r : Tag × Nat) :
    Option (MiniTrans Tag × List (Tag × Nat)) :=
  (miniTransKeyLock s.1 r.1 r.2).map fun (m, l) => (m, s.2 ++ [(r.1, l)])

/-- The second tag joins the chain of the first one and is found from the
home slot that it was put in. A tag with two keys has two slots. -/
theorem two_keys : ((exec request (miniTransStart 0 1, []) [(10, 5), (11, 5)]).bind fun s =>
      miniTransFind s.1 11 36) = some 37 ∧
    (exec request (miniTransStart 0 1, []) [(10, 5), (10, 7)]).map (fun s =>
      (s.1.occupied 6, s.1.tag 6, s.1.occupied 8, s.1.tag 8)) = some (true, 10, true, 10) :=
  ⟨rfl, rfl⟩

end

variable {m : MiniTrans Tag} {tag : Tag} {keyOf : Tag → Nat} {next : Nat → Nat} {order : List Nat}
  {stop : Nat → Bool} {fuel i j k key : Nat} {log : List (Tag × Nat)}

/-! ## Chains -/

def Link (next : Nat → Nat) (a b : Nat) : Prop := next a = b ∧ b ≠ 0

abbrev Reach (next : Nat → Nat) : Nat → Nat → Prop := ReflTransGen (Link next)

/-- The slots in the order in which they were taken. Links go forward. -/
structure Ordered (next : Nat → Nat) (order : List Nat) : Prop where
  nodup : order.Nodup
  range : ∀ i ∈ order, i ≠ 0 ∧ i ≤ tableSize
  link : ∀ a b, Link next a b → a ∈ order ∧ b ∈ order ∧ order.idxOf a < order.idxOf b

theorem Ordered.length_le (h : Ordered next order) : order.length ≤ tableSize := by
  have hsub : order ⊆ range' 1 tableSize := fun i hi => by
    have := h.range i hi
    rw [mem_range'_1]
    omega
  simpa using (h.nodup.subperm hsub).length_le

theorem Ordered.acyclic (h : Ordered next order) (i : Nat) : ¬ TransGen (Link next) i i :=
  fun hc => by
  have hlt := hc.lift order.idxOf fun a b hl => (h.link a b hl).2.2
  rw [transGen_eq_self] at hlt
  exact lt_irrefl _ hlt

/-- A loop over the chain from a slot ends, and with 0 only if it has seen
the whole chain. -/
theorem Ordered.walk (h : Ordered next order) (hi : i ∈ order)
    (hfuel : order.length ≤ fuel + order.idxOf i) :
    ∃ r, walk next stop fuel i = some r ∧
      (r = 0 ∧ (∀ j, Reach next i j → stop j = false) ∧ (∃ j, Reach next i j ∧ next j = 0) ∨
       r ∈ order ∧ Reach next i r ∧ stop r = true) := by
  induction fuel generalizing i with
  | zero =>
    have := idxOf_lt_length_of_mem hi
    omega
  | succ fuel ih =>
    obtain ⟨i, rfl⟩ := Nat.exists_eq_add_one_of_ne_zero (h.range i hi).1
    by_cases hstop : stop (i + 1) = true
    · exact ⟨i + 1, if_pos hstop, .inr ⟨hi, .refl, hstop⟩⟩
    have hw : MiniTransaction.walk next stop (fuel + 1) (i + 1) =
        MiniTransaction.walk next stop fuel (next (i + 1)) := if_neg hstop
    rw [hw]
    by_cases hend : next (i + 1) = 0
    · refine ⟨0, by rw [hend]; cases fuel <;> rfl, .inl ⟨rfl, fun j hr => ?_, i + 1, .refl, hend⟩⟩
      obtain rfl | ⟨_, hl, _⟩ := hr.cases_head
      · exact eq_false_of_ne_true hstop
      · exact absurd (hl.1.symm.trans hend) hl.2
    · have hl : Link next (i + 1) (next (i + 1)) := ⟨rfl, hend⟩
      obtain ⟨-, hmem, hlt⟩ := h.link _ _ hl
      obtain ⟨r, hr, hres⟩ := ih hmem (by omega)
      refine ⟨r, hr,
        hres.imp (fun ⟨h0, hall, j, hj, hj0⟩ => ⟨h0, fun j hr => ?_, j, hj.head hl, hj0⟩)
        fun ⟨hmem, hreach, hs⟩ => ⟨hmem, hreach.head hl, hs⟩⟩
      obtain rfl | ⟨c, hc, hr⟩ := hr.cases_head
      · exact eq_false_of_ne_true hstop
      · exact hall j (hc.1 ▸ hr)

/-! ## The table -/

/-- The table after the requests with the results in `log`: every tag is in
one slot, on the chain of its home. -/
structure Held (keyOf : Tag → Nat) (m : MiniTrans Tag) (order : List Nat) (log : List (Tag × Nat)) :
    Prop extends Ordered m.next order where
  active : m.lsn ≠ 0 ∧ m.started = true
  mem : ∀ i, i ∈ order ↔ m.occupied i = true
  home : ∀ i ∈ order, keyOf (m.tag i) + 1 ∈ order ∧ Reach m.next (keyOf (m.tag i) + 1) i
  one : ∀ i ∈ order, ∀ j ∈ order, m.tag i = m.tag j → i = j
  granted : ∀ r ∈ log, r.2 ≠ 0 → r.2 ∈ order ∧ m.tag r.2 = r.1
  logged : ∀ i ∈ order, (m.tag i, i) ∈ log
  full : ∀ r ∈ log, r.2 = 0 → ∀ i, i ≠ 0 → i ≤ tableSize → i ∈ order

section

variable (h : Held keyOf m order log)
include h

theorem Held.take (hk : k ∉ order) (hrange : k ≠ 0 ∧ k ≤ tableSize)
    (htag : ∀ i ∈ order, m.tag i ≠ tag) (hmono : ∀ a b, Link m.next a b → Link next a b)
    (hnew : ∀ a b, Link next a b → Link m.next a b ∨ a ∈ order ∧ b = k)
    (hhome : keyOf tag + 1 ∈ order ++ [k]) (hreach : Reach next (keyOf tag + 1) k) :
    Held keyOf { miniTransSetInfo m k tag with next := next } (order ++ [k])
      (log ++ [(tag, k)]) := by
  have hold : ∀ i ∈ order, (miniTransSetInfo m k tag).tag i = m.tag i := fun i hi =>
    update_of_ne (ne_of_mem_of_not_mem hi hk) _ _
  have hself : (miniTransSetInfo m k tag).tag k = tag := update_self ..
  have hsplit {P : Nat → Prop} (hall : ∀ i ∈ order, P i) (hone : P k) : ∀ i ∈ order ++ [k], P i :=
    forall_mem_snoc hall hone
  constructor
  · refine ⟨?_, hsplit h.range hrange, fun a b hl => ?_⟩
    · exact nodup_append.mpr ⟨h.nodup, nodup_cons.mpr ⟨not_mem_nil, nodup_nil⟩,
        fun i hi => forall_mem_singleton.mpr (ne_of_mem_of_not_mem hi hk)⟩
    · rcases hnew a b hl with hl | ⟨ha, rfl⟩
      · obtain ⟨ha, hb, hlt⟩ := h.link a b hl
        rw [idxOf_append_of_mem ha, idxOf_append_of_mem hb]
        exact ⟨mem_append_left _ ha, mem_append_left _ hb, hlt⟩
      · have hlt := idxOf_lt_length_of_mem ha
        rw [idxOf_append_of_mem ha, idxOf_append_of_notMem hk]
        exact ⟨mem_append_left _ ha, by simp, hlt.trans_le (Nat.le_add_right ..)⟩
  · exact h.active
  · simp [miniTransSetInfo, update_apply, h.mem, or_comm]
  · refine hsplit (fun i hi => ?_) ?_
    · obtain ⟨hmem, hr⟩ := h.home i hi
      simp only [hold i hi]
      exact ⟨mem_append_left _ hmem, ReflTransGen.mono hmono _ _ hr⟩
    · simp only [hself]
      exact ⟨hhome, hreach⟩
  · refine hsplit (fun i hi => hsplit (fun j hj => ?_) ?_) (hsplit (fun j hj => ?_) fun _ => rfl)
    · simp only [hold i hi, hold j hj]
      exact h.one i hi j hj
    · simp only [hold i hi, hself]
      exact fun heq => absurd heq (htag i hi)
    · simp only [hold j hj, hself]
      exact fun heq => absurd heq.symm (htag j hj)
  · refine forall_mem_snoc (fun r hr hr0 => ?_) ?_
    · obtain ⟨hmem, htag⟩ := h.granted r hr hr0
      exact ⟨mem_append_left _ hmem, (hold _ hmem).trans htag⟩
    · exact fun _ => ⟨by simp, hself⟩
  · refine hsplit (fun i hi => ?_) (by simp [hself])
    simp only [hold i hi]
    exact mem_append_left _ (h.logged i hi)
  · refine forall_mem_append.mpr ⟨fun r hr hr0 i hi hle => ?_, ?_⟩
    · exact mem_append_left _ (h.full r hr hr0 i hi hle)
    · exact forall_mem_singleton.mpr fun h0 => absurd h0 hrange.1

theorem Held.insertTag (hkey : keyOf tag < tableSize) (htag : ∀ i ∈ order, m.tag i ≠ tag) :
    miniTransInsertTag m tag (keyOf tag) = some (m, 0) ∧ (∀ i, i ≠ 0 → i ≤ tableSize → i ∈ order) ∨
    ∃ m' k, miniTransInsertTag m tag (keyOf tag) = some (m', k) ∧
      Held keyOf m' (order ++ [k]) (log ++ [(tag, k)]) := by
  have hnext : ∀ {k}, k ∉ order → update m.next k 0 = m.next := fun {k} hk => by
    refine update_eq_self_iff.mpr (Eq.symm ?_)
    by_contra h0
    exact hk (h.link k _ ⟨rfl, h0⟩).1
  have hfree : ∀ {k}, m.occupied k = false → k ∉ order := fun hk hmem => by
    simp [(h.mem _).mp hmem] at hk
  rw [miniTransInsertTag, if_neg (by simp [h.active, hkey])]
  split
  · rename_i hocc
    have hk := hfree hocc
    refine .inr ⟨_, _, rfl, ?_⟩
    have := h.take hk ⟨by omega, hkey⟩ htag (fun _ _ hl => hl) (fun _ _ hl => .inl hl)
      (by simp) .refl
    simpa only [miniTransSetInfo, hnext hk] using this
  · rename_i hocc
    have hhome : keyOf tag + 1 ∈ order := (h.mem _).mpr (eq_true_of_ne_false hocc)
    split
    · rename_i hnone
      refine .inl ⟨rfl, fun i hi hle => (h.mem i).mpr ?_⟩
      simpa using find?_eq_none.mp hnone i (by simp; omega)
    · rename_i k hsome
      have hk := hfree (by simpa using find?_some hsome)
      have hrange : k ≠ 0 ∧ k ≤ tableSize := by
        have := mem_of_find?_eq_some hsome
        rw [mem_reverse, mem_range'_1] at this
        omega
      simp only [miniTransSetInfo, hnext hk]
      obtain ⟨it, hw, ⟨-, hall, j, hj, hj0⟩ | ⟨hmem, hreach, hend⟩⟩ := h.walk hhome
        (h.length_le.trans (Nat.le_add_right ..))
      · exact absurd hj0 (of_decide_eq_false (hall j hj))
      · have hend := of_decide_eq_true hend
        have hmono : ∀ a b, Link m.next a b → Link (update m.next it k) a b := fun a b hl => by
          have hne : a ≠ it := fun heq => hl.2 (hl.1.symm.trans (heq ▸ hend))
          exact ⟨(update_of_ne hne _ _).trans hl.1, hl.2⟩
        refine .inr ⟨_, k, by rw [hw]; rfl, h.take hk hrange htag hmono
          (fun a b hl => ?_) (mem_append_left _ hhome)
          ((ReflTransGen.mono hmono _ _ hreach).tail ⟨update_self .., hrange.1⟩)⟩
        by_cases ha : a = it
        · subst ha
          exact .inr ⟨hmem, hl.1.symm.trans (update_self ..)⟩
        · exact .inl ⟨(update_of_ne ha _ _).symm.trans hl.1, hl.2⟩

variable [DecidableEq Tag]

theorem Held.find (tag : Tag) (key : Nat) : ∃ r, miniTransFind m tag key = some r ∧
      (r = 0 ∧ (key + 1 ∈ order → ∀ j, Reach m.next (key + 1) j → m.tag j ≠ tag) ∨
       r ∈ order ∧ m.tag r = tag) := by
  rw [miniTransFind, if_neg (by simp [h.active])]
  split
  · rename_i hocc
    obtain ⟨r, hr, ⟨h0, hall, -⟩ | ⟨hmem, -, hs⟩⟩ := h.walk ((h.mem _).mpr hocc)
      (h.length_le.trans (Nat.le_add_right ..))
    · exact ⟨r, hr, .inl ⟨h0, fun _ j hj => of_decide_eq_false (hall j hj)⟩⟩
    · exact ⟨r, hr, .inr ⟨hmem, of_decide_eq_true hs⟩⟩
  · rename_i hocc
    exact ⟨0, rfl, .inl ⟨rfl, fun hmem => absurd ((h.mem _).mp hmem) hocc⟩⟩

theorem Held.find_mem (hi : i ∈ order) : miniTransFind m (m.tag i) (keyOf (m.tag i)) = some i := by
  obtain ⟨hhome, hreach⟩ := h.home i hi
  obtain ⟨r, hr, ⟨-, hall⟩ | ⟨hmem, htag⟩⟩ := h.find (m.tag i) (keyOf (m.tag i))
  · exact absurd rfl (hall hhome i hreach)
  · rw [hr, h.one r hmem i hi htag]

theorem Held.find_not_mem (htag : ∀ i ∈ order, m.tag i ≠ tag) (key : Nat) :
    miniTransFind m tag key = some 0 := by
  obtain ⟨r, hr, ⟨h0, -⟩ | ⟨hmem, heq⟩⟩ := h.find tag key
  · rw [hr, h0]
  · exact absurd heq (htag r hmem)

theorem Held.request (hkey : keyOf tag < tableSize) :
    ∃ m' log' order', request (m, log) (tag, keyOf tag) = some (m', log') ∧
      Held keyOf m' order' log' := by
  unfold MiniTransaction.request miniTransKeyLock miniTransIncreaseRef
  by_cases htag : ∃ i ∈ order, m.tag i = tag
  · obtain ⟨i, hi, rfl⟩ := htag
    have h0 := (h.range i hi).1
    simp only [h.find_mem hi, map_some, bind_some, if_neg h0]
    exact ⟨_, _, order, rfl, h.toOrdered, h.active, h.mem, h.home, h.one,
      forall_mem_snoc h.granted (fun _ => ⟨hi, rfl⟩),
      fun i hi => mem_append_left _ (h.logged i hi),
      forall_mem_snoc h.full (fun heq => absurd heq h0)⟩
  · have htag : ∀ i ∈ order, m.tag i ≠ tag := fun i hi heq => htag ⟨i, hi, heq⟩
    simp only [h.find_not_mem htag, map_some, bind_some, if_pos]
    obtain ⟨heq, hfull⟩ | ⟨m', k, heq, hheld⟩ := h.insertTag hkey htag
    · rw [heq]
      exact ⟨m, _, order, rfl, { h with
        granted := forall_mem_snoc h.granted (fun h0 => absurd rfl h0)
        logged := fun i hi => mem_append_left _ (h.logged i hi)
        full := forall_mem_snoc h.full (fun _ => hfull) }⟩
    · rw [heq]
      exact ⟨m', _, _, rfl, hheld⟩

end

/-- What the requests with the results in `log` have made of the table. A
request that fails leaves the table as it was. -/
structure Coalesced [DecidableEq Tag] (keyOf : Tag → Nat) (m : MiniTrans Tag)
    (log : List (Tag × Nat)) : Prop where
  one : ∀ i j, m.occupied i = true → m.occupied j = true → m.tag i = m.tag j → i = j
  acyclic : ∀ i, ¬ TransGen (Link m.next) i i
  found : ∀ tag l, (tag, l) ∈ log → l ≠ 0 →
    m.occupied l = true ∧ m.tag l = tag ∧ miniTransFind m tag (keyOf tag) = some l
  missing : ∀ tag, (∀ l, (tag, l) ∈ log → l = 0) → ∀ key, miniTransFind m tag key = some 0
  full : ∀ tag, (tag, 0) ∈ log → ∀ i, i ≠ 0 → i ≤ tableSize → m.occupied i = true

theorem Held.coalesced [DecidableEq Tag] (h : Held keyOf m order log) : Coalesced keyOf m log where
  one i j hi hj := h.one i ((h.mem i).mpr hi) j ((h.mem j).mpr hj)
  acyclic := h.acyclic
  found tag l hmem h0 := by
    obtain ⟨hl, rfl⟩ : l ∈ order ∧ m.tag l = tag := h.granted _ hmem h0
    exact ⟨(h.mem l).mp hl, rfl, h.find_mem hl⟩
  missing tag hnone key := h.find_not_mem (fun i hi heq => by
    subst heq
    exact (h.range i hi).1 (hnone i (h.logged i hi))) key
  full tag hmem i hi hle := (h.mem i).mp (h.full _ hmem rfl i hi hle)

/-- Every request returns, and the tags are found again. -/
theorem request_coalesced [DecidableEq Tag] {zero : Tag} {lsn : Nat} (hlsn : lsn ≠ 0)
    (hkey : ∀ tag, keyOf tag < tableSize) (tags : List Tag) :
    ∃ m log, exec request (miniTransStart zero lsn, []) (tags.map fun tag => (tag, keyOf tag)) =
      some (m, log) ∧ Coalesced keyOf m log := by
  suffices ∃ m log order, exec request (miniTransStart zero lsn, [])
      (tags.map fun tag => (tag, keyOf tag)) = some (m, log) ∧ Held keyOf m order log from
    this.imp fun m ⟨log, order, hs, h⟩ => ⟨log, hs, h.coalesced⟩
  induction tags using reverseRecOn with
  | nil =>
    refine ⟨_, [], [], rfl, ⟨nodup_nil, by simp, fun a b hl => absurd hl.1.symm hl.2⟩,
      ⟨hlsn, rfl⟩, fun i => ?_, by simp, by simp, by simp, by simp, by simp⟩
    simp [miniTransStart]
  | append_singleton tags tag ih =>
    obtain ⟨m, log, order, hs, h⟩ := ih
    obtain ⟨m', log', order', hr, h'⟩ := h.request (hkey tag)
    rw [map_append]
    exact ⟨m', log', order', exec_snoc.mpr ⟨_, hs, hr⟩, h'⟩

/-- Three tags of one home. -/
theorem request_coalesced_modulo :
    ∃ m log, exec request (miniTransStart 0 1, []) ([10, 41, 72].map fun tag => (tag, tag % 31)) =
      some (m, log) ∧ Coalesced (· % 31) m log :=
  request_coalesced (by decide) (fun tag => (tag.mod_lt (by decide)).trans (by decide)) _

end PolarDB.MiniTransaction
