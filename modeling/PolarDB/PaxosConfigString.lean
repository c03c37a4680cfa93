import Mathlib.Data.Nat.Digits.Lemmas
import PolarDB.PaxosConfiguration

/-!
# Reading the stored configuration back

`restoreMembers` and `restoreLearners` do with a stored text what
`Paxos::init` does: `stringToVector` splits it, `installConfig` or
`addLearners` makes a server of each piece.

A number is stored as the character `'0' + n`, so the tens of a learner's
source may be a separator: `;` for 11 and `@` for 16. `PieceOk` says what
a piece may look like for the loop of `stringToVector` to find its end.
Two things do not come back (`configString_iff`): a force sync member is
written with `F` and read with `S`, and the last piece of the learners is
cut at a `@` that is part of its source.
-/

namespace PolarDB.Paxos

open List Option

/-! ## Characters -/

variable {n : Nat}

theorem charOf_toNat (h : n < 80) : (charOf n).toNat = n + 48 := by
  revert n
  decide

theorem digitOf_charOf {n m : Nat} (h : n < 80) (hm : 80 ≤ m) : digitOf (charOf n) m = n := by
  have hval : ((n + 48 : Nat) : Int) - 48 = n := by omega
  rw [digitOf, charOf_toNat h, if_pos (by omega), hval, Int.emod_eq_of_lt (by omega) (by omega)]
  rfl

theorem charOf_digit (h : n < 10) :
    (charOf n).isDigit = true ∧ charOf n ≠ ';' ∧ charOf n ≠ '$' ∧ charOf n ≠ '@' := by
  revert n
  decide

theorem charOf_tens (h : n < 20) : (charOf n = ';' ↔ n = 11) ∧ (charOf n = '@' ↔ n = 16) := by
  revert n
  decide

theorem decimal_isDigit (n : Nat) : ∀ c ∈ decimal n, c.isDigit = true := by
  intro c hc
  rw [decimal] at hc
  split at hc
  · rw [mem_singleton.mp hc]
    rfl
  · obtain ⟨d, hd, rfl⟩ := mem_map.mp hc
    exact (charOf_digit (Nat.digits_lt_base (by decide) (mem_reverse.mp hd))).1

theorem stoull_decimal (h0 : n ≠ 0) (h : n < uint64Size) : stoull (decimal n) = some n := by
  have hdigits : (decimal n).takeWhile Char.isDigit = decimal n :=
    takeWhile_eq_self_iff.mpr (decimal_isDigit n)
  have hne : decimal n ≠ [] := by
    rw [decimal, if_neg h0]
    simpa using Nat.digits_ne_nil_iff_ne_zero.mpr h0
  have hval : Nat.ofDigits 10 ((decimal n).reverse.map fun c => c.toNat - 48) = n := by
    rw [decimal, if_neg h0, ← map_reverse, reverse_reverse, List.map_map]
    have hid : (Nat.digits 10 n).map ((fun c : Char => c.toNat - 48) ∘ charOf) =
        Nat.digits 10 n := by
      refine (map_congr_left fun d hd => ?_).trans (map_id _)
      have := Nat.digits_lt_base (by decide) hd
      rw [Function.comp_apply, charOf_toNat (by omega)]
      rfl
    rw [hid, Nat.ofDigits_digits]
  simp only [stoull, hdigits, hval]
  rw [if_neg hne, if_pos h]

/-! ## Pieces -/

variable {u a t p : List Char} {c : Char}

theorem find_append (h : c ∉ a) :
    find (u ++ (a ++ c :: t)) c u.length = some (u.length + a.length) := by
  have hidx : (a ++ c :: t).idxOf? c = some a.length := by
    rw [idxOf?_eq_some_iff]
    refine ⟨by simp, by simp, fun j hj heq => h ?_⟩
    rw [getElem_append_left hj] at heq
    exact heq ▸ getElem_mem hj
  rw [find, drop_left, hidx]
  rfl

theorem find_eq_none (h : c ∉ a) : find (u ++ a) c u.length = none := by
  rw [find, drop_left, idxOf?_eq_none_iff.mpr h]
  rfl

/-- A piece whose end is found: without a separator in it, or with a `;`
right behind the `$`. -/
inductive PieceOk : List Char → Prop where
  | plain {a : List Char} {c : Char} (ha : ';' ∉ a) (hc : c ≠ ';') (hd : c ≠ '$') :
      PieceOk (a ++ [c])
  | packed {a : List Char} {c : Char} (ha : ';' ∉ a) (hne : a ≠ []) (hc : c ≠ ';') :
      PieceOk (a ++ ['$', ';', c])

theorem getElem?_before : (u ++ (a ++ c :: t))[u.length + a.length + 1 - 1]? = some c := by
  rw [Nat.add_sub_cancel, ← append_assoc, ← length_append,
    getElem?_append_right le_rfl, Nat.sub_self]
  rfl

theorem findEnd_packed (ha : ';' ∉ a) (hne : a ≠ []) :
    findEnd (u ++ (a ++ '$' :: ';' :: t)) u.length =
      find ((u ++ (a ++ ['$', ';'])) ++ t) ';' (u ++ (a ++ ['$', ';'])).length := by
  have hfind : find (u ++ ((a ++ ['$']) ++ ';' :: t)) ';' u.length =
      some (u.length + (a ++ ['$']).length) := find_append (by simpa using ha)
  have hstr : (a ++ ['$']) ++ ';' :: t = a ++ '$' :: ';' :: t := append_assoc ..
  have hstr' : (u ++ (a ++ ['$', ';'])) ++ t = u ++ (a ++ '$' :: ';' :: t) := by simp
  have hlen : u.length + (a ++ ['$']).length = u.length + a.length + 1 := by
    rw [length_append]
    rfl
  have hpos := length_pos_iff.mpr hne
  rw [hstr, hlen] at hfind
  rw [findEnd, hfind, bind_some, if_pos ⟨by omega, getElem?_before⟩, hstr', length_append,
    length_append]
  rfl

theorem findEnd_piece (hp : PieceOk p) :
    findEnd (u ++ (p ++ ';' :: t)) u.length = some (u.length + p.length) := by
  cases hp with
  | @plain a c ha hc hd =>
    have hfind : find (u ++ ((a ++ [c]) ++ ';' :: t)) ';' u.length =
        some (u.length + (a ++ [c]).length) := find_append (by simp [ha, hc.symm])
    rw [findEnd, hfind, bind_some, if_neg]
    rintro ⟨-, hget⟩
    rw [length_append, length_singleton, ← Nat.add_assoc, append_assoc,
      singleton_append, getElem?_before] at hget
    exact hd (some.inj hget)
  | @packed a c ha hne hc =>
    rw [append_assoc]
    refine (findEnd_packed ha hne).trans ((find_append (by simpa using hc.symm)).trans ?_)
    simp [Nat.add_assoc]

theorem findEnd_last (hp : PieceOk p) (ht : ';' ∉ t) : findEnd (u ++ (p ++ t)) u.length = none := by
  cases hp with
  | @plain a c ha hc hd =>
    rw [findEnd, find_eq_none (by simp [ha, hc.symm, ht])]
    rfl
  | @packed a c ha hne hc =>
    rw [append_assoc]
    exact (findEnd_packed ha hne).trans (find_eq_none (by simpa using ⟨hc.symm, ht⟩))

theorem splitLoop_pieces {ps : List (List Char)} {fuel : Nat} (hps : ∀ q ∈ ps, PieceOk q)
    (hp : PieceOk p) (ht : ';' ∉ t) (hfuel : ps.length < fuel) :
    splitLoop (u ++ (ps.flatMap (· ++ [';']) ++ (p ++ t))) fuel u.length =
      (ps, u.length + (ps.flatMap (· ++ [';'])).length) := by
  induction ps generalizing u fuel with
  | nil =>
    obtain ⟨fuel, rfl⟩ := Nat.exists_eq_add_of_lt hfuel
    rw [length_nil, splitLoop, flatMap_nil, nil_append, findEnd_last hp ht]
    rfl
  | cons q ps ih =>
    obtain ⟨fuel, rfl⟩ : ∃ f, fuel = f + 1 := ⟨fuel - 1, by simp at hfuel; omega⟩
    have hq := hps q mem_cons_self
    have hrest := ih (u := u ++ (q ++ [';'])) (fun r hr => hps r (mem_cons_of_mem _ hr))
      (Nat.lt_of_succ_lt_succ hfuel)
    have hstr : u ++ ((q :: ps).flatMap (· ++ [';']) ++ (p ++ t)) =
        u ++ (q ++ ';' :: (ps.flatMap (· ++ [';']) ++ (p ++ t))) := by simp
    have hstr' : (u ++ (q ++ [';'])) ++ (ps.flatMap (· ++ [';']) ++ (p ++ t)) =
        u ++ (q ++ ';' :: (ps.flatMap (· ++ [';']) ++ (p ++ t))) := by simp
    have hlen : (u ++ (q ++ [';'])).length = u.length + q.length + 1 := by simp [Nat.add_assoc]
    rw [hstr', hlen] at hrest
    rw [splitLoop, hstr, findEnd_piece hq]
    simp only [hrest, substr, drop_left, Nat.add_sub_cancel_left, take_left]
    refine congrArg (Prod.mk _) ?_
    simp only [flatMap_cons, length_append, length_singleton]
    omega

theorem flatten_intersperse (ps : List (List Char)) (p : List Char) :
    ((ps ++ [p]).intersperse [';']).flatten = ps.flatMap (· ++ [';']) ++ p := by
  induction ps with
  | nil => exact append_nil p
  | cons q ps ih =>
    obtain ⟨r, rs, heq⟩ :=
      exists_cons_of_ne_nil (append_ne_nil_of_right_ne_nil ps (cons_ne_nil p []))
    rw [heq] at ih
    rw [cons_append, heq, intersperse_cons_cons, flatten_cons, flatten_cons, ih,
      flatMap_cons, append_assoc, append_assoc]

theorem length_le_flatMap (ps : List (List Char)) :
    ps.length ≤ (ps.flatMap (· ++ [';'])).length := by
  induction ps with
  | nil => exact Nat.le_refl 0
  | cons q ps ih =>
    rw [flatMap_cons, length_append, length_append, length_cons, length_singleton]
    omega

/-! ## Splitting -/

section Split

variable {ps : List (List Char)} {index : Nat}

section

variable (hps : ∀ q ∈ ps, PieceOk q)
include hps

theorem splitLoop_text (hp : PieceOk p) (ht : ';' ∉ t) :
    splitLoop (ps.flatMap (· ++ [';']) ++ (p ++ t))
      ((ps.flatMap (· ++ [';']) ++ (p ++ t)).length + 1) 0 =
      (ps, (ps.flatMap (· ++ [';'])).length) := by
  have hfuel : ps.length < (ps.flatMap (· ++ [';']) ++ (p ++ t)).length + 1 := by
    have := length_le_flatMap ps
    rw [length_append]
    omega
  have h := splitLoop_pieces (u := []) hps hp ht hfuel
  rwa [nil_append, length_nil, Nat.zero_add] at h

theorem stringToVector_pieces (hp : PieceOk p) (hat : '@' ∉ p) :
    stringToVector (ps.flatMap (· ++ [';']) ++ p) index = some (ps ++ [p], index) := by
  have hloop := splitLoop_text (t := []) hps hp (by simp)
  rw [append_nil] at hloop
  have hne : (ps.flatMap (· ++ [';']) ++ p).length ≠ 0 := by
    cases hp with
    | plain | packed => simp
  rw [stringToVector, hloop]
  simp only [find_eq_none hat]
  rw [if_pos hne, drop_left]

theorem stringToVector_index {n : Nat} (ha : ';' ∉ a) (hat : '@' ∉ a)
    (hc : c ≠ ';' ∧ c ≠ '$' ∧ c ≠ '@') (h0 : n ≠ 0) (hn : n < uint64Size) :
    stringToVector (ps.flatMap (· ++ [';']) ++ (a ++ [c] ++ '@' :: decimal n)) index =
      some (ps ++ [a ++ [c]], n) := by
  have ht : ';' ∉ '@' :: decimal n := by
    intro hmem
    rcases mem_cons.mp hmem with hmem | hmem
    · cases hmem
    · cases decimal_isDigit n _ hmem
  have hloop := splitLoop_text hps (.plain ha hc.1 hc.2.1) ht
  have hat' : '@' ∉ a ++ [c] := by simp [hat, hc.2.2.symm]
  rw [stringToVector, hloop]
  simp only [find_append hat']
  rw [if_neg]
  · have hdrop : (ps.flatMap (· ++ [';']) ++ (a ++ [c] ++ '@' :: decimal n)).drop
        ((ps.flatMap (· ++ [';'])).length + (a ++ [c]).length + 1) = decimal n := by
      rw [Nat.add_assoc, drop_length_add_append, drop_length_add_append]
      rfl
    rw [hdrop, stoull_decimal h0 hn, substr, drop_left, Nat.add_sub_cancel_left, take_left]
    rfl
  · rintro ⟨-, hget⟩
    rw [length_append, length_singleton, ← Nat.add_assoc, append_assoc,
      singleton_append, getElem?_before] at hget
    exact hc.2.1 (some.inj hget)

/-- The last piece is cut at a `@` behind its `$`. -/
theorem stringToVector_cut (ha : ';' ∉ a) (hat : '@' ∉ a) (hne : a ≠ []) (hc : c ≠ ';' ∧ c ≠ '$') :
    stringToVector (ps.flatMap (· ++ [';']) ++ (a ++ ['$', '@', c])) index =
      some (ps ++ [a ++ ['$']], index) := by
  have hp : PieceOk (a ++ ['$', '@', c]) := by
    have hplain : ';' ∉ a ++ ['$', '@'] := by simpa using ha
    have := PieceOk.plain hplain hc.1 hc.2
    rwa [append_assoc] at this
  have hloop := splitLoop_text (t := []) hps hp (by simp)
  rw [append_nil] at hloop
  have hfind : find (ps.flatMap (· ++ [';']) ++ (a ++ ['$', '@', c])) '@'
      (ps.flatMap (· ++ [';'])).length =
        some ((ps.flatMap (· ++ [';'])).length + (a ++ ['$']).length) := by
    have h := find_append (u := ps.flatMap (· ++ [';'])) (t := [c]) (a := a ++ ['$']) (c := '@')
      (by simpa using hat)
    rwa [append_assoc a] at h
  have hpos := length_pos_iff.mpr hne
  rw [stringToVector, hloop]
  simp only [hfind]
  have hget : (ps.flatMap (· ++ [';']) ++ (a ++ ['$', '@', c]))[(ps.flatMap (· ++ [';'])).length +
      (a ++ ['$']).length - 1]? = some '$' := by
    rw [length_append]
    exact getElem?_before
  rw [if_pos ⟨by simp; omega, hget⟩, substr, drop_left, Nat.add_sub_cancel_left]
  have htake : (a ++ ['$', '@', c]).take (a ++ ['$']).length = a ++ ['$'] := by
    rw [length_append, take_length_add_append]
    rfl
  rw [htake]

end

end Split

/-! ## Slots -/

def AddrOk (addr : List Char) : Prop :=
  3 ≤ addr.length ∧ '#' ∉ addr ∧ '$' ∉ addr ∧ ';' ∉ addr ∧ '@' ∉ addr

def MemberOk (s : Server) : Prop := AddrOk s.strAddr ∧ s.electionWeight ≤ 9

def LearnerOk (s : Server) : Prop := AddrOk s.strAddr ∧ s.learnerSource < 200

theorem AddrOk.ne_nil {addr : List Char} (h : AddrOk addr) : addr ≠ [] := by
  rintro rfl
  exact absurd h.1 (by decide)

instance (addr : List Char) : Decidable (AddrOk addr) := inferInstanceAs (Decidable (_ ∧ _))

instance (s : Server) : Decidable (MemberOk s) := inferInstanceAs (Decidable (_ ∧ _))

instance (s : Server) : Decidable (LearnerOk s) := inferInstanceAs (Decidable (_ ∧ _))

variable {s : Server}

theorem memberToString_piece (h : MemberOk s) :
    ∃ a c, memberToString s = a ++ [c] ∧ ';' ∉ a ∧ '@' ∉ a ∧ c ≠ ';' ∧ c ≠ '$' ∧ c ≠ '@' := by
  obtain ⟨⟨-, -, -, hsemi, hat⟩, hw⟩ := h
  obtain ⟨-, hw1, -, hw3⟩ := charOf_digit (Nat.lt_succ_of_le hw)
  refine ⟨s.strAddr ++ ['#', charOf s.electionWeight], if s.forceSync then 'F' else 'N',
    by rw [append_assoc]; rfl, ?_, ?_, ?_⟩
  · simpa [hsemi] using hw1.symm
  · simpa [hat] using hw3.symm
  · cases s.forceSync with
    | true | false => decide

variable {o : Option Server}

theorem slotToString_member (h : ∀ s, o = some s → MemberOk s) :
    ∃ a c, slotToString true o = a ++ [c] ∧ ';' ∉ a ∧ '@' ∉ a ∧ c ≠ ';' ∧ c ≠ '$' ∧ c ≠ '@' := by
  cases o with
  | none => exact ⟨[], '0', rfl, nofun, nofun, by decide⟩
  | some s => exact memberToString_piece (h s rfl)

theorem learnerToString_pieceOk (h : LearnerOk s) : PieceOk (learnerToString s) := by
  have hsemi := h.1.2.2.2.1
  obtain ⟨-, hy1, hy2, -⟩ := charOf_digit (Nat.mod_lt s.learnerSource (show 0 < 10 by decide))
  rw [learnerToString]
  by_cases hx : charOf (s.learnerSource / 10) = ';'
  · rw [hx]
    exact .packed hsemi h.1.ne_nil hy1
  · have := PieceOk.plain (a := s.strAddr ++ ['$', charOf (s.learnerSource / 10)])
      (by simpa [hsemi] using Ne.symm hx) hy1 hy2
    rwa [append_assoc] at this

theorem slotToString_learner (h : ∀ s, o = some s → LearnerOk s) :
    PieceOk (slotToString false o) := by
  cases o with
  | none => exact .plain (a := []) nofun (by decide) (by decide)
  | some s => exact learnerToString_pieceOk (h s rfl)

/-- A member comes back without its force sync flag. -/
theorem initServerFromString_member (t : Server) (h : MemberOk s) (isLearner : Bool) :
    initServerFromString t (memberToString s) isLearner = some { t with
        forceSync := false
        electionWeight := s.electionWeight
        strAddr := s.strAddr } := by
  have hlen : (memberToString s).length = s.strAddr.length + 3 := by
    rw [memberToString, length_append]
    rfl
  have hget : ∀ i, (memberToString s)[s.strAddr.length + i]? =
      ['#', charOf s.electionWeight, if s.forceSync then 'F' else 'N'][i]? := fun i => by
    rw [memberToString, getElem?_append_right (Nat.le_add_right ..), Nat.add_sub_cancel_left]
  have htake : (memberToString s).take s.strAddr.length = s.strAddr := take_left ..
  have hsync : (if s.forceSync then 'F' else 'N') ≠ 'S' := by
    cases s.forceSync with
    | true | false => decide
  rw [initServerFromString, hlen, if_neg (by omega)]
  simp only [Nat.add_sub_cancel, htake,
    show s.strAddr.length + 3 - 1 = s.strAddr.length + 2 from rfl,
    show s.strAddr.length + 3 - 2 = s.strAddr.length + 1 from rfl]
  rw [if_pos (show (memberToString s)[s.strAddr.length]? = some '#' from hget 0), hget 2, hget 1]
  simp only [getElem?_cons_zero, getElem?_cons_succ, bind_eq_bind, bind_some,
    hsync, decide_false, digitOf_charOf (show s.electionWeight < 80 from h.2.trans_lt (by decide))
      (show 80 ≤ uint32Size by decide)]

theorem initServerFromString_learner (t : Server) (h : LearnerOk s) (isLearner : Bool) :
    initServerFromString t (learnerToString s) isLearner = some { t with
        learnerSource := s.learnerSource
        forceSync := false
        electionWeight := 5
        strAddr := s.strAddr } := by
  obtain ⟨⟨-, -, hdollar, -, -⟩, hsrc⟩ := h
  have hlen : (learnerToString s).length = s.strAddr.length + 3 := by
    rw [learnerToString, length_append]
    rfl
  have hget : ∀ i, (learnerToString s)[s.strAddr.length + i]? =
      ['$', charOf (s.learnerSource / 10), charOf (s.learnerSource % 10)][i]? := fun i => by
    rw [learnerToString, getElem?_append_right (Nat.le_add_right ..), Nat.add_sub_cancel_left]
  have hmem : '$' ∈ learnerToString s := mem_append_cons_self
  have hidx : (learnerToString s).idxOf '$' = s.strAddr.length := by
    rw [learnerToString, idxOf_append_of_notMem hdollar, idxOf_cons_self, Nat.add_zero]
  have htake : (learnerToString s).take s.strAddr.length = s.strAddr := take_left ..
  have hnum : (s.learnerSource / 10 * 10 + s.learnerSource % 10) % uint64Size =
      s.learnerSource := by
    rw [Nat.div_add_mod', Nat.mod_eq_of_lt (hsrc.trans (by decide))]
  rw [initServerFromString, hlen, if_neg (by omega), if_neg, if_pos hmem]
  · simp only [hidx, htake]
    rw [hget 1, hget 2]
    simp only [getElem?_cons_zero, getElem?_cons_succ, bind_eq_bind, bind_some,
      digitOf_charOf (show s.learnerSource / 10 < 80 by omega) (show 80 ≤ uint64Size by decide),
      digitOf_charOf (show s.learnerSource % 10 < 80 by omega) (show 80 ≤ uint64Size by decide),
        hnum]
  · intro hc
    cases (hget 0).symm.trans hc

theorem initServerFromString_cut (t : Server) {addr : List Char} (h : AddrOk addr)
    (isLearner : Bool) : initServerFromString t (addr ++ ['$']) isLearner = none := by
  obtain ⟨hlen, hhash, hdollar, -, -⟩ := h
  have hlen' : (addr ++ ['$']).length = addr.length + 1 := length_append
  have hidx : (addr ++ ['$']).idxOf '$' = addr.length := by
    rw [idxOf_append_of_notMem hdollar, idxOf_cons_self, Nat.add_zero]
  rw [initServerFromString, if_neg (by omega), if_neg, if_pos (by simp)]
  · simp only [hidx]
    rw [getElem?_eq_none (by rw [hlen'])]
    rfl
  · intro hget
    rw [getElem?_append_left (by omega)] at hget
    exact hhash (mem_of_getElem? hget)

/-! ## The local server -/

section LocalIndex

variable {addr : List Char} {servers : List (Option Server)} {i n : Nat}

theorem le_findLocalIndex {j : Nat} (hj : servers[j]? = some (some s)) (haddr : s.strAddr = addr) :
    i + j ≤ findLocalIndex addr i servers n := by
  have hacc : ∀ (l : List (Option Server)) i n, n ≤ i → n ≤ findLocalIndex addr i l n := by
    intro l
    induction l with
    | nil => exact fun i n _ => Nat.le_refl n
    | cons o l ih =>
      intro i n hle
      cases o with
      | none => exact ih (i + 1) n (by omega)
      | some t =>
        rw [findLocalIndex]
        split
        · exact hle.trans (ih (i + 1) i (by omega))
        · exact ih (i + 1) n (by omega)
  induction servers generalizing i j n with
  | nil => cases hj
  | cons o servers ih =>
    cases j with
    | zero =>
      cases hj
      rw [findLocalIndex, if_pos haddr]
      exact hacc servers (i + 1) i (by omega)
    | succ j =>
      have hle : ∀ n, i + (j + 1) ≤ findLocalIndex addr (i + 1) servers n := fun n => by
        rw [show i + (j + 1) = i + 1 + j by omega]
        exact ih hj
      cases o with
      | none => exact hle n
      | some t => exact hle _

theorem findLocalIndex_le {m : Nat} (hacc : n ≤ m)
    (h : ∀ j s, servers[j]? = some (some s) → s.strAddr = addr → i + j ≤ m) :
    findLocalIndex addr i servers n ≤ m := by
  induction servers generalizing i n with
  | nil => exact hacc
  | cons o servers ih =>
    have hrest : ∀ j s, servers[j]? = some (some s) → s.strAddr = addr → i + 1 + j ≤ m :=
      fun j s hj haddr => by
        have := h (j + 1) s hj haddr
        omega
    cases o with
    | none => exact ih hacc hrest
    | some t =>
      refine ih ?_ hrest
      split
      · exact h 0 t rfl (by assumption)
      · exact hacc

theorem findLocalIndex_eq_iff {k : Nat} (hk : servers[k]? = some (some s)) :
    findLocalIndex s.strAddr 1 servers 0 = k + 1 ↔
      ∀ j t, servers[j]? = some (some t) → t.strAddr = s.strAddr → j ≤ k := by
  refine ⟨fun heq j t hj ht => ?_, fun h => Nat.le_antisymm ?_ ?_⟩
  · have := le_findLocalIndex (i := 1) (n := 0) hj ht
    omega
  · refine findLocalIndex_le (Nat.zero_le _) fun j t hj ht => ?_
    have := h j t hj ht
    omega
  · have := le_findLocalIndex (i := 1) (n := 0) hk rfl
    omega

end LocalIndex

/-! ## Members -/

/-- What `init` makes of the stored members: the servers and the place of
the local one. -/
def restoreMembers (str : List Char) : Option (List (Option Server) × Nat) :=
  (stringToVector str 0).bind fun r =>
    (installConfig ⟨0, [], []⟩ r.1 r.2 none).map fun c => (c.servers, r.2)

def restoreLearners (str : List Char) : Option (List (Option Server)) :=
  (stringToVector str 0).bind fun r => (addLearners ⟨0, [], []⟩ r.1 true).map (·.learners)

def restoredMember (k : Nat) (s : Server) : Server :=
  { newServer (k + 1) with
    strAddr := s.strAddr
    electionWeight := s.electionWeight
    forceSync := s.forceSync }

def restoredLearner (k : Nat) (s : Server) : Server :=
  { newServer (k + 100) with
    strAddr := s.strAddr
    learnerSource := s.learnerSource }

variable {servers learners : List (Option Server)}

theorem slotToString_ne (member : Bool) (s : Server) : slotToString member (some s) ≠ ['0'] := by
  intro h
  have hlen := congrArg length h
  cases member with
  | true => simp [slotToString, memberToString] at hlen
  | false => simp [slotToString, learnerToString] at hlen

theorem installServers_pieces (current i : Nat) (hs : ∀ s, some s ∈ servers → MemberOk s) :
    installServers current none (i + 1) (servers.map (slotToString true)) =
      some (servers.mapIdx fun k => Option.map fun s =>
        { restoredMember (i + k) s with forceSync := false }) := by
  induction servers generalizing i with
  | nil => rfl
  | cons o servers ih =>
    have hrest := ih (i + 1) fun s hmem => hs s (mem_cons_of_mem _ hmem)
    have hmap : (servers.mapIdx fun k => Option.map fun s =>
        { restoredMember (i + 1 + k) s with forceSync := false }) =
        servers.mapIdx fun k => Option.map fun s =>
          { restoredMember (i + (k + 1)) s with forceSync := false } := by
      refine congrArg (mapIdx · servers) (funext fun k => ?_)
      rw [Nat.add_right_comm, Nat.add_assoc]
    rw [map_cons, installServers, hrest, hmap, mapIdx_cons]
    cases o with
    | none => rfl
    | some s =>
      have hserver : (if i + 1 ≠ current then newServer (i + 1)
          else { (none : Option Server).getD (newServer (i + 1)) with serverId := i + 1 }) =
          newServer (i + 1) := by
        split
        · rfl
        · rfl
      rw [if_neg (slotToString_ne true s), hserver]
      exact congrArg (Option.bind · _) (initServerFromString_member _ (hs s mem_cons_self) false)

/-- The members come back without their force sync flags. -/
theorem restoreMembers_eq {k : Nat} (hs : ∀ s, some s ∈ servers → MemberOk s)
    (hlen : servers.length < uint64Size) (hk : servers[k]? = some (some s)) :
    (membersToStringAt servers s.strAddr).bind restoreMembers =
      some (servers.mapIdx fun k => Option.map fun s =>
      { restoredMember k s with forceSync := false },
        findLocalIndex s.strAddr 1 servers 0) := by
  have hlocal : findLocalIndex s.strAddr 1 servers 0 ≠ 0 := by
    have := le_findLocalIndex (i := 1) (n := 0) hk rfl
    omega
  have hbound : findLocalIndex s.strAddr 1 servers 0 < uint64Size := by
    refine (findLocalIndex_le (Nat.zero_le _) fun j t hj _ => ?_).trans_lt hlen
    have := lt_of_getElem? hj
    omega
  have haddr := (hs s (mem_of_getElem? hk)).1.ne_nil
  obtain rfl | ⟨l, o, rfl⟩ := eq_nil_or_concat' servers
  · cases hk
  · have hpiece : ∀ q ∈ l.map (slotToString true), PieceOk q := by
      intro q hq
      obtain ⟨o', ho', rfl⟩ := mem_map.mp hq
      obtain ⟨a, c, heq, ha, -, hc⟩ := slotToString_member fun s hs' =>
        hs s (hs' ▸ mem_append_left _ ho')
      rw [heq]
      exact .plain ha hc.1 hc.2.1
    obtain ⟨a, c, heq, ha, hat, hc⟩ := slotToString_member fun s hs' =>
      hs s (hs' ▸ mem_concat_self)
    have hstr : membersToStringAt (l ++ [o]) s.strAddr =
        some ((l.map (slotToString true)).flatMap (· ++ [';']) ++
          (a ++ [c] ++ '@' :: decimal (findLocalIndex s.strAddr 1 (l ++ [o]) 0))) := by
      rw [membersToStringAt, configToString, if_neg (append_ne_nil_of_right_ne_nil _ (by simp)),
        if_pos haddr]
      simp only [decide_true, haddr, ne_eq, not_false_eq_true, Bool.true_or]
      rw [if_neg hlocal, map_append, map_singleton, flatten_intersperse, heq, append_assoc]
    have hvector :
        (l ++ [o]).map (slotToString true) = l.map (slotToString true) ++ [a ++ [c]] := by
      rw [map_append, map_singleton, heq]
    have hinstall := installServers_pieces (findLocalIndex s.strAddr 1 (l ++ [o]) 0) 0 hs
    simp only [hvector, Nat.zero_add] at hinstall
    rw [hstr, bind_some, restoreMembers, stringToVector_index hpiece ha hat hc hlocal hbound,
      bind_some, installConfig, hinstall]
    rfl

/-! ## Learners -/

variable {r : List (Option Server)}

theorem addLearnersLoop_pieces (hl : ∀ s, some s ∈ learners → LearnerOk s) :
    addLearnersLoop true (r.length + 1) (learners.map (slotToString false)) r =
      some (r ++ learners.mapIdx fun k => Option.map (restoredLearner (r.length + k))) := by
  induction learners generalizing r with
  | nil => rw [map_nil, mapIdx_nil, append_nil, addLearnersLoop]
  | cons o learners ih =>
    have hrest : ∀ o, addLearnersLoop true (r.length + 1 + 1) (learners.map (slotToString false))
        (r ++ [o]) = some (r ++ (o :: learners.mapIdx fun k =>
          Option.map (restoredLearner (r.length + (k + 1))))) := fun o => by
      have h := ih (r := r ++ [o]) fun s hmem => hl s (mem_cons_of_mem _ hmem)
      have hfun : (fun k => Option.map (restoredLearner (r.length + 1 + k))) =
          fun k => Option.map (restoredLearner (r.length + (k + 1))) :=
        funext fun k => by rw [Nat.add_right_comm, Nat.add_assoc]
      rwa [length_append, length_singleton, hfun, append_assoc] at h
    rw [map_cons, mapIdx_cons, addLearnersLoop]
    cases o with
    | none =>
      rw [if_pos (show slotToString false none = ['0'] from rfl), if_neg (by omega),
        if_pos (Nat.add_sub_cancel ..).symm]
      exact hrest none
    | some s =>
      rw [if_neg (slotToString_ne false s)]
      have hinit : initServerFromString (newServer 0) (slotToString false (some s)) false = _ :=
        initServerFromString_learner _ (hl s mem_cons_self) false
      rw [hinit]
      exact hrest (some (restoredLearner r.length s))

theorem addLearnersLoop_append {i : Nat} {l1 l2 : List (List Char)} :
    addLearnersLoop true i (l1 ++ l2) r =
      (addLearnersLoop true i l1 r).bind fun r => addLearnersLoop true (i + l1.length) l2 r := by
  induction l1 generalizing i r with
  | nil => rfl
  | cons str l1 ih =>
    rw [cons_append, addLearnersLoop, addLearnersLoop, length_cons,
      show i + (l1.length + 1) = i + 1 + l1.length by omega]
    split
    · split
      · exact ih
      · split
        · exact ih
        · rfl
    · cases initServerFromString (newServer 0) str false with
      | none => rfl
      | some s => exact ih

/-- The tens of the source are written as `@`. -/
def SourceCut (s : Server) : Prop := s.learnerSource / 10 = 16

instance (s : Server) : Decidable (SourceCut s) := inferInstanceAs (Decidable (_ = _))

theorem learnersToString_concat (l : List (Option Server)) (o : Option Server) :
    learnersToString (l ++ [o]) =
      some ((l.map (slotToString false)).flatMap (· ++ [';']) ++ slotToString false o) := by
  rw [learnersToString, configToString, if_neg (append_ne_nil_of_right_ne_nil _ (by simp)),
    if_neg (by simp)]
  simp only [ne_eq, not_true_eq_false, decide_false, Bool.or_self]
  rw [map_append, map_singleton, flatten_intersperse]

theorem pieces_learners {l : List (Option Server)} (hl : ∀ s, some s ∈ l → LearnerOk s) :
    ∀ q ∈ l.map (slotToString false), PieceOk q := by
  intro q hq
  obtain ⟨o, ho, rfl⟩ := mem_map.mp hq
  exact slotToString_learner fun s hs => hl s (hs ▸ ho)

section

variable (hl : ∀ s, some s ∈ learners → LearnerOk s)
include hl

/-- All learners come back if the last one is not cut. -/
theorem restoreLearners_eq (hlast : ∀ s, learners.getLast? = some (some s) → ¬ SourceCut s) :
    (learnersToString learners).bind restoreLearners =
      some (learners.mapIdx fun k => Option.map (restoredLearner k)) := by
  obtain rfl | ⟨l, o, rfl⟩ := eq_nil_or_concat' learners
  · rfl
  · have ho : ∀ s, o = some s → LearnerOk s := fun s hs =>
      hl s (hs ▸ mem_concat_self)
    have hat : '@' ∉ slotToString false o := by
      cases o with
      | none => decide
      | some s =>
        obtain ⟨⟨-, -, -, -, hat⟩, hsrc⟩ := ho s rfl
        have htens := fun h => hlast s getLast?_concat ((charOf_tens (by omega)).2.mp h)
        obtain ⟨-, -, -, hy⟩ := charOf_digit (Nat.mod_lt s.learnerSource (show 0 < 10 by decide))
        simpa [slotToString, learnerToString, hat] using ⟨Ne.symm htens, hy.symm⟩
    have hpieces := pieces_learners fun s hs => hl s (mem_append_left _ hs)
    have hloop := addLearnersLoop_pieces (r := []) hl
    rw [map_append, map_singleton] at hloop
    simp only [length_nil, Nat.zero_add] at hloop
    rw [learnersToString_concat, bind_some, restoreLearners,
      stringToVector_pieces hpieces (slotToString_learner ho) hat, bind_some, addLearners, hloop]
    rfl

/-- The last learner is cut, and reading it throws. -/
theorem restoreLearners_cut (hlast : learners.getLast? = some (some s)) (hcut : SourceCut s) :
    (learnersToString learners).bind restoreLearners = none := by
  obtain ⟨l, rfl⟩ := getLast?_eq_some_iff.mp hlast
  obtain ⟨haddr, _⟩ := hl s mem_concat_self
  obtain ⟨-, hy1, hy2, -⟩ := charOf_digit (Nat.mod_lt s.learnerSource (show 0 < 10 by decide))
  have hne := haddr.ne_nil
  have hpieces := pieces_learners fun s hs => hl s (mem_append_left _ hs)
  have hstr : slotToString false (some s) =
      s.strAddr ++ ['$', '@', charOf (s.learnerSource % 10)] := by
    change learnerToString s = _
    rw [learnerToString, show s.learnerSource / 10 = 16 from hcut]
    rfl
  rw [learnersToString_concat, hstr, bind_some, restoreLearners,
    stringToVector_cut hpieces haddr.2.2.2.1 haddr.2.2.2.2 hne ⟨hy1, hy2⟩, bind_some, addLearners,
    addLearnersLoop_append]
  cases addLearnersLoop true 1 (l.map (slotToString false)) [] with
  | none => rfl
  | some r =>
    have hzero : s.strAddr ++ ['$'] ≠ ['0'] := by
      intro h
      have := congrArg length h
      rw [length_append] at this
      exact hne (length_eq_zero_iff.mp (Nat.add_right_cancel this))
    rw [bind_some, addLearnersLoop, if_neg hzero, initServerFromString_cut _ haddr]
    rfl

end

/-! ## The round trip -/

/-- What is stored comes back if and only if no member is force sync, the
last learner is not cut, and no slot behind that of the local server `s`
has its address. -/
theorem configString_iff {k : Nat} (hs : ∀ s, some s ∈ servers → MemberOk s)
    (hlen : servers.length < uint64Size) (hk : servers[k]? = some (some s))
    (hl : ∀ s, some s ∈ learners → LearnerOk s) :
    ((membersToStringAt servers s.strAddr).bind restoreMembers =
        some (servers.mapIdx fun k => Option.map (restoredMember k), k + 1) ∧
      (learnersToString learners).bind restoreLearners =
        some (learners.mapIdx fun k => Option.map (restoredLearner k))) ↔
    ((∀ s, some s ∈ servers → s.forceSync = false) ∧
      (∀ s, learners.getLast? = some (some s) → ¬ SourceCut s) ∧
      ∀ j t, servers[j]? = some (some t) → t.strAddr = s.strAddr → j ≤ k) := by
  have hlearners : (learnersToString learners).bind restoreLearners =
      some (learners.mapIdx fun k => Option.map (restoredLearner k)) ↔
      ∀ s, learners.getLast? = some (some s) → ¬ SourceCut s := by
    refine ⟨fun heq s hlast hcut => ?_, restoreLearners_eq hl⟩
    rw [restoreLearners_cut hl hlast hcut] at heq
    cases heq
  have hmembers : (servers.mapIdx fun k => Option.map fun s =>
      { restoredMember k s with forceSync := false }) =
      (servers.mapIdx fun k => Option.map (restoredMember k)) ↔
      ∀ s, some s ∈ servers → s.forceSync = false := by
    rw [mapIdx_eq_mapIdx_iff]
    refine ⟨fun heq s hmem => ?_, fun h i hi => ?_⟩
    · obtain ⟨i, hi, hget⟩ := mem_iff_getElem.mp hmem
      have := heq i hi
      rw [hget] at this
      exact (congrArg Server.forceSync (some.inj this)).symm
    · cases hget : servers[i] with
      | none => rfl
      | some t =>
        have := h t (hget ▸ getElem_mem hi)
        simp only [map_some, restoredMember, this]
  rw [restoreMembers_eq hs hlen hk, some.injEq, Prod.mk.injEq, findLocalIndex_eq_iff hk]
  tauto

def memberAt (addr : List Char) (electionWeight : Nat) (forceSync : Bool) : Option Server :=
  some { newServer 1 with
    strAddr := addr, electionWeight := electionWeight, forceSync := forceSync }

def learnerAt (addr : List Char) (learnerSource : Nat) : Option Server :=
  some { newServer 100 with strAddr := addr, learnerSource := learnerSource }

def twoMembers : List (Option Server) :=
  [memberAt ['a', ':', '1'] 9 false, none, memberAt ['b', ':', '1'] 0 false]

def twoLearners : List (Option Server) :=
  [learnerAt ['c', ':', '1'] 165, learnerAt ['d', ':', '1'] 117]

theorem configString_iff_separators :
    (membersToStringAt twoMembers ['b', ':', '1']).bind restoreMembers =
        some (twoMembers.mapIdx fun k => Option.map (restoredMember k), 3) ∧
      (learnersToString twoLearners).bind restoreLearners =
        some (twoLearners.mapIdx fun k => Option.map (restoredLearner k)) := by
  have hmembers : ∀ s, some s ∈ twoMembers → MemberOk s ∧ s.forceSync = false := by
    intro s h
    simp only [twoMembers, memberAt, mem_cons, some.injEq, reduceCtorEq, not_mem_nil,
      or_false, false_or] at h
    rcases h with rfl | rfl
    · decide
    · decide
  have hlearners : ∀ s, some s ∈ twoLearners → LearnerOk s := by
    intro s h
    simp only [twoLearners, learnerAt, mem_cons, some.injEq, not_mem_nil, or_false] at h
    rcases h with rfl | rfl
    · decide
    · decide
  refine (configString_iff (k := 2) (fun s h => (hmembers s h).1) (by decide) rfl hlearners).mpr
    ⟨fun s h => (hmembers s h).2, fun s h => ?_, fun j t hj _ => ?_⟩
  · cases h
    decide
  · exact Nat.le_of_lt_succ (lt_of_getElem? hj)

/-- A force sync member comes back without its flag, and the last learner
with a source of 16x does not come back. -/
theorem forceSync_and_source_lost :
    (membersToStringAt [memberAt ['a', ':', '1'] 5 true] ['a', ':', '1']).bind restoreMembers =
        some ([memberAt ['a', ':', '1'] 5 false], 1) ∧
      (learnersToString [learnerAt ['c', ':', '1'] 160]).bind restoreLearners = none := by
  decide

end PolarDB.Paxos
