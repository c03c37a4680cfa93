import PolarDB.LogIndexPageIter
import PolarDB.LogIndexCut

/-!
# What the page iterator pushes

The stack of a page iterator is a list of LSNs cut twice, by table and by
chunk, and stored in reverse. `stackLsns` forgets the cuts: pushing an LSN
puts it in front (`tblStackPush_lsns`), and popping gives the elements
from the front (`PageIter.returns_of_stack`).

Searching a table walks the cells of the page's item from the last to the
first and each cell from its last entry to its first, so the LSNs of the
page come in descending order. The search may stop at the first LSN that
is not above `min_lsn`: what comes behind is smaller (`Scanned`).
-/

namespace PolarDB.LogIndex

open List

/-! ## The stack as a list -/

def PageLsn.lsns (item : PageLsn) : List Nat := (item.lsn.take item.iterPos).reverse

def TblStack.lsns (stack : TblStack) : List Nat := stack.head.flatMap PageLsn.lsns

def stackLsns (stack : List TblStack) : List Nat := stack.flatMap TblStack.lsns

def PageLsn.Live (item : PageLsn) : Prop := 0 < item.iterPos ∧ item.iterPos ≤ item.lsn.length

def PageLsn.Full (item : PageLsn) : Prop := 0 < item.iterPos ∧ item.iterPos = item.lsn.length

theorem PageLsn.Full.live {item : PageLsn} (h : item.Full) : item.Live := ⟨h.1, h.2.le⟩

theorem tblStackPush_full {stack : TblStack} (hs : ∀ item ∈ stack.head, item.Full)
    (lsn prevLsn : Nat) : ∀ item ∈ (tblStackPush stack lsn prevLsn).head, item.Full := by
  intro item hitem
  unfold tblStackPush at hitem
  split at hitem
  · rw [mem_singleton.mp hitem]
    exact ⟨Nat.one_pos, rfl⟩
  · rename_i first items heq
    rw [heq] at hs
    split at hitem
    · rcases mem_cons.mp hitem with rfl | hitem
      · exact ⟨Nat.one_pos, rfl⟩
      · exact hs item hitem
    · rcases mem_cons.mp hitem with rfl | hitem
      · exact ⟨Nat.succ_pos _, by simp⟩
      · exact hs item (mem_cons_of_mem _ hitem)

theorem tblStackPush_lsns {stack : TblStack} (hs : ∀ item ∈ stack.head, item.Full)
    (lsn prevLsn : Nat) : (tblStackPush stack lsn prevLsn).lsns = lsn :: stack.lsns := by
  rw [TblStack.lsns, TblStack.lsns, tblStackPush]
  cases hhead : stack.head with
  | nil => rfl
  | cons first items =>
    rw [hhead] at hs
    have hpos := (hs first mem_cons_self).2
    simp only
    split
    · simp [PageLsn.lsns]
    · have htake : (first.lsn ++ [lsn]).take (first.lsn.length + 1) = first.lsn ++ [lsn] :=
        take_of_length_le (by simp)
      simp [PageLsn.lsns, hpos, htake]

theorem tblStackPopLsn_eq {stack : TblStack} (hs : ∀ item ∈ stack.head, item.Live) :
    (stack.lsns = [] ∧ tblStackPopLsn stack = none) ∨ ∃ l ls prevLsn stack', stack.lsns = l :: ls ∧
        tblStackPopLsn stack = some ((l, prevLsn), stack') ∧ stack'.lsns = ls ∧
        ∀ item ∈ stack'.head, item.Live := by
  cases hhead : stack.head with
  | nil => exact .inl ⟨by rw [TblStack.lsns, hhead]; rfl, by rw [tblStackPopLsn, hhead]⟩
  | cons item items =>
    rw [hhead] at hs
    obtain ⟨hpos, hle⟩ := hs item mem_cons_self
    obtain ⟨n, hn⟩ : ∃ n, item.iterPos = n + 1 := ⟨item.iterPos - 1, by omega⟩
    have hchunk : item.lsns = item.lsn.getD n 0 :: (item.lsn.take n).reverse := by
      rw [PageLsn.lsns, hn, take_succ_eq_append_getElem (by omega), reverse_append,
        getD_eq_getElem _ _ (by omega)]
      rfl
    refine .inr ⟨item.lsn.getD n 0, (item.lsn.take n).reverse ++ items.flatMap PageLsn.lsns,
      if n + 1 = item.lsn.length then item.prevLsn else item.lsn.getD (n + 1) 0,
      { stack with head := if n = 0 then items else { item with iterPos := n } :: items },
      ?_, ?_, ?_, ?_⟩
    · rw [TblStack.lsns, hhead, flatMap_cons, hchunk]
      rfl
    · rw [tblStackPopLsn, hhead]
      simp only [hn, Nat.add_sub_cancel]
    · by_cases hz : n = 0
      · simp [TblStack.lsns, hz]
      · simp [TblStack.lsns, hz, PageLsn.lsns]
    · intro item' hitem'
      by_cases hz : n = 0
      · simp only [hz] at hitem'
        exact hs item' (mem_cons_of_mem _ hitem')
      · simp only [if_neg hz] at hitem'
        rcases mem_cons.mp hitem' with rfl | hitem'
        · exact ⟨Nat.pos_of_ne_zero hz, by show n ≤ item.lsn.length; omega⟩
        · exact hs item' (mem_cons_of_mem _ hitem')

theorem pageIteratorNextLoop_eq : ∀ {stack : List TblStack},
    (∀ tbl ∈ stack, ∀ item ∈ tbl.head, item.Live) →
    (stackLsns stack = [] ∧ pageIteratorNextLoop stack = none) ∨
      ∃ l ls prevLsn stack', stackLsns stack = l :: ls ∧
        pageIteratorNextLoop stack = some ((l, prevLsn), stack') ∧ stackLsns stack' = ls ∧
        ∀ tbl ∈ stack', ∀ item ∈ tbl.head, item.Live
  | [], _ => .inl ⟨rfl, rfl⟩
  | tbl :: rest, hs => by
    have hrest := (forall_mem_cons.mp hs).2
    have hcons : stackLsns (tbl :: rest) = tbl.lsns ++ stackLsns rest := flatMap_cons ..
    rw [pageIteratorNextLoop, hcons]
    rcases tblStackPopLsn_eq (hs tbl mem_cons_self) with
      ⟨hnil, hpop⟩ | ⟨l, ls, prevLsn, tbl', hl, hpop, hls, hlive⟩
    · rw [hnil, hpop]
      exact pageIteratorNextLoop_eq hrest
    · rw [hl, hpop]
      refine .inr ⟨l, ls ++ stackLsns rest, prevLsn, tbl' :: rest, rfl, rfl, ?_,
        forall_mem_cons.mpr ⟨hlive, hrest⟩⟩
      rw [← hls]
      exact flatMap_cons ..

theorem PageIter.returns_of_stack : ∀ {ls : List Nat} {iter : PageIter},
    stackLsns iter.lsnStack = ls →
    (∀ tbl ∈ iter.lsnStack, ∀ item ∈ tbl.head, item.Live) →
    ∃ es, iter.Returns es ∧ es.map (·.lsn) = ls ∧ ∀ e ∈ es, e.tag = iter.tag
  | [], iter, hls, hs => by
    rcases pageIteratorNextLoop_eq hs with ⟨-, hnone⟩ | ⟨l, ls, -, -, hcons, -⟩
    · exact ⟨[], .done (by rw [pageIteratorNext, hnone]; rfl), rfl, by simp⟩
    · rw [hls] at hcons
      cases hcons
  | l :: ls, iter, hls, hs => by
    rcases pageIteratorNextLoop_eq hs with
      ⟨hnil, -⟩ | ⟨l', ls', prevLsn, stack', hcons, hnext, hls', hlive⟩
    · rw [hls] at hnil
      cases hnil
    · rw [hls] at hcons
      obtain ⟨rfl, rfl⟩ := cons.inj hcons
      let iter' := { iter with lsnStack := stack' }
      obtain ⟨es, hret, hmap, htag⟩ :=
        PageIter.returns_of_stack (show stackLsns iter'.lsnStack = ls from hls') hlive
      exact ⟨⟨iter.tag, l, prevLsn⟩ :: es, .next (by rw [pageIteratorNext, hnext]; rfl) hret,
        by rw [map_cons, hmap], forall_mem_cons.mpr ⟨rfl, htag⟩⟩

/-! ## Searching the LSNs of a page -/

def inLsnRange (minLsn maxLsn l : Nat) : Bool := minLsn ≤ l && l ≤ maxLsn

/-- A stack nothing was popped from, of tables without a previous LSN. -/
def StackWf (stack : List TblStack) : Prop :=
  ∀ tbl ∈ stack, tbl.prevPageLsn = invalidXLogRecPtr ∧ ∀ item ∈ tbl.head, item.Full

/-- `iter'` is `iter` after the ascending LSNs `ls` were searched from the
last to the first. -/
structure Scanned (iter iter' : PageIter) (ls : List Nat) : Prop where
  same : iter' = { iter with lsnStack := iter'.lsnStack, state := iter'.state }
  nonempty : iter'.lsnStack ≠ []
  wf : StackWf iter'.lsnStack
  lsns : stackLsns iter'.lsnStack =
    ls.filter (inLsnRange iter.minLsn iter.iterMaxLsn) ++ stackLsns iter.lsnStack
  state : (iter'.state = .forward ∧ ∀ l ∈ ls, iter.minLsn < l) ∨
    (iter'.state = .finished ∧ ∃ l ∈ ls, l ≤ iter.minLsn)

section Scanned

variable {iter iter' iter'' : PageIter} {ls ls' : List Nat}

theorem Scanned.minLsn (h : Scanned iter iter' ls) : iter'.minLsn = iter.minLsn := by rw [h.same]

theorem Scanned.iterMaxLsn (h : Scanned iter iter' ls) : iter'.iterMaxLsn = iter.iterMaxLsn := by
  rw [h.same]

theorem scanned_nil (hst : iter.state = .forward) (hne : iter.lsnStack ≠ [])
    (hwf : StackWf iter.lsnStack) : Scanned iter iter [] :=
  ⟨rfl, hne, hwf, rfl, .inl ⟨hst, by simp⟩⟩

theorem Scanned.append (h : Scanned iter iter' ls') (hst : iter'.state = .forward)
    (h' : Scanned iter' iter'' ls) : Scanned iter iter'' (ls ++ ls') := by
  refine ⟨?_, h'.nonempty, h'.wf, ?_, ?_⟩
  · rw [h'.same, h.same]
  · rw [h'.lsns, h.lsns, h.minLsn, h.iterMaxLsn, filter_append, append_assoc]
  · have hall : ∀ l ∈ ls', iter.minLsn < l := by
      rcases h.state with ⟨-, hall⟩ | ⟨hfin, -⟩
      · exact hall
      · rw [hst] at hfin
        cases hfin
    have hstate := h'.state
    rw [h.minLsn] at hstate
    rcases hstate with ⟨hf, hall'⟩ | ⟨hf, l, hl, hle⟩
    · exact .inl ⟨hf, forall_mem_append.mpr ⟨hall', hall⟩⟩
    · exact .inr ⟨hf, l, mem_append_left _ hl, hle⟩

theorem Scanned.stop (h : Scanned iter iter' ls') (hst : iter'.state = .finished)
    (hlt : ∀ l ∈ ls, ∀ l' ∈ ls', l < l') : Scanned iter iter' (ls ++ ls') := by
  rcases h.state with ⟨hf, -⟩ | ⟨-, l', hl', hle⟩
  · rw [hst] at hf
    cases hf
  · refine ⟨h.same, h.nonempty, h.wf, ?_, .inr ⟨hst, l', mem_append_right _ hl', hle⟩⟩
    have hnil : ls.filter (inLsnRange iter.minLsn iter.iterMaxLsn) = [] := by
      refine filter_eq_nil_iff.mpr fun l hl => ?_
      have := hlt l hl l' hl'
      simp only [inLsnRange, Bool.and_eq_true, decide_eq_true_eq]
      omega
    rw [h.lsns, filter_append, hnil, nil_append]

theorem scanned_push (hne : iter.lsnStack ≠ []) (hwf : StackWf iter.lsnStack) {l : Nat}
    (prevLsn : Nat) (hin : iter.minLsn ≤ l ∧ l ≤ iter.iterMaxLsn) {st : IterState}
    (hst : (st = .forward ∧ iter.minLsn < l) ∨ (st = .finished ∧ l ≤ iter.minLsn)) :
    Scanned iter { iter.push l prevLsn with state := st } [l] := by
  obtain ⟨tbl, rest, htop⟩ := exists_cons_of_ne_nil hne
  rw [htop] at hwf
  have hpush : (iter.push l prevLsn).lsnStack = tblStackPush tbl l prevLsn :: rest := by
    rw [PageIter.push, htop]
  have hprev : (tblStackPush tbl l prevLsn).prevPageLsn = tbl.prevPageLsn := by
    unfold tblStackPush
    split
    · rfl
    · split <;> rfl
  obtain ⟨htbl, hfull⟩ := hwf tbl mem_cons_self
  refine ⟨?_, ?_, ?_, ?_, ?_⟩
  · rw [PageIter.push, htop]
  · simp only [hpush]
    exact cons_ne_nil _ _
  · simp only [hpush]
    exact forall_mem_cons.mpr ⟨⟨hprev.trans htbl, tblStackPush_full hfull l prevLsn⟩,
      (forall_mem_cons.mp hwf).2⟩
  · have hr : inLsnRange iter.minLsn iter.iterMaxLsn l = true := by
      simpa [inLsnRange] using hin
    simp only [hpush, htop]
    simp [stackLsns, hr, tblStackPush_lsns hfull]
  · simpa using hst

theorem pageIteratePushLsnLoop_scanned {t : LogIdxTableData} {segId : Nat} (ls : List Nat) :
    ∀ {iter : PageIter}, ls.Pairwise (· < ·) →
    (∀ idx l, ls[idx]? = some l → combineLsn t ((t.segment segId).suffixLsn.getD idx 0) = l) →
    iter.state = .forward → iter.lsnStack ≠ [] → StackWf iter.lsnStack →
    iter.minLsn ≤ iter.iterMaxLsn →
    ∃ iter', pageIteratePushLsnLoop t segId ls.length iter true = some (iter', true) ∧
      Scanned iter iter' ls := by
  induction ls using reverseRecOn with
  | nil => exact fun _ _ hst hne hwf _ => ⟨_, rfl, scanned_nil hst hne hwf⟩
  | append_singleton ls l ih =>
    intro iter hs hget hst hne hwf hrange
    obtain ⟨hs', -, hlt⟩ := pairwise_append.mp hs
    have hl := hget ls.length l (by simp)
    have hget' : ∀ idx l', ls[idx]? = some l' →
        combineLsn t ((t.segment segId).suffixLsn.getD idx 0) = l' := by
      intro idx l' hidx
      refine hget idx l' ?_
      rwa [getElem?_append_left (lt_of_getElem? hidx)]
    rw [length_append, length_singleton, pageIteratePushLsnLoop]
    simp only [hl, Bool.true_or, Bool.not_true, Bool.false_eq_true, if_false]
    split
    · next hin =>
      have hmin : ∀ p, (iter.push l p).minLsn = iter.minLsn := fun p => by
        unfold PageIter.push; split <;> rfl
      have hstate : ∀ p, (iter.push l p).state = iter.state := fun p => by
        unfold PageIter.push; split <;> rfl
      by_cases heq : l = iter.minLsn
      · rw [if_pos (heq.trans (hmin _).symm)]
        exact ⟨_, rfl, (scanned_push hne hwf _ hin (.inr ⟨rfl, heq.le⟩)).stop rfl hlt⟩
      · rw [if_neg (by rw [hmin]; exact heq)]
        have hpushed := scanned_push hne hwf (getSegPrevLsn t segId ls.length) hin
          (.inl ⟨rfl, hin.1.lt_of_ne (Ne.symm heq)⟩)
        rw [← hst, ← hstate (getSegPrevLsn t segId ls.length)] at hpushed
        obtain ⟨iter', hrun, hscan⟩ := ih hs' hget' ((hstate _).trans hst)
          hpushed.nonempty hpushed.wf
          (by rw [hpushed.minLsn, hpushed.iterMaxLsn]; exact hrange)
        exact ⟨iter', hrun, hpushed.append ((hstate _).trans hst) hscan⟩
    · next hin =>
      have hr : inLsnRange iter.minLsn iter.iterMaxLsn l = false := by simpa [inLsnRange] using hin
      split
      · next hlow =>
        have hstop : Scanned iter { iter with state := .finished } [l] := ⟨rfl, hne, hwf, ?_, ?_⟩
        · exact ⟨_, rfl, hstop.stop rfl hlt⟩
        · simp [hr]
        · exact .inr ⟨rfl, l, mem_singleton_self l, hlow.le⟩
      · next hlow =>
        obtain ⟨iter', hrun, hscan⟩ := ih hs' hget' hst hne hwf hrange
        have habove : Scanned iter iter [l] := by
          refine ⟨rfl, hne, hwf, by simp [hr], .inl ⟨hst, fun x hx => ?_⟩⟩
          rw [mem_singleton.mp hx]
          omega
        exact ⟨iter', hrun, habove.append hst hscan⟩

end Scanned

end PolarDB.LogIndex
