import Mathlib.Data.Multiset.Filter
import Mathlib.Data.Nat.Find

/-!
# Join OR clauses as UNION ALL

The planner step of `polar_or_to_union_all.c` takes an OR clause of the
WHERE list whose arms each read one relation and plans one query per
relation: the other quals, the arms of that relation, and one
de-duplication qual for each relation before it, which is to let through
exactly the rows that the earlier query did not take.

A condition is a tree over three-valued leaves (`Node`), evaluated as the
executor evaluates it (`Node.eval`): arguments in turn into one result,
so a NOT with several arguments is the negation of the last. The code
builds such a NOT: the AND of a relation with a single arm is flattened
into a list, which is negated as one node and null-tested through its
first element.

For every accepted clause nothing comes out twice and nothing that the
WHERE list rejects (`unionOr_le`). Nothing is lost exactly if the relations
in front of the one that takes a row have a last conjunct that is false on it
or a first one that is null (`unionOr_eq_where_iff`); `unionOr_loses` is a row
that is lost.
-/

namespace PolarDB.OrToUnionAll

open List Option

/-! ## Splitting a selection into a union

If no row meets two of the conditions of several queries, their `UNION ALL` is
the selection by the disjunction: a row that meets one of them comes out as
often as it went in. -/

variable {R : Type}

def Exclusive (ps : List (R → Bool)) : Prop :=
  ps.Pairwise fun p q => ∀ r, p r = true → q r = false

def unionAll (ps : List (R → Bool)) (rows : Multiset R) : Multiset R :=
  (ps.map fun p => rows.filter fun r => p r = true).sum

theorem unionAll_of_exclusive {ps : List (R → Bool)} (h : Exclusive ps) (rows : Multiset R) :
    unionAll ps rows = rows.filter fun r => ∃ p ∈ ps, p r = true := by
  induction ps with
  | nil => simp [unionAll]
  | cons p ps ih =>
    obtain ⟨hp, hps⟩ := pairwise_cons.mp h
    have hrest : unionAll (p :: ps) rows = rows.filter (fun r => p r = true) + unionAll ps rows :=
      rfl
    have hnone : rows.filter (fun r => p r = true ∧ ∃ q ∈ ps, q r = true) = 0 := by
      refine Multiset.filter_eq_nil.mpr fun r _ ⟨hr, q, hq, hqr⟩ => ?_
      exact absurd hqr (by simp [hp q hq r hr])
    rw [hrest, ih hps, Multiset.filter_add_filter, hnone]
    simp

/-! ## Conditions and the executor -/

/-- A boolean expression over the rows of the join. A leaf is whatever is
not a `BoolExpr` or a `NullTest`: the relations its Vars belong to, and
its value on a row, `none` for null. -/
inductive Node (Row : Type) where
  | cond (varnos : List Nat) (value : Row → Option Bool)
  | andExpr (args : List (Node Row))
  | orExpr (args : List (Node Row))
  | notExpr (args : List (Node Row))
  | isNull (arg : Node Row)

variable {Row : Type}

mutual

/-- The steps `ExecInitExprRec` emits for an expression, run on a row. -/
def Node.eval (row : Row) : Node Row → Option Bool
  | .cond _ value => value row
  | .andExpr args => evalAnd row false args
  | .orExpr args => evalOr row false args
  | .notExpr args => evalNot row none args
  | .isNull arg => some (arg.eval row).isNone

/-- `EEOP_BOOL_AND_STEP`: false ends the evaluation, null is remembered. -/
def evalAnd (row : Row) : Bool → List (Node Row) → Option Bool
  | anynull, [] => if anynull then none else some true
  | anynull, arg :: args =>
    match arg.eval row with
    | some false => some false
    | some true => evalAnd row anynull args
    | none => evalAnd row true args

/-- `EEOP_BOOL_OR_STEP`: true ends the evaluation, null is remembered. -/
def evalOr (row : Row) : Bool → List (Node Row) → Option Bool
  | anynull, [] => if anynull then none else some false
  | anynull, arg :: args =>
    match arg.eval row with
    | some true => some true
    | some false => evalOr row anynull args
    | none => evalOr row true args

/-- `EEOP_BOOL_NOT_STEP` after each argument, all into one result. -/
def evalNot (row : Row) : Option Bool → List (Node Row) → Option Bool
  | res, [] => res
  | _, arg :: args => evalNot row ((arg.eval row).map not) args

end

def execQual (quals : List (Node Row)) (row : Row) : Bool :=
  quals.all fun qual => qual.eval row = some true

variable {row : Row} {args : List (Node Row)} {anynull : Bool} {a : List Nat}

theorem execQual_iff {quals : List (Node Row)} :
    execQual quals row = true ↔ ∀ qual ∈ quals, qual.eval row = some true := by
  simp [execQual]

theorem evalAnd_eq_true : evalAnd row anynull args = some true ↔
      anynull = false ∧ ∀ arg ∈ args, arg.eval row = some true := by
  induction args generalizing anynull with
  | nil => cases anynull <;> simp [evalAnd]
  | cons arg args ih =>
    rcases harg : arg.eval row with _ | _ | _ <;> simp [evalAnd, harg, ih]

theorem evalOr_eq_true :
    evalOr row anynull args = some true ↔ ∃ arg ∈ args, arg.eval row = some true := by
  induction args generalizing anynull with
  | nil => cases anynull <;> simp [evalOr]
  | cons arg args ih =>
    rcases harg : arg.eval row with _ | _ | _ <;> simp [evalOr, harg, ih]

theorem evalNot_append (row : Row) (args : List (Node Row)) (arg : Node Row) (res : Option Bool) :
    evalNot row res (args ++ [arg]) = (arg.eval row).map not := by
  induction args generalizing res with
  | nil => rfl
  | cons a _ ih => exact ih _

/-! ## Relations of a condition -/

def bmsAddMember : List Nat → Nat → List Nat
  | [], x => [x]
  | y :: ys, x =>
    if x < y then x :: y :: ys
    else if x = y then y :: ys
    else y :: bmsAddMember ys x

theorem mem_bmsAddMember {x y : Nat} : y ∈ bmsAddMember a x ↔ y = x ∨ y ∈ a := by
  induction a with
  | nil => simp [bmsAddMember]
  | cons z a ih =>
    simp only [bmsAddMember]
    split
    · simp
    · split
      · rename_i hzx
        subst hzx
        simp
      · simp only [mem_cons]
        tauto

theorem bmsAddMember_sorted (h : a.Pairwise (· < ·)) (x : Nat) :
    (bmsAddMember a x).Pairwise (· < ·) := by
  induction a with
  | nil => simp [bmsAddMember]
  | cons z a ih =>
    obtain ⟨hz, ha⟩ := pairwise_cons.mp h
    simp only [bmsAddMember]
    split
    · rename_i hxz
      exact pairwise_cons.mpr ⟨forall_mem_cons.mpr ⟨hxz, fun y hy => hxz.trans (hz y hy)⟩, h⟩
    · split
      · exact h
      · refine pairwise_cons.mpr ⟨fun y hy => ?_, ih ha⟩
        rcases mem_bmsAddMember.mp hy with rfl | hy
        · omega
        · exact hz y hy

def bmsGetSingletonMember : List Nat → Option Nat
  | [x] => some x
  | _ => none

mutual

def Node.pullVarnosWalker : Node Row → List Nat → List Nat
  | .cond varnos _, acc => varnos.foldl bmsAddMember acc
  | .andExpr args, acc => pullVarnosList args acc
  | .orExpr args, acc => pullVarnosList args acc
  | .notExpr args, acc => pullVarnosList args acc
  | .isNull arg, acc => arg.pullVarnosWalker acc

def pullVarnosList : List (Node Row) → List Nat → List Nat
  | [], acc => acc
  | arg :: args, acc => pullVarnosList args (arg.pullVarnosWalker acc)

end

def pullVarnos (qual : Node Row) : List Nat :=
  qual.pullVarnosWalker []

/-! ## The planner step -/

/-- The loop of `polar_is_suitable_join_or_clause`: the relid of each arm,
and whether two of them differ. -/
def suitableLoop : List (Node Row) → List Nat → Nat → Bool → Option (List Nat × Bool)
  | [], relidlist, _, ok => some (relidlist, ok)
  | qual :: args, relidlist, firstrelid, ok =>
    match bmsGetSingletonMember (pullVarnos qual) with
    | none => none
    | some relid =>
      if relidlist = [] then suitableLoop args (relidlist ++ [relid]) relid ok
      else suitableLoop args (relidlist ++ [relid]) firstrelid (ok || firstrelid != relid)

/-- `polar_is_suitable_join_or_clause`: the relids of the arms, if every
arm reads just one relation and they do not all read the same. -/
def isSuitableJoinOrClause (args : List (Node Row)) : Option (List Nat) :=
  match suitableLoop args [] 0 false with
  | some (relids, true) => some relids
  | _ => none

/-- `make_ands_implicit`. A constant is no arm of an accepted clause. -/
def makeAndsImplicit : Node Row → List (Node Row)
  | .andExpr args => args
  | clause => [clause]

section

variable (args : List (Node Row)) (armrelids : List Nat)

def armsOf (relid : Nat) : List (Node Row) :=
  ((args.zip armrelids).filter fun p => p.2 = relid).map Prod.fst

/-- `orarms` of `polar_create_union_or_subpaths`: a single arm flattened,
several arms made one OR again. -/
def orarms (relid : Nat) : List (Node Row) :=
  match armsOf args armrelids relid with
  | [arm] => makeAndsImplicit arm
  | arms => [.orExpr arms]

/-- The qual that later queries get for these arms. -/
def dedupQual (orarms : List (Node Row)) (first : Node Row) : Node Row :=
  .orExpr [.notExpr orarms, .isNull first]

/-- The loop over the relations of the clause: the WHERE list of each
query, `none` where `linitial` finds no arm. -/
def unionOrLoop (others args : List (Node Row)) (armrelids : List Nat) :
    List Nat → List (Node Row) → Option (List (List (Node Row)))
  | [], _ => some []
  | relid :: orrels, dedupQuals => do
      let arms := orarms args armrelids relid
      let first ← arms.head?
      let subs ← unionOrLoop others args armrelids orrels (dedupQuals ++ [dedupQual arms first])
      some ((others ++ arms ++ dedupQuals) :: subs)

def orrelsOf (armrelids : List Nat) : List Nat :=
  armrelids.foldl bmsAddMember []

/-- `polar_create_union_or_subpaths`, up to the planning of each query.
`n` is the index of the OR clause in the WHERE list. -/
def createUnionOrSubpaths (quals args : List (Node Row)) (n : Nat) (armrelids : List Nat) :
    Option (List (List (Node Row))) :=
  unionOrLoop (quals.eraseIdx n) args armrelids (orrelsOf armrelids) []

def unionOr (subs : List (List (Node Row))) (rows : Multiset Row) : Multiset Row :=
  unionAll (subs.map execQual) rows

def Takes (row : Row) (relid : Nat) : Prop :=
  execQual (orarms args armrelids relid) row = true

/-- What the de-duplication qual lets through: the last conjunct is false on
the row, or the first one is null. -/
def LetThrough (row : Row) (arms : List (Node Row)) : Prop :=
  (∃ last ∈ arms.getLast?, last.eval row = some false) ∨ ∃ first ∈ arms.head?, first.eval row = none

/-- All relations before the first one that takes the row let it through. -/
def RowOk (row : Row) : Prop :=
  ∀ relid ∈ armrelids, Takes args armrelids row relid →
    (∀ r ∈ armrelids, r < relid → ¬Takes args armrelids row r) →
    ∀ r ∈ armrelids, r < relid → LetThrough row (orarms args armrelids r)

instance (row : Row) : DecidablePred (Takes args armrelids row) :=
  fun _ => inferInstanceAs (Decidable (_ = true))

instance (row : Row) : DecidablePred (LetThrough row) :=
  fun _ => inferInstanceAs (Decidable (_ ∨ _))

instance : DecidablePred (RowOk args armrelids) :=
  fun _ => inferInstanceAs (Decidable (∀ relid ∈ armrelids, _ → _ → _))

/-! ## The arms of an accepted clause -/

/-- What `polar_is_suitable_join_or_clause` has found out about the arms. -/
def Arms : Prop :=
  List.Forall₂ (fun arm relid => bmsGetSingletonMember (pullVarnos arm) = some relid)
    args armrelids

end

variable {args arms dedupQuals others quals : List (Node Row)} {subs : List (List (Node Row))}
  {armrelids orrels : List Nat} {n relid : Nat} {row : Row} {arm first : Node Row}

theorem suitableLoop_arms {relidlist relids : List Nat} {firstrelid : Nat} {ok ok' : Bool}
    (h : suitableLoop args relidlist firstrelid ok = some (relids, ok')) :
    ∃ rs, relids = relidlist ++ rs ∧ Arms args rs := by
  induction args generalizing relidlist firstrelid ok with
  | nil =>
    obtain ⟨rfl, -⟩ := Prod.mk.inj (some.inj h)
    exact ⟨[], (append_nil _).symm, .nil⟩
  | cons qual args ih =>
    simp only [suitableLoop] at h
    cases hm : bmsGetSingletonMember (pullVarnos qual) with
    | none => simp [hm] at h
    | some relid =>
      have hrest : ∃ rs, relids = (relidlist ++ [relid]) ++ rs ∧ Arms args rs := by
        rw [hm] at h
        dsimp only at h
        split at h
        · exact ih h
        · exact ih h
      obtain ⟨rs, hrelids, hrs⟩ := hrest
      exact ⟨relid :: rs, by simpa using hrelids, .cons hm hrs⟩

theorem isSuitableJoinOrClause_arms {relids : List Nat}
    (h : isSuitableJoinOrClause args = some relids) : Arms args relids := by
  simp only [isSuitableJoinOrClause] at h
  split at h
  · rename_i rs heq
    obtain ⟨rs', hrs, harms⟩ := suitableLoop_arms heq
    cases h
    exact hrs ▸ harms
  · cases h

theorem makeAndsImplicit_ne_nil
    (h : bmsGetSingletonMember (pullVarnos arm) = some relid) : makeAndsImplicit arm ≠ [] := by
  intro hnil
  match arm with
  | .andExpr [] => cases h
  | .andExpr (_ :: _) | .cond _ _ | .orExpr _ | .notExpr _ | .isNull _ => cases hnil

theorem execQual_makeAndsImplicit :
    execQual (makeAndsImplicit arm) row = true ↔ arm.eval row = some true := by
  rw [execQual_iff]
  match arm with
  | .andExpr args => simp [makeAndsImplicit, Node.eval, evalAnd_eq_true]
  | .cond _ _ | .orExpr _ | .notExpr _ | .isNull _ => simp [makeAndsImplicit]

theorem mem_armsOf : arm ∈ armsOf args armrelids relid ↔ (arm, relid) ∈ args.zip armrelids := by
  simp [armsOf]

/-- The quals taken from the arms of a relation are their disjunction. -/
theorem execQual_orarms : execQual (orarms args armrelids relid) row = true ↔
      ∃ arm ∈ armsOf args armrelids relid, arm.eval row = some true := by
  unfold orarms
  split
  · rename_i arm heq
    simp [heq, execQual_makeAndsImplicit]
  · rw [execQual_iff]
    simp [Node.eval, evalOr_eq_true]

theorem Arms.orarms_ne_nil
    (h : Arms args armrelids) (relid : Nat) : orarms args armrelids relid ≠ [] := by
  unfold orarms
  split
  · rename_i arm heq
    have hmem : (arm, relid) ∈ args.zip armrelids := mem_armsOf.mp (heq ▸ mem_cons_self)
    exact makeAndsImplicit_ne_nil (forall₂_iff_zip.mp h |>.2 hmem)
  · exact cons_ne_nil _ _

theorem Arms.exists_iff (h : Arms args armrelids) {P : Node Row → Prop} : (∃ arm ∈ args, P arm) ↔
      ∃ relid ∈ armrelids, ∃ arm ∈ armsOf args armrelids relid, P arm := by
  constructor
  · rintro ⟨arm, hmem, hP⟩
    obtain ⟨i, hi, rfl⟩ := mem_iff_getElem.mp hmem
    have hlen : i < armrelids.length := h.length_eq ▸ hi
    refine ⟨armrelids[i], getElem_mem hlen, args[i], mem_armsOf.mpr ?_, hP⟩
    rw [← getElem_zip (h := by simp [hi, hlen])]
    exact getElem_mem _
  · rintro ⟨relid, -, arm, hmem, hP⟩
    exact ⟨arm, (of_mem_zip (mem_armsOf.mp hmem)).1, hP⟩

theorem dedupQual_eq_true : (dedupQual arms first).eval row = some true ↔
      evalNot row none arms = some true ∨ first.eval row = none := by
  simp [dedupQual, Node.eval, evalOr_eq_true]

/-- A row that an arm query takes is kept out of the later ones. -/
theorem dedupQual_ne_true (hfirst : arms.head? = some first) (h : execQual arms row = true) :
    (dedupQual arms first).eval row ≠ some true := by
  rw [Ne, dedupQual_eq_true]
  rw [execQual_iff] at h
  have hne : arms ≠ [] := by
    rintro rfl
    cases hfirst
  rintro (hnot | hnull)
  · rw [← dropLast_append_getLast hne, evalNot_append, h _ (getLast_mem hne)] at hnot
    cases hnot
  · rw [h first (mem_of_mem_head? hfirst)] at hnull
    cases hnull

theorem dedupQual_iff (hfirst : arms.head? = some first) :
    (dedupQual arms first).eval row = some true ↔ LetThrough row arms := by
  have hne : arms ≠ [] := by
    rintro rfl
    cases hfirst
  rw [dedupQual_eq_true, LetThrough, hfirst, getLast?_eq_some_getLast hne]
  nth_rewrite 1 [← dropLast_append_getLast hne]
  simp [evalNot_append]

/-! ## The arm queries -/

theorem unionOrLoop_cons
    (h : unionOrLoop others args armrelids (relid :: orrels) dedupQuals = some subs) :
    ∃ first subs', (orarms args armrelids relid).head? = some first ∧
      unionOrLoop others args armrelids orrels
        (dedupQuals ++ [dedupQual (orarms args armrelids relid) first]) = some subs' ∧
      subs = (others ++ orarms args armrelids relid ++ dedupQuals) :: subs' := by
  simp only [unionOrLoop, bind_eq_bind, bind_eq_some_iff, some.injEq] at h
  obtain ⟨first, hfirst, subs', hsubs', rfl⟩ := h
  exact ⟨first, subs', hfirst, hsubs', rfl⟩

theorem Arms.unionOrLoop_isSome (h : Arms args armrelids) :
    ∃ subs, unionOrLoop others args armrelids orrels dedupQuals = some subs := by
  induction orrels generalizing dedupQuals with
  | nil => exact ⟨[], rfl⟩
  | cons relid orrels ih =>
    obtain ⟨first, hfirst⟩ := isSome_iff_exists.mp (isSome_head?.mpr (h.orarms_ne_nil relid))
    obtain ⟨subs', hsubs'⟩ := @ih (dedupQuals ++ [dedupQual (orarms args armrelids relid) first])
    exact ⟨(others ++ orarms args armrelids relid ++ dedupQuals) :: subs',
      by simp [unionOrLoop, hfirst, hsubs']⟩

variable {sub : List (Node Row)}

/-- Each query has the other quals, the quals collected before it and the
arms of one of the relations. -/
theorem unionOrLoop_quals (h : unionOrLoop others args armrelids orrels dedupQuals = some subs)
    (hsub : sub ∈ subs) :
    others ⊆ sub ∧ dedupQuals ⊆ sub ∧ ∃ relid ∈ orrels, orarms args armrelids relid ⊆ sub := by
  induction orrels generalizing dedupQuals subs with
  | nil =>
    cases h
    cases hsub
  | cons relid orrels ih =>
    obtain ⟨first, subs', -, hsubs', rfl⟩ := unionOrLoop_cons h
    rcases mem_cons.mp hsub with rfl | hsub
    · refine ⟨?_, ?_, relid, mem_cons_self, ?_⟩ <;> intro q hq <;> simp [hq]
    · obtain ⟨hothers, hdedup, r, hr, harms⟩ := ih hsubs' hsub
      exact ⟨hothers, List.Subset.trans (subset_append_left _ _) hdedup, r,
        mem_cons_of_mem _ hr, harms⟩

theorem execQual_of_subset (h : quals ⊆ sub)
    (hsub : execQual sub row = true) : execQual quals row = true :=
  execQual_iff.mpr fun q hq => execQual_iff.mp hsub q (h hq)

section

variable (h : unionOrLoop others args armrelids orrels dedupQuals = some subs)
include h

theorem unionOrLoop_exclusive : Exclusive (subs.map execQual) := by
  induction orrels generalizing dedupQuals subs with
  | nil =>
    cases h
    exact .nil
  | cons relid orrels ih =>
    obtain ⟨first, subs', hfirst, hsubs', rfl⟩ := unionOrLoop_cons h
    refine pairwise_cons.mpr ⟨fun p hp row hrow => ?_, ih hsubs'⟩
    obtain ⟨sub, hsub, rfl⟩ := mem_map.mp hp
    have harms : execQual (orarms args armrelids relid) row = true :=
      execQual_of_subset (fun q hq => by simp [hq]) hrow
    obtain ⟨-, hdedup, -⟩ := unionOrLoop_quals hsubs' hsub
    refine Bool.eq_false_iff.mpr fun hpass => dedupQual_ne_true hfirst harms ?_
    exact execQual_iff.mp hpass _ (hdedup (by simp))

/-- A row that the other quals and the quals collected so far let through
passes one of the queries if and only if a relation takes it and all before
that one let it through. -/
theorem unionOrLoop_passes (hothers : execQual others row = true)
    (hdedup : execQual dedupQuals row = true) (hsorted : orrels.Pairwise (· < ·)) :
    (∃ sub ∈ subs, execQual sub row = true) ↔ ∃ relid ∈ orrels, Takes args armrelids row relid ∧
      ∀ r ∈ orrels, r < relid → LetThrough row (orarms args armrelids r) := by
  induction orrels generalizing dedupQuals subs with
  | nil =>
    cases h
    simp
  | cons relid orrels ih =>
    obtain ⟨first, subs', hfirst, hsubs', rfl⟩ := unionOrLoop_cons h
    obtain ⟨hbefore, hsorted⟩ := pairwise_cons.mp hsorted
    have hthis : execQual (others ++ orarms args armrelids relid ++ dedupQuals) row = true ↔
        Takes args armrelids row relid := by
      simp only [Takes, execQual, all_append, Bool.and_eq_true] at hothers hdedup ⊢
      simp only [hothers, hdedup, true_and, and_true]
    have hlater : (∃ sub ∈ subs', execQual sub row = true) ↔
        LetThrough row (orarms args armrelids relid) ∧ ∃ r ∈ orrels, Takes args armrelids row r ∧
          ∀ r' ∈ orrels, r' < r → LetThrough row (orarms args armrelids r') := by
      rw [← dedupQual_iff hfirst]
      by_cases hqual : (dedupQual (orarms args armrelids relid) first).eval row = some true
      · have hpass : execQual (dedupQuals ++ [dedupQual (orarms args armrelids relid) first]) row =
            true := by
          simp only [execQual, all_append, Bool.and_eq_true] at hdedup ⊢
          exact ⟨hdedup, by simp [hqual]⟩
        rw [ih hsubs' hpass hsorted, and_iff_right hqual]
      · refine iff_of_false (fun ⟨sub, hsub, hrow⟩ => hqual ?_) fun hq => hqual hq.1
        exact execQual_iff.mp hrow _ ((unionOrLoop_quals hsubs' hsub).2.1 (by simp))
    simp only [mem_cons, exists_eq_or_imp, forall_eq_or_imp]
    rw [hthis, hlater]
    refine or_congr (and_iff_left ⟨fun hlt => absurd hlt (lt_irrefl _), fun r hr hlt =>
      absurd hlt (hbefore r hr).not_gt⟩).symm ⟨?_, ?_⟩
    · rintro ⟨hfront, r, hr, htakes, hthrough⟩
      exact ⟨r, hr, htakes, fun _ => hfront, hthrough⟩
    · rintro ⟨r, hr, htakes, hfront, hthrough⟩
      exact ⟨hfront (hbefore r hr), r, hr, htakes, hthrough⟩

end

theorem foldl_bmsAddMember_spec (l : List Nat) {acc : List Nat} (hacc : acc.Pairwise (· < ·)) :
    (l.foldl bmsAddMember acc).Pairwise (· < ·) ∧
      ∀ r, r ∈ l.foldl bmsAddMember acc ↔ r ∈ acc ∨ r ∈ l := by
  induction l generalizing acc with
  | nil => simp [hacc]
  | cons x l ih =>
    obtain ⟨hsorted, hmem⟩ := ih (bmsAddMember_sorted hacc x)
    refine ⟨hsorted, fun r => ?_⟩
    rw [foldl_cons, hmem, mem_bmsAddMember, mem_cons]
    tauto

theorem mem_orrelsOf {r : Nat} : r ∈ orrelsOf armrelids ↔ r ∈ armrelids := by
  rw [orrelsOf, (foldl_bmsAddMember_spec armrelids .nil).2]
  simp

theorem rowOk_iff (h : ∃ relid ∈ armrelids, Takes args armrelids row relid) :
    RowOk args armrelids row ↔ ∃ relid ∈ armrelids, Takes args armrelids row relid ∧
      ∀ r ∈ armrelids, r < relid → LetThrough row (orarms args armrelids r) := by
  constructor
  · intro hok
    have hfind := Nat.find_spec h
    refine ⟨Nat.find h, hfind.1, hfind.2, hok _ hfind.1 hfind.2 fun r hr hlt htakes => ?_⟩
    exact Nat.find_min h hlt ⟨hr, htakes⟩
  · rintro ⟨relid, hrelid, htakes, hthrough⟩ relid' - - hfirst r hr hlt
    exact hthrough r hr (hlt.trans_le (not_lt.mp fun hgt => hfirst relid hrelid hgt htakes))

/-! ## The union and the original clause -/

theorem execQual_where (hclause : quals[n]? = some (.orExpr args)) (harms : Arms args armrelids) :
    execQual quals row = true ↔ execQual (quals.eraseIdx n) row = true ∧
        ∃ relid ∈ orrelsOf armrelids, execQual (orarms args armrelids relid) row = true := by
  obtain ⟨hn, hget⟩ := List.getElem?_eq_some_iff.mp hclause
  have hclauseRow : (Node.orExpr args).eval row = some true ↔
      ∃ relid ∈ orrelsOf armrelids, execQual (orarms args armrelids relid) row = true := by
    simp only [Node.eval, evalOr_eq_true, harms.exists_iff, mem_orrelsOf, execQual_orarms]
  have hsplit : execQual quals row = true ↔
      execQual (quals.eraseIdx n) row = true ∧ (Node.orExpr args).eval row = some true := by
    have hquals : quals = quals.take n ++ .orExpr args :: quals.drop (n + 1) := by
      rw [← hget, ← drop_eq_getElem_cons hn, take_append_drop]
    rw [eraseIdx_eq_take_drop_succ]
    nth_rewrite 1 [hquals]
    simp only [execQual, all_append, all_cons, Bool.and_eq_true, decide_eq_true_eq]
    tauto
  rw [hsplit, hclauseRow]

section

variable (h : createUnionOrSubpaths quals args n armrelids = some subs)
include h

theorem subquery_exclusive : Exclusive (subs.map execQual) :=
  unionOrLoop_exclusive h

variable (hclause : quals[n]? = some (.orExpr args)) (harms : Arms args armrelids)
include hclause harms

theorem subquery_sound {sub : List (Node Row)} (hsub : sub ∈ subs)
    (hrow : execQual sub row = true) : execQual quals row = true := by
  obtain ⟨hothers, -, relid, hrelid, harm⟩ := unionOrLoop_quals h hsub
  exact (execQual_where hclause harms).mpr
    ⟨execQual_of_subset hothers hrow, relid, hrelid, execQual_of_subset harm hrow⟩

/-- A row of the original query passes one of the queries if and only if it is
let through up to the one that takes it. -/
theorem subquery_iff (hrow : execQual quals row = true) :
    (∃ sub ∈ subs, execQual sub row = true) ↔ RowOk args armrelids row := by
  obtain ⟨hothers, relid, hrelid, htakes⟩ := (execQual_where hclause harms).mp hrow
  rw [rowOk_iff ⟨relid, mem_orrelsOf.mp hrelid, htakes⟩,
    unionOrLoop_passes h hothers rfl (foldl_bmsAddMember_spec armrelids .nil).1]
  simp only [mem_orrelsOf]

/-- For every accepted clause, without a condition: the union never has a
row more often than the original query. -/
theorem unionOr_le (rows : Multiset Row) :
    unionOr subs rows ≤ rows.filter fun row => execQual quals row = true := by
  rw [unionOr, unionAll_of_exclusive (subquery_exclusive h)]
  refine Multiset.monotone_filter_right rows fun row hrow => ?_
  obtain ⟨p, hp, hpass⟩ := hrow
  obtain ⟨sub, hsub, rfl⟩ := mem_map.mp hp
  exact subquery_sound h hclause harms hsub hpass

end

/-- The union of the arm queries is the original query, no row lost and none
twice, if and only if every row that meets the WHERE list is let through up to
the relation that takes it. -/
theorem unionOr_eq_where_iff {quals args : List (Node Row)} {n : Nat} {armrelids : List Nat}
    (hclause : quals[n]? = some (.orExpr args))
    (hsuit : isSuitableJoinOrClause args = some armrelids) :
    ∃ subs, createUnionOrSubpaths quals args n armrelids = some subs ∧ ∀ rows : Multiset Row,
      (unionOr subs rows = rows.filter fun row => execQual quals row = true) ↔
        ∀ row ∈ rows, execQual quals row = true → RowOk args armrelids row := by
  have harms := isSuitableJoinOrClause_arms hsuit
  obtain ⟨subs, hsubs⟩ : ∃ subs, createUnionOrSubpaths quals args n armrelids = some subs :=
    harms.unionOrLoop_isSome
  refine ⟨subs, hsubs, fun rows => ?_⟩
  rw [unionOr, unionAll_of_exclusive (subquery_exclusive hsubs)]
  have hpasses : ∀ row, (∃ p ∈ subs.map execQual, p row = true) ↔
      ∃ sub ∈ subs, execQual sub row = true := by simp
  simp only [hpasses]
  constructor
  · intro heq row hmem hrow
    have hin : row ∈ rows.filter fun row => execQual quals row = true :=
      Multiset.mem_filter.mpr ⟨hmem, hrow⟩
    rw [← heq, Multiset.mem_filter] at hin
    exact (subquery_iff hsubs hclause harms hrow).mp hin.2
  · intro hok
    refine Multiset.filter_congr fun row hmem => ⟨fun ⟨sub, hsub, hpass⟩ => ?_, fun hrow => ?_⟩
    · exact subquery_sound hsubs hclause harms hsub hpass
    · exact (subquery_iff hsubs hclause harms hrow).mpr (hok row hmem hrow)

/-- For every clause that is accepted there are arm queries, and their union
never has a row more often than the original query. -/
theorem unionOr_le_where {quals args : List (Node Row)} {n : Nat} {armrelids : List Nat}
    (hclause : quals[n]? = some (.orExpr args))
    (hsuit : isSuitableJoinOrClause args = some armrelids) :
    ∃ subs, createUnionOrSubpaths quals args n armrelids = some subs ∧ ∀ rows : Multiset Row,
        unionOr subs rows ≤ rows.filter fun row => execQual quals row = true := by
  have harms := isSuitableJoinOrClause_arms hsuit
  obtain ⟨subs, hsubs⟩ : ∃ subs, createUnionOrSubpaths quals args n armrelids = some subs :=
    harms.unionOrLoop_isSome
  exact ⟨subs, hsubs, unionOr_le hsubs hclause harms⟩

/-! ## A row that is lost

The rows of the examples are the values of the conditions themselves. -/

def column (relid i : Nat) : Node (List (Option Bool)) :=
  .cond [relid] fun row => row[i]?.join

/-- `WHERE c3 AND (c0 OR c2 OR c1)`, with `c2` on relation 2 and the rest
on relation 1. -/
def plainWhere : List (Node (List (Option Bool))) :=
  [column 1 3, .orExpr [column 1 0, column 2 2, column 1 1]]

/-- The first row is taken by both relations, the second one by relation 2
only. -/
theorem unionOr_eq_plainWhere :
    ∃ subs, createUnionOrSubpaths plainWhere [column 1 0, column 2 2, column 1 1] 1 [1, 2, 1]
        = some subs ∧
      unionOr subs
      {[some true, none, some true, some true], [none, some false, some true, some true]} =
        {[some true, none, some true, some true], [none, some false, some true, some true]} := by
  have hclause : plainWhere[1]? = some (.orExpr [column 1 0, column 2 2, column 1 1]) := rfl
  obtain ⟨subs, hsubs, heq⟩ := unionOr_eq_where_iff hclause rfl
  exact ⟨subs, hsubs, (heq _).mpr (by decide)⟩

/-- `WHERE (c0 AND c1) OR c2`, with `c0` and `c1` on relation 1 and `c2`
on relation 2. -/
def andWhere : List (Node (List (Option Bool))) :=
  [.orExpr [.andExpr [column 1 0, column 1 1], column 2 2]]

/-- The clause is accepted, and the row with `c0` false and `c1` and `c2`
true meets it. The first query rejects the row because of `c0`, the
second because it negates `c1` and tests `c0` for null. -/
theorem unionOr_loses :
    isSuitableJoinOrClause [.andExpr [column 1 0, column 1 1], column 2 2] = some [1, 2] ∧
    ∃ subs, createUnionOrSubpaths andWhere [.andExpr [column 1 0, column 1 1], column 2 2] 0 [1, 2]
        = some subs ∧
      execQual andWhere [some false, some true, some true] = true ∧
      unionOr subs {[some false, some true, some true]} = 0 :=
  ⟨rfl, _, rfl, rfl, rfl⟩

theorem unionOr_le_andWhere :
    ∃ subs, createUnionOrSubpaths andWhere [.andExpr [column 1 0, column 1 1], column 2 2] 0 [1, 2]
        = some subs ∧
      ∀ rows, unionOr subs rows ≤ rows.filter fun row => execQual andWhere row = true :=
  unionOr_le_where (by rfl) (by rfl)

end PolarDB.OrToUnionAll
