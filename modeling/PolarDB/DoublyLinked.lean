import Mathlib.Data.List.Nodup

/-!
# Doubly linked lists in arrays

The nodes of a list are linked by two arrays, `next` and `prev`, whose
cells hold another node, the end of the list (`Link.stop`) or the mark of
a node that is in no list (`Link.out`). `Linked` says that the arrays,
the first and the last link hold a given list. Two rules change it: a
node is appended (`Linked.append`), and a node is taken out
(`Linked.remove`). Following `next` from the first node visits the list,
following `prev` from the last one visits it backwards (`Linked.walk_next`,
`Linked.walk_prev`).
-/

namespace PolarDB

open Function List Option

variable {ι : Type}

inductive Link (ι : Type) where
  | out
  | stop
  | node (i : ι)
  deriving DecidableEq, Repr

def Link.ofOption : Option ι → Link ι
  | none => .stop
  | some i => .node i

@[simp] theorem Link.ofOption_none : Link.ofOption (none : Option ι) = .stop := rfl

@[simp] theorem Link.ofOption_some (i : ι) : Link.ofOption (some i) = .node i := rfl

theorem Link.ofOption_ne_out (o : Option ι) : Link.ofOption o ≠ .out := by
  cases o <;> exact nofun

structure Linked (next prev : ι → Link ι) (first last : Link ι) (l : List ι) : Prop where
  nodup : l.Nodup
  first_eq : first = .ofOption l.head?
  last_eq : last = .ofOption l.getLast?
  inside : ∀ l1 i l2, l = l1 ++ i :: l2 →
    next i = .ofOption l2.head? ∧ prev i = .ofOption l1.getLast?
  outside : ∀ i, i ∉ l → next i = .out ∧ prev i = .out

inductive Walks (next : ι → Link ι) : Link ι → List ι → Prop where
  | stop : Walks next .stop []
  | node {i : ι} {l : List ι} (rest : Walks next (next i) l) : Walks next (.node i) (i :: l)

section Lists

variable {l l1 l2 m1 m2 : List ι} {i j : ι}

theorem append_singleton_eq_split (heq : l ++ [i] = m1 ++ j :: m2) :
    (m1 = l ∧ j = i ∧ m2 = []) ∨ ∃ m, m2 = m ++ [i] ∧ l = m1 ++ j :: m := by
  rcases eq_nil_or_concat' m2 with rfl | ⟨m, k, rfl⟩
  · obtain ⟨hl, hi⟩ := append_inj' heq rfl
    exact .inl ⟨hl.symm, (cons.inj hi).1.symm, rfl⟩
  · have hassoc : l ++ [i] = (m1 ++ j :: m) ++ [k] := by rw [heq]; simp
    obtain ⟨hl, hi⟩ := append_inj' hassoc rfl
    exact .inr ⟨m, by rw [(cons.inj hi).1], hl⟩

theorem append_eq_split (heq : l1 ++ l2 = m1 ++ j :: m2) :
    (∃ m, l1 = m1 ++ j :: m ∧ m2 = m ++ l2) ∨ ∃ m, l2 = m ++ j :: m2 ∧ m1 = l1 ++ m := by
  rcases append_eq_append_iff.mp heq with ⟨m, hm1, hl2⟩ | ⟨m, hl1, hm⟩
  · exact .inr ⟨m, hl2, hm1⟩
  · cases m with
    | nil => exact .inr ⟨[], by simpa using hm.symm, by simpa using hl1.symm⟩
    | cons k m =>
      obtain ⟨rfl, rfl⟩ := cons.inj hm
      exact .inl ⟨m, hl1, rfl⟩

end Lists

section Rules

variable {next prev : ι → Link ι} {first last : Link ι} {l l1 l2 : List ι} {i : ι}

theorem Linked.mem_iff_next (h : Linked next prev first last l) : i ∈ l ↔ next i ≠ .out := by
  constructor
  · intro hi
    obtain ⟨l1, l2, heq⟩ := append_of_mem hi
    rw [(h.inside l1 i l2 heq).1]
    exact Link.ofOption_ne_out _
  · intro hne
    by_contra hi
    exact hne (h.outside i hi).1

theorem Linked.nil : Linked (fun _ => .out) (fun _ => .out) (.stop : Link ι) .stop [] where
  nodup := nodup_nil
  first_eq := rfl
  last_eq := rfl
  inside l1 i l2 heq := by simp at heq
  outside _ _ := ⟨rfl, rfl⟩

section

variable (h : Linked next prev first last l)
include h

theorem Linked.eq_nil_iff : l = [] ↔ first = .stop := by
  rw [h.first_eq]
  cases l with
  | nil => exact ⟨fun _ => rfl, fun _ => rfl⟩
  | cons i l => exact ⟨nofun, nofun⟩

theorem Linked.walk_from (hl : l = l1 ++ l2) : Walks next (.ofOption l2.head?) l2 := by
  induction l2 generalizing l1 with
  | nil => exact .stop
  | cons i l2 ih =>
    refine .node ?_
    rw [(h.inside l1 i l2 hl).1]
    exact ih (hl.trans (append_cons ..))

theorem Linked.walk_next : Walks next first l := by
  rw [h.first_eq]
  exact h.walk_from (nil_append l).symm

theorem Linked.reverse : Linked prev next last first l.reverse where
  nodup := nodup_reverse.mpr h.nodup
  first_eq := by rw [head?_reverse]; exact h.last_eq
  last_eq := by rw [getLast?_reverse]; exact h.first_eq
  inside l1 i l2 heq := by
    have hl : l = l2.reverse ++ i :: l1.reverse := by
      rw [← reverse_reverse l, heq]
      simp
    obtain ⟨hnext, hprev⟩ := h.inside _ _ _ hl
    rw [head?_reverse] at hnext
    rw [getLast?_reverse] at hprev
    exact ⟨hprev, hnext⟩
  outside i hi := (h.outside i fun hc => hi (mem_reverse.mpr hc)).symm

theorem Linked.walk_prev : Walks prev last l.reverse :=
  h.reverse.walk_next

theorem Linked.mem_iff_prev : i ∈ l ↔ prev i ≠ .out :=
  mem_reverse.symm.trans h.reverse.mem_iff_next

theorem Linked.eq_nil_iff_last : l = [] ↔ last = .stop :=
  reverse_eq_nil_iff.symm.trans h.reverse.eq_nil_iff

end

variable [DecidableEq ι]

def Link.set (a : ι → Link ι) : Link ι → Link ι → ι → Link ι
  | .node i, x => Function.update a i x
  | _, _ => a

theorem Link.set_ofOption (a : ι → Link ι) (o : Option ι) (x : Link ι) (j : ι) :
    (Link.ofOption o).set a x j = if o = some j then x else a j := by
  cases o with
  | none => rfl
  | some t =>
    by_cases htj : t = j
    · subst htj
      simp [Link.set]
    · rw [Link.ofOption_some, Link.set, update_of_ne (Ne.symm htj), if_neg]
      exact fun hc => htj (some.inj hc)

theorem Linked.append (h : Linked next prev first last l) (hi : i ∉ l) :
    Linked (update (last.set next (.node i)) i .stop) (update prev i last)
      (if last = .stop then .node i else first) (.node i) (l ++ [i]) := by
  have hlast : ∀ j, last.set next (.node i) j =
      if l.getLast? = some j then .node i else next j := by
    intro j
    rw [h.last_eq, Link.set_ofOption]
  refine ⟨?_, ?_, by rw [getLast?_concat]; rfl, fun m1 j m2 heq => ?_, fun j hj => ?_⟩
  · exact nodup_append'.mpr ⟨h.nodup, nodup_singleton i, by simpa using hi⟩
  · rcases eq_nil_or_concat' l with rfl | ⟨l', t, rfl⟩
    · rw [if_pos (h.eq_nil_iff_last.mp rfl)]
      rfl
    · rw [if_neg fun hc => by simpa using h.eq_nil_iff_last.mpr hc, h.first_eq]
      simp
  · rcases append_singleton_eq_split heq with ⟨rfl, rfl, rfl⟩ | ⟨m, rfl, hl⟩
    · exact ⟨update_self .., by rw [update_self, h.last_eq]⟩
    · have hji : j ≠ i := fun hc => hi (hl ▸ hc ▸ by simp)
      obtain ⟨hnext, hprev⟩ := h.inside m1 j m hl
      rw [update_of_ne hji, update_of_ne hji, hlast]
      refine ⟨?_, hprev⟩
      rcases eq_nil_or_concat' m with rfl | ⟨m', t, rfl⟩
      · rw [if_pos (by rw [hl]; simp)]
        rfl
      · rw [if_neg, hnext]
        · cases m' <;> rfl
        · intro hc
          rw [hl, getLast?_append_of_ne_nil _ (cons_ne_nil _ _), ← cons_append] at hc
          have htj := some.inj hc
          have hnd := h.nodup
          rw [hl, nodup_append'] at hnd
          exact (nodup_cons.mp hnd.2.1).1 (htj ▸ by simp)
  · have hjl : j ∉ l := fun hc => hj (mem_append_left _ hc)
    have hji : j ≠ i := fun hc => hj (hc ▸ by simp)
    obtain ⟨hnext, hprev⟩ := h.outside j hjl
    rw [update_of_ne hji, update_of_ne hji, hlast, if_neg]
    · exact ⟨hnext, hprev⟩
    · exact fun hc => hjl (mem_of_getLast? hc)

theorem Linked.remove_next (h : Linked next prev first last (l1 ++ i :: l2)) :
    (if prev i = .stop then next i else first) = .ofOption (l1 ++ l2).head? ∧
    (∀ m1 j m2, l1 ++ l2 = m1 ++ j :: m2 →
      update ((prev i).set next (next i)) i .out j = .ofOption m2.head?) ∧
    ∀ j, j ∉ l1 ++ l2 → update ((prev i).set next (next i)) i .out j = .out := by
  obtain ⟨hnext, hprev⟩ := h.inside l1 i l2 rfl
  have hparts := nodup_append'.mp h.nodup
  have hcons := nodup_cons.mp hparts.2.1
  rw [hprev, hnext]
  refine ⟨?_, fun m1 j m2 heq => ?_, fun j hj => ?_⟩
  · rcases eq_nil_or_concat' l1 with rfl | ⟨l', t, rfl⟩
    · rfl
    · rw [getLast?_concat, h.first_eq]
      simp
  · have hij : j ≠ i := fun hc => by
      have hmem : j ∈ l1 ++ l2 := by rw [heq]; simp
      rcases mem_append.mp (hc ▸ hmem) with hin | hin
      · exact hparts.2.2 hin mem_cons_self
      · exact hcons.1 hin
    rw [update_of_ne hij, Link.set_ofOption]
    rcases append_eq_split heq with ⟨m, hl1, rfl⟩ | ⟨m, hl2, rfl⟩
    · rcases eq_nil_or_concat' m with rfl | ⟨m', t, rfl⟩
      · rw [if_pos (by rw [hl1]; simp), nil_append]
      · rw [if_neg, (h.inside m1 j (m' ++ [t] ++ i :: l2) (by rw [hl1]; simp)).1]
        · cases m' <;> rfl
        · intro hc
          rw [hl1, getLast?_append_of_ne_nil _ (cons_ne_nil _ _), ← cons_append] at hc
          have hnd1 := hparts.1
          rw [hl1, nodup_append'] at hnd1
          exact (nodup_cons.mp hnd1.2.1).1 (some.inj hc ▸ by simp)
    · have hback : l1.getLast? ≠ some j := fun hc => by
        have hj2 : j ∈ l2 := by rw [hl2]; simp
        exact hparts.2.2 (mem_of_getLast? hc) (mem_cons_of_mem _ hj2)
      rw [if_neg hback, (h.inside (l1 ++ i :: m) j m2 (by rw [hl2]; simp)).1]
  · by_cases hji : j = i
    · subst hji
      exact update_self ..
    · have hjl : j ∉ l1 ++ i :: l2 := fun hc => hj <| by
        rcases mem_append.mp hc with hin | hin
        · exact mem_append_left _ hin
        · exact mem_append_right _ ((mem_cons.mp hin).resolve_left hji)
      rw [update_of_ne hji, Link.set_ofOption,
        if_neg fun hc => hj (mem_append_left _ (mem_of_getLast? hc))]
      exact (h.outside j hjl).1

theorem Linked.remove (h : Linked next prev first last (l1 ++ i :: l2)) :
    Linked (update ((prev i).set next (next i)) i .out) (update ((next i).set prev (prev i)) i .out)
      (if prev i = .stop then next i else first) (if next i = .stop then prev i else last)
      (l1 ++ l2) := by
  obtain ⟨hfirst, hin, hout⟩ := h.remove_next
  have hback : Linked prev next last first (l2.reverse ++ i :: l1.reverse) := by
    simpa using h.reverse
  obtain ⟨hlast, hin', hout'⟩ := hback.remove_next
  rw [← reverse_append] at hlast hin' hout'
  have hnd := h.nodup.sublist (List.Sublist.append_left (sublist_cons_self ..) _)
  refine ⟨hnd, hfirst, ?_, fun m1 j m2 heq => ⟨hin m1 j m2 heq, ?_⟩,
    fun j hj => ⟨hout j hj, hout' j (by rwa [mem_reverse])⟩⟩
  · rw [hlast, head?_reverse]
  · rw [hin' m2.reverse j m1.reverse (by rw [heq]; simp), head?_reverse]

end Rules

end PolarDB
