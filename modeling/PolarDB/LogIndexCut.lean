import PolarDB.LogIndexTableRead

/-!
# How a history is cut into tables

The abstract state of a logindex is the list of its tables, each the list
of its entries (`Tables`; table ids start at 1). Adding an entry extends
the last table (`addLast`) or opens a new one. The inserter closes a
table when the next entry does not fit: its LSN has another upper half,
or it needs a cell and none is left (`fits`). Whether an entry fits
depends on the entries of the open table alone, so the tables are a
function of the history of added entries (`cut`).
-/

namespace PolarDB.LogIndex

open List

abbrev Tables := List (List LogIndexLsn)

/-! ## Entries -/

def keys (es : List LogIndexLsn) : List (BufferTag × Nat) := es.map fun e => (e.tag, e.lsn)

def wanted (startLsn : Nat) (es : List LogIndexLsn) : List LogIndexLsn :=
  es.filter fun e => startLsn ≤ e.lsn

theorem keys_append (es es' : List LogIndexLsn) : keys (es ++ es') = keys es ++ keys es' :=
  map_append

theorem wanted_append (startLsn : Nat) (es es' : List LogIndexLsn) :
    wanted startLsn (es ++ es') = wanted startLsn es ++ wanted startLsn es' :=
  filter_append ..

variable {startLsn : Nat} {es : List LogIndexLsn}

theorem wanted_eq_self (hge : ∀ e ∈ es, startLsn ≤ e.lsn) : wanted startLsn es = es :=
  filter_eq_self.mpr fun e he => decide_eq_true (hge e he)

theorem wanted_eq_nil (hlt : ∀ e ∈ es, e.lsn < startLsn) : wanted startLsn es = [] :=
  filter_eq_nil_iff.mpr fun e he hge =>
    absurd (of_decide_eq_true hge) (not_le.mpr (hlt e he))

/-! ## Tables by id -/

def tableNum (h : Tables) : Nat := h.length

def tableEntries (h : Tables) (t : Nat) : List LogIndexLsn := h.getD (t - 1) []

section Tables

variable {h : Tables} {t : Nat}

theorem tableEntries_mem (h1 : 0 < t) (ht : t ≤ tableNum h) : tableEntries h t ∈ h := by
  rw [tableEntries, getD_eq_getElem _ _ (show t - 1 < h.length by rw [tableNum] at ht; omega)]
  exact getElem_mem _

theorem tableEntries_eq_nil (ht : tableNum h < t) : tableEntries h t = [] := by
  rw [tableEntries, getD_eq_default _ _ (show h.length ≤ t - 1 by rw [tableNum] at ht; omega)]

theorem tableEntries_sublist (h : Tables) (t : Nat) : (tableEntries h t).Sublist h.flatten := by
  by_cases hlt : t - 1 < h.length
  · rw [tableEntries, getD_eq_getElem _ _ hlt]
    exact sublist_flatten_of_mem (getElem_mem _)
  · rw [tableEntries, getD_eq_default _ _ (by omega)]
    exact nil_sublist _

theorem LsnSorted.tableEntries (hs : LsnSorted h.flatten) (t : Nat) :
    LsnSorted (tableEntries h t) :=
  List.Pairwise.sublist (tableEntries_sublist h t) hs

theorem LsnSorted.tableEntries_le (hs : LsnSorted h.flatten) {t t' : Nat} (ht : 0 < t)
    (htt : t < t') {e e' : LogIndexLsn} (he : e ∈ LogIndex.tableEntries h t)
    (he' : e' ∈ LogIndex.tableEntries h t') : e.lsn ≤ e'.lsn := by
  have hlt' : t' - 1 < h.length := by
    by_contra hge
    rw [LogIndex.tableEntries, getD_eq_default _ _ (by omega)] at he'
    simp at he'
  rw [LogIndex.tableEntries, getD_eq_getElem _ _ (by omega)] at he
  rw [LogIndex.tableEntries, getD_eq_getElem _ _ hlt'] at he'
  rw [LsnSorted, pairwise_flatten] at hs
  exact pairwise_iff_getElem.mp hs.2 (t - 1) (t' - 1) _ _ (by omega) e he e' he'

/-! ## The first tables and the rest -/

theorem mem_take_flatten {n : Nat} {e : LogIndexLsn} :
    e ∈ (h.take n).flatten ↔ ∃ t, 0 < t ∧ t ≤ n ∧ e ∈ tableEntries h t := by
  constructor
  · intro he
    obtain ⟨es, hes, he⟩ := mem_flatten.mp he
    obtain ⟨i, hi, rfl⟩ := getElem_of_mem hes
    rw [length_take] at hi
    refine ⟨i + 1, by omega, by omega, ?_⟩
    rw [tableEntries, getD_eq_getElem _ _ (by omega)]
    rwa [getElem_take] at he
  · rintro ⟨t, h1, ht, he⟩
    have hlt : t - 1 < h.length := by
      by_contra hge
      rw [tableEntries, getD_eq_default _ _ (by omega)] at he
      simp at he
    rw [tableEntries, getD_eq_getElem _ _ hlt] at he
    refine mem_flatten.mpr ⟨_, mem_take_iff_getElem.mpr ⟨t - 1, by omega, rfl⟩, he⟩

theorem take_flatten_sublist (h : Tables) (n : Nat) : (h.take n).flatten.Sublist h.flatten := by
  conv_rhs => rw [← take_append_drop n h, flatten_append]
  exact sublist_append_left ..

theorem tableEntries_take {n t : Nat} (h : Tables) (h1 : 0 < t) (ht : t ≤ n) :
    tableEntries (h.take n) t = tableEntries h t := by
  rw [tableEntries, tableEntries, getD_eq_getElem?_getD, getD_eq_getElem?_getD,
    getElem?_take_of_lt (by omega)]

theorem take_succ_flatten (h : Tables) (n : Nat) :
    (h.take (n + 1)).flatten = (h.take n).flatten ++ tableEntries h (n + 1) := by
  rw [tableEntries, Nat.add_sub_cancel]
  by_cases hlt : n < h.length
  · rw [take_succ_eq_append_getElem hlt, getD_eq_getElem _ _ hlt, flatten_append]
    simp only [flatten_cons, flatten_nil, append_nil]
  · rw [take_of_length_le (by omega), take_of_length_le (by omega),
      getD_eq_default _ _ (by omega), append_nil]

theorem drop_flatten (h : Tables) (n : Nat) :
    (h.drop n).flatten = tableEntries h (n + 1) ++ (h.drop (n + 1)).flatten := by
  rw [tableEntries, Nat.add_sub_cancel]
  by_cases hlt : n < h.length
  · rw [drop_eq_getElem_cons hlt, getD_eq_getElem _ _ hlt]
    rfl
  · rw [drop_of_length_le (by omega), drop_of_length_le (by omega), getD_eq_default _ _ (by omega)]
    rfl

/-! ## Adding an entry -/

def addLast (h : Tables) (e : LogIndexLsn) : Tables :=
  h.dropLast ++ [tableEntries h (tableNum h) ++ [e]]

theorem dropLast_append_last (hpos : 0 < tableNum h) :
    h.dropLast ++ [tableEntries h (tableNum h)] = h := by
  have hne : h ≠ [] := length_pos_iff.mp hpos
  have hlast : tableEntries h (tableNum h) = h.getLast hne := by
    rw [tableNum] at hpos ⊢
    rw [tableEntries, getD_eq_getElem _ _ (by omega), getLast_eq_getElem]
  rw [hlast, dropLast_concat_getLast]

/-- An added entry changes one table and comes last in the history: it
is behind the entries of the newest table, or alone in a new one. -/
structure Added (h h' : Tables) (e : LogIndexLsn) (t : Nat) : Prop where
  num : tableNum h' = t
  self : tableEntries h' t = tableEntries h t ++ [e]
  other : ∀ t', 0 < t' → t' ≠ t → tableEntries h' t' = tableEntries h t'
  flatten : h'.flatten = h.flatten ++ [e]
  nonempty : (∀ es ∈ h, es ≠ []) → ∀ es ∈ h', es ≠ []

theorem added_addLast (e : LogIndexLsn) (hpos : 0 < tableNum h) :
    Added h (addLast h e) e (tableNum h) := by
  have hlen : h.dropLast.length = tableNum h - 1 := by rw [length_dropLast, tableNum]
  refine ⟨?_, ?_, fun t' h1 hne => ?_, ?_, fun hall es hes => ?_⟩
  · rw [tableNum, addLast, length_append, length_singleton]
    omega
  · rw [tableEntries, addLast, getD_append_right _ _ _ _ (by omega), hlen, Nat.sub_self]
    rfl
  · conv_rhs => rw [← dropLast_append_last hpos]
    rw [tableEntries, tableEntries, addLast]
    by_cases hlt : t' - 1 < h.dropLast.length
    · rw [getD_append _ _ _ _ hlt, getD_append _ _ _ _ hlt]
    · rw [getD_eq_default _ _ (by rw [length_append, length_singleton]; omega),
        getD_eq_default _ _ (by rw [length_append, length_singleton]; omega)]
  · conv_rhs => rw [← dropLast_append_last hpos]
    simp [addLast]
  · exact forall_mem_snoc (fun es hes => hall es (dropLast_subset _ hes)) (by simp) es hes

theorem added_new (h : Tables) (e : LogIndexLsn) : Added h (h ++ [[e]]) e (tableNum h + 1) := by
  refine ⟨by simp [tableNum], ?_, fun t' h1 hne => ?_, by simp, fun hall es hes => ?_⟩
  · rw [tableEntries_eq_nil (Nat.lt_succ_self _), tableEntries, tableNum]
    simp
  · rw [tableNum] at hne
    rw [tableEntries, tableEntries]
    by_cases hlt : t' - 1 < h.length
    · rw [getD_append _ _ _ _ hlt]
    · rw [getD_eq_default _ _ (by simp; omega), getD_eq_default _ _ (by omega)]
  · exact forall_mem_snoc hall (by simp) es hes

end Tables

/-! ## The cut of a history -/

def fits (es : List LogIndexLsn) (e : LogIndexLsn) : Bool :=
  (es.all fun e' => lsnPrefix e'.lsn = lsnPrefix e.lsn) &&
    (!needsCell (tagLsns e.tag es).length || 1 + cellsUsed es < memTblSegNum)

def place (h : Tables) (e : LogIndexLsn) : Tables :=
  if 0 < tableNum h ∧ fits (tableEntries h (tableNum h)) e = true then addLast h e
  else h ++ [[e]]

/-- The tables of a history of entries. -/
def cut (es : List LogIndexLsn) : Tables := es.foldl place []

theorem cut_append (es : List LogIndexLsn) (e : LogIndexLsn) :
    cut (es ++ [e]) = place (cut es) e := by
  rw [cut, foldl_append]
  rfl

theorem place_flatten (h : Tables) (e : LogIndexLsn) : (place h e).flatten = h.flatten ++ [e] := by
  unfold place
  split
  · rename_i hc
    exact (added_addLast e hc.1).flatten
  · exact (added_new h e).flatten

variable {h' : Tables}

theorem place_append (h : Tables) (hne : h' ≠ []) (e : LogIndexLsn) :
    place (h ++ h') e = h ++ place h' e := by
  have hpos : 0 < tableNum h' := length_pos_iff.mpr hne
  have hnum : tableNum (h ++ h') = tableNum h + tableNum h' := length_append
  have hlast : tableEntries (h ++ h') (tableNum (h ++ h')) = tableEntries h' (tableNum h') := by
    have hsub : tableNum h + tableNum h' - 1 - h.length = tableNum h' - 1 := by
      simp only [tableNum] at hpos ⊢
      omega
    rw [tableEntries, tableEntries, hnum, getD_append_right _ _ _ _, hsub]
    simp only [tableNum] at hpos ⊢
    omega
  rw [place, place, addLast, addLast, hlast, dropLast_append_of_ne_nil hne]
  by_cases hfit : fits (tableEntries h' (tableNum h')) e = true
  · rw [if_pos ⟨by omega, hfit⟩, if_pos ⟨hpos, hfit⟩, append_assoc]
  · rw [if_neg fun hc => hfit hc.2, if_neg fun hc => hfit hc.2, append_assoc]

theorem place_ne_nil (h : Tables) (e : LogIndexLsn) : place h e ≠ [] := by
  unfold place
  split
  · exact append_ne_nil_of_right_ne_nil _ (cons_ne_nil _ _)
  · exact append_ne_nil_of_right_ne_nil _ (cons_ne_nil _ _)

theorem foldl_place_append (es : List LogIndexLsn) (h : Tables) (hne : h' ≠ []) :
    es.foldl place (h ++ h') = h ++ es.foldl place h' := by
  induction es generalizing h' with
  | nil => rfl
  | cons e es ih =>
    rw [foldl_cons, foldl_cons, place_append h hne, ih (place_ne_nil h' e)]

theorem cut_drop (es : List LogIndexLsn) (n : Nat) :
    cut ((cut es).drop n).flatten = (cut es).drop n := by
  induction es using reverseRecOn with
  | nil =>
    rw [show cut [] = [] from rfl, drop_nil]
    rfl
  | append_singleton es e ih =>
    rw [cut_append]
    by_cases hlt : n < tableNum (cut es)
    · have hne : (cut es).drop n ≠ [] := mt drop_eq_nil_iff.mp (not_le.mpr hlt)
      have hdrop : (place (cut es) e).drop n = place ((cut es).drop n) e := by
        conv_lhs => rw [← take_append_drop n (cut es)]
        rw [place_append _ hne, drop_left' (length_take_of_le hlt.le)]
      rw [hdrop, place_flatten, cut_append, ih]
    · rw [place]
      split
      · rename_i hc
        have hlen := (added_addLast e hc.1).num
        rw [drop_of_length_le (by simp only [tableNum] at hlen hlt; omega)]
        rfl
      · rw [drop_append, drop_of_length_le (by rw [tableNum] at hlt; omega)]
        cases hk : n - (cut es).length with
        | zero => rfl
        | succ k => rw [drop_succ_cons, drop_nil]; rfl

/-- If the entry behind the first `n` tables does not fit the last of
them, these tables are final and the rest is cut afresh. -/
theorem cut_split {es rest : List LogIndexLsn} {n : Nat}
    (hclosed : n < tableNum (cut es) ∨ n = tableNum (cut es) ∧
      ∀ e ∈ rest.head?, place (cut es) e = cut es ++ [[e]]) :
    cut (es ++ rest) = (cut es).take n ++ cut (((cut es).drop n).flatten ++ rest) := by
  have hfold : ∀ es rest, cut (es ++ rest) = rest.foldl place (cut es) := fun _ _ => foldl_append
  rw [hfold, hfold, cut_drop]
  rcases hclosed with hlt | ⟨rfl, hnew⟩
  · have hne : (cut es).drop n ≠ [] := mt drop_eq_nil_iff.mp (not_le.mpr hlt)
    conv_lhs => rw [← take_append_drop n (cut es)]
    exact foldl_place_append rest _ hne
  · rw [tableNum, take_length, drop_length]
    cases rest with
    | nil => exact (append_nil _).symm
    | cons e rest =>
      rw [foldl_cons, hnew e rfl]
      exact foldl_place_append rest _ (cons_ne_nil _ _)

theorem cut_flatten (es : List LogIndexLsn) : (cut es).flatten = es := by
  induction es using reverseRecOn with
  | nil => rfl
  | append_singleton es e ih => rw [cut_append, place_flatten, ih]

end PolarDB.LogIndex
