import PolarDB.PaxosReplica

/-!
# The receive cache is an interval map

Parts of a log that came too early wait in nodes, each with the entries
of an interval of indexes. `put` closes gaps and merges what overlaps, so
the nodes stay sorted, disjoint and apart from each other (`IntervalMap`),
and `get` returns all entries from an index up to the next gap
(`logCache_intervalMap`).
-/

namespace PolarDB.Paxos

open List

/-! ## Put and get -/

namespace PaxosLogCache

variable {Q : PaxosLogCacheNode → Prop} {cache : List PaxosLogCacheNode}
  {node newNode : PaxosLogCacheNode} {b i : Nat}

/-- What holds of the nodes and is kept when two of them are put together
holds after `put`. -/
theorem put_forall (hadj : ∀ a b, Q a → Q b → a.endIndex + 1 = b.beginIndex →
      Q ⟨a.beginIndex, b.endIndex, a.entries ++ b.entries⟩)
    (hmerge : ∀ a b, Q a → Q b → a.beginIndex ≤ b.beginIndex → b.beginIndex ≤ a.endIndex →
      a.endIndex < b.endIndex → Q (a.merge b))
    (hcache : ∀ node ∈ cache, Q node) (hnew : Q newNode) : ∀ node ∈ put cache newNode, Q node := by
  induction cache generalizing newNode with
  | nil => exact forall_mem_singleton.mpr hnew
  | cons node rest ih =>
    obtain ⟨hnode, hrest⟩ := forall_mem_cons.mp hcache
    rw [put]
    split
    · split
      · exact forall_mem_cons.mpr ⟨hnode, ih hrest hnew⟩
      · exact ih hrest (hadj node newNode hnode hnew (by omega))
    split
    · split
      · exact forall_mem_cons.mpr ⟨hnew, hcache⟩
      · exact forall_mem_cons.mpr ⟨hadj newNode node hnew hnode (by omega), hrest⟩
    split
    · split
      · exact ih hrest (hmerge newNode node hnew hnode (by omega) (by omega) (by omega))
      · exact ih hrest hnew
    · split
      · exact ih hrest (hmerge node newNode hnode hnew (by omega) (by omega) (by omega))
      · exact hcache

/-- `get` drops nodes below the index, and takes the next one if the index
is in it. -/
theorem get_cases (cache : List PaxosLogCacheNode) (b : Nat) :
    ∃ dropped, (∀ node ∈ dropped, node.endIndex < b) ∧
      ((∃ rest, cache = dropped ++ rest ∧ get cache b = (none, rest) ∧
        ∀ node ∈ rest.head?, b < node.beginIndex) ∨
      ∃ node rest, cache = dropped ++ node :: rest ∧ node.beginIndex ≤ b ∧
        (node.beginIndex = b ∨ b ≤ node.endIndex) ∧ get cache b =
          (some ⟨b, node.endIndex, node.entries.drop (b - node.beginIndex)⟩, rest)) := by
  induction cache with
  | nil => exact ⟨[], nofun, .inl ⟨[], rfl, rfl, nofun⟩⟩
  | cons node rest ih =>
    rw [get]
    split
    · rename_i heq
      refine ⟨[], nofun, .inr ⟨node, rest, rfl, heq.le, .inl heq, ?_⟩⟩
      rw [← heq, Nat.sub_self, drop_zero]
    split
    · rename_i hlt
      split
      · rename_i hend
        obtain ⟨dropped, hdropped, h⟩ := ih
        refine ⟨node :: dropped, forall_mem_cons.mpr ⟨hend, hdropped⟩, h.imp ?_ ?_⟩
        · exact fun ⟨rest', heq, hget⟩ => ⟨rest', congrArg (node :: ·) heq, hget⟩
        · exact fun ⟨node', rest', heq, hget⟩ => ⟨node', rest', congrArg (node :: ·) heq, hget⟩
      · exact ⟨[], nofun, .inr ⟨node, rest, rfl, hlt.le, .inr (by omega), rfl⟩⟩
    · exact ⟨[], nofun, .inl ⟨_, rfl, rfl, fun _ h => Option.some.inj h ▸ by omega⟩⟩

theorem get_rest_subset (cache : List PaxosLogCacheNode) (b : Nat) : (get cache b).2 ⊆ cache := by
  obtain ⟨dropped, -, ⟨rest, heq, hget, -⟩ | ⟨node, rest, heq, -, -, hget⟩⟩ := get_cases cache b
  · exact hget ▸ heq ▸ subset_append_right _ _
  · exact hget ▸ heq ▸ Subset.trans (subset_cons_self _ _) (subset_append_right _ _)

/-- A node that `get` returns is a node of the cache or the end of one. -/
theorem get_node (h : (get cache b).1 = some node) :
    ∃ node' ∈ cache, node'.beginIndex ≤ b ∧ (node'.beginIndex = b ∨ b ≤ node'.endIndex) ∧
      node = ⟨b, node'.endIndex, node'.entries.drop (b - node'.beginIndex)⟩ := by
  obtain ⟨dropped, -, ⟨rest, -, hget, -⟩ | ⟨node', rest, heq, hle, hin, hget⟩⟩ := get_cases cache b
  · rw [hget] at h
    cases h
  · rw [hget] at h
    exact ⟨node', heq ▸ mem_append_cons_self, hle, hin, (Option.some.inj h).symm⟩

/-! ## Interval maps -/

structure Holds (E : Nat → LogEntry) (node : PaxosLogCacheNode) : Prop where
  begin_le : node.beginIndex ≤ node.endIndex
  entries : node.entries = (range' node.beginIndex (node.endIndex + 1 - node.beginIndex)).map E

def Covers (cache : List PaxosLogCacheNode) (i : Nat) : Prop :=
  ∃ node ∈ cache, node.beginIndex ≤ i ∧ i ≤ node.endIndex

/-- The nodes are sorted, disjoint and not adjacent, and have the entries
of the indexes `S`. -/
structure IntervalMap (E : Nat → LogEntry) (cache : List PaxosLogCacheNode) (S : Nat → Prop) :
    Prop where
  sorted : cache.Pairwise fun a b => a.endIndex + 1 < b.beginIndex
  holds : ∀ node ∈ cache, Holds E node
  covers : ∀ i, S i ↔ Covers cache i

theorem covers_cons (node : PaxosLogCacheNode) (cache : List PaxosLogCacheNode) (i : Nat) :
    Covers (node :: cache) i ↔ (node.beginIndex ≤ i ∧ i ≤ node.endIndex) ∨ Covers cache i := by
  simp [Covers]

variable {E : Nat → LogEntry} {S : Nat → Prop}

theorem covers_put (hcache : ∀ node ∈ cache, node.beginIndex ≤ node.endIndex)
    (hnew : newNode.beginIndex ≤ newNode.endIndex) : Covers (put cache newNode) i ↔
      Covers cache i ∨ (newNode.beginIndex ≤ i ∧ i ≤ newNode.endIndex) := by
  induction cache generalizing newNode with
  | nil => simp [put, Covers]
  | cons node rest ih =>
    obtain ⟨hnode, hrest⟩ := forall_mem_cons.mp hcache
    rw [put]
    split_ifs <;> grind [covers_cons, PaxosLogCacheNode.merge]

theorem sorted_put (hcache : ∀ node ∈ cache, Holds E node)
    (hs : cache.Pairwise fun a b => a.endIndex + 1 < b.beginIndex) :
    (put cache newNode).Pairwise fun a b => a.endIndex + 1 < b.beginIndex := by
  induction cache generalizing newNode with
  | nil => exact pairwise_singleton _ _
  | cons node rest ih =>
    obtain ⟨hnode, hrest⟩ := forall_mem_cons.mp hcache
    obtain ⟨hfirst, hs'⟩ := pairwise_cons.mp hs
    have ih' := fun newNode => @ih newNode hrest hs'
    rw [put]
    split_ifs with hbelow hgap habove hgap
    · refine pairwise_cons.mpr ⟨?_, ih' newNode⟩
      exact put_forall (fun _ _ h _ _ => h) (fun _ _ h _ _ _ _ => h) hfirst (by omega)
    · exact ih' _
    · refine pairwise_cons.mpr ⟨forall_mem_cons.mpr ⟨by omega, fun x hx => ?_⟩, hs⟩
      have := hfirst x hx
      have := hnode.begin_le
      omega
    · exact pairwise_cons.mpr ⟨hfirst, hs'⟩
    all_goals first | exact ih' _ | exact hs

theorem map_range'_append {a m c : Nat} (ham : a ≤ m) (hmc : m ≤ c) :
    (range' a (m - a)).map E ++ (range' m (c - m)).map E = (range' a (c - a)).map E := by
  obtain ⟨k, rfl⟩ := Nat.exists_eq_add_of_le ham
  rw [← map_append, Nat.add_sub_cancel_left, range'_append_1,
    show k + (c - (a + k)) = c - a by omega]

theorem Holds.drop (h : Holds E node) (hb : node.beginIndex ≤ b) :
    node.entries.drop (b - node.beginIndex) = (range' b (node.endIndex + 1 - b)).map E := by
  rw [h.entries, ← map_drop, drop_range', Nat.mul_one, Nat.add_sub_cancel' hb,
    Nat.sub_sub, Nat.add_sub_cancel' hb]

theorem Holds.put (hcache : ∀ node ∈ cache, Holds E node) (hnew : Holds E newNode) :
    ∀ node ∈ put cache newNode, Holds E node := by
  refine put_forall (fun a b ha hb hadj => ?_) (fun a b ha hb hle hin hend => ?_) hcache hnew
  all_goals
    have := ha.begin_le
    have := hb.begin_le
  · refine ⟨by simp only; omega, ?_⟩
    rw [ha.entries, hb.entries, ← hadj, map_range'_append (by omega) (by omega)]
  · refine ⟨this.trans' hle, ?_⟩
    rw [PaxosLogCacheNode.merge, ← Nat.sub_add_comm hin, hb.drop (by omega), ha.entries,
      map_range'_append (by omega) (by omega)]

theorem IntervalMap.put (h : IntervalMap E cache S) (hnew : Holds E newNode) :
    IntervalMap E (put cache newNode) fun i =>
      S i ∨ (newNode.beginIndex ≤ i ∧ i ≤ newNode.endIndex) :=
  ⟨sorted_put h.holds h.sorted, Holds.put h.holds hnew, fun i => by
    rw [h.covers, covers_put (fun node hn => (h.holds node hn).begin_le) hnew.begin_le]⟩

/-- The indexes from `b` on up to the next gap. -/
def Run (S : Nat → Prop) (b i : Nat) : Prop := b ≤ i ∧ ∀ j, b ≤ j → j ≤ i → S j

/-- What is returned for index `b`: nothing if it is not cached, and all
entries up to the next gap otherwise. -/
def Returned (E : Nat → LogEntry) (S : Nat → Prop) (b : Nat) : Option PaxosLogCacheNode → Prop
  | none => ¬ S b
  | some node => node.beginIndex = b ∧ Holds E node ∧ ∀ i, Run S b i ↔ b ≤ i ∧ i ≤ node.endIndex

theorem IntervalMap.get (h : IntervalMap E cache S) (b : Nat) :
    IntervalMap E (get cache b).2 (fun i => S i ∧ b ≤ i ∧ ¬ Run S b i) ∧
      Returned E S b (get cache b).1 := by
  have hsub := get_rest_subset cache b
  obtain ⟨hs, hh, hcov⟩ := h
  obtain ⟨dropped, hdropped, ⟨rest, rfl, hget, habove⟩ | ⟨node, rest, rfl, hle, hin, hget⟩⟩ :=
    get_cases cache b
  all_goals
    rw [hget] at hsub ⊢
    obtain ⟨-, hs, -⟩ := pairwise_append.mp hs
    have hfrom : ∀ i, b ≤ i → (S i ↔ Covers _ i) := fun i hi => (hcov i).trans
      ⟨fun ⟨x, hx, hxi⟩ => (mem_append.mp hx).elim (fun hx => absurd (hdropped x hx) (by omega))
        fun hx => ⟨x, hx, hxi⟩, fun ⟨x, hx, hxi⟩ => ⟨x, mem_append_right _ hx, hxi⟩⟩
  · have hrest : ∀ i, Covers rest i → b < i := by
      rintro i ⟨node, hn, hi, -⟩
      cases rest with
      | nil => cases hn
      | cons first rest =>
        have hfirst := habove first rfl
        have := (hh first (hsub mem_cons_self)).begin_le
        rcases mem_cons.mp hn with rfl | hn
        · omega
        · have := (pairwise_cons.mp hs).1 node hn
          omega
    have hb : ¬ S b := fun hb => lt_irrefl _ (hrest b ((hfrom b le_rfl).mp hb))
    refine ⟨⟨hs, fun node hn => hh node (hsub hn), fun i => ?_⟩, hb⟩
    exact ⟨fun hi => (hfrom i hi.2.1).mp hi.1, fun hi => ⟨(hfrom i (hrest i hi).le).mpr hi,
      (hrest i hi).le, fun hrun => hb (hrun.2 b le_rfl hrun.1)⟩⟩
  · obtain ⟨hfirst, hs'⟩ := pairwise_cons.mp hs
    have hnode := hh node mem_append_cons_self
    have hlen := hnode.begin_le
    have hrest : ∀ i, Covers rest i → node.endIndex + 1 < i := fun i ⟨x, hx, hi, _⟩ =>
      (hfirst x hx).trans_le hi
    simp only [covers_cons] at hfrom
    have hrun : ∀ i, Run S b i ↔ b ≤ i ∧ i ≤ node.endIndex := by
      refine fun i => and_congr_right fun _ => ⟨fun hall => ?_, fun hi j hbj hj => ?_⟩
      · by_contra hgt
        rcases (hfrom _ (by omega)).mp (hall (node.endIndex + 1) (by omega) (by omega)) with hd | hd
        · omega
        · exact lt_irrefl _ (hrest _ hd)
      · exact (hfrom j hbj).mpr (.inl ⟨by omega, by omega⟩)
    refine ⟨⟨hs', fun node hn => hh node (hsub hn), fun i => ?_⟩, rfl,
      ⟨by simp only; omega, hnode.drop hle⟩, hrun⟩
    rw [hrun]
    constructor
    · rintro ⟨hi, hbi, hnot⟩
      exact ((hfrom i hbi).mp hi).resolve_left fun hd => hnot ⟨hbi, hd.2⟩
    · intro hi
      have := hrest i hi
      exact ⟨(hfrom i (by omega)).mpr (.inr hi), by omega, by omega⟩

/-! ## Every sequence of calls -/

inductive Call where
  | put (newNode : PaxosLogCacheNode)
  | get (beginIndex : Nat)

def Call.after (cache : List PaxosLogCacheNode) : Call → List PaxosLogCacheNode
  | .put newNode => PaxosLogCache.put cache newNode
  | .get beginIndex => (PaxosLogCache.get cache beginIndex).2

def Call.indexes (S : Nat → Prop) : Call → Nat → Prop
  | .put newNode, i => S i ∨ (newNode.beginIndex ≤ i ∧ i ≤ newNode.endIndex)
  | .get beginIndex, i => S i ∧ beginIndex ≤ i ∧ ¬ Run S beginIndex i

/-- **The receive cache is an interval map** after every sequence of calls,
and the next `get` returns the entries up to the next gap. -/
theorem logCache_intervalMap (E : Nat → LogEntry) (calls : List Call)
    (hput : ∀ newNode, .put newNode ∈ calls → Holds E newNode) :
    IntervalMap E (calls.foldl Call.after []) (calls.foldl Call.indexes fun _ => False) ∧
      ∀ b, Returned E (calls.foldl Call.indexes fun _ => False) b
        (get (calls.foldl Call.after []) b).1 := by
  have hinit : IntervalMap E [] fun _ => False := ⟨.nil, nofun, fun i => by simp [Covers]⟩
  generalize ([] : List PaxosLogCacheNode) = cache, (fun _ : Nat => False) = S at hinit
  induction calls generalizing cache S with
  | nil => exact ⟨hinit, fun b => (hinit.get b).2⟩
  | cons call calls ih =>
    refine ih (fun n hn => hput n (mem_cons_of_mem _ hn)) _ _ ?_
    cases call with
    | put newNode => exact hinit.put (hput newNode mem_cons_self)
    | get b => exact (hinit.get b).1

/-- Index 3 comes before 1 and 2. -/
def early : List Call := [.put ⟨3, 3, [emptyEntry 3]⟩, .put ⟨1, 2, [emptyEntry 1, emptyEntry 2]⟩]

theorem logCache_intervalMap_early :
    IntervalMap emptyEntry (early.foldl Call.after []) (early.foldl Call.indexes fun _ => False) :=
  (logCache_intervalMap emptyEntry early fun newNode h => by
    simp only [early, mem_cons, Call.put.injEq, not_mem_nil, or_false] at h
    rcases h with rfl | rfl <;> exact ⟨by decide, rfl⟩).1

end PaxosLogCache

end PolarDB.Paxos
