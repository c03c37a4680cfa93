import Mathlib.Order.Nat
import PolarDB.XlogBuffer

/-!
# Dropping a bad record from the WAL page buffer

After a record that cannot be decoded, `XLogDecodeNextRecord` takes its bytes
out of the shared buffer: the page is cut behind the byte before the record,
and the pages up to the end of the record's extent are removed. The record's
own page is the one that is cut only if the record does not begin with it, and
the extent is a 32-bit number. The branch does its work exactly if no slot has
a byte of the pages it leaves out (`dropRecord_covers_iff`).
-/

namespace PolarDB.XlogBuffer

open Function Option

variable (conf : Conf)

def Conf.updateAt (slots : Nat → Slot) (lsn : Nat) : Nat → Slot :=
  update slots (conf.bufId lsn) ((slots (conf.bufId lsn)).update (conf.pageOff lsn) lsn)

def Conf.removeAt (slots : Nat → Slot) (lsn : Nat) : Nat → Slot :=
  update slots (conf.bufId lsn) ((slots (conf.bufId lsn)).remove (conf.pageOff lsn))

def Conf.extent (totalLen gotlen readAheadNum : Nat) (amStartup : Bool) : Nat :=
  (if totalLen = 0 then 0 else gotlen + conf.blckSz) +
    if amStartup then readAheadNum * conf.blckSz else 0

/-- The loop over the pages behind the first one, at most `n` rounds of it. -/
def Conf.removePages (recPtr len : Nat) : Nat → Nat → (Nat → Slot) → Nat → Slot
  | 0, _, slots => slots
  | n + 1, offset, slots =>
    if (recPtr + offset) / conf.blckSz ≤ (recPtr + len) / conf.blckSz then
      removePages recPtr len n (offset + conf.blckSz) (conf.removeAt slots (recPtr + offset))
    else slots

/-- The failure branch of `XLogDecodeNextRecord`, `len` being a `uint32`. -/
def Conf.dropRecord (slots : Nat → Slot) (recPtr extent : Nat) : Nat → Slot :=
  let len := extent % 0x100000000
  let slots := conf.updateAt slots (if recPtr > 0 then recPtr - 1 else 0)
  if (recPtr + len) / conf.blckSz ≠ recPtr / conf.blckSz then
    conf.removePages recPtr len (len + 1) conf.blckSz slots
  else slots

def Slot.Covers (slot : Slot) (lsn : Nat) : Prop :=
  slot.startLsn ≠ 0 ∧ slot.startLsn ≤ lsn ∧ lsn ≤ slot.endLsn

instance (slot : Slot) (lsn : Nat) : Decidable (slot.Covers lsn) :=
  inferInstanceAs (Decidable (_ ∧ _))

def Placed (b : Nat) (slot : Slot) : Prop :=
  slot.startLsn ≠ 0 → b = conf.bufId slot.startLsn ∧ conf.blckSz ∣ slot.startLsn ∧
    slot.endLsn < slot.startLsn + conf.blckSz

/-! ## Slots are placed in every run -/

variable {conf} {b lsn x : Nat} {slot : Slot} {slots : Nat → Slot}

theorem placed_update (h : ∀ b, Placed conf b (slots b)) (hslot : Placed conf b slot) :
    ∀ b', Placed conf b' (update slots b slot b') :=
  (forall_update_iff slots (Placed conf)).mpr ⟨hslot, fun b' _ => h b'⟩

theorem placed_invalidate : Placed conf b slot.invalidate :=
  fun h0 => absurd rfl h0

theorem placed_updateAt (h : ∀ b, Placed conf b (slots b)) (lsn : Nat) :
    ∀ b, Placed conf b (conf.updateAt slots lsn b) := by
  refine placed_update h ?_
  unfold Slot.update
  split
  · next hcut => exact fun h0 => (h _ h0).imp_right (And.imp_right hcut.2.trans)
  · exact h _

theorem placed_removeAt (h : ∀ b, Placed conf b (slots b)) (lsn : Nat) :
    ∀ b, Placed conf b (conf.removeAt slots lsn b) := by
  refine placed_update h ?_
  unfold Slot.remove
  split
  · exact placed_invalidate
  · exact h _

def EvictOk (conf : Conf) : Pc → Prop
  | .evict lsn len _ => lsn % conf.blckSz = 0 ∧ len ≤ conf.blckSz
  | _ => True

structure PlaceInv (conf : Conf) (s : State) : Prop where
  slots : ∀ b, Placed conf b (s.slots b)
  evict : ∀ i, EvictOk conf (s.procs i)

section

variable {s s' : State} {i : Nat} {pc : Pc} (h : PlaceInv conf s)
include h

theorem PlaceInv.frame (hslots : ∀ b, Placed conf b (s'.slots b))
    (hprocs : s'.procs = update s.procs i pc) (hpc : EvictOk conf pc) : PlaceInv conf s' :=
  ⟨hslots, hprocs ▸ (forall_update_iff s.procs fun _ => EvictOk conf).mpr
    ⟨hpc, fun j _ => h.evict j⟩⟩

theorem PlaceInv.step {a : Action} (hs : step conf s a = some s') : PlaceInv conf s' := by
  cases a with
  | lookup i lsn len caller =>
    obtain ⟨⟨-, hlsn, hlen, -⟩, rfl⟩ := ite_some_none_eq_some.mp hs
    simp only [State.lookup]
    split
    · exact h.frame h.slots rfl trivial
    · split
      · exact h
      · exact h.frame h.slots rfl ⟨hlsn, hlen⟩
  | evict i =>
    simp only [XlogBuffer.step] at hs
    split at hs
    · next lsn len caller hpc =>
      obtain ⟨-, rfl⟩ := ite_some_none_eq_some.mp hs
      obtain ⟨hlsn, hlen⟩ : EvictOk conf (.evict lsn len caller) := hpc ▸ h.evict i
      exact h.frame (placed_update h.slots fun (h0 : lsn ≠ 0) =>
        ⟨rfl, Nat.dvd_of_mod_eq_zero hlsn, show lsn + len - 1 < lsn + conf.blckSz by omega⟩)
          rfl trivial
    · cases hs
  | fill i readOk =>
    simp only [XlogBuffer.step] at hs
    split at hs
    · obtain ⟨-, rfl⟩ := ite_some_none_eq_some.mp hs
      refine h.frame (placed_update h.slots ?_) rfl trivial
      split <;> exact h.slots _
    · cases hs
  | unlock i | resetAll i =>
    simp only [XlogBuffer.step] at hs
    split at hs
    · cases hs
      exact h.frame h.slots rfl trivial
    · cases hs
  | update lsn =>
    obtain ⟨-, rfl⟩ := ite_some_none_eq_some.mp hs
    exact ⟨placed_updateAt h.slots lsn, h.evict⟩
  | remove lsn =>
    obtain ⟨-, rfl⟩ := ite_some_none_eq_some.mp hs
    exact ⟨placed_removeAt h.slots lsn, h.evict⟩
  | reset i =>
    simp only [XlogBuffer.step] at hs
    split at hs
    · split at hs
      · obtain ⟨-, rfl⟩ := ite_some_none_eq_some.mp hs
        exact h.frame (placed_update h.slots placed_invalidate) rfl trivial
      · cases hs
        exact h.frame h.slots rfl trivial
    · cases hs

end

/-! ## What is left in the slots -/

/-- A slot that covers a byte of the page at `lsn` is the one that is looked
at, and has that page. -/
theorem Placed.page_iff (h : Placed conf b slot) (hc : slot.Covers x) :
    x / conf.blckSz = lsn / conf.blckSz ↔
      b = conf.bufId lsn ∧ slot.startLsn = conf.pageOff lsn := by
  obtain ⟨h0, hle, hend⟩ := hc
  obtain ⟨hb, ⟨k, hk⟩, hlt⟩ := h h0
  have hpos : 0 < conf.blckSz := by omega
  have hoff : conf.pageOff lsn = conf.blckSz * (lsn / conf.blckSz) :=
    Nat.sub_eq_of_eq_add (Nat.div_add_mod ..).symm
  have hx : x / conf.blckSz = k :=
    Nat.div_eq_of_lt_le (by rw [Nat.mul_comm]; omega) (by rw [Nat.succ_mul, Nat.mul_comm]; omega)
  rw [Conf.bufId, hk, Nat.mul_div_cancel_left _ hpos] at hb
  rw [hx, hoff, hk, Nat.mul_left_cancel_iff hpos, hb, Conf.bufId]
  exact ⟨fun heq => ⟨by rw [heq], heq⟩, And.right⟩

theorem covers_updateAt (h : Placed conf b (slots b)) : (conf.updateAt slots lsn b).Covers x ↔
      (slots b).Covers x ∧ ¬(lsn < x ∧ x / conf.blckSz = lsn / conf.blckSz) := by
  rw [Conf.updateAt, update_apply]
  split
  · next hb =>
    subst hb
    unfold Slot.update
    split
    · next hcut =>
      constructor
      · exact fun ⟨h0, hle, hx⟩ => ⟨⟨h0, hle, hx.trans hcut.2.le⟩, fun hc => not_lt.mpr hx hc.1⟩
      · rintro ⟨hc, hn⟩
        exact ⟨hc.1, hc.2.1, not_lt.mp fun hlt => hn ⟨hlt, (h.page_iff hc).mpr ⟨rfl, hcut.1⟩⟩⟩
    · next hcut =>
      refine ⟨fun hc => ⟨hc, fun hn => hcut ⟨((h.page_iff hc).mp hn.2).2, ?_⟩⟩, And.left⟩
      exact hn.1.trans_le hc.2.2
  · next hb => exact ⟨fun hc => ⟨hc, fun hn => hb ((h.page_iff hc).mp hn.2).1⟩, And.left⟩

theorem covers_removeAt (h : Placed conf b (slots b)) : (conf.removeAt slots lsn b).Covers x ↔
      (slots b).Covers x ∧ x / conf.blckSz ≠ lsn / conf.blckSz := by
  rw [Conf.removeAt, update_apply]
  split
  · next hb =>
    subst hb
    unfold Slot.remove
    split
    · next heq =>
      exact ⟨fun hc => absurd rfl hc.1, fun hc => absurd ((h.page_iff hc.1).mpr ⟨rfl, heq⟩) hc.2⟩
    · next hne => exact ⟨fun hc => ⟨hc, fun hp => hne ((h.page_iff hc).mp hp).2⟩, And.left⟩
  · next hb => exact ⟨fun hc => ⟨hc, fun hp => hb ((h.page_iff hc).mp hp).1⟩, And.left⟩

theorem covers_removePages (hpos : 0 < conf.blckSz) {recPtr len : Nat} (n : Nat) :
    ∀ {offset slots}, (∀ b, Placed conf b (slots b)) →
      (recPtr + len) / conf.blckSz < (recPtr + offset) / conf.blckSz + n →
      ((conf.removePages recPtr len n offset slots b).Covers x ↔ (slots b).Covers x ∧
        ¬((recPtr + offset) / conf.blckSz ≤ x / conf.blckSz ∧
          x / conf.blckSz ≤ (recPtr + len) / conf.blckSz)) := by
  induction n with
  | zero =>
    intro offset slots _ hn
    exact ⟨fun hc => ⟨hc, by omega⟩, And.left⟩
  | succ n ih =>
    intro offset slots h hn
    have hnext := Nat.add_div_right (recPtr + offset) hpos
    rw [Nat.add_assoc] at hnext
    rw [Conf.removePages]
    split
    · rw [ih (placed_removeAt h _) (by omega), covers_removeAt (h b), and_assoc]
      exact and_congr_right fun _ => by omega
    · exact ⟨fun hc => ⟨hc, by omega⟩, And.left⟩

def Conf.Bad (conf : Conf) (recPtr extent x : Nat) : Prop :=
  recPtr ≤ x ∧ x / conf.blckSz ≤ (recPtr + extent) / conf.blckSz

/-- The pages that the branch leaves out: that of a record that begins with it,
and those beyond the extent as a 32-bit number. -/
def Conf.LeftOut (conf : Conf) (recPtr extent x : Nat) : Prop :=
  recPtr % conf.blckSz = 0 ∧ x / conf.blckSz = recPtr / conf.blckSz ∨
    (recPtr + extent % 0x100000000) / conf.blckSz < x / conf.blckSz ∧
      x / conf.blckSz ≤ (recPtr + extent) / conf.blckSz

section

variable {recPtr : Nat} (extent : Nat)

theorem bad_of_leftOut (h : conf.LeftOut recPtr extent x) : conf.Bad recPtr extent x := by
  have hmono : ∀ n, recPtr / conf.blckSz ≤ (recPtr + n) / conf.blckSz :=
    fun n => Nat.div_le_div_right (Nat.le_add_right ..)
  rcases h with ⟨hrec, heq⟩ | ⟨hlt, hle⟩
  · refine ⟨?_, heq ▸ hmono extent⟩
    rw [← Nat.div_mul_cancel (Nat.dvd_of_mod_eq_zero hrec), ← heq]
    exact Nat.div_mul_le_self ..
  · exact ⟨not_lt.mp fun hlt' => absurd (Nat.div_le_div_right hlt'.le)
      (not_le.mpr ((hmono _).trans_lt hlt)), hle⟩

/-- What goes is the bytes of the record, except for those left out. -/
theorem covers_dropRecord (hpos : 0 < conf.blckSz) (hrec : 0 < recPtr)
    (h : ∀ b, Placed conf b (slots b)) :
    (conf.dropRecord slots recPtr extent b).Covers x ↔
      (slots b).Covers x ∧ (conf.Bad recPtr extent x → conf.LeftOut recPtr extent x) := by
  have hle : recPtr ≤ x → recPtr / conf.blckSz ≤ x / conf.blckSz := (Nat.div_le_div_right ·)
  have hge : x ≤ recPtr → x / conf.blckSz ≤ recPtr / conf.blckSz := (Nat.div_le_div_right ·)
  have hnext := Nat.add_div_right recPtr hpos
  unfold Conf.Bad Conf.LeftOut Conf.dropRecord
  generalize hlen : extent % 0x100000000 = len
  have hlen : len ≤ extent := hlen ▸ Nat.mod_le ..
  have hown : recPtr / conf.blckSz ≤ (recPtr + len) / conf.blckSz :=
    Nat.div_le_div_right (Nat.le_add_right ..)
  have hlast : (recPtr + len) / conf.blckSz ≤ (recPtr + extent) / conf.blckSz :=
    Nat.div_le_div_right (Nat.add_le_add_left hlen _)
  obtain ⟨k, rfl⟩ := Nat.exists_eq_succ_of_ne_zero hrec.ne'
  have hk : (k + 1) / conf.blckSz =
      if (k + 1) % conf.blckSz = 0 then k / conf.blckSz + 1 else k / conf.blckSz := by
    split
    · next hzero => exact Nat.succ_div_of_mod_eq_zero hzero
    · next hne => exact Nat.succ_div_of_mod_ne_zero hne
  simp only [Nat.succ_eq_add_one, Nat.succ_pos, if_true, Nat.add_sub_cancel] at *
  split
  · have hrounds : (k + 1 + len) / conf.blckSz < (k + 1) / conf.blckSz + 1 + len := by
      have hrec := Nat.lt_mul_div_succ (k + 1) hpos
      have hextent := Nat.le_mul_of_pos_left len hpos
      exact Nat.div_lt_of_lt_mul (by rw [Nat.mul_add]; omega)
    rw [covers_removePages hpos _ (placed_updateAt h _) (by omega), covers_updateAt (h b),
      and_assoc]
    refine and_congr_right fun _ => ?_
    split at hk <;> omega
  · rw [covers_updateAt (h b)]
    refine and_congr_right fun _ => ?_
    split at hk <;> omega

end

/-- In every state of the buffer: the branch leaves no byte of the record's
extent at or after the record in any slot, and every other byte as valid as it
was, if and only if no slot has a byte of a page that it leaves out. -/
theorem dropRecord_covers_iff (conf : Conf) {s : State} (hpos : 0 < conf.blckSz)
    (junk : Nat → Nat → UInt8) (as : List Action)
    (hrun : exec (step conf) (State.init junk) as = some s) {recPtr : Nat} (hrec : 0 < recPtr)
    (totalLen gotlen readAheadNum : Nat) (amStartup : Bool) :
    let extent := conf.extent totalLen gotlen readAheadNum amStartup
    (∀ b x, (conf.dropRecord s.slots recPtr extent b).Covers x ↔
        (s.slots b).Covers x ∧ ¬conf.Bad recPtr extent x) ↔
      ∀ b x, (s.slots b).Covers x → ¬conf.LeftOut recPtr extent x := by
  have hinit : PlaceInv conf (State.init junk) := ⟨fun _ h0 => absurd rfl h0, fun _ => trivial⟩
  have h := exec_invariant (fun _ => PlaceInv conf) hinit (fun _ _ _ _ h => h.step) hrun
  intro extent
  refine forall₂_congr fun b x => ?_
  rw [covers_dropRecord extent hpos hrec h.slots]
  have hbad : conf.LeftOut recPtr extent x → conf.Bad recPtr extent x := bad_of_leftOut extent
  tauto

/-- The page at 8 is cut behind byte 9. -/
theorem dropRecord_covers_ten : ∃ s, exec (step tiny) (State.init fun _ _ => 0) (fillRun.take 3) =
      some s ∧ (s.slots 0).Covers 11 ∧ ∀ b x, (tiny.dropRecord s.slots 10 5 b).Covers x ↔
        (s.slots b).Covers x ∧ ¬(10 ≤ x ∧ x / 4 ≤ 3) :=
  exec_eval (E := fun s => (s.slots 0).Covers 11) (by decide) fun _ hs hc =>
    ⟨hc, (dropRecord_covers_iff tiny (by decide) _ _ hs (by decide) 9 1 0 false).mpr
      fun _ _ _ hout => hout.elim (fun hrec => absurd hrec.1 (by decide))
        fun hwrap => not_lt.mpr hwrap.2 hwrap.1⟩

/-- The page at 8 stays: as the page of a record that begins with it, and
behind a record at 5 whose extent is 0 as a 32-bit number. -/
theorem dropRecord_keeps_page : ∃ s, exec (step tiny) (State.init fun _ _ => 0) (fillRun.take 3) =
      some s ∧ (tiny.dropRecord s.slots 8 (tiny.extent 9 1 0 false) 0).Covers 8 ∧
        (tiny.dropRecord s.slots 5 (tiny.extent 0xffffffff 0xfffffffc 0 false) 0).Covers 8 :=
  exec_eval (by decide) fun _ _ hc => hc

end PolarDB.XlogBuffer
