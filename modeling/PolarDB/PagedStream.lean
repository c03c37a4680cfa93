import Mathlib.Order.Monotone.Basic

/-!
# Byte streams in pages with headers

A stream of bytes is stored in blocks of one size, each of which starts with a
header. An address counts all bytes, a position only those of the stream.
`Layout.pos` is the position of an address; the addresses of a header all have
the position of the first byte after it.

An address is in the body of its page if it is not in the header, and it is an
end if it can be the address behind a byte: a page boundary or an address
behind a byte of the body. Positions are monotone, and strictly so from an
address in a body on (`Layout.pos_lt_pos`); ends are told apart by their
positions (`Layout.IsEnd.eq_of_pos_eq`).

A chain is a list of pieces, given by their two addresses, that follow each
other without a gap.
-/

namespace PolarDB

open List

structure Layout where
  block : Nat
  header : Nat → Nat
  header_lt : ∀ g, header g < block

namespace Layout

variable (l : Layout) {p q g n off : Nat}

def start : Nat → Nat
  | 0 => 0
  | g + 1 => start g + (l.block - l.header g)

def pos (p : Nat) : Nat := l.start (p / l.block) + (p % l.block - l.header (p / l.block))

def InBody (p : Nat) : Prop := l.header (p / l.block) ≤ p % l.block

def IsEnd (p : Nat) : Prop := p % l.block = 0 ∨ l.header (p / l.block) < p % l.block

theorem block_pos : 0 < l.block := (Nat.zero_le _).trans_lt (l.header_lt 0)

theorem start_lt_succ (g : Nat) : l.start g < l.start (g + 1) := by
  have := l.header_lt g
  simp only [start]
  omega

theorem start_strictMono : StrictMono l.start := strictMono_nat_of_lt_succ l.start_lt_succ

theorem div_block (h : off < l.block) : (g * l.block + off) / l.block = g := by
  rw [Nat.mul_comm, Nat.mul_add_div l.block_pos, Nat.div_eq_of_lt h, Nat.add_zero]

theorem mod_block (h : off < l.block) : (g * l.block + off) % l.block = off := by
  rw [Nat.mul_comm, Nat.mul_add_mod, Nat.mod_eq_of_lt h]

theorem pos_at (h : off < l.block) :
    l.pos (g * l.block + off) = l.start g + (off - l.header g) := by
  rw [pos, l.div_block h, l.mod_block h]

theorem pos_block (g : Nat) : l.pos (g * l.block) = l.start g := by
  have := l.pos_at (g := g) l.block_pos
  simpa using this

theorem pos_body (g : Nat) : l.pos (g * l.block + l.header g) = l.start g := by
  rw [l.pos_at (l.header_lt g), Nat.sub_self, Nat.add_zero]

theorem inBody_at (h : off < l.block) : l.InBody (g * l.block + off) ↔ l.header g ≤ off := by
  rw [InBody, l.div_block h, l.mod_block h]

theorem isEnd_at (h : off < l.block) :
    l.IsEnd (g * l.block + off) ↔ off = 0 ∨ l.header g < off := by
  rw [IsEnd, l.div_block h, l.mod_block h]

theorem inBody_body (g : Nat) : l.InBody (g * l.block + l.header g) :=
  (l.inBody_at (l.header_lt g)).mpr le_rfl

theorem add_cases (hn : p % l.block + n ≤ l.block) :
    p % l.block + n < l.block ∧ p + n = p / l.block * l.block + (p % l.block + n) ∨
      p % l.block + n = l.block ∧ p + n = (p / l.block + 1) * l.block := by
  have hdm := Nat.div_add_mod' p l.block
  rw [Nat.add_mul]
  omega

theorem pos_add (hp : l.InBody p) (hn : p % l.block + n ≤ l.block) :
    l.pos (p + n) = l.pos p + n := by
  unfold InBody at hp
  rcases l.add_cases hn with ⟨hlt, hpn⟩ | ⟨heq, hpn⟩
  · rw [hpn, l.pos_at hlt, pos]
    omega
  · rw [hpn, l.pos_block, pos, start]
    omega

theorem pos_le_start_succ (p : Nat) : l.pos p ≤ l.start (p / l.block + 1) := by
  have hlt := Nat.mod_lt p l.block_pos
  simp only [pos, start]
  omega

theorem pos_mono : Monotone l.pos := by
  intro p q hpq
  have hdiv : p / l.block ≤ q / l.block := Nat.div_le_div_right hpq
  rcases Nat.lt_or_eq_of_le hdiv with hlt | heq
  · calc l.pos p ≤ l.start (p / l.block + 1) := l.pos_le_start_succ p
      _ ≤ l.start (q / l.block) := l.start_strictMono.monotone hlt
      _ ≤ l.pos q := Nat.le_add_right _ _
  · have hp := Nat.div_add_mod' p l.block
    have hq := Nat.div_add_mod' q l.block
    rw [← heq] at hq
    simp only [pos, ← heq]
    omega

theorem lt_of_pos_lt (h : l.pos p < l.pos q) : p < q := by
  by_contra hge
  exact not_lt.mpr (l.pos_mono (not_lt.mp hge)) h

variable {l}

section

variable (hp : l.InBody p)
include hp

theorem InBody.pos_succ : l.pos (p + 1) = l.pos p + 1 :=
  l.pos_add hp (Nat.mod_lt p l.block_pos)

theorem InBody.pos_lt_pos (hpq : p < q) : l.pos p < l.pos q := by
  have := l.pos_mono (show p + 1 ≤ q from hpq)
  rwa [hp.pos_succ] at this

theorem InBody.le_of_pos_le (h : l.pos q ≤ l.pos p) : q ≤ p := by
  by_contra hlt
  exact not_lt.mpr h (hp.pos_lt_pos (not_le.mp hlt))

theorem InBody.isEnd_add (hn : p % l.block + n ≤ l.block) (hpos : 0 < n) : l.IsEnd (p + n) := by
  rcases l.add_cases hn with ⟨hlt, hpn⟩ | ⟨-, hpn⟩
  · rw [hpn, l.isEnd_at hlt]
    unfold InBody at hp
    omega
  · left
    rw [hpn, Nat.mul_mod_left]

end

theorem IsEnd.pos_lt_pos (hp : l.IsEnd p) (hq : l.IsEnd q) (hpq : p < q) : l.pos p < l.pos q := by
  rcases hp with hzero | hbody
  · have hp : p = p / l.block * l.block := by
      have := Nat.div_add_mod' p l.block
      omega
    have hdiv : p / l.block ≤ q / l.block := Nat.div_le_div_right hpq.le
    rcases Nat.lt_or_eq_of_le hdiv with hlt | heq
    · calc l.pos p = l.start (p / l.block) := by rw [pos, hzero, Nat.zero_sub, Nat.add_zero]
        _ < l.start (q / l.block) := l.start_strictMono hlt
        _ ≤ l.pos q := Nat.le_add_right _ _
    · have hqm : q % l.block ≠ 0 := by
        have := Nat.div_add_mod' q l.block
        rw [← heq] at this
        omega
      have hqh := hq.resolve_left hqm
      simp only [pos, ← heq] at hqh ⊢
      omega
  · exact InBody.pos_lt_pos hbody.le hpq

theorem IsEnd.eq_of_pos_eq (hp : l.IsEnd p) (hq : l.IsEnd q) (h : l.pos p = l.pos q) : p = q := by
  rcases Nat.lt_trichotomy p q with hlt | heq | hgt
  · exact absurd h (hp.pos_lt_pos hq hlt).ne
  · exact heq
  · exact absurd h (hq.pos_lt_pos hp hgt).ne'

/-! ## Chains -/

variable {a b c x : Nat} {ls ls' : List (Nat × Nat)} {k k' : Nat × Nat}

def Chain (l : Layout) : Nat → List (Nat × Nat) → Nat → Prop
  | a, [], b => a = b
  | a, k :: ks, b => l.pos k.1 = a ∧ a < l.pos k.2 ∧ Chain l (l.pos k.2) ks b

theorem Chain.append (h : l.Chain a ls b) (h' : l.Chain b ls' c) : l.Chain a (ls ++ ls') c := by
  induction ls generalizing a with
  | nil =>
    obtain rfl : a = b := h
    exact h'
  | cons k ks ih => exact ⟨h.1, h.2.1, ih h.2.2⟩

theorem chain_singleton (hpos : l.pos k.1 = a) (hlt : a < l.pos k.2) : l.Chain a [k] (l.pos k.2) :=
  ⟨hpos, hlt, rfl⟩

section

variable (h : l.Chain a ls b)
include h

theorem Chain.le : a ≤ b := by
  induction ls generalizing a with
  | nil => exact h.le
  | cons k ks ih => exact h.2.1.le.trans (ih h.2.2)

theorem Chain.mem (hk : k ∈ ls) : a ≤ l.pos k.1 ∧ l.pos k.1 < l.pos k.2 ∧ l.pos k.2 ≤ b := by
  induction ls generalizing a with
  | nil => cases hk
  | cons k' ks ih =>
    obtain ⟨hpos, hlt, hrest⟩ := h
    rcases mem_cons.mp hk with rfl | hk
    · exact ⟨hpos.symm.le, hpos ▸ hlt, hrest.le⟩
    · obtain ⟨hle, hpiece⟩ := ih hrest hk
      exact ⟨hlt.le.trans hle, hpiece⟩

/-- A piece is found by its first position. -/
theorem Chain.eq_of_pos_eq (hk : k ∈ ls) (hk' : k' ∈ ls) (heq : l.pos k.1 = l.pos k'.1) :
    k = k' := by
  induction ls generalizing a with
  | nil => cases hk
  | cons k0 ks ih =>
    obtain ⟨hpos, hlt, hrest⟩ := h
    rcases mem_cons.mp hk with hk0 | hks
    · rcases mem_cons.mp hk' with hk0' | hks'
      · rw [hk0, hk0']
      · have := (hrest.mem hks').1
        rw [← heq, hk0] at this
        omega
    · rcases mem_cons.mp hk' with hk0' | hks'
      · have := (hrest.mem hks).1
        rw [heq, hk0'] at this
        omega
      · exact ih hrest hks hks'

theorem Chain.nodup : ls.Nodup := by
  induction ls generalizing a with
  | nil => exact nodup_nil
  | cons k ks ih =>
    obtain ⟨hpos, hlt, hrest⟩ := h
    refine nodup_cons.mpr ⟨fun hk => ?_, ih hrest⟩
    have := (hrest.mem hk).1
    omega

/-- The pieces cover everything between. -/
theorem Chain.cover (ha : a ≤ x) (hb : x < b) : ∃ k ∈ ls, l.pos k.1 ≤ x ∧ x < l.pos k.2 := by
  induction ls generalizing a with
  | nil =>
    obtain rfl : a = b := h
    omega
  | cons k ks ih =>
    obtain ⟨hpos, -, hrest⟩ := h
    by_cases hx : x < l.pos k.2
    · exact ⟨k, mem_cons_self, by omega, hx⟩
    · obtain ⟨k', hk', hin⟩ := ih hrest (not_lt.mp hx)
      exact ⟨k', mem_cons_of_mem _ hk', hin⟩

end

end Layout

end PolarDB
