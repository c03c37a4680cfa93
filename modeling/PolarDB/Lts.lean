import Mathlib.Data.List.Induction

/-!
# Runs of a labelled transition system

A system is a partial function `step : S → A → Option S`. The action
carries everything the system does not decide itself (which process
moves, what a lock attempt or a callback returns), so `none` means that
the action cannot happen in the state.

`exec` runs a list of actions. A property of (actions so far, state) that
holds at the start and is kept by every step holds after every run
(`exec_invariant`), and after every run whose steps all meet a condition
if the steps that meet it keep it (`exec_invariant_of_meets`). If such
steps can always be taken as well, the run comes to its end
(`exec_total_of_meets`).
-/

namespace PolarDB

open Option

variable {S A : Type} {step : S → A → Option S}

/-- The state after a list of actions, if all of them can happen. -/
def exec (step : S → A → Option S) : S → List A → Option S
  | s, [] => some s
  | s, a :: as => (step s a).bind fun s' => exec step s' as

theorem exec_append (s : S) (as bs : List A) :
    exec step s (as ++ bs) = (exec step s as).bind fun s' => exec step s' bs := by
  induction as generalizing s with
  | nil => rfl
  | cons a as ih =>
    simp only [List.cons_append, exec]
    cases step s a with
    | none => rfl
    | some s' => exact ih s'

variable {s s0 : S} {as : List A} {P : S → A → Prop}

theorem exec_snoc {s' : S} {a : A} :
    exec step s (as ++ [a]) = some s' ↔ ∃ m, exec step s as = some m ∧ step m a = some s' := by
  rw [exec_append]
  simp [exec, bind_eq_some_iff]

/-- A run that is evaluated: it comes to its end, and what follows from `E`
holds there. -/
theorem exec_eval {E F : S → Prop} [DecidablePred E]
    (h : (exec step s as).any (decide <| E ·) = true)
    (hF : ∀ s', exec step s as = some s' → E s' → F s') :
    ∃ s', exec step s as = some s' ∧ F s' := by
  obtain ⟨s', hs, hE⟩ := (any_eq_true ..).mp h
  exact ⟨s', hs, hF s' hs (of_decide_eq_true hE)⟩

/-- What every step keeps holds after every run. -/
theorem exec_invariant (Inv : List A → S → Prop) (h0 : Inv [] s0)
    (hstep : ∀ as s a s', Inv as s → step s a = some s' → Inv (as ++ [a]) s') :
    ∀ {s}, exec step s0 as = some s → Inv as s := by
  induction as using List.reverseRecOn with
  | nil =>
    intro s hs
    exact some.inj hs ▸ h0
  | append_singleton as a ih =>
    intro s hs
    obtain ⟨m, hm, hstep'⟩ := exec_snoc.mp hs
    exact hstep as m a s (ih hm) hstep'

/-- Every action of the run is taken in a state where it meets `P`. -/
def Meets (step : S → A → Option S) (P : S → A → Prop) : S → List A → Prop
  | _, [] => True
  | s, a :: as => P s a ∧ ∀ s', step s a = some s' → Meets step P s' as

instance Meets.decidable {P : S → A → Prop} [∀ s a, Decidable (P s a)] :
    ∀ s as, Decidable (Meets step P s as)
  | _, [] => .isTrue trivial
  | s, a :: as =>
    have : Decidable (∀ s', step s a = some s' → Meets step P s' as) :=
      match step s a with
      | none => .isTrue nofun
      | some s1 =>
        match Meets.decidable s1 as with
        | .isTrue hm => .isTrue fun _ hs => some.inj hs ▸ hm
        | .isFalse hm => .isFalse fun hall => hm (hall s1 rfl)
    inferInstanceAs (Decidable (_ ∧ _))

theorem meets_append {bs : List A} : Meets step P s (as ++ bs) ↔
    Meets step P s as ∧ ∀ s', exec step s as = some s' → Meets step P s' bs := by
  induction as generalizing s with
  | nil => simp [Meets, exec]
  | cons a as ih =>
    simp only [List.cons_append, Meets, exec, ih]
    cases step s a with
    | none => simp
    | some s1 => simp [and_assoc]

theorem meets_snoc {s' : S} {a : A} (hs : exec step s as = some s') :
    Meets step P s (as ++ [a]) ↔ Meets step P s as ∧ P s' a := by
  simp [meets_append, hs, Meets]

theorem meets_of_forall (h : ∀ a ∈ as, ∀ s, P s a) : Meets step P s as := by
  induction as generalizing s with
  | nil => trivial
  | cons a as ih =>
    exact ⟨h a List.mem_cons_self s, fun s' _ => ih fun b hb => h b (List.mem_cons_of_mem a hb)⟩

/-- What every step that meets `P` keeps holds after every run whose steps
all meet it. -/
theorem exec_invariant_of_meets (Inv : List A → S → Prop)
    (hstep : ∀ as s a s', Inv as s → P s a → step s a = some s' → Inv (as ++ [a]) s')
    (h0 : Inv [] s0) (hm : Meets step P s0 as) (hs : exec step s0 as = some s) : Inv as s := by
  induction as using List.reverseRecOn generalizing s with
  | nil => exact some.inj hs ▸ h0
  | append_singleton as a ih =>
    obtain ⟨m, hm', hs⟩ := exec_snoc.mp hs
    obtain ⟨hm, hP⟩ := (meets_snoc hm').mp hm
    exact hstep as m a s (ih hm hm') hP hs

/-- A run whose steps all meet `P` comes to its end and keeps the
invariant, if every such step can be taken and keeps it. `H` is a
condition on the actions alone. -/
theorem exec_total_of_meets (Inv : List A → S → Prop)
    (H : List A → Prop) (hH : ∀ as a, H (as ++ [a]) → H as)
    (hstep : ∀ as s a, Inv as s → P s a → H (as ++ [a]) →
      ∃ s', step s a = some s' ∧ Inv (as ++ [a]) s')
    (h0 : Inv [] s0) (hm : Meets step P s0 as) (has : H as) :
    ∃ s, exec step s0 as = some s ∧ Inv as s := by
  induction as using List.reverseRecOn with
  | nil => exact ⟨s0, rfl, h0⟩
  | append_singleton as a ih =>
    obtain ⟨s, hs, hinv⟩ := ih (meets_append.mp hm).1 (hH as a has)
    obtain ⟨s', hs', hinv'⟩ := hstep as s a hinv ((meets_snoc hs).mp hm).2 has
    exact ⟨s', exec_snoc.mpr ⟨s, hs, hs'⟩, hinv'⟩

end PolarDB
