import Mathlib.Data.Nat.Notation

set_option autoImplicit false

/-! # Runs of a machine

A machine takes an event in a state, or cannot. A run is a sequence of events it takes. -/

namespace Transitions

variable {σ ε : Type}

/-- A sequence of events that the machine takes, each meeting `P`. -/
inductive Run (step : σ → ε → Option σ) (P : σ → ε → Prop) : σ → σ → Prop
  | refl (s : σ) : Run step P s s
  | event {s t u : σ} (e : ε) : Run step P s t → P t e → step t e = some u → Run step P s u

/-- What every event keeps, a run keeps. -/
theorem Run.invariant {step : σ → ε → Option σ} {P : σ → ε → Prop} {I : σ → Prop}
    (hstep : ∀ s e t, P s e → step s e = some t → I s → I t) {s t : σ} (h : Run step P s t)
    (hs : I s) : I t := by
  induction h with
  | refl => exact hs
  | event e _ hmeets htaken ih => exact hstep _ e _ hmeets htaken ih

/-- `n` events that the machine takes one after the other, each meeting `P`. -/
inductive Turns (step : σ → ε → Option σ) (P : σ → ε → Prop) : ℕ → σ → σ → Prop
  | refl (s : σ) : Turns step P 0 s s
  | event {n : ℕ} {s t u : σ} (e : ε) :
      Turns step P n s t → P t e → step t e = some u → Turns step P (n + 1) s u

/-- Where every event raises a number by one at least, a run raises it by its length. -/
theorem Turns.climb {step : σ → ε → Option σ} {P : σ → ε → Prop} {I : σ → Prop} {pos : σ → ℕ}
    (hstep : ∀ s e t, I s → P s e → step s e = some t → I t ∧ pos s < pos t) {n : ℕ} {s t : σ}
    (h : Turns step P n s t) (hs : I s) : I t ∧ pos s + n ≤ pos t := by
  induction h with
  | refl => exact ⟨hs, Nat.le_refl _⟩
  | event e _ hmeets htaken ih =>
      obtain ⟨ht, hle⟩ := ih hs
      obtain ⟨hu, hlt⟩ := hstep _ e _ ht hmeets htaken
      exact ⟨hu, Nat.le_trans (Nat.succ_le_succ hle) hlt⟩

end Transitions
