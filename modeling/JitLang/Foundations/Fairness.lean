import JitLang.Foundations.Systems

/-! # Infinite runs and weak fairness

An execution takes a step at each moment. It is weakly fair to a kind of step if such a step is taken
again and again unless there is none to take (`WeaklyFair`). What a kind of step brings nearer each time,
while no other step takes it further away, comes about (`Execution.leads_to`).
-/

namespace JitLang.Foundations.System
set_option autoImplicit false

universe u v
variable {σ : Type u} {ℓ : Type v}

/-- A kind of step. -/
abbrev Action (σ : Type u) (ℓ : Type v) := σ → Option ℓ → σ → Prop

structure Execution (S : System σ ℓ) where
  states : ℕ → σ
  labels : ℕ → Option ℓ
  step : ∀ k, S.step (states k) (labels k) (states (k + 1))

variable {S : System σ ℓ}

def Enabled (S : System σ ℓ) (A : Action σ ℓ) (s : σ) : Prop := ∃ label s', S.step s label s' ∧ A s label s'

namespace Execution
variable (e : S.Execution)

def Takes (A : Action σ ℓ) (k : ℕ) : Prop := A (e.states k) (e.labels k) (e.states (k + 1))

def WeaklyFair (A : Action σ ℓ) : Prop :=
  ∀ k, (∀ m ≥ k, S.Enabled A (e.states m)) → ∃ m ≥ k, e.Takes A m

/-- While `P` holds an `A` step can be taken, and lowers the rank; no other step raises it or ends `P`,
unless it is the `Q` step that is waited for. -/
theorem leads_to {A Q : Action σ ℓ} {P : σ → Prop} (rank : σ → ℕ) (hfair : e.WeaklyFair A)
    (henabled : ∀ k, P (e.states k) → S.Enabled A (e.states k))
    (hstep : ∀ k, P (e.states k) →
      e.Takes Q k ∨ P (e.states (k + 1)) ∧ rank (e.states (k + 1)) ≤ rank (e.states k))
    (haction : ∀ k, P (e.states k) → e.Takes A k →
      e.Takes Q k ∨ rank (e.states (k + 1)) < rank (e.states k))
    {k : ℕ} (hk : P (e.states k)) : ∃ m ≥ k, e.Takes Q m := by
  induction hrank : rank (e.states k) using Nat.strong_induction_on generalizing k with
  | _ n ih =>
    subst hrank
    by_cases hcomes : ∃ m ≥ k, e.Takes Q m
    · exact hcomes
    have hstays : ∀ m ≥ k, P (e.states m) ∧ rank (e.states m) ≤ rank (e.states k) := by
      intro m hm
      induction m, hm using Nat.le_induction with
      | base => exact ⟨hk, le_rfl⟩
      | succ m hm ihm =>
        rcases hstep m ihm.1 with hQ | ⟨hP, hle⟩
        · exact absurd ⟨m, hm, hQ⟩ hcomes
        · exact ⟨hP, hle.trans ihm.2⟩
    obtain ⟨m, hm, hA⟩ := hfair k fun m hm => henabled m (hstays m hm).1
    obtain ⟨hP, hle⟩ := hstays m hm
    rcases haction m hP hA with hQ | hlt
    · exact absurd ⟨m, hm, hQ⟩ hcomes
    · obtain ⟨j, hj, hQ⟩ := ih _ (hlt.trans_le hle) (hstays (m + 1) (by omega)).1 rfl
      exact ⟨j, by omega, hQ⟩

/-! ## Executions from runs -/

def cons {s : σ} {label : Option ℓ} (hstep : S.step s label (e.states 0)) : S.Execution where
  states
    | 0 => s
    | k + 1 => e.states k
  labels
    | 0 => label
    | k + 1 => e.labels k
  step
    | 0 => hstep
    | k + 1 => e.step k

def stutter {s : σ} (hstep : S.step s none s) : S.Execution := ⟨fun _ => s, fun _ => none, fun _ => hstep⟩

end Execution

/-- An execution goes on where a run ends, and shows nothing but what the two show. -/
theorem Run.execution {s s' : σ} {labels : List ℓ} (h : S.Run s labels s') (e : S.Execution)
    (he : e.states 0 = s') :
    ∃ e' : S.Execution, e'.states 0 = s ∧ (∃ n, ∀ k, e'.states (n + k) = e.states k) ∧
      ∀ k l, e'.labels k = some l → l ∈ labels ∨ ∃ j, e.labels j = some l := by
  induction h generalizing e with
  | refl => exact ⟨e, he, ⟨0, fun k => by rw [Nat.zero_add]⟩, fun k l hl => .inr ⟨k, hl⟩⟩
  | silent _ hstep ih =>
    subst he
    obtain ⟨e', hstart, ⟨n, hrest⟩, hlabels⟩ := ih (e.cons hstep) rfl
    refine ⟨e', hstart, ⟨n + 1, fun k => by rw [Nat.add_assoc, Nat.add_comm 1, hrest]; rfl⟩,
      fun k l hl => (hlabels k l hl).imp_right ?_⟩
    rintro ⟨_ | j, hj⟩
    · cases hj
    · exact ⟨j, hj⟩
  | visible _ hstep ih =>
    subst he
    obtain ⟨e', hstart, ⟨n, hrest⟩, hlabels⟩ := ih (e.cons hstep) rfl
    refine ⟨e', hstart, ⟨n + 1, fun k => by rw [Nat.add_assoc, Nat.add_comm 1, hrest]; rfl⟩,
      fun k l hl => ?_⟩
    rcases hlabels k l hl with hmem | ⟨_ | j, hj⟩
    · exact .inl (List.mem_append_left _ hmem)
    · cases hj
      exact .inl (List.mem_append_right _ (List.mem_singleton_self _))
    · exact .inr ⟨j, hj⟩

end JitLang.Foundations.System
