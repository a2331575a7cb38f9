import JitLang.Foundations.Except

/-! # Loops, and how to reason about them

A loop runs its body round after round until a round stops it with a result, or fails. `Returns` counts
the rounds. To show that a loop returns a result with some property, annotate it: an invariant that bounds
the number of rounds to come and that each round keeps, with a smaller bound (`Annotation.returns`).
-/

namespace JitLang.Foundations
set_option autoImplicit false

universe u v w

/-- A round of a loop stops it, or goes on from the next state. -/
inductive Round (σ : Type u) (ρ : Type v)
  | stop (result : ρ)
  | next (state : σ)

namespace Loop
variable {σ : Type u} {ρ : Type v} {ε : Type w} {body : σ → Except ε (Round σ ρ)}

/-- From the state on, the loop stops with the result in exactly so many rounds. -/
inductive Returns (body : σ → Except ε (Round σ ρ)) : σ → ℕ → ρ → Prop
  | stop {s : σ} {r : ρ} : body s = .ok (.stop r) → Returns body s 1 r
  | next {s s' : σ} {n : ℕ} {r : ρ} :
      body s = .ok (.next s') → Returns body s' n r → Returns body s (n + 1) r

theorem Returns.unique {s : σ} {n m : ℕ} {r r' : ρ} (h : Returns body s n r)
    (h' : Returns body s m r') : n = m ∧ r = r' := by
  induction h generalizing m with
  | stop hbody =>
    cases h' with
    | stop hbody' =>
      rw [hbody] at hbody'
      cases hbody'
      exact ⟨rfl, rfl⟩
    | next hbody' _ =>
      rw [hbody] at hbody'
      cases hbody'
  | next hbody _ ih =>
    cases h' with
    | stop hbody' =>
      rw [hbody] at hbody'
      cases hbody'
    | next hbody' htail =>
      rw [hbody] at hbody'
      cases hbody'
      obtain ⟨rfl, rfl⟩ := ih htail
      exact ⟨rfl, rfl⟩

/-- `inv k s`: the loop is in state `s` with at most `k` rounds after this one. -/
structure Annotation (body : σ → Except ε (Round σ ρ)) (post : ρ → Prop) where
  inv : ℕ → σ → Prop
  round : ∀ k s, inv k s → ∃ out, body s = .ok out ∧
    (∀ r, out = .stop r → post r) ∧ ∀ s', out = .next s' → ∃ k' < k, inv k' s'

namespace Annotation
variable {post : ρ → Prop}

theorem returns (A : Annotation body post) {k : ℕ} {s : σ} (h : A.inv k s) :
    ∃ n ≤ k + 1, ∃ r, Returns body s n r ∧ post r := by
  induction k using Nat.strongRecOn generalizing s with
  | _ k ih =>
    obtain ⟨out, hbody, hstop, hnext⟩ := A.round k s h
    cases out with
    | stop r => exact ⟨1, by omega, r, .stop hbody, hstop r rfl⟩
    | next s' =>
      obtain ⟨k', hlt, hinv⟩ := hnext s' rfl
      obtain ⟨n, hle, r, hreturns, hpost⟩ := ih k' hlt hinv
      exact ⟨n + 1, by omega, r, .next hbody hreturns, hpost⟩

end Annotation
end Loop
end JitLang.Foundations
