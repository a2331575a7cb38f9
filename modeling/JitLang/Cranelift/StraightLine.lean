import JitLang.Cranelift.Builder
import JitLang.Cranelift.Machine

/-! # Runs within a block

`Within` is the part of a run between two instructions of one block: it leaves the end of the block
open (`Within.runBlock_eq`), and whatever is reached before it is reached after it (`Within.reaches`).
The code of one source instruction is straight-line code with consecutively numbered results; `runCode`
runs it, changing the values of its own numbers only (`runCode_frame`).
-/

namespace JitLang.Cranelift
open Foundations Numbers
set_option autoImplicit false

variable [DoubleArith]

/-! ## Straight-line code -/

/-- Runs `code`, whose first instruction defines value `n`. -/
def runCode : ℕ → List Inst → Env → Except Fault Env
  | _, [], env => .ok env
  | n, inst :: code, env => do runCode (n + 1) code (env.set ⟨n⟩ (← evalInst env inst))

theorem runCode_frame {n : ℕ} {code : List Inst} {env env' : Env}
    (h : runCode n code env = .ok env') {y : Value}
    (hy : y.index < n ∨ n + code.length ≤ y.index) : env' y = env y := by
  induction code generalizing n env with
  | nil =>
    cases h
    rfl
  | cons inst code ih =>
    obtain ⟨x, -, h⟩ := bind_eq_ok.mp h
    rw [List.length_cons] at hy
    have hne : y ≠ ⟨n⟩ := by
      rintro rfl
      simp only at hy
      omega
    rw [ih h (by omega), Env.set_ne _ _ hne]

theorem runCode_append {n : ℕ} {code code' : List Inst} {env env' : Env}
    (h : runCode n code env = .ok env') :
    runCode n (code ++ code') env = runCode (n + code.length) code' env' := by
  induction code generalizing n env with
  | nil =>
    cases h
    rfl
  | cons inst code ih =>
    obtain ⟨x, hx, h⟩ := bind_eq_ok.mp h
    rw [List.cons_append, runCode, hx, ok_bind, ih h, List.length_cons, Nat.add_right_comm,
      Nat.add_assoc]

/-- Code whose results are in place already changes nothing. -/
theorem runCode_of_equations {n : ℕ} {code : List Inst} {env : Env}
    (h : ∀ i inst, code[i]? = some inst →
      ∃ x, evalInst env inst = .ok x ∧ env ⟨n + i⟩ = some x) : runCode n code env = .ok env := by
  induction code generalizing n with
  | nil => rfl
  | cons inst code ih =>
    obtain ⟨x, hx, hin⟩ := h 0 inst rfl
    have hset : env.set ⟨n⟩ x = env := Function.update_eq_self_iff.mpr hin.symm
    rw [runCode, hx, ok_bind, hset]
    refine ih fun i inst' hi => ?_
    rw [Nat.add_assoc, Nat.add_comm 1 i]
    exact h (i + 1) inst' hi

/-- `code`, numbered from `n` on, leaves `x` as its last result. -/
def Computes (env : Env) (n : ℕ) (code : List Inst) (x : Val) : Prop :=
  ∃ env', runCode n code env = .ok env' ∧ env' ⟨n + code.length - 1⟩ = some x

theorem Computes.single {env : Env} {inst : Inst} {x : Val} (h : evalInst env inst = .ok x) (n : ℕ) :
    Computes env n [inst] x :=
  ⟨env.set ⟨n⟩ x, by simp [runCode, h], Env.set_self _ _ _⟩

theorem Computes.cons {env : Env} {inst : Inst} {code : List Inst} {x z : Val} {n : ℕ}
    (h : evalInst env inst = .ok x) (hne : code ≠ [])
    (hcode : Computes (env.set ⟨n⟩ x) (n + 1) code z) : Computes env n (inst :: code) z := by
  obtain ⟨env', hrun, hlast⟩ := hcode
  have hpos := List.length_pos_of_ne_nil hne
  refine ⟨env', by simp [runCode, h, hrun], ?_⟩
  rw [List.length_cons, show n + (code.length + 1) - 1 = n + 1 + code.length - 1 by omega, hlast]

theorem Computes.append {env env' : Env} {code code' : List Inst} {x : Val} {n : ℕ}
    (h : runCode n code env = .ok env') (hne : code' ≠ [])
    (hcode : Computes env' (n + code.length) code' x) : Computes env n (code ++ code') x := by
  obtain ⟨env'', hrun, hlast⟩ := hcode
  have hpos := List.length_pos_of_ne_nil hne
  refine ⟨env'', by rw [runCode_append h, hrun], ?_⟩
  rw [List.length_append, show n + (code.length + code'.length) - 1 =
    n + code.length + code'.length - 1 by omega, hlast]

/-! ## Runs within a block -/

variable {func : Function}

/-- Some instructions of the current block, none of which leaves it. -/
inductive Within (func : Function) : State → State → Prop
  | refl (s : State) : Within func s s
  | next {s s' : State} {node : InstData} {env : Env} :
      (func.blockInsts s.block)[s.pc]? = some node →
      execNode func s.env node = .ok (.next env) →
      Within func ⟨s.block, s.pc + 1, env⟩ s' → Within func s s'

namespace Within
variable {s s' s'' : State}

theorem trans (h : Within func s s') (h' : Within func s' s'') : Within func s s'' := by
  induction h with
  | refl s => exact h'
  | next hnode hexec _ ih => exact .next hnode hexec (ih h')

theorem reaches {args : List Val} (h : Within func s s') (hs : Reaches func args s) :
    Reaches func args s' := by
  induction h with
  | refl s => exact hs
  | next hnode hexec _ ih => exact ih (.step hs (by simp only [step, hnode, hexec]))

theorem runBlock_eq (h : Within func s s') :
    runBlock func ((func.blockInsts s.block).drop s.pc) s.env =
      runBlock func ((func.blockInsts s'.block).drop s'.pc) s'.env := by
  induction h with
  | refl s => rfl
  | @next s s' node env hnode hexec _ ih =>
    obtain ⟨hlt, rfl⟩ := List.getElem?_eq_some_iff.mp hnode
    rw [← ih, List.drop_eq_getElem_cons hlt, runBlock, hexec, ok_bind]

theorem code {n : ℕ} {code : List Inst} {rest : List InstData} {env : Env}
    (hnext : (func.blockInsts s.block).drop s.pc = number n code ++ rest)
    (hrun : runCode n code s.env = .ok env) :
    Within func s ⟨s.block, s.pc + code.length, env⟩ := by
  induction code generalizing n s with
  | nil =>
    cases hrun
    exact .refl s
  | cons inst code ih =>
    obtain ⟨x, hx, hrun⟩ := bind_eq_ok.mp hrun
    have hnode : (func.blockInsts s.block)[s.pc]? = some ⟨some ⟨n⟩, inst⟩ :=
      getElem?_of_drop hnext
    have hdrop : (func.blockInsts s.block).drop (s.pc + 1) = number (n + 1) code ++ rest :=
      drop_succ_of_drop hnext
    have hexec : execNode func s.env ⟨some ⟨n⟩, inst⟩ = .ok (.next (s.env.set ⟨n⟩ x)) := by
      cases inst with
      | jump | brif | return_ => cases hx
      | _ => simp only [execNode, hx, ok_bind, pure_eq_ok]
    have hcode := ih (s := ⟨s.block, s.pc + 1, s.env.set ⟨n⟩ x⟩) hdrop hrun
    rw [show s.pc + (inst :: code).length = s.pc + 1 + code.length by
      rw [List.length_cons]; omega]
    exact .next hnode hexec hcode

/-! ### The run within a block is one line of states -/

theorem pc_le (h : Within func s s') : s.pc ≤ s'.pc := by
  induction h with
  | refl s => exact le_rfl
  | next _ _ _ ih => exact (Nat.le_succ _).trans ih

theorem eq_of_pc (h : Within func s s') (hpc : s'.pc = s.pc) : s' = s := by
  cases h with
  | refl => rfl
  | next _ _ h =>
    have hle : s.pc + 1 ≤ s'.pc := h.pc_le
    omega

theorem linear (h : Within func s s') (h' : Within func s s'') :
    Within func s' s'' ∨ Within func s'' s' := by
  induction h with
  | refl s => exact .inl h'
  | @next s s' node env hnode hexec hrest ih =>
    cases h' with
    | refl => exact .inr (.next hnode hexec hrest)
    | @next _ _ node' env' hnode' hexec' h' =>
      rw [hnode] at hnode'
      cases hnode'
      rw [hexec] at hexec'
      cases hexec'
      exact ih h'

theorem eq_at (h : Within func s s') (h' : Within func s s'') (hpc : s'.pc = s''.pc) :
    s' = s'' := by
  rcases h.linear h' with hlater | hlater
  · exact (hlater.eq_of_pc hpc.symm).symm
  · exact hlater.eq_of_pc hpc

/-- Between the start and the end of such a run every state has a next one. -/
theorem step_of_lt (h : Within func s s') (h' : Within func s s'') (hlt : s'.pc < s''.pc) :
    ∃ s₁, step func s' = .run s₁ := by
  rcases h.linear h' with hlater | hlater
  · cases hlater with
    | refl => exact absurd hlt (lt_irrefl _)
    | @next _ _ node env hnode hexec _ =>
      exact ⟨⟨s'.block, s'.pc + 1, env⟩, by simp only [step, hnode, hexec]⟩
  · exact absurd hlater.pc_le (Nat.not_le.mpr hlt)

end Within
end JitLang.Cranelift
