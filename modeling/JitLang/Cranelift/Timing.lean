import JitLang.Cranelift.Machine
import JitLang.Cranelift.Ssa
import Mathlib.Algebra.Ring.Nat

/-! # Exact step counts

How many steps the machine takes. In a function whose blocks end in their only terminator, a block that is
entered is executed to its last instruction, so a run takes as many steps as the blocks it enters have
instructions (`evalFrom_timed`).
-/

namespace JitLang.Cranelift
open Foundations Numbers
set_option autoImplicit false

variable [DoubleArith] {func : Function}

/-! ## Timed runs -/

/-- From one state to the other in exactly so many steps. -/
inductive Timed (func : Function) : ℕ → State → State → Prop
  | refl (s : State) : Timed func 0 s s
  | head {n : ℕ} {s s' s'' : State} :
      step func s = .run s' → Timed func n s' s'' → Timed func (n + 1) s s''

namespace Timed
variable {n m : ℕ} {s s' s'' : State}

theorem single (h : step func s = .run s') : Timed func 1 s s' := .head h (.refl s')

theorem trans (h : Timed func n s s') (h' : Timed func m s' s'') : Timed func (n + m) s s'' := by
  induction h with
  | refl s =>
    rw [Nat.zero_add]
    exact h'
  | @head n _ _ _ hstep _ ih =>
    rw [Nat.add_right_comm]
    exact .head hstep (ih h')

end Timed

/-! ## Blocks -/

/-- The block is left after `n` more instructions and its terminator. -/
def LeavesIn (func : Function) (n : ℕ) (s : State) : Exit → Prop
  | .goto block env => block ∈ func.layout ∧ Timed func (n + 1) s ⟨block, 0, env⟩
  | .ret vals => ∃ last, Timed func n s last ∧ step func last = .done vals

theorem LeavesIn.head {n : ℕ} {s s' : State} {exit : Exit} (hstep : step func s = .run s')
    (h : LeavesIn func n s' exit) : LeavesIn func (n + 1) s exit := by
  cases exit with
  | goto block env => exact ⟨h.1, .head hstep h.2⟩
  | ret vals =>
    obtain ⟨last, hrun, hdone⟩ := h
    exact ⟨last, .head hstep hrun, hdone⟩

omit [DoubleArith] in
theorem enter_mem {env : Env} {call : BlockCall} {exit : Exit} (h : enter func env call = .ok exit) :
    ∃ env', exit = .goto call.block env' ∧ call.block ∈ func.layout := by
  obtain ⟨args, -, h⟩ := bind_eq_ok.mp h
  split_ifs at h with hmem
  cases h
  exact ⟨_, rfl, hmem.1⟩

/-- An instruction that leaves its block is a terminator, and leaves it for a block of the function. -/
theorem execNode_exit {env : Env} {node : InstData} {exit : Exit}
    (h : execNode func env node = .ok (.exit exit)) : node.inst.IsTerminator ∧
      ∀ block env', exit = .goto block env' → block ∈ func.layout := by
  unfold execNode at h
  cases hinst : node.inst with
  | jump dest =>
    rw [hinst] at h
    obtain ⟨exit', henter, h⟩ := bind_eq_ok.mp h
    cases h
    obtain ⟨env', rfl, hmem⟩ := enter_mem henter
    exact ⟨trivial, fun block _ hexit => by cases hexit; exact hmem⟩
  | brif c thenDest elseDest =>
    rw [hinst] at h
    obtain ⟨x, -, h⟩ := bind_eq_ok.mp h
    obtain ⟨taken, -, h⟩ := bind_eq_ok.mp h
    obtain ⟨exit', henter, h⟩ := bind_eq_ok.mp h
    cases h
    obtain ⟨env', rfl, hmem⟩ := enter_mem henter
    exact ⟨trivial, fun block _ hexit => by cases hexit; exact hmem⟩
  | return_ args =>
    rw [hinst] at h
    obtain ⟨vals, -, h⟩ := bind_eq_ok.mp h
    cases h
    exact ⟨trivial, fun block _ hexit => by cases hexit⟩
  | _ =>
    rw [hinst] at h
    obtain ⟨x, -, h⟩ := bind_eq_ok.mp h
    cases hresult : node.result <;> rw [hresult] at h <;> cases h

/-- The rest of a block takes as many steps as it has instructions. -/
theorem runBlock_timed (hssa : func.Ssa) {s : State} (hb : s.block ∈ func.layout) {exit : Exit}
    (h : runBlock func ((func.blockInsts s.block).drop s.pc) s.env = .ok exit) :
    LeavesIn func ((func.blockInsts s.block).length - s.pc - 1) s exit := by
  induction hrest : (func.blockInsts s.block).drop s.pc generalizing s with
  | nil =>
    rw [hrest] at h
    cases h
  | cons node rest ih =>
    have hnode : (func.blockInsts s.block)[s.pc]? = some node := getElem?_of_drop hrest
    have hnext : (func.blockInsts s.block).drop (s.pc + 1) = rest := drop_succ_of_drop hrest
    rw [hrest, runBlock] at h
    obtain ⟨effect, hexec, h⟩ := bind_eq_ok.mp h
    cases effect with
    | next env =>
      have hstep : step func s = .run ⟨s.block, s.pc + 1, env⟩ := by
        simp only [step, hnode, hexec]
      have hlt : s.pc + 1 < (func.blockInsts s.block).length := by
        by_contra hge
        rw [List.drop_eq_nil_of_le (by omega)] at hnext
        subst hnext
        cases h
      have htail := ih (s := ⟨s.block, s.pc + 1, env⟩) hb (by rw [hnext]; exact h) hnext
      have hcount : (func.blockInsts s.block).length - s.pc - 1 =
          (func.blockInsts s.block).length - (s.pc + 1) - 1 + 1 := by omega
      rw [hcount]
      exact htail.head hstep
    | exit exit' =>
      obtain rfl : exit' = exit := Except.ok.inj h
      obtain ⟨hterm, hmem⟩ := execNode_exit hexec
      have hlast := hssa.terminator_last hb hnode hterm
      rw [show (func.blockInsts s.block).length - s.pc - 1 = 0 by omega]
      cases exit' with
      | goto block env => exact ⟨hmem block env rfl, .single (by simp only [step, hnode, hexec])⟩
      | ret vals => exact ⟨s, .refl s, by simp only [step, hnode, hexec]⟩

/-! ## Runs -/

/-- A run that returns takes as many steps as the blocks it enters have instructions. -/
theorem evalFrom_timed (hssa : func.Ssa) {fuel : ℕ} {block : Block} {env : Env} {vals : List Val}
    (hb : block ∈ func.layout) (h : evalFrom func fuel block env = .returned vals) :
    ∃ n last, Timed func n ⟨block, 0, env⟩ last ∧ step func last = .done vals ∧
      n + 1 = ((enteredFrom func fuel block env).map fun b => (func.blockInsts b).length).sum := by
  induction fuel generalizing block env with
  | zero => cases h
  | succ fuel ih =>
    rw [evalFrom] at h
    rw [enteredFrom]
    cases hrun : runBlock func (func.blockInsts block) env with
    | error e =>
      rw [hrun] at h
      cases h
    | ok exit =>
      have hleaves := runBlock_timed hssa (s := ⟨block, 0, env⟩) hb hrun
      obtain ⟨nodes, last, hinsts, -⟩ := hssa.terminated block hb
      have hpos : 0 < (func.blockInsts block).length := by rw [hinsts]; simp
      rw [hrun] at h
      cases exit with
      | ret results =>
        cases h
        obtain ⟨last, htimed, hdone⟩ := hleaves
        refine ⟨_, last, htimed, hdone, ?_⟩
        simp only [List.map_cons, List.map_nil, List.sum_cons, List.sum_nil]
        omega
      | goto block' env' =>
        obtain ⟨hmem, htimed⟩ := hleaves
        obtain ⟨n, last, htail, hdone, hn⟩ := ih hmem h
        refine ⟨_, last, htimed.trans htail, hdone, ?_⟩
        rw [List.map_cons, List.sum_cons, ← hn]
        simp only
        omega

end JitLang.Cranelift
