import JitLang.Graph.RecursiveSearch
import JitLang.Translate.TraversalCorrect
import Mathlib.Algebra.BigOperators.Group.Finset.Basic

/-! # The traversal against the recursive search, and its run step by step

`reachable_rpo` answers the reverse of the postorder of the textbook recursive search. Its loop makes
one iteration for each reachable block and one for each entry of their successor lists, on every
graph: an exact run of the stack machine, of which every state of the loop is a point (`OnRun`). At
each point the stack is a path from the entry.
-/

namespace JitLang.Translate
open Ir JitLang.Graph Foundations
set_option autoImplicit false

variable {func : Function}

/-! ## The recursive search -/

def inRange (func : Function) : Finset Block := (Finset.range func.blockCount).image Block.mk

theorem mem_inRange {b : Block} : b ∈ inRange func ↔ func.InRange b := by
  cases b
  simp [inRange, Function.InRange]

theorem not_mem_inRange : {b | b ∉ inRange func} = outside func := by
  ext b
  rw [outside, Set.mem_ofPred_eq, Set.mem_ofPred_eq, mem_inRange]

/-- The recursive search from the entry: it enters in-range blocks only. -/
def recursivePostorder (func : Function) : List Block :=
  postorder (inRange func) (succsOf func) func.entry

/-- The loop on an explicit stack answers the reverse postorder of the recursive search, element for
element, on every graph. -/
theorem reachableRpo_recursive (func : Function) :
    reachableRpo func = .ok (recursivePostorder func).reverse := by
  obtain ⟨vis, out, hsearch, hpost⟩ : ∃ vis out,
      Search (succsOf func) {b | b ∉ inRange func} [func.entry] vis out ∧
        (recursivePostorder func).reverse = out := postorder_search func.entry
  rw [not_mem_inRange] at hsearch
  rw [hpost]
  by_cases hentry : func.InRange func.entry
  · obtain ⟨vis', out', hsearch', hrpo⟩ := reachableRpo_search hentry
    obtain ⟨-, rfl⟩ := hsearch'.deterministic hsearch
    exact hrpo
  · rw [reachableRpo_out_of_range hentry]
    cases hsearch with
    | skip _ h =>
      cases h
      rfl
    | visit hopen _ _ => exact absurd hentry hopen

/-! ## The run of the loop -/

/-- `st` is the state of the loop after `n` iterations. -/
inductive Iterates (func : Function) : ℕ → RpoState → Prop
  | start : Iterates func 0 (rpoStart func)
  | next {n : ℕ} {st st' : RpoState} : Iterates func n st → st.stack ≠ [] →
      rpoStep func st = .ok st' → Iterates func (n + 1) st'

/-- `st` represents the state of the stack machine `k` steps before `final`, its stack a path from the
entry. -/
def OnRun (func : Function) (final : State Block) (k : ℕ) (st : RpoState) : Prop :=
  ∃ a, Refines func st a ∧ Runs (succsOf func) k a final ∧
    StackInv (succsOf func) (outside func) func.entry a

theorem OnRun.start (hentry : func.InRange func.entry) {vis : Set Block} {out : List Block}
    (hsearch : Search (succsOf func) (outside func) [func.entry] vis out) :
    OnRun func ⟨vis, [], out⟩ (cost (succsOf func) out) (rpoStart func) := by
  have hopen : func.entry ∉ outside func := fun h => h hentry
  exact ⟨_, rpoStart_refines hentry, hsearch.runs_root hopen, .start hopen⟩

namespace OnRun
variable {final : State Block} {k : ℕ} {st : RpoState}

theorem stack_eq_nil (h : OnRun func final k st) (hend : final.stack = []) :
    st.stack = [] ↔ k = 0 := by
  obtain ⟨a, href, hruns, -⟩ := h
  have hstack : a.stack = [] ↔ st.stack = [] := by rw [href.stack, List.map_eq_nil_iff]
  rw [← hstack]
  cases hruns with
  | refl => simp [hend]
  | head hstep _ => cases hstep <;> simp

/-- An iteration before the end succeeds and is one step of the run. -/
theorem next (h : OnRun func final (k + 1) st) :
    ∃ st', rpoStep func st = .ok st' ∧ OnRun func final k st' := by
  obtain ⟨a, href, hruns, hinv⟩ := h
  cases hruns with
  | head hstep hrest =>
    obtain ⟨st', hst', href'⟩ := rpoStep_refines href hstep
    exact ⟨st', hst', _, href', hrest, hinv.step hstep⟩

/-! ### The stack -/

theorem blocks_eq {a : State Block} (href : Refines func st a) :
    a.stack.map Prod.fst = st.stack.map Frame.block := by
  rw [href.stack, List.map_map]
  rfl

theorem stack_nodup (h : OnRun func final k st) : (st.stack.map Frame.block).Nodup := by
  obtain ⟨a, href, -, hinv⟩ := h
  exact blocks_eq href ▸ hinv.nodup

theorem stack_walk (h : OnRun func final k st) {top : Frame} {rest : List Frame}
    (hstack : st.stack = top :: rest) :
    IsWalk func.Edge func.entry top.block (st.stack.map Frame.block).reverse := by
  obtain ⟨a, href, -, hinv⟩ := h
  have ha := href.stack
  rw [hstack, List.map_cons] at ha
  have hwalk := hinv.walk _ _ ha
  rw [State.path, blocks_eq href, open_eq_edge] at hwalk
  exact hwalk

theorem stack_length (h : OnRun func final k st) : st.stack.length ≤ func.blockCount := by
  have hnodup := h.stack_nodup
  obtain ⟨a, href, -, hinv⟩ := h
  have hin : ∀ b ∈ st.stack.map Frame.block, func.InRange b := by
    intro b hb
    rw [← blocks_eq href] at hb
    obtain ⟨frame, hframe, rfl⟩ := List.mem_map.mp hb
    simpa [outside] using (hinv.marked frame hframe).2
  have hlen := length_le_blockCount hnodup hin
  rwa [List.length_map] at hlen

end OnRun

theorem Iterates.onRun {final : State Block} {steps : ℕ}
    (hstart : OnRun func final steps (rpoStart func)) (hend : final.stack = []) {n : ℕ}
    {st : RpoState} (h : Iterates func n st) : ∃ k, n + k = steps ∧ OnRun func final k st := by
  induction h with
  | start => exact ⟨steps, Nat.zero_add _, hstart⟩
  | @next n st st' _ hne hstep ih =>
    obtain ⟨k, hk, hrun⟩ := ih
    cases k with
    | zero => exact absurd ((hrun.stack_eq_nil hend).mpr rfl) hne
    | succ k =>
      obtain ⟨st₁, hst₁, hrun₁⟩ := hrun.next
      obtain rfl := Except.ok.inj (hst₁.symm.trans hstep)
      exact ⟨k, by omega, hrun₁⟩

/-- What the loop answers is its state after some iterations, which has emptied the stack. -/
theorem Iterates.of_rpoLoop {fuel n : ℕ} {st last : RpoState} (hst : Iterates func n st)
    (h : rpoLoop func fuel st = .ok last) : ∃ m, Iterates func m last ∧ last.stack = [] := by
  induction fuel generalizing n st with
  | zero =>
    unfold rpoLoop at h
    split_ifs at h with hempty
    cases h
    exact ⟨n, hst, List.isEmpty_iff.mp hempty⟩
  | succ fuel ih =>
    unfold rpoLoop at h
    split_ifs at h with hempty
    · cases h
      exact ⟨n, hst, List.isEmpty_iff.mp hempty⟩
    · obtain ⟨st', hst', h⟩ := bind_eq_ok.mp h
      have hne : st.stack ≠ [] := fun hnil => hempty (List.isEmpty_iff.mpr hnil)
      exact ih (.next hst hne hst') h

theorem cost_eq_card_add_sum {succs : Block → List Block} {out : List Block} (hnodup : out.Nodup) :
    cost succs out = out.toFinset.card + ∑ b ∈ out.toFinset, (succs b).length := by
  rw [cost, ← List.sum_toFinset _ hnodup, Finset.sum_add_distrib, Finset.card_eq_sum_ones, add_comm]

/-- The loop makes one iteration for each reachable block and one for each successor listed in its
terminator, out-of-range and repeated ones too, and ends with the answer. Up to there every iteration
succeeds, and the blocks on the stack are distinct and lead from the entry to the top along edges, so
that there are never more frames than blocks. -/
theorem rpoLoop_linear (hentry : func.InRange func.entry) :
    ∃ (blocks : Finset Block) (steps : ℕ), (∀ b, b ∈ blocks ↔ func.Reachable b) ∧
      steps = blocks.card + ∑ b ∈ blocks, (succsOf func b).length ∧
      (∃ last, Iterates func steps last ∧ last.stack = [] ∧
        reachableRpo func = .ok last.order.reverse ∧
        ∀ fuel, rpoLoop func fuel (rpoStart func) =
          if steps ≤ fuel then .ok last else .error .outOfFuel) ∧
      ∀ n st, Iterates func n st → n ≤ steps ∧ (st.stack = [] ↔ n = steps) ∧
        (st.stack ≠ [] → ∃ st', rpoStep func st = .ok st') ∧
        (st.stack.map Frame.block).Nodup ∧
        (∀ top rest, st.stack = top :: rest →
          IsWalk func.Edge func.entry top.block (st.stack.map Frame.block).reverse) ∧
        st.stack.length ≤ func.blockCount := by
  obtain ⟨vis, out, hsearch, -⟩ := reachableRpo_search hentry
  have hopen : func.entry ∉ outside func := fun h => h hentry
  have hstart := OnRun.start hentry hsearch
  refine ⟨out.toFinset, cost (succsOf func) out, fun b => ?_, cost_eq_card_add_sum hsearch.nodup,
    ?_, fun n st hst => ?_⟩
  · rw [List.mem_toFinset, hsearch.mem_iff_reaches hopen, open_eq_edge, Function.Reachable,
      and_iff_right hentry]
  · obtain ⟨last, -, hloop⟩ := rpoLoop_of_runs (hsearch.runs_root hopen) rfl
      (rpoStart_refines hentry)
    obtain ⟨n, hiter, hempty⟩ := Iterates.of_rpoLoop .start ((hloop _).trans (if_pos le_rfl))
    obtain ⟨k, hk, hrun⟩ := hiter.onRun hstart rfl
    obtain rfl : k = 0 := (hrun.stack_eq_nil rfl).mp hempty
    rw [Nat.add_zero] at hk
    refine ⟨last, hk ▸ hiter, hempty, ?_, hloop⟩
    rw [reachableRpo_eq hentry, hloop, if_pos (cost_le_bound hsearch), ok_bind, pure_eq_ok]
  · obtain ⟨k, hk, hrun⟩ := hst.onRun hstart rfl
    refine ⟨by omega, ?_, fun hne => ?_, hrun.stack_nodup, fun top rest => hrun.stack_walk,
      hrun.stack_length⟩
    · rw [hrun.stack_eq_nil rfl]
      omega
    · cases k with
      | zero => exact absurd ((hrun.stack_eq_nil rfl).mpr rfl) hne
      | succ k =>
        obtain ⟨st', hst', -⟩ := hrun.next
        exact ⟨st', hst'⟩

theorem halvings_rpoLoop : ∃ steps last, Iterates halvings steps last ∧ last.stack = [] ∧
    reachableRpo halvings = .ok last.order.reverse ∧
    ∀ n st, Iterates halvings n st → n ≤ steps ∧ st.stack.length ≤ 4 := by
  have hentry : halvings.InRange halvings.entry := by decide
  obtain ⟨blocks, steps, -, -, ⟨last, hiter, hempty, hrpo, -⟩, hevery⟩ := rpoLoop_linear hentry
  refine ⟨steps, last, hiter, hempty, hrpo, fun n st hst => ?_⟩
  obtain ⟨hle, -, -, -, -, hlen⟩ := hevery n st hst
  exact ⟨hle, hlen⟩

end JitLang.Translate
