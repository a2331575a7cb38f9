import JitLang.Foundations.Lists
import JitLang.Cranelift.Function

/-! # Well-formed SSA

The structural rules of Cranelift IR: a block ends in its only terminator, a value is defined in one
place, and a definition comes before every use, in the same block or along dominance.
-/

namespace JitLang.Cranelift.Function
open Foundations
set_option autoImplicit false

structure Ssa (func : Function) : Prop where
  entry : ∃ e, func.entry? = some e
  terminated : ∀ b ∈ func.layout, ∃ nodes last, func.blockInsts b = nodes ++ [last] ∧
    last.inst.IsTerminator ∧ ∀ node ∈ nodes, ¬ node.inst.IsTerminator
  single : func.definitions.Nodup
  dominated : ∀ b ∈ func.layout, ∀ j node, (func.blockInsts b)[j]? = some node →
    ∀ u ∈ node.inst.uses, func.DefinedBefore u b j

variable {func : Function}

theorem DefinedAt.mem_definitions {v : Value} {b : Block} {pos : ℕ} (h : func.DefinedAt v b pos) :
    v ∈ func.blockParams b ++ func.blockResults b := by
  obtain ⟨-, ⟨-, h⟩ | ⟨j, node, -, hnode, hresult⟩⟩ := h
  · exact List.mem_append_left _ h
  · exact List.mem_append_right _ (List.mem_filterMap.mpr ⟨node, List.mem_of_getElem? hnode, hresult⟩)

theorem DefinedAt.defined {v : Value} {b : Block} {pos : ℕ} (h : func.DefinedAt v b pos) :
    v ∈ func.definitions :=
  List.mem_flatMap.mpr ⟨b, h.1, h.mem_definitions⟩

namespace Ssa

theorem mem_layout_of_entry {e : Block} (he : func.entry? = some e) : e ∈ func.layout :=
  List.mem_of_mem_head? he

theorem params_nodup (h : func.Ssa) {b : Block} (hb : b ∈ func.layout) :
    (func.blockParams b).Nodup :=
  (List.nodup_append'.mp ((List.nodup_flatMap.mp h.single).1 b hb)).1

theorem definedAt_unique (h : func.Ssa) {v : Value} {b b' : Block} {pos pos' : ℕ}
    (hv : func.DefinedAt v b pos) (hv' : func.DefinedAt v b' pos') : b = b' ∧ pos = pos' := by
  have hblock : b = b' := by
    obtain ⟨i, hi⟩ := List.mem_iff_getElem?.mp hv.1
    obtain ⟨i', hi'⟩ := List.mem_iff_getElem?.mp hv'.1
    obtain rfl := flatMap_nodup_index h.single hi hi' hv.mem_definitions hv'.mem_definitions
    exact Option.some.inj (hi.symm.trans hi')
  subst hblock
  refine ⟨rfl, ?_⟩
  obtain ⟨-, hresults, hdisjoint⟩ := List.nodup_append'.mp ((List.nodup_flatMap.mp h.single).1 b hv.1)
  obtain ⟨-, ⟨rfl, hparam⟩ | ⟨j, node, rfl, hnode, hresult⟩⟩ := hv <;>
    obtain ⟨-, ⟨rfl, hparam'⟩ | ⟨j', node', rfl, hnode', hresult'⟩⟩ := hv'
  · rfl
  · exact absurd (List.mem_filterMap.mpr ⟨node', List.mem_of_getElem? hnode', hresult'⟩)
      (hdisjoint hparam)
  · exact absurd (List.mem_filterMap.mpr ⟨node, List.mem_of_getElem? hnode, hresult⟩)
      (hdisjoint hparam')
  · rw [filterMap_nodup_index hresults hnode hnode' hresult hresult']

/-- An instruction reads nothing that is defined at or after it in its block. -/
theorem use_ne_result (h : func.Ssa) {b : Block} (hb : b ∈ func.layout) {i j : ℕ} (hij : i ≤ j)
    {node node' : InstData} (hnode : (func.blockInsts b)[i]? = some node)
    (hnode' : (func.blockInsts b)[j]? = some node') {u v : Value} (hu : u ∈ node.inst.uses)
    (hv : node'.result = some v) : u ≠ v := by
  rintro rfl
  obtain ⟨d, pos, hdef, hplace⟩ := h.dominated b hb i node hnode u hu
  obtain ⟨rfl, rfl⟩ := h.definedAt_unique hdef ⟨hb, .inr ⟨j, node', rfl, hnode', hv⟩⟩
  rcases hplace with ⟨-, hle⟩ | ⟨hne, -⟩
  · omega
  · exact hne rfl

theorem terminator_last (h : func.Ssa) {b : Block} (hb : b ∈ func.layout) {j : ℕ} {node : InstData}
    (hnode : (func.blockInsts b)[j]? = some node) (hterm : node.inst.IsTerminator) :
    j + 1 = (func.blockInsts b).length := by
  obtain ⟨nodes, last, hinsts, -, hothers⟩ := h.terminated b hb
  rw [hinsts] at hnode ⊢
  have hlt := (List.getElem?_eq_some_iff.mp hnode).1
  rw [List.length_append, List.length_singleton] at hlt ⊢
  by_contra hne
  rw [List.getElem?_append_left (by omega)] at hnode
  exact hothers node (List.mem_of_getElem? hnode) hterm

theorem exists_next (h : func.Ssa) {b : Block} (hb : b ∈ func.layout) {j : ℕ} {node : InstData}
    (hnode : (func.blockInsts b)[j]? = some node) (hterm : ¬ node.inst.IsTerminator) :
    ∃ next, (func.blockInsts b)[j + 1]? = some next := by
  obtain ⟨nodes, last, hinsts, hlast, -⟩ := h.terminated b hb
  rw [hinsts] at hnode ⊢
  have hlt := (List.getElem?_eq_some_iff.mp hnode).1
  rw [List.length_append, List.length_singleton] at hlt
  have hj : j < nodes.length := by
    by_contra hge
    obtain rfl : j = nodes.length := by omega
    rw [List.getElem?_concat_length] at hnode
    cases hnode
    exact hterm hlast
  exact ⟨_, List.getElem?_eq_getElem (by rw [List.length_append, List.length_singleton]; omega)⟩

end Ssa
end JitLang.Cranelift.Function
