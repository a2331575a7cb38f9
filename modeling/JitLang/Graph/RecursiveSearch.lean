import JitLang.Graph.DepthFirst
import Mathlib.Data.Finset.Card
import Mathlib.Data.Finset.SDiff

/-! # The recursive depth-first search as a function

`visit` marks a vertex on entry, visits its unmarked successors in order, and appends it to the
postorder after the last of them; `visitAll` is the loop over a list of successors. Only vertices of
`inside` are entered. Each visit leaves one vertex less to mark, which bounds the recursion.

The function follows the derivations of `JitLang.Graph.DepthFirst` (`visitAll_search`), so its
postorder is what such a derivation finishes, read backwards.
-/

namespace JitLang.Graph
set_option autoImplicit false

variable {V : Type*}

/-- The state the recursive calls share: the marked vertices and the postorder so far. -/
structure Visits (V : Type*) where
  marked : Finset V
  post : List V

/-- The marks of a search as the set of vertices closed to it. -/
def closedTo (inside marked : Finset V) : Set V := {v | v ∉ inside ∨ v ∈ marked}

theorem mem_closedTo {inside marked : Finset V} {v : V} :
    v ∈ closedTo inside marked ↔ ¬ (v ∈ inside ∧ v ∉ marked) := by
  rw [closedTo, Set.mem_ofPred_eq, not_and_or, not_not]

section Recursive
variable [DecidableEq V] (inside : Finset V) (succs : V → List V)

theorem unmarked_insert_lt {marked : Finset V} {v : V} (h : v ∈ inside ∧ v ∉ marked) :
    (inside \ insert v marked).card < (inside \ marked).card := by
  rw [Finset.sdiff_insert]
  exact Finset.card_erase_lt_of_mem (Finset.mem_sdiff.mpr h)

theorem unmarked_le {marked marked' : Finset V} (h : marked ⊆ marked') :
    (inside \ marked').card ≤ (inside \ marked).card :=
  Finset.card_le_card (Finset.sdiff_subset_sdiff (Finset.Subset.refl _) h)

-- Marks are never taken back; the results carry this, for the recursion to end.
mutual

def visit (st : Visits V) (v : V) (_h : v ∈ inside ∧ v ∉ st.marked) :
    {st' : Visits V // st.marked ⊆ st'.marked} :=
  let st' := visitAll ⟨insert v st.marked, st.post⟩ (succs v)
  ⟨⟨st'.1.marked, st'.1.post ++ [v]⟩, (Finset.subset_insert v st.marked).trans st'.2⟩
termination_by ((inside \ st.marked).card, 0)
decreasing_by exact .left _ _ (unmarked_insert_lt inside _h)

def visitAll (st : Visits V) : List V → {st' : Visits V // st.marked ⊆ st'.marked}
  | [] => ⟨st, Finset.Subset.refl _⟩
  | s :: todo =>
    if h : s ∈ inside ∧ s ∉ st.marked then
      let st₁ := visit st s h
      let st₂ := visitAll st₁.1 todo
      ⟨st₂.1, st₁.2.trans st₂.2⟩
    else visitAll st todo
termination_by todo => ((inside \ st.marked).card, todo.length)
decreasing_by
  · exact .right _ (Nat.succ_pos _)
  · exact .right' _ (unmarked_le inside st₁.2) (Nat.lt_succ_self _)
  · exact .right _ (Nat.lt_succ_self _)

end

variable {inside succs}

theorem closedTo_insert {marked : Finset V} (v : V) :
    closedTo inside (insert v marked) = insert v (closedTo inside marked) := by
  ext x
  simp only [closedTo, Set.mem_ofPred_eq, Set.mem_insert_iff, Finset.mem_insert]
  tauto

mutual

theorem visit_search (st : Visits V) (v : V) (h : v ∈ inside ∧ v ∉ st.marked) :
    ∃ out, Search succs (insert v (closedTo inside st.marked)) (succs v)
        (closedTo inside (visit inside succs st v h).1.marked) out ∧
      (visit inside succs st v h).1.post = st.post ++ (v :: out).reverse := by
  obtain ⟨out, hsearch, hpost⟩ := visitAll_search ⟨insert v st.marked, st.post⟩ (succs v)
  rw [closedTo_insert] at hsearch
  rw [visit]
  exact ⟨out, hsearch, by simp [hpost]⟩
termination_by ((inside \ st.marked).card, 0)
decreasing_by exact .left _ _ (unmarked_insert_lt inside h)

/-- The function follows a derivation; its postorder is what the derivation finishes. -/
theorem visitAll_search (st : Visits V) (todo : List V) :
    ∃ out, Search succs (closedTo inside st.marked) todo
        (closedTo inside (visitAll inside succs st todo).1.marked) out ∧
      (visitAll inside succs st todo).1.post = st.post ++ out.reverse := by
  match todo with
  | [] =>
    rw [visitAll]
    exact ⟨[], .nil _, by simp⟩
  | s :: todo =>
    by_cases h : s ∈ inside ∧ s ∉ st.marked
    · obtain ⟨out₁, h₁, hpost₁⟩ := visit_search st s h
      obtain ⟨out₂, h₂, hpost₂⟩ := visitAll_search (visit inside succs st s h).1 todo
      rw [visitAll, dif_pos h]
      refine ⟨out₂ ++ s :: out₁, .visit (fun hs => mem_closedTo.mp hs h) h₁ h₂, ?_⟩
      simp only [hpost₂, hpost₁, List.reverse_append, List.append_assoc]
    · obtain ⟨out, hsearch, hpost⟩ := visitAll_search st todo
      rw [visitAll, dif_neg h]
      exact ⟨out, .skip (mem_closedTo.mpr h) hsearch, hpost⟩
termination_by ((inside \ st.marked).card, todo.length)
decreasing_by
  · exact .right _ (Nat.succ_pos _)
  · exact .right' _ (unmarked_le inside (visit inside succs st s h).2) (Nat.lt_succ_self _)
  · exact .right _ (Nat.lt_succ_self _)

end

/-- The postorder of the search from `root`. -/
def postorder (inside : Finset V) (succs : V → List V) (root : V) : List V :=
  (visitAll inside succs ⟨∅, []⟩ [root]).1.post

theorem postorder_search (root : V) : ∃ vis out, Search succs {v | v ∉ inside} [root] vis out ∧
    (postorder inside succs root).reverse = out := by
  obtain ⟨out, hsearch, hpost⟩ :
      ∃ out, Search succs (closedTo inside ∅) [root]
          (closedTo inside (visitAll inside succs ⟨∅, []⟩ [root]).1.marked) out ∧
        (visitAll inside succs ⟨∅, []⟩ [root]).1.post = [] ++ out.reverse :=
    visitAll_search ⟨∅, []⟩ [root]
  have hclosed : closedTo inside ∅ = {v | v ∉ inside} := by
    ext v
    simp [closedTo]
  rw [hclosed] at hsearch
  exact ⟨_, out, hsearch, by rw [postorder, hpost, List.nil_append, List.reverse_reverse]⟩

end Recursive
end JitLang.Graph
