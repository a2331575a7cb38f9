import Mathlib.Logic.Relation
import Mathlib.Data.List.Forall2
import Mathlib.Data.Set.Basic

/-! # Walks, reachability and dominance in a directed graph

A graph is an edge relation `E : V → V → Prop` with a root. `IsWalk E a b p` says that `p` lists the
vertices of a walk from `a` to `b`; `Dominates E root d b` that every walk from the root to `b` goes
through `d`. A simulation between two edge relations carries walks across (`IsWalk.lift`), and a
two-way simulation that relates each vertex to one vertex carries dominance across.
-/

namespace JitLang.Graph
set_option autoImplicit false

variable {V W : Type*} {E F : V → V → Prop}

/-! ## Walks -/

/-- `p` is the vertex list of a walk from the first vertex to the second; it is never empty. -/
inductive IsWalk (E : V → V → Prop) : V → V → List V → Prop
  | single (a : V) : IsWalk E a a [a]
  | cons {a b c : V} {p : List V} : E a b → IsWalk E b c p → IsWalk E a c (a :: p)

theorem IsWalk.snoc {a b c : V} {p : List V} (h : IsWalk E a b p) (hbc : E b c) :
    IsWalk E a c (p ++ [c]) := by
  induction h with
  | single a => exact .cons hbc (.single c)
  | cons hab _ ih => exact .cons hab (ih hbc)

theorem IsWalk.first_mem {a b : V} {p : List V} (h : IsWalk E a b p) : a ∈ p := by
  cases h <;> simp

theorem IsWalk.last_mem {a b : V} {p : List V} (h : IsWalk E a b p) : b ∈ p := by
  induction h with
  | single a => simp
  | cons _ _ ih => exact List.mem_cons_of_mem _ ih

theorem IsWalk.mono {a b : V} {p : List V} (h : IsWalk E a b p) (hEF : ∀ x y, E x y → F x y) :
    IsWalk F a b p := by
  induction h with
  | single a => exact .single a
  | cons hab _ ih => exact .cons (hEF _ _ hab) ih

theorem IsWalk.eq_concat {a b : V} {p : List V} (h : IsWalk E a b p) : ∃ q, p = q ++ [b] := by
  induction h with
  | single a => exact ⟨[], rfl⟩
  | @cons a _ _ _ _ _ ih =>
    obtain ⟨q, rfl⟩ := ih
    exact ⟨a :: q, rfl⟩

theorem IsWalk.mem_dropLast {a b d : V} {p : List V} (h : IsWalk E a b p) (hd : d ∈ p)
    (hne : d ≠ b) : d ∈ p.dropLast := by
  obtain ⟨q, rfl⟩ := h.eq_concat
  rw [List.dropLast_concat]
  simpa [hne] using hd

theorem IsWalk.to_mem {a b d : V} {p : List V} (h : IsWalk E a b p) (hd : d ∈ p) :
    ∃ q, IsWalk E a d q := by
  induction h with
  | single a => exact ⟨[a], by rw [List.mem_singleton.mp hd]; exact .single a⟩
  | @cons a b c p hab _ ih =>
    rcases List.mem_cons.mp hd with rfl | hd
    · exact ⟨[d], .single d⟩
    · obtain ⟨q, hq⟩ := ih hd
      exact ⟨a :: q, .cons hab hq⟩

theorem IsWalk.last_edge {a b : V} {p : List V} (h : IsWalk E a b p) :
    b = a ∧ p = [a] ∨ ∃ c q, IsWalk E a c q ∧ E c b ∧ p = q ++ [b] := by
  induction h with
  | single a => exact .inl ⟨rfl, rfl⟩
  | @cons a b c p hab _ ih =>
    rcases ih with ⟨rfl, rfl⟩ | ⟨d, q, hq, hdc, rfl⟩
    · exact .inr ⟨a, [a], .single a, hab, rfl⟩
    · exact .inr ⟨d, a :: q, .cons hab hq, hdc, rfl⟩

theorem IsWalk.init {a b : V} {l : List V} (h : IsWalk E a b (l ++ [b])) (hne : l ≠ []) :
    ∃ c l', l = l' ++ [c] ∧ IsWalk E a c l := by
  rcases h.last_edge with ⟨-, hp⟩ | ⟨c, q, hq, -, hp⟩
  · exact absurd (List.append_eq_singleton_iff.mp hp) (by simp [hne])
  · obtain rfl := List.append_cancel_right hp
    obtain ⟨l', rfl⟩ := hq.eq_concat
    exact ⟨c, l', rfl, hq⟩

/-! ## Reachability -/

/-- `b` is reached from `a` along zero or more edges. -/
abbrev Reaches (E : V → V → Prop) (a b : V) : Prop := Relation.ReflTransGen E a b

theorem IsWalk.reaches {a b : V} {p : List V} (h : IsWalk E a b p) : Reaches E a b := by
  induction h with
  | single a => exact .refl
  | cons hab _ ih => exact .head hab ih

theorem exists_walk_of_reaches {a b : V} (h : Reaches E a b) : ∃ p, IsWalk E a b p := by
  induction h with
  | refl => exact ⟨[a], .single a⟩
  | tail _ hbc ih =>
    obtain ⟨p, hp⟩ := ih
    exact ⟨_, hp.snoc hbc⟩

/-! ## Dominance -/

/-- Every walk from `root` to `b` goes through `d`. -/
def Dominates (E : V → V → Prop) (root d b : V) : Prop := ∀ p, IsWalk E root b p → d ∈ p

theorem Dominates.reaches {root d b : V} (h : Dominates E root d b) (hb : Reaches E root b) :
    Reaches E root d := by
  obtain ⟨p, hp⟩ := exists_walk_of_reaches hb
  obtain ⟨q, hq⟩ := hp.to_mem (h p hp)
  exact hq.reaches

/-- What strictly dominates a vertex dominates its predecessors. -/
theorem Dominates.of_edge {root a b d : V} (h : Dominates E root d b) (hab : E a b) (hne : d ≠ b) :
    Dominates E root d a := by
  intro p hp
  rcases List.mem_append.mp (h _ (hp.snoc hab)) with hd | hd
  · exact hd
  · exact absurd (List.mem_singleton.mp hd) hne

/-- The only predecessor of a vertex other than the root dominates it. -/
theorem Dominates.of_only_predecessor {root d b : V} (hne : b ≠ root) (h : ∀ c, E c b → c = d) :
    Dominates E root d b := by
  intro p hp
  rcases hp.last_edge with ⟨heq, -⟩ | ⟨c, q, hq, hcb, rfl⟩
  · exact absurd heq hne
  · rw [← h c hcb]
    exact List.mem_append_left _ hq.last_mem

/-- A table of dominators is right if the root has none and a dominator of a vertex is, for each edge to
it from a vertex that is reached, the start of the edge or one of its dominators. -/
theorem Dominates.of_closed {root : V} {doms : V → List V} (hroot : doms root = [])
    (hedge : ∀ a b, Reaches E root a → E a b → ∀ d ∈ doms b, d = a ∨ d ∈ doms a) {d b : V}
    (h : d ∈ doms b) : Dominates E root d b := by
  intro p hp
  induction hn : p.length generalizing b p with
  | zero =>
    obtain ⟨q, rfl⟩ := hp.eq_concat
    simp at hn
  | succ n ih =>
    rcases hp.last_edge with ⟨rfl, -⟩ | ⟨c, q, hq, hcb, rfl⟩
    · rw [hroot] at h
      cases h
    · rcases hedge c b hq.reaches hcb d h with rfl | hd
      · exact List.mem_append_left _ hq.last_mem
      · exact List.mem_append_left _ (ih hd q hq (by simpa using hn))

/-- Where `d` strictly dominates `b`, every walk to `b` has left `d` before it ends. -/
theorem Dominates.mem_dropLast {root d b : V} {p : List V} (h : Dominates E root d b)
    (hp : IsWalk E root b p) (hne : d ≠ b) : d ∈ p.dropLast :=
  hp.mem_dropLast (h p hp) hne

/-! ## Simulations -/

section Simulation
variable {E' : W → W → Prop} {R : V → W → Prop}

/-- A simulation turns a walk into a related walk, vertex by vertex. -/
theorem IsWalk.lift (hsim : ∀ x y u, R x u → E x y → ∃ v, R y v ∧ E' u v)
    {a b : V} {p : List V} (h : IsWalk E a b p) {u : W} (hu : R a u) :
    ∃ q v, IsWalk E' u v q ∧ R b v ∧ List.Forall₂ R p q := by
  induction h generalizing u with
  | single a => exact ⟨[u], u, .single u, hu, .cons hu .nil⟩
  | cons hab _ ih =>
    obtain ⟨w, hw, huw⟩ := hsim _ _ _ hu hab
    obtain ⟨q, v, hq, hv, hpq⟩ := ih hw
    exact ⟨u :: q, v, .cons huw hq, hv, .cons hu hpq⟩

/-- A simulation carries dominance backwards: if the image of `d` dominates the image of `b` in the
simulating graph, and only `d` is related to the image of `d`, then `d` dominates `b`. -/
theorem Dominates.of_simulation (hsim : ∀ x y u, R x u → E x y → ∃ v, R y v ∧ E' u v)
    (hfun : ∀ x u v, R x u → R x v → u = v) (hinj : ∀ x y u, R x u → R y u → x = y)
    {root d b : V} {root' d' b' : W} (hroot : R root root') (hd : R d d') (hb : R b b')
    (h : Dominates E' root' d' b') : Dominates E root d b := by
  intro p hp
  obtain ⟨q, v, hq, hv, hpq⟩ := hp.lift hsim hroot
  obtain rfl := hfun _ _ _ hv hb
  obtain ⟨i, hi, hdi⟩ := List.mem_iff_getElem.mp (h q hq)
  have hip : i < p.length := by rw [hpq.length_eq]; exact hi
  have hrel : R p[i] q[i] := hpq.get hip hi
  rw [hdi] at hrel
  rw [hinj _ _ _ hd hrel]
  exact List.getElem_mem hip

end Simulation

end JitLang.Graph
