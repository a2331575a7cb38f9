import JitLang.Graph.Walks
import Mathlib.Data.Set.Card
import Mathlib.Data.List.Nodup
import Mathlib.Algebra.BigOperators.Group.List.Basic

/-! # Depth-first search

`Search succs vis todo vis' out` is the textbook recursive search, as a derivation: with the vertices
of `vis` already marked, visiting the vertices of `todo` in order marks `vis'` and finishes the
vertices of `out`, the last one to finish at the head. So `out` is a postorder read backwards.

`Step` is the same search on an explicit stack of suspended visits, one successor per step. A
derivation is an exact run of the stack machine (`Search.runs`), and the machine takes one step per
finished vertex and one per successor looked at.

Vertices that must never be entered (handles out of range, say) are put in `vis` from the start.
-/

namespace JitLang.Graph
set_option autoImplicit false

variable {V W : Type*} {succs : V → List V}

/-! ## The recursive search -/

/-- The recursive search; `out` lists the finished vertices, last finished first. -/
inductive Search (succs : V → List V) : Set V → List V → Set V → List V → Prop
  | nil (vis : Set V) : Search succs vis [] vis []
  | skip {vis vis' : Set V} {s : V} {todo out : List V} :
      s ∈ vis → Search succs vis todo vis' out → Search succs vis (s :: todo) vis' out
  | visit {vis vis₁ vis₂ : Set V} {s : V} {todo out₁ out₂ : List V} :
      s ∉ vis → Search succs (insert s vis) (succs s) vis₁ out₁ →
      Search succs vis₁ todo vis₂ out₂ → Search succs vis (s :: todo) vis₂ (out₂ ++ s :: out₁)

/-- The edges a search may follow when the vertices of `vis` are closed to it. -/
def Open (succs : V → List V) (vis : Set V) (a b : V) : Prop := b ∈ succs a ∧ b ∉ vis

theorem Search.marked {vis vis' : Set V} {todo out : List V} (h : Search succs vis todo vis' out) :
    ∀ x, x ∈ vis' ↔ x ∈ vis ∨ x ∈ out := by
  induction h with
  | nil vis => simp
  | skip _ _ ih => exact ih
  | visit _ _ _ ih₁ ih₂ =>
    intro x
    rw [ih₂, ih₁, Set.mem_insert_iff, List.mem_append, List.mem_cons]
    tauto

theorem Search.subset {vis vis' : Set V} {todo out : List V} (h : Search succs vis todo vis' out) :
    vis ⊆ vis' := fun x hx => (h.marked x).mpr (Or.inl hx)

theorem Search.todo_marked {vis vis' : Set V} {todo out : List V}
    (h : Search succs vis todo vis' out) : ∀ x ∈ todo, x ∈ vis' := by
  induction h with
  | nil vis => simp
  | skip hs h ih =>
    intro x hx
    rcases List.mem_cons.mp hx with rfl | hx
    · exact h.subset hs
    · exact ih x hx
  | visit hs h₁ h₂ _ ih₂ =>
    intro x hx
    rcases List.mem_cons.mp hx with rfl | hx
    · exact h₂.subset (h₁.subset (Set.mem_insert _ _))
    · exact ih₂ x hx

theorem Search.fresh {vis vis' : Set V} {todo out : List V} (h : Search succs vis todo vis' out) :
    ∀ x ∈ out, x ∉ vis := by
  induction h with
  | nil vis => simp
  | skip _ _ ih => exact ih
  | visit hs h₁ _ ih₁ ih₂ =>
    intro x hx hvis
    rcases List.mem_append.mp hx with hx | hx
    · exact ih₂ x hx (h₁.subset (Set.mem_insert_of_mem _ hvis))
    · rcases List.mem_cons.mp hx with rfl | hx
      · exact hs hvis
      · exact ih₁ x hx (Set.mem_insert_of_mem _ hvis)

theorem Search.nodup {vis vis' : Set V} {todo out : List V} (h : Search succs vis todo vis' out) :
    out.Nodup := by
  induction h with
  | nil vis => simp
  | skip _ _ ih => exact ih
  | @visit vis vis₁ vis₂ s todo out₁ out₂ hs h₁ h₂ ih₁ ih₂ =>
    have hs₁ : s ∉ out₁ := fun hx => h₁.fresh s hx (Set.mem_insert _ _)
    refine List.nodup_append.mpr ⟨ih₂, List.nodup_cons.mpr ⟨hs₁, ih₁⟩, ?_⟩
    rintro x hx y hy rfl
    have hmark : x ∈ vis₁ := by
      rcases List.mem_cons.mp hy with rfl | hy
      · exact h₁.subset (Set.mem_insert _ _)
      · exact (h₁.marked x).mpr (Or.inr hy)
    exact h₂.fresh x hx hmark

/-- Nothing is lost: every successor of a finished vertex is marked. -/
theorem Search.closed {vis vis' : Set V} {todo out : List V} (h : Search succs vis todo vis' out) :
    ∀ x ∈ out, ∀ y ∈ succs x, y ∈ vis' := by
  induction h with
  | nil vis => simp
  | skip _ _ ih => exact ih
  | visit _ h₁ h₂ ih₁ ih₂ =>
    intro x hx y hy
    rcases List.mem_append.mp hx with hx | hx
    · exact ih₂ x hx y hy
    · rcases List.mem_cons.mp hx with rfl | hx
      · exact h₂.subset (h₁.todo_marked y hy)
      · exact h₂.subset (ih₁ x hx y hy)

/-- The tree path to a finished vertex, as a walk through open vertices whose vertices stand in `out`
in the walk's own order: an ancestor finishes after its descendants. -/
theorem Search.tree_walk {vis vis' : Set V} {todo out : List V}
    (h : Search succs vis todo vis' out) :
    ∀ b ∈ out, ∃ t ∈ todo, ∃ p, IsWalk (Open succs vis) t b p ∧ p.Sublist out := by
  induction h with
  | nil vis => simp
  | skip _ _ ih =>
    intro b hb
    obtain ⟨t, ht, p, hp, hsub⟩ := ih b hb
    exact ⟨t, List.mem_cons_of_mem _ ht, p, hp, hsub⟩
  | @visit vis vis₁ vis₂ s todo out₁ out₂ _ h₁ _ ih₁ ih₂ =>
    intro b hb
    rcases List.mem_append.mp hb with hb | hb
    · obtain ⟨t, ht, p, hp, hsub⟩ := ih₂ b hb
      have hopen : IsWalk (Open succs vis) t b p := hp.mono fun x y hxy =>
        ⟨hxy.1, fun hy => hxy.2 (h₁.subset (Set.mem_insert_of_mem _ hy))⟩
      exact ⟨t, List.mem_cons_of_mem _ ht, p, hopen, hsub.trans (List.sublist_append_left _ _)⟩
    · rcases List.mem_cons.mp hb with rfl | hb
      · exact ⟨b, List.mem_cons_self, [b], .single b, by simp⟩
      · obtain ⟨t, ht, p, hp, hsub⟩ := ih₁ b hb
        have hopen : IsWalk (Open succs vis) t b p := hp.mono fun x y hxy =>
          ⟨hxy.1, fun hy => hxy.2 (Set.mem_insert_of_mem _ hy)⟩
        have htvis : t ∉ vis := fun hv =>
          h₁.fresh t (hsub.subset hp.first_mem) (Set.mem_insert_of_mem _ hv)
        exact ⟨s, List.mem_cons_self, s :: p, .cons ⟨ht, htvis⟩ hopen,
          (hsub.cons_cons s).trans (List.sublist_append_right _ _)⟩

/-- With finitely many vertices left unmarked the search always ends. The outer induction is on how
many are left, the inner one on the list of vertices still to visit. -/
theorem Search.exists_of_finite (succs : V → List V) :
    ∀ (n : ℕ) (vis : Set V), visᶜ.Finite → visᶜ.ncard ≤ n → ∀ todo,
      ∃ vis' out, Search succs vis todo vis' out := by
  intro n
  induction n with
  | zero =>
    intro vis hfin hn todo
    have hall : ∀ x, x ∈ vis := by
      intro x
      by_contra hx
      have := (Set.ncard_eq_zero hfin).mp (Nat.le_zero.mp hn)
      exact (this ▸ hx : x ∈ (∅ : Set V))
    induction todo with
    | nil => exact ⟨vis, [], .nil vis⟩
    | cons s todo ih =>
      obtain ⟨vis', out, h⟩ := ih
      exact ⟨vis', out, .skip (hall s) h⟩
  | succ n ihn =>
    intro vis hfin hn todo
    induction todo generalizing vis with
    | nil => exact ⟨vis, [], .nil vis⟩
    | cons s todo ih =>
      by_cases hs : s ∈ vis
      · obtain ⟨vis', out, h⟩ := ih vis hfin hn
        exact ⟨vis', out, .skip hs h⟩
      · have hss : (insert s vis)ᶜ ⊂ visᶜ := by
          refine ⟨Set.compl_subset_compl.mpr (Set.subset_insert _ _), fun hle => ?_⟩
          exact hle hs (Set.mem_insert s vis)
        have hlt := Set.ncard_lt_ncard hss hfin
        obtain ⟨vis₁, out₁, h₁⟩ := ihn (insert s vis) (hfin.subset hss.subset) (by omega) (succs s)
        have hle : vis₁ᶜ ⊆ visᶜ := Set.compl_subset_compl.mpr
          ((Set.subset_insert _ _).trans h₁.subset)
        obtain ⟨vis₂, out₂, h₂⟩ := ih vis₁ (hfin.subset hle) ((Set.ncard_le_ncard hle hfin).trans hn)
        exact ⟨vis₂, out₂ ++ s :: out₁, .visit hs h₁ h₂⟩

theorem Search.deterministic {vis vis' vis'' : Set V} {todo out out' : List V}
    (h : Search succs vis todo vis' out) (h' : Search succs vis todo vis'' out') :
    vis' = vis'' ∧ out = out' := by
  induction h generalizing vis'' out' with
  | nil vis => cases h'; exact ⟨rfl, rfl⟩
  | skip hs _ ih =>
    cases h' with
    | skip _ h' => exact ih h'
    | visit hs' _ _ => exact absurd hs hs'
  | visit hs _ _ ih₁ ih₂ =>
    cases h' with
    | skip hs' _ => exact absurd hs' hs
    | visit _ h₁' h₂' =>
      obtain ⟨rfl, rfl⟩ := ih₁ h₁'
      obtain ⟨rfl, rfl⟩ := ih₂ h₂'
      exact ⟨rfl, rfl⟩

/-- The search does not see the names of the vertices: renaming the ones it may meet renames what it
finishes. -/
theorem Search.rename {succs' : W → List W} {φ : V → W} {S : Set V} (hinj : Set.InjOn φ S)
    (hsuccs : ∀ x ∈ S, succs' (φ x) = (succs x).map φ) (hS : ∀ x ∈ S, ∀ y ∈ succs x, y ∈ S)
    {vis vis' : Set V} {todo out : List V} (h : Search succs vis todo vis' out)
    (htodo : ∀ x ∈ todo, x ∈ S) {wis : Set W} (hvis : ∀ x ∈ S, φ x ∈ wis ↔ x ∈ vis) :
    ∃ wis', Search succs' wis (todo.map φ) wis' (out.map φ) ∧ ∀ x ∈ S, φ x ∈ wis' ↔ x ∈ vis' := by
  induction h generalizing wis with
  | nil vis => exact ⟨wis, .nil wis, hvis⟩
  | skip hs _ ih =>
    have hsS := htodo _ List.mem_cons_self
    obtain ⟨wis', h, hvis'⟩ := ih (fun x hx => htodo x (List.mem_cons_of_mem _ hx)) hvis
    exact ⟨wis', .skip ((hvis _ hsS).mpr hs) h, hvis'⟩
  | @visit vis vis₁ vis₂ s todo out₁ out₂ hs _ _ ih₁ ih₂ =>
    have hsS := htodo s List.mem_cons_self
    have hvis₁ : ∀ x ∈ S, φ x ∈ insert (φ s) wis ↔ x ∈ insert s vis := by
      intro x hx
      rw [Set.mem_insert_iff, Set.mem_insert_iff, hvis x hx, hinj.eq_iff hx hsS]
    obtain ⟨wis₁, h₁, hvis₁⟩ := ih₁ (hS s hsS) hvis₁
    obtain ⟨wis₂, h₂, hvis₂⟩ := ih₂ (fun x hx => htodo x (List.mem_cons_of_mem _ hx)) hvis₁
    rw [← hsuccs s hsS] at h₁
    rw [List.map_append, List.map_cons]
    exact ⟨wis₂, .visit (fun hw => hs ((hvis s hsS).mp hw)) h₁ h₂, hvis₂⟩

/-! ## A search from one root -/

section Root
variable {closed vis' : Set V} {root : V} {out : List V}

/-- The root is the last vertex to finish. -/
theorem Search.root_first (h : Search succs closed [root] vis' out) (hroot : root ∉ closed) :
    ∃ rest, out = root :: rest := by
  cases h with
  | skip hs _ => exact absurd hs hroot
  | @visit _ vis₁ _ _ _ out₁ out₂ _ _ h₂ =>
    cases h₂
    exact ⟨out₁, rfl⟩

/-- Exactly the vertices reached through open edges finish. -/
theorem Search.mem_iff_reaches (h : Search succs closed [root] vis' out) (hroot : root ∉ closed)
    (b : V) : b ∈ out ↔ Reaches (Open succs closed) root b := by
  constructor
  · intro hb
    obtain ⟨t, ht, p, hp, -⟩ := h.tree_walk b hb
    rw [List.mem_singleton.mp ht] at hp
    exact hp.reaches
  · intro hb
    induction hb with
    | refl =>
      obtain ⟨rest, rfl⟩ := h.root_first hroot
      exact List.mem_cons_self
    | @tail x y _ hxy ih =>
      exact ((h.marked y).mp (h.closed x ih y hxy.1)).resolve_left hxy.2

/-- A strict dominator finishes after what it dominates, so it stands before it in `out`. -/
theorem Search.dominator_first (h : Search succs closed [root] vis' out) {d b : V} (hb : b ∈ out)
    (hd : Dominates (Open succs closed) root d b) (hne : d ≠ b) : [d, b].Sublist out := by
  obtain ⟨t, ht, p, hp, hsub⟩ := h.tree_walk b hb
  rw [List.mem_singleton.mp ht] at hp
  have hmem := hd.mem_dropLast hp hne
  obtain ⟨q, rfl⟩ := hp.eq_concat
  rw [List.dropLast_concat] at hmem
  have hpair : [d, b].Sublist (q ++ [b]) :=
    (List.singleton_sublist.mpr hmem).append (List.Sublist.refl [b])
  exact hpair.trans hsub

end Root

/-! ## The search on an explicit stack -/

/-- A suspended search: each stack entry is a vertex being visited and the successors it has still
to look at, the innermost visit first. -/
structure State (V : Type*) where
  visited : Set V
  stack : List (V × List V)
  finished : List V

/-- One step of the innermost visit: finish it, skip a marked successor, or enter a fresh one. -/
inductive Step (succs : V → List V) : State V → State V → Prop
  | finish {vis : Set V} {b : V} {stack : List (V × List V)} {fin : List V} :
      Step succs ⟨vis, (b, []) :: stack, fin⟩ ⟨vis, stack, b :: fin⟩
  | skip {vis : Set V} {b s : V} {todo : List V} {stack : List (V × List V)} {fin : List V} :
      s ∈ vis → Step succs ⟨vis, (b, s :: todo) :: stack, fin⟩ ⟨vis, (b, todo) :: stack, fin⟩
  | enter {vis : Set V} {b s : V} {todo : List V} {stack : List (V × List V)} {fin : List V} :
      s ∉ vis → Step succs ⟨vis, (b, s :: todo) :: stack, fin⟩
        ⟨insert s vis, (s, succs s) :: (b, todo) :: stack, fin⟩

/-- `Runs succs n c d`: exactly `n` steps lead from `c` to `d`. -/
inductive Runs (succs : V → List V) : ℕ → State V → State V → Prop
  | refl (c : State V) : Runs succs 0 c c
  | head {n : ℕ} {c c' d : State V} : Step succs c c' → Runs succs n c' d → Runs succs (n + 1) c d

theorem Runs.single {c d : State V} (h : Step succs c d) : Runs succs 1 c d := .head h (.refl d)

theorem Runs.trans {m n : ℕ} {c d e : State V} (h₁ : Runs succs m c d) (h₂ : Runs succs n d e) :
    Runs succs (m + n) c e := by
  induction h₁ with
  | refl c => simpa using h₂
  | @head m c c' d hs _ ih =>
    rw [Nat.add_right_comm]
    exact .head hs (ih h₂)

/-- The steps a search takes inside the vertices it finishes: one to finish each, one for each of its
successors. -/
def cost (succs : V → List V) (out : List V) : ℕ := (out.map fun x => (succs x).length + 1).sum

theorem cost_append_cons (out₂ : List V) (s : V) (out₁ : List V) :
    cost succs (out₂ ++ s :: out₁) = cost succs out₂ + ((succs s).length + 1) + cost succs out₁ := by
  simp only [cost, List.map_append, List.map_cons, List.sum_append, List.sum_cons]
  omega

/-- A recursive search of `todo` is an exact run of the stack machine on a frame that has `todo`
left, whatever lies below that frame. -/
theorem Search.runs {vis vis' : Set V} {todo out : List V} (h : Search succs vis todo vis' out)
    (b : V) (stack : List (V × List V)) (fin : List V) :
    Runs succs (todo.length + cost succs out) ⟨vis, (b, todo) :: stack, fin⟩
      ⟨vis', (b, []) :: stack, out ++ fin⟩ := by
  induction h generalizing b stack fin with
  | nil vis => exact .refl _
  | @skip vis vis' s todo out hs _ ih =>
    have h := Runs.head (Step.skip hs) (ih b stack fin)
    rwa [show (s :: todo).length + cost succs out = todo.length + cost succs out + 1 by
      rw [List.length_cons]; omega]
  | @visit vis vis₁ vis₂ s todo out₁ out₂ hs _ _ ih₁ ih₂ =>
    have s1 : Runs succs ((succs s).length + cost succs out₁ + 1) ⟨vis, (b, s :: todo) :: stack, fin⟩
        ⟨vis₁, (s, []) :: (b, todo) :: stack, out₁ ++ fin⟩ :=
      .head (.enter hs) (ih₁ s ((b, todo) :: stack) fin)
    have s2 : Runs succs 1 ⟨vis₁, (s, []) :: (b, todo) :: stack, out₁ ++ fin⟩
        ⟨vis₁, (b, todo) :: stack, s :: (out₁ ++ fin)⟩ := .single .finish
    have s3 := ih₂ b stack (s :: (out₁ ++ fin))
    have h := (s1.trans s2).trans s3
    rw [List.append_assoc, List.cons_append, cost_append_cons, List.length_cons]
    rwa [show (succs s).length + cost succs out₁ + 1 + 1 + (todo.length + cost succs out₂) =
      todo.length + 1 + (cost succs out₂ + ((succs s).length + 1) + cost succs out₁) by omega] at h

/-- The whole run of the stack machine on one root: it empties the stack after one step for each
vertex it finishes and one for each successor of such a vertex. -/
theorem Search.runs_root {closed vis' : Set V} {root : V} {out : List V}
    (h : Search succs closed [root] vis' out) (hroot : root ∉ closed) :
    Runs succs (cost succs out) ⟨insert root closed, [(root, succs root)], []⟩ ⟨vis', [], out⟩ := by
  cases h with
  | skip hs _ => exact absurd hs hroot
  | @visit _ _ _ _ _ out₁ _ _ h₁ h₂ =>
    cases h₂
    have h := (h₁.runs root [] []).trans (.single .finish)
    have hcost : cost succs ([] ++ root :: out₁) = _ := cost_append_cons [] root out₁
    rw [List.append_nil] at h
    rw [hcost, show cost succs [] = 0 from rfl]
    rwa [show (succs root).length + cost succs out₁ + 1 =
      0 + ((succs root).length + 1) + cost succs out₁ by omega] at h

/-! ## The stack is a path -/

/-- The vertices of the stack, the outermost visit first. -/
def State.path (st : State V) : List V := (st.stack.map Prod.fst).reverse

/-- What holds of the stack of a search from `root`: its vertices are marked, no two of them are the
same, and they lead along open edges from `root` to the innermost visit. -/
structure StackInv (succs : V → List V) (closed : Set V) (root : V) (st : State V) : Prop where
  subset : closed ⊆ st.visited
  marked : ∀ frame ∈ st.stack, frame.1 ∈ st.visited ∧ frame.1 ∉ closed
  todo : ∀ frame ∈ st.stack, frame.2 ⊆ succs frame.1
  nodup : (st.stack.map Prod.fst).Nodup
  walk : ∀ frame rest, st.stack = frame :: rest → IsWalk (Open succs closed) root frame.1 st.path

namespace StackInv
variable {closed vis : Set V} {root b s : V} {todo fin fin' : List V} {stack : List (V × List V)}

theorem start (hroot : root ∉ closed) :
    StackInv succs closed root ⟨insert root closed, [(root, succs root)], []⟩ := by
  refine ⟨Set.subset_insert _ _, ?_, ?_, List.nodup_singleton _, ?_⟩
  · intro frame hframe
    rw [List.mem_singleton.mp hframe]
    exact ⟨Set.mem_insert _ _, hroot⟩
  · intro frame hframe
    rw [List.mem_singleton.mp hframe]
    exact List.Subset.refl _
  · rintro frame rest hstack
    cases hstack
    exact .single root

theorem pop (h : StackInv succs closed root ⟨vis, (b, todo) :: stack, fin⟩) :
    StackInv succs closed root ⟨vis, stack, fin'⟩ := by
  refine ⟨h.subset, fun f hf => h.marked f (List.mem_cons_of_mem _ hf),
    fun f hf => h.todo f (List.mem_cons_of_mem _ hf), (List.nodup_cons.mp h.nodup).2, ?_⟩
  rintro frame rest hstack
  obtain rfl : stack = frame :: rest := hstack
  have hw := h.walk _ _ rfl
  simp only [State.path, List.map_cons, List.reverse_cons] at hw ⊢
  obtain ⟨c, l, hl, hinit⟩ := hw.init (by simp)
  obtain rfl : frame.1 = c := List.singleton_inj.mp (List.append_inj_right' hl rfl)
  exact hinit

theorem advance (h : StackInv succs closed root ⟨vis, (b, s :: todo) :: stack, fin⟩) :
    StackInv succs closed root ⟨vis, (b, todo) :: stack, fin⟩ := by
  refine ⟨h.subset, ?_, ?_, h.nodup, ?_⟩
  · intro f hf
    rcases List.mem_cons.mp hf with rfl | hf
    · exact h.marked (b, s :: todo) List.mem_cons_self
    · exact h.marked f (List.mem_cons_of_mem _ hf)
  · intro f hf
    rcases List.mem_cons.mp hf with rfl | hf
    · exact List.Subset.trans (List.subset_cons_self s todo)
        (h.todo (b, s :: todo) List.mem_cons_self)
    · exact h.todo f (List.mem_cons_of_mem _ hf)
  · rintro frame rest hstack
    cases hstack
    exact h.walk (b, s :: todo) stack rfl

theorem push (h : StackInv succs closed root ⟨vis, (b, todo) :: stack, fin⟩) (hsb : s ∈ succs b)
    (hs : s ∉ vis) :
    StackInv succs closed root ⟨insert s vis, (s, succs s) :: (b, todo) :: stack, fin⟩ := by
  have hopen : s ∉ closed := fun hmem => hs (h.subset hmem)
  refine ⟨h.subset.trans (Set.subset_insert _ _), ?_, ?_, List.nodup_cons.mpr ⟨?_, h.nodup⟩, ?_⟩
  · intro f hf
    rcases List.mem_cons.mp hf with rfl | hf
    · exact ⟨Set.mem_insert _ _, hopen⟩
    · exact ⟨Set.mem_insert_of_mem _ (h.marked f hf).1, (h.marked f hf).2⟩
  · intro f hf
    rcases List.mem_cons.mp hf with rfl | hf
    · exact List.Subset.refl _
    · exact h.todo f hf
  · intro hmem
    obtain ⟨f, hf, hfs⟩ := List.mem_map.mp hmem
    have hfs : f.1 = s := hfs
    exact hs (hfs ▸ (h.marked f hf).1)
  · rintro frame rest hstack
    cases hstack
    have hw := (h.walk _ _ rfl).snoc (c := s) ⟨hsb, hopen⟩
    simp only [State.path, List.map_cons, List.reverse_cons] at hw ⊢
    exact hw

/-- A step keeps the path: it ends the innermost visit, stays in it, or follows an open edge from it to
a vertex not marked before. -/
theorem step {st st' : State V} (h : StackInv succs closed root st) (hstep : Step succs st st') :
    StackInv succs closed root st' := by
  cases hstep with
  | finish => exact h.pop
  | skip hs => exact h.advance
  | enter hs =>
    exact h.advance.push (h.todo _ List.mem_cons_self List.mem_cons_self) hs

end StackInv

end JitLang.Graph
