import JitLang.Foundations.Except
import JitLang.Foundations.Lists
import JitLang.Graph.DepthFirst
import JitLang.Ir.Validity
import JitLang.Translate.Traversal
import Mathlib.Data.Set.Finite.Basic
import Mathlib.Data.Finite.Defs
import Mathlib.Data.List.Perm.Subperm

/-! # What `reachable_rpo` returns

The loop refines the stack machine of `JitLang.Graph.DepthFirst`, with the out-of-range handles closed
from the start: `Refines` reads the visited table as a set and a frame's cursor as the list of
successors left (`rpoStep_refines`). A recursive search is an exact run of that machine, so the loop
ends within its bound and answers what the search finishes (`reachableRpo_search`). The order facts
the translator lives on are collected in `RpoOrder`.
-/

namespace JitLang.Translate
open Ir JitLang.Graph Foundations
set_option autoImplicit false

variable {func : Function}

/-! ## The loop refines the stack machine -/

/-- The handles the search never enters. -/
def outside (func : Function) : Set Block := {b | ¬ func.InRange b}

/-- The loop's variables represent a state of the stack machine. -/
structure Refines (func : Function) (st : RpoState) (a : State Block) : Prop where
  table : st.visited.length = func.blockCount
  visited : ∀ b, b ∈ a.visited ↔ ¬ func.InRange b ∨ st.visited[b.index]? = some true
  stack : a.stack = st.stack.map fun frame => (frame.block, frame.succs.drop frame.next)
  finished : a.finished = st.order.reverse

theorem rpoStep_finish {st : RpoState} {top : Frame} {rest : List Frame}
    (hstack : st.stack = top :: rest) (hdrop : top.succs.drop top.next = []) :
    rpoStep func st = .ok { st with order := st.order ++ [top.block], stack := rest } := by
  have hnext : ¬ top.next < top.succs.length := by
    rw [List.drop_eq_nil_iff] at hdrop
    omega
  simp [rpoStep, hstack, hnext]

/-- With a successor left, an iteration advances the cursor and enters the successor if it is in range
and not yet visited. -/
theorem rpoStep_successor {st : RpoState} {top : Frame} {rest : List Frame} {s : Block}
    {todo : List Block} (hstack : st.stack = top :: rest)
    (hdrop : top.succs.drop top.next = s :: todo) (hlen : st.visited.length = func.blockCount) :
    rpoStep func st = .ok
      (if func.InRange s ∧ st.visited[s.index]? = some false then
        { st with visited := st.visited.set s.index true
                  stack := ⟨s, succsOf func s, 0⟩ :: { top with next := top.next + 1 } :: rest }
      else { st with stack := { top with next := top.next + 1 } :: rest }) := by
  have hget : top.succs[top.next]? = some s := getElem?_of_drop hdrop
  have hread : readIndex top.succs top.next = .ok s := readIndex_of_some hget
  obtain ⟨hnext, -⟩ := List.getElem?_eq_some_iff.mp hget
  by_cases hin : s.index < func.blockCount
  · have hbound : s.index < st.visited.length := by omega
    have hseen := readIndex_of_some (List.getElem?_eq_getElem hbound)
    have hwrite := writeIndex_of_lt true hbound
    cases hbit : st.visited[s.index] <;>
      simp [rpoStep, hstack, hnext, hread, hin, hseen, hwrite, hbound, hbit, Function.InRange]
  · simp [rpoStep, hstack, hnext, hread, hin, Function.InRange]

/-- One step of the stack machine is one iteration of the loop, which does not panic. -/
theorem rpoStep_refines {st : RpoState} {a a' : State Block} (h : Refines func st a)
    (hstep : Step (succsOf func) a a') :
    ∃ st', rpoStep func st = .ok st' ∧ Refines func st' a' := by
  obtain ⟨hlen, hvis, hstack, hfin⟩ := h
  cases hst : st.stack with
  | nil => rw [hst] at hstack; cases hstep <;> cases hstack
  | cons top rest =>
    rw [hst] at hstack
    cases hstep with
    | @finish vis b stack fin =>
      obtain ⟨⟨rfl, hdrop⟩, rfl⟩ := by simpa [-List.nil_eq, -List.drop_eq_nil_iff] using hstack
      refine ⟨_, rpoStep_finish hst hdrop.symm, hlen, hvis, rfl, ?_⟩
      simp only [List.reverse_append, List.reverse_singleton, List.singleton_append]
      rw [← hfin]
    | @skip vis b s todo stack fin hs =>
      obtain ⟨⟨rfl, hdrop⟩, rfl⟩ := by simpa using hstack
      have hseen : ¬ (func.InRange s ∧ st.visited[s.index]? = some false) := by
        rintro ⟨hin, hfalse⟩
        rcases (hvis s).mp hs with hout | htrue
        · exact hout hin
        · rw [hfalse] at htrue; cases htrue
      refine ⟨_, rpoStep_successor hst hdrop.symm hlen, ?_⟩
      rw [if_neg hseen]
      refine ⟨hlen, hvis, ?_, hfin⟩
      simp [drop_succ_of_drop hdrop.symm]
    | @enter vis b s todo stack fin hs =>
      obtain ⟨⟨rfl, hdrop⟩, rfl⟩ := by simpa using hstack
      have hnot : ¬ (¬ func.InRange s ∨ st.visited[s.index]? = some true) := fun h => hs ((hvis s).mpr h)
      push Not at hnot
      obtain ⟨hin, htrue⟩ := hnot
      have hbound : s.index < st.visited.length := by rw [hlen]; exact hin
      have hfalse : st.visited[s.index]? = some false := by
        rw [List.getElem?_eq_getElem hbound] at htrue ⊢
        cases hb : st.visited[s.index] with
        | false => rfl
        | true => exact absurd (by rw [hb]) htrue
      refine ⟨_, rpoStep_successor hst hdrop.symm hlen, ?_⟩
      rw [if_pos ⟨hin, hfalse⟩]
      refine ⟨by simpa using hlen, ?_, ?_, hfin⟩
      · intro x
        rw [Set.mem_insert_iff, hvis, List.getElem?_set]
        by_cases hx : s.index = x.index
        · obtain rfl : s = x := Block.ext hx
          simp [hbound]
        · have hne : x ≠ s := fun h => hx (by rw [h])
          simp [hx, hne]
      · simp [drop_succ_of_drop hdrop.symm]

/-- A run of the stack machine that empties the stack is a run of the loop: with fuel for it the loop
ends where it does, with less it runs out. -/
theorem rpoLoop_of_runs {n : ℕ} {a a' : State Block} (hruns : Runs (succsOf func) n a a')
    (hend : a'.stack = []) {st : RpoState} (h : Refines func st a) :
    ∃ st', Refines func st' a' ∧
      ∀ fuel, rpoLoop func fuel st = if n ≤ fuel then .ok st' else .error .outOfFuel := by
  induction hruns generalizing st with
  | refl c =>
    have hempty : st.stack = [] := by simpa [hend] using h.stack.symm
    refine ⟨st, h, fun fuel => ?_⟩
    cases fuel <;> simp [rpoLoop, hempty]
  | @head n c c' d hs _ ih =>
    obtain ⟨st₁, hst₁, h₁⟩ := rpoStep_refines h hs
    obtain ⟨st', h', hloop⟩ := ih hend h₁
    have hne : st.stack ≠ [] := by
      intro hempty
      rw [rpoStep, hempty] at hst₁
      cases hst₁
    refine ⟨st', h', fun fuel => ?_⟩
    cases fuel with
    | zero => simp [rpoLoop, hne]
    | succ fuel => simp [rpoLoop, hne, hst₁, hloop]

/-! ## The bound on the loop suffices -/

theorem succsOf_length_le (func : Function) (b : Block) : (succsOf func b).length ≤ 2 := by
  unfold succsOf
  cases func.terminator b with
  | none => simp
  | some term => exact term.successors_length_le

theorem cost_succsOf_le (func : Function) (out : List Block) :
    cost (succsOf func) out ≤ 3 * out.length := by
  induction out with
  | nil => simp [cost]
  | cons b out ih =>
    have h := succsOf_length_le func b
    simp only [cost, List.map_cons, List.sum_cons, List.length_cons] at ih ⊢
    omega

theorem length_le_blockCount {out : List Block} (hnodup : out.Nodup)
    (hin : ∀ b ∈ out, func.InRange b) : out.length ≤ func.blockCount := by
  have hinj : Function.Injective Block.index := fun _ _ h => Block.ext h
  have hsub : out.map Block.index ⊆ List.range func.blockCount := by
    intro i hi
    obtain ⟨b, hb, rfl⟩ := List.mem_map.mp hi
    exact List.mem_range.mpr (hin b hb)
  have h := ((hnodup.map hinj).subperm hsub).length_le
  simpa using h

theorem finite_inRange (func : Function) : ((outside func)ᶜ).Finite := by
  have himage : (outside func)ᶜ ⊆ Block.mk '' {i | i < func.blockCount} := by
    rintro ⟨i⟩ hi
    exact ⟨i, by simpa [outside, Function.InRange] using hi, rfl⟩
  exact ((Set.finite_lt_nat func.blockCount).image _).subset himage

/-! ## The answer -/

/-- The loop's variables before its first iteration, the entry being in range. -/
def rpoStart (func : Function) : RpoState :=
  ⟨(List.replicate func.blockCount false).set func.entry.index true,
    [⟨func.entry, succsOf func func.entry, 0⟩], []⟩

theorem rpoStart_refines (hentry : func.InRange func.entry) : Refines func (rpoStart func)
    ⟨insert func.entry (outside func), [(func.entry, succsOf func func.entry)], []⟩ := by
  refine ⟨by simp [rpoStart], ?_, rfl, rfl⟩
  intro b
  rw [Set.mem_insert_iff, rpoStart, List.getElem?_set]
  by_cases hb : func.entry.index = b.index
  · obtain rfl : func.entry = b := Block.ext hb
    have hlt : func.entry.index < func.blockCount := hentry
    simp [hlt]
  · have hne : b ≠ func.entry := fun h => hb (by rw [h])
    simp [hne, hb, outside, List.getElem?_replicate]

theorem reachableRpo_eq (hentry : func.InRange func.entry) : reachableRpo func = do
    let st ← rpoLoop func (3 * func.blockCount) (rpoStart func)
    return st.order.reverse := by
  have hrange : ¬ func.blockCount ≤ func.entry.index := Nat.not_le.mpr hentry
  have hwrite : writeIndex (List.replicate func.blockCount false) func.entry.index true =
      .ok ((List.replicate func.blockCount false).set func.entry.index true) :=
    writeIndex_of_lt true (by rw [List.length_replicate]; exact hentry)
  simp only [reachableRpo, hrange, if_false, hwrite, ok_bind, rpoStart]

theorem inRange_of_search {vis : Set Block} {out : List Block}
    (hsearch : Search (succsOf func) (outside func) [func.entry] vis out) :
    ∀ b ∈ out, func.InRange b := fun b hb => by
  simpa [outside] using hsearch.fresh b hb

theorem cost_le_bound {vis : Set Block} {out : List Block}
    (hsearch : Search (succsOf func) (outside func) [func.entry] vis out) :
    cost (succsOf func) out ≤ 3 * func.blockCount :=
  (cost_succsOf_le func out).trans (Nat.mul_le_mul_left 3
    (length_le_blockCount hsearch.nodup (inRange_of_search hsearch)))

/-- With the entry in range, the answer is what a recursive search from the entry finishes. -/
theorem reachableRpo_search (hentry : func.InRange func.entry) :
    ∃ vis out, Search (succsOf func) (outside func) [func.entry] vis out ∧
      reachableRpo func = .ok out := by
  obtain ⟨vis, out, hsearch⟩ := Search.exists_of_finite (succsOf func) _ (outside func)
    (finite_inRange func) le_rfl [func.entry]
  have hopen : func.entry ∉ outside func := fun h => h hentry
  obtain ⟨st, href, hloop⟩ := rpoLoop_of_runs (hsearch.runs_root hopen) rfl (rpoStart_refines hentry)
  have hout : out = st.order.reverse := href.finished
  refine ⟨vis, out, hsearch, ?_⟩
  rw [reachableRpo_eq hentry, hloop, if_pos (cost_le_bound hsearch), ok_bind, pure_eq_ok, hout]

/-! ## The order facts -/

/-- `order` lists the reachable blocks once each, the entry first, dominators before what they
dominate. -/
structure RpoOrder (func : Function) (order : List Block) : Prop where
  nodup : order.Nodup
  mem_iff : ∀ b, b ∈ order ↔ func.Reachable b
  entry_first : ∃ rest, order = func.entry :: rest
  dominator_first : ∀ d b, d ≠ b → func.Reachable b → func.Dominates d b → [d, b].Sublist order

theorem mem_succsOf {b s : Block} :
    s ∈ succsOf func b ↔ ∃ term, func.terminator b = some term ∧ s ∈ term.successors := by
  unfold succsOf
  cases func.terminator b <;> simp

theorem open_eq_edge (func : Function) : Open (succsOf func) (outside func) = func.Edge := by
  funext b s
  simp only [Open, outside, Set.mem_ofPred_eq, not_not, mem_succsOf, Function.Edge, eq_iff_iff]
  constructor
  · rintro ⟨⟨term, hterm, hs⟩, hin⟩
    exact ⟨term, hterm, hs, hin⟩
  · rintro ⟨term, hterm, hs, hin⟩
    exact ⟨⟨term, hterm, hs⟩, hin⟩

theorem reachableRpo_order (hentry : func.InRange func.entry) :
    ∃ order, reachableRpo func = .ok order ∧ RpoOrder func order := by
  obtain ⟨vis, out, hsearch, hrpo⟩ := reachableRpo_search hentry
  have hopen : func.entry ∉ outside func := fun h => h hentry
  have hmem : ∀ b, b ∈ out ↔ func.Reachable b := by
    intro b
    rw [hsearch.mem_iff_reaches hopen, open_eq_edge, Function.Reachable, and_iff_right hentry]
  refine ⟨out, hrpo, hsearch.nodup, hmem, hsearch.root_first hopen, ?_⟩
  intro d b hne hb hd
  exact hsearch.dominator_first ((hmem b).mpr hb) (by rw [open_eq_edge]; exact hd) hne

theorem reachableRpo_out_of_range (hentry : ¬ func.InRange func.entry) :
    reachableRpo func = .ok [] := by
  have h : func.blockCount ≤ func.entry.index := Nat.not_lt.mp hentry
  simp [reachableRpo, h]

/-- The list holds exactly the reachable blocks, once each; it is empty exactly when the entry is out
of range, and otherwise starts with the entry. No validity is assumed. -/
theorem reachableRpo_exact (func : Function) :
    ∃ order, reachableRpo func = .ok order ∧ order.Nodup ∧
      (∀ b, b ∈ order ↔ func.InRange b ∧ func.Reachable b) ∧
      (order = [] ↔ ¬ func.InRange func.entry) ∧
      (func.InRange func.entry → order.head? = some func.entry) := by
  by_cases hentry : func.InRange func.entry
  · obtain ⟨order, hrpo, horder⟩ := reachableRpo_order hentry
    obtain ⟨rest, hrest⟩ := horder.entry_first
    refine ⟨order, hrpo, horder.nodup, ?_, ?_, fun _ => by rw [hrest]; rfl⟩
    · intro b
      rw [horder.mem_iff b]
      exact ⟨fun h => ⟨h.inRange, h⟩, fun h => h.2⟩
    · simp [hrest, hentry]
  · refine ⟨[], reachableRpo_out_of_range hentry, List.nodup_nil, ?_, by simp [hentry],
      fun h => absurd h hentry⟩
    intro b
    simp only [List.not_mem_nil, false_iff, not_and]
    exact fun _ h => hentry h.1

theorem idxOf_lt_of_sublist {l : List Block} {d b : Block} (hnodup : l.Nodup)
    (h : [d, b].Sublist l) : l.idxOf d < l.idxOf b := by
  induction l with
  | nil => cases h
  | cons x l ih =>
    obtain ⟨hx, hl⟩ := List.nodup_cons.mp hnodup
    cases h with
    | cons _ h =>
      have hd : x ≠ d := fun e => hx (e ▸ h.subset List.mem_cons_self)
      have hb : x ≠ b := fun e => hx (e ▸ h.subset (by simp))
      rw [List.idxOf_cons_ne l hd, List.idxOf_cons_ne l hb]
      exact Nat.succ_lt_succ (ih hl h)
    | cons_cons _ h =>
      have hb : d ≠ b := fun e => hx (e ▸ List.singleton_sublist.mp h)
      rw [List.idxOf_cons_self, List.idxOf_cons_ne l hb]
      exact Nat.succ_pos _

/-- A block that dominates another stands before it in the list, on any graph. -/
theorem reachableRpo_dominator_first {d b : Block} (hne : d ≠ b) (hd : func.Reachable d)
    (hb : func.Reachable b) (hdom : ∀ p, IsWalk func.Edge func.entry b p → d ∈ p) :
    ∃ order, reachableRpo func = .ok order ∧ d ∈ order ∧ b ∈ order ∧
      order.idxOf d < order.idxOf b := by
  obtain ⟨order, hrpo, horder⟩ := reachableRpo_order hd.1
  exact ⟨order, hrpo, (horder.mem_iff d).mpr hd, (horder.mem_iff b).mpr hb,
    idxOf_lt_of_sublist horder.nodup (horder.dominator_first d b hne hb hdom)⟩

theorem halvings_header_first : ∃ order, reachableRpo halvings = .ok order ∧ ⟨1⟩ ∈ order ∧
    ⟨2⟩ ∈ order ∧ order.idxOf ⟨1⟩ < order.idxOf ⟨2⟩ :=
  reachableRpo_dominator_first (by decide) halvings.reachable_header halvings.reachable_body
    (halvings.header_dominates (.inl rfl))

end JitLang.Translate
