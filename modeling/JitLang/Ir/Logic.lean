import JitLang.Foundations.Loops
import JitLang.Ir.Eval

/-! # Proving functions of the IR correct

A function is annotated block by block: `inv c k` is what holds of the environment when block `c` is
entered with at most `k` more blocks to come. The one proof obligation for a block runs the block alone.
Where the blocks are to be counted exactly, they are followed one by one (`goto_returns`, `ret_returns`).
-/

namespace JitLang.Ir.Eval
open Foundations Numbers
set_option autoImplicit false

variable [DoubleArith] {func : Function} {post : RVal → Prop}

/-! ## Reading and writing -/

omit [DoubleArith] in
theorem write_ok {env : Env} {v : Value} {x : RVal} (h : v.index < env.length) :
    write env v x = .ok (env.set v.index (some x)) := if_pos h

omit [DoubleArith] in
theorem read_set {env : Env} {i : ℕ} {x : RVal} {v : Value} (h : i < env.length) :
    Eval.read (env.set i (some x)) v = if v.index = i then .ok x else Eval.read env v := by
  unfold Eval.read
  by_cases hv : v.index = i
  · simp [hv, h]
  · rw [if_neg hv, List.getElem?_set_ne (Ne.symm hv)]

/-! ## The interpreter's loop -/

/-- A block is one round. -/
def round (func : Function) (s : Block × Env) : Except Stop (Round (Block × Env) RVal) := do
  match ← evalBlock func s.1 s.2 with
  | .ret r => return .stop r
  | .goto block env => return .next (block, env)

theorem round_eq_stop {s : Block × Env} {r : RVal} :
    round func s = .ok (.stop r) ↔ evalBlock func s.1 s.2 = .ok (.ret r) := by
  rw [round, bind_eq_ok]
  constructor
  · rintro ⟨exit, hblock, h⟩
    cases exit <;> cases h
    exact hblock
  · exact fun hblock => ⟨_, hblock, rfl⟩

theorem round_eq_next {s s' : Block × Env} :
    round func s = .ok (.next s') ↔ evalBlock func s.1 s.2 = .ok (.goto s'.1 s'.2) := by
  rw [round, bind_eq_ok]
  constructor
  · rintro ⟨exit, hblock, h⟩
    cases exit <;> cases h
    exact hblock
  · exact fun hblock => ⟨_, hblock, rfl⟩

theorem goto_returns {c c' : Block} {env env' : Env} {n : ℕ} {r : RVal}
    (h : evalBlock func c env = .ok (.goto c' env'))
    (htail : Loop.Returns (round func) (c', env') n r) :
    Loop.Returns (round func) (c, env) (n + 1) r := .next (round_eq_next.mpr h) htail

theorem ret_returns {c : Block} {env : Env} {r : RVal} (h : evalBlock func c env = .ok (.ret r)) :
    Loop.Returns (round func) (c, env) 1 r := .stop (round_eq_stop.mpr h)

theorem evalFrom_iff {fuel : ℕ} {block : Block} {env : Env} {r : RVal} :
    evalFrom func fuel block env = .ok r ↔
      ∃ n ≤ fuel, Loop.Returns (round func) (block, env) n r := by
  induction fuel generalizing block env with
  | zero =>
    constructor
    · intro h
      cases h
    · rintro ⟨n, hn, h⟩
      cases h <;> omega
  | succ fuel ih =>
    rw [evalFrom, bind_eq_ok]
    constructor
    · rintro ⟨exit, hblock, h⟩
      cases exit with
      | ret r' =>
        cases h
        exact ⟨1, by omega, ret_returns hblock⟩
      | goto block' env' =>
        obtain ⟨n, hn, htail⟩ := ih.mp h
        exact ⟨n + 1, by omega, goto_returns hblock htail⟩
    · rintro ⟨n, hn, h⟩
      cases h with
      | stop hround => exact ⟨_, round_eq_stop.mp hround, rfl⟩
      | next hround htail =>
        exact ⟨_, round_eq_next.mp hround, ih.mpr ⟨_, Nat.le_of_succ_le_succ hn, htail⟩⟩

theorem eval_iff {args : List RVal} {fuel : ℕ} {r : RVal} :
    eval func args fuel = .ok r ↔ ∃ env, start func args = .ok env ∧
      ∃ n ≤ fuel, Loop.Returns (round func) (func.entry, env) n r := by
  simp only [eval, bind_eq_ok, evalFrom_iff]

/-- The rounds of the loop are the blocks entered. -/
theorem enteredFrom_length {n fuel : ℕ} {s : Block × Env} {r : RVal}
    (h : Loop.Returns (round func) s n r) (hle : n ≤ fuel) :
    (enteredFrom func fuel s.1 s.2).length = n := by
  induction h generalizing fuel with
  | stop hround =>
    obtain ⟨fuel, rfl⟩ := Nat.exists_eq_add_of_le' hle
    simp [enteredFrom, round_eq_stop.mp hround]
  | next hround _ ih =>
    obtain ⟨fuel, rfl⟩ := Nat.exists_eq_add_of_le' (Nat.le_of_add_left_le hle)
    have hlen := ih (Nat.le_of_succ_le_succ hle)
    simp [enteredFrom, round_eq_next.mp hround, hlen]

/-- A larger bound on the blocks changes nothing about a result. -/
theorem eval_mono {args : List RVal} {fuel fuel' : ℕ} {r : RVal} (hle : fuel ≤ fuel')
    (h : eval func args fuel = .ok r) : eval func args fuel' = .ok r := by
  obtain ⟨env, hstart, n, hn, hreturns⟩ := eval_iff.mp h
  exact eval_iff.mpr ⟨env, hstart, n, hn.trans hle, hreturns⟩

theorem eval_unique {args : List RVal} {fuel fuel' : ℕ} {r r' : RVal} (h : eval func args fuel = .ok r)
    (h' : eval func args fuel' = .ok r') : r = r' := by
  obtain ⟨env, hstart, n, -, hreturns⟩ := eval_iff.mp h
  obtain ⟨env', hstart', n', -, hreturns'⟩ := eval_iff.mp h'
  obtain rfl := Except.ok.inj (hstart.symm.trans hstart')
  exact (hreturns.unique hreturns').2

/-! ## Annotations -/

/-- What is asked of the way a block is left. -/
def Leads (inv : Block → ℕ → Env → Prop) (post : RVal → Prop) (k : ℕ) : Exit → Prop
  | .ret r => post r
  | .goto block env => ∃ k' < k, inv block k' env

structure Annotated (func : Function) (post : RVal → Prop) where
  inv : Block → ℕ → Env → Prop
  block : ∀ c k env, inv c k env → Succeeds (evalBlock func c env) (Leads inv post k)

namespace Annotated

def loop (A : Annotated func post) : Loop.Annotation (round func) post where
  inv k s := A.inv s.1 k s.2
  round := by
    rintro k ⟨c, env⟩ h
    obtain ⟨exit, hblock, hleads⟩ := A.block c k env h
    cases exit with
    | ret r =>
      refine ⟨.stop r, round_eq_stop.mpr hblock, fun r' hr' => ?_, fun s' hs' => ?_⟩
      · cases hr'
        exact hleads
      · cases hs'
    | goto c' env' =>
      refine ⟨.next (c', env'), round_eq_next.mpr hblock, fun r' hr' => ?_, fun s' hs' => ?_⟩
      · cases hr'
      · cases hs'
        exact hleads

/-- Where the annotation holds at the start, the function returns within its bound. -/
theorem eval (A : Annotated func post) {args : List RVal} {k : ℕ}
    (h : Succeeds (start func args) (A.inv func.entry k)) :
    ∃ r, Eval.eval func args (k + 1) = .ok r ∧ post r := by
  obtain ⟨env, hstart, hinv⟩ := h
  obtain ⟨n, hn, r, hreturns, hpost⟩ := A.loop.returns (s := (func.entry, env)) hinv
  refine ⟨r, ?_, hpost⟩
  rw [Eval.eval, hstart, ok_bind]
  exact evalFrom_iff.mpr ⟨n, hn, hreturns⟩

end Annotated

end JitLang.Ir.Eval
