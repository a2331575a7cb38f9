import JitLang.Ir.StraightLine
import JitLang.Translate.Interpreter
import Mathlib.Algebra.BigOperators.Group.Finset.Basic

/-! # Straight-line functions, compiled

Whatever a front-end builds in the entry block, of whatever types, compiles if it is typed, and returns what
its instructions evaluate to from left to right (`straight_line_compiled`).
-/

namespace JitLang.Programs
open Foundations Numbers Ir Translate
open Ir.Eval (RVal)
set_option autoImplicit false

/-! ## Typed code evaluates -/

section Progress
variable [DoubleArith] {tys : List Ty} {values : List RVal}

omit [DoubleArith] in
theorem read_typed (hvalues : values.map typeOf = tys) {v : Value} {ty : Ty}
    (hty : tys[v.index]? = some ty) :
    ∃ x, Eval.read (values.map some) v = .ok x ∧ typeOf x = ty := by
  rw [← hvalues, List.getElem?_map, Option.map_eq_some_iff] at hty
  obtain ⟨x, hx, rfl⟩ := hty
  exact ⟨x, read_values hx, rfl⟩

/-- One instruction, by its operands. -/
theorem evalInst_typed (hvalues : values.map typeOf = tys) {inst : Inst} (h : inst.Fits tys) :
    ∃ x, Eval.evalInst (values.map some) inst = .ok x ∧ typeOf x = inst.result tys := by
  cases h with
  | iconst v => exact ⟨.int v, rfl, rfl⟩
  | fconst v => exact ⟨.float v, rfl, rfl⟩
  | bconst v => exact ⟨.bool v, rfl, rfl⟩
  | bin hop hlhs hrhs =>
    obtain ⟨l, hl, rfl⟩ := read_typed hvalues hlhs
    obtain ⟨r, hr, hrty⟩ := read_typed hvalues hrhs
    obtain ⟨x, hx, hxty⟩ := binary_typed hop hrty
    refine ⟨x, by rw [Eval.evalInst, hl, hr]; exact hx, ?_⟩
    rw [hxty, Inst.result, List.getD_eq_getElem?_getD, hlhs, Option.getD_some]
  | un hop hoperand =>
    obtain ⟨y, hy, rfl⟩ := read_typed hvalues hoperand
    obtain ⟨x, hx, hxty⟩ := unary_typed hop
    refine ⟨x, by rw [Eval.evalInst, hy]; exact hx, ?_⟩
    rw [hxty, Inst.result, List.getD_eq_getElem?_getD, hoperand, Option.getD_some]

theorem evalCode_typed {code : List Inst} (h : CodeTyped tys code) (hvalues : values.map typeOf = tys) :
    ∃ values', evalCode values code = .ok values' ∧ values'.map typeOf = typesAfter tys code := by
  induction h generalizing values with
  | nil tys => exact ⟨values, rfl, hvalues⟩
  | @cons tys inst code hfits _ ih =>
    obtain ⟨x, hx, hxty⟩ := evalInst_typed hvalues hfits
    have hnext : (values ++ [x]).map typeOf = tys ++ [inst.result tys] := by
      rw [List.map_append, hvalues, List.map_singleton, hxty]
    obtain ⟨values', heval, htypes⟩ := ih hnext
    refine ⟨values', ?_, htypes⟩
    rw [evalCode, List.foldlM_cons, evalNext, hx]
    exact heval

omit [DoubleArith] in
/-- No instruction makes a value of type `unit`. -/
theorem unit_not_mem_typesAfter {code : List Inst} (h : CodeTyped tys code) (hunit : Ty.unit ∉ tys) :
    Ty.unit ∉ typesAfter tys code := by
  induction h with
  | nil tys => exact hunit
  | @cons tys inst code hfits _ ih =>
    refine ih fun hmem => ?_
    rcases List.mem_append.mp hmem with hmem | hresult
    · exact hunit hmem
    · have hresult := (List.mem_singleton.mp hresult).symm
      cases hfits with
      | iconst | fconst | bconst => cases hresult
      | @bin op lhs rhs ty hop hlhs _ =>
        rw [Inst.result, List.getD_eq_getElem?_getD, hlhs, Option.getD_some] at hresult
        have hty : ty ≠ .unit := fun hty => hunit (hty ▸ List.mem_of_getElem? hlhs)
        cases op <;> first | exact hty hresult | cases hresult
      | un hop hoperand =>
        rw [Inst.result, List.getD_eq_getElem?_getD, hoperand, Option.getD_some] at hresult
        exact hunit (hresult ▸ List.mem_of_getElem? hoperand)

end Progress

/-! ## Compiled -/

section Compiled
variable [DoubleArith] {b : Builder}

theorem finish_compiles (value : Value) (isa : TargetIsa) (hcode : CodeTyped b.params b.code)
    (hret : (typesAfter b.params b.code)[value.index]? = some b.ret) (hunit : Ty.unit ∉ b.params) :
    ∃ clif, Translate.translate (b.finish value) isa = .ok clif ∧
      ∀ {args values : List RVal} {r : RVal}, args.map typeOf = b.params →
        evalCode args b.code = .ok values → values[value.index]? = some r → ∀ fuel,
          Eval.eval (b.finish value) args (fuel + 1) = .ok r ∧
          Cranelift.eval clif (args.flatMap encode) (fuel + 1) = .returned (encode r) := by
  have hparams : ¬ HasUnitParam (b.finish value) := by
    refine not_hasUnitParam hunit fun v hty => ?_
    have hty : (typesAfter b.params b.code)[v.index]? = some .unit := hty
    exact unit_not_mem_typesAfter hcode hunit (List.mem_of_getElem? hty)
  obtain ⟨clif, hclif, hreturns⟩ := translate_returns isa (Builder.valid hcode hret) hparams
  refine ⟨clif, hclif, fun {args values r} hargs heval hr fuel => ?_⟩
  have hlength : args.length = b.params.length := by rw [← hargs, List.length_map]
  have h := Builder.eval hlength heval hr fuel
  exact ⟨h, hreturns hargs h⟩

/-- Typed code compiles, and on arguments of the parameter types the compiled function returns what the code
evaluates to, a value of the declared type. -/
theorem straight_line_compiled (value : Value) (isa : TargetIsa) (hcode : CodeTyped b.params b.code)
    (hret : (typesAfter b.params b.code)[value.index]? = some b.ret) (hunit : Ty.unit ∉ b.params) :
    ∃ clif, Translate.translate (b.finish value) isa = .ok clif ∧
      ∀ args : List RVal, args.map typeOf = b.params →
        ∃ values r, evalCode args b.code = .ok values ∧ values[value.index]? = some r ∧
          typeOf r = b.ret ∧
          Cranelift.eval clif (args.flatMap encode) 1 = .returned (encode r) := by
  obtain ⟨clif, hclif, hreturns⟩ := finish_compiles value isa hcode hret hunit
  refine ⟨clif, hclif, fun args hargs => ?_⟩
  obtain ⟨values, heval, htypes⟩ := evalCode_typed hcode hargs
  rw [← htypes, List.getElem?_map, Option.map_eq_some_iff] at hret
  obtain ⟨r, hr, hty⟩ := hret
  exact ⟨values, r, heval, hr, hty, (hreturns hargs heval hr 0).2⟩

end Compiled

/-- `fn hypot_sq(a: float, b: float) -> float { a * a + b * b }` of `examples/floats.rs`. -/
def hypotSq : Builder :=
  ⟨[.float, .float], .float, [.bin .mul ⟨0⟩ ⟨0⟩, .bin .mul ⟨1⟩ ⟨1⟩, .bin .add ⟨2⟩ ⟨3⟩]⟩

theorem hypotSq_typed : CodeTyped hypotSq.params hypotSq.code :=
  .cons (.bin (.inr rfl) rfl rfl) (.cons (.bin (.inr rfl) rfl rfl)
    (.cons (.bin (.inr rfl) rfl rfl) (.nil _)))

/-- On the host's doubles; a NaN comes back as the one NaN of `hostDouble`. -/
theorem hypot_sq_compiled : ∃ clif, Translate.translate (hypotSq.finish ⟨4⟩) ⟨⟨0⟩⟩ = .ok clif ∧
    ∀ a b : BitVec 64, @Cranelift.eval clif hostDouble [.f64 a, .f64 b] 1 =
      .returned [.f64 (hostDouble.add (hostDouble.mul a a) (hostDouble.mul b b))] := by
  let _ := hostDouble
  obtain ⟨clif, hclif, hreturns⟩ :=
    straight_line_compiled ⟨4⟩ ⟨⟨0⟩⟩ hypotSq_typed rfl (by decide)
  refine ⟨clif, hclif, fun a b => ?_⟩
  obtain ⟨values, r, heval, hr, -, hrun⟩ := hreturns [.float a, .float b] rfl
  cases heval
  cases hr
  exact hrun

/-! ## A chain of additions -/

/-- A round of `straight_line` in `benches/bench.rs`: the accumulator and a constant are added. -/
def chainRound (s : Value × Builder) (i : ℕ) : Value × Builder :=
  let (c, b) := s.2.push (.iconst (.ofNat 64 i))
  b.push (.bin .add s.1 c)

def chain (n : ℕ) : Value × Builder :=
  (List.range n).foldl chainRound (⟨0⟩, .new [.int] .int)

/-- A single-block function of `n` `add` steps over one parameter. -/
def straightLine (n : ℕ) : Ir.Function := (chain n).2.finish (chain n).1

theorem chain_succ (n : ℕ) : chain (n + 1) = chainRound (chain n) n := by
  rw [chain, List.range_succ, List.foldl_append]
  rfl

/-- After `n` rounds there are `2 * n + 1` integers, the accumulator the last of them. -/
structure Chained (n : ℕ) (s : Value × Builder) : Prop where
  params : s.2.params = [.int]
  ret : s.2.ret = .int
  last : s.1.index = 2 * n
  count : s.2.code.length = 2 * n
  typed : CodeTyped s.2.params s.2.code
  types : typesAfter s.2.params s.2.code = List.replicate (2 * n + 1) .int

/-- A round emits a constant and an addition of the last two values. -/
theorem Chained.round {n : ℕ} {s : Value × Builder} (h : Chained n s) (i : ℕ) :
    chainRound s i = (⟨2 * n + 2⟩, { s.2 with
      code := s.2.code ++ [.iconst (.ofNat 64 i)] ++ [.bin .add s.1 ⟨2 * n + 1⟩] }) := by
  have hconst : s.2.params.length + s.2.code.length = 2 * n + 1 := by
    rw [h.params, h.count, List.length_singleton, Nat.add_comm]
  simp only [chainRound, Builder.push, List.length_append, List.length_singleton, ← Nat.add_assoc, hconst]

theorem chain_chained (n : ℕ) : Chained n (chain n) := by
  induction n with
  | zero => exact ⟨rfl, rfl, rfl, rfl, .nil _, rfl⟩
  | succ n ih =>
    rw [chain_succ, ih.round]
    have htypes : typesAfter (chain n).2.params ((chain n).2.code ++ [.iconst (.ofNat 64 n)]) =
        List.replicate (2 * n + 2) .int := by
      rw [typesAfter_snoc, ih.types]
      exact List.replicate_succ'.symm
    have hacc : (List.replicate (2 * n + 2) Ty.int)[(chain n).1.index]? = some .int := by
      simp [ih.last]
    have hconst : (List.replicate (2 * n + 2) Ty.int)[2 * n + 1]? = some .int := by simp
    refine ⟨ih.params, ih.ret, rfl, ?_, ?_, ?_⟩
    · simp only [List.length_append, List.length_singleton, ih.count]
      omega
    · refine (ih.typed.snoc (.iconst _)).snoc ?_
      rw [htypes]
      exact .bin (.inl rfl) hacc hconst
    · rw [typesAfter_snoc, htypes, Inst.result, List.getD_eq_getElem?_getD, hacc]
      exact List.replicate_succ'.symm

/-- What the rounds have added up. -/
theorem chain_evalCode [DoubleArith] (n : ℕ) (x : BitVec 64) :
    ∃ values, evalCode [.int x] (chain n).2.code = .ok values ∧ values.length = 2 * n + 1 ∧
      values[2 * n]? = some (.int (x + .ofNat 64 (∑ i ∈ Finset.range n, i))) := by
  induction n with
  | zero => exact ⟨[.int x], rfl, rfl, by simp⟩
  | succ n ih =>
    obtain ⟨values, heval, hlength, hlast⟩ := ih
    have hchained := chain_chained n
    have hconst : evalCode [.int x] ((chain n).2.code ++ [.iconst (.ofNat 64 n)]) =
        .ok (values ++ [.int (.ofNat 64 n)]) := evalCode_snoc heval rfl
    have hacc : Eval.read ((values ++ [RVal.int (.ofNat 64 n)]).map some) (chain n).1 =
        .ok (.int (x + .ofNat 64 (∑ i ∈ Finset.range n, i))) := by
      refine read_values ?_
      rw [hchained.last, List.getElem?_append_left (by omega), hlast]
    have hnew : Eval.read ((values ++ [RVal.int (.ofNat 64 n)]).map some) ⟨2 * n + 1⟩ =
        .ok (.int (.ofNat 64 n)) := by
      refine read_values ?_
      rw [← hlength, List.getElem?_concat_length]
    have hadd : Eval.evalInst ((values ++ [RVal.int (.ofNat 64 n)]).map some)
        (.bin .add (chain n).1 ⟨2 * n + 1⟩) =
          .ok (.int (x + .ofNat 64 (∑ i ∈ Finset.range n, i) + .ofNat 64 n)) := by
      rw [Eval.evalInst, hacc, hnew]
      rfl
    rw [chain_succ, hchained.round]
    refine ⟨_, evalCode_snoc hconst hadd, ?_, ?_⟩
    · simp [hlength]
      omega
    · rw [Finset.sum_range_succ, BitVec.ofNat_add, ← BitVec.add_assoc]
      simp [hlength, Nat.mul_succ]

/-- Compiled, the chain of `n` additions adds the numbers below `n` to its argument. -/
theorem chain_compiled [DoubleArith] (n : ℕ) (isa : TargetIsa) :
    ∃ clif, Translate.translate (straightLine n) isa = .ok clif ∧ ∀ x : BitVec 64,
      Cranelift.eval clif [.i64 x] 1 =
        .returned [.i64 (x + .ofNat 64 (∑ i ∈ Finset.range n, i))] := by
  have h := chain_chained n
  have hret : (typesAfter (chain n).2.params (chain n).2.code)[(chain n).1.index]? =
      some (chain n).2.ret := by
    rw [h.types, h.ret, h.last]
    simp
  obtain ⟨clif, hclif, hreturns⟩ := finish_compiles (chain n).1 isa h.typed hret (by simp [h.params])
  refine ⟨clif, hclif, fun x => ?_⟩
  obtain ⟨values, heval, -, hlast⟩ := chain_evalCode n x
  exact (hreturns (by rw [h.params]; rfl) heval (h.last.symm ▸ hlast) 0).2

end JitLang.Programs
