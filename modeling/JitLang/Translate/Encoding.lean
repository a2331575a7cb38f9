import JitLang.Cranelift.StraightLine
import JitLang.Ir.Eval
import JitLang.Numbers.Division
import JitLang.Translate.Lowering

/-! # The machine values of reference values, and the code of one instruction

`encode` gives the machine values that stand for a value of the reference interpreter. The code an
instruction lowers to, on operands that encode the interpreter's operands, leaves the encoding of the
interpreter's result (`lowerInst_computes`); the nine instructions of the guarded division are one
case of it (`intDivCode_computes`).
-/

namespace JitLang.Translate
open Foundations Cranelift Numbers
open Ir.Eval (RVal Stop)
set_option autoImplicit false

/-! ## Encoding -/

def typeOf : RVal → Ir.Ty
  | .int _ => .int
  | .float _ => .float
  | .bool _ => .bool
  | .unit => .unit

/-- An `int` is its 64 bits, a `bool` the byte `0` or `1`, `unit` no value at all. -/
def encode : RVal → List Val
  | .int v => [.i64 v]
  | .float v => [.f64 v]
  | .bool v => [.ofBool v]
  | .unit => []

/-- `x` is the one machine value of `r`, which has type `ty`. -/
inductive Encodes : Ir.Ty → RVal → Val → Prop
  | int (v : BitVec 64) : Encodes .int (.int v) (.i64 v)
  | float (v : BitVec 64) : Encodes .float (.float v) (.f64 v)
  | bool (v : Bool) : Encodes .bool (.bool v) (.ofBool v)

theorem Encodes.encode {ty : Ir.Ty} {r : RVal} {x : Val} (h : Encodes ty r x) : encode r = [x] := by
  cases h <;> rfl

theorem Encodes.machineTy {ty : Ir.Ty} {r : RVal} {x : Val} (h : Encodes ty r x) :
    machineTy ty = some x.ty := by
  cases h <;> rfl

theorem exists_encodes {r : RVal} (h : typeOf r ≠ .unit) : ∃ x, Encodes (typeOf r) r x := by
  cases r with
  | int v => exact ⟨_, .int v⟩
  | float v => exact ⟨_, .float v⟩
  | bool v => exact ⟨_, .bool v⟩
  | unit => exact absurd rfl h

theorem encodes_args {rs : List RVal} (h : Ir.Ty.unit ∉ rs.map typeOf) :
    List.Forall₂ (fun r x => Encodes (typeOf r) r x) rs (rs.flatMap encode) := by
  induction rs with
  | nil => exact .nil
  | cons r rs ih =>
    obtain ⟨hne, hunit⟩ := not_or.mp (List.mem_cons.not.mp h)
    obtain ⟨x, hx⟩ := exists_encodes (Ne.symm hne)
    rw [List.flatMap_cons, hx.encode]
    exact .cons hx (ih hunit)

/-! ## The guarded division -/

/-- The guard: the instructions of the division up to the one that selects its divisor. -/
def intDivGuard (r : Cranelift.Value) (n : ℕ) : List Cranelift.Inst :=
  [.iconst .i64 1, .binary .iadd r ⟨n⟩, .iconst .i64 1,
    .icmp .unsignedLessThanOrEqual ⟨n + 1⟩ ⟨n + 2⟩, .iconst .i64 1, .select ⟨n + 3⟩ ⟨n + 4⟩ r]

theorem intDivCode_eq (l r : Cranelift.Value) (n : ℕ) : intDivCode l r n = intDivGuard r n ++
    [.binary .sdiv l ⟨n + 5⟩, .binary .imul l r, .select ⟨n + 3⟩ ⟨n + 7⟩ ⟨n + 6⟩] := rfl

section Code
variable [DoubleArith] {env : Env} {x y : Cranelift.Value} {n : ℕ}

theorem intDivGuard_run {r : Cranelift.Value} {b : BitVec 64} (hr : env r = some (.i64 b))
    (hrn : r.index < n) :
    ∃ env', runCode n (intDivGuard r n) env = .ok env' ∧
      env' ⟨n + 3⟩ = some (.ofBool ((b + 1).ule 1)) ∧ env' ⟨n + 5⟩ = some (.i64 (safeDivisor b)) := by
  have hr := read_of_some hr
  let env₁ := env.set ⟨n⟩ (.i64 1)
  let env₂ := env₁.set ⟨n + 1⟩ (.i64 (b + 1))
  let env₃ := env₂.set ⟨n + 2⟩ (.i64 1)
  let env₄ := env₃.set ⟨n + 3⟩ (.ofBool ((b + 1).ule 1))
  let env₅ := env₄.set ⟨n + 4⟩ (.i64 1)
  have hspecial : env₅ ⟨n + 3⟩ = some (.ofBool ((b + 1).ule 1)) := by
    simp [env₅, env₄, Env.set]
  have s1 : evalInst env (.iconst .i64 1) = .ok (.i64 1) := rfl
  have s2 : evalInst env₁ (.binary .iadd r ⟨n⟩) = .ok (.i64 (b + 1)) := by
    simp (disch := (dsimp only; omega)) only [evalInst, env₁, read_set_self, read_set_of_ne, hr, ok_bind]
    rfl
  have s3 : evalInst env₂ (.iconst .i64 1) = .ok (.i64 1) := rfl
  have s4 : evalInst env₃ (.icmp .unsignedLessThanOrEqual ⟨n + 1⟩ ⟨n + 2⟩) =
      .ok (.ofBool ((b + 1).ule 1)) := by
    simp (disch := (dsimp only; omega)) only [evalInst, env₃, env₂, read_set_self, read_set_of_ne, ok_bind]
    rfl
  have s5 : evalInst env₄ (.iconst .i64 1) = .ok (.i64 1) := rfl
  have s6 : evalInst env₅ (.select ⟨n + 3⟩ ⟨n + 4⟩ r) = .ok (.i64 (safeDivisor b)) := by
    simp (disch := (dsimp only; omega)) only [evalInst, env₅, env₄, env₃, env₂, env₁, read_set_self,
      read_set_of_ne, hr, truthy_ofBool, ok_bind, pure_eq_ok, safeDivisor]
    split_ifs <;> rfl
  refine ⟨env₅.set ⟨n + 5⟩ (.i64 (safeDivisor b)), ?_, ?_, Env.set_self _ _ _⟩
  · simp only [intDivGuard, runCode, s1, s2, s3, s4, s5, s6, ok_bind, env₁, env₂, env₃, env₄, env₅]
  · rw [Env.set_ne _ _ (by simp), hspecial]

/-- The guarded division computes the interpreter's quotient. -/
theorem intDivCode_computes {l r : Cranelift.Value} {a b : BitVec 64} (hl : env l = some (.i64 a))
    (hr : env r = some (.i64 b)) (hln : l.index < n) (hrn : r.index < n) :
    Computes env n (intDivCode l r n) (.i64 (Ir.Eval.intDiv a b)) := by
  have hquotient : Ir.Eval.intDiv a b =
      if (b + 1).ule 1 then a * b else a.sdiv (safeDivisor b) := (guarded_quotient a b).symm
  have hguard := safeDivisor_admissible (by decide) a b
  obtain ⟨env', hrun, hspecial, hdivisor⟩ := intDivGuard_run hr hrn
  have hl := read_of_some ((runCode_frame hrun (.inl hln)).trans hl)
  have hr := read_of_some ((runCode_frame hrun (.inl hrn)).trans hr)
  have hspecial := read_of_some hspecial
  have hdivisor := read_of_some hdivisor
  rw [intDivCode_eq]
  refine .append hrun (by simp) ?_
  rw [show n + (intDivGuard r n).length = n + 6 from rfl]
  -- Each instruction reads past the values before it.
  refine .cons (x := .i64 (a.sdiv (safeDivisor b))) ?_ (by simp) <|
    .cons (x := .i64 (a * b)) ?_ (by simp) <| .single ?_ _
  all_goals
    simp (disch := (dsimp only; omega)) only [evalInst, read_set_self, read_set_of_ne, hl, hr,
      hspecial, hdivisor, ok_bind, truthy_ofBool, pure_eq_ok]
  · rw [BinaryOp.eval, BinaryOp.evalInt, if_neg hguard]
    rfl
  · rfl
  · rw [hquotient]
    split_ifs <;> rfl

/-! ## The operators -/

/-- On `int`s the interpreter orders by the signed reading of the bits, as `icmp` does. -/
theorem ordering_int (a b : BitVec 64) :
    Ir.Eval.ordering .lt (.int a) (.int b) = .ok (.bool (IntCC.signedLessThan.holds a b)) ∧
    Ir.Eval.ordering .le (.int a) (.int b) = .ok (.bool (IntCC.signedLessThanOrEqual.holds a b)) ∧
    Ir.Eval.ordering .gt (.int a) (.int b) = .ok (.bool (IntCC.signedGreaterThan.holds a b)) ∧
    Ir.Eval.ordering .ge (.int a) (.int b) =
      .ok (.bool (IntCC.signedGreaterThanOrEqual.holds a b)) := by
  simp only [Ir.Eval.ordering, Ir.Eval.compare, IntCC.holds, BitVec.slt, BitVec.sle]
  rcases lt_trichotomy a.toInt b.toInt with h | h | h
  · rw [compare_lt_iff_lt.mpr h]
    simp [Except.map, h, h.le, h.not_gt]
  · rw [compare_eq_iff_eq.mpr h]
    simp [Except.map, h]
  · rw [compare_gt_iff_gt.mpr h]
    simp [Except.map, h, h.le, h.not_gt]

theorem binCode_computes {op : Ir.BinOp} {ty : Ir.Ty} (hop : op.Accepts ty) {lhs rhs : RVal}
    {l r : Cranelift.Value} {p q : Val} (hl : env l = some p) (hr : env r = some q)
    (hp : Encodes ty lhs p) (hq : Encodes ty rhs q) (hln : l.index < n) (hrn : r.index < n) :
    ∃ res z, Ir.Eval.binary op lhs rhs = .ok res ∧ Encodes (op.result ty) res z ∧
      Computes env n (binCode op l r ty n) z := by
  cases hp with
  | int a =>
    cases hq with
    | int b =>
      obtain ⟨hlt, hle, hgt, hge⟩ := ordering_int a b
      cases op with
      | add | sub | mul =>
        exact ⟨_, _, rfl, .int _, .single (evalInst_binary hl hr _) n⟩
      | div => exact ⟨_, _, rfl, .int _, intDivCode_computes hl hr hln hrn⟩
      | eq | ne => exact ⟨_, _, rfl, .bool _, .single (evalInst_icmp hl hr _) n⟩
      | lt => exact ⟨_, _, hlt, .bool _, .single (evalInst_icmp hl hr _) n⟩
      | le => exact ⟨_, _, hle, .bool _, .single (evalInst_icmp hl hr _) n⟩
      | gt => exact ⟨_, _, hgt, .bool _, .single (evalInst_icmp hl hr _) n⟩
      | ge => exact ⟨_, _, hge, .bool _, .single (evalInst_icmp hl hr _) n⟩
      | and | or => cases hop
  | float a =>
    cases hq with
    | float b =>
      cases op with
      | add | sub | mul | div =>
        exact ⟨_, _, rfl, .float _, .single (evalInst_binary hl hr _) n⟩
      | eq | ne | lt | le | gt | ge =>
        exact ⟨_, _, rfl, .bool _, .single (evalInst_fcmp hl hr _) n⟩
      | and | or => cases hop
  | bool a =>
    cases hq with
    | bool b =>
      cases op with
      | eq => exact ⟨_, _, rfl, .bool _, .single (evalInst_equal hl hr) n⟩
      | ne => exact ⟨_, _, rfl, .bool _, .single (evalInst_notEqual hl hr) n⟩
      | and =>
        have heval : Ir.Eval.binary .and (.bool a) (.bool b) = .ok (.bool (a && b)) := by
          cases a <;> rfl
        exact ⟨_, _, heval, .bool _, .single (evalInst_band hl hr) n⟩
      | or =>
        have heval : Ir.Eval.binary .or (.bool a) (.bool b) = .ok (.bool (a || b)) := by
          cases a <;> rfl
        exact ⟨_, _, heval, .bool _, .single (evalInst_bor hl hr) n⟩
      | _ => rcases hop with h | h <;> cases h

theorem unCode_computes {op : Ir.UnOp} {ty : Ir.Ty} (hop : op.Accepts ty) {operand : RVal}
    {x : Cranelift.Value} {p : Val} (hx : env x = some p) (hp : Encodes ty operand p)
    (hxn : x.index < n) :
    ∃ res z, Ir.Eval.unary op operand = .ok res ∧ Encodes ty res z ∧
      Computes env n (unCode op x ty n) z := by
  cases op with
  | neg =>
    cases hp with
    | int a => exact ⟨_, _, rfl, .int _, .single (evalInst_unary hx _) n⟩
    | float a => exact ⟨_, _, rfl, .float _, .single (evalInst_unary hx _) n⟩
    | bool a => rcases hop with h | h <;> cases h
  | not =>
    cases hp with
    | bool a =>
      have hx' : env.set ⟨n⟩ (.ofBool true) x = some (.ofBool a) := by
        rw [Env.set_ne _ _ fun e => by rw [e] at hxn; exact hxn.false, hx]
      refine ⟨_, _, rfl, .bool (!a), .cons (x := .ofBool true) rfl (by simp) <| .single ?_ _⟩
      rw [evalInst_bxor hx' (Env.set_self _ _ _), Bool.xor_true]
    | int | float => cases hop

/-! ## One instruction -/

/-- `v` holds a value in both worlds, of its type and the one encoding the other; its stand-in is
numbered below `n`. -/
def Operand (func : Ir.Function) (V : Ir.Value → Option Cranelift.Value) (n : ℕ)
    (renv : Ir.Eval.Env) (env : Env) (u : Ir.Value) : Prop :=
  ∃ ty y r x, func.valueType u = some ty ∧ V u = some y ∧ y.index < n ∧
    Ir.Eval.read renv u = .ok r ∧ env y = some x ∧ Encodes ty r x

/-- The code of an instruction computes what the interpreter computes. -/
theorem lowerInst_computes {func : Ir.Function} {V : Ir.Value → Option Cranelift.Value}
    {v : Ir.Value} {inst : Ir.Inst} {code : List Cranelift.Inst} {renv : Ir.Eval.Env}
    (htyped : func.InstTyped v inst) (h : lowerInst func V n inst = some code)
    (huses : ∀ u ∈ inst.uses, Operand func V n renv env u) :
    ∃ ty res z, func.valueType v = some ty ∧ Ir.Eval.evalInst renv inst = .ok res ∧
      Encodes ty res z ∧ Computes env n code z := by
  cases inst with
  | iconst value =>
    cases h
    exact ⟨_, _, _, htyped, rfl, .int value, .single rfl n⟩
  | fconst value =>
    cases h
    exact ⟨_, _, _, htyped, rfl, .float value, .single rfl n⟩
  | bconst value =>
    cases h
    refine ⟨_, _, _, htyped, rfl, .bool value, .single ?_ n⟩
    cases value <;> rfl
  | un op operand =>
    obtain ⟨ty, hop, hoperand, hv⟩ := htyped
    obtain ⟨x, hx, ty', hty', rfl⟩ := by simpa [lowerInst, Option.bind_eq_some_iff] using h
    obtain ⟨ty'', x', r, p, hty'', hx', hxn, hread, hp, henc⟩ :=
      huses operand (by simp [Ir.Inst.uses])
    obtain rfl := Option.some.inj (hx.symm.trans hx')
    obtain rfl := Option.some.inj (hoperand.symm.trans hty')
    obtain rfl := Option.some.inj (hoperand.symm.trans hty'')
    obtain ⟨res, z, hres, hz, hcomputes⟩ := unCode_computes hop hp henc hxn
    exact ⟨ty, res, z, hv, by rw [Ir.Eval.evalInst, hread, ok_bind, hres], hz, hcomputes⟩
  | bin op lhs rhs =>
    obtain ⟨ty, hop, hlhs, hrhs, hv⟩ := htyped
    obtain ⟨l, hl, r, hr, ty', hty', rfl⟩ := by
      simpa [lowerInst, Option.bind_eq_some_iff] using h
    obtain ⟨tyl, l', a, p, htyl, hl', hln, hreadl, hp, hencl⟩ :=
      huses lhs (by simp [Ir.Inst.uses])
    obtain ⟨tyr, r', b, q, htyr, hr', hrn, hreadr, hq, hencr⟩ :=
      huses rhs (by simp [Ir.Inst.uses])
    obtain rfl := Option.some.inj (hl.symm.trans hl')
    obtain rfl := Option.some.inj (hr.symm.trans hr')
    obtain rfl := Option.some.inj (hlhs.symm.trans hty')
    obtain rfl := Option.some.inj (hlhs.symm.trans htyl)
    obtain rfl := Option.some.inj (hrhs.symm.trans htyr)
    obtain ⟨res, z, hres, hz, hcomputes⟩ := binCode_computes hop hp hq hencl hencr hln hrn
    exact ⟨_, res, z, hv, by rw [Ir.Eval.evalInst, hreadl, hreadr, ok_bind, ok_bind, hres], hz,
      hcomputes⟩

end Code
end JitLang.Translate
