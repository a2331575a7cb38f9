import JitLang.Programs.StraightLine

/-! # The generated programs of the tests

The random programs of `tests/properties.rs` and `tests/division.rs`: constants, then steps, each of which
takes its operands from the pool of all values so far and pushes its result. Whatever is generated is
accepted by the translator, and compiled it returns what the test compares it with
(`int_jit_matches_reference`, `arithmetic_programs_match_reference`).
-/

namespace JitLang.Programs
open Foundations Numbers Ir Translate
open Ir.Eval (RVal)
set_option autoImplicit false

/-! ## Pools -/

/-- A tag, and the places of two operands. -/
structure Step where
  tag : UInt8
  lhs : ℕ
  rhs : ℕ

/-- The operands, at their places modulo the length of the pool; an empty pool has none. -/
def Step.operands {α : Type} (s : Step) (pool : List α) : Option (α × α) := do
  return (← pool[s.lhs % pool.length]?, ← pool[s.rhs % pool.length]?)

/-- What the steps leave in a pool of words, when a tag is the operation `f` gives it. -/
def computeSteps (f : UInt8 → BitVec 64 → BitVec 64 → BitVec 64) (pool : List (BitVec 64))
    (steps : List Step) : Option (List (BitVec 64)) :=
  steps.foldlM (fun pool s => do
    let (x, y) ← s.operands pool
    return pool ++ [f s.tag x y]) pool

/-- A builder at work, and the pool of its values. -/
structure Building where
  builder : Builder
  pool : List Value

def Building.push (s : Building) (inst : Inst) : Building :=
  let (v, builder) := s.builder.push inst
  ⟨builder, s.pool ++ [v]⟩

/-- The same steps on values, when a tag is the instruction `make` gives it. -/
def buildSteps (make : UInt8 → Value → Value → Inst) (s : Building) (steps : List Step) :
    Option Building :=
  steps.foldlM (fun s step => do
    let (x, y) ← step.operands s.pool
    return s.push (make step.tag x y)) s

/-- A function of `nparams` integers that returns the last value of the pool. -/
def buildProgram (make : UInt8 → Value → Value → Inst) (nparams : ℕ) (consts : List (BitVec 64))
    (steps : List Step) : Option Ir.Function := do
  let b := Builder.new (List.replicate nparams .int) .int
  let s := consts.foldl (fun s k => s.push (.iconst k)) ⟨b, b.blockParams⟩
  let s ← buildSteps make s steps
  let result ← s.pool[s.pool.length - 1]?
  return s.builder.finish result

/-! ## Both sides keep in step -/

theorem Step.operands_eq {α : Type} (s : Step) {pool : List α} (h : pool ≠ []) :
    ∃ x y, s.operands pool = some (x, y) ∧ pool[s.lhs % pool.length]? = some x ∧
      pool[s.rhs % pool.length]? = some y := by
  have hpos : 0 < pool.length := List.length_pos_iff.mpr h
  have hx := List.getElem?_eq_getElem (Nat.mod_lt s.lhs hpos)
  have hy := List.getElem?_eq_getElem (Nat.mod_lt s.rhs hpos)
  exact ⟨_, _, by simp [operands, hx, hy], hx, hy⟩

section Lockstep
variable [DoubleArith]

/-- The instruction of a tag computes the tag's operation. -/
structure Computes (make : UInt8 → Value → Value → Inst)
    (f : UInt8 → BitVec 64 → BitVec 64 → BitVec 64) : Prop where
  fits : ∀ tag {tys l r}, tys[l.index]? = some .int → tys[r.index]? = some .int →
    (make tag l r).Fits tys ∧ (make tag l r).result tys = .int
  evals : ∀ {env tag l r x y}, Eval.read env l = .ok (.int x) → Eval.read env r = .ok (.int y) →
    Eval.evalInst env (make tag l r) = .ok (.int (f tag x y))

/-- The builder has made code that computes the words. -/
structure Built (inputs : List (BitVec 64)) (s : Building) (words : List (BitVec 64)) : Prop where
  params : s.builder.params = List.replicate inputs.length .int
  ret : s.builder.ret = .int
  pool : s.pool = (List.range words.length).map Value.mk
  count : words.length = inputs.length + s.builder.code.length
  typed : CodeTyped s.builder.params s.builder.code
  types : typesAfter s.builder.params s.builder.code = List.replicate words.length .int
  evals : evalCode (inputs.map .int) s.builder.code = .ok (words.map .int)

namespace Built
variable {inputs words : List (BitVec 64)} {s : Building}

theorem initial (inputs : List (BitVec 64)) :
    Built inputs ⟨.new (List.replicate inputs.length .int) .int,
      (Builder.new (List.replicate inputs.length .int) .int).blockParams⟩ inputs where
  params := rfl
  ret := rfl
  pool := by simp [Builder.blockParams, Builder.new]
  count := rfl
  typed := .nil _
  types := rfl
  evals := rfl

theorem push (h : Built inputs s words) {inst : Inst} {x : BitVec 64}
    (hfits : inst.Fits (List.replicate words.length .int))
    (hresult : inst.result (List.replicate words.length .int) = .int)
    (heval : Eval.evalInst ((words.map RVal.int).map some) inst = .ok (.int x)) :
    Built inputs (s.push inst) (words ++ [x]) where
  params := h.params
  ret := h.ret
  pool := by
    have hlen : s.builder.params.length + s.builder.code.length = words.length := by
      rw [h.params, List.length_replicate, h.count]
    simp [Building.push, Builder.push, h.pool, hlen, List.range_succ]
  count := by
    simp [Building.push, Builder.push, h.count]
    omega
  typed := h.typed.snoc (h.types ▸ hfits)
  types := by
    simp only [Building.push, Builder.push, typesAfter_snoc, h.types, hresult]
    rw [List.length_append, List.length_singleton, List.replicate_succ']
  evals := by
    rw [List.map_append]
    exact evalCode_snoc h.evals heval

/-- What the pool has at some place stands for what the words have there. -/
theorem read (h : Built inputs s words) {i : ℕ} {v : Value} {x : BitVec 64} (hv : s.pool[i]? = some v)
    (hx : words[i]? = some x) :
    (List.replicate words.length Ty.int)[v.index]? = some .int ∧
      Eval.read ((words.map RVal.int).map some) v = .ok (.int x) := by
  have hlt := (List.getElem?_eq_some_iff.mp hx).1
  have hv : v = ⟨i⟩ := by
    rw [h.pool, List.getElem?_map, List.getElem?_range hlt] at hv
    exact (Option.some.inj hv).symm
  subst hv
  refine ⟨by simp [hlt], read_values ?_⟩
  rw [List.getElem?_map, hx]
  rfl

theorem constants (h : Built inputs s words) (consts : List (BitVec 64)) :
    Built inputs (consts.foldl (fun s k => s.push (.iconst k)) s) (words ++ consts) := by
  induction consts generalizing s words with
  | nil => rwa [List.append_nil]
  | cons k consts ih =>
    have hpush : Built inputs (s.push (.iconst k)) (words ++ [k]) := h.push (.iconst k) rfl rfl
    have hrest := ih hpush
    rwa [List.append_assoc, List.singleton_append] at hrest

/-- The steps succeed on both sides. -/
theorem steps {make : UInt8 → Value → Value → Inst} {f : UInt8 → BitVec 64 → BitVec 64 → BitVec 64}
    (hmake : Computes make f) (h : Built inputs s words) (hne : words ≠ []) (steps : List Step) :
    ∃ s' words', buildSteps make s steps = some s' ∧ computeSteps f words steps = some words' ∧
      Built inputs s' words' ∧ words' ≠ [] := by
  induction steps generalizing s words with
  | nil => exact ⟨s, words, rfl, rfl, h, hne⟩
  | cons step steps ih =>
    have hlength : s.pool.length = words.length := by simp [h.pool]
    have hpool : s.pool ≠ [] := by
      rw [← List.length_pos_iff, hlength]
      exact List.length_pos_iff.mpr hne
    obtain ⟨l, r, hlr, hl, hr⟩ := step.operands_eq hpool
    obtain ⟨x, y, hxy, hx, hy⟩ := step.operands_eq hne
    rw [hlength] at hl hr
    obtain ⟨hlty, hlread⟩ := h.read hl hx
    obtain ⟨hrty, hrread⟩ := h.read hr hy
    obtain ⟨hfits, hresult⟩ := hmake.fits step.tag hlty hrty
    have hpush := h.push hfits hresult (hmake.evals hlread hrread)
    obtain ⟨s', words', hs', hwords', hbuilt, hne'⟩ := ih hpush (by simp)
    refine ⟨s', words', ?_, ?_, hbuilt, hne'⟩
    · rw [buildSteps, List.foldlM_cons, hlr]
      exact hs'
    · rw [computeSteps, List.foldlM_cons, hxy]
      exact hwords'

end Built

/-- What is built compiles, and returns the last word: in the interpreter and compiled. -/
theorem buildProgram_returns {make : UInt8 → Value → Value → Inst}
    {f : UInt8 → BitVec 64 → BitVec 64 → BitVec 64} (hmake : Computes make f)
    (inputs : List (BitVec 64)) (hinputs : inputs ≠ []) (consts : List (BitVec 64)) (steps : List Step)
    (isa : TargetIsa) :
    ∃ func words x clif, buildProgram make inputs.length consts steps = some func ∧
      computeSteps f (inputs ++ consts) steps = some words ∧ words[words.length - 1]? = some x ∧
      Translate.translate func isa = .ok clif ∧ ∀ fuel,
        Eval.eval func (inputs.map .int) (fuel + 1) = .ok (.int x) ∧
        Cranelift.eval clif (inputs.map .i64) (fuel + 1) = .returned [.i64 x] := by
  have hstart := (Built.initial inputs).constants consts
  obtain ⟨s, words, hs, hwords, h, hne⟩ := hstart.steps hmake (by simp [hinputs]) steps
  have hlt : words.length - 1 < words.length := Nat.sub_one_lt (by simpa using hne)
  obtain ⟨x, hx⟩ : ∃ x, words[words.length - 1]? = some x := ⟨_, List.getElem?_eq_getElem hlt⟩
  have hlength : s.pool.length = words.length := by simp [h.pool]
  have hlast : s.pool[s.pool.length - 1]? = some ⟨words.length - 1⟩ := by
    rw [hlength, h.pool, List.getElem?_map, List.getElem?_range hlt]
    rfl
  have hret : (typesAfter s.builder.params s.builder.code)[words.length - 1]? = some s.builder.ret := by
    rw [h.types, h.ret]
    simp [hlt]
  have hunit : Ty.unit ∉ s.builder.params := by
    rw [h.params]
    intro hmem
    cases List.eq_of_mem_replicate hmem
  obtain ⟨clif, hclif, hreturns⟩ := finish_compiles _ isa h.typed hret hunit
  refine ⟨_, words, x, clif, ?_, hwords, hx, hclif, fun fuel => ?_⟩
  · rw [buildProgram]
    simp only [hs, Option.bind_eq_bind, Option.bind_some, hlast]
    rfl
  · have hargs : (inputs.map RVal.int).map typeOf = s.builder.params := by
      rw [List.map_map]
      exact List.map_const'.trans h.params.symm
    have hlast : (words.map RVal.int)[words.length - 1]? = some (.int x) := by
      rw [List.getElem?_map, hx]
      rfl
    have hcode : (inputs.map RVal.int).flatMap encode = inputs.map .i64 := by
      rw [List.flatMap_map]
      exact List.flatMap_pure_eq_map _ _
    rw [← hcode]
    exact hreturns hargs h.evals hlast fuel

end Lockstep

/-! ## `tests/properties.rs` -/

/-- A straight-line integer function and the inputs to run it with. -/
structure IntProgram where
  nparams : ℕ
  consts : List (BitVec 64)
  ops : List Step
  inputs : List (BitVec 64)
  nparams_pos : 1 ≤ nparams
  inputs_length : inputs.length = nparams

/-- The binary operation and the wrapping reference operation of a step. -/
def opOf (tag : UInt8) : BinOp × (BitVec 64 → BitVec 64 → BitVec 64) :=
  match tag % 3 with
  | 0 => (.add, (· + ·))
  | 1 => (.sub, (· - ·))
  | _ => (.mul, (· * ·))

namespace IntProgram

/-- Evaluates the program directly with wrapping arithmetic. -/
def reference (prog : IntProgram) : Option (BitVec 64) := do
  let pool ← computeSteps (fun tag => (opOf tag).2) (prog.inputs ++ prog.consts) prog.ops
  pool[pool.length - 1]?

/-- The function that `jit` compiles. -/
def build (prog : IntProgram) : Option Ir.Function :=
  buildProgram (fun tag x y => .bin (opOf tag).1 x y) prog.nparams prog.consts prog.ops

end IntProgram

section Properties
variable [DoubleArith]

theorem opOf_computes : Computes (fun tag x y => .bin (opOf tag).1 x y) fun tag => (opOf tag).2 where
  fits := by
    intro tag tys l r hl hr
    have hop : (opOf tag).1.Accepts .int ∧ (opOf tag).1.result .int = .int := by
      unfold opOf
      split <;> simp [BinOp.Accepts, BinOp.result]
    refine ⟨.bin hop.1 hl hr, ?_⟩
    rw [Inst.result, List.getD_eq_getElem?_getD, hl]
    exact hop.2
  evals := by
    intro env tag l r x y hl hr
    rw [Eval.evalInst, hl, hr]
    unfold opOf
    split <;> rfl

/-- The native code computes exactly what evaluating the same steps does. -/
theorem int_jit_matches_reference (prog : IntProgram) (isa : TargetIsa) :
    ∃ func x clif, prog.build = some func ∧ prog.reference = some x ∧
      Translate.translate func isa = .ok clif ∧
      Cranelift.eval clif (prog.inputs.map .i64) 1 = .returned [.i64 x] := by
  have hinputs : prog.inputs ≠ [] := by
    rw [← List.length_pos_iff, prog.inputs_length]
    exact prog.nparams_pos
  obtain ⟨func, words, x, clif, hfunc, hwords, hx, hclif, hreturns⟩ :=
    buildProgram_returns opOf_computes prog.inputs hinputs prog.consts prog.ops isa
  rw [prog.inputs_length] at hfunc
  refine ⟨func, x, clif, hfunc, ?_, hclif, (hreturns 0).2⟩
  rw [IntProgram.reference, hwords]
  exact hx

end Properties

/-! ## `tests/division.rs` -/

structure Program where
  consts : List (BitVec 64)
  steps : List Step
  inputs : BitVec 64 × BitVec 64

namespace Program

/-- The instruction of a step. -/
def inst (op : UInt8) (x y : Value) : Inst :=
  match op with
  | 0 => .bin .add x y
  | 1 => .bin .sub x y
  | 2 => .bin .mul x y
  | 3 | 4 => .bin .div x y
  | _ => .un .neg x

def build (prog : Program) : Option Ir.Function := buildProgram inst 2 prog.consts prog.steps

/-- What the instruction computes. -/
def word (op : UInt8) (x y : BitVec 64) : BitVec 64 :=
  match op with
  | 0 => x + y
  | 1 => x - y
  | 2 => x * y
  | 3 | 4 => Eval.intDiv x y
  | _ => -x

end Program

section Division
variable [DoubleArith]

theorem Program.inst_computes : Computes Program.inst Program.word where
  fits := by
    intro tag tys l r hl hr
    unfold Program.inst
    split
    case h_6 =>
      refine ⟨.un (by simp [UnOp.Accepts]) hl, ?_⟩
      rw [Inst.result, List.getD_eq_getElem?_getD, hl]
      rfl
    all_goals
      refine ⟨.bin (by simp [BinOp.Accepts]) hl hr, ?_⟩
      rw [Inst.result, List.getD_eq_getElem?_getD, hl]
      rfl
  evals := by
    intro env tag l r x y hl hr
    unfold Program.inst Program.word
    split <;> simp only [Eval.evalInst, hl, hr, ok_bind] <;> rfl

/-- Random arithmetic chains, divisions by zero and by `-1` among them, run without a fault and agree with
the interpreter. -/
theorem arithmetic_programs_match_reference (prog : Program) (isa : TargetIsa) :
    ∃ func x clif, prog.build = some func ∧ Translate.translate func isa = .ok clif ∧
      Eval.eval func [.int prog.inputs.1, .int prog.inputs.2] 1000 = .ok (.int x) ∧
      Cranelift.eval clif [.i64 prog.inputs.1, .i64 prog.inputs.2] 1000 = .returned [.i64 x] := by
  obtain ⟨func, words, x, clif, hfunc, hwords, hx, hclif, hreturns⟩ :=
    buildProgram_returns Program.inst_computes [prog.inputs.1, prog.inputs.2] (by simp)
      prog.consts prog.steps isa
  exact ⟨func, x, clif, hfunc, hclif, (hreturns 999).1, (hreturns 999).2⟩

end Division
end JitLang.Programs
