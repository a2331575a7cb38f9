import JitLang.Ir.Checker
import JitLang.Ir.Logic

/-! # Straight-line functions

What the builder of `ir-lang` makes when it stays in the entry block: instructions one after the other, each
defining the next value, and a `ret`. Such a function is valid if its code is typed (`Builder.valid`), and
the interpreter evaluates its code once, from left to right (`Builder.eval`).
-/

namespace JitLang.Ir
open Foundations Numbers
open Eval (RVal Stop Env evalInst)
set_option autoImplicit false

/-! ## The builder -/

structure Builder where
  params : List Ty
  ret : Ty
  code : List Inst

namespace Builder

def new (params : List Ty) (ret : Ty) : Builder := ⟨params, ret, []⟩

/-- Values are numbered in the order in which they are made, parameters first. -/
def blockParams (b : Builder) : List Value := (List.range b.params.length).map Value.mk

/-- `iconst`, `bin` and the like: the instruction is appended and its value handed out. -/
def push (b : Builder) (inst : Inst) : Value × Builder :=
  (⟨b.params.length + b.code.length⟩, { b with code := b.code ++ [inst] })

end Builder

/-- The type of the value that an instruction makes of values of the types `tys`. -/
def Inst.result (tys : List Ty) : Inst → Ty
  | .iconst _ => .int
  | .fconst _ => .float
  | .bconst _ => .bool
  | .bin op lhs _ => op.result (tys.getD lhs.index .unit)
  | .un _ operand => tys.getD operand.index .unit

/-- The types of all values after the code. -/
def typesAfter (tys : List Ty) (code : List Inst) : List Ty :=
  code.foldl (fun tys inst => tys ++ [inst.result tys]) tys

/-- After `ret(Some(value))`. -/
def Builder.finish (b : Builder) (value : Value) : Function where
  params := b.params
  ret := b.ret
  blockCount := 1
  entry := ⟨0⟩
  blockParams
    | ⟨0⟩ => b.blockParams
    | _ => []
  insts
    | ⟨0⟩ => (List.range' b.params.length b.code.length).map Value.mk
    | _ => []
  terminator
    | ⟨0⟩ => some (.ret (some value))
    | _ => none
  inst v := if b.params.length ≤ v.index then b.code[v.index - b.params.length]? else none
  valueCount := b.params.length + b.code.length
  valueType v := (typesAfter b.params b.code)[v.index]?

/-! ## Typing -/

/-- The instruction fits operands of the types `tys`. -/
inductive Inst.Fits (tys : List Ty) : Inst → Prop
  | iconst (v : BitVec 64) : Fits tys (.iconst v)
  | fconst (v : BitVec 64) : Fits tys (.fconst v)
  | bconst (v : Bool) : Fits tys (.bconst v)
  | bin {op : BinOp} {lhs rhs : Value} {ty : Ty} : op.Accepts ty → tys[lhs.index]? = some ty →
      tys[rhs.index]? = some ty → Fits tys (.bin op lhs rhs)
  | un {op : UnOp} {operand : Value} {ty : Ty} : op.Accepts ty → tys[operand.index]? = some ty →
      Fits tys (.un op operand)

inductive CodeTyped : List Ty → List Inst → Prop
  | nil (tys : List Ty) : CodeTyped tys []
  | cons {tys : List Ty} {inst : Inst} {code : List Inst} : inst.Fits tys →
      CodeTyped (tys ++ [inst.result tys]) code → CodeTyped tys (inst :: code)

theorem typesAfter_cons (tys : List Ty) (inst : Inst) (code : List Inst) :
    typesAfter tys (inst :: code) = typesAfter (tys ++ [inst.result tys]) code := rfl

theorem typesAfter_snoc (tys : List Ty) (code : List Inst) (inst : Inst) :
    typesAfter tys (code ++ [inst]) = typesAfter tys code ++ [inst.result (typesAfter tys code)] := by
  rw [typesAfter, List.foldl_append]
  rfl

theorem typesAfter_length (tys : List Ty) (code : List Inst) :
    (typesAfter tys code).length = tys.length + code.length := by
  induction code generalizing tys with
  | nil => rfl
  | cons inst code ih =>
    rw [typesAfter_cons, ih]
    simp only [List.length_append, List.length_cons, List.length_nil]
    omega

/-- Values that are there keep their types. -/
theorem typesAfter_getElem? {tys : List Ty} (code : List Inst) {i : ℕ} {ty : Ty}
    (h : tys[i]? = some ty) : (typesAfter tys code)[i]? = some ty := by
  induction code generalizing tys with
  | nil => exact h
  | cons inst code ih =>
    refine ih ?_
    rw [List.getElem?_append_left (List.getElem?_eq_some_iff.mp h).1, h]

theorem CodeTyped.snoc {tys : List Ty} {code : List Inst} {inst : Inst} (h : CodeTyped tys code)
    (hinst : inst.Fits (typesAfter tys code)) : CodeTyped tys (code ++ [inst]) := by
  induction h with
  | nil tys => exact .cons hinst (.nil _)
  | cons hfits _ ih => exact .cons hfits (ih hinst)

/-- An instruction that fits is typed in every function in which its operands and its value have these
types. -/
theorem Inst.Fits.instTyped {tys : List Ty} {inst : Inst} (h : inst.Fits tys) {func : Function}
    (htypes : ∀ (u : Value) (ty : Ty), tys[u.index]? = some ty → func.valueType u = some ty) {v : Value}
    (hv : func.valueType v = some (inst.result tys)) : func.InstTyped v inst := by
  cases h with
  | iconst | fconst | bconst => exact hv
  | bin hop hlhs hrhs =>
    refine ⟨_, hop, htypes _ _ hlhs, htypes _ _ hrhs, ?_⟩
    rwa [Inst.result, List.getD_eq_getElem?_getD, hlhs] at hv
  | un hop hoperand =>
    refine ⟨_, hop, htypes _ _ hoperand, ?_⟩
    rwa [Inst.result, List.getD_eq_getElem?_getD, hoperand] at hv

theorem Inst.Fits.uses_lt {tys : List Ty} {inst : Inst} (h : inst.Fits tys) {u : Value}
    (hu : u ∈ inst.uses) : u.index < tys.length := by
  cases h with
  | iconst | fconst | bconst => cases hu
  | bin _ hlhs hrhs =>
    rcases List.mem_pair.mp hu with rfl | rfl
    · exact (List.getElem?_eq_some_iff.mp hlhs).1
    · exact (List.getElem?_eq_some_iff.mp hrhs).1
  | un _ hoperand =>
    obtain rfl := List.mem_singleton.mp hu
    exact (List.getElem?_eq_some_iff.mp hoperand).1

/-- The code from some instruction on, in a function that numbers it from the values before. -/
theorem CodeTyped.checkedInsts {tys : List Ty} {code : List Inst} (h : CodeTyped tys code)
    {func : Function} {avail : List Value} (havail : ∀ u : Value, u.index < tys.length → u ∈ avail)
    (hinst : ∀ i, func.inst ⟨tys.length + i⟩ = code[i]?)
    (htypes : ∀ u, func.valueType u = (typesAfter tys code)[u.index]?) :
    func.CheckedInsts avail ((List.range' tys.length code.length).map Value.mk) := by
  induction h generalizing avail with
  | nil => trivial
  | @cons tys inst code hfits _ ih =>
    rw [List.length_cons, List.range'_succ, List.map_cons]
    have hlen : (tys ++ [inst.result tys]).length = tys.length + 1 := by simp
    refine ⟨⟨inst, hinst 0, ?_, fun u hu => havail u (hfits.uses_lt hu)⟩, ?_⟩
    · refine hfits.instTyped (fun u ty hu => ?_) ?_
      · rw [htypes]
        exact typesAfter_getElem? _ hu
      · rw [htypes, typesAfter_cons]
        exact typesAfter_getElem? _ (by simp)
    · rw [← hlen]
      refine ih (fun u hu => ?_) (fun i => ?_) htypes
      · rw [hlen] at hu
        rcases Nat.lt_succ_iff_lt_or_eq.mp hu with hlt | heq
        · exact List.mem_cons_of_mem _ (havail u hlt)
        · exact List.mem_cons.mpr (.inl (Value.ext heq))
      · rw [hlen, Nat.add_assoc, Nat.add_comm 1, hinst, List.getElem?_cons_succ]

namespace Builder
variable {b : Builder} {value : Value}

theorem mem_values {n : ℕ} {v : Value} : v ∈ (List.range n).map Value.mk ↔ v.index < n := by
  cases v
  simp

/-- The values of the entry block are all there are. -/
theorem defs_finish : (b.finish value).defs ⟨0⟩ =
    (List.range (b.params.length + b.code.length)).map Value.mk := by
  rw [Function.defs, List.range_eq_range', ← List.range'_append_1, List.map_append]
  simp [finish, blockParams, List.range_eq_range']

theorem valid (h : CodeTyped b.params b.code)
    (hret : (typesAfter b.params b.code)[value.index]? = some b.ret) : (b.finish value).Valid := by
  have hlt : value.index < b.params.length + b.code.length := by
    rw [← typesAfter_length]
    exact (List.getElem?_eq_some_iff.mp hret).1
  have hchecked : (b.finish value).Checked fun _ => [] := by
    refine ⟨Nat.one_pos, rfl, ?_, ?_, fun c hc => ?_⟩
    · refine List.ext_getElem? fun i => ?_
      by_cases hi : i < b.params.length
      · have hty := List.getElem?_eq_getElem hi
        simp [finish, blockParams, hi, typesAfter_getElem? b.code hty]
      · simp [finish, blockParams, hi]
    · rw [show (b.finish value).blocks = [⟨0⟩] from rfl, List.flatMap_singleton, defs_finish]
      exact List.nodup_range.map fun _ _ h => by simpa using h
    · obtain rfl : c = ⟨0⟩ := by
        have hc : c ∈ [(⟨0⟩ : Block)] := hc
        exact List.mem_singleton.mp hc
      refine ⟨List.not_mem_nil, ?_, ⟨_, rfl, hret, fun u hu => ?_, by simp [Terminator.successors,
        Terminator.edges], by simp [Terminator.successors, Terminator.edges]⟩, fun v hv => ?_⟩
      · refine h.checkedInsts (fun u hu => ?_) (fun i => ?_) fun u => rfl
        · exact List.mem_append_left _ (mem_values.mpr hu)
        · simp [finish]
      · obtain rfl := List.mem_singleton.mp hu
        have hmem : u ∈ (b.finish u).defs ⟨0⟩ := by
          rw [defs_finish]
          exact mem_values.mpr hlt
        rcases List.mem_append.mp hmem with hparam | hinst
        · exact List.mem_append_right _ (List.mem_append_left _ hparam)
        · exact List.mem_append_left _ hinst
      · rw [defs_finish, mem_values] at hv
        refine ⟨hv, ?_⟩
        rw [← typesAfter_length] at hv
        exact Option.isSome_iff_exists.mpr ⟨_, List.getElem?_eq_getElem hv⟩
  exact hchecked.valid

end Builder

/-! ## Evaluation -/

section Eval
variable [DoubleArith]

def evalNext (values : List RVal) (inst : Inst) : Except Stop (List RVal) := do
  return values ++ [← evalInst (values.map some) inst]

/-- The values after the code, each instruction reading those before it. -/
def evalCode (values : List RVal) (code : List Inst) : Except Stop (List RVal) :=
  code.foldlM evalNext values

theorem evalCode_snoc {values values' : List RVal} {code : List Inst} {inst : Inst} {x : RVal}
    (h : evalCode values code = .ok values') (hinst : evalInst (values'.map some) inst = .ok x) :
    evalCode values (code ++ [inst]) = .ok (values' ++ [x]) := by
  rw [evalCode, List.foldlM_append, ← evalCode, h, ok_bind, List.foldlM_cons, evalNext, hinst, ok_bind]
  rfl

omit [DoubleArith] in
theorem read_values {values : List RVal} {v : Value} {x : RVal} (h : values[v.index]? = some x) :
    Eval.read (values.map some) v = .ok x := by
  rw [Eval.read, List.getElem?_map, h]
  rfl

/-- The interpreter's table of `n` values when the first ones are known. -/
def table (n : ℕ) (values : List RVal) : Env :=
  values.map some ++ List.replicate (n - values.length) none

omit [DoubleArith] in
theorem read_table (n : ℕ) (values : List RVal) (v : Value) :
    Eval.read (table n values) v = Eval.read (values.map some) v := by
  unfold Eval.read table
  by_cases h : v.index < (values.map some).length
  · rw [List.getElem?_append_left h]
  · have hle := Nat.le_of_not_lt h
    have hnone : ((List.replicate (n - values.length) (none : Option RVal))[v.index -
        (values.map some).length]?).join = none := by
      rw [List.getElem?_replicate]
      split <;> rfl
    rw [List.getElem?_append_right hle, hnone, List.getElem?_eq_none hle]
    rfl

omit [DoubleArith] in
theorem write_table {n : ℕ} (values : List RVal) (x : RVal) (h : values.length < n) :
    Eval.write (table n values) ⟨values.length⟩ x = .ok (table n (values ++ [x])) := by
  obtain ⟨k, rfl⟩ := Nat.exists_eq_add_of_lt h
  have hfree : values.length + k + 1 - values.length = k + 1 := by omega
  have hfree' : values.length + k + 1 - (values.length + 1) = k := by omega
  rw [Eval.write_ok (by simp [table, hfree])]
  simp [table, hfree, hfree', List.replicate_succ]

theorem evalInst_table (n : ℕ) (values : List RVal) (inst : Inst) :
    evalInst (table n values) inst = evalInst (values.map some) inst := by
  cases inst with
  | iconst | fconst | bconst => rfl
  | bin op lhs rhs => rw [evalInst, evalInst, read_table, read_table]
  | un op operand => rw [evalInst, evalInst, read_table]

omit [DoubleArith] in
theorem writeAll_table (n : ℕ) (values xs : List RVal) (h : values.length + xs.length ≤ n) :
    Eval.writeAll (table n values) (((List.range' values.length xs.length).map Value.mk).zip xs) =
      .ok (table n (values ++ xs)) := by
  induction xs generalizing values with
  | nil => simp [Eval.writeAll]
  | cons x xs ih =>
    have hlen : (values ++ [x]).length = values.length + 1 := by simp
    have hwrite : Eval.write (table n values) _ x = _ :=
      write_table values x (by rw [List.length_cons] at h; omega)
    have hrest := ih (values ++ [x]) (by rw [hlen]; rw [List.length_cons] at h; omega)
    rw [hlen, List.append_assoc, List.singleton_append] at hrest
    rw [List.length_cons, List.range'_succ, List.map_cons, List.zip_cons_cons, Eval.writeAll,
      List.foldlM_cons, hwrite, ok_bind]
    exact hrest

/-- The instruction loop of the interpreter, from some instruction on. -/
theorem foldlM_table (func : Function) (n : ℕ) {values values' : List RVal} {code : List Inst}
    (h : evalCode values code = .ok values') (hn : values.length + code.length ≤ n)
    (hinst : ∀ i, func.inst ⟨values.length + i⟩ = code[i]?) :
    ((List.range' values.length code.length).map Value.mk).foldlM (Eval.evalValue func)
      (table n values) = .ok (table n values') := by
  induction code generalizing values with
  | nil =>
    cases h
    rfl
  | cons inst code ih =>
    rw [evalCode, List.foldlM_cons] at h
    obtain ⟨_, hvalues, h⟩ := bind_eq_ok.mp h
    obtain ⟨x, hx, hvalues⟩ := bind_eq_ok.mp hvalues
    cases hvalues
    have hlen : (values ++ [x]).length = values.length + 1 := by simp
    have hstep : Eval.evalValue func (table n values) ⟨values.length⟩ = .ok (table n (values ++ [x])) := by
      have hfirst : func.inst ⟨values.length⟩ = some inst := hinst 0
      rw [Eval.evalValue, hfirst]
      simp only [evalInst_table, hx, ok_bind]
      exact write_table values x (by rw [List.length_cons] at hn; omega)
    have hrest := ih h (by simp at hn ⊢; omega) fun i => by
      rw [hlen, Nat.add_assoc, Nat.add_comm 1, hinst, List.getElem?_cons_succ]
    rw [hlen] at hrest
    rw [List.length_cons, List.range'_succ, List.map_cons, List.foldlM_cons, hstep, ok_bind]
    exact hrest

theorem Builder.eval {b : Builder} {value : Value} {args values : List RVal} {r : RVal}
    (hargs : args.length = b.params.length) (h : evalCode args b.code = .ok values)
    (hr : values[value.index]? = some r) (fuel : ℕ) :
    Eval.eval (b.finish value) args (fuel + 1) = .ok r := by
  have hstart : Eval.start (b.finish value) args =
      .ok (table (b.params.length + b.code.length) args) := by
    have hwrites := writeAll_table (b.params.length + b.code.length) [] args (by simp; omega)
    rw [Eval.start, if_pos (by simp [finish, blockParams, hargs])]
    simpa [finish, blockParams, table, hargs, List.range_eq_range'] using hwrites
  have hcode := foldlM_table (b.finish value) (b.params.length + b.code.length) h (by omega)
    fun i => by simp [finish, hargs]
  have hblock : Eval.evalBlock (b.finish value) ⟨0⟩ (table (b.params.length + b.code.length) args) =
      .ok (.ret r) := by
    rw [hargs] at hcode
    have hinsts : (b.finish value).insts ⟨0⟩ =
        (List.range' b.params.length b.code.length).map Value.mk := rfl
    have hterm : (b.finish value).terminator ⟨0⟩ = some (.ret (some value)) := rfl
    simp only [Eval.evalBlock, hinsts, hcode, ok_bind, hterm, Eval.evalTerminator]
    rw [read_table, read_values hr]
    rfl
  rw [Eval.eval, hstart, ok_bind, Eval.evalFrom]
  change (Eval.evalBlock (b.finish value) ⟨0⟩ _ >>= _) = _
  rw [hblock, ok_bind]
  rfl

end Eval
end JitLang.Ir
