import JitLang.Cranelift.Timing
import JitLang.Translate.Simulation

/-! # What translation costs

An integer division is lowered to nine instructions, a `not` to two, everything else to one. That
decides how large the produced function is (`translate_size`), and, since blocks are executed to their
ends, how long it runs: as many steps as the instructions of the blocks the interpreter enters cost
(`translate_time`).
-/

namespace JitLang.Translate
open Foundations Cranelift Numbers
open Ir.Eval (RVal)
set_option autoImplicit false

variable {func : Ir.Function} {isa : TargetIsa} {t : Translation}

/-! ## The cost of a block -/

/-- How many instructions an IR instruction is lowered to. -/
def instCost (func : Ir.Function) : Ir.Inst → ℕ
  | .bin .div lhs _ => if func.valueType lhs = some .float then 1 else 9
  | .un .not _ => 2
  | _ => 1

def valueCost (func : Ir.Function) (v : Ir.Value) : ℕ := ((func.inst v).map (instCost func)).getD 0

def instsCost (func : Ir.Function) (c : Ir.Block) : ℕ := ((func.insts c).map (valueCost func)).sum

/-- With the terminator. -/
def blockCost (func : Ir.Function) (c : Ir.Block) : ℕ := instsCost func c + 1

theorem lowerInst_length {V : Ir.Value → Option Cranelift.Value} {n : ℕ} {inst : Ir.Inst}
    {code : List Cranelift.Inst} (h : lowerInst func V n inst = some code) :
    code.length = instCost func inst := by
  cases inst with
  | iconst | fconst | bconst =>
    cases h
    rfl
  | bin op lhs rhs =>
    obtain ⟨l, -, r, -, ty, hty, rfl⟩ := by
      simpa [lowerInst, Option.bind_eq_some_iff] using h
    cases op with
    | div => by_cases hfloat : ty = .float <;> simp [binCode, instCost, intDivCode, hty, hfloat]
    | _ => rfl
  | un op operand =>
    obtain ⟨x, -, ty, -, rfl⟩ := by simpa [lowerInst, Option.bind_eq_some_iff] using h
    cases op <;> rfl

theorem Lowers.length {V : Ir.Value → Option Cranelift.Value} {n : ℕ} {vs : List Ir.Value}
    {nodes : List InstData} (h : Lowers func V n vs nodes) :
    nodes.length = (vs.map (valueCost func)).sum := by
  induction h with
  | nil => rfl
  | cons hinst hcode _ _ _ _ ih =>
    rw [List.length_append, number_length, lowerInst_length hcode, ih, List.map_cons, List.sum_cons,
      valueCost, hinst]
    rfl

/-- What is counted along stand-ins may be counted along the blocks they stand for. -/
theorem sum_standIns {cs : List Ir.Block} {xs : List Cranelift.Block}
    (hstand : cs.map t.block = xs.map some) {f : Cranelift.Block → ℕ} {g : Ir.Block → ℕ}
    (h : ∀ c x, t.block c = some x → f x = g c) : (xs.map f).sum = (cs.map g).sum := by
  induction map_eq_some_iff.mp hstand with
  | nil => rfl
  | @cons c x cs xs hc hrest ih =>
    rw [List.map_cons, List.map_cons, List.sum_cons, List.sum_cons, h c x hc,
      ih (map_eq_some_iff.mpr hrest)]

namespace Translated

theorem blockInsts_length (ht : Translated func isa t) {c : Ir.Block} {x : Cranelift.Block}
    (hc : t.block c = some x) : (t.clif.blockInsts x).length = blockCost func c := by
  obtain ⟨n, nodes, term, last, hemit⟩ := ht.emitted_at hc
  rw [hemit.insts, List.length_append, hemit.lowers.length]
  rfl

/-! ## The size of the produced function -/

theorem order_layout (ht : Translated func isa t) : t.order.map t.block = t.clif.layout.map some := by
  refine List.ext_getElem? fun i => ?_
  rw [ht.layout, handles, List.getElem?_map, List.getElem?_map, List.getElem?_map]
  cases hi : t.order[i]? with
  | none => simp [List.getElem?_eq_none_iff.mp hi]
  | some c =>
    rw [List.getElem?_range (List.getElem?_eq_some_iff.mp hi).1, Option.map_some,
      (ht.placed c ⟨i⟩).mpr hi]
    rfl

theorem size (ht : Translated func isa t) :
    (t.clif.layout.flatMap t.clif.blockInsts).length = (t.order.map (blockCost func)).sum := by
  rw [List.length_flatMap]
  exact sum_standIns ht.order_layout fun c x hc => ht.blockInsts_length hc

/-- Every value is a parameter of a block or the result of an instruction that is no terminator. -/
theorem valueCount (ht : Translated func isa t) : t.clif.valueTypes.length =
    (t.order.map fun c => (func.blockParams c).length + instsCost func c).sum := by
  have hnumbering := congrArg List.length ht.numbering
  rw [List.length_append, List.length_flatMap, List.length_flatMap, List.length_map,
    List.length_range] at hnumbering
  rw [← hnumbering, List.sum_map_add]
  congr 1
  · exact sum_standIns ht.order_layout fun c x hc => by
      have h := congrArg List.length (ht.params x c ((ht.placed c x).mp hc))
      rw [List.length_map, List.length_map] at h
      exact h.symm
  · exact sum_standIns ht.order_layout fun c x hc => by
      obtain ⟨n, nodes, term, last, hemit⟩ := ht.emitted_at hc
      rw [Cranelift.Function.blockResults, hemit.insts, List.filterMap_append, List.length_append,
        hemit.lowers.results, List.length_map, List.length_range', hemit.lowers.length]
      rfl

end Translated

/-- The produced function has, for each reachable block, the instructions its own cost, and one value for
each block parameter and each instruction that is no terminator. -/
theorem translate_size (hv : func.Valid) {clif : Cranelift.Function}
    (h : translate func isa = .ok clif) :
    ∃ t, translation func isa = .ok t ∧ t.clif = clif ∧ RpoOrder func t.order ∧
      (clif.layout.flatMap clif.blockInsts).length = (t.order.map (blockCost func)).sum ∧
      clif.valueTypes.length =
        (t.order.map fun c => (func.blockParams c).length + instsCost func c).sum := by
  obtain ⟨t, htrans, rfl, ht⟩ := translated_of_ok hv h
  exact ⟨t, htrans, rfl, ht.order, ht.size, ht.valueCount⟩

theorem halvings_size : ∃ clif t, translation Ir.halvings ⟨⟨0⟩⟩ = .ok t ∧ t.clif = clif ∧
    (clif.layout.flatMap clif.blockInsts).length = (t.order.map (blockCost Ir.halvings)).sum := by
  obtain ⟨clif, hclif⟩ := halvings_translates
  obtain ⟨t, htrans, ht, -, hsize, -⟩ := translate_size Ir.halvings.valid hclif
  exact ⟨clif, t, htrans, ht, hsize⟩

/-- The four blocks of `halvings` cost 1, 3, 13 and 1. -/
example : [⟨0⟩, ⟨1⟩, ⟨2⟩, ⟨3⟩].map (blockCost Ir.halvings) = [1, 3, 13, 1] := rfl

/-! ## The time it takes -/

section Time
variable [DoubleArith]

/-- A run of the interpreter that returns is a run of the machine that returns after exactly as many steps
as the instructions of the blocks entered cost. -/
theorem translate_time (hv : func.Valid) {clif : Cranelift.Function}
    (h : translate func isa = .ok clif) {args : List RVal} (hargs : args.map typeOf = func.params)
    {fuel : ℕ} {r : RVal} (heval : Ir.Eval.eval func args fuel = .ok r) :
    ∃ entry n last, clif.entry? = some entry ∧
      Timed clif n ⟨entry, 0, Env.empty.bind (clif.blockParams entry) (args.flatMap encode)⟩ last ∧
      Cranelift.step clif last = .done (encode r) ∧
      n + 1 = ((Ir.Eval.entered func args fuel).map (blockCost func)).sum := by
  obtain ⟨t, -, rfl, ht⟩ := translated_of_ok hv h
  obtain ⟨hentered, hagrees⟩ := ht.simulate hv hargs fuel
  obtain ⟨-, -, -, hlen, -⟩ := ht.simulate_start hv hargs
  rw [heval] at hagrees
  generalize hmachine : Cranelift.eval t.clif (args.flatMap encode) fuel = res at hagrees
  cases hagrees
  simp only [Cranelift.eval, ht.entry.1, if_pos hlen] at hmachine
  obtain ⟨n, last, htimed, hdone, hn⟩ := evalFrom_timed (ht.ssa hv)
    ((ht.mem_layout _).mpr ⟨_, ht.entry.2⟩) hmachine
  refine ⟨⟨0⟩, n, last, ht.entry.1, htimed, hdone, ?_⟩
  simp only [Cranelift.entered, ht.entry.1] at hentered
  exact hn.trans (sum_standIns hentered fun c x hc => ht.blockInsts_length hc)

end Time

/-- Three rounds of the loop: 1 + 4 * 3 + 3 * 13 + 1 instructions. -/
theorem halvings_time : ∃ clif, translate Ir.halvings ⟨⟨0⟩⟩ = .ok clif ∧
    ∃ entry last, clif.entry? = some entry ∧
      @Timed hostDouble clif 52
        ⟨entry, 0, Env.empty.bind (clif.blockParams entry) [.i64 4, .i8 1]⟩ last ∧
      @Cranelift.step clif hostDouble last = .done [.i8 0] := by
  obtain ⟨clif, hclif⟩ := halvings_translates
  let _ := hostDouble
  have hargs : [RVal.int 4, .bool true].map typeOf = Ir.halvings.params := rfl
  have heval : Ir.Eval.eval Ir.halvings [.int 4, .bool true] 9 = .ok (.bool false) := rfl
  obtain ⟨entry, n, last, hentry, htimed, hdone, hn⟩ :=
    translate_time Ir.halvings.valid hclif hargs heval
  have hcost : ((Ir.Eval.entered Ir.halvings [.int 4, .bool true] 9).map
      (blockCost Ir.halvings)).sum = 53 := rfl
  obtain rfl : n = 52 := by omega
  exact ⟨clif, hclif, entry, last, hentry, htimed, hdone⟩

end JitLang.Translate
