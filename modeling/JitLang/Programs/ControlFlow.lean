import JitLang.Ir.Checker
import JitLang.Ir.Logic
import JitLang.Translate.Interpreter
import Mathlib.Tactic.Ring

/-! # `abs` and `sum_to`

The two functions of `examples/control_flow.rs`, and what they compute for every argument: the absolute
value, and the sum of the numbers up to the argument, both as machine words. Blocks and values are numbered
in the order in which the builder creates them.
-/

namespace JitLang.Programs
open Foundations Numbers Ir Ir.Eval Translate
set_option autoImplicit false

/-! ## `sum_to` -/

/-- `fn sum_to(n: int) -> int { let mut acc = 0; while n > 0 { acc += n; n -= 1 } acc }`. -/
def sumTo : Ir.Function where
  params := [.int]
  ret := .int
  blockCount := 4
  entry := ⟨0⟩
  blockParams
    | ⟨0⟩ => [⟨0⟩]
    | ⟨1⟩ => [⟨1⟩, ⟨2⟩]
    | _ => []
  insts
    | ⟨0⟩ => [⟨3⟩]
    | ⟨1⟩ => [⟨4⟩, ⟨5⟩]
    | ⟨2⟩ => [⟨6⟩, ⟨7⟩, ⟨8⟩]
    | _ => []
  terminator
    | ⟨0⟩ => some (.jump ⟨1⟩ [⟨0⟩, ⟨3⟩])
    | ⟨1⟩ => some (.branch ⟨5⟩ ⟨2⟩ [] ⟨3⟩ [])
    | ⟨2⟩ => some (.jump ⟨1⟩ [⟨8⟩, ⟨6⟩])
    | ⟨3⟩ => some (.ret (some ⟨2⟩))
    | _ => none
  inst
    | ⟨3⟩ => some (.iconst 0)
    | ⟨4⟩ => some (.iconst 0)
    | ⟨5⟩ => some (.bin .gt ⟨1⟩ ⟨4⟩)
    | ⟨6⟩ => some (.bin .add ⟨2⟩ ⟨1⟩)
    | ⟨7⟩ => some (.iconst 1)
    | ⟨8⟩ => some (.bin .sub ⟨1⟩ ⟨7⟩)
    | _ => none
  valueCount := 9
  valueType v := ([.int, .int, .int, .int, .int, .bool, .int, .int, .int] : List Ty)[v.index]?

namespace sumTo

theorem valid : sumTo.Valid := by
  have hchecked : sumTo.Checked fun b => if b = ⟨0⟩ then [] else if b = ⟨1⟩ then [⟨0⟩] else [⟨0⟩, ⟨1⟩] := by
    decide
  exact hchecked.valid

theorem no_unit : ¬ HasUnitParam sumTo :=
  not_hasUnitParam (by decide) fun v hty => by simpa [sumTo] using List.mem_of_getElem? hty

/-- The sum of the numbers from `1` to `n`, as a word; of none if `n` is not positive. -/
def total (n : BitVec 64) : BitVec 64 :=
  if 0 < n.toInt then BitVec.ofInt 64 (n.toInt * (n.toInt + 1) / 2) else 0

/-- How many rounds the loop makes. -/
def rounds (n : BitVec 64) : ℕ := n.toInt.toNat

theorem toInt_sub_one {n : BitVec 64} (h : 0 < n.toInt) : (n - 1).toInt = n.toInt - 1 := by
  have hlt := n.toInt_lt
  rw [BitVec.toInt_sub, show (1 : BitVec 64).toInt = 1 from rfl]
  refine Int.bmod_eq_of_le ?_ ?_ <;> omega

theorem total_of_nonneg {n : BitVec 64} (h : 0 ≤ n.toInt) :
    total n = BitVec.ofInt 64 (n.toInt * (n.toInt + 1) / 2) := by
  rcases h.lt_or_eq with hpos | hzero
  · exact if_pos hpos
  · rw [total, ← hzero]
    rfl

/-- A round of the loop takes the largest number off the sum. -/
theorem total_eq {n : BitVec 64} (h : 0 < n.toInt) : total n = n + total (n - 1) := by
  have hsub := toInt_sub_one h
  have hsum : n.toInt * (n.toInt + 1) / 2 = n.toInt + (n.toInt - 1) * (n.toInt - 1 + 1) / 2 := by
    have hsplit : n.toInt * (n.toInt + 1) = (n.toInt - 1) * (n.toInt - 1 + 1) + n.toInt * 2 := by ring
    rw [hsplit, Int.add_mul_ediv_right _ _ (by decide), Int.add_comm]
  rw [total_of_nonneg h.le, total_of_nonneg (by omega), hsub, hsum, BitVec.ofInt_add,
    BitVec.ofInt_toInt]

/-! The blocks, one at a time. -/

variable [DoubleArith] {env : Env} {n m acc : BitVec 64}

theorem entry_block (hlen : env.length = 9) (hn : Eval.read env ⟨0⟩ = .ok (.int n)) :
    ∃ env', evalBlock sumTo ⟨0⟩ env = .ok (.goto ⟨1⟩ env') ∧ env'.length = 9 ∧
      Eval.read env' ⟨1⟩ = .ok (.int n) ∧ Eval.read env' ⟨2⟩ = .ok (.int 0) := by
  simp [evalBlock, sumTo, evalValue, evalInst, write_ok, read_set, hlen, hn, evalTerminator, enter,
    writeAll]

theorem header_block (hlen : env.length = 9) (hm : Eval.read env ⟨1⟩ = .ok (.int m))
    (hacc : Eval.read env ⟨2⟩ = .ok (.int acc)) :
    ∃ env', evalBlock sumTo ⟨1⟩ env = .ok (.goto (if 0 < m.toInt then ⟨2⟩ else ⟨3⟩) env') ∧
      env'.length = 9 ∧ Eval.read env' ⟨1⟩ = .ok (.int m) ∧ Eval.read env' ⟨2⟩ = .ok (.int acc) := by
  have hcond : (Ord.compare m.toInt 0 == .gt) = decide (0 < m.toInt) := by
    by_cases hpos : 0 < m.toInt <;> simp [hpos, compare_gt_iff_gt]
  by_cases hpos : 0 < m.toInt
  · simp [evalBlock, sumTo, evalValue, evalInst, write_ok, read_set, hlen, hm, hacc, evalTerminator,
      enter, writeAll, binary, ordering, Eval.compare, RVal.boolean, Except.map, hcond, hpos]
  · simp [evalBlock, sumTo, evalValue, evalInst, write_ok, read_set, hlen, hm, hacc, evalTerminator,
      enter, writeAll, binary, ordering, Eval.compare, RVal.boolean, Except.map, hcond, hpos]

theorem body_block (hlen : env.length = 9) (hm : Eval.read env ⟨1⟩ = .ok (.int m))
    (hacc : Eval.read env ⟨2⟩ = .ok (.int acc)) :
    ∃ env', evalBlock sumTo ⟨2⟩ env = .ok (.goto ⟨1⟩ env') ∧ env'.length = 9 ∧
      Eval.read env' ⟨1⟩ = .ok (.int (m - 1)) ∧ Eval.read env' ⟨2⟩ = .ok (.int (acc + m)) := by
  simp [evalBlock, sumTo, evalValue, evalInst, write_ok, read_set, hlen, hm, hacc, evalTerminator, enter,
    writeAll, binary, arithmetic]

theorem exit_block (hacc : Eval.read env ⟨2⟩ = .ok (.int acc)) :
    evalBlock sumTo ⟨3⟩ env = .ok (.ret (.int acc)) := by
  simp [evalBlock, sumTo, hacc, evalTerminator]

/-- From the header on: two blocks for each round to come, and two to leave. -/
theorem header_returns {k : ℕ} (hk : rounds m = k) (hlen : env.length = 9)
    (hm : Eval.read env ⟨1⟩ = .ok (.int m)) (hacc : Eval.read env ⟨2⟩ = .ok (.int acc)) :
    Loop.Returns (round sumTo) (⟨1⟩, env) (2 * k + 2) (.int (acc + total m)) := by
  induction k generalizing m acc env with
  | zero =>
    obtain ⟨env', hheader, -, -, hacc'⟩ := header_block hlen hm hacc
    have hdone : ¬ 0 < m.toInt := by
      rw [rounds] at hk
      omega
    rw [if_neg hdone] at hheader
    rw [total, if_neg hdone, show acc + 0 = acc from BitVec.add_zero acc]
    exact goto_returns hheader (ret_returns (exit_block hacc'))
  | succ k ih =>
    have hpos : 0 < m.toInt := by
      rw [rounds] at hk
      omega
    have hrounds : rounds (m - 1) = k := by
      rw [rounds] at hk ⊢
      rw [toInt_sub_one hpos]
      omega
    obtain ⟨env', hheader, hlen', hm', hacc'⟩ := header_block hlen hm hacc
    obtain ⟨env'', hbody, hlen'', hm'', hacc''⟩ := body_block hlen' hm' hacc'
    rw [if_pos hpos] at hheader
    have htail := ih hrounds hlen'' hm'' hacc''
    rw [BitVec.add_assoc, ← total_eq hpos] at htail
    exact goto_returns hheader (goto_returns hbody htail)

/-- `sum_to n` is the sum of the numbers up to `n`, modulo `2 ^ 64`, and takes so many blocks. -/
theorem returns (n : BitVec 64) : ∃ env, start sumTo [.int n] = .ok env ∧
    Loop.Returns (round sumTo) (sumTo.entry, env) (2 * rounds n + 3) (.int (total n)) := by
  let env : Env := (List.replicate 9 none).set 0 (some (.int n))
  have hlen : env.length = 9 := rfl
  have hn : Eval.read env ⟨0⟩ = .ok (.int n) := rfl
  obtain ⟨env', hblock, hlen', hn', hzero⟩ := entry_block hlen hn
  have htail := header_returns rfl hlen' hn' hzero
  rw [show 0 + total n = total n from BitVec.zero_add _] at htail
  exact ⟨env, rfl, goto_returns hblock htail⟩

end sumTo

/-- Compiled, `sum_to` returns the sum of the numbers up to its argument, whatever the argument is, after
entering two blocks for each of its rounds and three besides. -/
theorem sum_to_compiled [DoubleArith] (isa : TargetIsa) : ∃ clif, Translate.translate sumTo isa = .ok clif ∧
    ∀ (n : BitVec 64) (fuel : ℕ), 2 * sumTo.rounds n + 3 ≤ fuel →
      Cranelift.eval clif [.i64 n] fuel = .returned [.i64 (sumTo.total n)] ∧
        (Cranelift.entered clif [.i64 n] fuel).length = 2 * sumTo.rounds n + 3 := by
  obtain ⟨clif, hclif, hreturns⟩ := translate_returns isa sumTo.valid sumTo.no_unit
  refine ⟨clif, hclif, fun n fuel hle => ?_⟩
  obtain ⟨env, hstart, hrounds⟩ := sumTo.returns n
  have heval := eval_iff.mpr ⟨env, hstart, _, hle, hrounds⟩
  refine ⟨hreturns rfl heval, ?_⟩
  have hargs : [RVal.int n].map typeOf = sumTo.params := rfl
  have hlen := entered_length sumTo.valid hclif hargs fuel
  rw [entered, hstart] at hlen
  exact hlen.trans (enteredFrom_length hrounds hle)

/-! ## `abs` -/

/-- `fn abs(x: int) -> int { if x < 0 { -x } else { x } }`; the two arms join in block 1. -/
def abs : Ir.Function where
  params := [.int]
  ret := .int
  blockCount := 4
  entry := ⟨0⟩
  blockParams
    | ⟨0⟩ => [⟨0⟩]
    | ⟨1⟩ => [⟨1⟩]
    | _ => []
  insts
    | ⟨0⟩ => [⟨2⟩, ⟨3⟩]
    | ⟨2⟩ => [⟨4⟩]
    | _ => []
  terminator
    | ⟨0⟩ => some (.branch ⟨3⟩ ⟨2⟩ [] ⟨3⟩ [])
    | ⟨1⟩ => some (.ret (some ⟨1⟩))
    | ⟨2⟩ => some (.jump ⟨1⟩ [⟨4⟩])
    | ⟨3⟩ => some (.jump ⟨1⟩ [⟨0⟩])
    | _ => none
  inst
    | ⟨2⟩ => some (.iconst 0)
    | ⟨3⟩ => some (.bin .lt ⟨0⟩ ⟨2⟩)
    | ⟨4⟩ => some (.un .neg ⟨0⟩)
    | _ => none
  valueCount := 5
  valueType v := ([.int, .int, .int, .bool, .int] : List Ty)[v.index]?

namespace abs

theorem valid : abs.Valid := by
  have hchecked : abs.Checked fun b => if b = ⟨0⟩ then [] else [⟨0⟩] := by decide
  exact hchecked.valid

theorem no_unit : ¬ HasUnitParam abs :=
  not_hasUnitParam (by decide) fun v hty => by simpa [abs] using List.mem_of_getElem? hty

/-- The absolute value as a word: that of the least integer is the least integer again. -/
def magnitude (x : BitVec 64) : BitVec 64 := BitVec.ofInt 64 |x.toInt|

theorem magnitude_of_neg {x : BitVec 64} (h : x.toInt < 0) : magnitude x = -x := by
  rw [magnitude, abs_of_neg h, BitVec.ofInt_neg, BitVec.ofInt_toInt]

theorem magnitude_of_nonneg {x : BitVec 64} (h : ¬ x.toInt < 0) : magnitude x = x := by
  rw [magnitude, abs_of_nonneg (not_lt.mp h), BitVec.ofInt_toInt]

variable [DoubleArith] {env : Env} {x : BitVec 64}

theorem entry_block (hlen : env.length = 5) (hx : Eval.read env ⟨0⟩ = .ok (.int x)) :
    ∃ env', evalBlock abs ⟨0⟩ env = .ok (.goto (if x.toInt < 0 then ⟨2⟩ else ⟨3⟩) env') ∧
      env'.length = 5 ∧ Eval.read env' ⟨0⟩ = .ok (.int x) := by
  have hcond : (Ord.compare x.toInt 0 == .lt) = decide (x.toInt < 0) := by
    by_cases hneg : x.toInt < 0 <;> simp [hneg, compare_lt_iff_lt]
  by_cases hneg : x.toInt < 0
  · simp [evalBlock, abs, evalValue, evalInst, write_ok, read_set, hlen, hx, evalTerminator, enter,
      writeAll, binary, ordering, Eval.compare, RVal.boolean, Except.map, hcond, hneg]
  · simp [evalBlock, abs, evalValue, evalInst, write_ok, read_set, hlen, hx, evalTerminator, enter,
      writeAll, binary, ordering, Eval.compare, RVal.boolean, Except.map, hcond, hneg]

theorem negative_block (hlen : env.length = 5) (hx : Eval.read env ⟨0⟩ = .ok (.int x)) :
    ∃ env', evalBlock abs ⟨2⟩ env = .ok (.goto ⟨1⟩ env') ∧ Eval.read env' ⟨1⟩ = .ok (.int (-x)) := by
  simp [evalBlock, abs, evalValue, evalInst, write_ok, read_set, hlen, hx, evalTerminator, enter,
    writeAll, unary]

theorem positive_block (hlen : env.length = 5) (hx : Eval.read env ⟨0⟩ = .ok (.int x)) :
    ∃ env', evalBlock abs ⟨3⟩ env = .ok (.goto ⟨1⟩ env') ∧ Eval.read env' ⟨1⟩ = .ok (.int x) := by
  simp [evalBlock, abs, write_ok, read_set, hlen, hx, evalTerminator, enter, writeAll]

theorem join_block (hx : Eval.read env ⟨1⟩ = .ok (.int x)) :
    evalBlock abs ⟨1⟩ env = .ok (.ret (.int x)) := by
  simp [evalBlock, abs, hx, evalTerminator]

def inv (x : BitVec 64) : Block → ℕ → Env → Prop
  | ⟨0⟩, k, env => env.length = 5 ∧ Eval.read env ⟨0⟩ = .ok (.int x) ∧ k = 2
  | ⟨1⟩, _, env => Eval.read env ⟨1⟩ = .ok (.int (magnitude x))
  | ⟨2⟩, k, env => env.length = 5 ∧ Eval.read env ⟨0⟩ = .ok (.int x) ∧ x.toInt < 0 ∧ k = 1
  | ⟨3⟩, k, env => env.length = 5 ∧ Eval.read env ⟨0⟩ = .ok (.int x) ∧ ¬ x.toInt < 0 ∧ k = 1
  | _, _, _ => False

def annotated (x : BitVec 64) : Annotated abs (· = .int (magnitude x)) where
  inv := inv x
  block := by
    rintro ⟨c⟩ k env h
    match c with
    | 0 =>
      obtain ⟨hlen, hx, rfl⟩ := h
      obtain ⟨env', hblock, hlen', hx'⟩ := entry_block hlen hx
      refine ⟨_, hblock, 1, by omega, ?_⟩
      by_cases hneg : x.toInt < 0
      · rw [if_pos hneg]
        exact ⟨hlen', hx', hneg, rfl⟩
      · rw [if_neg hneg]
        exact ⟨hlen', hx', hneg, rfl⟩
    | 1 => exact ⟨_, join_block h, rfl⟩
    | 2 =>
      obtain ⟨hlen, hx, hneg, rfl⟩ := h
      obtain ⟨env', hblock, hx'⟩ := negative_block hlen hx
      rw [← magnitude_of_neg hneg] at hx'
      exact ⟨_, hblock, 0, by omega, hx'⟩
    | 3 =>
      obtain ⟨hlen, hx, hneg, rfl⟩ := h
      obtain ⟨env', hblock, hx'⟩ := positive_block hlen hx
      refine ⟨_, hblock, 0, by omega, ?_⟩
      rwa [← magnitude_of_nonneg hneg] at hx'
    | c + 4 => exact h.elim

theorem returns (x : BitVec 64) : Eval.eval abs [.int x] 3 = .ok (.int (magnitude x)) := by
  have hstart : Succeeds (start abs [.int x]) ((annotated x).inv abs.entry 2) :=
    ⟨_, rfl, rfl, rfl, rfl⟩
  obtain ⟨r, heval, rfl⟩ := (annotated x).eval hstart
  exact heval

end abs

/-- Compiled, `abs` returns the absolute value, whichever arm of the branch it takes. -/
theorem abs_compiled [DoubleArith] (isa : TargetIsa) : ∃ clif, Translate.translate abs isa = .ok clif ∧
    ∀ x : BitVec 64, Cranelift.eval clif [.i64 x] 3 = .returned [.i64 (abs.magnitude x)] := by
  obtain ⟨clif, hclif, hreturns⟩ := translate_returns isa abs.valid abs.no_unit
  exact ⟨clif, hclif, fun x => hreturns rfl (abs.returns x)⟩
end JitLang.Programs
