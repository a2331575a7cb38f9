import JitLang.Ir.Checker
import JitLang.Ir.Logic
import JitLang.Translate.Interpreter

/-! # Division in a loop

`digits` of `tests/division.rs`: how often a number can be divided by a base before it is zero, cut off
after 70 rounds. Every round divides by the base, whatever it is: by `0` the first quotient is zero, and by
`1` or `-1` no quotient is, unless the number is.
-/

namespace JitLang.Programs
open Foundations Numbers Ir Ir.Eval Translate
set_option autoImplicit false

/-- Blocks and values are numbered in the order in which the builder creates them. -/
def digits : Ir.Function where
  params := [.int, .int]
  ret := .int
  blockCount := 4
  entry := ⟨0⟩
  blockParams
    | ⟨0⟩ => [⟨0⟩, ⟨1⟩]
    | ⟨1⟩ => [⟨2⟩, ⟨3⟩]
    | _ => []
  insts
    | ⟨0⟩ => [⟨4⟩]
    | ⟨1⟩ => [⟨5⟩, ⟨6⟩, ⟨7⟩, ⟨8⟩, ⟨9⟩]
    | ⟨2⟩ => [⟨10⟩, ⟨11⟩, ⟨12⟩]
    | _ => []
  terminator
    | ⟨0⟩ => some (.jump ⟨1⟩ [⟨0⟩, ⟨4⟩])
    | ⟨1⟩ => some (.branch ⟨9⟩ ⟨2⟩ [] ⟨3⟩ [])
    | ⟨2⟩ => some (.jump ⟨1⟩ [⟨10⟩, ⟨12⟩])
    | ⟨3⟩ => some (.ret (some ⟨3⟩))
    | _ => none
  inst
    | ⟨4⟩ => some (.iconst 0)
    | ⟨5⟩ => some (.iconst 0)
    | ⟨6⟩ => some (.bin .ne ⟨2⟩ ⟨5⟩)
    | ⟨7⟩ => some (.iconst 70)
    | ⟨8⟩ => some (.bin .lt ⟨3⟩ ⟨7⟩)
    | ⟨9⟩ => some (.bin .and ⟨6⟩ ⟨8⟩)
    | ⟨10⟩ => some (.bin .div ⟨2⟩ ⟨1⟩)
    | ⟨11⟩ => some (.iconst 1)
    | ⟨12⟩ => some (.bin .add ⟨3⟩ ⟨11⟩)
    | _ => none
  valueCount := 13
  valueType v := ([.int, .int, .int, .int, .int, .int, .bool, .int, .bool, .bool, .int, .int, .int] :
    List Ty)[v.index]?

namespace digits

theorem valid : digits.Valid := by
  have hchecked : digits.Checked fun b =>
      if b = ⟨0⟩ then [] else if b = ⟨1⟩ then [⟨0⟩] else [⟨0⟩, ⟨1⟩] := by
    decide
  exact hchecked.valid

theorem no_unit : ¬ HasUnitParam digits :=
  not_hasUnitParam (by decide) fun v hty => by simpa [digits] using List.mem_of_getElem? hty

/-- How often `n` can be divided by `base` before it is zero, at most `limit` times. -/
def count (base : BitVec 64) : ℕ → BitVec 64 → ℕ
  | 0, _ => 0
  | limit + 1, n => if n = 0 then 0 else count base limit (intDiv n base) + 1

theorem count_le (base : BitVec 64) (limit : ℕ) (n : BitVec 64) : count base limit n ≤ limit := by
  induction limit generalizing n with
  | zero => rfl
  | succ limit ih =>
    rw [count]
    split
    · exact Nat.zero_le _
    · exact Nat.succ_le_succ (ih _)

/-- A round takes one off what there is to count. -/
theorem count_round {m : BitVec 64} {done : ℕ} (base : BitVec 64) (hm : m ≠ 0) (hlt : done < 70) :
    count base (70 - done) m = count base (70 - (done + 1)) (intDiv m base) + 1 := by
  obtain ⟨k, hk⟩ := Nat.exists_eq_succ_of_ne_zero (Nat.sub_ne_zero_of_lt hlt)
  rw [hk, count, if_neg hm, show 70 - (done + 1) = k by omega]

theorem count_done {m : BitVec 64} {done : ℕ} (base : BitVec 64) (h : ¬ (m ≠ 0 ∧ done < 70)) :
    count base (70 - done) m = 0 := by
  by_cases hm : m = 0
  · cases 70 - done <;> simp [count, hm]
  · have hle : 70 ≤ done := not_lt.mp fun hlt => h ⟨hm, hlt⟩
    rw [Nat.sub_eq_zero_of_le hle, count]

/-! The blocks, one at a time. -/

variable [DoubleArith] {env : Env} {n m base : BitVec 64} {done : ℕ}

theorem entry_block (hlen : env.length = 13) (hn : Eval.read env ⟨0⟩ = .ok (.int n))
    (hbase : Eval.read env ⟨1⟩ = .ok (.int base)) :
    ∃ env', evalBlock digits ⟨0⟩ env = .ok (.goto ⟨1⟩ env') ∧ env'.length = 13 ∧
      Eval.read env' ⟨1⟩ = .ok (.int base) ∧ Eval.read env' ⟨2⟩ = .ok (.int n) ∧
      Eval.read env' ⟨3⟩ = .ok (.int 0) := by
  simp [evalBlock, digits, evalValue, evalInst, write_ok, read_set, hlen, hn, hbase, evalTerminator,
    enter, writeAll]

theorem header_block (hlen : env.length = 13) (hbase : Eval.read env ⟨1⟩ = .ok (.int base))
    (hm : Eval.read env ⟨2⟩ = .ok (.int m)) (hdone : Eval.read env ⟨3⟩ = .ok (.int (.ofNat 64 done)))
    (hle : done ≤ 70) :
    ∃ env', evalBlock digits ⟨1⟩ env =
        .ok (.goto (if m ≠ 0 ∧ done < 70 then ⟨2⟩ else ⟨3⟩) env') ∧ env'.length = 13 ∧
      Eval.read env' ⟨1⟩ = .ok (.int base) ∧ Eval.read env' ⟨2⟩ = .ok (.int m) ∧
      Eval.read env' ⟨3⟩ = .ok (.int (.ofNat 64 done)) := by
  have hint : (BitVec.ofNat 64 done).toInt = done := by
    rw [BitVec.toInt_ofNat']
    refine Int.bmod_eq_of_le ?_ ?_ <;> omega
  obtain ⟨more, hmore, hmore_iff⟩ : ∃ more, binary .ne (.int m) (.int 0#64) = .ok (.bool more) ∧
      (more = true ↔ m ≠ 0) := ⟨!(m == 0), rfl, by simp⟩
  obtain ⟨under, hunder, hunder_iff⟩ : ∃ under,
      binary .lt (.int (.ofNat 64 done)) (.int 70#64) = .ok (.bool under) ∧
        (under = true ↔ done < 70) := by
    refine ⟨Ord.compare (done : ℤ) 70 == .lt, ?_, ?_⟩
    · rw [binary, ordering, hint, show (70#64 : BitVec 64).toInt = 70 from rfl]
      simp only [Eval.compare, Except.map, Option.some_beq_some]
    · rw [beq_iff_eq, compare_lt_iff_lt]
      omega
  have hgo : binary .and (.bool more) (.bool under) = .ok (.bool (more && under)) := by
    cases more <;> rfl
  have hcond : (more && under) = true ↔ m ≠ 0 ∧ done < 70 := by
    rw [Bool.and_eq_true, hmore_iff, hunder_iff]
  have hinsts : digits.insts ⟨1⟩ = [⟨5⟩, ⟨6⟩, ⟨7⟩, ⟨8⟩, ⟨9⟩] := rfl
  have h5 : digits.inst ⟨5⟩ = some (.iconst 0) := rfl
  have h6 : digits.inst ⟨6⟩ = some (.bin .ne ⟨2⟩ ⟨5⟩) := rfl
  have h7 : digits.inst ⟨7⟩ = some (.iconst 70) := rfl
  have h8 : digits.inst ⟨8⟩ = some (.bin .lt ⟨3⟩ ⟨7⟩) := rfl
  have h9 : digits.inst ⟨9⟩ = some (.bin .and ⟨6⟩ ⟨8⟩) := rfl
  have hterm : digits.terminator ⟨1⟩ = some (.branch ⟨9⟩ ⟨2⟩ [] ⟨3⟩ []) := rfl
  rw [← if_congr hcond rfl rfl]
  rcases hcases : more && under <;> rw [hcases] at hgo <;>
    simp [evalBlock, hinsts, h5, h6, h7, h8, h9, hterm, evalValue, evalInst, write_ok, read_set, hlen, hm,
      hdone, hbase, hmore, hunder, hgo, evalTerminator, RVal.boolean, enter, writeAll]

theorem body_block (hlen : env.length = 13) (hbase : Eval.read env ⟨1⟩ = .ok (.int base))
    (hm : Eval.read env ⟨2⟩ = .ok (.int m)) (hdone : Eval.read env ⟨3⟩ = .ok (.int (.ofNat 64 done))) :
    ∃ env', evalBlock digits ⟨2⟩ env = .ok (.goto ⟨1⟩ env') ∧ env'.length = 13 ∧
      Eval.read env' ⟨1⟩ = .ok (.int base) ∧ Eval.read env' ⟨2⟩ = .ok (.int (intDiv m base)) ∧
      Eval.read env' ⟨3⟩ = .ok (.int (.ofNat 64 (done + 1))) := by
  have hnext : BitVec.ofNat 64 done + 1#64 = .ofNat 64 (done + 1) := (BitVec.ofNat_add done 1).symm
  simp [evalBlock, digits, evalValue, evalInst, write_ok, read_set, hlen, hm, hdone, hbase,
    evalTerminator, enter, writeAll, binary, arithmetic, hnext]

theorem exit_block (hdone : Eval.read env ⟨3⟩ = .ok (.int (.ofNat 64 done))) :
    evalBlock digits ⟨3⟩ env = .ok (.ret (.int (.ofNat 64 done))) := by
  simp [evalBlock, digits, hdone, evalTerminator]

/-- In the loop, `m` is what is left of `n` after `done` rounds. -/
structure Rounds (n base : BitVec 64) (env : Env) (m : BitVec 64) (done : ℕ) : Prop where
  length : env.length = 13
  readBase : Eval.read env ⟨1⟩ = .ok (.int base)
  readLeft : Eval.read env ⟨2⟩ = .ok (.int m)
  readDone : Eval.read env ⟨3⟩ = .ok (.int (.ofNat 64 done))
  limit : done ≤ 70
  total : done + count base (70 - done) m = count base 70 n

def inv (n base : BitVec 64) : Block → ℕ → Env → Prop
  | ⟨0⟩, k, env => env.length = 13 ∧ Eval.read env ⟨0⟩ = .ok (.int n) ∧
      Eval.read env ⟨1⟩ = .ok (.int base) ∧ k = 2 * count base 70 n + 2
  | ⟨1⟩, k, env => ∃ m done, Rounds n base env m done ∧ k = 2 * count base (70 - done) m + 1
  | ⟨2⟩, k, env => ∃ m done, Rounds n base env m done ∧ m ≠ 0 ∧ done < 70 ∧
      k = 2 * count base (70 - done) m
  | ⟨3⟩, _, env => Eval.read env ⟨3⟩ = .ok (.int (.ofNat 64 (count base 70 n)))
  | _, _, _ => False

def annotated (n base : BitVec 64) : Annotated digits (· = .int (.ofNat 64 (count base 70 n))) where
  inv := inv n base
  block := by
    rintro ⟨c⟩ k env h
    match c with
    | 0 =>
      obtain ⟨hlen, hn, hbase, rfl⟩ := h
      obtain ⟨env', hblock, hlen', hbase', hn', hzero⟩ := entry_block hlen hn hbase
      exact ⟨_, hblock, 2 * count base 70 n + 1, by omega, n, 0,
        ⟨hlen', hbase', hn', hzero, by omega, Nat.zero_add _⟩, rfl⟩
    | 1 =>
      obtain ⟨m, done, hloop, rfl⟩ := h
      obtain ⟨env', hblock, hlen', hbase', hm', hdone'⟩ :=
        header_block hloop.length hloop.readBase hloop.readLeft hloop.readDone hloop.limit
      refine ⟨_, hblock, ?_⟩
      by_cases hcond : m ≠ 0 ∧ done < 70
      · rw [if_pos hcond]
        exact ⟨2 * count base (70 - done) m, by omega, m, done,
          ⟨hlen', hbase', hm', hdone', hloop.limit, hloop.total⟩, hcond.1, hcond.2, rfl⟩
      · rw [if_neg hcond]
        have htotal := hloop.total
        rw [count_done base hcond, Nat.add_zero] at htotal
        subst htotal
        exact ⟨0, by omega, hdone'⟩
    | 2 =>
      obtain ⟨m, done, hloop, hm, hlt, rfl⟩ := h
      obtain ⟨env', hblock, hlen', hbase', hm', hdone'⟩ :=
        body_block hloop.length hloop.readBase hloop.readLeft hloop.readDone
      have hround := count_round base hm hlt
      have htotal := hloop.total
      exact ⟨_, hblock, 2 * count base (70 - (done + 1)) (intDiv m base) + 1, by omega,
        intDiv m base, done + 1, ⟨hlen', hbase', hm', hdone', by omega, by omega⟩, rfl⟩
    | 3 => exact ⟨_, exit_block h, rfl⟩
    | c + 4 => exact h.elim

theorem returns (n base : BitVec 64) :
    Eval.eval digits [.int n, .int base] (2 * count base 70 n + 3) =
      .ok (.int (.ofNat 64 (count base 70 n))) := by
  have hstart : Succeeds (start digits [.int n, .int base])
      ((annotated n base).inv digits.entry (2 * count base 70 n + 2)) :=
    ⟨_, rfl, rfl, rfl, rfl, rfl⟩
  obtain ⟨r, heval, rfl⟩ := (annotated n base).eval hstart
  exact heval

end digits

/-- Compiled, `digits` counts the divisions for every number and every base, within the bound of the test,
and never faults. -/
theorem digits_compiled [DoubleArith] (isa : TargetIsa) :
    ∃ clif, Translate.translate digits isa = .ok clif ∧ ∀ n base : BitVec 64,
      Cranelift.eval clif [.i64 n, .i64 base] 10000 =
        .returned [.i64 (.ofNat 64 (digits.count base 70 n))] := by
  obtain ⟨clif, hclif, hreturns⟩ := translate_returns isa digits.valid digits.no_unit
  refine ⟨clif, hclif, fun n base => ?_⟩
  have hle := digits.count_le base 70 n
  exact hreturns rfl (eval_mono (by omega) (digits.returns n base))

/-- The counts that the test asserts. -/
example : digits.count 10 70 12345 = 5 ∧ digits.count 0 70 12345 = 1 ∧
    digits.count (-1) 70 (BitVec.intMin 64) = 70 := by decide

end JitLang.Programs
