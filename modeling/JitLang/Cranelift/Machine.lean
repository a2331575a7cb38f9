import JitLang.Foundations.Except
import JitLang.Foundations.Lists
import JitLang.Cranelift.Function
import JitLang.Numbers.Double
import Mathlib.Logic.Function.Basic

/-! # Executing Cranelift IR

A small-step machine: a state is the current block, how many of its instructions have been executed,
and the values defined so far in the run. A step may trap (`sdiv` on a zero divisor or on the
overflowing pair) or get stuck (a value read before it is defined, an operand of the wrong type, a
branch to a block that does not exist or with the wrong number of arguments, a block without a
terminator). `evalFrom` and `enteredFrom` run the same instructions block by block.
-/

namespace JitLang.Cranelift
open Foundations Numbers
set_option autoImplicit false

/-! ## Machine values -/

inductive Val
  | i8 (bits : BitVec 8)
  | i64 (bits : BitVec 64)
  | f64 (bits : BitVec 64)
  deriving DecidableEq, Repr

def Val.ty : Val → Ty
  | .i8 _ => .i8
  | .i64 _ => .i64
  | .f64 _ => .f64

/-- The byte of a comparison's outcome. -/
def Val.ofBool (b : Bool) : Val := .i8 (if b then 1 else 0)

inductive Fault
  | trap
  | stuck
  deriving DecidableEq, Repr

def Val.truthy : Val → Except Fault Bool
  | .i8 x => .ok (x != 0)
  | .i64 x => .ok (x != 0)
  | .f64 _ => .error .stuck

theorem truthy_ofBool (a : Bool) : (Val.ofBool a).truthy = .ok a := by
  cases a <;> rfl

abbrev Env := Value → Option Val

def Env.empty : Env := fun _ => none

def Env.set (env : Env) (v : Value) (x : Val) : Env := Function.update env v (some x)

@[simp] theorem Env.set_self (env : Env) (v : Value) (x : Val) : env.set v x v = some x := by
  simp [Env.set]

theorem Env.set_ne (env : Env) {v w : Value} (x : Val) (h : w ≠ v) : env.set v x w = env w := by
  simp [Env.set, h]

def Env.read (env : Env) (v : Value) : Except Fault Val :=
  match env v with
  | some x => .ok x
  | none => .error .stuck

theorem read_of_some {env : Env} {v : Value} {val : Val} (h : env v = some val) :
    env.read v = .ok val := by
  rw [Env.read, h]

theorem read_set_self (env : Env) (v : Value) (x : Val) : (env.set v x).read v = .ok x :=
  read_of_some (Env.set_self env v x)

theorem read_set_of_ne (env : Env) {v w : Value} (x : Val) (h : w.index ≠ v.index) :
    (env.set v x).read w = env.read w := by
  rw [Env.read, Env.read, Env.set_ne _ _ fun e => h (by rw [e])]

/-! ## Instructions -/

section Semantics
variable {w : ℕ}

def IntCC.holds : IntCC → BitVec w → BitVec w → Bool
  | .equal, x, y => x == y
  | .notEqual, x, y => x != y
  | .signedLessThan, x, y => x.slt y
  | .signedLessThanOrEqual, x, y => x.sle y
  | .signedGreaterThan, x, y => y.slt x
  | .signedGreaterThanOrEqual, x, y => y.sle x
  | .unsignedLessThanOrEqual, x, y => x.ule y

/-- The outcomes a float condition accepts; only `notEqual` accepts the unordered one. -/
def FloatCC.holds : FloatCC → Option Ordering → Bool
  | .equal, o => o == some .eq
  | .notEqual, o => o != some .eq
  | .lessThan, o => o == some .lt
  | .lessThanOrEqual, o => o == some .lt || o == some .eq
  | .greaterThan, o => o == some .gt
  | .greaterThanOrEqual, o => o == some .gt || o == some .eq

/-- The integer operations; `sdiv` traps on a zero divisor and on the one quotient that does not
fit. -/
def BinaryOp.evalInt : BinaryOp → BitVec w → BitVec w → Except Fault (BitVec w)
  | .iadd, x, y => .ok (x + y)
  | .isub, x, y => .ok (x - y)
  | .imul, x, y => .ok (x * y)
  | .sdiv, x, y =>
    if y = 0 ∨ (x = BitVec.intMin w ∧ y = -1) then .error .trap else .ok (x.sdiv y)
  | .band, x, y => .ok (x &&& y)
  | .bor, x, y => .ok (x ||| y)
  | .bxor, x, y => .ok (x ^^^ y)
  | .fadd, _, _ | .fsub, _, _ | .fmul, _, _ | .fdiv, _, _ => .error .stuck

variable [DoubleArith]

def BinaryOp.evalFloat : BinaryOp → BitVec 64 → BitVec 64 → Except Fault (BitVec 64)
  | .fadd, x, y => .ok (DoubleArith.add x y)
  | .fsub, x, y => .ok (DoubleArith.sub x y)
  | .fmul, x, y => .ok (DoubleArith.mul x y)
  | .fdiv, x, y => .ok (DoubleArith.div x y)
  | .iadd, _, _ | .isub, _, _ | .imul, _, _ | .sdiv, _, _ | .band, _, _ | .bor, _, _ | .bxor, _, _ =>
    .error .stuck

def UnaryOp.eval : UnaryOp → Val → Except Fault Val
  | .ineg, .i8 x => .ok (.i8 (-x))
  | .ineg, .i64 x => .ok (.i64 (-x))
  | .fneg, .f64 x => .ok (.f64 (DoubleArith.neg x))
  | _, _ => .error .stuck

def BinaryOp.eval (op : BinaryOp) : Val → Val → Except Fault Val
  | .i8 x, .i8 y => (op.evalInt x y).map .i8
  | .i64 x, .i64 y => (op.evalInt x y).map .i64
  | .f64 x, .f64 y => (op.evalFloat x y).map .f64
  | _, _ => .error .stuck

def IntCC.eval (cc : IntCC) : Val → Val → Except Fault Val
  | .i8 x, .i8 y => .ok (.ofBool (cc.holds x y))
  | .i64 x, .i64 y => .ok (.ofBool (cc.holds x y))
  | _, _ => .error .stuck

def FloatCC.eval (cc : FloatCC) : Val → Val → Except Fault Val
  | .f64 x, .f64 y => .ok (.ofBool (cc.holds (DoubleArith.compare x y)))
  | _, _ => .error .stuck

/-- A constant is truncated to the width of its type. -/
def iconst : Ty → BitVec 64 → Except Fault Val
  | .i8, imm => .ok (.i8 (imm.setWidth 8))
  | .i64, imm => .ok (.i64 imm)
  | .f64, _ => .error .stuck

/-- The value an instruction that is no terminator computes. -/
def evalInst (env : Env) : Inst → Except Fault Val
  | .iconst ty imm => iconst ty imm
  | .f64const imm => .ok (.f64 imm)
  | .unary op x => do op.eval (← env.read x)
  | .binary op x y => do op.eval (← env.read x) (← env.read y)
  | .icmp cc x y => do cc.eval (← env.read x) (← env.read y)
  | .fcmp cc x y => do cc.eval (← env.read x) (← env.read y)
  | .select c x y => do
    let c ← (← env.read c).truthy
    let x ← env.read x
    let y ← env.read y
    return if c then x else y
  | .jump _ | .brif _ _ _ | .return_ _ => .error .stuck

variable {env : Env} {x y : Value} {p q : Val}

theorem evalInst_unary (hx : env x = some p) (op : UnaryOp) :
    evalInst env (.unary op x) = op.eval p := by
  rw [evalInst, read_of_some hx, ok_bind]

theorem evalInst_binary (hx : env x = some p) (hy : env y = some q) (op : BinaryOp) :
    evalInst env (.binary op x y) = op.eval p q := by
  rw [evalInst, read_of_some hx, read_of_some hy, ok_bind, ok_bind]

theorem evalInst_icmp (hx : env x = some p) (hy : env y = some q) (cc : IntCC) :
    evalInst env (.icmp cc x y) = cc.eval p q := by
  rw [evalInst, read_of_some hx, read_of_some hy, ok_bind, ok_bind]

theorem evalInst_fcmp (hx : env x = some p) (hy : env y = some q) (cc : FloatCC) :
    evalInst env (.fcmp cc x y) = cc.eval p q := by
  rw [evalInst, read_of_some hx, read_of_some hy, ok_bind, ok_bind]

theorem evalInst_select {c : Value} {r : Val} {taken : Bool} (hc : env c = some r)
    (htaken : r.truthy = .ok taken) (hx : env x = some p) (hy : env y = some q) :
    evalInst env (.select c x y) = .ok (if taken then p else q) := by
  simp only [evalInst, read_of_some hc, read_of_some hx, read_of_some hy, htaken, ok_bind, pure_eq_ok]

/-! ## Truth values as bytes -/

variable {a b : Bool}

theorem evalInst_band (hx : env x = some (.ofBool a)) (hy : env y = some (.ofBool b)) :
    evalInst env (.binary .band x y) = .ok (.ofBool (a && b)) := by
  rw [evalInst_binary hx hy]
  cases a <;> cases b <;> rfl

theorem evalInst_bor (hx : env x = some (.ofBool a)) (hy : env y = some (.ofBool b)) :
    evalInst env (.binary .bor x y) = .ok (.ofBool (a || b)) := by
  rw [evalInst_binary hx hy]
  cases a <;> cases b <;> rfl

theorem evalInst_bxor (hx : env x = some (.ofBool a)) (hy : env y = some (.ofBool b)) :
    evalInst env (.binary .bxor x y) = .ok (.ofBool (a ^^ b)) := by
  rw [evalInst_binary hx hy]
  cases a <;> cases b <;> rfl

theorem evalInst_equal (hx : env x = some (.ofBool a)) (hy : env y = some (.ofBool b)) :
    evalInst env (.icmp .equal x y) = .ok (.ofBool (a == b)) := by
  rw [evalInst_icmp hx hy]
  cases a <;> cases b <;> rfl

theorem evalInst_notEqual (hx : env x = some (.ofBool a)) (hy : env y = some (.ofBool b)) :
    evalInst env (.icmp .notEqual x y) = .ok (.ofBool (a != b)) := by
  rw [evalInst_icmp hx hy]
  cases a <;> cases b <;> rfl

theorem bool_of_icmp {cc : IntCC} {val : Val} (h : evalInst env (.icmp cc x y) = .ok val) :
    ∃ b, val = .ofBool b := by
  obtain ⟨p, -, h⟩ := bind_eq_ok.mp h
  obtain ⟨q, -, h⟩ := bind_eq_ok.mp h
  cases p <;> cases q <;> cases h <;> exact ⟨_, rfl⟩

theorem bool_of_fcmp {cc : FloatCC} {val : Val} (h : evalInst env (.fcmp cc x y) = .ok val) :
    ∃ b, val = .ofBool b := by
  obtain ⟨p, -, h⟩ := bind_eq_ok.mp h
  obtain ⟨q, -, h⟩ := bind_eq_ok.mp h
  cases p <;> cases q <;> cases h
  exact ⟨_, rfl⟩

end Semantics

/-! ## Control flow -/

/-- Binds the parameters of a block, all at once. -/
def Env.bind (env : Env) (params : List Value) (args : List Val) : Env :=
  (params.zip args).foldl (fun env pair => env.set pair.1 pair.2) env

inductive Exit
  | ret (vals : List Val)
  | goto (block : Block) (env : Env)

inductive Effect
  | next (env : Env)
  | exit (e : Exit)

section Machine
variable (func : Function)

/-- Takes a branch: all arguments are read before any parameter is bound. -/
def enter (env : Env) (call : BlockCall) : Except Fault Exit := do
  let args ← call.args.mapM env.read
  if call.block ∈ func.layout ∧ args.length = (func.blockParams call.block).length then
    return .goto call.block (env.bind (func.blockParams call.block) args)
  else
    .error .stuck

variable [DoubleArith]

def execNode (env : Env) (node : InstData) : Except Fault Effect :=
  match node.inst with
  | .jump dest => do return .exit (← enter func env dest)
  | .brif c thenDest elseDest => do
    let taken ← (← env.read c).truthy
    return .exit (← enter func env (if taken then thenDest else elseDest))
  | .return_ args => do return .exit (.ret (← args.mapM env.read))
  | inst => do
    let x ← evalInst env inst
    match node.result with
    | some v => return .next (env.set v x)
    | none => return .next env

/-! ## The small-step machine -/

structure State where
  block : Block
  pc : ℕ
  env : Env

inductive Outcome
  | run (s : State)
  | done (vals : List Val)
  | fault (e : Fault)

def step (s : State) : Outcome :=
  match (func.blockInsts s.block)[s.pc]? with
  | none => .fault .stuck
  | some node =>
    match execNode func s.env node with
    | .error e => .fault e
    | .ok (.next env) => .run ⟨s.block, s.pc + 1, env⟩
    | .ok (.exit (.goto block env)) => .run ⟨block, 0, env⟩
    | .ok (.exit (.ret vals)) => .done vals

/-- `s` is a state of a run of `func` on `args`: the entry block is first in layout and its parameters
are bound to the arguments. -/
inductive Reaches (args : List Val) : State → Prop
  | start {entry : Block} : func.entry? = some entry →
      args.length = (func.blockParams entry).length →
      Reaches args ⟨entry, 0, Env.empty.bind (func.blockParams entry) args⟩
  | step {s s' : State} : Reaches args s → step func s = .run s' → Reaches args s'

/-! ## Running block by block -/

/-- Runs the rest of a block up to the terminator that leaves it. -/
def runBlock : List InstData → Env → Except Fault Exit
  | [], _ => .error .stuck
  | node :: rest, env => do
    match ← execNode func env node with
    | .next env => runBlock rest env
    | .exit e => return e

/-- How a run with a bound on the number of block entries ends. -/
inductive Result
  | returned (vals : List Val)
  | outOfFuel
  | fault (e : Fault)
  deriving DecidableEq, Repr

/-- Runs for at most the given number of block entries, the current block included. -/
def evalFrom : ℕ → Block → Env → Result
  | 0, _, _ => .outOfFuel
  | fuel + 1, block, env =>
    match runBlock func (func.blockInsts block) env with
    | .error e => .fault e
    | .ok (.ret vals) => .returned vals
    | .ok (.goto block env) => evalFrom fuel block env

/-- The blocks such a run enters, in order. -/
def enteredFrom : ℕ → Block → Env → List Block
  | 0, _, _ => []
  | fuel + 1, block, env =>
    block :: match runBlock func (func.blockInsts block) env with
      | .ok (.goto block env) => enteredFrom fuel block env
      | _ => []

def eval (args : List Val) (fuel : ℕ) : Result :=
  match func.entry? with
  | none => .fault .stuck
  | some entry =>
    if args.length = (func.blockParams entry).length then
      evalFrom func fuel entry (Env.empty.bind (func.blockParams entry) args)
    else
      .fault .stuck

def entered (args : List Val) (fuel : ℕ) : List Block :=
  match func.entry? with
  | none => []
  | some entry => enteredFrom func fuel entry (Env.empty.bind (func.blockParams entry) args)

/-! ## Terminators -/

variable {func}

section Terminators
variable (env : Env) {c : Value} {taken : Bool} {results : List Value} {vals : List Val}

theorem runBlock_jump (dest : BlockCall) :
    runBlock func [⟨none, .jump dest⟩] env = enter func env dest := by
  cases h : enter func env dest <;> simp [runBlock, execNode, h]

variable {env}

theorem runBlock_brif (hc : env c = some (.ofBool taken)) (thenDest elseDest : BlockCall) :
    runBlock func [⟨none, .brif c thenDest elseDest⟩] env =
      enter func env (if taken then thenDest else elseDest) := by
  cases h : enter func env (if taken then thenDest else elseDest) <;>
    simp [runBlock, execNode, read_of_some hc, truthy_ofBool, h]

theorem runBlock_return (h : results.mapM env.read = .ok vals) :
    runBlock func [⟨none, .return_ results⟩] env = .ok (.ret vals) := by
  simp [runBlock, execNode, h]

end Terminators

/-! ## Blocks as runs of steps -/

variable {args : List Val}

/-- The end of a block, as an event of the small-step machine. -/
def Ends (func : Function) (args : List Val) : Except Fault Exit → Prop
  | .ok (.goto block env) => Reaches func args ⟨block, 0, env⟩
  | .ok (.ret vals) => ∃ s, Reaches func args s ∧ step func s = .done vals
  | .error e => ∃ s, Reaches func args s ∧ step func s = .fault e

/-- The rest of a block ends as the steps of the machine from there do. -/
theorem Reaches.runBlock {s : State} (h : Reaches func args s) :
    Ends func args (Cranelift.runBlock func ((func.blockInsts s.block).drop s.pc) s.env) := by
  induction hrest : (func.blockInsts s.block).drop s.pc generalizing s with
  | nil =>
    have hnone : (func.blockInsts s.block)[s.pc]? = none :=
      List.getElem?_eq_none (List.drop_eq_nil_iff.mp hrest)
    exact ⟨s, h, by simp [Cranelift.step, hnone]⟩
  | cons node rest ih =>
    have hnode : (func.blockInsts s.block)[s.pc]? = some node := getElem?_of_drop hrest
    have hnext : (func.blockInsts s.block).drop (s.pc + 1) = rest := drop_succ_of_drop hrest
    have hstep : Cranelift.step func s = match execNode func s.env node with
        | .error e => .fault e
        | .ok (.next env) => .run ⟨s.block, s.pc + 1, env⟩
        | .ok (.exit (.goto block env)) => .run ⟨block, 0, env⟩
        | .ok (.exit (.ret vals)) => .done vals := by
      simp only [Cranelift.step, hnode]
    rw [Cranelift.runBlock]
    cases hexec : execNode func s.env node with
    | error e => exact ⟨s, h, by rw [hstep, hexec]⟩
    | ok effect =>
      rw [hexec] at hstep
      cases effect with
      | next env => exact ih (s := ⟨s.block, s.pc + 1, env⟩) (.step h hstep) hnext
      | exit e =>
        cases e with
        | ret vals => exact ⟨s, h, hstep⟩
        | goto block env => exact .step h hstep

/-- A run by blocks that faults comes to a faulting step. -/
theorem Reaches.evalFrom_fault {block : Block} {env : Env} (h : Reaches func args ⟨block, 0, env⟩)
    {fuel : ℕ} {e : Fault} (he : evalFrom func fuel block env = .fault e) :
    ∃ s, Reaches func args s ∧ Cranelift.step func s = .fault e := by
  induction fuel generalizing block env with
  | zero => cases he
  | succ fuel ih =>
    have hends := h.runBlock
    rw [List.drop_zero] at hends
    rw [evalFrom] at he
    cases hrun : Cranelift.runBlock func (func.blockInsts block) env with
    | error e' =>
      rw [hrun] at he hends
      cases he
      exact hends
    | ok exit =>
      rw [hrun] at he hends
      cases exit with
      | ret vals => cases he
      | goto block env => exact ih hends he

end Machine
end JitLang.Cranelift
