import JitLang.Ir.Function
import JitLang.Numbers.Double

/-! # The reference interpreter

The interpreter of `tests/support`, the oracle compiled code is checked against: an environment
indexed by value handle, block arguments bound as one parallel assignment, wrapping integer
arithmetic, and `x / 0 == 0`. It panics where the Rust code does (a value read before it was defined,
an operand of the wrong kind, an index out of bounds); running out of fuel is kept apart.
-/

namespace JitLang.Ir.Eval
open Numbers
set_option autoImplicit false

/-- A runtime value (`Value` of `tests/support`). -/
inductive RVal
  | int (v : BitVec 64)
  | float (v : BitVec 64)
  | bool (v : Bool)
  | unit
  deriving DecidableEq, Repr

inductive Stop
  | panic
  | outOfFuel
  deriving DecidableEq, Repr

abbrev Env := List (Option RVal)

def RVal.boolean : RVal → Except Stop Bool
  | .bool v => .ok v
  | _ => .error .panic

/-- `wrapping_div`, extended with `x / 0 == 0`. -/
def intDiv (a b : BitVec 64) : BitVec 64 := if b = 0 then 0 else a.sdiv b

section Operators
variable [DoubleArith]

/-- `a == b` on `f64`: ordered and equal. -/
def floatEq (a b : BitVec 64) : Bool := DoubleArith.compare a b == some .eq

/-- `==` of the derived `PartialEq`: values of different kinds differ. -/
def RVal.eq : RVal → RVal → Bool
  | .int a, .int b => a == b
  | .float a, .float b => floatEq a b
  | .bool a, .bool b => a == b
  | .unit, .unit => true
  | _, _ => false

def arithmetic (op : BinOp) (lhs rhs : RVal) : Except Stop RVal :=
  match lhs, rhs with
  | .int a, .int b =>
    match op with
    | .add => .ok (.int (a + b))
    | .sub => .ok (.int (a - b))
    | .mul => .ok (.int (a * b))
    | .div => .ok (.int (intDiv a b))
    | _ => .error .panic
  | .float a, .float b =>
    match op with
    | .add => .ok (.float (DoubleArith.add a b))
    | .sub => .ok (.float (DoubleArith.sub a b))
    | .mul => .ok (.float (DoubleArith.mul a b))
    | .div => .ok (.float (DoubleArith.div a b))
    | _ => .error .panic
  | _, _ => .error .panic

/-- `compare`, from the answer of `PartialOrd::partial_cmp`. -/
def compare (op : BinOp) (o : Option Ordering) : Except Stop Bool :=
  match op with
  | .lt => .ok (o == some .lt)
  | .le => .ok (o == some .lt || o == some .eq)
  | .gt => .ok (o == some .gt)
  | .ge => .ok (o == some .gt || o == some .eq)
  | _ => .error .panic

def ordering (op : BinOp) (lhs rhs : RVal) : Except Stop RVal :=
  match lhs, rhs with
  | .int a, .int b => (compare op (some (Ord.compare a.toInt b.toInt))).map .bool
  | .float a, .float b => (compare op (DoubleArith.compare a b)).map .bool
  | _, _ => .error .panic

def binary (op : BinOp) (lhs rhs : RVal) : Except Stop RVal :=
  match op with
  | .add | .sub | .mul | .div => arithmetic op lhs rhs
  | .eq => .ok (.bool (lhs.eq rhs))
  | .ne => .ok (.bool !(lhs.eq rhs))
  | .lt | .le | .gt | .ge => ordering op lhs rhs
  -- `&&` and `||` look at the right operand only where the left one does not decide.
  | .and => do
    if ← lhs.boolean then return .bool (← rhs.boolean) else return .bool false
  | .or => do
    if ← lhs.boolean then return .bool true else return .bool (← rhs.boolean)

def unary (op : UnOp) (operand : RVal) : Except Stop RVal :=
  match op with
  | .neg =>
    match operand with
    | .int v => .ok (.int (-v))
    | .float v => .ok (.float (DoubleArith.neg v))
    | _ => .error .panic
  | .not => do return .bool !(← operand.boolean)

end Operators

/-! ## The environment -/

def read (env : Env) (value : Value) : Except Stop RVal :=
  match (env[value.index]?).join with
  | some x => .ok x
  | none => .error .panic

/-- `env[value.index()] = Some(x)`. -/
def write (env : Env) (value : Value) (x : RVal) : Except Stop Env :=
  if value.index < env.length then .ok (env.set value.index (some x)) else .error .panic

def writeAll (env : Env) (pairs : List (Value × RVal)) : Except Stop Env :=
  pairs.foldlM (fun env pair => write env pair.1 pair.2) env

/-- Binds `args` to `target`'s parameters as one parallel assignment. -/
def enter (func : Function) (env : Env) (target : Block) (args : List Value) : Except Stop Env := do
  let incoming ← args.mapM (read env)
  writeAll env ((func.blockParams target).zip incoming)

/-! ## Running a function -/

section Run
variable [DoubleArith] (func : Function)

/-- The `match` on the instruction. -/
def evalInst (env : Env) : Inst → Except Stop RVal
  | .iconst v => .ok (.int v)
  | .fconst v => .ok (.float v)
  | .bconst v => .ok (.bool v)
  | .bin op lhs rhs => do binary op (← read env lhs) (← read env rhs)
  | .un op operand => do unary op (← read env operand)

/-- The body of the instruction loop. -/
def evalValue (env : Env) (value : Value) : Except Stop Env :=
  match func.inst value with
  | none => .error .panic
  | some inst => do write env value (← evalInst env inst)

inductive Exit
  | ret (value : RVal)
  | goto (block : Block) (env : Env)

/-- The `match` on the terminator. -/
def evalTerminator (env : Env) : Terminator → Except Stop Exit
  | .ret none => .ok (.ret .unit)
  | .ret (some v) => do return .ret (← read env v)
  | .jump target args => do return .goto target (← enter func env target args)
  | .branch cond thenBlock thenArgs elseBlock elseArgs => do
    if ← (← read env cond).boolean then
      return .goto thenBlock (← enter func env thenBlock thenArgs)
    else
      return .goto elseBlock (← enter func env elseBlock elseArgs)

/-- One round of the interpreter's loop, after the fuel check. -/
def evalBlock (block : Block) (env : Env) : Except Stop Exit := do
  let env ← (func.insts block).foldlM (evalValue func) env
  match func.terminator block with
  | none => .error .panic
  | some term => evalTerminator func env term

/-- The interpreter's loop; `fuel` bounds the number of blocks entered. -/
def evalFrom : ℕ → Block → Env → Except Stop RVal
  | 0, _, _ => .error .outOfFuel
  | fuel + 1, block, env => do
    match ← evalBlock func block env with
    | .ret value => return value
    | .goto block env => evalFrom fuel block env

def enteredFrom : ℕ → Block → Env → List Block
  | 0, _, _ => []
  | fuel + 1, block, env =>
    block :: match evalBlock func block env with
      | .ok (.goto block env) => enteredFrom fuel block env
      | _ => []

/-- The environment at the start: the entry's parameters are bound to the arguments. -/
def start (args : List RVal) : Except Stop Env :=
  if (func.blockParams func.entry).length = args.length then
    writeAll (List.replicate func.valueCount none) ((func.blockParams func.entry).zip args)
  else
    .error .panic

def eval (args : List RVal) (fuel : ℕ) : Except Stop RVal := do
  let env ← start func args
  evalFrom func fuel func.entry env

def entered (args : List RVal) (fuel : ℕ) : List Block :=
  match start func args with
  | .ok env => enteredFrom func fuel func.entry env
  | .error _ => []

end Run
end JitLang.Ir.Eval
