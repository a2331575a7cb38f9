import JitLang.Cranelift.Builder
import JitLang.Translate.Traversal

/-! # `translate`: from an `ir-lang` function to a Cranelift function

The functions of `src/translate.rs` under their own names. `?` is the bind of `Except Failure`; an
indexed write `table[i] = Some(x)` is `writeIndex`, which panics out of bounds as Rust does. Each `for`
loop is a `foldlM` over its list, with the loop's body as a definition of its own.

`translation` is the body of `translate` and returns the tables `translate` drops together with the
function, so that theorems can speak of the Cranelift stand-in of an IR block or value.
-/

namespace JitLang.Translate
set_option autoImplicit false

open Cranelift (Builder)

/-- The target: the translator asks it only for its default calling convention. -/
structure TargetIsa where
  defaultCallConv : Cranelift.CallConv
  deriving DecidableEq, Repr

/-! ## Errors and lookups -/

/-- Reports a broken translator invariant. -/
def internal (what : String) : Failure :=
  .error (.codegen ("internal translator invariant violated: " ++ what))

/-- `Option::ok_or_else`. -/
def okOr {α : Type} (x : Option α) (e : Failure) : Except Failure α :=
  match x with
  | some a => .ok a
  | none => .error e

/-- The Cranelift value standing in for an IR value. -/
def clifValue (values : List (Option Cranelift.Value)) (value : Ir.Value) :
    Except Failure Cranelift.Value :=
  okOr (values[value.index]?).join (internal "a value was referenced before it was defined")

/-- The Cranelift block standing in for a reachable IR block. -/
def clifBlock (blocks : List (Option Cranelift.Block)) (block : Ir.Block) :
    Except Failure Cranelift.Block :=
  okOr (blocks[block.index]?).join (internal "a reachable terminator named an unreachable block")

def valueType (func : Ir.Function) (value : Ir.Value) : Except Failure Ir.Ty :=
  okOr (func.valueType value) (internal "a referenced value has no recorded type")

/-! ## Types and the signature -/

/-- The machine type an IR type lowers to. -/
def abiType : Ir.Ty → Except Failure Cranelift.Ty
  | .int => .ok .i64
  | .float => .ok .f64
  | .bool => .ok .i8
  | .unit => .error (.error (.unsupported
      "a parameter or block parameter has type unit, which has no machine representation"))

/-- The ABI parameter or return slot for an IR type; a `bool` is zero-extended. -/
def abiParam (ty : Ir.Ty) : Except Failure Cranelift.AbiParam := do
  let param := Cranelift.AbiParam.new (← abiType ty)
  return if ty = .bool then param.uext else param

/-- The Cranelift signature of the IR function's parameter and return types. -/
def signature (func : Ir.Function) (isa : TargetIsa) : Except Failure Cranelift.Signature := do
  let params ← func.params.mapM abiParam
  if func.ret ≠ .unit then
    let ret ← abiParam func.ret
    return ⟨isa.defaultCallConv, params, [ret]⟩
  else
    return ⟨isa.defaultCallConv, params, []⟩

/-! ## Instructions -/

/-- A total, never-trapping signed 64-bit division `l / r`. `r + 1 <= 1` (unsigned, wrapping) picks
out the divisors `-1` and `0`, for which the answer is `l * r`; the `sdiv` sees `1` in their place. -/
def emitIntDiv (builder : Builder) (l r : Cranelift.Value) : Cranelift.Value × Builder :=
  let (shifted, builder) := builder.iaddImm r 1
  let (special, builder) := builder.icmpImm .unsignedLessThanOrEqual shifted 1
  let (one, builder) := builder.ins (.iconst .i64 1)
  let (safeDivisor, builder) := builder.ins (.select special one r)
  let (quotient, builder) := builder.ins (.binary .sdiv l safeDivisor)
  let (specialResult, builder) := builder.ins (.binary .imul l r)
  builder.ins (.select special specialResult quotient)

/-- Emits a binary operation, choosing the floating-point or integer instruction by the operand
type. -/
def emitBin (builder : Builder) (op : Ir.BinOp) (l r : Cranelift.Value) (operandTy : Ir.Ty) :
    Cranelift.Value × Builder :=
  let isFloat := operandTy = .float
  match op with
  | .add => builder.ins (if isFloat then .binary .fadd l r else .binary .iadd l r)
  | .sub => builder.ins (if isFloat then .binary .fsub l r else .binary .isub l r)
  | .mul => builder.ins (if isFloat then .binary .fmul l r else .binary .imul l r)
  | .div => if isFloat then builder.ins (.binary .fdiv l r) else emitIntDiv builder l r
  | .eq => builder.ins (if isFloat then .fcmp .equal l r else .icmp .equal l r)
  | .ne => builder.ins (if isFloat then .fcmp .notEqual l r else .icmp .notEqual l r)
  | .lt => builder.ins (if isFloat then .fcmp .lessThan l r else .icmp .signedLessThan l r)
  | .le =>
    builder.ins (if isFloat then .fcmp .lessThanOrEqual l r else .icmp .signedLessThanOrEqual l r)
  | .gt => builder.ins (if isFloat then .fcmp .greaterThan l r else .icmp .signedGreaterThan l r)
  | .ge =>
    builder.ins
      (if isFloat then .fcmp .greaterThanOrEqual l r else .icmp .signedGreaterThanOrEqual l r)
  | .and => builder.ins (.binary .band l r)
  | .or => builder.ins (.binary .bor l r)

/-- Emits a unary operation; logical not flips the low bit of a `0`/`1` byte. -/
def emitUn (builder : Builder) (op : Ir.UnOp) (x : Cranelift.Value) (operandTy : Ir.Ty) :
    Cranelift.Value × Builder :=
  match op with
  | .neg => builder.ins (if operandTy = .float then .unary .fneg x else .unary .ineg x)
  | .not => builder.bxorImm x 1

/-- Emits one IR instruction and returns the Cranelift value it defines. -/
def emitInst (builder : Builder) (func : Ir.Function) (inst : Ir.Inst)
    (values : List (Option Cranelift.Value)) : Except Failure (Cranelift.Value × Builder) :=
  match inst with
  | .iconst value => return builder.ins (.iconst .i64 value)
  | .fconst value => return builder.ins (.f64const value)
  | .bconst value => return builder.ins (.iconst .i8 (if value then 1 else 0))
  | .bin op lhs rhs => do
    let operandTy ← valueType func lhs
    let l ← clifValue values lhs
    let r ← clifValue values rhs
    return emitBin builder op l r operandTy
  | .un op operand => do
    let operandTy ← valueType func operand
    let x ← clifValue values operand
    return emitUn builder op x operandTy

/-! ## Terminators -/

def blockArgs (values : List (Option Cranelift.Value)) (args : List Ir.Value) :
    Except Failure (List Cranelift.Value) := args.mapM (clifValue values)

def emitTerminator (builder : Builder) (term : Ir.Terminator)
    (blocks : List (Option Cranelift.Block)) (values : List (Option Cranelift.Value)) :
    Except Failure Builder :=
  match term with
  | .ret none => return builder.insTerminator (.return_ [])
  | .ret (some value) => do
    let v ← clifValue values value
    return builder.insTerminator (.return_ [v])
  | .jump target args => do
    let block ← clifBlock blocks target
    let args ← blockArgs values args
    return builder.insTerminator (.jump ⟨block, args⟩)
  | .branch cond thenBlock thenArgs elseBlock elseArgs => do
    let condition ← clifValue values cond
    let thenB ← clifBlock blocks thenBlock
    let elseB ← clifBlock blocks elseBlock
    let thenA ← blockArgs values thenArgs
    let elseA ← blockArgs values elseArgs
    return builder.insTerminator (.brif condition ⟨thenB, thenA⟩ ⟨elseB, elseA⟩)

/-! ## The loops of `translate` -/

/-- Body of the block-creating loop. -/
def createBlock (st : List (Option Cranelift.Block) × Builder) (irBlock : Ir.Block) :
    Except Failure (List (Option Cranelift.Block) × Builder) := do
  let (block, builder) := st.2.createBlock
  let blocks ← writeIndex st.1 irBlock.index (some block)
  return (blocks, builder)

/-- Body of the inner parameter loop. -/
def appendParam (func : Ir.Function) (block : Cranelift.Block) (builder : Builder)
    (param : Ir.Value) : Except Failure Builder := do
  let ty ← abiType (← valueType func param)
  return builder.appendBlockParam block ty

/-- Body of the parameter loop: one Cranelift parameter per IR parameter of a block other than the
entry. -/
def appendParams (func : Ir.Function) (blocks : List (Option Cranelift.Block)) (builder : Builder)
    (irBlock : Ir.Block) : Except Failure Builder :=
  if irBlock = func.entry then
    return builder
  else do
    let block ← clifBlock blocks irBlock
    (func.blockParams irBlock).foldlM (appendParam func block) builder

/-- Body of the inner mapping loop. -/
def mapParam (values : List (Option Cranelift.Value)) (pair : Ir.Value × Cranelift.Value) :
    Except Failure (List (Option Cranelift.Value)) :=
  writeIndex values pair.1.index (some pair.2)

/-- Body of the mapping loop: the parameters of a block get their Cranelift stand-ins. -/
def mapParams (func : Ir.Function) (blocks : List (Option Cranelift.Block)) (builder : Builder)
    (values : List (Option Cranelift.Value)) (irBlock : Ir.Block) :
    Except Failure (List (Option Cranelift.Value)) := do
  let block ← clifBlock blocks irBlock
  let params := builder.blockParams block
  ((func.blockParams irBlock).zip params).foldlM mapParam values

structure EmitState where
  builder : Builder
  values : List (Option Cranelift.Value)
  deriving DecidableEq, Repr

/-- Body of the inner emission loop. -/
def emitValue (func : Ir.Function) (st : EmitState) (irValue : Ir.Value) :
    Except Failure EmitState :=
  match func.inst irValue with
  | none => return st
  | some inst => do
    let (produced, builder) ← emitInst st.builder func inst st.values
    let values ← writeIndex st.values irValue.index (some produced)
    return ⟨builder, values⟩

/-- Body of the emission loop: the instructions of a block in program order, then its terminator. -/
def emitBlock (func : Ir.Function) (blocks : List (Option Cranelift.Block)) (st : EmitState)
    (irBlock : Ir.Block) : Except Failure EmitState := do
  let block ← clifBlock blocks irBlock
  let st ← (func.insts irBlock).foldlM (emitValue func) ⟨st.builder.switchToBlock block, st.values⟩
  let term ← okOr (func.terminator irBlock) (internal "a reachable block has no terminator")
  let builder ← emitTerminator st.builder term blocks st.values
  return ⟨builder, st.values⟩

/-! ## `translate` -/

/-- What `translate` holds when it returns: the block order, the stand-in tables and the function. -/
structure Translation where
  order : List Ir.Block
  blocks : List (Option Cranelift.Block)
  values : List (Option Cranelift.Value)
  clif : Cranelift.Function
  deriving DecidableEq, Repr

namespace Translation

def block (t : Translation) (b : Ir.Block) : Option Cranelift.Block := (t.blocks[b.index]?).join

def value (t : Translation) (v : Ir.Value) : Option Cranelift.Value := (t.values[v.index]?).join

end Translation

/-- The body of `translate`. -/
def translation (func : Ir.Function) (isa : TargetIsa) : Except Failure Translation := do
  let order ← reachableRpo func
  let signature ← signature func isa
  let builder := Builder.withNameSignature ⟨0, 0⟩ signature
  -- One Cranelift block per reachable IR block; the entry comes first.
  let (blocks, builder) ← order.foldlM createBlock (List.replicate func.blockCount none, builder)
  let entry ← clifBlock blocks func.entry
  let builder := builder.appendBlockParamsForFunctionParams entry
  let builder ← order.foldlM (appendParams func blocks) builder
  let values ← order.foldlM (mapParams func blocks builder) (List.replicate func.valueCount none)
  let st ← order.foldlM (emitBlock func blocks) ⟨builder, values⟩
  return ⟨order, blocks, st.values, st.builder.func⟩

/-- Translates `func` into a Cranelift function for `isa` to compile. -/
def translate (func : Ir.Function) (isa : TargetIsa) : Except Failure Cranelift.Function := do
  let t ← translation func isa
  return t.clif

end JitLang.Translate
