import JitLang.Graph.Walks

/-! # Cranelift IR: the part a translator of scalar code emits

Cranelift is an outside crate; this is its intermediate representation as its documentation gives it,
cut down to 8- and 64-bit integers, doubles, and the instructions in use. A function is a control-flow
graph of blocks with parameters, in SSA form. Terminators are instructions like any other, so that a
block ends in exactly one of them is a property and not built in.
-/

namespace JitLang.Cranelift
set_option autoImplicit false

/-! ## Types and handles -/

inductive Ty
  | i8
  | i64
  | f64
  deriving DecidableEq, Repr

def Ty.IsInt (ty : Ty) : Prop := ty = .i8 ∨ ty = .i64

instance (ty : Ty) : Decidable ty.IsInt := inferInstanceAs (Decidable (_ ∨ _))

structure Value where
  index : ℕ
  deriving DecidableEq, Repr

structure Block where
  index : ℕ
  deriving DecidableEq, Repr

attribute [ext] Value Block

/-! ## Instructions -/

inductive IntCC
  | equal
  | notEqual
  | signedLessThan
  | signedLessThanOrEqual
  | signedGreaterThan
  | signedGreaterThanOrEqual
  | unsignedLessThanOrEqual
  deriving DecidableEq, Repr

inductive FloatCC
  | equal
  | notEqual
  | lessThan
  | lessThanOrEqual
  | greaterThan
  | greaterThanOrEqual
  deriving DecidableEq, Repr

inductive UnaryOp
  | ineg
  | fneg
  deriving DecidableEq, Repr

inductive BinaryOp
  | iadd
  | isub
  | imul
  | sdiv
  | band
  | bor
  | bxor
  | fadd
  | fsub
  | fmul
  | fdiv
  deriving DecidableEq, Repr

/-- A branch target with the arguments passed to its parameters. -/
structure BlockCall where
  block : Block
  args : List Value
  deriving DecidableEq, Repr

inductive Inst
  | iconst (ty : Ty) (imm : BitVec 64)
  | f64const (imm : BitVec 64)
  | unary (op : UnaryOp) (x : Value)
  | binary (op : BinaryOp) (x y : Value)
  | icmp (cc : IntCC) (x y : Value)
  | fcmp (cc : FloatCC) (x y : Value)
  | select (c x y : Value)
  | jump (dest : BlockCall)
  | brif (c : Value) (thenDest elseDest : BlockCall)
  | return_ (args : List Value)
  deriving DecidableEq, Repr

namespace Inst

def IsTerminator : Inst → Prop
  | .jump _ | .brif _ _ _ | .return_ _ => True
  | _ => False

instance : DecidablePred IsTerminator := fun inst => by
  cases inst <;> unfold IsTerminator <;> infer_instance

/-- The branch targets of an instruction, `then` before `else`. -/
def calls : Inst → List BlockCall
  | .jump dest => [dest]
  | .brif _ thenDest elseDest => [thenDest, elseDest]
  | _ => []

def uses : Inst → List Value
  | .iconst _ _ | .f64const _ => []
  | .unary _ x => [x]
  | .binary _ x y | .icmp _ x y | .fcmp _ x y => [x, y]
  | .select c x y => [c, x, y]
  | .jump dest => dest.args
  | .brif c thenDest elseDest => c :: (thenDest.args ++ elseDest.args)
  | .return_ args => args

theorem calls_eq_nil {inst : Inst} (h : ¬ inst.IsTerminator) : inst.calls = [] := by
  cases inst <;> simp [calls, IsTerminator] at h ⊢

end Inst

/-- An instruction in a block, with the value it defines. -/
structure InstData where
  result : Option Value
  inst : Inst
  deriving DecidableEq, Repr

/-! ## Signatures and functions -/

inductive ArgumentExtension
  | none
  | uext
  | sext
  deriving DecidableEq, Repr

structure AbiParam where
  valueType : Ty
  extension : ArgumentExtension
  deriving DecidableEq, Repr

/-- `AbiParam::new`: a slot with no extension. -/
def AbiParam.new (ty : Ty) : AbiParam := ⟨ty, .none⟩

/-- `AbiParam::uext`: the slot is zero-extended to a full register. -/
def AbiParam.uext (param : AbiParam) : AbiParam := { param with extension := .uext }

/-- A calling convention; it is copied from the target and never looked into. -/
structure CallConv where
  id : ℕ
  deriving DecidableEq, Repr

structure Signature where
  callConv : CallConv
  params : List AbiParam
  returns : List AbiParam
  deriving DecidableEq, Repr

structure UserFuncName where
  ns : ℕ
  index : ℕ
  deriving DecidableEq, Repr

structure BlockData where
  params : List Value
  insts : List InstData
  deriving DecidableEq, Repr

/-- A function: block contents and value types by handle index, and the order of the blocks. -/
structure Function where
  name : UserFuncName
  signature : Signature
  blocks : List BlockData
  valueTypes : List Ty
  layout : List Block
  deriving DecidableEq, Repr

namespace Function
variable (func : Function)

def blockParams (b : Block) : List Value := ((func.blocks[b.index]?).map BlockData.params).getD []

def blockInsts (b : Block) : List InstData := ((func.blocks[b.index]?).map BlockData.insts).getD []

def valueType (v : Value) : Option Ty := func.valueTypes[v.index]?

def blockResults (b : Block) : List Value := (func.blockInsts b).filterMap InstData.result

/-- Every definition of the function, block by block in layout order: parameters, then results. -/
def definitions : List Value :=
  func.layout.flatMap fun b => func.blockParams b ++ func.blockResults b

def Edge (b b' : Block) : Prop :=
  ∃ node ∈ func.blockInsts b, ∃ call ∈ node.inst.calls, call.block = b'

/-- The entry block is the first in layout. -/
def entry? : Option Block := func.layout.head?

/-- `d` is on every path from the entry block to `b`. -/
def Dominates (d b : Block) : Prop := ∀ e ∈ func.entry?, Graph.Dominates func.Edge e d b

/-- A place where a value is defined: `(b, 0)` is the parameter list of `b`, `(b, j + 1)` its
instruction `j`. -/
def DefinedAt (v : Value) (b : Block) (pos : ℕ) : Prop :=
  b ∈ func.layout ∧ ((pos = 0 ∧ v ∈ func.blockParams b) ∨
    ∃ j node, pos = j + 1 ∧ (func.blockInsts b)[j]? = some node ∧ node.result = some v)

/-- The definition of `v` comes before instruction `j` of `b`: earlier in `b`, or in a block that
strictly dominates `b`. -/
def DefinedBefore (v : Value) (b : Block) (j : ℕ) : Prop :=
  ∃ d pos, func.DefinedAt v d pos ∧ ((d = b ∧ pos ≤ j) ∨ (d ≠ b ∧ func.Dominates d b))

theorem DefinedBefore.mono {func : Function} {v : Value} {b : Block} {j j' : ℕ}
    (h : func.DefinedBefore v b j) (hj : j ≤ j') : func.DefinedBefore v b j' := by
  obtain ⟨d, pos, hdef, ⟨rfl, hle⟩ | hdom⟩ := h
  · exact ⟨d, pos, hdef, .inl ⟨rfl, hle.trans hj⟩⟩
  · exact ⟨d, pos, hdef, .inr hdom⟩

end Function
end JitLang.Cranelift
