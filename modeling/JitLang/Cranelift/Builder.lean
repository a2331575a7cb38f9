import JitLang.Cranelift.Function

/-! # Cranelift's `FunctionBuilder`

The builder hands out block and value handles in order of creation, gives each value the type its
opcode prescribes, and appends to the block it was last switched to. A block enters the layout when
its first instruction is inserted. The helpers with an immediate operand are no opcodes: they insert the
constant, and then the operation (`Builder.insImm`). `seal_all_blocks` and `finalize` only complete the
construction of frontend variables, which are not used, and are left out.
-/

namespace JitLang.Cranelift
set_option autoImplicit false

/-- The type of the value an instruction defines, from the types of its operands (`types` lists them
by handle). The controlling operand of `select` is its second one; a terminator defines no value. -/
def Inst.resultType (types : List Ty) : Inst → Ty
  | .iconst ty _ => ty
  | .f64const _ => .f64
  | .unary _ x | .binary _ x _ | .select _ x _ => (types[x.index]?).getD .i64
  | .icmp _ _ _ | .fcmp _ _ _ => .i8
  | .jump _ | .brif _ _ _ | .return_ _ => .i64

structure Builder where
  func : Function
  position : Option Block
  deriving DecidableEq, Repr

namespace Builder

def withNameSignature (name : UserFuncName) (signature : Signature) : Builder :=
  ⟨⟨name, signature, [], [], []⟩, none⟩

variable (builder : Builder)

def createBlock : Block × Builder :=
  (⟨builder.func.blocks.length⟩,
    { builder with func := { builder.func with blocks := builder.func.blocks ++ [⟨[], []⟩] } })

def nextValue : Value := ⟨builder.func.valueTypes.length⟩

def modifyBlock (block : Block) (f : BlockData → BlockData) : Builder :=
  { builder with func := { builder.func with blocks := builder.func.blocks.modify block.index f } }

def pushType (ty : Ty) : Builder :=
  { builder with func := { builder.func with valueTypes := builder.func.valueTypes ++ [ty] } }

def appendBlockParam (block : Block) (ty : Ty) : Builder :=
  (builder.pushType ty).modifyBlock block fun data =>
    { data with params := data.params ++ [builder.nextValue] }

def appendBlockParamsForFunctionParams (block : Block) : Builder :=
  builder.func.signature.params.foldl (fun b param => b.appendBlockParam block param.valueType) builder

def blockParams (block : Block) : List Value := builder.func.blockParams block

def switchToBlock (block : Block) : Builder := { builder with position := some block }

/-- Appends to the current block, which joins the layout with its first instruction. Without a current
block there is nowhere to insert (the real builder panics). -/
def insertInst (node : InstData) : Builder :=
  match builder.position with
  | none => builder
  | some block =>
    let layout := if block ∈ builder.func.layout then builder.func.layout
      else builder.func.layout ++ [block]
    { builder with func := { builder.func with layout } }.modifyBlock block fun data =>
      { data with insts := data.insts ++ [node] }

/-- `builder.ins()` with an instruction that defines a value: the value, and the builder after. -/
def ins (inst : Inst) : Value × Builder :=
  (builder.nextValue, (builder.pushType (inst.resultType builder.func.valueTypes)).insertInst
    ⟨some builder.nextValue, inst⟩)

/-- An operation on `x` and an immediate: the immediate becomes a constant of the type of `x`, the
operation is inserted behind it. -/
def insImm (inst : Value → Inst) (x : Value) (imm : BitVec 64) : Value × Builder :=
  let (y, builder) := builder.ins (.iconst ((builder.func.valueType x).getD .i64) imm)
  builder.ins (inst y)

def iaddImm (x : Value) (imm : BitVec 64) : Value × Builder := builder.insImm (.binary .iadd x) x imm

def bxorImm (x : Value) (imm : BitVec 64) : Value × Builder := builder.insImm (.binary .bxor x) x imm

def icmpImm (cc : IntCC) (x : Value) (imm : BitVec 64) : Value × Builder :=
  builder.insImm (.icmp cc x) x imm

def insTerminator (inst : Inst) : Builder := builder.insertInst ⟨none, inst⟩

end Builder

/-! ## Straight-line code -/

/-- The instructions of `code` as block contents, their results numbered from `n` on. -/
def number : ℕ → List Inst → List InstData
  | _, [] => []
  | n, inst :: code => ⟨some ⟨n⟩, inst⟩ :: number (n + 1) code

/-- The types of the values the instructions of `code` define, in order. -/
def codeTypes : List Ty → List Inst → List Ty
  | _, [] => []
  | types, inst :: code =>
    inst.resultType types :: codeTypes (types ++ [inst.resultType types]) code

@[simp] theorem number_length (n : ℕ) (code : List Inst) : (number n code).length = code.length := by
  induction code generalizing n with
  | nil => rfl
  | cons inst code ih => simp [number, ih]

@[simp] theorem codeTypes_length (types : List Ty) (code : List Inst) :
    (codeTypes types code).length = code.length := by
  induction code generalizing types with
  | nil => rfl
  | cons inst code ih => simp [codeTypes, ih]

theorem number_append (n : ℕ) (code code' : List Inst) :
    number n (code ++ code') = number n code ++ number (n + code.length) code' := by
  induction code generalizing n with
  | nil => rfl
  | cons inst code ih =>
    rw [List.cons_append, number, number, List.cons_append, ih, List.length_cons,
      Nat.add_right_comm, Nat.add_assoc]

theorem number_getElem? (n : ℕ) (code : List Inst) (i : ℕ) :
    (number n code)[i]? = (code[i]?).map fun inst => ⟨some ⟨n + i⟩, inst⟩ := by
  induction code generalizing n i with
  | nil => simp [number]
  | cons inst code ih =>
    cases i with
    | zero => rfl
    | succ i =>
      rw [number, List.getElem?_cons_succ, List.getElem?_cons_succ, ih, Nat.add_right_comm,
        Nat.add_assoc]

theorem number_results (n : ℕ) (code : List Inst) :
    (number n code).filterMap InstData.result = (List.range' n code.length).map Value.mk := by
  induction code generalizing n with
  | nil => rfl
  | cons inst code ih => simp [number, ih, List.range'_succ]

namespace Builder

def insAll (builder : Builder) (code : List Inst) : Builder :=
  code.foldl (fun b inst => (b.ins inst).2) builder

/-- `b'` is `b` with `nodes` appended to its current block `blk` and `types` to its value types. -/
structure Appends (b : Builder) (blk : Block) (nodes : List InstData) (types : List Ty)
    (b' : Builder) : Prop where
  position : b'.position = some blk
  signature : b'.func.signature = b.func.signature
  blocks : b'.func.blocks.length = b.func.blocks.length
  types : b'.func.valueTypes = b.func.valueTypes ++ types
  params : ∀ x, b'.func.blockParams x = b.func.blockParams x
  insts : ∀ x, b'.func.blockInsts x =
    if x = blk then b.func.blockInsts x ++ nodes else b.func.blockInsts x
  layout : b'.func.layout =
    if nodes = [] ∨ blk ∈ b.func.layout then b.func.layout else b.func.layout ++ [blk]

namespace Appends
variable {b b' b'' : Builder} {blk : Block} {nodes nodes' : List InstData} {types types' : List Ty}

theorem refl (hpos : b.position = some blk) : Appends b blk [] [] b :=
  ⟨hpos, rfl, rfl, by simp, fun _ => rfl, by simp, by simp⟩

theorem trans (h : Appends b blk nodes types b') (h' : Appends b' blk nodes' types' b'') :
    Appends b blk (nodes ++ nodes') (types ++ types') b'' := by
  refine ⟨h'.position, h'.signature.trans h.signature, h'.blocks.trans h.blocks, ?_, ?_, ?_, ?_⟩
  · rw [h'.types, h.types, List.append_assoc]
  · exact fun x => (h'.params x).trans (h.params x)
  · intro x
    rw [h'.insts, h.insts]
    split_ifs <;> simp
  · rw [h'.layout, h.layout]
    by_cases hn : nodes = []
    · simp [hn]
    · by_cases hmem : blk ∈ b.func.layout <;> simp [hn, hmem]

theorem nextValue (h : Appends b blk nodes types b') :
    b'.nextValue = ⟨b.nextValue.index + types.length⟩ := by
  simp [Builder.nextValue, h.types]

end Appends

variable {b : Builder} {blk : Block}

theorem insertInst_appends (hpos : b.position = some blk) (hlt : blk.index < b.func.blocks.length)
    (node : InstData) : Appends b blk [node] [] (b.insertInst node) := by
  have hins : b.insertInst node = ({ b with func := { b.func with layout :=
      if blk ∈ b.func.layout then b.func.layout else b.func.layout ++ [blk] } } : Builder).modifyBlock
      blk fun data => { data with insts := data.insts ++ [node] } := by
    simp only [insertInst, hpos]
  rw [hins]
  refine ⟨hpos, rfl, by simp [modifyBlock], by simp [modifyBlock], ?_, ?_, by simp [modifyBlock]⟩
  · intro x
    simp only [modifyBlock, Function.blockParams, List.getElem?_modify]
    cases b.func.blocks[x.index]? with
    | none => rfl
    | some data => by_cases hx : blk.index = x.index <;> simp [hx]
  · intro x
    simp only [modifyBlock, Function.blockInsts, List.getElem?_modify]
    by_cases hx : x = blk
    · subst hx
      simp [List.getElem?_eq_getElem hlt]
    · have hne : blk.index ≠ x.index := fun e => hx (Block.ext e.symm)
      simp [hx, hne]

theorem ins_appends (hpos : b.position = some blk) (hlt : blk.index < b.func.blocks.length)
    (inst : Inst) : Appends b blk [⟨some b.nextValue, inst⟩] [inst.resultType b.func.valueTypes]
      (b.ins inst).2 := by
  have hpush : Appends b blk [] [inst.resultType b.func.valueTypes]
      (b.pushType (inst.resultType b.func.valueTypes)) :=
    ⟨hpos, rfl, rfl, rfl, fun _ => rfl, by simp [pushType, Function.blockInsts], by simp [pushType]⟩
  exact hpush.trans (insertInst_appends hpush.position (by rw [hpush.blocks]; exact hlt) _)

theorem insAll_appends (hpos : b.position = some blk) (hlt : blk.index < b.func.blocks.length)
    (code : List Inst) : Appends b blk (number b.nextValue.index code)
      (codeTypes b.func.valueTypes code) (b.insAll code) := by
  induction code generalizing b with
  | nil => exact .refl hpos
  | cons inst code ih =>
    have h := ins_appends hpos hlt inst
    have ih := ih (b := (b.ins inst).2) h.position (by rw [h.blocks]; exact hlt)
    rw [h.types, h.nextValue] at ih
    exact h.trans ih

@[simp] theorem ins_fst (inst : Inst) : (b.ins inst).1 = b.nextValue := rfl

@[simp] theorem pushType_nextValue (ty : Ty) : (b.pushType ty).nextValue = ⟨b.nextValue.index + 1⟩ := by
  simp [pushType, nextValue]

@[simp] theorem ins_nextValue (inst : Inst) :
    (b.ins inst).2.nextValue = ⟨b.nextValue.index + 1⟩ := by
  rw [← pushType_nextValue (inst.resultType b.func.valueTypes)]
  simp only [ins, insertInst, nextValue]
  split <;> rfl

@[simp] theorem ins_valueTypes (inst : Inst) : (b.ins inst).2.func.valueTypes =
    b.func.valueTypes ++ [inst.resultType b.func.valueTypes] := by
  simp only [ins, insertInst, pushType]
  split <;> rfl

@[simp] theorem insAll_nextValue (code : List Inst) :
    (b.insAll code).nextValue = ⟨b.nextValue.index + code.length⟩ := by
  induction code generalizing b with
  | nil => rfl
  | cons inst code ih =>
    have ih := ih (b := (b.ins inst).2)
    rw [ins_nextValue, Nat.add_assoc, Nat.add_comm 1] at ih
    exact ih

@[simp] theorem insAll_valueTypes (code : List Inst) :
    (b.insAll code).func.valueTypes = b.func.valueTypes ++ codeTypes b.func.valueTypes code := by
  induction code generalizing b with
  | nil => simp [insAll, codeTypes]
  | cons inst code ih =>
    have ih := ih (b := (b.ins inst).2)
    rw [ins_valueTypes, List.append_assoc] at ih
    exact ih

/-- An operation with an immediate is the constant, of the type recorded for `x`, and the operation. -/
theorem insImm_eq {x : Value} {ty : Ty} (hx : b.func.valueType x = some ty) (inst : Value → Inst)
    (imm : BitVec 64) : b.insImm inst x imm =
      (⟨b.nextValue.index + 1⟩, b.insAll [.iconst ty imm, inst b.nextValue]) := by
  simp only [insImm, hx, Option.getD_some, ins_fst]
  exact Prod.ext (ins_nextValue _) rfl

/-! ## Block parameters -/

/-- `b'` is `b` with parameters of types `tys` appended to block `blk`. -/
structure AppendsParams (b : Builder) (blk : Block) (tys : List Ty) (b' : Builder) : Prop where
  position : b'.position = b.position
  signature : b'.func.signature = b.func.signature
  blocks : b'.func.blocks.length = b.func.blocks.length
  layout : b'.func.layout = b.func.layout
  types : b'.func.valueTypes = b.func.valueTypes ++ tys
  insts : ∀ x, b'.func.blockInsts x = b.func.blockInsts x
  params : ∀ x, b'.func.blockParams x = if x = blk then b.func.blockParams x ++
    (List.range' b.nextValue.index tys.length).map Value.mk else b.func.blockParams x

namespace AppendsParams
variable {b' b'' : Builder} {tys tys' : List Ty}

theorem refl : AppendsParams b blk [] b :=
  ⟨rfl, rfl, rfl, rfl, by simp, fun _ => rfl, by simp⟩

theorem nextValue (h : AppendsParams b blk tys b') :
    b'.nextValue = ⟨b.nextValue.index + tys.length⟩ := by
  simp [Builder.nextValue, h.types]

theorem trans (h : AppendsParams b blk tys b') (h' : AppendsParams b' blk tys' b'') :
    AppendsParams b blk (tys ++ tys') b'' := by
  refine ⟨h'.position.trans h.position, h'.signature.trans h.signature, h'.blocks.trans h.blocks,
    h'.layout.trans h.layout, ?_, fun x => (h'.insts x).trans (h.insts x), ?_⟩
  · rw [h'.types, h.types, List.append_assoc]
  · intro x
    rw [h'.params, h.params, h.nextValue]
    split_ifs
    · rw [List.append_assoc, ← List.map_append, List.length_append, List.range'_append_1]
    · rfl

end AppendsParams

theorem appendBlockParam_appends (hlt : blk.index < b.func.blocks.length) (ty : Ty) :
    AppendsParams b blk [ty] (b.appendBlockParam blk ty) := by
  refine ⟨rfl, rfl, by simp [appendBlockParam, modifyBlock, pushType], rfl, rfl, ?_, ?_⟩
  · intro x
    simp only [appendBlockParam, modifyBlock, pushType, Function.blockInsts, List.getElem?_modify]
    cases b.func.blocks[x.index]? with
    | none => rfl
    | some data => by_cases hx : blk.index = x.index <;> simp [hx]
  · intro x
    simp only [appendBlockParam, modifyBlock, pushType, Function.blockParams, List.getElem?_modify]
    by_cases hx : x = blk
    · subst hx
      simp [List.getElem?_eq_getElem hlt]
    · have hne : blk.index ≠ x.index := fun e => hx (Block.ext e.symm)
      simp [hx, hne]

theorem appendBlockParams_appends (hlt : blk.index < b.func.blocks.length) (params : List AbiParam) :
    AppendsParams b blk (params.map AbiParam.valueType)
      (params.foldl (fun b param => b.appendBlockParam blk param.valueType) b) := by
  induction params generalizing b with
  | nil => exact .refl
  | cons param params ih =>
    have h := appendBlockParam_appends hlt param.valueType
    exact h.trans (ih (b := b.appendBlockParam blk param.valueType) (by rw [h.blocks]; exact hlt))

end Builder
end JitLang.Cranelift
