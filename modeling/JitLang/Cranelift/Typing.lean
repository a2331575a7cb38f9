import JitLang.Cranelift.Builder

/-! # Typing Cranelift IR

The typing rules of the instructions in use, over a table of value types. Every rule is monotone in
the table: a value keeps its type when later ones are added.
-/

namespace JitLang.Cranelift
set_option autoImplicit false

/-! ## Instructions that define a value -/

/-- The operand types an operation takes; the result has the operand's type. -/
def BinaryOp.Takes : BinaryOp → Ty → Prop
  | .iadd, ty | .isub, ty | .imul, ty | .sdiv, ty | .band, ty | .bor, ty | .bxor, ty => ty.IsInt
  | .fadd, ty | .fsub, ty | .fmul, ty | .fdiv, ty => ty = .f64

def UnaryOp.Takes : UnaryOp → Ty → Prop
  | .ineg, ty => ty.IsInt
  | .fneg, ty => ty = .f64

/-- `types` gives `v` the type `ty`. -/
def HasType (types : List Ty) (v : Value) (ty : Ty) : Prop := types[v.index]? = some ty

/-- The instruction is well typed and defines a value of type `ty`; a terminator defines none. -/
def InstTyped (types : List Ty) : Inst → Ty → Prop
  | .iconst ty' _, ty => ty'.IsInt ∧ ty = ty'
  | .f64const _, ty => ty = .f64
  | .unary op x, ty => op.Takes ty ∧ HasType types x ty
  | .binary op x y, ty => op.Takes ty ∧ HasType types x ty ∧ HasType types y ty
  | .icmp _ x y, ty =>
    ty = .i8 ∧ ∃ operand : Ty, operand.IsInt ∧ HasType types x operand ∧ HasType types y operand
  | .fcmp _ x y, ty => ty = .i8 ∧ HasType types x .f64 ∧ HasType types y .f64
  | .select c x y, ty => HasType types c .i8 ∧ HasType types x ty ∧ HasType types y ty
  | .jump _, _ | .brif _ _ _, _ | .return_ _, _ => False

theorem HasType.append {types : List Ty} {v : Value} {ty : Ty} (h : HasType types v ty)
    (more : List Ty) : HasType (types ++ more) v ty := by
  obtain ⟨hlt, -⟩ := List.getElem?_eq_some_iff.mp h
  rw [HasType, List.getElem?_append_left hlt]
  exact h

theorem HasType.lt {types : List Ty} {v : Value} {ty : Ty} (h : HasType types v ty) :
    v.index < types.length := (List.getElem?_eq_some_iff.mp h).1

theorem HasType.last (types : List Ty) (ty : Ty) (more : List Ty) :
    HasType (types ++ ty :: more) ⟨types.length⟩ ty := by
  simp [HasType]

theorem InstTyped.append {types : List Ty} {inst : Inst} {ty : Ty} (h : InstTyped types inst ty)
    (more : List Ty) : InstTyped (types ++ more) inst ty := by
  cases inst with
  | iconst | f64const => exact h
  | unary => exact ⟨h.1, h.2.append more⟩
  | binary => exact ⟨h.1, h.2.1.append more, h.2.2.append more⟩
  | icmp =>
    obtain ⟨rfl, operand, hint, hx, hy⟩ := h
    exact ⟨rfl, operand, hint, hx.append more, hy.append more⟩
  | fcmp => exact ⟨h.1, h.2.1.append more, h.2.2.append more⟩
  | select => exact ⟨h.1.append more, h.2.1.append more, h.2.2.append more⟩
  | jump | brif | return_ => exact h

/-- The builder records for a well-typed instruction the type the typing rules give it. -/
theorem InstTyped.resultType_eq {types : List Ty} {inst : Inst} {ty : Ty}
    (h : InstTyped types inst ty) : inst.resultType types = ty := by
  cases inst with
  | iconst | f64const => simp_all [InstTyped, Inst.resultType]
  | unary | binary | select => simp_all [InstTyped, HasType, Inst.resultType]
  | icmp | fcmp => exact h.1.symm
  | jump | brif | return_ => exact h.elim

/-! ## Straight-line code -/

/-- Instructions inserted one after the other are each well typed where they are inserted. -/
def CodeTyped : List Ty → List Inst → Prop
  | _, [] => True
  | types, inst :: code =>
    InstTyped types inst (inst.resultType types) ∧ CodeTyped (types ++ [inst.resultType types]) code

/-- A node of a block that is no terminator: well typed, and its result recorded with its type. -/
def NodeTyped (types : List Ty) (node : InstData) : Prop :=
  ∃ v ty, node.result = some v ∧ HasType types v ty ∧ InstTyped types node.inst ty

theorem NodeTyped.append {types : List Ty} {node : InstData} (h : NodeTyped types node)
    (more : List Ty) : NodeTyped (types ++ more) node := by
  obtain ⟨v, ty, hv, hty, hinst⟩ := h
  exact ⟨v, ty, hv, hty.append more, hinst.append more⟩

theorem CodeTyped.nodes {types : List Ty} {code : List Inst} (h : CodeTyped types code) :
    ∀ node ∈ number types.length code, NodeTyped (types ++ codeTypes types code) node := by
  induction code generalizing types with
  | nil => simp [number]
  | cons inst code ih =>
    obtain ⟨hinst, hcode⟩ := h
    intro node hnode
    rcases List.mem_cons.mp hnode with rfl | hnode
    · exact ⟨_, _, rfl, HasType.last types _ _, hinst.append _⟩
    · have hlen : (types ++ [inst.resultType types]).length = types.length + 1 := by simp
      have h := ih hcode node (by rw [hlen]; exact hnode)
      rwa [List.append_assoc, List.singleton_append] at h

/-! ## Terminators and functions -/

namespace Function
variable (func : Function)

/-- A branch names a block of the function and passes it arguments of its parameters' types. -/
def CallTyped (call : BlockCall) : Prop :=
  call.block ∈ func.layout ∧
    call.args.map func.valueType = (func.blockParams call.block).map func.valueType

def TerminatorTyped : Inst → Prop
  | .jump dest => func.CallTyped dest
  | .brif c thenDest elseDest =>
    func.valueType c = some .i8 ∧ func.CallTyped thenDest ∧ func.CallTyped elseDest
  | .return_ args => args.map func.valueType =
      func.signature.returns.map fun param => some param.valueType
  | _ => False

/-- Every instruction is well typed, the entry's parameters are those of the signature. -/
structure WellTyped : Prop where
  entry : ∀ e ∈ func.entry?, (func.blockParams e).map func.valueType =
    func.signature.params.map fun param => some param.valueType
  params : ∀ b ∈ func.layout, ∀ v ∈ func.blockParams b, ∃ ty, func.valueType v = some ty
  nodes : ∀ b ∈ func.layout, ∀ node ∈ func.blockInsts b, ¬ node.inst.IsTerminator →
    NodeTyped func.valueTypes node
  terminators : ∀ b ∈ func.layout, ∀ node ∈ func.blockInsts b, node.inst.IsTerminator →
    node.result = none ∧ func.TerminatorTyped node.inst

end Function
end JitLang.Cranelift
