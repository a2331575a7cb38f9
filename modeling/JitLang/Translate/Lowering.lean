import JitLang.Foundations.Except
import JitLang.Cranelift.Typing
import JitLang.Ir.Validity
import JitLang.Translate.Translate

/-! # The code an instruction lowers to

`emit_inst` and `emit_terminator` append to the builder what `lowerInst` and `lowerTerminator` give in
closed form: the instructions as a list, from the stand-ins of the operands and the number of the next
Cranelift value. Nothing else of the builder or of the tables goes into them. Code lowered from a
well-typed instruction is well typed.
-/

namespace JitLang.Translate
open Foundations Cranelift
set_option autoImplicit false

/-! ## Machine types -/

/-- The machine type of an IR type; `unit` has none. -/
def machineTy : Ir.Ty → Option Cranelift.Ty
  | .int => some .i64
  | .float => some .f64
  | .bool => some .i8
  | .unit => none

/-- The one error translation answers a function it cannot represent with. -/
def unitError : JitError :=
  .unsupported "a parameter or block parameter has type unit, which has no machine representation"

theorem abiType_eq (ty : Ir.Ty) : abiType ty = okOr (machineTy ty) (.error unitError) := by
  cases ty <;> rfl

theorem machineTy_eq_none {ty : Ir.Ty} : machineTy ty = none ↔ ty = .unit := by
  cases ty <;> simp [machineTy]

def machineType (func : Ir.Function) (v : Ir.Value) : Option Cranelift.Ty :=
  (func.valueType v).bind machineTy

theorem machineType_eq {func : Ir.Function} {v : Ir.Value} {ty : Ir.Ty}
    (h : func.valueType v = some ty) : machineType func v = machineTy ty := by
  rw [machineType, h, Option.bind_some]

/-! ## Stand-ins -/

/-- The entry of a stand-in table for an IR value. -/
def standIn (values : List (Option Cranelift.Value)) (v : Ir.Value) : Option Cranelift.Value :=
  (values[v.index]?).join

def standInBlock (blocks : List (Option Cranelift.Block)) (b : Ir.Block) : Option Cranelift.Block :=
  (blocks[b.index]?).join

/-- Every stand-in of the first assignment is one of the second. -/
def Extends {α β : Type} (V V' : α → Option β) : Prop := ∀ v x, V v = some x → V' v = some x

theorem Extends.trans {α β : Type} {V V' V'' : α → Option β} (h : Extends V V')
    (h' : Extends V' V'') : Extends V V'' := fun v x hv => h' v x (h v x hv)

theorem clifValue_of_some {values : List (Option Cranelift.Value)} {v : Ir.Value}
    {x : Cranelift.Value} (h : standIn values v = some x) : clifValue values v = .ok x := by
  have h : (values[v.index]?).join = some x := h
  rw [clifValue, h]
  rfl

theorem clifBlock_of_some {blocks : List (Option Cranelift.Block)} {b : Ir.Block}
    {x : Cranelift.Block} (h : standInBlock blocks b = some x) : clifBlock blocks b = .ok x := by
  have h : (blocks[b.index]?).join = some x := h
  rw [clifBlock, h]
  rfl

theorem valueType_of_some {func : Ir.Function} {v : Ir.Value} {ty : Ir.Ty}
    (h : func.valueType v = some ty) : valueType func v = .ok ty := by
  rw [valueType, h]
  rfl

/-! ## Instructions -/

/-- The guarded division of 64-bit integers, as a list whose first instruction defines value `n`: `n` and
`n + 2` are the immediates, `n + 5` is the divisor. -/
def intDivCode (l r : Cranelift.Value) (n : ℕ) : List Cranelift.Inst :=
  [.iconst .i64 1, .binary .iadd r ⟨n⟩, .iconst .i64 1,
    .icmp .unsignedLessThanOrEqual ⟨n + 1⟩ ⟨n + 2⟩, .iconst .i64 1, .select ⟨n + 3⟩ ⟨n + 4⟩ r,
    .binary .sdiv l ⟨n + 5⟩, .binary .imul l r, .select ⟨n + 3⟩ ⟨n + 7⟩ ⟨n + 6⟩]

def binCode (op : Ir.BinOp) (l r : Cranelift.Value) (operandTy : Ir.Ty) (n : ℕ) :
    List Cranelift.Inst :=
  let isFloat := operandTy = .float
  match op with
  | .add => [if isFloat then .binary .fadd l r else .binary .iadd l r]
  | .sub => [if isFloat then .binary .fsub l r else .binary .isub l r]
  | .mul => [if isFloat then .binary .fmul l r else .binary .imul l r]
  | .div => if isFloat then [.binary .fdiv l r] else intDivCode l r n
  | .eq => [if isFloat then .fcmp .equal l r else .icmp .equal l r]
  | .ne => [if isFloat then .fcmp .notEqual l r else .icmp .notEqual l r]
  | .lt => [if isFloat then .fcmp .lessThan l r else .icmp .signedLessThan l r]
  | .le => [if isFloat then .fcmp .lessThanOrEqual l r else .icmp .signedLessThanOrEqual l r]
  | .gt => [if isFloat then .fcmp .greaterThan l r else .icmp .signedGreaterThan l r]
  | .ge => [if isFloat then .fcmp .greaterThanOrEqual l r else .icmp .signedGreaterThanOrEqual l r]
  | .and => [.binary .band l r]
  | .or => [.binary .bor l r]

def unCode (op : Ir.UnOp) (x : Cranelift.Value) (operandTy : Ir.Ty) (n : ℕ) : List Cranelift.Inst :=
  match op with
  | .neg => [if operandTy = .float then .unary .fneg x else .unary .ineg x]
  | .not => [.iconst .i8 1, .binary .bxor x ⟨n⟩]

/-- The code of an IR instruction, given the stand-ins of its operands; `n` numbers its first value. -/
def lowerInst (func : Ir.Function) (V : Ir.Value → Option Cranelift.Value) (n : ℕ) :
    Ir.Inst → Option (List Cranelift.Inst)
  | .iconst value => some [.iconst .i64 value]
  | .fconst value => some [.f64const value]
  | .bconst value => some [.iconst .i8 (if value then 1 else 0)]
  | .bin op lhs rhs => do
    return binCode op (← V lhs) (← V rhs) (← func.valueType lhs) n
  | .un op operand => do
    return unCode op (← V operand) (← func.valueType operand) n

/-- The value the last instruction of `code` defines, the first one defining value `n`. -/
def lastValue (n : ℕ) (code : List Cranelift.Inst) : Cranelift.Value := ⟨n + code.length - 1⟩

theorem binCode_ne_nil (op : Ir.BinOp) (l r : Cranelift.Value) (operandTy : Ir.Ty) (n : ℕ) :
    binCode op l r operandTy n ≠ [] := by
  cases op with
  | div => by_cases h : operandTy = .float <;> simp [binCode, intDivCode, h]
  | _ => simp [binCode]

theorem lowerInst_ne_nil {func : Ir.Function} {V : Ir.Value → Option Cranelift.Value} {n : ℕ}
    {inst : Ir.Inst} {code : List Cranelift.Inst} (h : lowerInst func V n inst = some code) :
    code ≠ [] := by
  cases inst with
  | iconst | fconst | bconst => cases h; simp
  | bin op lhs rhs =>
    obtain ⟨l, -, r, -, ty, -, rfl⟩ := by
      simpa [lowerInst, Option.bind_eq_some_iff] using h
    exact binCode_ne_nil op l r ty n
  | un op operand =>
    obtain ⟨x, -, ty, -, rfl⟩ := by simpa [lowerInst, Option.bind_eq_some_iff] using h
    cases op <;> simp [unCode]

/-- The code only depends on the stand-ins of the operands. -/
theorem lowerInst_extends {func : Ir.Function} {V V' : Ir.Value → Option Cranelift.Value}
    (hV : Extends V V') {n : ℕ} {inst : Ir.Inst} {code : List Cranelift.Inst}
    (h : lowerInst func V n inst = some code) : lowerInst func V' n inst = some code := by
  cases inst with
  | iconst | fconst | bconst => exact h
  | bin op lhs rhs =>
    obtain ⟨l, hl, r, hr, ty, hty, rfl⟩ := by
      simpa [lowerInst, Option.bind_eq_some_iff] using h
    simp [lowerInst, hV _ _ hl, hV _ _ hr, hty]
  | un op operand =>
    obtain ⟨x, hx, ty, hty, rfl⟩ := by simpa [lowerInst, Option.bind_eq_some_iff] using h
    simp [lowerInst, hV _ _ hx, hty]

section Emission
variable (builder : Builder)

theorem insAll_single (inst : Cranelift.Inst) :
    builder.ins inst =
      (lastValue builder.nextValue.index [inst], builder.insAll [inst]) := rfl

theorem emitIntDiv_eq {l r : Cranelift.Value} (hr : HasType builder.func.valueTypes r .i64) :
    emitIntDiv builder l r = (lastValue builder.nextValue.index
      (intDivCode l r builder.nextValue.index), builder.insAll (intDivCode l r
        builder.nextValue.index)) := by
  have hval : (⟨builder.nextValue.index⟩ : Cranelift.Value) = builder.nextValue := rfl
  have hshift : builder.iaddImm r 1 = (⟨builder.nextValue.index + 1⟩,
      builder.insAll [.iconst .i64 1, .binary .iadd r builder.nextValue]) := Builder.insImm_eq hr _ _
  -- The sum has the type of `r`, and so has the immediate it is compared with.
  have hsum : (builder.insAll [.iconst .i64 1, .binary .iadd r builder.nextValue]).func.valueType
      ⟨builder.nextValue.index + 1⟩ = some .i64 := by
    have hrt : (builder.func.valueTypes ++ [.i64])[r.index]? = some .i64 := hr.append [.i64]
    simp [Cranelift.Function.valueType, codeTypes, Inst.resultType, hrt, Builder.nextValue]
  have hcompare := Builder.insImm_eq hsum (.icmp .unsignedLessThanOrEqual ⟨builder.nextValue.index + 1⟩) 1
  rw [emitIntDiv, hshift]
  simp only [Builder.icmpImm, hcompare]
  apply Prod.ext
  · simp [lastValue, intDivCode, Nat.add_assoc]
  · simp only [intDivCode, Builder.insAll, List.foldl_cons, List.foldl_nil, Builder.ins_fst,
      Builder.ins_nextValue, Nat.add_assoc, Nat.reduceAdd, hval]

theorem emitBin_eq {op : Ir.BinOp} {l r : Cranelift.Value} {ty : Ir.Ty} {mty : Cranelift.Ty}
    (hop : op.Accepts ty) (hmty : machineTy ty = some mty) (hr : HasType builder.func.valueTypes r mty) :
    emitBin builder op l r ty = (lastValue builder.nextValue.index
      (binCode op l r ty builder.nextValue.index), builder.insAll (binCode op l r ty
        builder.nextValue.index)) := by
  cases op with
  | div =>
    rcases hop with rfl | rfl <;> cases hmty
    · exact emitIntDiv_eq builder hr
    · rfl
  | _ => simp only [emitBin, binCode, insAll_single]

theorem emitUn_eq {op : Ir.UnOp} {x : Cranelift.Value} {ty : Ir.Ty} {mty : Cranelift.Ty}
    (hop : op.Accepts ty) (hmty : machineTy ty = some mty) (hx : HasType builder.func.valueTypes x mty) :
    emitUn builder op x ty = (lastValue builder.nextValue.index
      (unCode op x ty builder.nextValue.index), builder.insAll (unCode op x ty
        builder.nextValue.index)) := by
  cases op with
  | neg => simp only [emitUn, unCode, insAll_single]
  | not =>
    obtain rfl := hop
    cases hmty
    exact Builder.insImm_eq hx _ _

/-- The operands of an instruction have stand-ins of their machine types. -/
def OperandsTyped (func : Ir.Function) (V : Ir.Value → Option Cranelift.Value)
    (types : List Cranelift.Ty) (inst : Ir.Inst) : Prop :=
  ∀ u ∈ inst.uses, ∃ x ty, V u = some x ∧ machineType func u = some ty ∧ HasType types x ty

/-- `emit_inst` appends the lowered code and returns the value its last instruction defines. -/
theorem emitInst_eq {func : Ir.Function} {v : Ir.Value} {inst : Ir.Inst}
    {values : List (Option Cranelift.Value)} {code : List Cranelift.Inst}
    (htyped : func.InstTyped v inst)
    (huses : OperandsTyped func (standIn values) builder.func.valueTypes inst)
    (h : lowerInst func (standIn values) builder.nextValue.index inst = some code) :
    emitInst builder func inst values =
      .ok (lastValue builder.nextValue.index code, builder.insAll code) := by
  cases inst with
  | iconst | fconst | bconst => cases h; rfl
  | bin op lhs rhs =>
    obtain ⟨ty, hop, hlhs, hrhs, -⟩ := htyped
    obtain ⟨l, hl, r, hr, ty', hty, rfl⟩ := by
      simpa [lowerInst, Option.bind_eq_some_iff] using h
    obtain rfl := Option.some.inj (hlhs.symm.trans hty)
    obtain ⟨r', mty, hr', hmty, hrty⟩ := huses rhs (by simp [Ir.Inst.uses])
    obtain rfl := Option.some.inj (hr.symm.trans hr')
    rw [machineType_eq hrhs] at hmty
    simp [emitInst, valueType_of_some hty, clifValue_of_some hl, clifValue_of_some hr,
      emitBin_eq builder hop hmty hrty]
  | un op operand =>
    obtain ⟨ty, hop, hoperand, -⟩ := htyped
    obtain ⟨x, hx, ty', hty, rfl⟩ := by simpa [lowerInst, Option.bind_eq_some_iff] using h
    obtain rfl := Option.some.inj (hoperand.symm.trans hty)
    obtain ⟨x', mty, hx', hmty, hxty⟩ := huses operand (by simp [Ir.Inst.uses])
    obtain rfl := Option.some.inj (hx.symm.trans hx')
    rw [machineType_eq hoperand] at hmty
    simp [emitInst, valueType_of_some hty, clifValue_of_some hx, emitUn_eq builder hop hmty hxty]

end Emission

/-! ## Terminators -/

/-- The branch of an IR edge. -/
def lowerEdge (B : Ir.Block → Option Cranelift.Block) (V : Ir.Value → Option Cranelift.Value)
    (edge : Ir.Block × List Ir.Value) : Option BlockCall := do
  return ⟨← B edge.1, ← edge.2.mapM V⟩

/-- The terminator of an IR terminator, given the stand-ins of the blocks and values it names. -/
def lowerTerminator (B : Ir.Block → Option Cranelift.Block)
    (V : Ir.Value → Option Cranelift.Value) : Ir.Terminator → Option Cranelift.Inst
  | .ret value => do return .return_ (← value.toList.mapM V)
  | .jump target args => do return .jump (← lowerEdge B V (target, args))
  | .branch cond thenBlock thenArgs elseBlock elseArgs => do
    return .brif (← V cond) (← lowerEdge B V (thenBlock, thenArgs))
      (← lowerEdge B V (elseBlock, elseArgs))

theorem mapM_option_eq_some {α β : Type} {f : α → Option β} {l : List α} {l' : List β} :
    l.mapM f = some l' ↔ l.map f = l'.map some := by
  induction l generalizing l' with
  | nil => cases l' <;> simp
  | cons a l ih =>
    cases l' with
    | nil => simp [Option.bind_eq_some_iff]
    | cons b l' =>
      simp only [List.mapM_cons, Option.bind_eq_bind, Option.bind_eq_some_iff, Option.pure_def,
        Option.some.injEq, List.cons.injEq, List.map_cons]
      constructor
      · rintro ⟨b', hb, bs, hbs, rfl, rfl⟩
        exact ⟨hb, ih.mp hbs⟩
      · rintro ⟨hb, hbs⟩
        exact ⟨b, hb, l', ih.mpr hbs, rfl, rfl⟩

theorem exists_map_eq_some {α β : Type} {f : α → Option β} {l : List α}
    (h : ∀ a ∈ l, ∃ b, f a = some b) : ∃ l' : List β, l.map f = l'.map some := by
  induction l with
  | nil => exact ⟨[], rfl⟩
  | cons a l ih =>
    obtain ⟨b, hb⟩ := h a List.mem_cons_self
    obtain ⟨bs, hbs⟩ := ih fun c hc => h c (List.mem_cons_of_mem _ hc)
    exact ⟨b :: bs, by rw [List.map_cons, List.map_cons, hb, hbs]⟩

theorem map_extends {α β : Type} {V V' : α → Option β} (hV : Extends V V') {l : List α}
    {l' : List β} (h : l.map V = l'.map some) : l.map V' = l'.map some := by
  rw [← List.forall₂_eq_eq_eq, List.forall₂_map_left_iff, List.forall₂_map_right_iff] at h ⊢
  exact h.imp fun a b hab => hV a b hab

theorem lowerEdge_eq_some {B : Ir.Block → Option Cranelift.Block}
    {V : Ir.Value → Option Cranelift.Value} {edge : Ir.Block × List Ir.Value} {call : BlockCall} :
    lowerEdge B V edge = some call ↔
      B edge.1 = some call.block ∧ edge.2.map V = call.args.map some := by
  rw [← mapM_option_eq_some]
  simp only [lowerEdge, Option.bind_eq_bind, Option.bind_eq_some_iff, Option.pure_def,
    Option.some.injEq]
  constructor
  · rintro ⟨b, hb, args, hargs, rfl⟩
    exact ⟨hb, hargs⟩
  · rintro ⟨hb, hargs⟩
    exact ⟨_, hb, _, hargs, rfl⟩

theorem lowerTerminator_some {B : Ir.Block → Option Cranelift.Block}
    {V : Ir.Value → Option Cranelift.Value} {term : Ir.Terminator}
    (hV : ∀ u ∈ term.uses, ∃ x, V u = some x) (hB : ∀ s ∈ term.successors, ∃ b, B s = some b) :
    ∃ inst, lowerTerminator B V term = some inst := by
  have hedge : ∀ edge ∈ term.edges, ∃ call, lowerEdge B V edge = some call := by
    intro edge hmem
    obtain ⟨b, hb⟩ := hB edge.1 (List.mem_map_of_mem hmem)
    have hargs : ∀ u ∈ edge.2, ∃ x, V u = some x :=
      fun u hu => hV u (Ir.Terminator.uses_of_edge hmem hu)
    obtain ⟨args, hmap⟩ := exists_map_eq_some hargs
    exact ⟨⟨b, args⟩, lowerEdge_eq_some.mpr ⟨hb, hmap⟩⟩
  cases term with
  | ret value =>
    obtain ⟨args, hargs⟩ := exists_map_eq_some hV
    have hargs : value.toList.mapM V = some args := mapM_option_eq_some.mpr hargs
    exact ⟨.return_ args, by simp [lowerTerminator, hargs]⟩
  | jump target args =>
    obtain ⟨call, hcall⟩ := hedge (target, args) (by simp [Ir.Terminator.edges])
    exact ⟨.jump call, by simp [lowerTerminator, hcall]⟩
  | branch cond thenBlock thenArgs elseBlock elseArgs =>
    obtain ⟨c, hc⟩ := hV cond (by simp [Ir.Terminator.uses])
    obtain ⟨x, hx⟩ := hedge (thenBlock, thenArgs) (by simp [Ir.Terminator.edges])
    obtain ⟨y, hy⟩ := hedge (elseBlock, elseArgs) (by simp [Ir.Terminator.edges])
    exact ⟨.brif c x y, by simp [lowerTerminator, hc, hx, hy]⟩

theorem lowerEdge_extends {B : Ir.Block → Option Cranelift.Block}
    {V V' : Ir.Value → Option Cranelift.Value} (hV : Extends V V') {edge : Ir.Block × List Ir.Value}
    {call : BlockCall} (h : lowerEdge B V edge = some call) : lowerEdge B V' edge = some call := by
  obtain ⟨hb, hargs⟩ := lowerEdge_eq_some.mp h
  exact lowerEdge_eq_some.mpr ⟨hb, map_extends hV hargs⟩

theorem lowerTerminator_extends {B : Ir.Block → Option Cranelift.Block}
    {V V' : Ir.Value → Option Cranelift.Value} (hV : Extends V V') {term : Ir.Terminator}
    {inst : Cranelift.Inst} (h : lowerTerminator B V term = some inst) :
    lowerTerminator B V' term = some inst := by
  cases term with
  | ret value =>
    obtain ⟨args, hargs, rfl⟩ := by simpa [lowerTerminator, Option.bind_eq_some_iff] using h
    have hargs := mapM_option_eq_some.mpr (map_extends hV (mapM_option_eq_some.mp hargs))
    simp [lowerTerminator, hargs]
  | jump target args =>
    obtain ⟨call, hcall, rfl⟩ := by simpa [lowerTerminator, Option.bind_eq_some_iff] using h
    simp [lowerTerminator, lowerEdge_extends hV hcall]
  | branch cond thenBlock thenArgs elseBlock elseArgs =>
    obtain ⟨c, hc, x, hx, y, hy, rfl⟩ := by
      simpa [lowerTerminator, Option.bind_eq_some_iff] using h
    simp [lowerTerminator, hV _ _ hc, lowerEdge_extends hV hx, lowerEdge_extends hV hy]

theorem lowerTerminator_isTerminator {B : Ir.Block → Option Cranelift.Block}
    {V : Ir.Value → Option Cranelift.Value} {term : Ir.Terminator} {inst : Cranelift.Inst}
    (h : lowerTerminator B V term = some inst) : inst.IsTerminator := by
  cases term with
  | ret value =>
    obtain ⟨args, -, rfl⟩ := by simpa [lowerTerminator, Option.bind_eq_some_iff] using h
    trivial
  | jump target args =>
    obtain ⟨call, -, rfl⟩ := by simpa [lowerTerminator, Option.bind_eq_some_iff] using h
    trivial
  | branch cond thenBlock thenArgs elseBlock elseArgs =>
    obtain ⟨c, -, x, -, y, -, rfl⟩ := by
      simpa [lowerTerminator, Option.bind_eq_some_iff] using h
    trivial

theorem blockArgs_of_some {values : List (Option Cranelift.Value)} {args : List Ir.Value}
    {xs : List Cranelift.Value} (h : args.map (standIn values) = xs.map some) :
    blockArgs values args = .ok xs := by
  rw [blockArgs, mapM_eq_ok_iff]
  rw [← List.forall₂_eq_eq_eq, List.forall₂_map_left_iff, List.forall₂_map_right_iff] at h
  exact h.imp fun _ _ h => clifValue_of_some h

/-- `emit_terminator` appends the lowered terminator. -/
theorem emitTerminator_eq {builder : Builder} {term : Ir.Terminator}
    {blocks : List (Option Cranelift.Block)} {values : List (Option Cranelift.Value)}
    {inst : Cranelift.Inst}
    (h : lowerTerminator (standInBlock blocks) (standIn values) term = some inst) :
    emitTerminator builder term blocks values = .ok (builder.insTerminator inst) := by
  cases term with
  | ret value =>
    cases value with
    | none => cases h; rfl
    | some v =>
      obtain ⟨x, hx, rfl⟩ := by simpa [lowerTerminator, Option.bind_eq_some_iff] using h
      simp [emitTerminator, clifValue_of_some hx]
  | jump target args =>
    obtain ⟨call, hcall, rfl⟩ := by simpa [lowerTerminator, Option.bind_eq_some_iff] using h
    obtain ⟨hb, hargs⟩ := lowerEdge_eq_some.mp hcall
    simp [emitTerminator, clifBlock_of_some hb, blockArgs_of_some hargs]
  | branch cond thenBlock thenArgs elseBlock elseArgs =>
    obtain ⟨c, hc, x, hx, y, hy, rfl⟩ := by
      simpa [lowerTerminator, Option.bind_eq_some_iff] using h
    obtain ⟨hxb, hxargs⟩ := lowerEdge_eq_some.mp hx
    obtain ⟨hyb, hyargs⟩ := lowerEdge_eq_some.mp hy
    simp [emitTerminator, clifValue_of_some hc, clifBlock_of_some hxb, clifBlock_of_some hyb,
      blockArgs_of_some hxargs, blockArgs_of_some hyargs]

/-! ## Blocks -/

/-- `V'` adds stand-ins to `V`, all numbered from `n` on. -/
structure Grows (n : ℕ) (V V' : Ir.Value → Option Cranelift.Value) : Prop where
  keeps : Extends V V'
  fresh : ∀ w y, V' w = some y → V w = some y ∨ n ≤ y.index

/-- `nodes` is the code of the IR instructions `vs`, numbered from `n` on; the operands of each are
numbered before its code, and of the values the code defines only the last stands for an IR value. -/
inductive Lowers (func : Ir.Function) (V : Ir.Value → Option Cranelift.Value) :
    ℕ → List Ir.Value → List InstData → Prop
  | nil (n : ℕ) : Lowers func V n [] []
  | cons {n : ℕ} {v : Ir.Value} {inst : Ir.Inst} {code : List Cranelift.Inst} {vs : List Ir.Value}
      {nodes : List InstData} : func.inst v = some inst → lowerInst func V n inst = some code →
      (∀ u ∈ inst.uses, ∃ y, V u = some y ∧ y.index < n) → V v = some (lastValue n code) →
      (∀ w y, V w = some y → n ≤ y.index → y.index < n + code.length → w = v) →
      Lowers func V (n + code.length) vs nodes → Lowers func V n (v :: vs) (number n code ++ nodes)

namespace Lowers
variable {func : Ir.Function} {V V' : Ir.Value → Option Cranelift.Value} {n : ℕ}
  {vs : List Ir.Value} {nodes : List InstData}

theorem snoc (h : Lowers func V n vs nodes) {v : Ir.Value} {inst : Ir.Inst}
    {code : List Cranelift.Inst} (hinst : func.inst v = some inst)
    (hcode : lowerInst func V (n + nodes.length) inst = some code)
    (huses : ∀ u ∈ inst.uses, ∃ y, V u = some y ∧ y.index < n + nodes.length)
    (hv : V v = some (lastValue (n + nodes.length) code))
    (honly : ∀ w y, V w = some y → n + nodes.length ≤ y.index →
      y.index < n + nodes.length + code.length → w = v) :
    Lowers func V n (vs ++ [v]) (nodes ++ number (n + nodes.length) code) := by
  induction h with
  | nil n =>
    have h := Lowers.cons hinst hcode huses hv honly (.nil _)
    rwa [List.append_nil] at h
  | @cons n v' inst' code' vs nodes hinst' hcode' huses' hv' honly' _ ih =>
    have e : n + (number n code' ++ nodes).length = n + code'.length + nodes.length := by
      simp [Nat.add_assoc]
    rw [e] at hcode huses hv honly ⊢
    rw [List.append_assoc]
    exact .cons hinst' hcode' huses' hv' honly' (ih hcode huses hv honly)

/-- Stand-ins added later, past the end of the code, change nothing. -/
theorem grows (h : Lowers func V n vs nodes) {m : ℕ} (hm : n + nodes.length ≤ m)
    (hV : Grows m V V') : Lowers func V' n vs nodes := by
  induction h with
  | nil n => exact .nil n
  | @cons n v inst code vs nodes hinst hcode huses hv honly _ ih =>
    rw [List.length_append, number_length] at hm
    refine .cons hinst (lowerInst_extends hV.keeps hcode) ?_ (hV.keeps _ _ hv) ?_ (ih (by omega))
    · intro u hu
      obtain ⟨y, hy, hlt⟩ := huses u hu
      exact ⟨y, hV.keeps u y hy, hlt⟩
    · intro w y hy hle hlt
      rcases hV.fresh w y hy with hy | hfresh
      · exact honly w y hy hle hlt
      · omega

/-- The code is determined by where its numbers start. -/
theorem deterministic {nodes' : List InstData} (h : Lowers func V n vs nodes)
    (h' : Lowers func V n vs nodes') : nodes = nodes' := by
  induction h generalizing nodes' with
  | nil n =>
    cases h'
    rfl
  | cons hinst hcode _ _ _ _ ih =>
    cases h' with
    | cons hinst' hcode' _ _ _ htail' =>
      obtain rfl := Option.some.inj (hinst.symm.trans hinst')
      obtain rfl := Option.some.inj (hcode.symm.trans hcode')
      rw [ih htail']

theorem results (h : Lowers func V n vs nodes) :
    nodes.filterMap InstData.result = (List.range' n nodes.length).map Cranelift.Value.mk := by
  induction h with
  | nil n => rfl
  | cons _ _ _ _ _ _ ih =>
    rw [List.filterMap_append, number_results, ih, List.length_append, number_length,
      ← List.map_append, List.range'_append_1]

end Lowers

/-- `code`, numbered after `nodes₁`, is the part of `nodes` that the IR instruction `v` of `vs` lowers
to; `nodes₁` is the code of the instructions `before` it. -/
structure Piece (func : Ir.Function) (V : Ir.Value → Option Cranelift.Value) (n : ℕ)
    (vs : List Ir.Value) (nodes : List InstData) (before : List Ir.Value) (v : Ir.Value)
    (nodes₁ : List InstData) (inst : Ir.Inst) (code : List Cranelift.Inst) : Prop where
  split : ∃ after, vs = before ++ v :: after
  lowers : Lowers func V n before nodes₁
  resolves : func.inst v = some inst
  lowered : lowerInst func V (n + nodes₁.length) inst = some code
  operands : ∀ u ∈ inst.uses, ∃ y, V u = some y ∧ y.index < n + nodes₁.length
  standIn : V v = some (lastValue (n + nodes₁.length) code)
  only : ∀ w y, V w = some y → n + nodes₁.length ≤ y.index →
    y.index < n + nodes₁.length + code.length → w = v
  placed : ∃ nodes₂, nodes = nodes₁ ++ (number (n + nodes₁.length) code ++ nodes₂)

namespace Piece
variable {func : Ir.Function} {V : Ir.Value → Option Cranelift.Value} {n : ℕ} {vs : List Ir.Value}
  {nodes : List InstData} {before : List Ir.Value} {v : Ir.Value} {nodes₁ : List InstData}
  {inst : Ir.Inst} {code : List Cranelift.Inst}

theorem cons {v' : Ir.Value} {inst' : Ir.Inst} {code' : List Cranelift.Inst}
    (hinst : func.inst v' = some inst') (hcode : lowerInst func V n inst' = some code')
    (huses : ∀ u ∈ inst'.uses, ∃ y, V u = some y ∧ y.index < n)
    (hv : V v' = some (lastValue n code'))
    (honly : ∀ w y, V w = some y → n ≤ y.index → y.index < n + code'.length → w = v')
    (h : Piece func V (n + code'.length) vs nodes before v nodes₁ inst code) :
    Piece func V n (v' :: vs) (number n code' ++ nodes) (v' :: before) v (number n code' ++ nodes₁)
      inst code := by
  have e : n + (number n code' ++ nodes₁).length = n + code'.length + nodes₁.length := by
    simp [Nat.add_assoc]
  obtain ⟨⟨after, hsplit⟩, hlowers, hinst', hcode', huses', hv', honly', nodes₂, hnodes⟩ := h
  refine ⟨⟨after, by rw [hsplit]; rfl⟩, .cons hinst hcode huses hv honly hlowers, hinst', ?_, ?_, ?_,
    ?_, ?_⟩
  · rwa [e]
  · rwa [e]
  · rwa [e]
  · rwa [e]
  · exact ⟨nodes₂, by rw [e, hnodes, List.append_assoc]⟩

theorem getElem? (h : Piece func V n vs nodes before v nodes₁ inst code) {i : ℕ}
    {clifInst : Cranelift.Inst} (hi : code[i]? = some clifInst) :
    nodes[nodes₁.length + i]? = some ⟨some ⟨n + nodes₁.length + i⟩, clifInst⟩ := by
  obtain ⟨nodes₂, hnodes⟩ := h.placed
  have hlt := (List.getElem?_eq_some_iff.mp hi).1
  rw [hnodes, List.getElem?_append_right (Nat.le_add_right _ _), Nat.add_sub_cancel_left,
    List.getElem?_append_left (by rwa [number_length]), number_getElem?, hi]
  rfl

theorem length_le (h : Piece func V n vs nodes before v nodes₁ inst code) :
    nodes₁.length + code.length ≤ nodes.length := by
  obtain ⟨nodes₂, hnodes⟩ := h.placed
  rw [hnodes, List.length_append, List.length_append, number_length]
  omega

/-- Instructions that start with the code of `vs` go on with that of `v` after that of `before`. -/
theorem exists_rest (h : Piece func V n vs nodes before v nodes₁ inst code)
    {insts rest : List InstData} (hinsts : insts = nodes ++ rest) :
    ∃ rest', insts = nodes₁ ++ (number (n + nodes₁.length) code ++ rest') := by
  obtain ⟨nodes₂, hnodes⟩ := h.placed
  refine ⟨nodes₂ ++ rest, ?_⟩
  rw [hinsts, hnodes, List.append_assoc, List.append_assoc]

end Piece

namespace Lowers
variable {func : Ir.Function} {V : Ir.Value → Option Cranelift.Value} {n : ℕ} {vs : List Ir.Value}
  {nodes : List InstData}

theorem exists_piece (h : Lowers func V n vs nodes) {before : List Ir.Value} {v : Ir.Value}
    {after : List Ir.Value} (hsplit : vs = before ++ v :: after) :
    ∃ nodes₁ inst code, Piece func V n vs nodes before v nodes₁ inst code := by
  induction h generalizing before with
  | nil => simp at hsplit
  | @cons n v' inst' code' vs nodes hinst hcode huses hv honly htail ih =>
    cases before with
    | nil =>
      obtain ⟨rfl, rfl⟩ := List.cons.inj hsplit
      exact ⟨[], inst', code', ⟨vs, rfl⟩, .nil n, hinst, hcode, huses, hv, honly, nodes, rfl⟩
    | cons w before =>
      obtain ⟨rfl, htl⟩ := List.cons.inj hsplit
      obtain ⟨nodes₁, inst, code, hpiece⟩ := ih htl
      exact ⟨_, inst, code, hpiece.cons hinst hcode huses hv honly⟩

/-- Every node belongs to the piece of an IR instruction; it defines the value of its own number. -/
theorem exists_piece_of_node (h : Lowers func V n vs nodes) {j : ℕ} {node : InstData}
    (hj : nodes[j]? = some node) :
    ∃ before v nodes₁ inst code i, Piece func V n vs nodes before v nodes₁ inst code ∧
      j = nodes₁.length + i ∧ code[i]? = some node.inst ∧ node.result = some ⟨n + j⟩ := by
  induction h generalizing j with
  | nil => simp at hj
  | @cons n v inst code vs nodes hinst hcode huses hv honly htail ih =>
    rcases Nat.lt_or_ge j code.length with hlt | hge
    · rw [List.getElem?_append_left (by rwa [number_length]), number_getElem?] at hj
      obtain ⟨clifInst, hget, rfl⟩ := Option.map_eq_some_iff.mp hj
      exact ⟨[], v, [], inst, code, j, ⟨⟨vs, rfl⟩, .nil n, hinst, hcode, huses, hv, honly, nodes, rfl⟩,
        (Nat.zero_add j).symm, hget, rfl⟩
    · rw [List.getElem?_append_right (by rwa [number_length]), number_length] at hj
      obtain ⟨before, w, nodes₁, inst', code', i, hpiece, hji, hget, hresult⟩ := ih hj
      refine ⟨_, w, _, inst', code', i, hpiece.cons hinst hcode huses hv honly, ?_, hget, ?_⟩
      · rw [List.length_append, number_length]
        omega
      · rw [hresult]
        congr 2
        omega

theorem result_of_node (h : Lowers func V n vs nodes) {j : ℕ} {node : InstData}
    (hj : nodes[j]? = some node) : node.result = some ⟨n + j⟩ := by
  obtain ⟨-, -, -, -, -, -, -, -, -, hresult⟩ := h.exists_piece_of_node hj
  exact hresult

theorem exists_node (h : Lowers func V n vs nodes) {v : Ir.Value} (hv : v ∈ vs) :
    ∃ (j : ℕ) (node : InstData), nodes[j]? = some node ∧ node.result = V v := by
  obtain ⟨before, after, hsplit⟩ := List.append_of_mem hv
  obtain ⟨nodes₁, inst, code, hpiece⟩ := h.exists_piece hsplit
  have hpos := List.length_pos_of_ne_nil (lowerInst_ne_nil hpiece.lowered)
  have hnode := hpiece.getElem? (List.getElem?_eq_getElem (show code.length - 1 < code.length by omega))
  refine ⟨_, _, hnode, ?_⟩
  rw [hpiece.standIn]
  simp only [lastValue, Option.some.injEq, Cranelift.Value.mk.injEq]
  omega

end Lowers

theorem binCode_uses {op : Ir.BinOp} {l r : Cranelift.Value} {operandTy : Ir.Ty} {n i : ℕ}
    {clifInst : Cranelift.Inst} (hi : (binCode op l r operandTy n)[i]? = some clifInst) :
    ∀ u ∈ clifInst.uses, u = l ∨ u = r ∨ (n ≤ u.index ∧ u.index < n + i) := by
  have hsingle : ∀ inst : Cranelift.Inst, inst.uses = [l, r] → ([inst] : List _)[i]? = some clifInst →
      ∀ u ∈ clifInst.uses, u = l ∨ u = r ∨ (n ≤ u.index ∧ u.index < n + i) := by
    intro inst huses hinst u hu
    rw [List.mem_singleton.mp (List.mem_of_getElem? hinst), huses] at hu
    rcases List.mem_cons.mp hu with rfl | hu
    · exact .inl rfl
    · exact .inr (.inl (List.mem_singleton.mp hu))
  cases op with
  | div =>
    by_cases hty : operandTy = .float
    · rw [binCode, if_pos hty] at hi
      exact hsingle _ rfl hi
    · rw [binCode, if_neg hty] at hi
      match i with
      | 0 | 1 | 2 | 3 | 4 | 5 | 6 | 7 | 8 =>
        cases hi
        simp [Inst.uses]
      | i + 9 => simp [intDivCode] at hi
  | and | or => exact hsingle _ rfl hi
  | _ =>
    refine hsingle _ ?_ hi
    split_ifs <;> rfl

theorem unCode_uses {op : Ir.UnOp} {x : Cranelift.Value} {operandTy : Ir.Ty} {n i : ℕ}
    {clifInst : Cranelift.Inst} (hi : (unCode op x operandTy n)[i]? = some clifInst) :
    ∀ u ∈ clifInst.uses, u = x ∨ (n ≤ u.index ∧ u.index < n + i) := by
  cases op with
  | neg =>
    intro u hu
    rw [List.mem_singleton.mp (List.mem_of_getElem? hi)] at hu
    split_ifs at hu <;> exact .inl (List.mem_singleton.mp hu)
  | not =>
    match i with
    | 0 | 1 =>
      cases hi
      simp [Inst.uses]
    | i + 2 => simp [unCode] at hi

/-- The code of an instruction reads the stand-ins of its operands and values it has defined itself. -/
theorem lowerInst_uses {func : Ir.Function} {V : Ir.Value → Option Cranelift.Value} {n : ℕ}
    {inst : Ir.Inst} {code : List Cranelift.Inst} (h : lowerInst func V n inst = some code) {i : ℕ}
    {clifInst : Cranelift.Inst} (hi : code[i]? = some clifInst) :
    ∀ u ∈ clifInst.uses, (∃ w ∈ inst.uses, V w = some u) ∨ (n ≤ u.index ∧ u.index < n + i) := by
  intro u hu
  cases inst with
  | iconst | fconst | bconst =>
    cases h
    rw [List.mem_singleton.mp (List.mem_of_getElem? hi)] at hu
    cases hu
  | bin op lhs rhs =>
    obtain ⟨l, hl, r, hr, ty, -, rfl⟩ := by
      simpa [lowerInst, Option.bind_eq_some_iff] using h
    rcases binCode_uses hi u hu with rfl | rfl | hown
    · exact .inl ⟨lhs, by simp [Ir.Inst.uses], hl⟩
    · exact .inl ⟨rhs, by simp [Ir.Inst.uses], hr⟩
    · exact .inr hown
  | un op operand =>
    obtain ⟨x, hx, ty, -, rfl⟩ := by simpa [lowerInst, Option.bind_eq_some_iff] using h
    rcases unCode_uses hi u hu with rfl | hown
    · exact .inl ⟨operand, by simp [Ir.Inst.uses], hx⟩
    · exact .inr hown

/-- The only division is the one of an integer division's code, on the divisor its guard selects. -/
theorem lowerInst_sdiv {func : Ir.Function} {V : Ir.Value → Option Cranelift.Value} {n i : ℕ}
    {inst : Ir.Inst} {code : List Cranelift.Inst} (h : lowerInst func V n inst = some code)
    {x y : Cranelift.Value} (hi : code[i]? = some (.binary .sdiv x y)) :
    ∃ lhs rhs r ty, inst = .bin .div lhs rhs ∧ V rhs = some r ∧ func.valueType lhs = some ty ∧
      ty ≠ .float ∧ code = intDivCode x r n ∧ i = 6 ∧ y = ⟨n + 5⟩ := by
  have hsingle : ∀ clifInst : Cranelift.Inst, clifInst ≠ .binary .sdiv x y → code ≠ [clifInst] := by
    rintro clifInst hne rfl
    exact hne (List.mem_singleton.mp (List.mem_of_getElem? hi)).symm
  cases inst with
  | iconst | fconst | bconst =>
    cases h
    exact absurd rfl (hsingle _ (by simp))
  | un op operand =>
    obtain ⟨z, -, ty, -, rfl⟩ := by simpa [lowerInst, Option.bind_eq_some_iff] using h
    cases op with
    | neg => exact absurd rfl (hsingle _ (by split_ifs <;> simp))
    | not =>
      match i with
      | 0 | 1 => cases hi
      | i + 2 => simp [unCode] at hi
  | bin op lhs rhs =>
    obtain ⟨l, -, r, hr, ty, hty, rfl⟩ := by
      simpa [lowerInst, Option.bind_eq_some_iff] using h
    cases op with
    | div =>
      by_cases hfloat : ty = .float
      · exact absurd (by rw [binCode, if_pos hfloat]) (hsingle (.binary .fdiv l r) (by simp))
      · rw [binCode, if_neg hfloat] at hi ⊢
        match i with
        | 0 | 1 | 2 | 3 | 4 | 5 | 7 | 8 => cases hi
        | 6 =>
          cases hi
          exact ⟨lhs, rhs, r, ty, rfl, hr, hty, hfloat, rfl, rfl, rfl⟩
        | i + 9 => simp [intDivCode] at hi
    | and | or => exact absurd rfl (hsingle _ (by simp))
    | _ => exact absurd rfl (hsingle _ (by split_ifs <;> simp))

/-! ## Typing -/

/-- Code that is well typed where it is inserted and whose last value has type `ty`. -/
def Yields (types : List Cranelift.Ty) (code : List Cranelift.Inst) (ty : Cranelift.Ty) : Prop :=
  CodeTyped types code ∧ HasType (types ++ codeTypes types code) (lastValue types.length code) ty

theorem Yields.single {types : List Cranelift.Ty} {inst : Cranelift.Inst} {ty : Cranelift.Ty}
    (h : InstTyped types inst ty) : Yields types [inst] ty := by
  have hres := h.resultType_eq
  refine ⟨⟨by rwa [hres], trivial⟩, ?_⟩
  rw [codeTypes, hres]
  exact HasType.last types ty _

theorem Yields.cons {types : List Cranelift.Ty} {inst : Cranelift.Inst} {t ty : Cranelift.Ty}
    {code : List Cranelift.Inst} (h : InstTyped types inst t) (hne : code ≠ [])
    (hcode : Yields (types ++ [t]) code ty) : Yields types (inst :: code) ty := by
  have hres := h.resultType_eq
  obtain ⟨htyped, hlast⟩ := hcode
  have hpos := List.length_pos_of_ne_nil hne
  have hvalue : lastValue types.length (inst :: code) =
      lastValue (types ++ [t]).length code := by
    simp only [lastValue, List.length_cons, List.length_append, List.length_nil]
    congr 1
    omega
  refine ⟨⟨by rwa [hres], by rwa [hres]⟩, ?_⟩
  rwa [codeTypes, hres, hvalue, ← List.singleton_append, ← List.append_assoc]

theorem intDivCode_yields {types : List Cranelift.Ty} {l r : Cranelift.Value}
    (hl : HasType types l .i64) (hr : HasType types r .i64) :
    Yields types (intDivCode l r types.length) .i64 := by
  have hl (more : List Cranelift.Ty) : HasType (types ++ more) l .i64 := hl.append more
  have hr (more : List Cranelift.Ty) : HasType (types ++ more) r .i64 := hr.append more
  refine .cons (t := .i64) ⟨.inr rfl, rfl⟩ (by simp) ?_
  refine .cons (t := .i64) ⟨.inr rfl, hr _, .last types _ _⟩ (by simp) ?_
  simp only [List.append_assoc, List.cons_append, List.nil_append]
  refine .cons (t := .i64) ⟨.inr rfl, rfl⟩ (by simp) ?_
  simp only [List.append_assoc, List.cons_append, List.nil_append]
  refine .cons (t := .i8) ⟨rfl, .i64, .inr rfl, by simp [HasType], by simp [HasType]⟩ (by simp) ?_
  simp only [List.append_assoc, List.cons_append, List.nil_append]
  refine .cons (t := .i64) ⟨.inr rfl, rfl⟩ (by simp) ?_
  simp only [List.append_assoc, List.cons_append, List.nil_append]
  refine .cons (t := .i64) ⟨by simp [HasType], by simp [HasType], hr _⟩ (by simp) ?_
  simp only [List.append_assoc, List.cons_append, List.nil_append]
  refine .cons (t := .i64) ⟨.inr rfl, hl _, by simp [HasType]⟩ (by simp) ?_
  simp only [List.append_assoc, List.cons_append, List.nil_append]
  refine .cons (t := .i64) ⟨.inr rfl, hl _, hr _⟩ (by simp) ?_
  simp only [List.append_assoc, List.cons_append, List.nil_append]
  exact .single ⟨by simp [HasType], by simp [HasType], by simp [HasType]⟩

theorem binCode_yields {types : List Cranelift.Ty} {op : Ir.BinOp} {l r : Cranelift.Value}
    {ty : Ir.Ty} {mty : Cranelift.Ty} (hop : op.Accepts ty) (hmty : machineTy ty = some mty)
    (hl : HasType types l mty) (hr : HasType types r mty) :
    ∃ result, machineTy (op.result ty) = some result ∧
      Yields types (binCode op l r ty types.length) result := by
  cases op with
  | add | sub | mul =>
    rcases hop with rfl | rfl <;> cases hmty
    · exact ⟨_, rfl, .single ⟨.inr rfl, hl, hr⟩⟩
    · exact ⟨_, rfl, .single ⟨rfl, hl, hr⟩⟩
  | div =>
    rcases hop with rfl | rfl <;> cases hmty
    · exact ⟨_, rfl, intDivCode_yields hl hr⟩
    · exact ⟨_, rfl, .single ⟨rfl, hl, hr⟩⟩
  | eq | ne =>
    cases ty with
    | int => cases hmty; exact ⟨_, rfl, .single ⟨rfl, .i64, .inr rfl, hl, hr⟩⟩
    | float => cases hmty; exact ⟨_, rfl, .single ⟨rfl, hl, hr⟩⟩
    | bool => cases hmty; exact ⟨_, rfl, .single ⟨rfl, .i8, .inl rfl, hl, hr⟩⟩
    | unit => cases hmty
  | lt | le | gt | ge =>
    rcases hop with rfl | rfl <;> cases hmty
    · exact ⟨_, rfl, .single ⟨rfl, .i64, .inr rfl, hl, hr⟩⟩
    · exact ⟨_, rfl, .single ⟨rfl, hl, hr⟩⟩
  | and | or =>
    obtain rfl := hop
    cases hmty
    exact ⟨_, rfl, .single ⟨.inl rfl, hl, hr⟩⟩

theorem unCode_yields {types : List Cranelift.Ty} {op : Ir.UnOp} {x : Cranelift.Value}
    {ty : Ir.Ty} {mty : Cranelift.Ty} (hop : op.Accepts ty) (hmty : machineTy ty = some mty)
    (hx : HasType types x mty) : Yields types (unCode op x ty types.length) mty := by
  cases op with
  | neg =>
    rcases hop with rfl | rfl <;> cases hmty
    · exact .single ⟨.inr rfl, hx⟩
    · exact .single ⟨rfl, hx⟩
  | not =>
    obtain rfl := hop
    cases hmty
    exact .cons (t := .i8) ⟨.inl rfl, rfl⟩ (by simp) <|
      .single ⟨.inl rfl, hx.append _, .last types _ _⟩

/-- A well-typed instruction with all its operands at hand lowers to code that yields a value of its
machine type. -/
theorem lowerInst_yields {func : Ir.Function} {V : Ir.Value → Option Cranelift.Value}
    {types : List Cranelift.Ty} {v : Ir.Value} {inst : Ir.Inst} (hinst : func.InstTyped v inst)
    (huses : OperandsTyped func V types inst) :
    ∃ code ty, lowerInst func V types.length inst = some code ∧ machineType func v = some ty ∧
      Yields types code ty := by
  cases inst with
  | iconst value =>
    have hty : func.valueType v = some .int := hinst
    exact ⟨_, _, rfl, machineType_eq hty, .single ⟨.inr rfl, rfl⟩⟩
  | fconst value =>
    have hty : func.valueType v = some .float := hinst
    exact ⟨_, _, rfl, machineType_eq hty, .single rfl⟩
  | bconst value =>
    have hty : func.valueType v = some .bool := hinst
    exact ⟨_, _, rfl, machineType_eq hty, .single ⟨.inl rfl, rfl⟩⟩
  | bin op lhs rhs =>
    obtain ⟨ty, hop, hlhs, hrhs, hv⟩ := hinst
    obtain ⟨l, mty, hl, hmty, hlty⟩ := huses lhs (by simp [Ir.Inst.uses])
    obtain ⟨r, mty', hr, hmty', hrty⟩ := huses rhs (by simp [Ir.Inst.uses])
    rw [machineType_eq hlhs] at hmty
    rw [machineType_eq hrhs, hmty] at hmty'
    cases hmty'
    obtain ⟨result, hresult, hyields⟩ := binCode_yields hop hmty hlty hrty
    exact ⟨_, result, by simp [lowerInst, hl, hr, hlhs], by rw [machineType_eq hv, hresult], hyields⟩
  | un op operand =>
    obtain ⟨ty, hop, hoperand, hv⟩ := hinst
    obtain ⟨x, mty, hx, hmty, hxty⟩ := huses operand (by simp [Ir.Inst.uses])
    rw [machineType_eq hoperand] at hmty
    exact ⟨_, mty, by simp [lowerInst, hx, hoperand], by rw [machineType_eq hv, hmty],
      unCode_yields hop hmty hxty⟩

end JitLang.Translate
