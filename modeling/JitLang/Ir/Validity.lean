import JitLang.Ir.Function

/-! # Well-formed SSA: what `Function::validate` is relied on for

`ir-lang`'s `validate` is outside the repository. `Function.Valid` states what the translator takes
from it: handles in range, every block terminated, one definition per value, operators, edges and
returns well typed, and every use dominated by its definition; and, as the builder has it, the entry's
parameters those of the function. Only reachable blocks are spoken of, so a function that is malformed
in dead code only is still covered. A terminator may name the entry block, which `validate` refuses
(`Function.SparesEntry`).
-/

namespace JitLang.Ir
set_option autoImplicit false

/-! ## Operator typing -/

/-- The operand types a binary operator takes; both operands have the same one. Equality compares any
two values of one type. -/
def BinOp.Accepts : BinOp → Ty → Prop
  | .add, ty | .sub, ty | .mul, ty | .div, ty => ty = .int ∨ ty = .float
  | .lt, ty | .le, ty | .gt, ty | .ge, ty => ty = .int ∨ ty = .float
  | .eq, _ | .ne, _ => True
  | .and, ty | .or, ty => ty = .bool

/-- The type of a binary operator's result on operands of type `ty`. -/
def BinOp.result : BinOp → Ty → Ty
  | .add, ty | .sub, ty | .mul, ty | .div, ty => ty
  | .eq, _ | .ne, _ | .lt, _ | .le, _ | .gt, _ | .ge, _ | .and, _ | .or, _ => .bool

/-- The operand types a unary operator takes; its result has the operand's type. -/
def UnOp.Accepts : UnOp → Ty → Prop
  | .neg, ty => ty = .int ∨ ty = .float
  | .not, ty => ty = .bool

namespace Function
variable (func : Function)

/-- `inst` is well typed as the definition of `v`. -/
def InstTyped (v : Value) : Inst → Prop
  | .iconst _ => func.valueType v = some .int
  | .fconst _ => func.valueType v = some .float
  | .bconst _ => func.valueType v = some .bool
  | .bin op lhs rhs => ∃ ty, op.Accepts ty ∧ func.valueType lhs = some ty ∧
      func.valueType rhs = some ty ∧ func.valueType v = some (op.result ty)
  | .un op operand => ∃ ty, op.Accepts ty ∧ func.valueType operand = some ty ∧
      func.valueType v = some ty

/-- The arguments of an edge have the types of the target's parameters, one for one. -/
def EdgeTyped (target : Block) (args : List Value) : Prop :=
  args.map func.valueType = (func.blockParams target).map func.valueType

def TerminatorTyped : Terminator → Prop
  | .ret none => func.ret = .unit
  | .ret (some v) => func.valueType v = some func.ret
  | .jump target args => func.EdgeTyped target args
  | .branch cond thenBlock thenArgs elseBlock elseArgs => func.valueType cond = some .bool ∧
      func.EdgeTyped thenBlock thenArgs ∧ func.EdgeTyped elseBlock elseArgs

variable {func} in
theorem TerminatorTyped.edge {term : Terminator} (h : func.TerminatorTyped term)
    {edge : Block × List Value} (hedge : edge ∈ term.edges) : func.EdgeTyped edge.1 edge.2 := by
  cases term with
  | ret => cases hedge
  | jump target args =>
    obtain rfl := List.mem_singleton.mp hedge
    exact h
  | branch cond thenBlock thenArgs elseBlock elseArgs =>
    rcases List.mem_cons.mp hedge with rfl | hedge
    · exact h.2.1
    · obtain rfl := List.mem_singleton.mp hedge
      exact h.2.2

/-- `v` may be read in block `b` after the instructions `before`: it is a parameter of `b`, one of
`before`, or defined in a block that strictly dominates `b`. -/
def Available (b : Block) (before : List Value) (v : Value) : Prop :=
  v ∈ func.blockParams b ∨ v ∈ before ∨ ∃ d, d ≠ b ∧ func.Dominates d b ∧ v ∈ func.defs d

/-- The guarantees of `Function::validate` the translator relies on. -/
structure Valid : Prop where
  entry_inRange : func.InRange func.entry
  terminated : ∀ b, func.Reachable b → ∃ term, func.terminator b = some term
  targets_inRange : ∀ b term, func.Reachable b → func.terminator b = some term →
    ∀ s ∈ term.successors, func.InRange s
  defs_inRange : ∀ b, func.Reachable b → ∀ v ∈ func.defs b, v.index < func.valueCount
  typed : ∀ b, func.Reachable b → ∀ v ∈ func.defs b, ∃ ty, func.valueType v = some ty
  insts_resolve : ∀ b, func.Reachable b → ∀ v ∈ func.insts b, ∃ inst, func.inst v = some inst
  defs_nodup : ∀ b, func.Reachable b → (func.defs b).Nodup
  defs_disjoint : ∀ b b', func.Reachable b → func.Reachable b' → ∀ v, v ∈ func.defs b →
    v ∈ func.defs b' → b = b'
  entry_params : (func.blockParams func.entry).map func.valueType = func.params.map some
  inst_typed : ∀ b, func.Reachable b → ∀ v ∈ func.insts b, ∀ inst, func.inst v = some inst →
    func.InstTyped v inst
  terminator_typed : ∀ b term, func.Reachable b → func.terminator b = some term →
    func.TerminatorTyped term
  inst_dominated : ∀ b, func.Reachable b → ∀ before v after, func.insts b = before ++ v :: after →
    ∀ inst, func.inst v = some inst → ∀ u ∈ inst.uses, func.Available b before u
  terminator_dominated : ∀ b term, func.Reachable b → func.terminator b = some term →
    ∀ u ∈ term.uses, func.Available b (func.insts b) u

/-- No reachable terminator names the entry block. -/
def SparesEntry : Prop := ∀ b term, func.Reachable b → func.terminator b = some term →
  func.entry ∉ term.successors

/-- The guarantees on one block, whose terminator is `term`. -/
structure ValidBlock (b : Block) (term : Terminator) : Prop where
  terminator : func.terminator b = some term
  targets_inRange : ∀ s ∈ term.successors, func.InRange s
  defs_inRange : ∀ v ∈ func.defs b, v.index < func.valueCount
  typed : ∀ v ∈ func.defs b, ∃ ty, func.valueType v = some ty
  defs_nodup : (func.defs b).Nodup
  insts_typed : ∀ v ∈ func.insts b, ∃ inst, func.inst v = some inst ∧ func.InstTyped v inst
  terminator_typed : func.TerminatorTyped term
  inst_dominated : ∀ before v after, func.insts b = before ++ v :: after →
    ∀ inst, func.inst v = some inst → ∀ u ∈ inst.uses, func.Available b before u
  terminator_dominated : ∀ u ∈ term.uses, func.Available b (func.insts b) u

variable {func}

namespace Valid

/-- What is asked of the blocks is asked of each one alone, but for their values being different. -/
theorem of_blocks (hentry : func.InRange func.entry)
    (hparams : (func.blockParams func.entry).map func.valueType = func.params.map some)
    (hdisjoint : ∀ b b', func.Reachable b → func.Reachable b' → ∀ v, v ∈ func.defs b →
      v ∈ func.defs b' → b = b')
    (hblocks : ∀ b, func.Reachable b → ∃ term, func.ValidBlock b term) : func.Valid := by
  choose term hblock using hblocks
  have hterm : ∀ b t, func.Reachable b → func.terminator b = some t → func.ValidBlock b t := by
    intro b t hb ht
    obtain rfl := Option.some.inj ((hblock b hb).terminator.symm.trans ht)
    exact hblock b hb
  have hinst : ∀ b, func.Reachable b → ∀ v ∈ func.insts b, ∀ inst, func.inst v = some inst →
      func.InstTyped v inst := by
    intro b hb v hv inst hinst
    obtain ⟨inst', hinst', htyped⟩ := (hblock b hb).insts_typed v hv
    obtain rfl := Option.some.inj (hinst'.symm.trans hinst)
    exact htyped
  exact
    { entry_inRange := hentry
      terminated := fun b hb => ⟨term b hb, (hblock b hb).terminator⟩
      targets_inRange := fun b t hb ht => (hterm b t hb ht).targets_inRange
      defs_inRange := fun b hb => (hblock b hb).defs_inRange
      typed := fun b hb => (hblock b hb).typed
      insts_resolve := fun b hb v hv => ((hblock b hb).insts_typed v hv).imp fun _ h => h.1
      defs_nodup := fun b hb => (hblock b hb).defs_nodup
      defs_disjoint := hdisjoint
      entry_params := hparams
      inst_typed := hinst
      terminator_typed := fun b t hb ht => (hterm b t hb ht).terminator_typed
      inst_dominated := fun b hb => (hblock b hb).inst_dominated
      terminator_dominated := fun b t hb ht => (hterm b t hb ht).terminator_dominated }

/-- A function that reaches its entry block only. -/
theorem of_entry {term : Terminator} (hentry : func.InRange func.entry)
    (hparams : (func.blockParams func.entry).map func.valueType = func.params.map some)
    (honly : ∀ b, func.Reachable b → b = func.entry)
    (hblock : func.ValidBlock func.entry term) : func.Valid := by
  refine .of_blocks hentry hparams (fun b b' hb hb' _ _ _ => ?_) fun b hb => ⟨term, ?_⟩
  · exact (honly b hb).trans (honly b' hb').symm
  · rw [honly b hb]
    exact hblock

theorem entry_reachable (hv : func.Valid) : func.Reachable func.entry :=
  ⟨hv.entry_inRange, .refl⟩

theorem successor_reachable (hv : func.Valid) {b s : Block} {term : Terminator}
    (hb : func.Reachable b) (hterm : func.terminator b = some term) (hs : s ∈ term.successors) :
    func.Reachable s :=
  hb.edge ⟨term, hterm, hs, hv.targets_inRange b term hb hterm s hs⟩

/-- A value that may be read in a reachable block is defined in a reachable block. -/
theorem available_defined {b : Block} (hb : func.Reachable b) {before : List Value} {v : Value}
    (hsub : ∀ u ∈ before, u ∈ func.insts b) (h : func.Available b before v) :
    ∃ d, func.Reachable d ∧ v ∈ func.defs d := by
  rcases h with h | h | ⟨d, -, hd, h⟩
  · exact ⟨b, hb, List.mem_append_left _ h⟩
  · exact ⟨b, hb, List.mem_append_right _ (hsub v h)⟩
  · exact ⟨d, hb.of_dominates hd, h⟩

end Valid
end Function

/-! ## Three valid functions

`halvings n flag` negates `flag` once for each time `n` can be halved before it is no longer positive:
a loop whose header takes the two loop variables as parameters.
-/

def halvings : Function where
  params := [.int, .bool]
  ret := .bool
  blockCount := 4
  entry := ⟨0⟩
  blockParams
    | ⟨0⟩ => [⟨0⟩, ⟨1⟩]
    | ⟨1⟩ => [⟨2⟩, ⟨3⟩]
    | _ => []
  insts
    | ⟨1⟩ => [⟨4⟩, ⟨5⟩]
    | ⟨2⟩ => [⟨6⟩, ⟨7⟩, ⟨8⟩]
    | _ => []
  terminator
    | ⟨0⟩ => some (.jump ⟨1⟩ [⟨0⟩, ⟨1⟩])
    | ⟨1⟩ => some (.branch ⟨5⟩ ⟨2⟩ [] ⟨3⟩ [])
    | ⟨2⟩ => some (.jump ⟨1⟩ [⟨7⟩, ⟨8⟩])
    | ⟨3⟩ => some (.ret (some ⟨3⟩))
    | _ => none
  inst
    | ⟨4⟩ => some (.iconst 0)
    | ⟨5⟩ => some (.bin .gt ⟨2⟩ ⟨4⟩)
    | ⟨6⟩ => some (.iconst 2)
    | ⟨7⟩ => some (.bin .div ⟨2⟩ ⟨6⟩)
    | ⟨8⟩ => some (.un .not ⟨3⟩)
    | _ => none
  valueCount := 9
  valueType v := ([.int, .bool, .int, .bool, .int, .bool, .int, .int, .bool] : List Ty)[v.index]?

namespace halvings

theorem forall_reachable {P : Block → Prop} (h0 : P ⟨0⟩) (h1 : P ⟨1⟩) (h2 : P ⟨2⟩) (h3 : P ⟨3⟩) :
    ∀ b, halvings.Reachable b → P b := by
  rintro ⟨i⟩ hb
  have hi : i < 4 := hb.inRange
  match i, hi with
  | 0, _ => exact h0
  | 1, _ => exact h1
  | 2, _ => exact h2
  | 3, _ => exact h3

theorem header_dominates {b : Block} (hb : b = ⟨2⟩ ∨ b = ⟨3⟩) : halvings.Dominates ⟨1⟩ b := by
  refine Graph.Dominates.of_only_predecessor (by rcases hb with rfl | rfl <;> decide) ?_
  rintro ⟨c⟩ ⟨term, hterm, hs, -⟩
  match c with
  | 0 | 2 =>
    cases hterm
    rcases hb with rfl | rfl <;> simp [Terminator.successors, Terminator.edges] at hs
  | 1 => rfl
  | 3 =>
    cases hterm
    simp [Terminator.successors, Terminator.edges] at hs
  | n + 4 => cases hterm

theorem available_header {b : Block} (hb : b = ⟨2⟩ ∨ b = ⟨3⟩) {before : List Value} {v : Value}
    (hv : v ∈ halvings.blockParams ⟨1⟩) : halvings.Available b before v :=
  .inr (.inr ⟨⟨1⟩, by rcases hb with rfl | rfl <;> decide, header_dominates hb,
    List.mem_append_left _ hv⟩)

theorem valid_entry : halvings.ValidBlock ⟨0⟩ (.jump ⟨1⟩ [⟨0⟩, ⟨1⟩]) where
  terminator := rfl
  targets_inRange := by decide
  defs_inRange := by decide
  typed := by simp [halvings, Function.defs]
  defs_nodup := by decide
  insts_typed := by simp [halvings]
  terminator_typed := rfl
  inst_dominated before v after h := by cases before <;> cases h
  terminator_dominated _ hu := .inl hu

theorem valid_header : halvings.ValidBlock ⟨1⟩ (.branch ⟨5⟩ ⟨2⟩ [] ⟨3⟩ []) where
  terminator := rfl
  targets_inRange := by decide
  defs_inRange := by decide
  typed := by simp [halvings, Function.defs]
  defs_nodup := by decide
  insts_typed := by simp [halvings, Function.InstTyped, BinOp.Accepts, BinOp.result]
  terminator_typed := ⟨rfl, rfl, rfl⟩
  inst_dominated before v after h inst hinst u hu := by
    match before with
    | [] =>
      cases h
      cases hinst
      cases hu
    | [_] =>
      cases h
      cases hinst
      obtain rfl | rfl : u = ⟨2⟩ ∨ u = ⟨4⟩ := by simpa [Inst.uses] using hu
      · exact .inl (by decide)
      · exact .inr (.inl (by decide))
    | _ :: _ :: before => cases before <;> cases h
  terminator_dominated u hu := by
    obtain rfl : u = ⟨5⟩ := by simpa [Terminator.uses] using hu
    exact .inr (.inl (by decide))

theorem valid_body : halvings.ValidBlock ⟨2⟩ (.jump ⟨1⟩ [⟨7⟩, ⟨8⟩]) where
  terminator := rfl
  targets_inRange := by decide
  defs_inRange := by decide
  typed := by simp [halvings, Function.defs]
  defs_nodup := by decide
  insts_typed := by
    simp [halvings, Function.InstTyped, BinOp.Accepts, BinOp.result, UnOp.Accepts]
  terminator_typed := rfl
  inst_dominated before v after h inst hinst u hu := by
    match before with
    | [] =>
      cases h
      cases hinst
      cases hu
    | [_] =>
      cases h
      cases hinst
      obtain rfl | rfl : u = ⟨2⟩ ∨ u = ⟨6⟩ := by simpa [Inst.uses] using hu
      · exact available_header (.inl rfl) (by decide)
      · exact .inr (.inl (by decide))
    | [_, _] =>
      cases h
      cases hinst
      obtain rfl : u = ⟨3⟩ := by simpa [Inst.uses] using hu
      exact available_header (.inl rfl) (by decide)
    | _ :: _ :: _ :: before => cases before <;> cases h
  terminator_dominated _ hu := .inr (.inl (List.mem_cons_of_mem _ hu))

theorem valid_exit : halvings.ValidBlock ⟨3⟩ (.ret (some ⟨3⟩)) where
  terminator := rfl
  targets_inRange := by decide
  defs_inRange := by decide
  typed := by simp [halvings, Function.defs]
  defs_nodup := by decide
  insts_typed := by simp [halvings]
  terminator_typed := rfl
  inst_dominated before v after h := by cases before <;> cases h
  terminator_dominated u hu := by
    obtain rfl : u = ⟨3⟩ := by simpa [Terminator.uses] using hu
    exact available_header (.inr rfl) (by decide)

theorem valid : halvings.Valid := by
  refine .of_blocks (by decide) rfl (fun b b' hb hb' v hv hv' => ?_)
    (forall_reachable ⟨_, valid_entry⟩ ⟨_, valid_header⟩ ⟨_, valid_body⟩ ⟨_, valid_exit⟩)
  let home : List Block := [⟨0⟩, ⟨0⟩, ⟨1⟩, ⟨1⟩, ⟨1⟩, ⟨1⟩, ⟨2⟩, ⟨2⟩, ⟨2⟩]
  have h : ∀ b, halvings.Reachable b → ∀ v ∈ halvings.defs b, home[v.index]? = some b :=
    forall_reachable (by decide) (by decide) (by decide) (by decide)
  exact Option.some.inj ((h b hb v hv).symm.trans (h b' hb' v hv'))

theorem reachable_header : halvings.Reachable ⟨1⟩ :=
  valid.successor_reachable valid.entry_reachable
    (rfl : halvings.terminator ⟨0⟩ = some (.jump ⟨1⟩ [⟨0⟩, ⟨1⟩])) (by decide)

theorem reachable_body : halvings.Reachable ⟨2⟩ :=
  valid.successor_reachable reachable_header
    (rfl : halvings.terminator ⟨1⟩ = some (.branch ⟨5⟩ ⟨2⟩ [] ⟨3⟩ [])) (by decide)

end halvings

/-- The `fn f(x: int) -> int` of `Compiled::code_len`'s documentation: it returns its argument. -/
def identity : Function where
  params := [.int]
  ret := .int
  blockCount := 1
  entry := ⟨0⟩
  blockParams
    | ⟨0⟩ => [⟨0⟩]
    | _ => []
  insts _ := []
  terminator
    | ⟨0⟩ => some (.ret (some ⟨0⟩))
    | _ => none
  inst _ := none
  valueCount := 1
  valueType
    | ⟨0⟩ => some .int
    | _ => none

namespace identity

theorem valid_entry : identity.ValidBlock ⟨0⟩ (.ret (some ⟨0⟩)) where
  terminator := rfl
  targets_inRange := by decide
  defs_inRange := by decide
  typed := by simp [identity, Function.defs]
  defs_nodup := by decide
  insts_typed := by simp [identity]
  terminator_typed := rfl
  inst_dominated before v after h := by cases before <;> cases h
  terminator_dominated u hu := by
    obtain rfl : u = ⟨0⟩ := by simpa [Terminator.uses] using hu
    exact .inl (by decide)

theorem valid : identity.Valid :=
  .of_entry (by decide) rfl (fun _ hb => hb.eq_zero rfl) valid_entry

end identity

/-- `rem_fn` of `tests/division.rs`: `rem a b` is `a - b * (a / b)`. -/
def remFn : Function where
  params := [.int, .int]
  ret := .int
  blockCount := 1
  entry := ⟨0⟩
  blockParams
    | ⟨0⟩ => [⟨0⟩, ⟨1⟩]
    | _ => []
  insts
    | ⟨0⟩ => [⟨2⟩, ⟨3⟩, ⟨4⟩]
    | _ => []
  terminator
    | ⟨0⟩ => some (.ret (some ⟨4⟩))
    | _ => none
  inst
    | ⟨2⟩ => some (.bin .div ⟨0⟩ ⟨1⟩)
    | ⟨3⟩ => some (.bin .mul ⟨1⟩ ⟨2⟩)
    | ⟨4⟩ => some (.bin .sub ⟨0⟩ ⟨3⟩)
    | _ => none
  valueCount := 5
  valueType v := ([.int, .int, .int, .int, .int] : List Ty)[v.index]?

namespace remFn

theorem valid_entry : remFn.ValidBlock ⟨0⟩ (.ret (some ⟨4⟩)) where
  terminator := rfl
  targets_inRange := by decide
  defs_inRange := by decide
  typed := by simp [remFn, Function.defs]
  defs_nodup := by decide
  insts_typed := by simp [remFn, Function.InstTyped, BinOp.Accepts, BinOp.result]
  terminator_typed := rfl
  inst_dominated before v after h inst hinst u hu := by
    match before with
    | [] =>
      cases h
      cases hinst
      exact .inl hu
    | [_] =>
      cases h
      cases hinst
      obtain rfl | rfl : u = ⟨1⟩ ∨ u = ⟨2⟩ := by simpa [Inst.uses] using hu
      · exact .inl (by decide)
      · exact .inr (.inl (by decide))
    | [_, _] =>
      cases h
      cases hinst
      obtain rfl | rfl : u = ⟨0⟩ ∨ u = ⟨3⟩ := by simpa [Inst.uses] using hu
      · exact .inl (by decide)
      · exact .inr (.inl (by decide))
    | _ :: _ :: _ :: before => cases before <;> cases h
  terminator_dominated u hu := by
    obtain rfl : u = ⟨4⟩ := by simpa [Terminator.uses] using hu
    exact .inr (.inl (by decide))

theorem valid : remFn.Valid :=
  .of_entry (by decide) rfl (fun _ hb => hb.eq_zero rfl) valid_entry

end remFn
end JitLang.Ir
