import JitLang.Foundations.Lists
import JitLang.Ir.Validity

/-! # Checking validity

A function is checked block by block against a table that lists the strict dominators of each block. Only
the closure of the table along the edges is checked, so it may come from anywhere. What passes is valid
(`Function.Checked.valid`), and the check runs. Beside it stands the rule on edges to the entry block.
-/

namespace JitLang.Ir
open Foundations
set_option autoImplicit false

/-! ## Typing is decidable -/

instance (op : BinOp) (ty : Ty) : Decidable (op.Accepts ty) := by
  cases op <;> unfold BinOp.Accepts <;> infer_instance

instance (op : UnOp) (ty : Ty) : Decidable (op.Accepts ty) := by
  cases op <;> unfold UnOp.Accepts <;> infer_instance

namespace Function
variable (func : Function)

/-- The type of the first operand decides. -/
instance (v : Value) (inst : Inst) : Decidable (func.InstTyped v inst) :=
  match inst with
  | .iconst _ => inferInstanceAs (Decidable (func.valueType v = some .int))
  | .fconst _ => inferInstanceAs (Decidable (func.valueType v = some .float))
  | .bconst _ => inferInstanceAs (Decidable (func.valueType v = some .bool))
  | .bin op lhs rhs =>
    decidable_of_iff (∃ ty ∈ func.valueType lhs, op.Accepts ty ∧ func.valueType rhs = some ty ∧
      func.valueType v = some (op.result ty)) (by
        constructor
        · rintro ⟨ty, hlhs, hop, hrhs, hv⟩
          exact ⟨ty, hop, hlhs, hrhs, hv⟩
        · rintro ⟨ty, hop, hlhs, hrhs, hv⟩
          exact ⟨ty, hlhs, hop, hrhs, hv⟩)
  | .un op operand =>
    decidable_of_iff (∃ ty ∈ func.valueType operand, op.Accepts ty ∧ func.valueType v = some ty) (by
      constructor
      · rintro ⟨ty, hoperand, hop, hv⟩
        exact ⟨ty, hop, hoperand, hv⟩
      · rintro ⟨ty, hop, hoperand, hv⟩
        exact ⟨ty, hoperand, hop, hv⟩)

instance (target : Block) (args : List Value) : Decidable (func.EdgeTyped target args) :=
  inferInstanceAs (Decidable (_ = _))

instance (term : Terminator) : Decidable (func.TerminatorTyped term) :=
  match term with
  | .ret none => inferInstanceAs (Decidable (func.ret = .unit))
  | .ret (some v) => inferInstanceAs (Decidable (func.valueType v = some func.ret))
  | .jump target args => inferInstanceAs (Decidable (func.EdgeTyped target args))
  | .branch cond thenBlock thenArgs elseBlock elseArgs =>
    inferInstanceAs (Decidable (func.valueType cond = some .bool ∧
      func.EdgeTyped thenBlock thenArgs ∧ func.EdgeTyped elseBlock elseArgs))

/-! ## The check -/

/-- The instructions of a block, where the values `avail` may be read. -/
def CheckedInsts : List Value → List Value → Prop
  | _, [] => True
  | avail, v :: vs =>
    (∃ inst ∈ func.inst v, func.InstTyped v inst ∧ ∀ u ∈ inst.uses, u ∈ avail) ∧
      CheckedInsts (v :: avail) vs

instance decidableCheckedInsts : ∀ avail vs, Decidable (func.CheckedInsts avail vs)
  | _, [] => inferInstanceAs (Decidable True)
  | avail, v :: vs =>
    have := decidableCheckedInsts (v :: avail) vs
    inferInstanceAs (Decidable (_ ∧ _))

/-- The terminator of `b`; `doms` is closed along its edges. -/
structure CheckedTerminator (doms : Block → List Block) (b : Block) (avail : List Value)
    (term : Terminator) : Prop where
  typed : func.TerminatorTyped term
  uses : ∀ u ∈ term.uses, u ∈ avail
  targets : ∀ s ∈ term.successors, func.InRange s
  closed : ∀ s ∈ term.successors, ∀ d ∈ doms s, d = b ∨ d ∈ doms b

instance (doms : Block → List Block) (b : Block) (avail : List Value) (term : Terminator) :
    Decidable (func.CheckedTerminator doms b avail term) :=
  decidable_of_iff (func.TerminatorTyped term ∧ (∀ u ∈ term.uses, u ∈ avail) ∧
      (∀ s ∈ term.successors, func.InRange s) ∧
      ∀ s ∈ term.successors, ∀ d ∈ doms s, d = b ∨ d ∈ doms b)
    ⟨fun ⟨h₁, h₂, h₃, h₄⟩ => ⟨h₁, h₂, h₃, h₄⟩, fun h => ⟨h.typed, h.uses, h.targets, h.closed⟩⟩

/-- What may be read in `b` before its first instruction. -/
def incoming (doms : Block → List Block) (b : Block) : List Value :=
  func.blockParams b ++ (doms b).flatMap func.defs

structure CheckedBlock (doms : Block → List Block) (b : Block) : Prop where
  strict : b ∉ doms b
  insts : func.CheckedInsts (func.incoming doms b) (func.insts b)
  terminator : ∃ term ∈ func.terminator b,
    func.CheckedTerminator doms b (func.insts b ++ func.incoming doms b) term
  defs : ∀ v ∈ func.defs b, v.index < func.valueCount ∧ (func.valueType v).isSome

instance (doms : Block → List Block) (b : Block) : Decidable (func.CheckedBlock doms b) :=
  decidable_of_iff (b ∉ doms b ∧ func.CheckedInsts (func.incoming doms b) (func.insts b) ∧
      (∃ term ∈ func.terminator b,
        func.CheckedTerminator doms b (func.insts b ++ func.incoming doms b) term) ∧
      ∀ v ∈ func.defs b, v.index < func.valueCount ∧ (func.valueType v).isSome)
    ⟨fun ⟨h₁, h₂, h₃, h₄⟩ => ⟨h₁, h₂, h₃, h₄⟩, fun h => ⟨h.strict, h.insts, h.terminator, h.defs⟩⟩

def blocks : List Block := (List.range func.blockCount).map Block.mk

structure Checked (doms : Block → List Block) : Prop where
  entry : func.InRange func.entry
  root : doms func.entry = []
  params : (func.blockParams func.entry).map func.valueType = func.params.map some
  defs_nodup : (func.blocks.flatMap func.defs).Nodup
  blocks : ∀ b ∈ func.blocks, func.CheckedBlock doms b

instance (doms : Block → List Block) : Decidable (func.Checked doms) :=
  decidable_of_iff (func.InRange func.entry ∧ doms func.entry = [] ∧
      (func.blockParams func.entry).map func.valueType = func.params.map some ∧
      (func.blocks.flatMap func.defs).Nodup ∧ ∀ b ∈ func.blocks, func.CheckedBlock doms b)
    ⟨fun ⟨h₁, h₂, h₃, h₄, h₅⟩ => ⟨h₁, h₂, h₃, h₄, h₅⟩,
      fun h => ⟨h.entry, h.root, h.params, h.defs_nodup, h.blocks⟩⟩

/-! ## What passes is valid -/

variable {func} {doms : Block → List Block} {b : Block}

theorem mem_blocks : b ∈ func.blocks ↔ func.InRange b := by
  cases b
  simp [blocks, InRange]

theorem CheckedInsts.split {avail before after : List Value} {v : Value}
    (h : func.CheckedInsts avail (before ++ v :: after)) :
    ∃ inst, func.inst v = some inst ∧ func.InstTyped v inst ∧
      ∀ u ∈ inst.uses, u ∈ before ∨ u ∈ avail := by
  induction before generalizing avail with
  | nil =>
    obtain ⟨⟨inst, hinst, htyped, huses⟩, -⟩ := h
    exact ⟨inst, hinst, htyped, fun u hu => .inr (huses u hu)⟩
  | cons w before ih =>
    obtain ⟨inst, hinst, htyped, huses⟩ := ih h.2
    refine ⟨inst, hinst, htyped, fun u hu => ?_⟩
    rcases huses u hu with hbefore | havail
    · exact .inl (List.mem_cons_of_mem _ hbefore)
    · rcases List.mem_cons.mp havail with rfl | havail
      · exact .inl List.mem_cons_self
      · exact .inr havail

namespace Checked

theorem dominates (h : func.Checked doms) {d b : Block} (hd : d ∈ doms b) : func.Dominates d b := by
  refine Graph.Dominates.of_closed h.root (fun a b ha hedge d hd => ?_) hd
  have hreach : func.Reachable a := ⟨h.entry, ha⟩
  obtain ⟨term, hterm, hs, -⟩ := hedge
  obtain ⟨term', hterm', hchecked⟩ := (h.blocks a (mem_blocks.mpr hreach.inRange)).terminator
  obtain rfl := Option.some.inj (hterm.symm.trans hterm')
  exact hchecked.closed b hs d hd

/-- What comes in may be read. -/
theorem available (h : func.Checked doms) (hb : func.InRange b) {before : List Value} {u : Value}
    (hu : u ∈ before ∨ u ∈ func.incoming doms b) : func.Available b before u := by
  rcases hu with hbefore | hincoming
  · exact .inr (.inl hbefore)
  · rcases List.mem_append.mp hincoming with hparam | hdom
    · exact .inl hparam
    · obtain ⟨d, hd, hu⟩ := List.mem_flatMap.mp hdom
      have hne : d ≠ b := by
        rintro rfl
        exact (h.blocks d (mem_blocks.mpr hb)).strict hd
      exact .inr (.inr ⟨d, hne, h.dominates hd, hu⟩)

theorem validBlock (h : func.Checked doms) (hb : func.InRange b) : ∃ term, func.ValidBlock b term := by
  have hchecked := h.blocks b (mem_blocks.mpr hb)
  obtain ⟨term, hterm, hterminator⟩ := hchecked.terminator
  exact ⟨term,
    { terminator := hterm
      targets_inRange := hterminator.targets
      defs_inRange := fun v hv => (hchecked.defs v hv).1
      typed := fun v hv => Option.isSome_iff_exists.mp (hchecked.defs v hv).2
      defs_nodup := (List.nodup_flatMap.mp h.defs_nodup).1 b (mem_blocks.mpr hb)
      insts_typed := fun v hv => by
        obtain ⟨before, after, hsplit⟩ := List.append_of_mem hv
        obtain ⟨inst, hinst, htyped, -⟩ := (hsplit ▸ hchecked.insts).split
        exact ⟨inst, hinst, htyped⟩
      terminator_typed := hterminator.typed
      inst_dominated := fun before v after hsplit inst hinst u hu => by
        obtain ⟨inst', hinst', -, huses⟩ := (hsplit ▸ hchecked.insts).split
        obtain rfl := Option.some.inj (hinst.symm.trans hinst')
        exact h.available hb (huses u hu)
      terminator_dominated := fun u hu =>
        h.available hb (List.mem_append.mp (hterminator.uses u hu)) }⟩

theorem valid (h : func.Checked doms) : func.Valid := by
  refine .of_blocks h.entry h.params (fun b b' hb hb' v hv hv' => ?_) fun b hb =>
    h.validBlock hb.inRange
  obtain ⟨i, hi⟩ := List.mem_iff_getElem?.mp (mem_blocks.mpr hb.inRange)
  obtain ⟨j, hj⟩ := List.mem_iff_getElem?.mp (mem_blocks.mpr hb'.inRange)
  obtain rfl := flatMap_nodup_index h.defs_nodup hi hj hv hv'
  exact Option.some.inj (hi.symm.trans hj)

end Checked

/-! ## Edges to the entry block -/

/-- Refuses a terminator that names the entry block, wherever it stands, with its block. -/
def refuseEntryTargets (func : Function) : Except Block Unit :=
  match func.blocks.find? fun b => (func.terminator b).any (func.entry ∈ ·.successors) with
  | some b => .error b
  | none => .ok ()

theorem sparesEntry_of_refuse (h : func.refuseEntryTargets = .ok ()) : func.SparesEntry := by
  intro b term hb hterm hs
  unfold refuseEntryTargets at h
  split at h
  · cases h
  · rename_i hnone
    have hb := List.find?_eq_none.mp hnone b (mem_blocks.mpr hb.inRange)
    rw [hterm] at hb
    exact hb (by simpa using hs)

end Function

/-- `halvings` again: its loop header dominates the body and the exit. -/
example : halvings.Checked fun b => if b = ⟨0⟩ then [] else if b = ⟨1⟩ then [⟨0⟩] else [⟨0⟩, ⟨1⟩] := by
  decide

/-- `countdown n` takes 1 from `n` until it is not positive: its loop header is the entry block. -/
def countdown : Function where
  params := [.int]
  ret := .int
  blockCount := 3
  entry := ⟨0⟩
  blockParams
    | ⟨0⟩ => [⟨0⟩]
    | _ => []
  insts
    | ⟨0⟩ => [⟨1⟩, ⟨2⟩]
    | ⟨1⟩ => [⟨3⟩, ⟨4⟩]
    | _ => []
  terminator
    | ⟨0⟩ => some (.branch ⟨2⟩ ⟨1⟩ [] ⟨2⟩ [])
    | ⟨1⟩ => some (.jump ⟨0⟩ [⟨4⟩])
    | ⟨2⟩ => some (.ret (some ⟨0⟩))
    | _ => none
  inst
    | ⟨1⟩ => some (.iconst 0)
    | ⟨2⟩ => some (.bin .gt ⟨0⟩ ⟨1⟩)
    | ⟨3⟩ => some (.iconst 1)
    | ⟨4⟩ => some (.bin .sub ⟨0⟩ ⟨3⟩)
    | _ => none
  valueCount := 5
  valueType v := ([.int, .int, .bool, .int, .int] : List Ty)[v.index]?

namespace countdown

theorem valid : countdown.Valid := by
  have h : countdown.Checked fun b => if b = ⟨0⟩ then [] else [⟨0⟩] := by decide
  exact h.valid

theorem reachable_body : countdown.Reachable ⟨1⟩ :=
  valid.successor_reachable valid.entry_reachable
    (rfl : countdown.terminator ⟨0⟩ = some (.branch ⟨2⟩ ⟨1⟩ [] ⟨2⟩ [])) (by decide)

end countdown

end JitLang.Ir
