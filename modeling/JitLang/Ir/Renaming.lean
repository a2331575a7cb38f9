import JitLang.Ir.Checker
import Mathlib.Data.Set.Function

/-! # Renaming the reachable part of a function

`Renaming f g` carries the part of `f` that is reachable from its entry onto that of `g`: a bijection
of the reachable blocks and one of the values they define. It says nothing about any other block or
handle of either function. What injective names carry over is so renamed (`Renaming.ofInjOn`).
-/

namespace JitLang.Ir
set_option autoImplicit false

/-! ## Instructions and terminators under new names -/

def Inst.rename (value : Value → Value) : Inst → Inst
  | .iconst x => .iconst x
  | .fconst x => .fconst x
  | .bconst x => .bconst x
  | .bin op lhs rhs => .bin op (value lhs) (value rhs)
  | .un op operand => .un op (value operand)

def Terminator.rename (block : Block → Block) (value : Value → Value) : Terminator → Terminator
  | .ret x => .ret (x.map value)
  | .jump target args => .jump (block target) (args.map value)
  | .branch cond thenBlock thenArgs elseBlock elseArgs =>
    .branch (value cond) (block thenBlock) (thenArgs.map value) (block elseBlock) (elseArgs.map value)

theorem Terminator.successors_rename (block : Block → Block) (value : Value → Value)
    (term : Terminator) : (term.rename block value).successors = term.successors.map block := by
  cases term <;> rfl

namespace Function

/-- `v` is defined in a reachable block. -/
def Defined (func : Function) (v : Value) : Prop := ∃ b, func.Reachable b ∧ v ∈ func.defs b

structure Renaming (f g : Function) where
  block : Block → Block
  value : Value → Value
  block_bijOn : Set.BijOn block {b | f.Reachable b} {b | g.Reachable b}
  value_bijOn : Set.BijOn value {v | f.Defined v} {v | g.Defined v}
  entry : g.entry = block f.entry
  blockParams : ∀ b, f.Reachable b → g.blockParams (block b) = (f.blockParams b).map value
  insts : ∀ b, f.Reachable b → g.insts (block b) = (f.insts b).map value
  inst : ∀ b v, f.Reachable b → v ∈ f.insts b → g.inst (value v) = (f.inst v).map (·.rename value)
  terminator : ∀ b, f.Reachable b → g.terminator (block b) =
    (f.terminator b).map (·.rename block value)
  valueType : ∀ v, f.Defined v → g.valueType (value v) = f.valueType v

namespace Valid
variable {func : Function} {b : Block}

theorem defined_lt (hv : func.Valid) {v : Value} (h : func.Defined v) :
    v.index < func.valueCount := by
  obtain ⟨b, hb, hvb⟩ := h
  exact hv.defs_inRange b hb v hvb

theorem inst_uses_defined (hv : func.Valid) (hb : func.Reachable b) {v : Value}
    (hvb : v ∈ func.insts b) {inst : Inst} (hinst : func.inst v = some inst) :
    ∀ u ∈ inst.uses, func.Defined u := by
  intro u hu
  obtain ⟨before, after, hsplit⟩ := List.append_of_mem hvb
  have hsub : ∀ w ∈ before, w ∈ func.insts b := fun w hw => by simp [hsplit, hw]
  exact available_defined hb hsub (hv.inst_dominated b hb before v after hsplit inst hinst u hu)

theorem terminator_uses_defined (hv : func.Valid) (hb : func.Reachable b) {term : Terminator}
    (hterm : func.terminator b = some term) : ∀ u ∈ term.uses, func.Defined u :=
  fun u hu => available_defined hb (fun _ h => h) (hv.terminator_dominated b term hb hterm u hu)

end Valid

/-! ## Injective renamings -/

section Injective
variable {f g : Function} {block : Block → Block} {value : Value → Value}

theorem renamed_reachable (hg : g.Valid) (hentry : g.entry = block f.entry)
    (hterm : ∀ b, f.Reachable b → g.terminator (block b) = (f.terminator b).map (·.rename block value))
    {b : Block} (hb : f.Reachable b) : g.Reachable (block b) := by
  obtain ⟨hrange, hreach⟩ := hb
  induction hreach with
  | refl => exact hentry ▸ hg.entry_reachable
  | @tail b s hreach hedge ih =>
    obtain ⟨term, hbterm, hs, -⟩ := hedge
    refine hg.successor_reachable ih (by rw [hterm b ⟨hrange, hreach⟩, hbterm, Option.map_some]) ?_
    rw [Terminator.successors_rename]
    exact List.mem_map_of_mem hs

theorem exists_renamed (hf : f.Valid) (hentry : g.entry = block f.entry)
    (hterm : ∀ b, f.Reachable b → g.terminator (block b) = (f.terminator b).map (·.rename block value))
    {c : Block} (hc : g.Reachable c) : ∃ b, f.Reachable b ∧ block b = c := by
  obtain ⟨-, hreach⟩ := hc
  induction hreach with
  | refl => exact ⟨f.entry, hf.entry_reachable, hentry.symm⟩
  | tail _ hedge ih =>
    obtain ⟨b, hb, rfl⟩ := ih
    obtain ⟨term, hgterm, hs, -⟩ := hedge
    obtain ⟨term', hbterm⟩ := hf.terminated b hb
    rw [hterm b hb, hbterm, Option.map_some] at hgterm
    cases hgterm
    rw [Terminator.successors_rename, List.mem_map] at hs
    obtain ⟨s, hs, rfl⟩ := hs
    exact ⟨s, hf.successor_reachable hb hbterm hs, rfl⟩

/-- Names that carry one function to the other and keep blocks and values apart: whatever the other
function reaches and defines, they reach. -/
def Renaming.ofInjOn (block : Block → Block) (value : Value → Value) (hf : f.Valid) (hg : g.Valid)
    (hentry : g.entry = block f.entry)
    (hblock : Set.InjOn block {b | f.Reachable b}) (hvalue : Set.InjOn value {v | f.Defined v})
    (hparams : ∀ b, f.Reachable b → g.blockParams (block b) = (f.blockParams b).map value)
    (hinsts : ∀ b, f.Reachable b → g.insts (block b) = (f.insts b).map value)
    (hinst : ∀ b v, f.Reachable b → v ∈ f.insts b → g.inst (value v) = (f.inst v).map (·.rename value))
    (hterm : ∀ b, f.Reachable b → g.terminator (block b) = (f.terminator b).map (·.rename block value))
    (htype : ∀ v, f.Defined v → g.valueType (value v) = f.valueType v) : f.Renaming g where
  block := block
  value := value
  block_bijOn := ⟨fun _ hb => renamed_reachable hg hentry hterm hb, hblock,
    fun _ hc => exists_renamed hf hentry hterm hc⟩
  value_bijOn := by
    have hdefs : ∀ b, f.Reachable b → g.defs (block b) = (f.defs b).map value := fun b hb => by
      rw [defs, hparams b hb, hinsts b hb, ← List.map_append, defs]
    refine ⟨?_, hvalue, ?_⟩
    · rintro v ⟨b, hb, hv⟩
      refine ⟨block b, renamed_reachable hg hentry hterm hb, ?_⟩
      rw [hdefs b hb]
      exact List.mem_map_of_mem hv
    · rintro w ⟨c, hc, hw⟩
      obtain ⟨b, hb, rfl⟩ := exists_renamed hf hentry hterm hc
      rw [hdefs b hb] at hw
      obtain ⟨v, hv, rfl⟩ := List.mem_map.mp hw
      exact ⟨v, ⟨b, hb, hv⟩, rfl⟩
  entry := hentry
  blockParams := hparams
  insts := hinsts
  inst := hinst
  terminator := hterm
  valueType := htype

end Injective
end Function

/-! ## A renamed function -/

/-- `halvings` with its blocks in another order, its values numbered backwards, and dead code in a block
that nothing jumps to. -/
def halvingsElsewhere : Function where
  params := [.int, .bool]
  ret := .bool
  blockCount := 5
  entry := ⟨2⟩
  blockParams
    | ⟨2⟩ => [⟨10⟩, ⟨9⟩]
    | ⟨4⟩ => [⟨8⟩, ⟨7⟩]
    | _ => []
  insts
    | ⟨0⟩ => [⟨4⟩, ⟨3⟩, ⟨2⟩]
    | ⟨1⟩ => [⟨0⟩, ⟨1⟩]
    | ⟨4⟩ => [⟨6⟩, ⟨5⟩]
    | _ => []
  terminator
    | ⟨0⟩ => some (.jump ⟨4⟩ [⟨3⟩, ⟨2⟩])
    | ⟨1⟩ => some (.ret (some ⟨1⟩))
    | ⟨2⟩ => some (.jump ⟨4⟩ [⟨10⟩, ⟨9⟩])
    | ⟨3⟩ => some (.ret (some ⟨7⟩))
    | ⟨4⟩ => some (.branch ⟨5⟩ ⟨0⟩ [] ⟨3⟩ [])
    | _ => none
  inst
    | ⟨0⟩ => some (.bconst true)
    | ⟨1⟩ => some (.un .not ⟨0⟩)
    | ⟨2⟩ => some (.un .not ⟨7⟩)
    | ⟨3⟩ => some (.bin .div ⟨8⟩ ⟨4⟩)
    | ⟨4⟩ => some (.iconst 2)
    | ⟨5⟩ => some (.bin .gt ⟨8⟩ ⟨6⟩)
    | ⟨6⟩ => some (.iconst 0)
    | _ => none
  valueCount := 11
  valueType v :=
    ([.bool, .bool, .bool, .int, .int, .bool, .int, .bool, .int, .bool, .int] : List Ty)[v.index]?

theorem halvingsElsewhere.valid : halvingsElsewhere.Valid := by
  let doms : Block → List Block
    | ⟨4⟩ => [⟨2⟩]
    | ⟨0⟩ | ⟨3⟩ => [⟨2⟩, ⟨4⟩]
    | _ => []
  have h : halvingsElsewhere.Checked doms := by decide
  exact h.valid

namespace halvings

def blockElsewhere (b : Block) : Block := ([⟨2⟩, ⟨4⟩, ⟨0⟩, ⟨3⟩] : List Block).getD b.index ⟨1⟩

def valueElsewhere (v : Value) : Value := ⟨10 - v.index⟩

theorem blockElsewhere_injOn : Set.InjOn blockElsewhere {b | halvings.Reachable b} := by
  have h : ∀ b, halvings.Reachable b → ∀ b', halvings.Reachable b' →
      blockElsewhere b = blockElsewhere b' → b = b' :=
    forall_reachable (forall_reachable (by decide) (by decide) (by decide) (by decide))
      (forall_reachable (by decide) (by decide) (by decide) (by decide))
      (forall_reachable (by decide) (by decide) (by decide) (by decide))
      (forall_reachable (by decide) (by decide) (by decide) (by decide))
  exact fun b hb b' hb' => h b hb b' hb'

theorem valueElsewhere_injOn : Set.InjOn valueElsewhere {v | halvings.Defined v} := by
  intro v hv v' hv' heq
  have hlt : v.index < 9 := valid.defined_lt hv
  have hlt' : v'.index < 9 := valid.defined_lt hv'
  have heq : 10 - v.index = 10 - v'.index := congrArg Value.index heq
  exact Value.ext (by omega)

def toElsewhere : halvings.Renaming halvingsElsewhere := by
  have hinst : ∀ b, halvings.Reachable b → ∀ v ∈ halvings.insts b,
      halvingsElsewhere.inst (valueElsewhere v) = (halvings.inst v).map (·.rename valueElsewhere) :=
    forall_reachable (by decide) (by decide) (by decide) (by decide)
  have htype : ∀ b, halvings.Reachable b → ∀ v ∈ halvings.defs b,
      halvingsElsewhere.valueType (valueElsewhere v) = halvings.valueType v :=
    forall_reachable (by decide) (by decide) (by decide) (by decide)
  exact .ofInjOn blockElsewhere valueElsewhere valid halvingsElsewhere.valid rfl blockElsewhere_injOn
    valueElsewhere_injOn (forall_reachable rfl rfl rfl rfl) (forall_reachable rfl rfl rfl rfl)
    (fun b v hb => hinst b hb v) (forall_reachable rfl rfl rfl rfl)
    (fun v ⟨b, hb, hv⟩ => htype b hb v hv)

end halvings
end JitLang.Ir
