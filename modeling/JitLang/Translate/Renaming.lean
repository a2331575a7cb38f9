import JitLang.Ir.Renaming
import JitLang.Translate.Loops

/-! # `translate` does not see the names

A renaming of the reachable part of a function renames the block order (`reachableRpo_rename`). The
loops of `translate` over the order and over its image then run in lockstep on one builder, on tables
that agree up to the names (`ValuesAgree`, `BlocksAgree`), and fail with the same error if they fail.
-/

namespace JitLang.Translate
open Foundations Cranelift
set_option autoImplicit false

variable {f g : Ir.Function} {ρ : f.Renaming g}

/-! ## The block order -/

theorem succsOf_rename (ρ : f.Renaming g) {b : Ir.Block} (hb : f.Reachable b) :
    succsOf g (ρ.block b) = (succsOf f b).map ρ.block := by
  rw [succsOf, succsOf, ρ.terminator b hb]
  cases f.terminator b with
  | none => rfl
  | some term => exact term.successors_rename ρ.block ρ.value

theorem reachableRpo_rename (hf : f.Valid) (hg : g.Valid) (ρ : f.Renaming g) :
    ∃ order, reachableRpo f = .ok order ∧ reachableRpo g = .ok (order.map ρ.block) ∧
      ∀ b ∈ order, f.Reachable b := by
  obtain ⟨vis, out, hsearch, hrpo⟩ := reachableRpo_search hf.entry_inRange
  obtain ⟨vis', out', hsearch', hrpo'⟩ := reachableRpo_search hg.entry_inRange
  obtain ⟨order, hrpo₀, horder⟩ := reachableRpo_order hf.entry_inRange
  obtain rfl : out = order := Except.ok.inj (hrpo.symm.trans hrpo₀)
  have hclosed : ∀ b, f.Reachable b → ∀ s ∈ succsOf f b, f.Reachable s := by
    intro b hb s hs
    obtain ⟨term, hterm⟩ := hf.terminated b hb
    rw [succsOf, hterm] at hs
    exact hf.successor_reachable hb hterm hs
  have houtside : ∀ b, f.Reachable b → (ρ.block b ∈ outside g ↔ b ∈ outside f) := by
    intro b hb
    have hb' : g.Reachable (ρ.block b) := ρ.block_bijOn.mapsTo hb
    exact iff_of_false (fun h => h hb'.inRange) (fun h => h hb.inRange)
  obtain ⟨wis, hrenamed, -⟩ := hsearch.rename (S := {b | f.Reachable b}) ρ.block_bijOn.injOn
    (fun b hb => succsOf_rename ρ hb) hclosed
    (fun b hb => List.mem_singleton.mp hb ▸ hf.entry_reachable) houtside
  rw [List.map_singleton, ← ρ.entry] at hrenamed
  obtain ⟨-, rfl⟩ := hrenamed.deterministic hsearch'
  exact ⟨out, hrpo, hrpo', fun b hb => (horder.mem_iff b).mp hb⟩

/-! ## Tables that agree up to the names -/

structure ValuesAgree (ρ : f.Renaming g) (values values' : List (Option Cranelift.Value)) : Prop where
  length : values.length = f.valueCount
  length' : values'.length = g.valueCount
  agree : ∀ v, f.Defined v → standIn values v = standIn values' (ρ.value v)

structure BlocksAgree (ρ : f.Renaming g) (blocks blocks' : List (Option Cranelift.Block)) : Prop where
  length : blocks.length = f.blockCount
  length' : blocks'.length = g.blockCount
  agree : ∀ b, f.Reachable b → standInBlock blocks b = standInBlock blocks' (ρ.block b)

namespace ValuesAgree
variable {values values' : List (Option Cranelift.Value)}

theorem replicate (ρ : f.Renaming g) :
    ValuesAgree ρ (List.replicate f.valueCount none) (List.replicate g.valueCount none) :=
  ⟨List.length_replicate, List.length_replicate, fun v _ => by simp⟩

theorem clifValue_eq (h : ValuesAgree ρ values values') {v : Ir.Value} (hv : f.Defined v) :
    clifValue values v = clifValue values' (ρ.value v) := by
  have hagree : (values[v.index]?).join = (values'[(ρ.value v).index]?).join := h.agree v hv
  rw [clifValue, clifValue, hagree]

theorem blockArgs_eq (h : ValuesAgree ρ values values') {args : List Ir.Value}
    (hargs : ∀ u ∈ args, f.Defined u) :
    blockArgs values args = blockArgs values' (args.map ρ.value) :=
  mapM_map_congr fun u hu => h.clifValue_eq (hargs u hu)

theorem write (h : ValuesAgree ρ values values') (hf : f.Valid) (hg : g.Valid) {v : Ir.Value}
    (hv : f.Defined v) (x : Cranelift.Value) :
    Lockstep (ValuesAgree ρ) (writeIndex values v.index (some x) : Except Failure _)
      (writeIndex values' (ρ.value v).index (some x)) := by
  have hlt : v.index < values.length := h.length ▸ hf.defined_lt hv
  have hlt' : (ρ.value v).index < values'.length :=
    h.length' ▸ hg.defined_lt (ρ.value_bijOn.mapsTo hv)
  obtain ⟨_, hw, hlen, hset⟩ := writeIndex_standIn x hlt
  obtain ⟨_, hw', hlen', hset'⟩ := writeIndex_standIn x hlt'
  rw [hw, hw']
  refine .ok ⟨hlen.trans h.length, hlen'.trans h.length', fun w hwd => ?_⟩
  rw [hset, hset', h.agree w hwd]
  simp only [ρ.value_bijOn.injOn.eq_iff hwd hv]

end ValuesAgree

namespace BlocksAgree
variable {blocks blocks' : List (Option Cranelift.Block)}

theorem replicate (ρ : f.Renaming g) :
    BlocksAgree ρ (List.replicate f.blockCount none) (List.replicate g.blockCount none) :=
  ⟨List.length_replicate, List.length_replicate, fun b _ => by simp⟩

theorem clifBlock_eq (h : BlocksAgree ρ blocks blocks') {b : Ir.Block} (hb : f.Reachable b) :
    clifBlock blocks b = clifBlock blocks' (ρ.block b) := by
  have hagree : (blocks[b.index]?).join = (blocks'[(ρ.block b).index]?).join := h.agree b hb
  rw [clifBlock, clifBlock, hagree]

theorem write (h : BlocksAgree ρ blocks blocks') {b : Ir.Block} (hb : f.Reachable b)
    (x : Cranelift.Block) :
    Lockstep (BlocksAgree ρ) (writeIndex blocks b.index (some x) : Except Failure _)
      (writeIndex blocks' (ρ.block b).index (some x)) := by
  have hb' : g.Reachable (ρ.block b) := ρ.block_bijOn.mapsTo hb
  have hlt : b.index < blocks.length := by
    rw [h.length]
    exact hb.inRange
  have hlt' : (ρ.block b).index < blocks'.length := by
    rw [h.length']
    exact hb'.inRange
  obtain ⟨_, hw, hlen, hset⟩ := writeIndex_standInBlock x hlt
  obtain ⟨_, hw', hlen', hset'⟩ := writeIndex_standInBlock x hlt'
  rw [hw, hw']
  refine .ok ⟨hlen.trans h.length, hlen'.trans h.length', fun c hc => ?_⟩
  rw [hset, hset', h.agree c hc]
  simp only [ρ.block_bijOn.injOn.eq_iff hc hb]

end BlocksAgree

/-! ## Instructions and terminators -/

theorem valueType_rename (ρ : f.Renaming g) {v : Ir.Value} (hv : f.Defined v) :
    valueType f v = valueType g (ρ.value v) := by
  rw [valueType, valueType, ρ.valueType v hv]

theorem emitInst_rename {values values' : List (Option Cranelift.Value)}
    (h : ValuesAgree ρ values values') (builder : Builder) {inst : Ir.Inst}
    (huses : ∀ u ∈ inst.uses, f.Defined u) :
    emitInst builder f inst values = emitInst builder g (inst.rename ρ.value) values' := by
  cases inst with
  | iconst | fconst | bconst => rfl
  | bin op lhs rhs =>
    have hlhs := huses lhs (by simp [Ir.Inst.uses])
    have hrhs := huses rhs (by simp [Ir.Inst.uses])
    simp only [emitInst, Ir.Inst.rename, valueType_rename ρ hlhs, h.clifValue_eq hlhs,
      h.clifValue_eq hrhs]
  | un op operand =>
    have hoperand := huses operand (by simp [Ir.Inst.uses])
    simp only [emitInst, Ir.Inst.rename, valueType_rename ρ hoperand, h.clifValue_eq hoperand]

theorem emitTerminator_rename {blocks blocks' : List (Option Cranelift.Block)}
    {values values' : List (Option Cranelift.Value)} (hB : BlocksAgree ρ blocks blocks')
    (hV : ValuesAgree ρ values values') (builder : Builder) {term : Ir.Terminator}
    (huses : ∀ u ∈ term.uses, f.Defined u) (htargets : ∀ s ∈ term.successors, f.Reachable s) :
    emitTerminator builder term blocks values =
      emitTerminator builder (term.rename ρ.block ρ.value) blocks' values' := by
  cases term with
  | ret value =>
    cases value with
    | none => rfl
    | some v =>
      have hv := huses v (by simp [Ir.Terminator.uses])
      simp only [emitTerminator, Ir.Terminator.rename, Option.map_some, hV.clifValue_eq hv]
  | jump target args =>
    have htarget := htargets target (by simp [Ir.Terminator.successors, Ir.Terminator.edges])
    have hargs : ∀ u ∈ args, f.Defined u := huses
    simp only [emitTerminator, Ir.Terminator.rename, hB.clifBlock_eq htarget,
      hV.blockArgs_eq hargs]
  | branch cond thenBlock thenArgs elseBlock elseArgs =>
    have hthen := htargets thenBlock (by simp [Ir.Terminator.successors, Ir.Terminator.edges])
    have helse := htargets elseBlock (by simp [Ir.Terminator.successors, Ir.Terminator.edges])
    have hcond := huses cond (by simp [Ir.Terminator.uses])
    have hthenArgs : ∀ u ∈ thenArgs, f.Defined u := fun u hu =>
      huses u (by simp [Ir.Terminator.uses, hu])
    have helseArgs : ∀ u ∈ elseArgs, f.Defined u := fun u hu =>
      huses u (by simp [Ir.Terminator.uses, hu])
    simp only [emitTerminator, Ir.Terminator.rename, hB.clifBlock_eq hthen, hB.clifBlock_eq helse,
      hV.clifValue_eq hcond, hV.blockArgs_eq hthenArgs, hV.blockArgs_eq helseArgs]

/-! ## The rounds of the loops -/

theorem createBlock_rename {b : Ir.Block} (hb : f.Reachable b)
    {st st' : List (Option Cranelift.Block) × Builder}
    (h : BlocksAgree ρ st.1 st'.1 ∧ st.2 = st'.2) :
    Lockstep (fun s s' => BlocksAgree ρ s.1 s'.1 ∧ s.2 = s'.2) (createBlock st b)
      (createBlock st' (ρ.block b)) := by
  obtain ⟨blocks, builder⟩ := st
  obtain ⟨blocks', _⟩ := st'
  obtain ⟨hB, rfl⟩ := h
  exact (hB.write hb _).bind fun _ _ h => .ok ⟨h, rfl⟩

theorem appendParams_rename {blocks blocks' : List (Option Cranelift.Block)}
    (hf : f.Valid) (hB : BlocksAgree ρ blocks blocks') (builder : Builder) {b : Ir.Block}
    (hb : f.Reachable b) :
    appendParams f blocks builder b = appendParams g blocks' builder (ρ.block b) := by
  have hentry : b = f.entry ↔ ρ.block b = g.entry := by
    rw [ρ.entry]
    exact (ρ.block_bijOn.injOn.eq_iff hb hf.entry_reachable).symm
  rw [appendParams, appendParams, ρ.blockParams b hb]
  simp only [hentry]
  split_ifs
  · rfl
  · refine Lockstep.eq ?_
    refine (Lockstep.of_eq (hB.clifBlock_eq hb)).bind fun x _ hx => ?_
    subst hx
    refine Lockstep.foldlM (fun v hv st st' hst => ?_) rfl
    subst hst
    rw [appendParam, appendParam, valueType_rename ρ ⟨b, hb, List.mem_append_left _ hv⟩]
    exact .of_eq rfl

theorem mapParams_rename {blocks blocks' : List (Option Cranelift.Block)}
    {values values' : List (Option Cranelift.Value)} (hf : f.Valid) (hg : g.Valid)
    (hB : BlocksAgree ρ blocks blocks') (builder : Builder) {b : Ir.Block} (hb : f.Reachable b)
    (hV : ValuesAgree ρ values values') :
    Lockstep (ValuesAgree ρ) (mapParams f blocks builder values b)
      (mapParams g blocks' builder values' (ρ.block b)) := by
  refine (Lockstep.of_eq (hB.clifBlock_eq hb)).bind fun x _ hx => ?_
  subst hx
  dsimp only
  rw [ρ.blockParams b hb, List.zip_map_left]
  refine Lockstep.foldlM (fun pair hpair _ _ h => ?_) hV
  exact h.write hf hg ⟨b, hb, List.mem_append_left _ (List.of_mem_zip hpair).1⟩ pair.2

/-- The states of the emission loop: one builder, and tables that agree. -/
def StatesAgree (ρ : f.Renaming g) (st st' : EmitState) : Prop :=
  st.builder = st'.builder ∧ ValuesAgree ρ st.values st'.values

theorem emitValue_rename (hf : f.Valid) (hg : g.Valid) {b : Ir.Block} (hb : f.Reachable b)
    {v : Ir.Value} (hv : v ∈ f.insts b) {st st' : EmitState} (h : StatesAgree ρ st st') :
    Lockstep (StatesAgree ρ) (emitValue f st v) (emitValue g st' (ρ.value v)) := by
  obtain ⟨builder, values⟩ := st
  obtain ⟨_, values'⟩ := st'
  obtain ⟨rfl, hV⟩ := h
  obtain ⟨inst, hinst⟩ := hf.insts_resolve b hb v hv
  have hinst' := ρ.inst b v hb hv
  rw [hinst] at hinst'
  simp only [emitValue, hinst, hinst', Option.map_some]
  have hemit := emitInst_rename hV builder (hf.inst_uses_defined hb hv hinst)
  refine (Lockstep.of_eq hemit).bind fun produced _ heq => ?_
  subst heq
  exact (hV.write hf hg ⟨b, hb, List.mem_append_right _ hv⟩ _).bind fun _ _ h => .ok ⟨rfl, h⟩

theorem emitBlock_rename {blocks blocks' : List (Option Cranelift.Block)} (hf : f.Valid)
    (hg : g.Valid) (hB : BlocksAgree ρ blocks blocks') {b : Ir.Block} (hb : f.Reachable b)
    {st st' : EmitState} (h : StatesAgree ρ st st') :
    Lockstep (StatesAgree ρ) (emitBlock f blocks st b) (emitBlock g blocks' st' (ρ.block b)) := by
  obtain ⟨builder, values⟩ := st
  obtain ⟨_, values'⟩ := st'
  obtain ⟨rfl, hV⟩ := h
  obtain ⟨term, hterm⟩ := hf.terminated b hb
  have hterm' := ρ.terminator b hb
  rw [hterm] at hterm'
  refine (Lockstep.of_eq (hB.clifBlock_eq hb)).bind fun x _ hx => ?_
  subst hx
  rw [ρ.insts b hb, hterm, hterm']
  have hinit : StatesAgree ρ ⟨builder.switchToBlock x, values⟩ ⟨builder.switchToBlock x, values'⟩ :=
    ⟨rfl, hV⟩
  refine (Lockstep.foldlM (fun v hv _ _ h => emitValue_rename hf hg hb hv h) hinit).bind ?_
  rintro ⟨builder, values⟩ ⟨_, values'⟩ ⟨rfl, hV⟩
  have hemit := emitTerminator_rename hB hV builder (hf.terminator_uses_defined hb hterm)
    fun s hs => hf.successor_reachable hb hterm hs
  exact (Lockstep.of_eq hemit).bind fun _ _ heq => .ok ⟨heq, hV⟩

/-! ## The two translations -/

/-- `translate` answers two valid functions whose reachable parts are the same up to the names with one
result: the same Cranelift function, or the same error. -/
theorem translate_renaming (hf : f.Valid) (hg : g.Valid) (hparams : g.params = f.params)
    (hret : g.ret = f.ret) (ρ : f.Renaming g) (isa : TargetIsa) :
    translate f isa = translate g isa := by
  obtain ⟨order, hrpo, hrpo', hreach⟩ := reachableRpo_rename hf hg ρ
  have hsig : signature f isa = signature g isa := by
    rw [signature, signature, hparams, hret]
  suffices h : Lockstep (fun t t' => t.clif = t'.clif) (translation f isa) (translation g isa) by
    rw [translate, translate]
    exact Lockstep.eq (h.bind fun t t' heq => .ok heq)
  rw [translation, translation, hrpo, hrpo', ok_bind, ok_bind]
  refine (Lockstep.of_eq hsig).bind fun sig _ heq => ?_
  subst heq
  let builder := Builder.withNameSignature ⟨0, 0⟩ sig
  have hinit : BlocksAgree ρ (List.replicate f.blockCount none, builder).1
      (List.replicate g.blockCount none, builder).1 ∧ builder = builder := ⟨.replicate ρ, rfl⟩
  refine (Lockstep.foldlM (fun b hb _ _ h => createBlock_rename (hreach b hb) h) hinit).bind ?_
  rintro ⟨blocks, builder⟩ ⟨blocks', _⟩ ⟨hB, rfl⟩
  have hentry := hB.clifBlock_eq hf.entry_reachable
  rw [← ρ.entry] at hentry
  refine (Lockstep.of_eq hentry).bind fun entry _ heq => ?_
  subst heq
  refine (Lockstep.foldlM (R := Eq) (fun b hb builder _ heq => ?_) rfl).bind ?_
  · subst heq
    exact .of_eq (appendParams_rename hf hB builder (hreach b hb))
  rintro builder _ rfl
  refine (Lockstep.foldlM (R := ValuesAgree ρ) (fun b hb _ _ h => ?_) (.replicate ρ)).bind
    fun values values' hV => ?_
  · exact mapParams_rename hf hg hB builder (hreach b hb) h
  have hstart : StatesAgree ρ ⟨builder, values⟩ ⟨builder, values'⟩ := ⟨rfl, hV⟩
  refine (Lockstep.foldlM (R := StatesAgree ρ) (fun b hb _ _ h => ?_) hstart).bind
    fun st st' h => ?_
  · exact emitBlock_rename hf hg hB (hreach b hb) h
  · exact .ok (congrArg Builder.func h.1)

theorem halvings_renaming : translate Ir.halvings ⟨⟨0⟩⟩ = translate Ir.halvingsElsewhere ⟨⟨0⟩⟩ :=
  translate_renaming Ir.halvings.valid Ir.halvingsElsewhere.valid rfl rfl Ir.halvings.toElsewhere ⟨⟨0⟩⟩

end JitLang.Translate
