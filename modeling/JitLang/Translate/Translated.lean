import JitLang.Foundations.Lists
import JitLang.Translate.Emission

/-! # What `translate` produces

`Translated` collects what holds of the tables and the function `translate` ends with, on a valid
function that it accepts: it accepts exactly those without a parameter of type `unit`, and refuses the
others with one error (`translation_ok`, `translation_unit`). Everything proved about the produced
code starts from `Translated`; no later proof looks into the loops.
-/

namespace JitLang.Translate
open Foundations Cranelift
set_option autoImplicit false

variable {func : Ir.Function} {isa : TargetIsa}

/-- The block orders, tables and function of a successful translation. -/
structure Translated (func : Ir.Function) (isa : TargetIsa) (t : Translation) : Prop where
  order : RpoOrder func t.order
  placed : ∀ c x, t.block c = some x ↔ t.order[x.index]? = some c
  signature : SignatureOf func isa t.clif.signature
  layout : t.clif.layout = handles t.order.length
  blockCount : t.clif.blocks.length = t.order.length
  params : ∀ (x : Cranelift.Block) c, t.order[x.index]? = some c →
    (func.blockParams c).map t.value = (t.clif.blockParams x).map some
  emitted : ∀ (x : Cranelift.Block) c, t.order[x.index]? = some c → ∃ n nodes term last,
    Emitted func t.block t.value t.clif x c n nodes term last
  stands : Stands func (fun v => ∃ c, func.Reachable c ∧ v ∈ func.defs c) t.value t.clif.valueTypes
  numbering : t.clif.layout.flatMap t.clif.blockParams ++ t.clif.layout.flatMap t.clif.blockResults =
    (List.range t.clif.valueTypes.length).map Cranelift.Value.mk

/-- Some function parameter, or some parameter of a reachable block, has type `unit`. -/
def HasUnitParam (func : Ir.Function) : Prop :=
  Ir.Ty.unit ∈ func.params ∨
    ∃ c, func.Reachable c ∧ ∃ v ∈ func.blockParams c, func.valueType v = some .unit

theorem not_hasUnitParam {func : Ir.Function} (hparams : Ir.Ty.unit ∉ func.params)
    (htypes : ∀ v, func.valueType v ≠ some .unit) : ¬ HasUnitParam func := by
  rintro (hunit | ⟨c, -, v, -, hunit⟩)
  · exact hparams hunit
  · exact htypes v hunit

/-! ## The parameters -/

section Params
variable {order : List Ir.Block} {sig : Signature} {b : Builder}

theorem ParamState.length_eq (h : ParamState func order sig (fun _ => True) b) {x : Cranelift.Block}
    {c : Ir.Block} (hx : order[x.index]? = some c) :
    (func.blockParams c).length = (b.func.blockParams x).length := by
  obtain ⟨tys, hm, ht⟩ := h.typed x c hx trivial
  have h₁ := congrArg List.length hm
  have h₂ := congrArg List.length ht
  simp only [List.length_map] at h₁ h₂
  rw [h₁, h₂]

theorem ParamState.exists_pair (h : ParamState func order sig (fun _ => True) b) {c : Ir.Block}
    (hc : c ∈ order) {v : Ir.Value} (hv : v ∈ func.blockParams c) :
    ∃ (x : Cranelift.Block) (y : Cranelift.Value), order[x.index]? = some c ∧
      y ∈ b.func.blockParams x ∧ ParamPair func order b.func v y := by
  obtain ⟨i, hi⟩ := List.mem_iff_getElem?.mp hc
  obtain ⟨j, hj⟩ := List.mem_iff_getElem?.mp hv
  have hlt := (List.getElem?_eq_some_iff.mp hj).1
  rw [h.length_eq (x := ⟨i⟩) hi] at hlt
  have hget := List.getElem?_eq_getElem hlt
  exact ⟨⟨i⟩, _, hi, List.mem_of_getElem? hget, i, c, j, hi, hj, hget⟩

theorem ParamState.pair_typed (h : ParamState func order sig (fun _ => True) b) {v : Ir.Value}
    {x : Cranelift.Value} (hpair : ParamPair func order b.func v x) :
    ∃ ty, machineType func v = some ty ∧ HasType b.func.valueTypes x ty := by
  obtain ⟨i, c, j, hi, hj, hjx⟩ := hpair
  obtain ⟨tys, hm, ht⟩ := h.typed ⟨i⟩ c hi trivial
  have hm : ((func.blockParams c).map (machineType func))[j]? = (tys.map some)[j]? := by rw [hm]
  have ht : ((b.func.blockParams ⟨i⟩).map fun x => b.func.valueTypes[x.index]?)[j]? =
      (tys.map some)[j]? := by rw [ht]
  rw [List.getElem?_map, hj, List.getElem?_map] at hm
  rw [List.getElem?_map, hjx, List.getElem?_map] at ht
  cases hty : tys[j]? with
  | none => simp [hty] at hm
  | some ty =>
    rw [hty] at hm ht
    exact ⟨ty, Option.some.inj hm, Option.some.inj ht⟩

theorem ParamState.pair_injective (h : ParamState func order sig (fun _ => True) b) {v w : Ir.Value}
    {x : Cranelift.Value} (hv : ParamPair func order b.func v x)
    (hw : ParamPair func order b.func w x) : v = w := by
  obtain ⟨i, c, j, hi, hj, hjx⟩ := hv
  obtain ⟨i', c', j', hi', hj', hjx'⟩ := hw
  have hnodup : ((handles order.length).flatMap b.func.blockParams).Nodup := by
    rw [h.numbering]
    exact values_nodup _
  have hlt := (List.getElem?_eq_some_iff.mp hi).1
  have hlt' := (List.getElem?_eq_some_iff.mp hi').1
  have hhandle (k : ℕ) (hk : k < order.length) : (handles order.length)[k]? = some ⟨k⟩ := by
    simp [handles, hk]
  have hii := flatMap_nodup_index hnodup (hhandle i hlt) (hhandle i' hlt') (List.mem_of_getElem? hjx)
    (List.mem_of_getElem? hjx')
  subst hii
  obtain ⟨hjlt, -⟩ := List.getElem?_eq_some_iff.mp hjx
  have hjj : j = j' := (List.getElem?_inj hjlt
    ((List.nodup_flatMap.mp hnodup).1 _ (mem_handles.mpr hlt))).mp (hjx.trans hjx'.symm)
  subst hjj
  rw [hi] at hi'
  cases hi'
  exact Option.some.inj (hj.symm.trans hj')

theorem ParamState.stands (h : ParamState func order sig (fun _ => True) b)
    {values : List (Option Cranelift.Value)}
    (hvalues : ∀ v x, standIn values v = some x ↔ ParamPair func order b.func v x) :
    Stands func (DefinedIn func order []) (standIn values) b.func.valueTypes := by
  refine ⟨?_, fun v x hx => h.pair_typed ((hvalues v x).mp hx), fun v w x hx hy =>
    h.pair_injective ((hvalues v x).mp hx) ((hvalues w x).mp hy)⟩
  intro v
  constructor
  · rintro ⟨x, hx⟩
    obtain ⟨i, c, j, hi, hj, -⟩ := (hvalues v x).mp hx
    exact .inl ⟨c, List.mem_of_getElem? hi, List.mem_of_getElem? hj⟩
  · rintro (⟨c, hc, hvc⟩ | ⟨c, hc, -⟩)
    · obtain ⟨_, y, -, -, hpair⟩ := h.exists_pair hc hvc
      exact ⟨y, (hvalues v y).mpr hpair⟩
    · cases hc

end Params

/-! ## The two outcomes -/

/-- `translate` up to its parameter loop: the order, the signature, the block table and a builder whose
entry block has its parameters. -/
structure Started (func : Ir.Function) (isa : TargetIsa) (order : List Ir.Block) (sig : Signature)
    (blocks : List (Option Cranelift.Block)) (b : Builder) : Prop where
  rpo : RpoOrder func order
  signature : SignatureOf func isa sig
  placed : Placed order blocks
  state : ParamState func order sig (· = func.entry) b
  continues : translation func isa = do
    let builder ← order.foldlM (appendParams func blocks) b
    let values ← order.foldlM (mapParams func blocks builder) (List.replicate func.valueCount none)
    let st ← order.foldlM (emitBlock func blocks) ⟨builder, values⟩
    return ⟨order, blocks, st.values, st.builder.func⟩

/-- What `translate` holds when it comes to its emission loop. -/
structure Emission where
  order : List Ir.Block
  blocks : List (Option Cranelift.Block)
  start : EmitState
  deriving DecidableEq, Repr

/-- `translate` up to its emission loop. -/
def emission (func : Ir.Function) (isa : TargetIsa) : Except Failure Emission := do
  let order ← reachableRpo func
  let signature ← signature func isa
  let builder := Builder.withNameSignature ⟨0, 0⟩ signature
  let (blocks, builder) ← order.foldlM createBlock (List.replicate func.blockCount none, builder)
  let entry ← clifBlock blocks func.entry
  let builder := builder.appendBlockParamsForFunctionParams entry
  let builder ← order.foldlM (appendParams func blocks) builder
  let values ← order.foldlM (mapParams func blocks builder) (List.replicate func.valueCount none)
  return ⟨order, blocks, ⟨builder, values⟩⟩

theorem translation_eq (func : Ir.Function) (isa : TargetIsa) : translation func isa = do
    let e ← emission func isa
    let st ← e.order.foldlM (emitBlock func e.blocks) e.start
    return ⟨e.order, e.blocks, st.values, st.builder.func⟩ := by
  simp only [translation, emission, bind_assoc, pure_bind]

/-- `Started`, with what is left of `translate` up to its emission loop. -/
structure Prepared (func : Ir.Function) (isa : TargetIsa) (order : List Ir.Block) (sig : Signature)
    (blocks : List (Option Cranelift.Block)) (b : Builder) : Prop where
  started : Started func isa order sig blocks b
  continues : emission func isa = do
    let builder ← order.foldlM (appendParams func blocks) b
    let values ← order.foldlM (mapParams func blocks builder) (List.replicate func.valueCount none)
    return ⟨order, blocks, ⟨builder, values⟩⟩

theorem exists_prepared (isa : TargetIsa) (hv : func.Valid) (hunit : Ir.Ty.unit ∉ func.params) :
    ∃ order sig blocks b, Prepared func isa order sig blocks b := by
  obtain ⟨order, hrpo, horder⟩ := reachableRpo_order hv.entry_inRange
  obtain ⟨sig, hsig, hspec⟩ := signature_ok isa hunit
  obtain ⟨rest, hrest⟩ := horder.entry_first
  obtain ⟨blocks, hblocks, hplaced⟩ := createBlocks_spec horder.nodup
    (fun c hc => ((horder.mem_iff c).mp hc).inRange) ⟨0, 0⟩ sig
  have hblocks : order.foldlM createBlock (List.replicate func.blockCount none,
      Builder.withNameSignature ⟨0, 0⟩ sig) = .ok (blocks, blank ⟨0, 0⟩ sig order.length) := hblocks
  have hentry : standInBlock blocks func.entry = some ⟨0⟩ :=
    (hplaced _ ⟨0⟩).mpr (by rw [hrest]; rfl)
  have hcontinues : emission func isa = do
      let builder ← order.foldlM (appendParams func blocks)
        ((blank ⟨0, 0⟩ sig order.length).appendBlockParamsForFunctionParams ⟨0⟩)
      let values ← order.foldlM (mapParams func blocks builder)
        (List.replicate func.valueCount none)
      return ⟨order, blocks, ⟨builder, values⟩⟩ := by
    simp only [emission, hrpo, ok_bind, hsig, hblocks, clifBlock_of_some hentry]
  refine ⟨order, sig, blocks, _, ⟨horder, hspec, hplaced,
    fill_entry hv hspec horder.nodup hrest, ?_⟩, hcontinues⟩
  rw [translation_eq, hcontinues]
  simp only [bind_assoc, pure_bind]

theorem exists_started (isa : TargetIsa) (hv : func.Valid) (hunit : Ir.Ty.unit ∉ func.params) :
    ∃ order sig blocks b, Started func isa order sig blocks b := by
  obtain ⟨order, sig, blocks, b, hprepared⟩ := exists_prepared isa hv hunit
  exact ⟨order, sig, blocks, b, hprepared.started⟩

theorem translation_unit (hv : func.Valid) (h : HasUnitParam func) :
    translation func isa = .error (.error unitError) := by
  by_cases hunit : Ir.Ty.unit ∈ func.params
  · obtain ⟨order, hrpo, -⟩ := reachableRpo_order hv.entry_inRange
    rw [translation, hrpo, ok_bind, signature_unit isa hunit, error_bind]
  · obtain ⟨order, sig, blocks, b, hstart⟩ := exists_started isa hv hunit
    have hreach : ∀ c ∈ order, func.Reachable c := fun c hc => (hstart.rpo.mem_iff c).mp hc
    obtain ⟨c, hc, v, hvc, hty⟩ := h.resolve_left hunit
    have hne : c ≠ func.entry := by
      rintro rfl
      have hmem : func.valueType v ∈ func.params.map some := by
        rw [← hv.entry_params]
        exact List.mem_map_of_mem hvc
      rw [hty] at hmem
      exact hunit (by simpa using hmem)
    have hfail := appendParams_unit hstart.placed
      (fun c hc v hvc => hv.typed c (hreach c hc) v (List.mem_append_left _ hvc))
      ⟨c, (hstart.rpo.mem_iff c).mpr hc, hne, v, hvc, hty⟩ hstart.state.blocks
    rw [hstart.continues, hfail, error_bind]

section Emission
variable {order : List Ir.Block} {sig : Signature} {blocks : List (Option Cranelift.Block)}
  {base : Builder}

theorem EmitInv.start (hstate : ParamState func order sig (fun _ => True) base)
    {values : List (Option Cranelift.Value)} (hlength : values.length = func.valueCount)
    (hpairs : ∀ v x, standIn values v = some x ↔ ParamPair func order base.func v x) :
    EmitInv func order blocks base [] ⟨base, values⟩ := by
  have hresults : ∀ x, base.func.blockResults x = [] := fun x => by
    rw [Cranelift.Function.blockResults, hstate.insts x]
    rfl
  exact ⟨hlength, rfl, hstate.blocks, fun _ => rfl, fun v x hx => (hpairs v x).mpr hx, hstate.layout,
    ⟨[], by simp, List.flatMap_eq_nil_iff.mpr fun x _ => hresults x⟩, fun x _ => hstate.insts x,
    by simp, hstate.stands hpairs⟩

theorem EmitInv.params_map {st : EmitState} (hinv : EmitInv func order blocks base order st)
    (hstate : ParamState func order sig (fun _ => True) base) {x : Cranelift.Block} {c : Ir.Block}
    (hx : order[x.index]? = some c) :
    (func.blockParams c).map (standIn st.values) = (st.builder.func.blockParams x).map some := by
  refine List.ext_getElem? fun j => ?_
  rw [List.getElem?_map, List.getElem?_map, hinv.params]
  have hlen := hstate.length_eq hx
  cases hj : (func.blockParams c)[j]? with
  | none =>
    have hle := List.getElem?_eq_none_iff.mp hj
    rw [List.getElem?_eq_none (hlen ▸ hle)]
    rfl
  | some v =>
    have hlt := (List.getElem?_eq_some_iff.mp hj).1
    rw [hlen] at hlt
    rw [List.getElem?_eq_getElem hlt]
    exact congrArg some (hinv.pairs v _ ⟨x.index, c, j, hx, hj, List.getElem?_eq_getElem hlt⟩)

theorem definedIn_order (horder : RpoOrder func order) (v : Ir.Value) :
    DefinedIn func order order v ↔ ∃ c, func.Reachable c ∧ v ∈ func.defs c := by
  constructor
  · rintro (⟨c, hc, hvc⟩ | ⟨c, hc, hvc⟩)
    · exact ⟨c, (horder.mem_iff c).mp hc, List.mem_append_left _ hvc⟩
    · exact ⟨c, (horder.mem_iff c).mp hc, List.mem_append_right _ hvc⟩
  · rintro ⟨c, hc, hvc⟩
    rcases List.mem_append.mp hvc with hvc | hvc
    · exact .inl ⟨c, (horder.mem_iff c).mpr hc, hvc⟩
    · exact .inr ⟨c, (horder.mem_iff c).mpr hc, hvc⟩

/-- The values are numbered first along the parameters, then along the results. -/
theorem EmitInv.numbering {st : EmitState} (hinv : EmitInv func order blocks base order st)
    (hstate : ParamState func order sig (fun _ => True) base) :
    st.builder.func.layout.flatMap st.builder.func.blockParams ++
        st.builder.func.layout.flatMap st.builder.func.blockResults =
      (List.range st.builder.func.valueTypes.length).map Cranelift.Value.mk := by
  obtain ⟨more, hmore, hnumbering⟩ := hinv.types
  rw [hinv.layout, hnumbering, hmore, List.length_append, List.range_eq_range',
    ← List.range'_append_1, List.map_append, Nat.zero_add, ← List.range_eq_range',
    ← hstate.numbering]
  congr 1
  exact List.flatMap_congr fun x _ => hinv.params x

end Emission

theorem blockParams_nodup (hv : func.Valid) {order : List Ir.Block} (horder : RpoOrder func order) :
    (order.flatMap func.blockParams).Nodup := by
  have hreach : ∀ c ∈ order, func.Reachable c := fun c hc => (horder.mem_iff c).mp hc
  refine List.nodup_flatMap.mpr
    ⟨fun c hc => (List.nodup_append'.mp (hv.defs_nodup c (hreach c hc))).1, ?_⟩
  refine horder.nodup.imp_of_mem fun {c d} hc hd hne v hvc hvd => hne ?_
  exact hv.defs_disjoint c d (hreach c hc) (hreach d hd) v (List.mem_append_left _ hvc)
    (List.mem_append_left _ hvd)

/-- The parameter loops: every block parameter gets its stand-in. -/
theorem Started.parameters {order : List Ir.Block} {sig : Signature}
    {blocks : List (Option Cranelift.Block)} {b : Builder} (h : Started func isa order sig blocks b)
    (hv : func.Valid) (hnone : ∀ c, func.Reachable c → ∀ v ∈ func.blockParams c,
      func.valueType v ≠ some .unit) :
    ∃ base values, order.foldlM (appendParams func blocks) b = .ok base ∧
      order.foldlM (mapParams func blocks base) (List.replicate func.valueCount none) = .ok values ∧
      ParamState func order sig (fun _ => True) base ∧ values.length = func.valueCount ∧
      ∀ v x, standIn values v = some x ↔ ParamPair func order base.func v x := by
  have hreach : ∀ c ∈ order, func.Reachable c := fun c hc => (h.rpo.mem_iff c).mp hc
  obtain ⟨rest, hrest⟩ := h.rpo.entry_first
  obtain ⟨base, hparams, hstate⟩ := appendParams_spec h.placed h.rpo.nodup hrest
    (fun c hc => exists_machineTyped
      (fun v hvc => hv.typed c (hreach c hc) v (List.mem_append_left _ hvc))
      (hnone c (hreach c hc))) h.state
  obtain ⟨values, hvalues, hlength, hpairs⟩ := mapParams_spec (b := base) h.placed
    (fun x c hx => hstate.length_eq hx) (blockParams_nodup hv h.rpo)
    (fun c hc v hvc => hv.defs_inRange c (hreach c hc) v (List.mem_append_left _ hvc))
  exact ⟨base, values, hparams, hvalues, hstate, hlength, hpairs⟩

theorem translation_ok (isa : TargetIsa) (hv : func.Valid) (h : ¬ HasUnitParam func) :
    ∃ t, translation func isa = .ok t ∧ Translated func isa t := by
  unfold HasUnitParam at h
  push Not at h
  obtain ⟨hunit, hnone⟩ := h
  obtain ⟨order, sig, blocks, b, hstart⟩ := exists_started isa hv hunit
  obtain ⟨base, values, hparams, hvalues, hstate, hlength, hpairs⟩ := hstart.parameters hv hnone
  obtain ⟨st, hemit, hinv⟩ := foldlM_invariant (l := order) (s := (⟨base, values⟩ : EmitState))
    (f := emitBlock func blocks) (EmitInv.start hstate hlength hpairs)
    fun done a after st hsplit h => emitBlock_spec hv hstart.rpo hstart.placed hsplit h
  have hsig : st.builder.func.signature = sig := hinv.signature.trans hstate.signature
  refine ⟨⟨order, blocks, st.values, st.builder.func⟩, ?_, ?_⟩
  · simp only [hstart.continues, hparams, hvalues, hemit, ok_bind, pure_eq_ok]
  · exact ⟨hstart.rpo, hstart.placed, hsig ▸ hstart.signature, hinv.layout, hinv.blockCount,
      fun x c hx => hinv.params_map hstate hx, hinv.emitted,
      hinv.stands.congr (definedIn_order hstart.rpo), hinv.numbering hstate⟩

/-- A function that `translate` accepts has no `unit` parameter. -/
theorem translated_of_ok (hv : func.Valid) {clif : Cranelift.Function}
    (h : translate func isa = .ok clif) :
    ∃ t, translation func isa = .ok t ∧ t.clif = clif ∧ Translated func isa t := by
  by_cases hunit : HasUnitParam func
  · rw [translate, translation_unit hv hunit] at h
    cases h
  · obtain ⟨t, ht, hspec⟩ := translation_ok isa hv hunit
    rw [translate, ht] at h
    exact ⟨t, ht, Except.ok.inj h, hspec⟩

/-! ## Acceptance -/

/-- On a valid function `translate` answers `Unsupported` exactly if a function parameter or a parameter
of a reachable block has type `unit`, and succeeds in every other case; no internal error arises. -/
theorem translate_accepts_iff (hv : func.Valid) (isa : TargetIsa) :
    ((∃ what, translate func isa = .error (.error (.unsupported what))) ↔ HasUnitParam func) ∧
      ((∃ clif, translate func isa = .ok clif) ↔ ¬ HasUnitParam func) ∧
      ∀ message, translate func isa ≠ .error (.error (.codegen message)) := by
  by_cases hunit : HasUnitParam func
  · have h : translate func isa = .error (.error unitError) := by
      rw [translate, translation_unit hv hunit, error_bind]
    refine ⟨⟨fun _ => hunit, fun _ => ⟨_, h⟩⟩, ⟨?_, fun hno => absurd hunit hno⟩, ?_⟩
    · rintro ⟨clif, hclif⟩
      rw [h] at hclif
      cases hclif
    · intro message hmessage
      rw [h] at hmessage
      cases hmessage
  · obtain ⟨t, ht, -⟩ := translation_ok isa hv hunit
    have h : translate func isa = .ok t.clif := by
      rw [translate, ht, ok_bind]
      rfl
    refine ⟨⟨?_, fun hyes => absurd hyes hunit⟩, ⟨fun _ => hunit, fun _ => ⟨_, h⟩⟩, ?_⟩
    · rintro ⟨what, hwhat⟩
      rw [h] at hwhat
      cases hwhat
    · intro message hmessage
      rw [h] at hmessage
      cases hmessage

theorem halvings_translates : ∃ clif, translate Ir.halvings ⟨⟨0⟩⟩ = .ok clif := ⟨_, rfl⟩

theorem halvings_accepted : ∃ clif, translate Ir.halvings ⟨⟨0⟩⟩ = .ok clif :=
  (translate_accepts_iff Ir.halvings.valid ⟨⟨0⟩⟩).2.1.mpr (by
    rintro (h | ⟨c, hc, v, hv, hty⟩)
    · revert h
      decide
    · have hnone : ∀ c, Ir.halvings.Reachable c → ∀ v ∈ Ir.halvings.blockParams c,
          Ir.halvings.valueType v ≠ some .unit :=
        Ir.halvings.forall_reachable (by decide) (by decide) (by decide) (by decide)
      exact hnone c hc v hv hty)

end JitLang.Translate
