import JitLang.Translate.Shape

/-! # The produced function is well typed

The stand-in of an IR value has the value's machine type (`Translated.types_of_standIns`); the typing
rules the source obeys, read through that, are the typing rules of the produced function.
-/

namespace JitLang.Translate
open Foundations Cranelift
set_option autoImplicit false

variable {func : Ir.Function} {isa : TargetIsa} {t : Translation}

namespace Translated

theorem types_of_standIns (ht : Translated func isa t) {vs : List Ir.Value}
    {xs : List Cranelift.Value} (h : vs.map t.value = xs.map some) :
    xs.map t.clif.valueType = vs.map (machineType func) := by
  induction map_eq_some_iff.mp h with
  | nil => rfl
  | @cons v x vs xs hx _ ih =>
    obtain ⟨ty, hm, hty⟩ := ht.stands.typed v x hx
    have hty : t.clif.valueType x = some ty := hty
    rw [List.map_cons, List.map_cons, hm, hty, ih (List.cons.inj h).2]

theorem params_at (ht : Translated func isa t) {c : Ir.Block} {x : Cranelift.Block}
    (hx : t.block c = some x) :
    (func.blockParams c).map t.value = (t.clif.blockParams x).map some :=
  ht.params x c ((ht.placed c x).mp hx)

theorem map_machineType {vs ws : List Ir.Value} (h : vs.map func.valueType = ws.map func.valueType) :
    vs.map (machineType func) = ws.map (machineType func) := by
  have hcomp := congrArg (List.map (·.bind machineTy)) h
  rwa [List.map_map, List.map_map] at hcomp

theorem callTyped (ht : Translated func isa t) {edge : Ir.Block × List Ir.Value} {call : BlockCall}
    (himage : EdgeImage t edge call) (htyped : func.EdgeTyped edge.1 edge.2) :
    t.clif.CallTyped call := by
  refine ⟨(ht.mem_layout _).mpr ⟨edge.1, himage.1⟩, ?_⟩
  rw [ht.types_of_standIns himage.2, ht.types_of_standIns (ht.params_at himage.1)]
  exact map_machineType htyped

theorem terminatorTyped (ht : Translated func isa t) {term : Ir.Terminator} {last : Cranelift.Inst}
    (himage : TerminatorImage t term last) (htyped : func.TerminatorTyped term) :
    t.clif.TerminatorTyped last := by
  cases himage with
  | @ret value args hargs =>
    have htypes := ht.types_of_standIns hargs
    have hreturns := ht.signature.returns
    show args.map t.clif.valueType = t.clif.signature.returns.map fun param => some param.valueType
    rw [htypes, hreturns]
    cases value with
    | none =>
      have hunit : func.ret = .unit := htyped
      rw [hunit]
      rfl
    | some v =>
      have hty : func.valueType v = some func.ret := htyped
      obtain ⟨x, -, hx⟩ := forall₂_exists_right (map_eq_some_iff.mp hargs) (a := v) (by simp)
      obtain ⟨mty, hm, -⟩ := ht.stands.typed v x hx
      rw [machineType_eq hty] at hm
      simp [slot, hm, machineType_eq hty]
  | jump hdest => exact ht.callTyped hdest htyped
  | @branch cond c _ _ _ _ _ _ hc hthen helse =>
    obtain ⟨hcond, hthenTyped, helseTyped⟩ := htyped
    obtain ⟨ty, hm, hty⟩ := ht.stands.typed cond c hc
    rw [machineType_eq hcond] at hm
    cases hm
    exact ⟨hty, ht.callTyped hthen hthenTyped, ht.callTyped helse helseTyped⟩

theorem wellTyped (ht : Translated func isa t) (hv : func.Valid) : t.clif.WellTyped := by
  refine ⟨?_, ?_, ?_, ?_⟩
  · intro e he
    rw [ht.entry.1] at he
    cases he
    rw [ht.types_of_standIns (ht.params_at ht.entry.2), machineTyped_entry hv ht.signature,
      List.map_map]
    rfl
  · intro x hx v hmem
    obtain ⟨c, hc⟩ := (ht.mem_layout x).mp hx
    obtain ⟨w, -, hw⟩ := forall₂_exists_left (map_eq_some_iff.mp (ht.params_at hc)) hmem
    obtain ⟨ty, -, hty⟩ := ht.stands.typed w v hw
    exact ⟨ty, hty⟩
  · intro x hx node hnode hterm
    obtain ⟨c, n, nodes, term, last, -, -, hemit⟩ := ht.emitted_of_mem hx
    rw [hemit.insts] at hnode
    rcases List.mem_append.mp hnode with hnode | hnode
    · exact hemit.typed node hnode
    · rw [List.mem_singleton.mp hnode] at hterm
      exact absurd (lowerTerminator_isTerminator hemit.lowered) hterm
  · intro x hx node hnode hterm
    obtain ⟨c, n, nodes, term, last, -, hreach, hemit⟩ := ht.emitted_of_mem hx
    rw [hemit.insts] at hnode
    rcases List.mem_append.mp hnode with hnode | hnode
    · exact absurd hterm (hemit.not_isTerminator hnode)
    · rw [List.mem_singleton.mp hnode]
      exact ⟨rfl, ht.terminatorTyped (terminatorImage_of_lowered hemit.lowered)
        (hv.terminator_typed c term hreach hemit.terminator)⟩

end Translated

/-- An ABI slot for an IR type: of its machine type, zero-extended exactly for a `bool`. -/
def SlotFor (ty : Ir.Ty) (param : AbiParam) : Prop :=
  machineTy ty = some param.valueType ∧ (param.extension = .uext ↔ ty = .bool)

/-- Every IR value defined in reachable code stands for a defined value of its machine type, and under
these types the produced function is well typed; its entry block takes the parameters of the signature,
which has one slot for each IR parameter, and one for the result unless that is `unit`. -/
theorem translate_wellTyped (hv : func.Valid) {clif : Cranelift.Function}
    (h : translate func isa = .ok clif) :
    ∃ t, translation func isa = .ok t ∧ t.clif = clif ∧
      (∀ c v, func.Reachable c → v ∈ func.defs c → ∃ x ty mty, t.value v = some x ∧
        func.valueType v = some ty ∧ machineTy ty = some mty ∧ clif.valueType x = some mty ∧
        x ∈ clif.definitions) ∧
      clif.WellTyped ∧
      (∃ e, clif.entry? = some e ∧
        (func.blockParams func.entry).map t.value = (clif.blockParams e).map some) ∧
      List.Forall₂ SlotFor func.params clif.signature.params ∧
      List.Forall₂ SlotFor (if func.ret = .unit then [] else [func.ret]) clif.signature.returns := by
  obtain ⟨t, htrans, rfl, ht⟩ := translated_of_ok hv h
  refine ⟨t, htrans, rfl, ?_, ht.wellTyped hv, ⟨_, ht.entry.1, ht.params_at ht.entry.2⟩, ?_, ?_⟩
  · intro c v hc hvc
    obtain ⟨x, hx⟩ := (ht.stands.defined v).mpr ⟨c, hc, hvc⟩
    obtain ⟨mty, hm, hmty⟩ := ht.stands.typed v x hx
    obtain ⟨ty, hty, hm⟩ := Option.bind_eq_some_iff.mp hm
    exact ⟨x, ty, mty, hx, hty, hm, hmty, ht.standIn_defined hc hvc hx⟩
  · exact (map_eq_some_iff.mp ht.signature.params).imp fun _ _ hslot => slot_eq_some hslot
  · rw [ht.signature.returns]
    by_cases hret : func.ret = .unit
    · rw [hret]
      exact .nil
    · obtain ⟨param, hslot⟩ := slot_of_ne_unit hret
      rw [if_neg hret, hslot]
      exact .cons (slot_eq_some hslot) .nil

theorem halvings_wellTyped : ∃ clif, translate Ir.halvings ⟨⟨0⟩⟩ = .ok clif ∧ clif.WellTyped ∧
    List.Forall₂ SlotFor [.int, .bool] clif.signature.params := by
  obtain ⟨clif, hclif⟩ := halvings_translates
  obtain ⟨t, -, -, -, htyped, -, hparams, -⟩ := translate_wellTyped Ir.halvings.valid hclif
  exact ⟨clif, hclif, htyped, hparams⟩

end JitLang.Translate
