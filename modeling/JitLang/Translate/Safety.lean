import JitLang.Cranelift.Soundness
import JitLang.Translate.Encoding
import JitLang.Translate.WellTyped

/-! # Compiled code never faults

The produced function is well-formed and well typed, so only a division could fault. Its divisor is
the one the guard selects: the equations of the instructions before it say that it is neither
zero nor minus one.
-/

namespace JitLang.Translate
open Foundations Cranelift Numbers
set_option autoImplicit false

variable {func : Ir.Function} {isa : TargetIsa} {t : Translation}

section Guard
variable [DoubleArith]

/-- The code of an instruction, as far as a state has executed it, has its results in place. -/
theorem Piece.executed {V : Ir.Value → Option Cranelift.Value} {n : ℕ} {vs before : List Ir.Value}
    {nodes nodes₁ rest : List InstData} {v : Ir.Value} {inst : Ir.Inst}
    {code : List Cranelift.Inst} (hpiece : Piece func V n vs nodes before v nodes₁ inst code)
    {clif : Cranelift.Function} {s : State} (hinv : StateInv clif s)
    (hinsts : clif.blockInsts s.block = nodes ++ rest) {k : ℕ} (hk : nodes₁.length + k ≤ s.pc) :
    runCode (n + nodes₁.length) (code.take k) s.env = .ok s.env := by
  refine runCode_of_equations fun i clifInst hi => ?_
  rw [List.getElem?_take] at hi
  split_ifs at hi with hik
  have hat := hpiece.getElem? hi
  have hlt := (List.getElem?_eq_some_iff.mp hat).1
  exact hinv.equation (j := nodes₁.length + i) (by omega)
    (by rw [hinsts, List.getElem?_append_left hlt, hat])

theorem sdiv_safeDivisor {env : Env} {x y : Cranelift.Value} {b : BitVec 64}
    (hy : env y = some (.i64 (safeDivisor b))) :
    evalInst env (.binary .sdiv x y) ≠ .error .trap := by
  intro htrap
  simp only [evalInst, Env.read, hy] at htrap
  cases hx : env x with
  | none => simp [hx] at htrap
  | some a =>
    rw [hx] at htrap
    cases a with
    | i8 | f64 => cases htrap
    | i64 a =>
      have hguard := safeDivisor_admissible (by decide) a b
      simp only [ok_bind, BinaryOp.eval, BinaryOp.evalInt, if_neg hguard] at htrap
      cases htrap

end Guard

namespace Translated

theorem args_typed (ht : Translated func isa t) {args : List Val}
    (hargs : List.Forall₂ (fun ty x => machineTy ty = some x.ty) func.params args) :
    args.map Val.ty = t.clif.signature.params.map AbiParam.valueType := by
  have hslots := map_eq_some_iff.mp ht.signature.params
  generalize func.params = tys at hargs hslots
  generalize t.clif.signature.params = params at hslots
  induction hargs generalizing params with
  | nil =>
    cases hslots
    rfl
  | cons hx _ ih =>
    cases hslots with
    | cons hslot hslots =>
      have hty := (slot_eq_some hslot).1
      rw [hx] at hty
      rw [List.map_cons, List.map_cons, ih _ hslots, Option.some.inj hty]

theorem args_length (ht : Translated func isa t) (hv : func.Valid) {args : List Val}
    (hargs : args.map Val.ty = t.clif.signature.params.map AbiParam.valueType) :
    args.length = (t.clif.blockParams ⟨0⟩).length := by
  have h₁ := congrArg List.length hargs
  have h₂ := congrArg List.length ((ht.wellTyped hv).entry ⟨0⟩ ht.entry.1)
  simp only [List.length_map] at h₁ h₂
  rw [h₁, h₂]

variable [DoubleArith]

/-- A stand-in defined before some point of a block holds a value of its type in every state past it. -/
theorem holds_standIn (ht : Translated func isa t) {s : State} (hinv : StateInv t.clif s)
    {v : Ir.Value} {y : Cranelift.Value} (hy : t.value v = some y) {i : ℕ}
    (hdef : t.clif.DefinedBefore y s.block i) (hpc : i ≤ s.pc) :
    ∃ x, s.env y = some x ∧ machineType func v = some x.ty := by
  obtain ⟨x, hx, hty⟩ := hinv.holds hpc hdef
  obtain ⟨ty, hm, hty'⟩ := ht.stands.typed v y hy
  have hsome : some ty = some x.ty := hty'.symm.trans hty
  exact ⟨x, hx, hm.trans hsome⟩

/-- The instruction a state of the translation is at belongs to the code of an IR instruction, or is
the image of the terminator. -/
theorem at_node (ht : Translated func isa t) {s : State} (hinv : StateInv t.clif s)
    {node : InstData} (hnode : (t.clif.blockInsts s.block)[s.pc]? = some node) :
    ∃ c n nodes term last, t.block c = some s.block ∧ func.Reachable c ∧
      Emitted func t.block t.value t.clif s.block c n nodes term last ∧
      (nodes[s.pc]? = some node ∨ s.pc = nodes.length ∧ node = ⟨none, last⟩) := by
  obtain ⟨c, n, nodes, term, last, hc, hreach, hemit⟩ := ht.emitted_of_mem hinv.block
  refine ⟨c, n, nodes, term, last, hc, hreach, hemit, ?_⟩
  rw [hemit.insts] at hnode
  rcases Nat.lt_or_ge s.pc nodes.length with hlt | hge
  · exact .inl (by rwa [List.getElem?_append_left hlt] at hnode)
  · have hlt := (List.getElem?_eq_some_iff.mp hnode).1
    rw [List.length_append, List.length_singleton] at hlt
    obtain heq : s.pc = nodes.length := by omega
    rw [heq, List.getElem?_concat_length] at hnode
    exact .inr ⟨heq, (Option.some.inj hnode).symm⟩

theorem sdiv_ne_trap (ht : Translated func isa t) (hv : func.Valid) {s : State}
    (hinv : StateInv t.clif s) {node : InstData}
    (hnode : (t.clif.blockInsts s.block)[s.pc]? = some node) {x y : Cranelift.Value}
    (hdiv : node.inst = .binary .sdiv x y) : evalInst s.env node.inst ≠ .error .trap := by
  obtain ⟨c, n, nodes, term, last, hc, hreach, hemit, hplace⟩ := ht.at_node hinv hnode
  rcases hplace with hnode | ⟨-, rfl⟩
  · obtain ⟨before, v, nodes₁, inst, code, i, hpiece, hpc, hcode, -⟩ :=
      hemit.lowers.exists_piece_of_node hnode
    rw [hdiv] at hcode ⊢
    obtain ⟨lhs, rhs, r, ty, rfl, hr, hty, hne, rfl, rfl, rfl⟩ :=
      lowerInst_sdiv hpiece.lowered hcode
    obtain ⟨after, hsplit⟩ := hpiece.split
    -- The divisor of the source is an integer.
    obtain ⟨ty', hop, hlhs, hrhs, -⟩ := hv.inst_typed c hreach v (by rw [hsplit]; simp) _
      hpiece.resolves
    have hint : ty' = .int := hop.resolve_right fun hfloat => hne (by
      rw [hty] at hlhs
      exact (Option.some.inj hlhs).trans hfloat)
    obtain ⟨b, hb, hbty⟩ := ht.holds_standIn hinv hr (ht.operand_definedBefore hv hc hpiece hsplit
      hemit.insts (by simp [Ir.Inst.uses]) hr) (by omega)
    rw [machineType_eq hrhs, hint] at hbty
    obtain ⟨b, rfl⟩ := Val.eq_i64 (Option.some.inj hbty).symm
    -- The instructions of the guard have been executed.
    have hrn : r.index < n + nodes₁.length := by
      obtain ⟨r', hr', hlt⟩ := hpiece.operands rhs (by simp [Ir.Inst.uses])
      rwa [← Option.some.inj (hr.symm.trans hr')] at hlt
    have hguard : runCode (n + nodes₁.length) (intDivGuard r (n + nodes₁.length)) s.env =
        .ok s.env := hpiece.executed hinv hemit.insts (k := 6) (by omega)
    obtain ⟨env', hrun, -, hdivisor⟩ := intDivGuard_run hb hrn
    obtain rfl := Except.ok.inj (hguard.symm.trans hrun)
    exact sdiv_safeDivisor hdivisor
  · have hterm := lowerTerminator_isTerminator hemit.lowered
    rw [show last = _ from hdiv] at hterm
    exact hterm.elim

theorem step_ne_fault (ht : Translated func isa t) (hv : func.Valid) {s : State}
    (hinv : StateInv t.clif s) (e : Fault) : Cranelift.step t.clif s ≠ .fault e := by
  intro hfault
  cases hinv.outcome (ht.ssa hv) (ht.wellTyped hv) with
  | next _ _ _ _ _ hrun => rw [hrun] at hfault; cases hfault
  | enter _ _ _ _ _ _ hrun => rw [hrun] at hfault; cases hfault
  | done _ _ _ hdone => rw [hdone] at hfault; cases hfault
  | trap hnode hdiv htrap _ => exact ht.sdiv_ne_trap hv hinv hnode hdiv htrap

end Translated

/-- On arguments of the parameters' machine types, whatever bytes stand for the booleans, the produced
function starts, and no step of any of its runs traps or gets stuck. -/
theorem translate_never_faults [DoubleArith] (hv : func.Valid) {clif : Cranelift.Function}
    (h : translate func isa = .ok clif) {args : List Val}
    (hargs : List.Forall₂ (fun ty x => machineTy ty = some x.ty) func.params args) :
    (∃ s, Reaches clif args s) ∧
      (∀ s, Reaches clif args s → ∀ e, Cranelift.step clif s ≠ .fault e) ∧
      ∀ fuel e, Cranelift.eval clif args fuel ≠ .fault e := by
  obtain ⟨t, -, rfl, ht⟩ := translated_of_ok hv h
  have htypes := ht.args_typed hargs
  have hlen := ht.args_length hv htypes
  have hstart : Reaches t.clif args ⟨⟨0⟩, 0, Env.empty.bind (t.clif.blockParams ⟨0⟩) args⟩ :=
    .start ht.entry.1 hlen
  have hnever : ∀ s, Reaches t.clif args s → ∀ e, Cranelift.step t.clif s ≠ .fault e :=
    fun s hs e => ht.step_ne_fault hv (hs.inv (ht.ssa hv) (ht.wellTyped hv) htypes) e
  refine ⟨⟨_, hstart⟩, hnever, fun fuel e he => ?_⟩
  simp only [Cranelift.eval, ht.entry.1, if_pos hlen] at he
  obtain ⟨s, hs, hfault⟩ := hstart.evalFrom_fault he
  exact hnever s hs e hfault

theorem halvings_never_faults : ∃ clif, translate Ir.halvings ⟨⟨0⟩⟩ = .ok clif ∧
    ∀ s, @Reaches clif hostDouble [.i64 100, .i8 7] s →
      ∀ e, @Cranelift.step clif hostDouble s ≠ .fault e := by
  obtain ⟨clif, hclif⟩ := halvings_translates
  let _ := hostDouble
  have hargs : List.Forall₂ (fun ty x => machineTy ty = some (Val.ty x)) Ir.halvings.params
      [.i64 100, .i8 7] := .cons rfl (.cons rfl .nil)
  exact ⟨clif, hclif, (translate_never_faults Ir.halvings.valid hclif hargs).2.1⟩

end JitLang.Translate
