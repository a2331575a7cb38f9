import JitLang.Foundations.Except
import JitLang.Foundations.Lists
import JitLang.Cranelift.Machine
import JitLang.Cranelift.Ssa
import JitLang.Cranelift.Typing

/-! # Well-formed code does not get stuck

The run-time invariant of a well-formed, well-typed function (`StateInv`): every value whose definition
comes before the next instruction is defined, with its type, and the values of the current block
satisfy the equations of the instructions already executed. One step keeps it (`StateInv.step`), so
every reachable state has it (`Reaches.inv`). What is left to go wrong is the trap of a division.
-/

namespace JitLang.Cranelift
open Foundations Numbers
set_option autoImplicit false

/-! ## Binding parameters -/

namespace Env
variable {env : Env} {params : List Value} {args : List Val} {v : Value}

theorem bind_cons (env : Env) (p : Value) (params : List Value) (x : Val) (args : List Val) :
    env.bind (p :: params) (x :: args) = (env.set p x).bind params args := rfl

theorem bind_of_notMem (h : v ∉ params) : env.bind params args v = env v := by
  induction params generalizing env args with
  | nil => rfl
  | cons p params ih =>
    cases args with
    | nil => rfl
    | cons x args =>
      obtain ⟨hne, hnot⟩ := not_or.mp (List.mem_cons.not.mp h)
      rw [bind_cons, ih hnot, set_ne _ _ hne]

theorem bind_getElem? (hnodup : params.Nodup) (hlen : params.length ≤ args.length) {i : ℕ}
    (hi : params[i]? = some v) : env.bind params args v = args[i]? := by
  induction params generalizing env args i with
  | nil => simp at hi
  | cons p params ih =>
    obtain ⟨hp, hnodup⟩ := List.nodup_cons.mp hnodup
    cases args with
    | nil => simp at hlen
    | cons x args =>
      rw [bind_cons]
      cases i with
      | zero =>
        obtain rfl : p = v := by simpa using hi
        rw [bind_of_notMem hp, set_self]
        rfl
      | succ i => exact ih hnodup (by simpa using hlen) hi

end Env

/-! ## Operations -/

theorem Val.eq_i8 {x : Val} (h : x.ty = .i8) : ∃ b, x = .i8 b := by
  cases x <;> cases h
  exact ⟨_, rfl⟩

theorem Val.eq_i64 {x : Val} (h : x.ty = .i64) : ∃ b, x = .i64 b := by
  cases x <;> cases h
  exact ⟨_, rfl⟩

theorem Val.eq_f64 {x : Val} (h : x.ty = .f64) : ∃ b, x = .f64 b := by
  cases x <;> cases h
  exact ⟨_, rfl⟩

theorem Val.int_cases {x : Val} (h : x.ty.IsInt) : (∃ b, x = .i8 b) ∨ ∃ b, x = .i64 b :=
  h.imp Val.eq_i8 Val.eq_i64

/-- An integer operation computes or, if it is a division, traps. -/
theorem BinaryOp.evalInt_outcome {w : ℕ} {op : BinaryOp} (hop : op.Takes .i8 ∨ op.Takes .i64)
    (x y : BitVec w) :
    (∃ z, op.evalInt x y = .ok z) ∨ op = .sdiv ∧ op.evalInt x y = .error .trap := by
  cases op with
  | iadd | isub | imul | band | bor | bxor => exact .inl ⟨_, rfl⟩
  | sdiv =>
    by_cases h : y = 0 ∨ x = BitVec.intMin w ∧ y = -1
    · exact .inr ⟨rfl, if_pos h⟩
    · exact .inl ⟨_, if_neg h⟩
  | fadd | fsub | fmul | fdiv => rcases hop with h | h <;> cases h

section Operators
variable {x y : Val}

theorem IntCC.eval_ok (cc : IntCC) (hx : x.ty.IsInt) (hy : y.ty = x.ty) :
    ∃ b, cc.eval x y = .ok (.ofBool b) := by
  rcases Val.int_cases hx with ⟨a, rfl⟩ | ⟨a, rfl⟩
  · obtain ⟨b, rfl⟩ := Val.eq_i8 hy
    exact ⟨_, rfl⟩
  · obtain ⟨b, rfl⟩ := Val.eq_i64 hy
    exact ⟨_, rfl⟩

variable [DoubleArith]

theorem UnaryOp.eval_ok {op : UnaryOp} (hop : op.Takes x.ty) :
    ∃ z, op.eval x = .ok z ∧ z.ty = x.ty := by
  cases op with
  | ineg =>
    rcases Val.int_cases hop with ⟨b, rfl⟩ | ⟨b, rfl⟩
    · exact ⟨_, rfl, rfl⟩
    · exact ⟨_, rfl, rfl⟩
  | fneg =>
    obtain ⟨b, rfl⟩ := Val.eq_f64 hop
    exact ⟨_, rfl, rfl⟩

theorem BinaryOp.eval_outcome {op : BinaryOp} (hop : op.Takes x.ty) (hy : y.ty = x.ty) :
    (∃ z, op.eval x y = .ok z ∧ z.ty = x.ty) ∨ op = .sdiv ∧ op.eval x y = .error .trap := by
  cases x with
  | i8 a =>
    obtain ⟨b, rfl⟩ := Val.eq_i8 hy
    rcases op.evalInt_outcome (.inl hop) a b with ⟨z, hz⟩ | ⟨hdiv, hz⟩
    · exact .inl ⟨.i8 z, by rw [BinaryOp.eval, hz]; rfl, rfl⟩
    · exact .inr ⟨hdiv, by rw [BinaryOp.eval, hz]; rfl⟩
  | i64 a =>
    obtain ⟨b, rfl⟩ := Val.eq_i64 hy
    rcases op.evalInt_outcome (.inr hop) a b with ⟨z, hz⟩ | ⟨hdiv, hz⟩
    · exact .inl ⟨.i64 z, by rw [BinaryOp.eval, hz]; rfl, rfl⟩
    · exact .inr ⟨hdiv, by rw [BinaryOp.eval, hz]; rfl⟩
  | f64 a =>
    obtain ⟨b, rfl⟩ := Val.eq_f64 hy
    cases op with
    | fadd | fsub | fmul | fdiv => exact .inl ⟨_, rfl, rfl⟩
    | _ => rcases hop with h | h <;> cases h

theorem FloatCC.eval_ok (cc : FloatCC) (hx : x.ty = .f64) (hy : y.ty = .f64) :
    ∃ b, cc.eval x y = .ok (.ofBool b) := by
  obtain ⟨a, rfl⟩ := Val.eq_f64 hx
  obtain ⟨b, rfl⟩ := Val.eq_f64 hy
  exact ⟨_, rfl⟩

end Operators

/-! ## Defined values -/

/-- `env` defines `v`, with a value of the type `types` gives it. -/
def Holds (types : List Ty) (env : Env) (v : Value) : Prop :=
  ∃ x, env v = some x ∧ HasType types v x.ty

theorem Holds.of_hasType {types : List Ty} {env : Env} {v : Value} {ty : Ty}
    (h : Holds types env v) (hty : HasType types v ty) : ∃ x, env v = some x ∧ x.ty = ty := by
  obtain ⟨x, hx, hx'⟩ := h
  have hsame : some x.ty = some ty := hx'.symm.trans hty
  exact ⟨x, hx, Option.some.inj hsame⟩

theorem mapM_read {types : List Ty} {env : Env} {args : List Value}
    (h : ∀ u ∈ args, Holds types env u) :
    ∃ vals, args.mapM env.read = .ok vals ∧
      vals.map (fun x => some x.ty) = args.map fun u => types[u.index]? := by
  induction args with
  | nil => exact ⟨[], rfl, rfl⟩
  | cons u args ih =>
    obtain ⟨x, hx, hty⟩ := h u List.mem_cons_self
    obtain ⟨vals, hvals, htypes⟩ := ih fun w hw => h w (List.mem_cons_of_mem _ hw)
    have hread : env.read u = .ok x := by rw [Env.read, hx]
    have hty : types[u.index]? = some x.ty := hty
    exact ⟨x :: vals, by rw [List.mapM_cons, hread, ok_bind, hvals]; rfl,
      by rw [List.map_cons, List.map_cons, htypes, hty]⟩

/-- Binding keeps values defined and defines the parameters. -/
theorem Holds.bind {types : List Ty} {env : Env} {params : List Value} {vals : List Val}
    (hnodup : params.Nodup)
    (htypes : vals.map (fun x => some x.ty) = params.map fun u => types[u.index]?) {v : Value}
    (h : v ∈ params ∨ Holds types env v) : Holds types (env.bind params vals) v := by
  by_cases hv : v ∈ params
  · obtain ⟨i, hi⟩ := List.mem_iff_getElem?.mp hv
    have hlen := congrArg List.length htypes
    rw [List.length_map, List.length_map] at hlen
    have hlt := (List.getElem?_eq_some_iff.mp hi).1
    have hget := List.getElem?_eq_getElem (show i < vals.length by omega)
    have hty : (vals.map fun x => some x.ty)[i]? = (params.map fun u => types[u.index]?)[i]? := by
      rw [htypes]
    rw [List.getElem?_map, List.getElem?_map, hi, hget] at hty
    exact ⟨vals[i], by rw [Env.bind_getElem? hnodup hlen.ge hi, hget],
      (Option.some.inj hty).symm⟩
  · obtain ⟨x, hx, hty⟩ := h.resolve_left hv
    exact ⟨x, by rw [Env.bind_of_notMem hv, hx], hty⟩

theorem enter_ok {func : Function} {env : Env} {call : BlockCall} (hcall : func.CallTyped call)
    (huses : ∀ u ∈ call.args, Holds func.valueTypes env u) :
    ∃ vals, call.args.mapM env.read = .ok vals ∧
      enter func env call = .ok (.goto call.block (env.bind (func.blockParams call.block) vals)) ∧
      vals.map (fun x => some x.ty) = (func.blockParams call.block).map func.valueType := by
  obtain ⟨vals, hvals, htypes⟩ := mapM_read huses
  obtain ⟨hmem, hargs⟩ := hcall
  have htypes : vals.map (fun x => some x.ty) = (func.blockParams call.block).map func.valueType :=
    htypes.trans hargs
  have hlen := congrArg List.length htypes
  rw [List.length_map, List.length_map] at hlen
  exact ⟨vals, hvals, by simp [enter, hvals, hmem, hlen], htypes⟩

section Soundness
variable [DoubleArith] {func : Function}

/-! ## Instructions -/

theorem evalInst_congr {env env' : Env} {inst : Inst} (h : ∀ u ∈ inst.uses, env u = env' u) :
    evalInst env inst = evalInst env' inst := by
  have hread : ∀ u ∈ inst.uses, env.read u = env'.read u := fun u hu => by
    rw [Env.read, Env.read, h u hu]
  cases inst with
  | iconst | f64const | jump | brif | return_ => rfl
  | unary op x => simp only [evalInst, hread x (by simp [Inst.uses])]
  | binary op x y | icmp op x y | fcmp op x y =>
    simp only [evalInst, hread x (by simp [Inst.uses]), hread y (by simp [Inst.uses])]
  | select c x y =>
    simp only [evalInst, hread c (by simp [Inst.uses]), hread x (by simp [Inst.uses]),
      hread y (by simp [Inst.uses])]

/-- A well-typed instruction whose operands are defined computes a value of its type or, if it is a
division, traps. -/
theorem evalInst_outcome {types : List Ty} {env : Env} {inst : Inst} {ty : Ty}
    (htyped : InstTyped types inst ty) (huses : ∀ u ∈ inst.uses, Holds types env u) :
    (∃ x, evalInst env inst = .ok x ∧ x.ty = ty) ∨
      evalInst env inst = .error .trap ∧ ∃ x y, inst = .binary .sdiv x y := by
  cases inst with
  | iconst ty' imm =>
    obtain ⟨rfl | rfl, rfl⟩ := htyped <;> exact .inl ⟨_, rfl, rfl⟩
  | f64const imm =>
    cases htyped
    exact .inl ⟨_, rfl, rfl⟩
  | unary op x =>
    obtain ⟨hop, hx⟩ := htyped
    obtain ⟨a, ha, rfl⟩ := (huses x (by simp [Inst.uses])).of_hasType hx
    rw [evalInst_unary ha]
    exact .inl (UnaryOp.eval_ok hop)
  | binary op x y =>
    obtain ⟨hop, hx, hy⟩ := htyped
    obtain ⟨a, ha, rfl⟩ := (huses x (by simp [Inst.uses])).of_hasType hx
    obtain ⟨b, hb, htb⟩ := (huses y (by simp [Inst.uses])).of_hasType hy
    rw [evalInst_binary ha hb]
    rcases BinaryOp.eval_outcome hop htb with hok | ⟨rfl, htrap⟩
    · exact .inl hok
    · exact .inr ⟨htrap, x, y, rfl⟩
  | icmp cc x y =>
    obtain ⟨rfl, operand, hint, hx, hy⟩ := htyped
    obtain ⟨a, ha, rfl⟩ := (huses x (by simp [Inst.uses])).of_hasType hx
    obtain ⟨b, hb, htb⟩ := (huses y (by simp [Inst.uses])).of_hasType hy
    obtain ⟨k, hk⟩ := cc.eval_ok hint htb
    exact .inl ⟨.ofBool k, by rw [evalInst_icmp ha hb, hk], rfl⟩
  | fcmp cc x y =>
    obtain ⟨rfl, hx, hy⟩ := htyped
    obtain ⟨a, ha, hta⟩ := (huses x (by simp [Inst.uses])).of_hasType hx
    obtain ⟨b, hb, htb⟩ := (huses y (by simp [Inst.uses])).of_hasType hy
    obtain ⟨k, hk⟩ := cc.eval_ok hta htb
    exact .inl ⟨.ofBool k, by rw [evalInst_fcmp ha hb, hk], rfl⟩
  | select c x y =>
    obtain ⟨hc, hx, hy⟩ := htyped
    obtain ⟨k, hk, htk⟩ := (huses c (by simp [Inst.uses])).of_hasType hc
    obtain ⟨a, ha, hta⟩ := (huses x (by simp [Inst.uses])).of_hasType hx
    obtain ⟨b, hb, htb⟩ := (huses y (by simp [Inst.uses])).of_hasType hy
    obtain ⟨k, rfl⟩ := Val.eq_i8 htk
    rw [evalInst_select hk rfl ha hb]
    exact .inl ⟨_, rfl, by split_ifs <;> assumption⟩
  | jump | brif | return_ => exact htyped.elim

/-! ## The invariant -/

/-- The run-time invariant: the values defined on the way here, and the equations of the instructions
of the current block that have been executed. -/
structure StateInv (func : Function) (s : State) : Prop where
  block : s.block ∈ func.layout
  pc : s.pc < (func.blockInsts s.block).length
  walk : ∃ e p, func.entry? = some e ∧ Graph.IsWalk func.Edge e s.block p ∧
    ∀ d ∈ p.dropLast, ∀ v ∈ func.blockParams d ++ func.blockResults d, Holds func.valueTypes s.env v
  params : ∀ v ∈ func.blockParams s.block, Holds func.valueTypes s.env v
  results : ∀ j node, j < s.pc → (func.blockInsts s.block)[j]? = some node →
    ∃ x, evalInst s.env node.inst = .ok x ∧
      ∀ v, node.result = some v → s.env v = some x ∧ HasType func.valueTypes v x.ty

namespace StateInv
variable {s : State}

/-- A value defined before an instruction that has been reached is defined. -/
theorem holds (h : StateInv func s) {v : Value} {j : ℕ} (hj : j ≤ s.pc)
    (hv : func.DefinedBefore v s.block j) : Holds func.valueTypes s.env v := by
  obtain ⟨d, pos, hdef, ⟨rfl, hpos⟩ | ⟨hne, hdom⟩⟩ := hv
  · obtain ⟨-, ⟨-, hparam⟩ | ⟨i, node, rfl, hnode, hresult⟩⟩ := hdef
    · exact h.params v hparam
    · obtain ⟨x, -, hx⟩ := h.results i node (by omega) hnode
      obtain ⟨henv, hty⟩ := hx v hresult
      exact ⟨x, henv, hty⟩
  · obtain ⟨e, p, he, hwalk, hdefs⟩ := h.walk
    exact hdefs d ((hdom e he).mem_dropLast hwalk hne) v hdef.mem_definitions

theorem holds_uses (h : StateInv func s) (hssa : func.Ssa) {node : InstData}
    (hnode : (func.blockInsts s.block)[s.pc]? = some node) :
    ∀ u ∈ node.inst.uses, Holds func.valueTypes s.env u :=
  fun u hu => h.holds le_rfl (hssa.dominated s.block h.block s.pc node hnode u hu)

theorem equation (h : StateInv func s) {j : ℕ} (hj : j < s.pc) {v : Value} {inst : Inst}
    (hnode : (func.blockInsts s.block)[j]? = some ⟨some v, inst⟩) :
    ∃ x, evalInst s.env inst = .ok x ∧ s.env v = some x := by
  obtain ⟨x, hx, hv⟩ := h.results j _ hj hnode
  exact ⟨x, hx, (hv v rfl).1⟩

theorem next (h : StateInv func s) (hssa : func.Ssa) {node : InstData}
    (hnode : (func.blockInsts s.block)[s.pc]? = some node) (hterm : ¬ node.inst.IsTerminator)
    {v : Value} {x : Val} (hresult : node.result = some v) (hx : evalInst s.env node.inst = .ok x)
    (hty : HasType func.valueTypes v x.ty) :
    StateInv func ⟨s.block, s.pc + 1, s.env.set v x⟩ := by
  have hset : ∀ w, Holds func.valueTypes s.env w → Holds func.valueTypes (s.env.set v x) w := by
    rintro w ⟨y, hy, hwty⟩
    by_cases hw : w = v
    · exact ⟨x, by rw [hw, Env.set_self], hw ▸ hty⟩
    · exact ⟨y, by rw [Env.set_ne _ _ hw, hy], hwty⟩
  have hsame : ∀ j node', j ≤ s.pc → (func.blockInsts s.block)[j]? = some node' →
      evalInst (s.env.set v x) node'.inst = evalInst s.env node'.inst := by
    intro j node' hj hnode'
    refine evalInst_congr fun u hu => Env.set_ne _ _ ?_
    exact hssa.use_ne_result h.block hj hnode' hnode hu hresult
  obtain ⟨next, hnext⟩ := hssa.exists_next h.block hnode hterm
  obtain ⟨e, p, he, hwalk, hdefs⟩ := h.walk
  refine ⟨h.block, (List.getElem?_eq_some_iff.mp hnext).1,
    ⟨e, p, he, hwalk, fun d hd w hw => hset w (hdefs d hd w hw)⟩,
    fun w hw => hset w (h.params w hw), ?_⟩
  intro j node' hj hnode'
  rcases Nat.lt_succ_iff_lt_or_eq.mp hj with hlt | rfl
  · obtain ⟨y, hy, hdef⟩ := h.results j node' hlt hnode'
    refine ⟨y, (hsame j node' hlt.le hnode').trans hy, fun w hw => ?_⟩
    have hne : w ≠ v := by
      rintro rfl
      have hplace := hssa.definedAt_unique ⟨h.block, .inr ⟨j, node', rfl, hnode', hw⟩⟩
        ⟨h.block, .inr ⟨s.pc, node, rfl, hnode, hresult⟩⟩
      omega
    obtain ⟨henv, hwty⟩ := hdef w hw
    exact ⟨(Env.set_ne _ _ hne).trans henv, hwty⟩
  · rw [hnode] at hnode'
    cases hnode'
    refine ⟨x, (hsame s.pc node le_rfl hnode).trans hx, fun w hw => ?_⟩
    rw [hresult] at hw
    cases hw
    exact ⟨Env.set_self _ _ _, hty⟩

theorem enter (h : StateInv func s) (hssa : func.Ssa) (hwt : func.WellTyped) {node : InstData}
    (hnode : (func.blockInsts s.block)[s.pc]? = some node) (hterm : node.inst.IsTerminator)
    {call : BlockCall} (hcall : call ∈ node.inst.calls) (hmem : call.block ∈ func.layout)
    {vals : List Val}
    (htypes : vals.map (fun x => some x.ty) = (func.blockParams call.block).map func.valueType) :
    StateInv func ⟨call.block, 0, s.env.bind (func.blockParams call.block) vals⟩ := by
  have hnodup := hssa.params_nodup hmem
  have hbind : ∀ v, v ∈ func.blockParams call.block ∨ Holds func.valueTypes s.env v →
      Holds func.valueTypes (s.env.bind (func.blockParams call.block) vals) v :=
    fun v hv => Holds.bind hnodup htypes hv
  obtain ⟨nodes, last, hinsts, -⟩ := hssa.terminated call.block hmem
  obtain ⟨e, p, he, hwalk, hdefs⟩ := h.walk
  have hedge : func.Edge s.block call.block :=
    ⟨node, List.mem_of_getElem? hnode, call, hcall, rfl⟩
  refine ⟨hmem, by rw [hinsts]; simp, ⟨e, p ++ [call.block], he, hwalk.snoc hedge, ?_⟩,
    fun v hv => hbind v (.inl hv), fun j _ hj => absurd hj (Nat.not_lt_zero j)⟩
  rw [List.dropLast_concat]
  intro d hd v hv
  refine hbind v (.inr ?_)
  by_cases hds : d = s.block
  · subst hds
    rcases List.mem_append.mp hv with hv | hv
    · exact h.params v hv
    · -- Every result of the block comes before its terminator.
      obtain ⟨node', hmem', hresult⟩ := List.mem_filterMap.mp hv
      obtain ⟨j, hj⟩ := List.mem_iff_getElem?.mp hmem'
      have hlast := hssa.terminator_last h.block hnode hterm
      have hlt := (List.getElem?_eq_some_iff.mp hj).1
      have hne : j ≠ s.pc := by
        rintro rfl
        rw [hnode] at hj
        cases hj
        have hnone := (hwt.terminators s.block h.block node (List.mem_of_getElem? hnode) hterm).1
        rw [hnone] at hresult
        cases hresult
      obtain ⟨x, -, hx⟩ := h.results j node' (by omega) hj
      exact ⟨x, hx v hresult⟩
  · exact hdefs d (hwalk.mem_dropLast hd hds) v hv

theorem start (hssa : func.Ssa) (hwt : func.WellTyped) {args : List Val} {e : Block}
    (hargs : args.map Val.ty = func.signature.params.map AbiParam.valueType)
    (he : func.entry? = some e) :
    StateInv func ⟨e, 0, Env.empty.bind (func.blockParams e) args⟩ := by
  have hmem := Function.Ssa.mem_layout_of_entry he
  have hnodup := hssa.params_nodup hmem
  have htypes : args.map (fun x => some x.ty) = (func.blockParams e).map func.valueType := by
    have hsome := congrArg (List.map some) hargs
    rw [List.map_map, List.map_map] at hsome
    rw [hwt.entry e he]
    exact hsome
  obtain ⟨nodes, last, hinsts, -⟩ := hssa.terminated e hmem
  exact ⟨hmem, by rw [hinsts]; simp, ⟨e, [e], he, .single e, by simp⟩,
    fun v hv => Holds.bind hnodup htypes (.inl hv), fun j _ hj => absurd hj (Nat.not_lt_zero j)⟩

end StateInv

/-! ## Steps and runs -/

theorem execNode_of_not_terminator {env : Env} {node : InstData} (h : ¬ node.inst.IsTerminator)
    {v : Value} (hresult : node.result = some v) :
    execNode func env node = (do return .next (env.set v (← evalInst env node.inst))) := by
  unfold execNode
  cases hinst : node.inst with
  | jump | brif | return_ => exact absurd (by rw [hinst]; trivial) h
  | _ => simp only [hresult]

/-- What the next step of a state with the invariant is. -/
inductive StepOutcome (func : Function) (s : State) : Prop
  | next {node : InstData} {v : Value} {x : Val} :
      (func.blockInsts s.block)[s.pc]? = some node → ¬ node.inst.IsTerminator →
      node.result = some v → evalInst s.env node.inst = .ok x → HasType func.valueTypes v x.ty →
      step func s = .run ⟨s.block, s.pc + 1, s.env.set v x⟩ → StepOutcome func s
  | enter {node : InstData} {call : BlockCall} {vals : List Val} :
      (func.blockInsts s.block)[s.pc]? = some node → node.inst.IsTerminator →
      call ∈ node.inst.calls → call.block ∈ func.layout →
      call.args.mapM s.env.read = .ok vals →
      vals.map (fun x => some x.ty) = (func.blockParams call.block).map func.valueType →
      step func s = .run ⟨call.block, 0, s.env.bind (func.blockParams call.block) vals⟩ →
      StepOutcome func s
  | done {args : List Value} {vals : List Val} :
      (func.blockInsts s.block)[s.pc]? = some ⟨none, .return_ args⟩ →
      args.mapM s.env.read = .ok vals →
      vals.map Val.ty = func.signature.returns.map AbiParam.valueType →
      step func s = .done vals → StepOutcome func s
  | trap {node : InstData} {x y : Value} :
      (func.blockInsts s.block)[s.pc]? = some node → node.inst = .binary .sdiv x y →
      evalInst s.env node.inst = .error .trap → step func s = .fault .trap → StepOutcome func s

/-- At a terminator the run enters the block it branches to, or ends. -/
theorem StateInv.outcome_terminator {s : State} (h : StateInv func s) (hssa : func.Ssa)
    (hwt : func.WellTyped) {node : InstData}
    (hnode : (func.blockInsts s.block)[s.pc]? = some node) (hterm : node.inst.IsTerminator) :
    StepOutcome func s := by
  have huses := h.holds_uses hssa hnode
  obtain ⟨hnone, htyped⟩ := hwt.terminators s.block h.block node (List.mem_of_getElem? hnode) hterm
  cases hinst : node.inst with
  | jump dest =>
    rw [hinst] at htyped huses
    obtain ⟨vals, hvals, henter, htypes⟩ := enter_ok htyped huses
    exact .enter hnode hterm (show dest ∈ node.inst.calls by rw [hinst]; simp [Inst.calls]) htyped.1
      hvals htypes (by simp [step, hnode, execNode, hinst, henter])
  | brif c thenDest elseDest =>
    rw [hinst] at htyped huses
    obtain ⟨hc, hthen, helse⟩ := htyped
    obtain ⟨x, hx, hty⟩ := (huses c (by simp [Inst.uses])).of_hasType hc
    obtain ⟨b, rfl⟩ := Val.eq_i8 hty
    obtain ⟨taken, htaken⟩ : ∃ taken, (b != 0) = taken := ⟨_, rfl⟩
    have hcall : func.CallTyped (if taken then thenDest else elseDest) := by
      split_ifs
      · exact hthen
      · exact helse
    obtain ⟨vals, hvals, henter, htypes⟩ := enter_ok hcall fun u hu => huses u (by
      split_ifs at hu <;> simp [Inst.uses, hu])
    refine .enter hnode hterm ?_ hcall.1 hvals htypes ?_
    · rw [hinst]
      split_ifs <;> simp [Inst.calls]
    · simp only [step, hnode, execNode, hinst, read_of_some hx, ok_bind, Val.truthy, htaken, henter,
        pure_eq_ok]
  | return_ args =>
    rw [hinst] at htyped huses
    obtain ⟨vals, hvals, htypes⟩ := mapM_read huses
    have hvals : args.mapM s.env.read = .ok vals := hvals
    have hreturns := htypes.trans htyped
    have hcomp : vals.map Val.ty = func.signature.returns.map AbiParam.valueType := by
      refine List.map_injective_iff.mpr (fun _ _ => Option.some.inj) ?_
      rw [List.map_map, List.map_map]
      exact hreturns
    have hreturn : (func.blockInsts s.block)[s.pc]? = some ⟨none, .return_ args⟩ := by
      rw [hnode, ← hnone, ← hinst]
    exact .done hreturn hvals hcomp
      (by simp only [step, hnode, execNode, hinst, hvals, ok_bind, pure_eq_ok])
  | _ => rw [hinst] at hterm; exact hterm.elim

/-- A state with the invariant steps as its next instruction says; it traps at a division at most. -/
theorem StateInv.outcome {s : State} (h : StateInv func s) (hssa : func.Ssa) (hwt : func.WellTyped) :
    StepOutcome func s := by
  obtain ⟨node, hnode⟩ : ∃ node, (func.blockInsts s.block)[s.pc]? = some node :=
    ⟨_, List.getElem?_eq_getElem h.pc⟩
  by_cases hterm : node.inst.IsTerminator
  · exact h.outcome_terminator hssa hwt hnode hterm
  · obtain ⟨v, ty, hresult, hvty, htyped⟩ :=
      hwt.nodes s.block h.block node (List.mem_of_getElem? hnode) hterm
    rcases evalInst_outcome htyped (h.holds_uses hssa hnode) with ⟨x, hx, rfl⟩ | ⟨htrap, x, y, hdiv⟩
    · exact .next hnode hterm hresult hx hvty
        (by simp [step, hnode, execNode_of_not_terminator hterm hresult, hx])
    · exact .trap hnode hdiv htrap
        (by simp [step, hnode, execNode_of_not_terminator hterm hresult, htrap])

/-- One step keeps the invariant. -/
theorem StateInv.step {s s' : State} (h : StateInv func s) (hssa : func.Ssa) (hwt : func.WellTyped)
    (hstep : step func s = .run s') : StateInv func s' := by
  cases h.outcome hssa hwt with
  | next hnode hterm hresult hx hty hrun =>
    rw [hrun] at hstep
    cases hstep
    exact h.next hssa hnode hterm hresult hx hty
  | enter hnode hterm hcall hmem _ htypes hrun =>
    rw [hrun] at hstep
    cases hstep
    exact h.enter hssa hwt hnode hterm hcall hmem htypes
  | done _ _ _ hdone => rw [hdone] at hstep; cases hstep
  | trap _ _ _ htrap => rw [htrap] at hstep; cases hstep

/-- Every state reached on arguments of the signature's types has the invariant. -/
theorem Reaches.inv {args : List Val} {s : State} (h : Reaches func args s) (hssa : func.Ssa)
    (hwt : func.WellTyped)
    (hargs : args.map Val.ty = func.signature.params.map AbiParam.valueType) : StateInv func s := by
  induction h with
  | start he _ => exact StateInv.start hssa hwt hargs he
  | step _ hstep ih => exact ih.step hssa hwt hstep

end Soundness
end JitLang.Cranelift
