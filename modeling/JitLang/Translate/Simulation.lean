import JitLang.Translate.Encoding
import JitLang.Translate.Safety

/-! # Translation preserves meaning

The reference interpreter on a function and the machine on its translation, in lockstep. `Related`
ties the interpreter's table of values to the machine's: a value is defined in both or in neither, and
then encoded. One instruction keeps it (`Translated.simulate_inst`), so does the body of a block, and an
edge binds its arguments to parameters on both sides (`Incoming.bind`). That the values an instruction
reads are defined comes from the invariant of the machine.
-/

namespace JitLang.Translate
open Foundations Cranelift Numbers
open Ir.Eval (RVal Stop)
set_option autoImplicit false

variable {func : Ir.Function} {isa : TargetIsa} {t : Translation}

/-! ## Related environments -/

/-- The interpreter's entry for a value. -/
def lookup (renv : Ir.Eval.Env) (v : Ir.Value) : Option RVal := (renv[v.index]?).join

theorem read_of_lookup {renv : Ir.Eval.Env} {v : Ir.Value} {r : RVal} (h : lookup renv v = some r) :
    Ir.Eval.read renv v = .ok r := by
  have h : (renv[v.index]?).join = some r := h
  rw [Ir.Eval.read, h]

theorem write_lookup {renv : Ir.Eval.Env} {v : Ir.Value} (r : RVal) (h : v.index < renv.length) :
    ∃ renv', Ir.Eval.write renv v r = .ok renv' ∧ renv'.length = renv.length ∧
      ∀ w, lookup renv' w = if w = v then some r else lookup renv w := by
  refine ⟨_, if_pos h, List.length_set, fun w => ?_⟩
  by_cases hw : w = v
  · simp [lookup, hw, h]
  · have hne : v.index ≠ w.index := fun e => hw (Ir.Value.ext e.symm)
    simp [lookup, hw, hne]

/-- The machine's values are the encodings of the interpreter's. -/
structure Related (func : Ir.Function) (t : Translation) (renv : Ir.Eval.Env) (env : Env) : Prop where
  length : renv.length = func.valueCount
  agree : ∀ v y, t.value v = some y →
    Option.Rel (fun r x => ∃ ty, func.valueType v = some ty ∧ Encodes ty r x) (lookup renv v) (env y)

namespace Related
variable {renv : Ir.Eval.Env} {env env' : Env}

theorem initial (func : Ir.Function) (t : Translation) :
    Related func t (List.replicate func.valueCount none) Env.empty := by
  refine ⟨List.length_replicate, fun v y _ => ?_⟩
  have hnone : lookup (List.replicate func.valueCount none) v = none := by
    rw [lookup, List.getElem?_replicate]
    split <;> rfl
  rw [hnone]
  exact .none

/-- What the machine can read, the interpreter can. -/
theorem read (h : Related func t renv env) {v : Ir.Value} {y : Cranelift.Value} {x : Val}
    (hy : t.value v = some y) (hx : env y = some x) :
    ∃ ty r, func.valueType v = some ty ∧ Ir.Eval.read renv v = .ok r ∧ Encodes ty r x := by
  have hagree := h.agree v y hy
  rw [hx] at hagree
  cases hlookup : lookup renv v with
  | none =>
    rw [hlookup] at hagree
    cases hagree
  | some r =>
    rw [hlookup] at hagree
    cases hagree with
    | some hr =>
      obtain ⟨ty, hty, henc⟩ := hr
      exact ⟨ty, r, hty, read_of_lookup hlookup, henc⟩

/-- Recording a value on both sides. -/
theorem write (h : Related func t renv env) {v : Ir.Value} (hlt : v.index < func.valueCount)
    {ty : Ir.Ty} (hty : func.valueType v = some ty) {r : RVal} {x : Val} (hr : Encodes ty r x)
    (henv : ∀ w z, t.value w = some z → env' z = if w = v then some x else env z) :
    ∃ renv', Ir.Eval.write renv v r = .ok renv' ∧ Related func t renv' env' := by
  obtain ⟨renv', hwrite, hlen, hlookup⟩ := write_lookup r (h.length.symm ▸ hlt)
  refine ⟨renv', hwrite, hlen.trans h.length, fun w z hz => ?_⟩
  rw [hlookup, henv w z hz]
  split_ifs with hw
  · subst hw
    exact .some ⟨ty, hty, hr⟩
  · exact h.agree w z hz

end Related

/-! ## Binding parameters -/

/-- `rs` and their encodings `xs` are about to be bound to the parameters `ps` and their stand-ins
`ys`. -/
inductive Incoming (func : Ir.Function) (t : Translation) :
    List Ir.Value → List Cranelift.Value → List RVal → List Val → Prop
  | nil : Incoming func t [] [] [] []
  | cons {p : Ir.Value} {y : Cranelift.Value} {r : RVal} {x : Val} {ty : Ir.Ty}
      {ps : List Ir.Value} {ys : List Cranelift.Value} {rs : List RVal} {xs : List Val} :
      t.value p = some y → func.valueType p = some ty → Encodes ty r x → Incoming func t ps ys rs xs →
      Incoming func t (p :: ps) (y :: ys) (r :: rs) (x :: xs)

namespace Incoming
variable {ps : List Ir.Value} {ys : List Cranelift.Value} {rs : List RVal} {xs : List Val}

theorem lengths (h : Incoming func t ps ys rs xs) :
    ps.length = rs.length ∧ xs.length = ys.length := by
  induction h with
  | nil => exact ⟨rfl, rfl⟩
  | cons _ _ _ _ ih => exact ⟨congrArg (· + 1) ih.1, congrArg (· + 1) ih.2⟩

/-- The interpreter writes one parameter after the other, the machine binds them at once. -/
theorem bind (ht : Translated func isa t) (hv : func.Valid) (h : Incoming func t ps ys rs xs)
    {renv : Ir.Eval.Env} {env : Env} (hrel : Related func t renv env) :
    ∃ renv', Ir.Eval.writeAll renv (ps.zip rs) = .ok renv' ∧
      Related func t renv' (env.bind ys xs) := by
  induction h generalizing renv env with
  | nil => exact ⟨renv, rfl, hrel⟩
  | @cons p y r x ty ps ys rs xs hy hty hr _ ih =>
    obtain ⟨c, hc, hp⟩ := (ht.stands.defined p).mp ⟨y, hy⟩
    have hset : ∀ w z, t.value w = some z →
        env.set y x z = if w = p then some x else env z := by
      intro w z hz
      split_ifs with hw
      · subst hw
        obtain rfl := Option.some.inj (hy.symm.trans hz)
        exact Env.set_self _ _ _
      · refine Env.set_ne _ _ ?_
        rintro rfl
        exact hw (ht.stands.injective w p z hz hy)
    obtain ⟨renv₁, hwrite, hrel₁⟩ := hrel.write (hv.defs_inRange c hc p hp) hty hr hset
    obtain ⟨renv', hwrites, hrel'⟩ := ih hrel₁
    refine ⟨renv', ?_, hrel'⟩
    rw [Ir.Eval.writeAll, List.zip_cons_cons, List.foldlM_cons, hwrite, ok_bind]
    exact hwrites

theorem of_args (h : List.Forall₂ (fun r x => Encodes (typeOf r) r x) rs xs)
    (hps : ps.map func.valueType = (rs.map typeOf).map some) (hys : ps.map t.value = ys.map some) :
    Incoming func t ps ys rs xs := by
  induction h generalizing ps ys with
  | nil =>
    obtain rfl := List.map_eq_nil_iff.mp hps
    obtain rfl := List.map_eq_nil_iff.mp hys.symm
    exact .nil
  | cons hx _ ih =>
    cases ps with
    | nil => cases hps
    | cons p ps =>
      cases ys with
      | nil => cases hys
      | cons y ys =>
        obtain ⟨hpty, hps⟩ := List.cons.inj hps
        obtain ⟨hpy, hys⟩ := List.cons.inj hys
        exact .cons hpy hpty hx (ih hps hys)

theorem of_edge {renv : Ir.Eval.Env} {env : Env} (hrel : Related func t renv env)
    {us : List Ir.Value} {zs : List Cranelift.Value} (hus : us.map t.value = zs.map some)
    (hdef : ∀ u ∈ us, ∀ z, t.value u = some z → ∃ x, env z = some x)
    (htypes : us.map func.valueType = ps.map func.valueType) (hys : ps.map t.value = ys.map some) :
    ∃ rs xs, us.mapM (Ir.Eval.read renv) = .ok rs ∧ zs.mapM env.read = .ok xs ∧
      Incoming func t ps ys rs xs := by
  induction us generalizing zs ps ys with
  | nil =>
    obtain rfl := List.map_eq_nil_iff.mp hus.symm
    obtain rfl := List.map_eq_nil_iff.mp htypes.symm
    obtain rfl := List.map_eq_nil_iff.mp hys.symm
    exact ⟨[], [], rfl, rfl, .nil⟩
  | cons u us ih =>
    cases zs with
    | nil => cases hus
    | cons z zs =>
      cases ps with
      | nil => cases htypes
      | cons p ps =>
        cases ys with
        | nil => cases hys
        | cons y ys =>
          obtain ⟨huz, hus⟩ := List.cons.inj hus
          obtain ⟨hup, htypes⟩ := List.cons.inj htypes
          obtain ⟨hpy, hys⟩ := List.cons.inj hys
          obtain ⟨x, hx⟩ := hdef u List.mem_cons_self z huz
          obtain ⟨ty, r, hty, hread, henc⟩ := hrel.read huz hx
          obtain ⟨rs, xs, hrs, hxs, hin⟩ :=
            ih hus (fun w hw => hdef w (List.mem_cons_of_mem _ hw)) htypes hys
          refine ⟨r :: rs, x :: xs, ?_, ?_, .cons hpy (hup.symm.trans hty) henc hin⟩
          · rw [List.mapM_cons, hread, ok_bind, hrs]
            rfl
          · rw [List.mapM_cons, read_of_some hx, ok_bind, hxs]
            rfl

end Incoming

theorem Translated.simulate_start (ht : Translated func isa t) (hv : func.Valid)
    {args : List RVal} (hargs : args.map typeOf = func.params) :
    ∃ renv, Ir.Eval.start func args = .ok renv ∧
      (args.flatMap encode).map Val.ty = t.clif.signature.params.map AbiParam.valueType ∧
      (args.flatMap encode).length = (t.clif.blockParams ⟨0⟩).length ∧
      Related func t renv (Env.empty.bind (t.clif.blockParams ⟨0⟩) (args.flatMap encode)) := by
  have hunit : Ir.Ty.unit ∉ args.map typeOf := by
    intro hmem
    rw [hargs] at hmem
    obtain ⟨param, -, hparam⟩ := forall₂_exists_right (map_eq_some_iff.mp ht.signature.params) hmem
    cases hparam
  have hencodes := encodes_args hunit
  have htypes : List.Forall₂ (fun ty x => machineTy ty = some x.ty) func.params
      (args.flatMap encode) := by
    rw [← hargs, List.forall₂_map_left_iff]
    exact hencodes.imp fun _ _ h => h.machineTy
  have hin := Incoming.of_args hencodes (by rw [hargs, hv.entry_params]) (ht.params_at ht.entry.2)
  obtain ⟨renv, hwrites, hrel⟩ := hin.bind ht hv (.initial func t)
  refine ⟨renv, ?_, ht.args_typed htypes, hin.lengths.2, hrel⟩
  rw [Ir.Eval.start, if_pos hin.lengths.1, hwrites]

/-! ## Leaving a block -/

/-- Both leave the block in the same way: with a result and its encoding, or for a block and its
stand-in. -/
inductive ExitsAgree (func : Ir.Function) (t : Translation) :
    Except Stop Ir.Eval.Exit → Except Fault Exit → Prop
  | ret (r : RVal) : ExitsAgree func t (.ok (.ret r)) (.ok (.ret (encode r)))
  | goto {c : Ir.Block} {x : Cranelift.Block} {renv : Ir.Eval.Env} {env : Env} :
      t.block c = some x → Related func t renv env →
      ExitsAgree func t (.ok (.goto c renv)) (.ok (.goto x env))

namespace Translated
variable {renv : Ir.Eval.Env} {env : Env}

theorem simulate_edge (ht : Translated func isa t) (hv : func.Valid) (hrel : Related func t renv env)
    {target : Ir.Block} {us : List Ir.Value} {call : BlockCall}
    (himage : EdgeImage t (target, us) call) (htyped : func.EdgeTyped target us)
    (hdef : ∀ u ∈ us, ∀ y, t.value u = some y → ∃ a, env y = some a) :
    ExitsAgree func t (do return .goto target (← Ir.Eval.enter func renv target us))
      (Cranelift.enter t.clif env call) := by
  obtain ⟨rs, xs, hrs, hxs, hin⟩ :=
    Incoming.of_edge hrel himage.2 hdef htyped (ht.params_at himage.1)
  obtain ⟨renv', hwrites, hrel'⟩ := hin.bind ht hv hrel
  have hmem : call.block ∈ t.clif.layout := (ht.mem_layout _).mpr ⟨target, himage.1⟩
  have henter : Ir.Eval.enter func renv target us = .ok renv' := by
    rw [Ir.Eval.enter, hrs, ok_bind, hwrites]
  have henter' : Cranelift.enter t.clif env call =
      .ok (.goto call.block (env.bind (t.clif.blockParams call.block) xs)) := by
    rw [Cranelift.enter, hxs, ok_bind, if_pos ⟨hmem, hin.lengths.2⟩, pure_eq_ok]
  rw [henter, henter']
  exact .goto himage.1 hrel'

variable [DoubleArith]

theorem simulate_terminator (ht : Translated func isa t) (hv : func.Valid)
    (hrel : Related func t renv env) {term : Ir.Terminator} {last : Cranelift.Inst}
    (himage : TerminatorImage t term last) (htyped : func.TerminatorTyped term)
    (hdef : ∀ u ∈ term.uses, ∀ y, t.value u = some y → ∃ a, env y = some a) :
    ExitsAgree func t (Ir.Eval.evalTerminator func renv term)
      (runBlock t.clif [⟨none, last⟩] env) := by
  cases himage with
  | @ret value zs hzs =>
    cases value with
    | none =>
      obtain rfl := List.map_eq_nil_iff.mp hzs.symm
      exact .ret .unit
    | some v =>
      obtain ⟨y, rfl, hy⟩ := map_singleton_eq_some hzs
      obtain ⟨a, ha⟩ := hdef v (by simp [Ir.Terminator.uses]) y hy
      obtain ⟨ty, r, -, hread, henc⟩ := hrel.read hy ha
      have heval : Ir.Eval.evalTerminator func renv (.ret (some v)) = .ok (.ret r) := by
        rw [Ir.Eval.evalTerminator, hread, ok_bind, pure_eq_ok]
      have hvals : [y].mapM env.read = .ok (encode r) := by
        simp [read_of_some ha, henc.encode]
      rw [heval, runBlock_return hvals]
      exact .ret r
  | jump hdest =>
    rw [Ir.Eval.evalTerminator, runBlock_jump]
    exact ht.simulate_edge hv hrel hdest htyped hdef
  | @branch cond y thenBlock elseBlock thenArgs elseArgs thenDest elseDest hy hthen helse =>
    obtain ⟨hcond, hthenTyped, helseTyped⟩ := htyped
    obtain ⟨a, ha⟩ := hdef cond (by simp [Ir.Terminator.uses]) y hy
    obtain ⟨ty, r, hty, hread, henc⟩ := hrel.read hy ha
    obtain rfl := Option.some.inj (hty.symm.trans hcond)
    cases henc with
    | bool b =>
      rw [Ir.Eval.evalTerminator, hread, ok_bind, runBlock_brif ha]
      cases b with
      | true =>
        exact ht.simulate_edge hv hrel hthen hthenTyped
          fun u hu => hdef u (by simp [Ir.Terminator.uses, hu])
      | false =>
        exact ht.simulate_edge hv hrel helse helseTyped
          fun u hu => hdef u (by simp [Ir.Terminator.uses, hu])

end Translated

section Machine
variable [DoubleArith] {renv : Ir.Eval.Env} {env : Env} {c : Ir.Block} {x : Cranelift.Block}

/-! ## The body of a block -/

namespace Translated

/-- One instruction: the machine runs its code while the interpreter makes one round. -/
theorem simulate_inst (ht : Translated func isa t) (hv : func.Valid) (hc : t.block c = some x)
    {n : ℕ} {nodes : List InstData} {term : Ir.Terminator} {last : Cranelift.Inst}
    (hemit : Emitted func t.block t.value t.clif x c n nodes term last) {before : List Ir.Value}
    {v : Ir.Value} {nodes₁ : List InstData} {inst : Ir.Inst} {code : List Cranelift.Inst}
    (hpiece : Piece func t.value n (func.insts c) nodes before v nodes₁ inst code)
    (hinv : StateInv t.clif ⟨x, nodes₁.length, env⟩) (hrel : Related func t renv env) :
    ∃ renv' env', Ir.Eval.evalValue func renv v = .ok renv' ∧
      Within t.clif ⟨x, nodes₁.length, env⟩ ⟨x, nodes₁.length + code.length, env'⟩ ∧
      Related func t renv' env' := by
  have hreach : func.Reachable c := (ht.block_iff c).mp ⟨x, hc⟩
  obtain ⟨after, hsplit⟩ := hpiece.split
  obtain ⟨rest, hinsts⟩ := hpiece.exists_rest hemit.insts
  have hmem : v ∈ func.insts c := by simp [hsplit]
  have hoperands : ∀ u ∈ inst.uses, Operand func t.value (n + nodes₁.length) renv env u := by
    intro u hu
    obtain ⟨y, hy, hlt⟩ := hpiece.operands u hu
    have hdef := ht.operand_definedBefore hv hc hpiece hsplit hemit.insts hu hy
    obtain ⟨a, ha, -⟩ := ht.holds_standIn hinv hy hdef le_rfl
    obtain ⟨ty, r, hty, hread, henc⟩ := hrel.read hy ha
    exact ⟨ty, y, r, a, hty, hy, hlt, hread, ha, henc⟩
  obtain ⟨ty, r, z, hty, heval, henc, env', hrun, hlast⟩ := lowerInst_computes
    (hv.inst_typed c hreach v hmem inst hpiece.resolves) hpiece.lowered hoperands
  have hpos := List.length_pos_of_ne_nil (lowerInst_ne_nil hpiece.lowered)
  -- The code changes the values of its own numbers only, and of those the last alone stands for a
  -- value of the source.
  have hagree : ∀ w y, t.value w = some y → env' y = if w = v then some z else env y := by
    intro w y hy
    split_ifs with hw
    · subst hw
      obtain rfl := Option.some.inj (hpiece.standIn.symm.trans hy)
      exact hlast
    · refine runCode_frame hrun ?_
      by_contra hin
      exact hw (hpiece.only w y hy (by omega) (by omega))
  obtain ⟨renv', hwrite, hrel'⟩ := hrel.write
    (hv.defs_inRange c hreach v (List.mem_append_right _ hmem)) hty henc hagree
  refine ⟨renv', env', ?_, ?_, hrel'⟩
  · simp only [Ir.Eval.evalValue, hpiece.resolves, heval, ok_bind, hwrite]
  · have hnext : (t.clif.blockInsts x).drop nodes₁.length =
        number (n + nodes₁.length) code ++ rest := by
      rw [hinsts, List.drop_left]
    exact Within.code (s := ⟨x, nodes₁.length, env⟩) hnext hrun

theorem simulate_insts (ht : Translated func isa t) (hv : func.Valid) (hc : t.block c = some x)
    {n : ℕ} {nodes : List InstData} {term : Ir.Terminator} {last : Cranelift.Inst}
    (hemit : Emitted func t.block t.value t.clif x c n nodes term last) {args : List Val}
    (htypes : args.map Val.ty = t.clif.signature.params.map AbiParam.valueType)
    (hs : Reaches t.clif args ⟨x, 0, env⟩) (hrel : Related func t renv env) :
    ∃ renv' env', (func.insts c).foldlM (Ir.Eval.evalValue func) renv = .ok renv' ∧
      Within t.clif ⟨x, 0, env⟩ ⟨x, nodes.length, env'⟩ ∧ Related func t renv' env' := by
  obtain ⟨renv', hfold, nodes', env', hlowers, hwithin, hrel'⟩ :=
    foldlM_invariant (f := Ir.Eval.evalValue func) (l := func.insts c) (s := renv)
      (I := fun done renv' => ∃ nodes₁ env', Lowers func t.value n done nodes₁ ∧
        Within t.clif ⟨x, 0, env⟩ ⟨x, nodes₁.length, env'⟩ ∧ Related func t renv' env')
      ⟨[], env, .nil n, .refl _, hrel⟩ fun done v rest renv₁ hsplit hI => by
        obtain ⟨nodes₁, env₁, hlowers, hwithin, hrel₁⟩ := hI
        obtain ⟨nodes₁', inst, code, hpiece⟩ := hemit.lowers.exists_piece hsplit
        obtain rfl := hpiece.lowers.deterministic hlowers
        have hinv := (hwithin.reaches hs).inv (ht.ssa hv) (ht.wellTyped hv) htypes
        obtain ⟨renv₂, env₂, heval, hstep, hrel₂⟩ :=
          ht.simulate_inst hv hc hemit hpiece hinv hrel₁
        refine ⟨renv₂, heval, nodes₁' ++ number (n + nodes₁'.length) code, env₂, ?_, ?_, hrel₂⟩
        · exact hlowers.snoc hpiece.resolves hpiece.lowered hpiece.operands hpiece.standIn hpiece.only
        · rw [List.length_append, number_length]
          exact hwithin.trans hstep
  obtain rfl := hlowers.deterministic hemit.lowers
  exact ⟨renv', env', hfold, hwithin, hrel'⟩

end Translated

/-! ## Whole blocks -/

namespace Translated

theorem simulate_block (ht : Translated func isa t) (hv : func.Valid) (hc : t.block c = some x)
    {args : List Val}
    (htypes : args.map Val.ty = t.clif.signature.params.map AbiParam.valueType)
    (hs : Reaches t.clif args ⟨x, 0, env⟩) (hrel : Related func t renv env) :
    ExitsAgree func t (Ir.Eval.evalBlock func c renv)
      (runBlock t.clif (t.clif.blockInsts x) env) := by
  have hreach : func.Reachable c := (ht.block_iff c).mp ⟨x, hc⟩
  obtain ⟨n, nodes, term, last, hemit⟩ := ht.emitted_at hc
  obtain ⟨renv', env', hfold, hwithin, hrel'⟩ := ht.simulate_insts hv hc hemit htypes hs hrel
  have hinv := (hwithin.reaches hs).inv (ht.ssa hv) (ht.wellTyped hv) htypes
  have heval : Ir.Eval.evalBlock func c renv = Ir.Eval.evalTerminator func renv' term := by
    simp only [Ir.Eval.evalBlock, hfold, ok_bind, hemit.terminator]
  have hrun : runBlock t.clif (t.clif.blockInsts x) env =
      runBlock t.clif [⟨none, last⟩] env' := by
    have hdrop : (t.clif.blockInsts x).drop nodes.length = [⟨none, last⟩] := by
      rw [hemit.insts, List.drop_left]
    have h := hwithin.runBlock_eq
    rw [List.drop_zero, hdrop] at h
    exact h
  rw [heval, hrun]
  refine ht.simulate_terminator hv hrel' (terminatorImage_of_lowered hemit.lowered)
    (hv.terminator_typed c term hreach hemit.terminator) fun u hu y hy => ?_
  obtain ⟨a, ha, -⟩ := ht.holds_standIn hinv hy (ht.terminator_definedBefore hv hc hemit hu hy) le_rfl
  exact ⟨a, ha⟩

end Translated

/-! ## Whole runs -/

/-- Both runs return, the machine with the encoding of the interpreter's result, or both are cut off. -/
inductive Agrees : Except Stop RVal → Cranelift.Result → Prop
  | returned (r : RVal) : Agrees (.ok r) (.returned (encode r))
  | outOfFuel : Agrees (.error .outOfFuel) .outOfFuel

/-- From related states on, both enter the same blocks and end in the same way. -/
theorem Translated.simulate_run (ht : Translated func isa t) (hv : func.Valid) {args : List Val}
    (htypes : args.map Val.ty = t.clif.signature.params.map AbiParam.valueType) (fuel : ℕ)
    (hc : t.block c = some x) (hs : Reaches t.clif args ⟨x, 0, env⟩)
    (hrel : Related func t renv env) :
    (Ir.Eval.enteredFrom func fuel c renv).map t.block =
        (Cranelift.enteredFrom t.clif fuel x env).map some ∧
      Agrees (Ir.Eval.evalFrom func fuel c renv) (Cranelift.evalFrom t.clif fuel x env) := by
  induction fuel generalizing c x renv env with
  | zero => exact ⟨rfl, .outOfFuel⟩
  | succ fuel ih =>
    have hblock := ht.simulate_block hv hc htypes hs hrel
    have hends := hs.runBlock
    rw [List.drop_zero] at hends
    rw [Ir.Eval.enteredFrom, Ir.Eval.evalFrom, Cranelift.enteredFrom, Cranelift.evalFrom]
    generalize Ir.Eval.evalBlock func c renv = exit at hblock
    generalize runBlock t.clif (t.clif.blockInsts x) env = exit' at hblock hends
    cases hblock with
    | ret r => exact ⟨by rw [List.map_singleton, List.map_singleton, hc], .returned r⟩
    | goto hc' hrel' =>
      obtain ⟨hentered, hagrees⟩ := ih hc' hends hrel'
      exact ⟨by rw [List.map_cons, List.map_cons, hc, hentered], hagrees⟩

/-- From the start on, on arguments of the parameter types. -/
theorem Translated.simulate (ht : Translated func isa t) (hv : func.Valid) {args : List RVal}
    (hargs : args.map typeOf = func.params) (fuel : ℕ) :
    (Ir.Eval.entered func args fuel).map t.block =
        (Cranelift.entered t.clif (args.flatMap encode) fuel).map some ∧
      Agrees (Ir.Eval.eval func args fuel) (Cranelift.eval t.clif (args.flatMap encode) fuel) := by
  obtain ⟨renv, hstart, htypes, hlen, hrel⟩ := ht.simulate_start hv hargs
  have hrun := ht.simulate_run hv htypes fuel ht.entry.2 (.start ht.entry.1 hlen) hrel
  simp only [Ir.Eval.entered, Ir.Eval.eval, Cranelift.entered, Cranelift.eval, hstart, ok_bind,
    ht.entry.1, if_pos hlen]
  exact hrun

end Machine

/-- On every vector of arguments of the parameter types, and for every number of block entries, the
interpreter on `func` and the machine on `translate func` enter the same blocks, in the same order, and
either both return, the machine with the encoding of the interpreter's result, or neither does. -/
theorem translate_preserves_meaning [DoubleArith] (hv : func.Valid) {clif : Cranelift.Function}
    (h : translate func isa = .ok clif) {args : List RVal} (hargs : args.map typeOf = func.params) :
    ∃ t, translation func isa = .ok t ∧ t.clif = clif ∧ ∀ fuel,
      (Ir.Eval.entered func args fuel).map t.block =
          (Cranelift.entered clif (args.flatMap encode) fuel).map some ∧
        Agrees (Ir.Eval.eval func args fuel) (Cranelift.eval clif (args.flatMap encode) fuel) := by
  obtain ⟨t, htrans, rfl, ht⟩ := translated_of_ok hv h
  exact ⟨t, htrans, rfl, ht.simulate hv hargs⟩

theorem halvings_preserved : ∃ clif, translate Ir.halvings ⟨⟨0⟩⟩ = .ok clif ∧
    ∃ t, translation Ir.halvings ⟨⟨0⟩⟩ = .ok t ∧ t.clif = clif ∧ ∀ fuel,
      (@Ir.Eval.entered hostDouble Ir.halvings [.int 100, .bool true] fuel).map t.block =
          (@Cranelift.entered clif hostDouble [.i64 100, .i8 1] fuel).map some ∧
        Agrees (@Ir.Eval.eval hostDouble Ir.halvings [.int 100, .bool true] fuel)
          (@Cranelift.eval clif hostDouble [.i64 100, .i8 1] fuel) := by
  obtain ⟨clif, hclif⟩ := halvings_translates
  let _ := hostDouble
  have hargs : [RVal.int 100, .bool true].map typeOf = Ir.halvings.params := rfl
  exact ⟨clif, hclif, translate_preserves_meaning Ir.halvings.valid hclif hargs⟩

end JitLang.Translate
