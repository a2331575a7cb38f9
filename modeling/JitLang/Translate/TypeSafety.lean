import JitLang.Ir.StraightLine
import JitLang.Translate.Encoding

/-! # The interpreter does not go wrong

On a valid function the reference interpreter never panics, also where the function is not translated
(`eval_safe`). What a block may read there is, with the type it was declared with (`Typed`): an
instruction adds its own value, and an edge carries over what dominates the block it leads to.
-/

namespace JitLang.Translate
open Foundations Numbers Ir
open Ir.Eval (RVal Stop)
set_option autoImplicit false

/-! ## Operators -/

section Operators
variable [DoubleArith]

theorem binary_typed {op : BinOp} {lhs rhs : RVal} (hop : op.Accepts (typeOf lhs))
    (hrhs : typeOf rhs = typeOf lhs) :
    ∃ r, Eval.binary op lhs rhs = .ok r ∧ typeOf r = op.result (typeOf lhs) := by
  cases lhs <;> cases rhs <;> cases hrhs
  case bool.bool.refl a b =>
    -- `&&` and `||` look at the left operand first.
    cases a <;> cases op <;> first | exact ⟨_, rfl, rfl⟩ | simp [BinOp.Accepts, typeOf] at hop
  all_goals
    cases op <;> first | exact ⟨_, rfl, rfl⟩ | simp [BinOp.Accepts, typeOf] at hop

theorem unary_typed {op : UnOp} {operand : RVal} (hop : op.Accepts (typeOf operand)) :
    ∃ r, Eval.unary op operand = .ok r ∧ typeOf r = typeOf operand := by
  cases operand <;> cases op <;> first | exact ⟨_, rfl, rfl⟩ | simp [UnOp.Accepts, typeOf] at hop

end Operators

/-! ## Typed environments -/

variable {func : Function} {env : Eval.Env} {b c : Block} {v : Value}

/-- `v` is there, with its declared type. -/
def Reads (func : Function) (env : Eval.Env) (v : Value) : Prop :=
  Succeeds (Eval.read env v) fun r => func.valueType v = some (typeOf r)

/-- The environment in block `b` after the instructions `before`. -/
structure Typed (func : Function) (b : Block) (before : List Value) (env : Eval.Env) : Prop where
  length : env.length = func.valueCount
  reads : ∀ v, func.Available b before v → Reads func env v

theorem Reads.write {w : Value} {x : RVal} (hlt : v.index < env.length)
    (hty : func.valueType v = some (typeOf x)) (h : w = v ∨ Reads func env w) :
    Reads func (env.set v.index (some x)) w := by
  by_cases hw : w = v
  · subst hw
    exact ⟨x, by rw [Eval.read_set hlt, if_pos rfl], hty⟩
  · obtain ⟨r, hr, hrty⟩ := h.resolve_left hw
    have hne : w.index ≠ v.index := fun heq => hw (Value.ext heq)
    exact ⟨r, by rw [Eval.read_set hlt, if_neg hne, hr], hrty⟩

/-! ## The body of a block -/

section Body
variable [DoubleArith] {inst : Inst} {before after : List Value}

theorem evalInst_reads (huses : ∀ u ∈ inst.uses, Reads func env u) (h : func.InstTyped v inst) :
    Succeeds (Eval.evalInst env inst) fun x => func.valueType v = some (typeOf x) := by
  cases inst with
  | iconst | fconst | bconst => exact ⟨_, rfl, h⟩
  | bin op lhs rhs =>
    obtain ⟨ty, hop, hlhs, hrhs, hv⟩ := h
    obtain ⟨l, hl, hlty⟩ := huses lhs (by simp [Inst.uses])
    obtain ⟨r, hr, hrty⟩ := huses rhs (by simp [Inst.uses])
    obtain rfl := Option.some.inj (hlty.symm.trans hlhs)
    obtain ⟨x, hx, hxty⟩ := binary_typed hop (Option.some.inj (hrty.symm.trans hrhs))
    exact ⟨x, by rw [Eval.evalInst, hl, hr]; exact hx, hv.trans (congrArg some hxty.symm)⟩
  | un op operand =>
    obtain ⟨ty, hop, hoperand, hv⟩ := h
    obtain ⟨y, hy, hyty⟩ := huses operand (by simp [Inst.uses])
    obtain rfl := Option.some.inj (hyty.symm.trans hoperand)
    obtain ⟨x, hx, hxty⟩ := unary_typed hop
    exact ⟨x, by rw [Eval.evalInst, hy]; exact hx, hv.trans (congrArg some hxty.symm)⟩

/-- One instruction makes its own value available. -/
theorem evalValue_typed (hv : func.Valid) (hb : func.Reachable b)
    (hsplit : func.insts b = before ++ v :: after) (h : Typed func b before env) :
    Succeeds (Eval.evalValue func env v) (Typed func b (before ++ [v])) := by
  have hmem : v ∈ func.insts b := by simp [hsplit]
  obtain ⟨inst, hinst⟩ := hv.insts_resolve b hb v hmem
  have huses := hv.inst_dominated b hb before v after hsplit inst hinst
  obtain ⟨x, hx, hty⟩ :=
    evalInst_reads (fun u hu => h.reads u (huses u hu)) (hv.inst_typed b hb v hmem inst hinst)
  have hlt : v.index < env.length := by
    rw [h.length]
    exact hv.defs_inRange b hb v (List.mem_append_right _ hmem)
  refine ⟨env.set v.index (some x), ?_, by rw [List.length_set, h.length], fun w hw => ?_⟩
  · rw [Eval.evalValue, hinst]
    simp only [hx, ok_bind]
    exact Eval.write_ok hlt
  · refine Reads.write hlt hty ?_
    rcases hw with hw | hw | hw
    · exact .inr (h.reads w (.inl hw))
    · rcases List.mem_append.mp hw with hw | hw
      · exact .inr (h.reads w (.inr (.inl hw)))
      · exact .inl (List.mem_singleton.mp hw)
    · exact .inr (h.reads w (.inr (.inr hw)))

theorem body_typed (hv : func.Valid) (hb : func.Reachable b) (h : Typed func b [] env) :
    Succeeds ((func.insts b).foldlM (Eval.evalValue func) env) (Typed func b (func.insts b)) :=
  foldlM_invariant (I := Typed func b) h fun _ _ _ _ hsplit ht => evalValue_typed hv hb hsplit ht

end Body

/-! ## Edges -/

theorem reads_all {us : List Value} (h : ∀ u ∈ us, Reads func env u) :
    Succeeds (us.mapM (Eval.read env)) fun rs => us.map func.valueType = rs.map (some ∘ typeOf) := by
  induction us with
  | nil => exact ⟨[], rfl, rfl⟩
  | cons u us ih =>
    obtain ⟨r, hr, hrty⟩ := h u List.mem_cons_self
    obtain ⟨rs, hrs, htypes⟩ := ih fun w hw => h w (List.mem_cons_of_mem _ hw)
    refine ⟨r :: rs, ?_, congrArg₂ List.cons hrty htypes⟩
    rw [List.mapM_cons, hr, ok_bind, hrs]
    rfl

/-- Parameters are bound one after the other, and nothing else changes. -/
theorem writeAll_typed (env : Eval.Env) {ps : List Value} {rs : List RVal}
    (htypes : ps.map func.valueType = rs.map (some ∘ typeOf)) (hlt : ∀ p ∈ ps, p.index < env.length) :
    Succeeds (Eval.writeAll env (ps.zip rs)) fun env' =>
      env'.length = env.length ∧ ∀ w, w ∈ ps ∨ Reads func env w → Reads func env' w := by
  induction ps generalizing env rs with
  | nil => exact ⟨env, rfl, rfl, fun w hw => hw.resolve_left List.not_mem_nil⟩
  | cons p ps ih =>
    cases rs with
    | nil => cases htypes
    | cons r rs =>
      obtain ⟨hty, htypes⟩ := List.cons.inj htypes
      have hp := hlt p List.mem_cons_self
      obtain ⟨env', hwrites, hlen, hreads⟩ := ih (env.set p.index (some r)) htypes fun q hq => by
        rw [List.length_set]
        exact hlt q (List.mem_cons_of_mem _ hq)
      refine ⟨env', ?_, by rw [hlen, List.length_set], fun w hw => hreads w ?_⟩
      · rw [Eval.writeAll, List.zip_cons_cons, List.foldlM_cons, Eval.write_ok hp, ok_bind]
        exact hwrites
      · rcases hw with hw | hw
        · rcases List.mem_cons.mp hw with rfl | hw
          · exact .inr (.write hp hty (.inl rfl))
          · exact .inl hw
        · exact .inr (.write hp hty (.inr hw))

/-- What may be read at the start of a block is one of its parameters or was there before the edge. -/
theorem available_of_edge (hedge : func.Edge b c) (h : func.Available c [] v) :
    v ∈ func.blockParams c ∨ func.Available b (func.insts b) v := by
  rcases h with h | h | ⟨d, hne, hd, hdefs⟩
  · exact .inl h
  · cases h
  · have hdom : func.Dominates d b := Graph.Dominates.of_edge hd hedge hne
    refine .inr ?_
    by_cases hdb : d = b
    · subst hdb
      exact (List.mem_append.mp hdefs).imp_right .inl
    · exact .inr (.inr ⟨d, hdb, hdom, hdefs⟩)

theorem enter_typed (hv : func.Valid) (hb : func.Reachable b) {term : Terminator}
    (hterm : func.terminator b = some term) {edge : Block × List Value} (hedge : edge ∈ term.edges)
    (h : Typed func b (func.insts b) env) :
    func.Reachable edge.1 ∧ Succeeds (Eval.enter func env edge.1 edge.2) (Typed func edge.1 []) := by
  have hsucc : edge.1 ∈ term.successors := List.mem_map_of_mem hedge
  have hgoto : func.Edge b edge.1 := ⟨term, hterm, hsucc, hv.targets_inRange b term hb hterm _ hsucc⟩
  have hreach := hv.successor_reachable hb hterm hsucc
  refine ⟨hreach, ?_⟩
  obtain ⟨rs, hrs, htypes⟩ := reads_all fun u hu =>
    h.reads u (hv.terminator_dominated b term hb hterm u (Terminator.uses_of_edge hedge hu))
  have hedgeTyped : func.EdgeTyped edge.1 edge.2 := (hv.terminator_typed b term hb hterm).edge hedge
  obtain ⟨env', hwrites, hlen, hreads⟩ := writeAll_typed env (hedgeTyped.symm.trans htypes)
    fun p hp => by
      rw [h.length]
      exact hv.defs_inRange edge.1 hreach p (List.mem_append_left _ hp)
  refine ⟨env', ?_, hlen.trans h.length, fun v hv => hreads v ?_⟩
  · rw [Eval.enter, hrs, ok_bind, hwrites]
  · exact (available_of_edge hgoto hv).imp_right (h.reads v)

/-! ## The ends of a block -/

theorem start_typed (hv : func.Valid) {args : List RVal} (hargs : args.map typeOf = func.params) :
    Succeeds (Eval.start func args) (Typed func func.entry []) := by
  have htypes : (func.blockParams func.entry).map func.valueType = args.map (some ∘ typeOf) := by
    rw [hv.entry_params, ← hargs, List.map_map]
  obtain ⟨env, hwrites, hlen, hreads⟩ := writeAll_typed (List.replicate func.valueCount none) htypes
    fun p hp => by
      rw [List.length_replicate]
      exact hv.defs_inRange _ hv.entry_reachable p (List.mem_append_left _ hp)
  refine ⟨env, ?_, by rw [hlen, List.length_replicate], fun v h => ?_⟩
  · have hcount : (func.blockParams func.entry).length = args.length := by
      simpa using congrArg List.length htypes
    rw [Eval.start, if_pos hcount, hwrites]
  · rcases h with h | h | ⟨d, hne, hd, -⟩
    · exact hreads v (.inl h)
    · cases h
    · exact absurd (List.mem_singleton.mp (hd _ (.single _))) hne

/-- How a block is left. -/
def ExitTyped (func : Function) : Eval.Exit → Prop
  | .ret r => typeOf r = func.ret
  | .goto c env => func.Reachable c ∧ Typed func c [] env

theorem evalTerminator_typed (hv : func.Valid) (hb : func.Reachable b) {term : Terminator}
    (hterm : func.terminator b = some term) (h : Typed func b (func.insts b) env) :
    Succeeds (Eval.evalTerminator func env term) (ExitTyped func) := by
  have htyped := hv.terminator_typed b term hb hterm
  have hreads := fun u hu => h.reads u (hv.terminator_dominated b term hb hterm u hu)
  have hgoto : ∀ edge ∈ term.edges, Succeeds (do
      return Eval.Exit.goto edge.1 (← Eval.enter func env edge.1 edge.2)) (ExitTyped func) := by
    intro edge hedge
    obtain ⟨hreach, env', henter, h'⟩ := enter_typed hv hb hterm hedge h
    exact ⟨.goto edge.1 env', by rw [henter]; rfl, hreach, h'⟩
  cases term with
  | ret value =>
    cases value with
    | none => exact ⟨.ret .unit, rfl, htyped.symm⟩
    | some v =>
      obtain ⟨r, hr, hrty⟩ := hreads v (by simp [Terminator.uses])
      exact ⟨.ret r, by rw [Eval.evalTerminator, hr]; rfl, Option.some.inj (hrty.symm.trans htyped)⟩
  | jump target args => exact hgoto (target, args) (by simp [Terminator.edges])
  | branch cond thenBlock thenArgs elseBlock elseArgs =>
    obtain ⟨x, hx, hxty⟩ := hreads cond (by simp [Terminator.uses])
    have hbool : typeOf x = .bool := Option.some.inj (hxty.symm.trans htyped.1)
    rw [Eval.evalTerminator, hx, ok_bind]
    cases x with
    | bool value =>
      cases value
      · exact hgoto (elseBlock, elseArgs) (by simp [Terminator.edges])
      · exact hgoto (thenBlock, thenArgs) (by simp [Terminator.edges])
    | int | float | unit => cases hbool

/-! ## Whole runs -/

section Runs
variable [DoubleArith] {args : List RVal}

theorem evalBlock_typed (hv : func.Valid) (hb : func.Reachable b) (h : Typed func b [] env) :
    Succeeds (Eval.evalBlock func b env) (ExitTyped func) := by
  obtain ⟨env', hbody, h'⟩ := body_typed hv hb h
  obtain ⟨term, hterm⟩ := hv.terminated b hb
  obtain ⟨exit, hexit, hleft⟩ := evalTerminator_typed hv hb hterm h'
  exact ⟨exit, by rw [Eval.evalBlock, hbody, ok_bind, hterm]; exact hexit, hleft⟩

theorem evalFrom_typed (hv : func.Valid) (fuel : ℕ) (hb : func.Reachable b) (h : Typed func b [] env) :
    (∃ r, Eval.evalFrom func fuel b env = .ok r ∧ typeOf r = func.ret) ∨
      Eval.evalFrom func fuel b env = .error .outOfFuel := by
  induction fuel generalizing b env with
  | zero => exact .inr rfl
  | succ fuel ih =>
    obtain ⟨exit, hblock, hleft⟩ := evalBlock_typed hv hb h
    rw [Eval.evalFrom, hblock, ok_bind]
    cases exit with
    | ret r => exact .inl ⟨r, rfl, hleft⟩
    | goto c env' => exact ih hleft.1 hleft.2

theorem eval_typed (hv : func.Valid) (hargs : args.map typeOf = func.params) (fuel : ℕ) :
    (∃ r, Eval.eval func args fuel = .ok r ∧ typeOf r = func.ret) ∨
      Eval.eval func args fuel = .error .outOfFuel := by
  obtain ⟨env, hstart, h⟩ := start_typed hv hargs
  rw [Eval.eval, hstart, ok_bind]
  exact evalFrom_typed hv fuel hv.entry_reachable h

/-- What is returned is of the return type. -/
theorem eval_result_type (hv : func.Valid) (hargs : args.map typeOf = func.params) {fuel : ℕ} {r : RVal}
    (h : Eval.eval func args fuel = .ok r) : typeOf r = func.ret := by
  rcases eval_typed hv hargs fuel with ⟨r', hr', hty⟩ | hfuel
  · rw [h] at hr'
    cases hr'
    exact hty
  · rw [h] at hfuel
    cases hfuel

/-- On arguments of the parameter types the interpreter never panics on a valid function: it is cut off by
every bound on the blocks, or by none from the number of blocks on that it enters, and then returns a
value of the return type. -/
theorem eval_safe (hv : func.Valid) (hargs : args.map typeOf = func.params) :
    (∀ fuel, Eval.eval func args fuel = .error .outOfFuel) ∨
      ∃ n r, typeOf r = func.ret ∧
        ∀ fuel, Eval.eval func args fuel = if n ≤ fuel then .ok r else .error .outOfFuel := by
  classical
  by_cases hreturns : ∃ fuel r, Eval.eval func args fuel = .ok r
  · obtain ⟨r, hr⟩ := Nat.find_spec hreturns
    refine .inr ⟨Nat.find hreturns, r, eval_result_type hv hargs hr, fun fuel => ?_⟩
    by_cases hle : Nat.find hreturns ≤ fuel
    · rw [if_pos hle]
      exact Eval.eval_mono hle hr
    · rw [if_neg hle]
      refine (eval_typed hv hargs fuel).resolve_left ?_
      rintro ⟨r', hr', -⟩
      exact Nat.find_min hreturns (not_le.mp hle) ⟨r', hr'⟩
  · refine .inl fun fuel => (eval_typed hv hargs fuel).resolve_left ?_
    rintro ⟨r, hr, -⟩
    exact hreturns ⟨fuel, r, hr⟩

end Runs

/-- `fn f(u: unit) -> unit { u }`, which the translator refuses. -/
theorem unit_safe : ∃ n, ∀ fuel,
    @Eval.eval hostDouble ((Builder.new [.unit] .unit).finish ⟨0⟩) [.unit] fuel =
      if n ≤ fuel then .ok .unit else .error .outOfFuel := by
  let := hostDouble
  have hv : ((Builder.new [.unit] .unit).finish ⟨0⟩).Valid := Builder.valid (.nil _) rfl
  have hargs : [RVal.unit].map typeOf = ((Builder.new [.unit] .unit).finish ⟨0⟩).params := rfl
  rcases eval_safe hv hargs with hdiverges | ⟨n, r, hty, hreturns⟩
  · cases hdiverges 1
  · cases r with
    | unit => exact ⟨n, hreturns⟩
    | int | float | bool => cases hty

end JitLang.Translate
