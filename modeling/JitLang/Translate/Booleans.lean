import JitLang.Translate.Safety

/-! # Booleans stay canonical

A machine byte that stands for an IR `bool` is `0` or `1` in every reachable state if it is so in the
arguments: every instruction that defines one keeps it (`bool_of_lowered`), and so does every branch
that passes one to a parameter (`Canonical.bind`). Hence a conditional branch tests a truth value,
the exclusive or with the constant `1` negates one, and a function of type `bool` returns one.
-/

namespace JitLang.Translate
open Foundations Cranelift Numbers
set_option autoImplicit false

variable {func : Ir.Function} {isa : TargetIsa} {t : Translation}

/-- The stand-ins of `bool` values hold `0` or `1` where they are defined. -/
def Canonical (func : Ir.Function) (t : Translation) (env : Env) : Prop :=
  ∀ v y x, func.valueType v = some .bool → t.value v = some y → env y = some x →
    ∃ b, x = Val.ofBool b

/-- An argument of the machine type of a parameter; for a `bool`, `0` or `1`. -/
def CanonicalArg (ty : Ir.Ty) (x : Val) : Prop :=
  machineTy ty = some x.ty ∧ (ty = .bool → ∃ b, x = Val.ofBool b)

theorem Canonical.bind (ht : Translated func isa t) {env : Env} (h : Canonical func t env)
    {c : Ir.Block} {x : Cranelift.Block} (hx : t.block c = some x)
    (hnodup : (t.clif.blockParams x).Nodup)
    {vals : List Val} (hlen : (t.clif.blockParams x).length ≤ vals.length)
    (hvals : ∀ (i : ℕ) (v : Ir.Value) (val : Val), (func.blockParams c)[i]? = some v →
      func.valueType v = some .bool → vals[i]? = some val → ∃ b, val = Val.ofBool b) :
    Canonical func t (env.bind (t.clif.blockParams x) vals) := by
  intro v y val hbool hy hval
  by_cases hmem : y ∈ t.clif.blockParams x
  · obtain ⟨i, hi⟩ := List.mem_iff_getElem?.mp hmem
    rw [Env.bind_getElem? hnodup hlen hi] at hval
    have hparam := getElem?_of_map_eq (ht.params_at hx) i
    rw [hi] at hparam
    obtain ⟨w, hw, hwy⟩ := Option.map_eq_some_iff.mp hparam
    obtain rfl := ht.stands.injective v w y hy hwy
    exact hvals i v val hw hbool hval
  · rw [Env.bind_of_notMem hmem] at hval
    exact h v y val hbool hy hval

section Machine
variable [DoubleArith]

/-! ## Instructions that define a truth value -/

section Code
variable {env : Env} {x : Val} {ty operandTy : Ir.Ty} {l r : Cranelift.Value} {n i : ℕ}
  {clifInst : Cranelift.Inst}

/-- An operator with a result of type `bool` computes a truth value, from truth values if its operands
are of type `bool`. -/
theorem bool_of_binCode {op : Ir.BinOp} (hop : op.Accepts ty) (hresult : op.result ty = .bool)
    (hi : (binCode op l r operandTy n)[i]? = some clifInst) (hx : evalInst env clifInst = .ok x)
    (hoperands : ty = .bool → (∃ a, env l = some (.ofBool a)) ∧ ∃ b, env r = some (.ofBool b)) :
    ∃ b, x = .ofBool b := by
  have hlast : ∀ other, binCode op l r operandTy n = [other] → clifInst = other := by
    intro other hcode
    rw [hcode] at hi
    exact List.mem_singleton.mp (List.mem_of_getElem? hi)
  cases op with
  | add | sub | mul | div =>
    obtain rfl : ty = .bool := hresult
    rcases hop with h | h <;> cases h
  | eq | ne | lt | le | gt | ge =>
    have hcmp := hlast _ rfl
    by_cases hfloat : operandTy = .float
    · rw [if_pos hfloat] at hcmp
      exact bool_of_fcmp (hcmp ▸ hx)
    · rw [if_neg hfloat] at hcmp
      exact bool_of_icmp (hcmp ▸ hx)
  | and =>
    obtain ⟨⟨a, ha⟩, b, hb⟩ := hoperands hop
    rw [hlast _ rfl, evalInst_band ha hb] at hx
    exact ⟨_, (Except.ok.inj hx).symm⟩
  | or =>
    obtain ⟨⟨a, ha⟩, b, hb⟩ := hoperands hop
    rw [hlast _ rfl, evalInst_bor ha hb] at hx
    exact ⟨_, (Except.ok.inj hx).symm⟩

/-- Behind the constant that the code of `not` begins with, its value is there. -/
theorem bool_one {code : List Cranelift.Inst}
    (hrun : runCode n ((.iconst .i8 1 : Cranelift.Inst) :: code) env = .ok env) :
    env ⟨n⟩ = some (.ofBool true) := by
  obtain ⟨one, hone, hrest⟩ := bind_eq_ok.mp hrun
  cases hone
  rw [runCode_frame hrest (.inl (Nat.lt_succ_self n)), Env.set_self]
  rfl

theorem bool_of_unCode {op : Ir.UnOp} (hop : op.Accepts .bool)
    (hi : (unCode op l operandTy n)[i]? = some clifInst) (hx : evalInst env clifInst = .ok x)
    (hrun : runCode n ((unCode op l operandTy n).take i) env = .ok env)
    (hoperand : ∃ a, env l = some (.ofBool a)) : ∃ b, x = .ofBool b := by
  cases op with
  | neg => rcases hop with h | h <;> cases h
  | not =>
    obtain ⟨a, ha⟩ := hoperand
    match i with
    | 0 =>
      cases hi
      cases hx
      exact ⟨true, rfl⟩
    | 1 =>
      cases hi
      rw [evalInst_bxor ha (bool_one hrun)] at hx
      exact ⟨_, (Except.ok.inj hx).symm⟩
    | i + 2 => simp [unCode] at hi

/-- The code of an instruction of type `bool` computes a truth value from truth values. -/
theorem bool_of_lowered {V : Ir.Value → Option Cranelift.Value} {v : Ir.Value} {inst : Ir.Inst}
    {code : List Cranelift.Inst} (htyped : func.InstTyped v inst)
    (hbool : func.valueType v = some .bool) (h : lowerInst func V n inst = some code)
    (hi : code[i]? = some clifInst) (hx : evalInst env clifInst = .ok x)
    (hrun : runCode n (code.take i) env = .ok env)
    (huses : ∀ u ∈ inst.uses, func.valueType u = some .bool → ∀ y, V u = some y →
      ∃ b, env y = some (.ofBool b)) : ∃ b, x = .ofBool b := by
  cases inst with
  | iconst value =>
    have hty : func.valueType v = some .int := htyped
    rw [hty] at hbool
    cases hbool
  | fconst value =>
    have hty : func.valueType v = some .float := htyped
    rw [hty] at hbool
    cases hbool
  | bconst value =>
    cases h
    obtain rfl := List.mem_singleton.mp (List.mem_of_getElem? hi)
    cases hx
    exact ⟨value, by cases value <;> rfl⟩
  | un op operand =>
    obtain ⟨ty, hop, hoperand, hv⟩ := htyped
    obtain rfl : ty = .bool := Option.some.inj (hv.symm.trans hbool)
    obtain ⟨y, hy, operandTy, -, rfl⟩ := by simpa [lowerInst, Option.bind_eq_some_iff] using h
    exact bool_of_unCode hop hi hx hrun (huses operand (by simp [Ir.Inst.uses]) hoperand y hy)
  | bin op lhs rhs =>
    obtain ⟨ty, hop, hlhs, hrhs, hv⟩ := htyped
    obtain ⟨l, hl, r, hr, operandTy, -, rfl⟩ := by
      simpa [lowerInst, Option.bind_eq_some_iff] using h
    refine bool_of_binCode hop (Option.some.inj (hv.symm.trans hbool)) hi hx ?_
    rintro rfl
    exact ⟨huses lhs (by simp [Ir.Inst.uses]) hlhs l hl, huses rhs (by simp [Ir.Inst.uses]) hrhs r hr⟩

end Code

/-! ## The invariant -/

namespace Translated

theorem bool_of_definedBefore (ht : Translated func isa t) {s : State} (hinv : StateInv t.clif s)
    (hcan : Canonical func t s.env) {v : Ir.Value} (hbool : func.valueType v = some .bool)
    {y : Cranelift.Value} (hy : t.value v = some y) {i : ℕ}
    (hdef : t.clif.DefinedBefore y s.block i) (hpc : i ≤ s.pc) : ∃ b, s.env y = some (.ofBool b) := by
  obtain ⟨x, hx, -⟩ := ht.holds_standIn hinv hy hdef hpc
  obtain ⟨b, rfl⟩ := hcan v y x hbool hy hx
  exact ⟨b, hx⟩

end Translated

/-- The instruction `node` that `s` is at is number `i` in the code of the IR instruction `inst`, which
starts at instruction `start` of the block and is numbered from `n` on; the operands of type `bool` are
truth values. -/
structure AtCode (func : Ir.Function) (t : Translation) (s : State) (node : InstData) (v : Ir.Value)
    (inst : Ir.Inst) (start n : ℕ) (code : List Cranelift.Inst) (i : ℕ) : Prop where
  resolves : func.inst v = some inst
  typed : func.InstTyped v inst
  lowered : lowerInst func t.value n inst = some code
  pc : s.pc = start + i
  here : code[i]? = some node.inst
  result : node.result = some ⟨n + i⟩
  placed : ∀ (j : ℕ) (other : Cranelift.Inst), code[j]? = some other →
    (t.clif.blockInsts s.block)[start + j]? = some ⟨some ⟨n + j⟩, other⟩
  executed : runCode n (code.take i) s.env = .ok s.env
  standIn : t.value v = some (lastValue n code)
  only : ∀ w y, t.value w = some y → node.result = some y → w = v
  operands : ∀ u ∈ inst.uses, func.valueType u = some .bool → ∀ y, t.value u = some y →
    ∃ b, s.env y = some (.ofBool b)

namespace Translated

theorem atCode (ht : Translated func isa t) (hv : func.Valid) {s : State}
    (hinv : StateInv t.clif s) (hcan : Canonical func t s.env) {node : InstData}
    (hnode : (t.clif.blockInsts s.block)[s.pc]? = some node) (hterm : ¬ node.inst.IsTerminator) :
    ∃ v inst start n code i, AtCode func t s node v inst start n code i := by
  obtain ⟨c, n, nodes, term, last, hc, hreach, hemit, hplace⟩ := ht.at_node hinv hnode
  rcases hplace with hnode | ⟨-, rfl⟩
  · obtain ⟨before, v, nodes₁, inst, code, i, hpiece, hpc, hcode, hresult⟩ :=
      hemit.lowers.exists_piece_of_node hnode
    obtain ⟨after, hsplit⟩ := hpiece.split
    have hlt := (List.getElem?_eq_some_iff.mp hcode).1
    refine ⟨v, inst, nodes₁.length, n + nodes₁.length, code, i, hpiece.resolves,
      hv.inst_typed c hreach v (by rw [hsplit]; simp) inst hpiece.resolves, hpiece.lowered, hpc, hcode,
      by rw [hresult, hpc, Nat.add_assoc], fun j other hj => ?_,
      hpiece.executed hinv hemit.insts hpc.ge, hpiece.standIn, ?_, ?_⟩
    · have hat := hpiece.getElem? hj
      rw [hemit.insts, List.getElem?_append_left (List.getElem?_eq_some_iff.mp hat).1, hat]
    · intro w y hw hy
      rw [hresult] at hy
      obtain rfl := Option.some.inj hy
      refine hpiece.only w _ hw ?_ ?_
      · show n + nodes₁.length ≤ n + s.pc
        omega
      · show n + s.pc < n + nodes₁.length + code.length
        omega
    · intro u hu hbool y hy
      have hdef := ht.operand_definedBefore hv hc hpiece hsplit hemit.insts hu hy
      exact ht.bool_of_definedBefore hinv hcan hbool hy hdef (by omega)
  · exact absurd (lowerTerminator_isTerminator hemit.lowered) hterm

theorem bool_terminator (ht : Translated func isa t) (hv : func.Valid) {s : State}
    (hinv : StateInv t.clif s) (hcan : Canonical func t s.env) {node : InstData}
    (hnode : (t.clif.blockInsts s.block)[s.pc]? = some node) (hterm : node.inst.IsTerminator) :
    ∃ term, func.TerminatorTyped term ∧ TerminatorImage t term node.inst ∧
      ∀ u ∈ term.uses, func.valueType u = some .bool → ∀ y, t.value u = some y →
        ∃ b, s.env y = some (.ofBool b) := by
  obtain ⟨c, n, nodes, term, last, hc, hreach, hemit, hplace⟩ := ht.at_node hinv hnode
  rcases hplace with hnode | ⟨hpc, rfl⟩
  · exact absurd hterm (hemit.not_isTerminator (List.mem_of_getElem? hnode))
  · refine ⟨term, hv.terminator_typed c term hreach hemit.terminator,
      terminatorImage_of_lowered hemit.lowered, fun u hu hbool y hy => ?_⟩
    have hdef := ht.terminator_definedBefore hv hc hemit hu hy
    exact ht.bool_of_definedBefore hinv hcan hbool hy hdef hpc.ge

theorem canonical_step (ht : Translated func isa t) (hv : func.Valid) {s s' : State}
    (hinv : StateInv t.clif s) (hcan : Canonical func t s.env)
    (hstep : Cranelift.step t.clif s = .run s') : Canonical func t s'.env := by
  cases hinv.outcome (ht.ssa hv) (ht.wellTyped hv) with
  | @next node w x hnode hterm hresult hx hty hrun =>
    rw [hrun] at hstep
    cases hstep
    obtain ⟨v, inst, start, n, code, i, hat⟩ := ht.atCode hv hinv hcan hnode hterm
    intro v' y val hbool hy hval
    by_cases hyw : y = w
    · subst hyw
      obtain rfl := hat.only v' y hy hresult
      obtain rfl : x = val := by simpa using hval
      exact bool_of_lowered hat.typed hbool hat.lowered hat.here hx hat.executed hat.operands
    · exact hcan v' y val hbool hy ((Env.set_ne _ _ hyw).symm.trans hval)
  | @enter node call vals hnode hterm hcall hmem hvals htypes hrun =>
    rw [hrun] at hstep
    cases hstep
    obtain ⟨term, htyped, himage, huses⟩ := ht.bool_terminator hv hinv hcan hnode hterm
    obtain ⟨edge, hedge, hblock, hargs⟩ := forall₂_exists_left himage.calls hcall
    have hlen := congrArg List.length htypes
    rw [List.length_map, List.length_map] at hlen
    refine hcan.bind ht hblock ((ht.ssa hv).params_nodup hmem) hlen.ge ?_
    intro i v val hi hbool hval
    -- The argument at the parameter's position is a `bool`, so its value is a truth value.
    have htypedEdge := getElem?_of_map_eq (htyped.edge hedge) i
    rw [hi] at htypedEdge
    obtain ⟨u, hu, hutype⟩ := Option.map_eq_some_iff.mp htypedEdge
    have harg := getElem?_of_map_eq hargs i
    rw [hu] at harg
    obtain ⟨y, hy, huy⟩ := Option.map_eq_some_iff.mp harg.symm
    obtain ⟨b, hb⟩ := huses u (Ir.Terminator.uses_of_edge hedge (List.mem_of_getElem? hu))
      (hutype.trans hbool) y huy.symm
    obtain ⟨val', hval', hread⟩ := mapM_getElem? hvals hy
    rw [hval] at hval'
    cases hval'
    rw [read_of_some hb] at hread
    exact ⟨b, (Except.ok.inj hread).symm⟩
  | done _ _ _ hdone => rw [hdone] at hstep; cases hstep
  | trap _ _ _ htrap => rw [htrap] at hstep; cases hstep

theorem canonical_run (ht : Translated func isa t) (hv : func.Valid) {args : List Val}
    (hargs : List.Forall₂ CanonicalArg func.params args) {s : State}
    (hs : Reaches t.clif args s) : Canonical func t s.env := by
  have htypes := ht.args_typed (hargs.imp fun _ _ h => h.1)
  induction hs with
  | start he hlen =>
    obtain rfl := Option.some.inj (he.symm.trans ht.entry.1)
    have hempty : Canonical func t Env.empty := fun _ _ _ _ _ hx => by cases hx
    have hmem := Function.Ssa.mem_layout_of_entry ht.entry.1
    refine hempty.bind ht ht.entry.2 ((ht.ssa hv).params_nodup hmem) hlen.ge ?_
    intro i v val hi hbool hval
    -- The parameters of the entry block have the types of the function's parameters.
    have hparam := getElem?_of_map_eq hv.entry_params i
    rw [hi] at hparam
    obtain ⟨ty, hty, hvty⟩ := Option.map_eq_some_iff.mp hparam.symm
    have hty' : ty = .bool := Option.some.inj (hvty.trans hbool)
    exact (forall₂_getElem? hargs hty hval).2 hty'
  | step hs hstep ih => exact ht.canonical_step hv (hs.inv (ht.ssa hv) (ht.wellTyped hv) htypes) ih hstep

end Translated

/-- What canonical booleans mean for a state: the stand-ins of `bool` values hold truth values, a
conditional branch tests one, `not` negates one by an exclusive or with the constant `1` before it, `eq`
and `ne` on `bool` compare two, and the result of a function of type `bool` is one. -/
structure BoolsCanonical (func : Ir.Function) (t : Translation) (s : State) : Prop where
  values : Canonical func t s.env
  branch : ∀ node c thenDest elseDest, (t.clif.blockInsts s.block)[s.pc]? = some node →
    node.inst = .brif c thenDest elseDest → ∃ b, s.env c = some (.ofBool b)
  not : ∀ node v y operand, (t.clif.blockInsts s.block)[s.pc]? = some node →
    node.result = some y → t.value v = some y → func.inst v = some (.un .not operand) →
    ∃ x one b j, t.value operand = some x ∧ s.env x = some (.ofBool b) ∧ s.pc = j + 1 ∧
      (t.clif.blockInsts s.block)[j]? = some ⟨some one, .iconst .i8 1⟩ ∧ s.env one = some (.i8 1) ∧
      node.inst = .binary .bxor x one ∧ evalInst s.env node.inst = .ok (.ofBool !b)
  eq : ∀ node v y lhs rhs, (t.clif.blockInsts s.block)[s.pc]? = some node →
    node.result = some y → t.value v = some y → func.inst v = some (.bin .eq lhs rhs) →
    func.valueType lhs = some .bool →
    ∃ l r a b, t.value lhs = some l ∧ t.value rhs = some r ∧ s.env l = some (.ofBool a) ∧
      s.env r = some (.ofBool b) ∧ evalInst s.env node.inst = .ok (.ofBool (a == b))
  ne : ∀ node v y lhs rhs, (t.clif.blockInsts s.block)[s.pc]? = some node →
    node.result = some y → t.value v = some y → func.inst v = some (.bin .ne lhs rhs) →
    func.valueType lhs = some .bool →
    ∃ l r a b, t.value lhs = some l ∧ t.value rhs = some r ∧ s.env l = some (.ofBool a) ∧
      s.env r = some (.ofBool b) ∧ evalInst s.env node.inst = .ok (.ofBool (a != b))
  returned : func.ret = .bool → ∀ vals, Cranelift.step t.clif s = .done vals →
    ∃ b, vals = [.ofBool b]

namespace Translated
variable {s : State}

theorem bool_branch (ht : Translated func isa t) (hv : func.Valid) (hinv : StateInv t.clif s)
    (hcan : Canonical func t s.env) {node : InstData} {c : Cranelift.Value}
    {thenDest elseDest : BlockCall} (hnode : (t.clif.blockInsts s.block)[s.pc]? = some node)
    (hbrif : node.inst = .brif c thenDest elseDest) : ∃ b, s.env c = some (.ofBool b) := by
  have hterm : node.inst.IsTerminator := by
    rw [hbrif]
    trivial
  obtain ⟨term, htyped, himage, huses⟩ := ht.bool_terminator hv hinv hcan hnode hterm
  rw [hbrif] at himage
  cases himage with
  | branch hc => exact huses _ (by simp [Ir.Terminator.uses]) htyped.1 c hc

theorem bool_returned (ht : Translated func isa t) (hv : func.Valid) (hinv : StateInv t.clif s)
    (hcan : Canonical func t s.env) (hret : func.ret = .bool) {vals : List Val}
    (hdone : Cranelift.step t.clif s = .done vals) : ∃ b, vals = [.ofBool b] := by
  cases hinv.outcome (ht.ssa hv) (ht.wellTyped hv) with
  | next _ _ _ _ _ hrun => rw [hrun] at hdone; cases hdone
  | enter _ _ _ _ _ _ hrun => rw [hrun] at hdone; cases hdone
  | trap _ _ _ htrap => rw [htrap] at hdone; cases hdone
  | @done args vals' hnode hvals _ hstep =>
    rw [hstep] at hdone
    cases hdone
    obtain ⟨term, htyped, himage, huses⟩ := ht.bool_terminator hv hinv hcan hnode trivial
    cases himage with
    | @ret value _ hargs =>
      cases value with
      | none =>
        have hunit : func.ret = .unit := htyped
        rw [hret] at hunit
        cases hunit
      | some v =>
        have hty : func.valueType v = some func.ret := htyped
        obtain ⟨y, rfl, hy⟩ := map_singleton_eq_some hargs
        obtain ⟨b, hb⟩ := huses v (by simp [Ir.Terminator.uses]) (hty.trans (by rw [hret])) y hy
        refine ⟨b, ?_⟩
        simpa [read_of_some hb] using hvals.symm

/-- The instruction that defines the stand-in of `v` is the last one of the code of `v`'s instruction. -/
theorem bool_definition (ht : Translated func isa t) (hv : func.Valid) (hinv : StateInv t.clif s)
    (hcan : Canonical func t s.env) {node : InstData}
    (hnode : (t.clif.blockInsts s.block)[s.pc]? = some node) {v : Ir.Value} {inst : Ir.Inst}
    {y : Cranelift.Value} (hresult : node.result = some y) (hy : t.value v = some y)
    (hinst : func.inst v = some inst) :
    ∃ start n code i, AtCode func t s node v inst start n code i ∧ i + 1 = code.length := by
  have hterm : ¬ node.inst.IsTerminator := by
    intro hterm
    have hnone := ((ht.wellTyped hv).terminators s.block hinv.block node
      (List.mem_of_getElem? hnode) hterm).1
    rw [hresult] at hnone
    cases hnone
  obtain ⟨v', inst', start, n, code, i, hat⟩ := ht.atCode hv hinv hcan hnode hterm
  obtain rfl := hat.only v y hy hresult
  obtain rfl := Option.some.inj (hat.resolves.symm.trans hinst)
  refine ⟨start, n, code, i, hat, ?_⟩
  have hlt := (List.getElem?_eq_some_iff.mp hat.here).1
  have hlast : n + i = n + code.length - 1 := by
    have hvalues := (hat.result.symm.trans hresult).trans (hy.symm.trans hat.standIn)
    exact congrArg Cranelift.Value.index (Option.some.inj hvalues)
  omega

theorem bool_not (ht : Translated func isa t) (hv : func.Valid) (hinv : StateInv t.clif s)
    (hcan : Canonical func t s.env) {node : InstData}
    (hnode : (t.clif.blockInsts s.block)[s.pc]? = some node) {v operand : Ir.Value}
    {y : Cranelift.Value} (hresult : node.result = some y) (hy : t.value v = some y)
    (hnot : func.inst v = some (.un .not operand)) :
    ∃ x one b j, t.value operand = some x ∧ s.env x = some (.ofBool b) ∧ s.pc = j + 1 ∧
      (t.clif.blockInsts s.block)[j]? = some ⟨some one, .iconst .i8 1⟩ ∧ s.env one = some (.i8 1) ∧
      node.inst = .binary .bxor x one ∧ evalInst s.env node.inst = .ok (.ofBool !b) := by
  obtain ⟨start, n, code, i, hat, hi⟩ := ht.bool_definition hv hinv hcan hnode hresult hy hnot
  obtain ⟨ty, rfl, hoperand, -⟩ := hat.typed
  obtain ⟨x, hx, ty, -, rfl⟩ := by simpa [lowerInst, Option.bind_eq_some_iff] using hat.lowered
  obtain rfl : i = 1 := by simpa [unCode] using hi
  have hinst : node.inst = .binary .bxor x ⟨n⟩ := (Option.some.inj hat.here).symm
  obtain ⟨b, hb⟩ := hat.operands operand (by simp [Ir.Inst.uses]) hoperand x hx
  have hone := bool_one hat.executed
  refine ⟨x, ⟨n⟩, b, start, hx, hb, hat.pc, hat.placed 0 _ rfl, hone, hinst, ?_⟩
  rw [hinst, evalInst_bxor hb hone, Bool.xor_true]

theorem bool_compare (ht : Translated func isa t) (hv : func.Valid) (hinv : StateInv t.clif s)
    (hcan : Canonical func t s.env) {node : InstData}
    (hnode : (t.clif.blockInsts s.block)[s.pc]? = some node) {v lhs rhs : Ir.Value} {op : Ir.BinOp}
    {y : Cranelift.Value} (hresult : node.result = some y) (hy : t.value v = some y)
    (hinst : func.inst v = some (.bin op lhs rhs)) (hbool : func.valueType lhs = some .bool)
    {cc : IntCC} (hop : ∀ l r n, binCode op l r .bool n = [.icmp cc l r]) :
    ∃ l r a b, t.value lhs = some l ∧ t.value rhs = some r ∧ s.env l = some (.ofBool a) ∧
      s.env r = some (.ofBool b) ∧ node.inst = .icmp cc l r := by
  obtain ⟨start, n, code, i, hat, -⟩ := ht.bool_definition hv hinv hcan hnode hresult hy hinst
  obtain ⟨ty, -, hlhs, hrhs, -⟩ := hat.typed
  obtain rfl := Option.some.inj (hlhs.symm.trans hbool)
  obtain ⟨l, hl, r, hr, ty, hty, rfl⟩ := by
    simpa [lowerInst, Option.bind_eq_some_iff] using hat.lowered
  obtain rfl := Option.some.inj (hty.symm.trans hbool)
  have hi := hat.here
  rw [hop] at hi
  obtain ⟨a, ha⟩ := hat.operands lhs (by simp [Ir.Inst.uses]) hbool l hl
  obtain ⟨b, hb⟩ := hat.operands rhs (by simp [Ir.Inst.uses]) hrhs r hr
  exact ⟨l, r, a, b, hl, hr, ha, hb, List.mem_singleton.mp (List.mem_of_getElem? hi)⟩

theorem boolsCanonical (ht : Translated func isa t) (hv : func.Valid) (hinv : StateInv t.clif s)
    (hcan : Canonical func t s.env) : BoolsCanonical func t s where
  values := hcan
  branch _ _ _ _ hnode hbrif := ht.bool_branch hv hinv hcan hnode hbrif
  not _ _ _ _ hnode hresult hy hnot := ht.bool_not hv hinv hcan hnode hresult hy hnot
  eq node _ _ _ _ hnode hresult hy heq hbool := by
    obtain ⟨l, r, a, b, hl, hr, ha, hb, hinst⟩ :=
      ht.bool_compare hv hinv hcan hnode hresult hy heq hbool fun _ _ _ => rfl
    exact ⟨l, r, a, b, hl, hr, ha, hb, by rw [hinst, evalInst_equal ha hb]⟩
  ne node _ _ _ _ hnode hresult hy hne hbool := by
    obtain ⟨l, r, a, b, hl, hr, ha, hb, hinst⟩ :=
      ht.bool_compare hv hinv hcan hnode hresult hy hne hbool fun _ _ _ => rfl
    exact ⟨l, r, a, b, hl, hr, ha, hb, by rw [hinst, evalInst_notEqual ha hb]⟩
  returned hret _ hdone := ht.bool_returned hv hinv hcan hret hdone

end Translated
end Machine

/-- On arguments that are `0` or `1` where the parameters are of type `bool`, the produced function starts,
and every state of every run of it has canonical booleans. -/
theorem translate_booleans_canonical [DoubleArith] (hv : func.Valid) {clif : Cranelift.Function}
    (h : translate func isa = .ok clif) {args : List Val}
    (hargs : List.Forall₂ CanonicalArg func.params args) :
    ∃ t, translation func isa = .ok t ∧ t.clif = clif ∧ (∃ s, Reaches clif args s) ∧
      ∀ s, Reaches clif args s → BoolsCanonical func t s := by
  obtain ⟨t, htrans, rfl, ht⟩ := translated_of_ok hv h
  have htypes := ht.args_typed (hargs.imp fun _ _ harg => harg.1)
  refine ⟨t, htrans, rfl, ⟨_, .start ht.entry.1 (ht.args_length hv htypes)⟩, fun s hs => ?_⟩
  exact ht.boolsCanonical hv (hs.inv (ht.ssa hv) (ht.wellTyped hv) htypes)
    (ht.canonical_run hv hargs hs)

theorem halvings_booleans_canonical : ∃ clif, translate Ir.halvings ⟨⟨0⟩⟩ = .ok clif ∧
    ∃ t, translation Ir.halvings ⟨⟨0⟩⟩ = .ok t ∧ t.clif = clif ∧
      (∃ s, @Reaches clif hostDouble [.i64 100, .i8 1] s) ∧
      ∀ s, @Reaches clif hostDouble [.i64 100, .i8 1] s →
        @BoolsCanonical hostDouble Ir.halvings t s := by
  obtain ⟨clif, hclif⟩ := halvings_translates
  let _ := hostDouble
  have hargs : List.Forall₂ CanonicalArg Ir.halvings.params [.i64 100, .i8 1] :=
    .cons ⟨rfl, by rintro ⟨⟩⟩ (.cons ⟨rfl, fun _ => ⟨true, rfl⟩⟩ .nil)
  exact ⟨clif, hclif, translate_booleans_canonical Ir.halvings.valid hclif hargs⟩

end JitLang.Translate
