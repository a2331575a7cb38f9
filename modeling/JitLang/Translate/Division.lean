import JitLang.Translate.Simulation

/-! # Integer division and remainder

`emit_int_div` in any builder, on any two words: the nine instructions it appends, run from where they were
inserted, never stop before their end, let `sdiv` see no divisor `0` or `-1`, and leave the
truncated quotient of the integers.

There is no remainder operator; `a - b * (a / b)` spells it. Wherever a block spells it, the value it
leaves is the remainder of the integers.
-/

namespace JitLang.Translate
open Foundations Cranelift Numbers
set_option autoImplicit false

/-! ## The guarded division -/

/-- The state at the place of the next insertion into block `blk`. -/
def insertionPoint (builder : Builder) (blk : Cranelift.Block) (env : Env) : State :=
  ⟨blk, (builder.func.blockInsts blk).length, env⟩

theorem intDiv_eq_truncatedQuotient (a b : BitVec 64) :
    Ir.Eval.intDiv a b = truncatedQuotient a b := (truncatedQuotient_eq a b).symm

/-- The only `sdiv` of the code is its seventh instruction. -/
theorem sdiv_at {l r x y : Cranelift.Value} {n i : ℕ} {node : InstData}
    (hnode : (number n (intDivCode l r n))[i]? = some node) (hdiv : node.inst = .binary .sdiv x y) :
    i = 6 ∧ y = ⟨n + 5⟩ := by
  rw [number_getElem?] at hnode
  obtain ⟨inst, hinst, rfl⟩ := Option.map_eq_some_iff.mp hnode
  obtain rfl : inst = .binary .sdiv x y := hdiv
  match i with
  | 0 | 1 | 2 | 3 | 4 | 5 | 7 | 8 => cases hinst
  | 6 =>
    cases hinst
    exact ⟨rfl, rfl⟩
  | i + 9 => simp [intDivCode] at hinst

section GuardedDivision
variable {builder builder' : Builder} {blk : Cranelift.Block} {l r q : Cranelift.Value}

theorem emitIntDiv_appends (hemit : emitIntDiv builder l r = (q, builder'))
    (hpos : builder.position = some blk) (hblk : blk.index < builder.func.blocks.length)
    (hrt : builder.func.valueType r = some .i64) :
    builder'.func.blockInsts blk = builder.func.blockInsts blk ++
      number builder.nextValue.index (intDivCode l r builder.nextValue.index) := by
  rw [emitIntDiv_eq builder hrt] at hemit
  cases hemit
  rw [(Builder.insAll_appends hpos hblk _).insts, if_pos rfl]

variable [DoubleArith] {env : Env} {a b : BitVec 64}

theorem emitIntDiv_run (hemit : emitIntDiv builder l r = (q, builder'))
    (hpos : builder.position = some blk) (hblk : blk.index < builder.func.blocks.length)
    (hlt : builder.func.valueType l = some .i64) (hrt : builder.func.valueType r = some .i64)
    (hl : env l = some (.i64 a)) (hr : env r = some (.i64 b)) :
    ∃ env', Within builder'.func (insertionPoint builder blk env)
        (insertionPoint builder' blk env') ∧ env' q = some (.i64 (truncatedQuotient a b)) := by
  obtain ⟨env', hrun, hlast⟩ := intDivCode_computes hl hr (HasType.lt hlt) (HasType.lt hrt)
  have happ := emitIntDiv_appends hemit hpos hblk hrt
  have hnext : (builder'.func.blockInsts blk).drop (builder.func.blockInsts blk).length =
      number builder.nextValue.index (intDivCode l r builder.nextValue.index) ++ [] := by
    rw [happ, List.drop_left, List.append_nil]
  have hwithin := Within.code (s := insertionPoint builder blk env) hnext hrun
  refine ⟨env', ?_, ?_⟩
  · rw [insertionPoint, insertionPoint, happ, List.length_append, number_length]
    exact hwithin
  · rw [emitIntDiv_eq builder hrt] at hemit
    cases hemit
    rw [← intDiv_eq_truncatedQuotient]
    exact hlast

/-- Before the `sdiv`, its divisor is the one the guard selected. -/
theorem emitIntDiv_guard (hemit : emitIntDiv builder l r = (q, builder'))
    (hpos : builder.position = some blk) (hblk : blk.index < builder.func.blocks.length)
    (hrt : builder.func.valueType r = some .i64) (hr : env r = some (.i64 b)) :
    ∃ env', Within builder'.func (insertionPoint builder blk env)
        ⟨blk, (builder.func.blockInsts blk).length + 6, env'⟩ ∧
      env' ⟨builder.nextValue.index + 5⟩ = some (.i64 (safeDivisor b)) := by
  obtain ⟨env', hrun, -, hdivisor⟩ := intDivGuard_run hr (HasType.lt hrt)
  have happ := emitIntDiv_appends hemit hpos hblk hrt
  rw [intDivCode_eq, number_append] at happ
  obtain ⟨rest, hnext⟩ : ∃ rest, (builder'.func.blockInsts blk).drop
      (builder.func.blockInsts blk).length =
        number builder.nextValue.index (intDivGuard r builder.nextValue.index) ++ rest :=
    ⟨_, by rw [happ, List.drop_left]⟩
  exact ⟨env', Within.code (s := insertionPoint builder blk env) hnext hrun, hdivisor⟩

/-- For all words `a` and `b`, the code `emit_int_div` appends runs to its end and leaves their
quotient: `0` for the divisor `0`, else the quotient of the integers truncated toward zero, reduced to
the word, which changes it for the least word by `-1` only. On the way there is always a next step, and
the divisor of the `sdiv` is neither `0` nor `-1`. -/
theorem emitIntDiv_exact (hemit : emitIntDiv builder l r = (q, builder'))
    (hpos : builder.position = some blk) (hblk : blk.index < builder.func.blocks.length)
    (hlt : builder.func.valueType l = some .i64) (hrt : builder.func.valueType r = some .i64)
    (hl : env l = some (.i64 a)) (hr : env r = some (.i64 b)) :
    builder'.func.blockInsts blk = builder.func.blockInsts blk ++
      number builder.nextValue.index (intDivCode l r builder.nextValue.index) ∧
    (∃ env' quotient, Within builder'.func (insertionPoint builder blk env)
        (insertionPoint builder' blk env') ∧ env' q = some (.i64 quotient) ∧
      (b = 0 → quotient = 0) ∧
      (b ≠ 0 → quotient = BitVec.ofInt 64 (a.toInt.tdiv b.toInt)) ∧
      (a = BitVec.intMin 64 → b = -1 → quotient = BitVec.intMin 64) ∧
      (b ≠ 0 → ¬ (a = BitVec.intMin 64 ∧ b = -1) → quotient.toInt = a.toInt.tdiv b.toInt)) ∧
    ∀ s, Within builder'.func (insertionPoint builder blk env) s →
      (s.pc < (builder'.func.blockInsts blk).length →
        ∃ s', Cranelift.step builder'.func s = .run s') ∧
      ∀ node x y, (builder'.func.blockInsts blk)[s.pc]? = some node →
        node.inst = .binary .sdiv x y →
        ∃ divisor, s.env y = some (.i64 divisor) ∧ divisor ≠ 0 ∧ divisor ≠ -1 := by
  have happ := emitIntDiv_appends hemit hpos hblk hrt
  obtain ⟨env', hwithin, hquotient⟩ := emitIntDiv_run hemit hpos hblk hlt hrt hl hr
  obtain ⟨env₆, hguard, hdivisor⟩ := emitIntDiv_guard hemit hpos hblk hrt hr
  refine ⟨happ, ⟨env', _, hwithin, hquotient, ?_, ?_, ?_, truncatedQuotient_toInt⟩,
    fun s hs => ⟨fun hlt => hs.step_of_lt hwithin hlt, ?_⟩⟩
  · exact fun hb => if_pos hb
  · exact fun hb => if_neg hb
  · rintro rfl rfl
    rw [truncatedQuotient_neg_one (by decide)]
    rfl
  · intro node x y hnode hdiv
    have hle : (builder.func.blockInsts blk).length ≤ s.pc := hs.pc_le
    rw [happ, List.getElem?_append_right hle] at hnode
    obtain ⟨hindex, rfl⟩ := sdiv_at hnode hdiv
    obtain rfl := hs.eq_at hguard (show s.pc = (builder.func.blockInsts blk).length + 6 by omega)
    exact ⟨_, hdivisor, safeDivisor_ne_zero (by decide) b, safeDivisor_ne_neg_one (by decide) b⟩

end GuardedDivision

/-- A builder at the start of a block with two integer parameters. -/
def twoWords : Builder :=
  (((Builder.withNameSignature ⟨0, 0⟩ ⟨⟨0⟩, [], []⟩).createBlock.2.appendBlockParam ⟨0⟩
    .i64).appendBlockParam ⟨0⟩ .i64).switchToBlock ⟨0⟩

theorem twoWords_least_by_neg_one : ∃ env',
    @Within hostDouble (emitIntDiv twoWords ⟨0⟩ ⟨1⟩).2.func
      ⟨⟨0⟩, 0, Env.empty.bind [⟨0⟩, ⟨1⟩] [.i64 (BitVec.intMin 64), .i64 (-1)]⟩ ⟨⟨0⟩, 9, env'⟩ ∧
    env' (emitIntDiv twoWords ⟨0⟩ ⟨1⟩).1 = some (.i64 (BitVec.intMin 64)) := by
  let _ := hostDouble
  have hposition : twoWords.position = some ⟨0⟩ := rfl
  have hl : Env.empty.bind [⟨0⟩, ⟨1⟩] [.i64 (BitVec.intMin 64), .i64 (-1)] ⟨0⟩ =
      some (.i64 (BitVec.intMin 64)) := rfl
  obtain ⟨-, ⟨env', quotient, hwithin, hquotient, -, -, hleast, -⟩, -⟩ :=
    emitIntDiv_exact (Prod.mk.eta (p := emitIntDiv twoWords ⟨0⟩ ⟨1⟩)).symm hposition (by decide)
      rfl rfl hl (b := -1) rfl
  have hquotient := hquotient.trans (by rw [hleast rfl rfl])
  exact ⟨env', hwithin, hquotient⟩

/-! ## The composed remainder -/

/-- Block `c` computes `m` as `a - b * (a / b)`, on integers. -/
def SpellsRemainder (func : Ir.Function) (c : Ir.Block) (a b m : Ir.Value) : Prop :=
  func.valueType a = some .int ∧ ∃ q p, (q ∈ func.insts c ∧ p ∈ func.insts c ∧ m ∈ func.insts c) ∧
    func.inst q = some (.bin .div a b) ∧ func.inst p = some (.bin .mul b q) ∧
    func.inst m = some (.bin .sub a p)

/-- In state `s` the stand-in of `v` holds the word `x`. -/
def HoldsWord (t : Translation) (s : State) (v : Ir.Value) (x : BitVec 64) : Prop :=
  ∃ y, t.value v = some y ∧ s.env y = some (.i64 x)

/-- State `s` is past the instruction of the current block that defines the stand-in of `v`. -/
def Executed (t : Translation) (s : State) (v : Ir.Value) : Prop :=
  ∃ j node y, j < s.pc ∧ (t.clif.blockInsts s.block)[j]? = some node ∧ node.result = some y ∧
    t.value v = some y

section Remainder
variable {func : Ir.Function}

/-- What may be read of the block's own instructions comes before. -/
theorem mem_before_of_available (hv : func.Valid) {c : Ir.Block}
    (hc : func.Reachable c) {u : Ir.Value} (hu : u ∈ func.insts c) {before : List Ir.Value}
    (h : func.Available c before u) : u ∈ before := by
  rcases h with h | h | ⟨d, hne, hd, h⟩
  · exact absurd hu ((List.nodup_append'.mp (hv.defs_nodup c hc)).2.2 h)
  · exact h
  · exact absurd (hv.defs_disjoint d c (hc.of_dominates hd) hc u h (List.mem_append_right _ hu)) hne

/-- The code of an operand from the same block, within the code before its use. -/
theorem Piece.operand (hv : func.Valid) {c : Ir.Block} (hc : func.Reachable c) {n : ℕ}
    {V : Ir.Value → Option Cranelift.Value} {vs before after : List Ir.Value}
    {nodes nodes₁ : List InstData} {v : Ir.Value} {inst : Ir.Inst} {code : List Cranelift.Inst}
    (hpiece : Piece func V n vs nodes before v nodes₁ inst code)
    (hsplit : func.insts c = before ++ v :: after) {u : Ir.Value} (huse : u ∈ inst.uses)
    (hu : u ∈ func.insts c) {inst' : Ir.Inst} (hinst' : func.inst u = some inst') :
    ∃ before' after' nodes₂ code', func.insts c = before' ++ u :: after' ∧
      Piece func V n before nodes₁ before' u nodes₂ inst' code' := by
  have hav := hv.inst_dominated c hc before v after hsplit inst hpiece.resolves u huse
  obtain ⟨before', after', rfl⟩ := List.append_of_mem (mem_before_of_available hv hc hu hav)
  obtain ⟨nodes₂, inst'', code', hpiece'⟩ := hpiece.lowers.exists_piece rfl
  obtain rfl := Option.some.inj (hpiece'.resolves.symm.trans hinst')
  exact ⟨before', after' ++ v :: after, nodes₂, code', by rw [hsplit]; simp, hpiece'⟩

variable {isa : TargetIsa} {t : Translation} {s : State}

/-- A state past an instruction's definition is past all of its code. -/
theorem Piece.past_of_executed {c : Ir.Block} {n : ℕ} {nodes : List InstData} {term : Ir.Terminator}
    {last : Cranelift.Inst}
    {before : List Ir.Value} {v : Ir.Value} {nodes₁ : List InstData} {inst : Ir.Inst}
    {code : List Cranelift.Inst}
    (hpiece : Piece func t.value n (func.insts c) nodes before v nodes₁ inst code)
    (hemit : Emitted func t.block t.value t.clif s.block c n nodes term last)
    (hexec : Executed t s v) : nodes₁.length + code.length ≤ s.pc := by
  obtain ⟨j, node, y, hj, hnode, hresult, hy⟩ := hexec
  have hpos := List.length_pos_of_ne_nil (lowerInst_ne_nil hpiece.lowered)
  obtain rfl := Option.some.inj (hpiece.standIn.symm.trans hy)
  rw [hemit.insts] at hnode
  rcases Nat.lt_or_ge j nodes.length with hlt | hge
  · rw [List.getElem?_append_left hlt] at hnode
    have hindex := (hemit.lowers.result_of_node hnode).symm.trans hresult
    simp only [lastValue, Option.some.injEq, Cranelift.Value.mk.injEq] at hindex
    omega
  · rw [List.getElem?_append_right hge] at hnode
    rw [List.mem_singleton.mp (List.mem_of_getElem? hnode)] at hresult
    cases hresult

theorem remFn_translates (isa : TargetIsa) :
    ∃ t, translation Ir.remFn isa = .ok t ∧ Translated Ir.remFn isa t := by
  refine translation_ok isa Ir.remFn.valid ?_
  rintro (h | ⟨c, -, v, -, hty⟩)
  · revert h
    decide
  · have hmem := List.mem_of_getElem? hty
    revert hmem
    decide

variable [DoubleArith]

/-- An executed operator on words has left its result. -/
theorem Piece.holdsWord {n : ℕ} {vs before : List Ir.Value} {nodes nodes₁ rest : List InstData}
    {v lhs rhs : Ir.Value} {op : Ir.BinOp} {code : List Cranelift.Inst}
    (hpiece : Piece func t.value n vs nodes before v nodes₁ (.bin op lhs rhs) code)
    (hinv : StateInv t.clif s) (hinsts : t.clif.blockInsts s.block = nodes ++ rest)
    (hpc : nodes₁.length + code.length ≤ s.pc) (hop : op.Accepts .int)
    (hint : func.valueType lhs = some .int) {a b res : BitVec 64} (hl : HoldsWord t s lhs a)
    (hr : HoldsWord t s rhs b) (hres : Ir.Eval.binary op (.int a) (.int b) = .ok (.int res)) :
    HoldsWord t s v res := by
  obtain ⟨y, hy, hly⟩ := hl
  obtain ⟨z, hz, hrz⟩ := hr
  have hbelow : ∀ u x, u ∈ [lhs, rhs] → t.value u = some x → x.index < n + nodes₁.length := by
    intro u x hu hx
    obtain ⟨x', hx', hlt⟩ := hpiece.operands u hu
    rwa [← Option.some.inj (hx.symm.trans hx')] at hlt
  have hcode : binCode op y z .int (n + nodes₁.length) = code := by
    simpa [lowerInst, hy, hz, hint] using hpiece.lowered
  obtain ⟨res', x, hres', henc, hcomputes⟩ := binCode_computes hop hly hrz (.int a) (.int b)
    (hbelow lhs y (by simp) hy) (hbelow rhs z (by simp) hz)
  obtain rfl := Except.ok.inj (hres.symm.trans hres')
  rw [hcode] at hcomputes
  obtain ⟨env', hrun, hlast⟩ := hcomputes
  have hexec := hpiece.executed hinv hinsts hpc
  rw [List.take_length] at hexec
  obtain rfl := Except.ok.inj (hexec.symm.trans hrun)
  refine ⟨_, hpiece.standIn, hlast.trans ?_⟩
  generalize op.result .int = ty at henc
  cases henc
  rfl

namespace Translated

theorem holdsWord_of_definedBefore (ht : Translated func isa t) (hinv : StateInv t.clif s)
    {v : Ir.Value} (hint : func.valueType v = some .int) {y : Cranelift.Value}
    (hy : t.value v = some y) {i : ℕ} (hdef : t.clif.DefinedBefore y s.block i) (hpc : i ≤ s.pc) :
    ∃ x, HoldsWord t s v x := by
  obtain ⟨x, hx, hty⟩ := ht.holds_standIn hinv hy hdef hpc
  rw [machineType_eq hint] at hty
  obtain ⟨x, rfl⟩ := Val.eq_i64 (Option.some.inj hty).symm
  exact ⟨x, y, hy, hx⟩

/-- Past a composed remainder its stand-in holds the remainder. -/
theorem remainder_of_executed (ht : Translated func isa t) (hv : func.Valid)
    (hinv : StateInv t.clif s) {c : Ir.Block} (hc : t.block c = some s.block) {a b m : Ir.Value}
    (hspells : SpellsRemainder func c a b m) (hexec : Executed t s m) :
    ∃ x y, HoldsWord t s a x ∧ HoldsWord t s b y ∧ HoldsWord t s m (composedRemainder x y) := by
  obtain ⟨hint, q, p, ⟨hq, hp, hm⟩, hqi, hpi, hmi⟩ := hspells
  have hreach : func.Reachable c := (ht.block_iff c).mp ⟨_, hc⟩
  obtain ⟨n, nodes, term, last, hemit⟩ := ht.emitted_at hc
  -- The codes of the three instructions, from the last one back.
  obtain ⟨before, after, hsplit⟩ := List.append_of_mem hm
  obtain ⟨nodes₁, inst, code, hpiece⟩ := hemit.lowers.exists_piece hsplit
  obtain rfl := Option.some.inj (hpiece.resolves.symm.trans hmi)
  obtain ⟨before₁, after₁, nodes₂, code₁, hsplit₁, hpiece₁⟩ :=
    hpiece.operand hv hreach hsplit (by simp [Ir.Inst.uses]) hp hpi
  obtain ⟨before₂, after₂, nodes₃, code₂, hsplit₂, hpiece₂⟩ :=
    hpiece₁.operand hv hreach hsplit₁ (by simp [Ir.Inst.uses]) hq hqi
  obtain ⟨rest, hinsts⟩ := hpiece.exists_rest hemit.insts
  obtain ⟨rest₁, hinsts₁⟩ := hpiece₁.exists_rest hinsts
  have hpast := hpiece.past_of_executed hemit hexec
  have hlen₁ := hpiece₁.length_le
  have hlen₂ := hpiece₂.length_le
  -- The two operands, then each result.
  obtain ⟨ty, hop, hty, hbty, -⟩ := hv.inst_typed c hreach q hq _ hqi
  obtain rfl : ty = .int := Option.some.inj (hty.symm.trans hint)
  obtain ⟨ya, hya, -⟩ := hpiece₂.operands a (by simp [Ir.Inst.uses])
  obtain ⟨yb, hyb, -⟩ := hpiece₂.operands b (by simp [Ir.Inst.uses])
  have hdef {u : Ir.Value} (hu : u ∈ [a, b]) {y : Cranelift.Value} (hy : t.value u = some y) :
      t.clif.DefinedBefore y s.block nodes₃.length :=
    ht.operand_definedBefore hv hc hpiece₂ hsplit₂ hinsts₁ hu hy
  obtain ⟨x, hx⟩ := ht.holdsWord_of_definedBefore hinv hint hya (hdef (by simp) hya) (by omega)
  obtain ⟨y, hy⟩ := ht.holdsWord_of_definedBefore hinv hbty hyb (hdef (by simp) hyb) (by omega)
  have hquotient : HoldsWord t s q (Ir.Eval.intDiv x y) :=
    hpiece₂.holdsWord hinv hinsts₁ (by omega) (.inl rfl) hint hx hy rfl
  have hproduct : HoldsWord t s p (y * Ir.Eval.intDiv x y) :=
    hpiece₁.holdsWord hinv hinsts (by omega) (.inl rfl) hbty hy hquotient rfl
  have hremainder : HoldsWord t s m (x - y * Ir.Eval.intDiv x y) :=
    hpiece.holdsWord hinv hemit.insts hpast (.inl rfl) hint hx hproduct rfl
  rw [intDiv_eq_truncatedQuotient] at hremainder
  exact ⟨x, y, hx, hy, hremainder⟩

end Translated

/-- The compiled `rem_fn` returns the remainder of its arguments, whatever they are; and so does the code
of `a - b * (a / b)` in every block of every valid function that is accepted: past it, the stand-ins of
`a`, `b` and the result hold words of which the last is the remainder of the first by the second. -/
theorem translate_remainder (isa : TargetIsa) :
    (∃ clif, translate Ir.remFn isa = .ok clif ∧ ∀ x y : BitVec 64, ∃ m, IsRemainder x y m ∧
      ∀ fuel, Cranelift.eval clif [.i64 x, .i64 y] (fuel + 1) = .returned [.i64 m]) ∧
    ∀ (func : Ir.Function) (clif : Cranelift.Function), func.Valid → translate func isa = .ok clif →
      ∃ t, translation func isa = .ok t ∧ t.clif = clif ∧
        ∀ c a b m, SpellsRemainder func c a b m → ∀ args,
          List.Forall₂ (fun ty x => machineTy ty = some (Val.ty x)) func.params args →
          ∀ s, Reaches clif args s → t.block c = some s.block → Executed t s m →
            ∃ x y r, HoldsWord t s a x ∧ HoldsWord t s b y ∧ HoldsWord t s m r ∧
              IsRemainder x y r := by
  constructor
  · obtain ⟨t, htrans, ht⟩ := remFn_translates isa
    refine ⟨t.clif, by rw [translate, htrans]; rfl, fun x y =>
      ⟨_, composedRemainder_isRemainder x y, fun fuel => ?_⟩⟩
    have htypes : [Ir.Eval.RVal.int x, .int y].map typeOf = Ir.remFn.params := rfl
    obtain ⟨-, hagrees⟩ := ht.simulate Ir.remFn.valid htypes (fuel + 1)
    have heval : Ir.Eval.eval Ir.remFn [.int x, .int y] (fuel + 1) =
        .ok (.int (x - y * Ir.Eval.intDiv x y)) := rfl
    rw [heval, intDiv_eq_truncatedQuotient] at hagrees
    generalize hresult : Cranelift.eval t.clif _ (fuel + 1) = result at hagrees
    cases hagrees
    exact hresult
  · intro func clif hv h
    obtain ⟨t, htrans, rfl, ht⟩ := translated_of_ok hv h
    refine ⟨t, htrans, rfl, fun c a b m hspells args hargs s hs hc hexec => ?_⟩
    have hinv := hs.inv (ht.ssa hv) (ht.wellTyped hv) (ht.args_typed hargs)
    obtain ⟨x, y, hx, hy, hr⟩ := ht.remainder_of_executed hv hinv hc hspells hexec
    exact ⟨x, y, _, hx, hy, hr, composedRemainder_isRemainder x y⟩

end Remainder

theorem remFn_remainder : ∃ clif, translate Ir.remFn ⟨⟨0⟩⟩ = .ok clif ∧
    @Cranelift.eval clif hostDouble [.i64 (-17), .i64 5] 1 = .returned [.i64 (-2)] ∧
    ∃ t, translation Ir.remFn ⟨⟨0⟩⟩ = .ok t ∧ t.clif = clif ∧
      ∀ s, @Reaches clif hostDouble [.i64 (-17), .i64 5] s → t.block ⟨0⟩ = some s.block →
        Executed t s ⟨4⟩ → ∃ x y r, HoldsWord t s ⟨0⟩ x ∧ HoldsWord t s ⟨1⟩ y ∧
          HoldsWord t s ⟨4⟩ r ∧ IsRemainder x y r := by
  let _ := hostDouble
  obtain ⟨⟨clif, hclif, heval⟩, hevery⟩ := translate_remainder ⟨⟨0⟩⟩
  obtain ⟨m, hm, hreturned⟩ := heval (-17) 5
  have hlaw := (hm.division (by decide)).law
  have hint : m.toInt = (-2 : BitVec 64).toInt := by
    have h₁ : (-17 : BitVec 64).toInt = -17 := by decide
    have h₂ : (5 : BitVec 64).toInt = 5 := by decide
    have h₃ : (-2 : BitVec 64).toInt = -2 := by decide
    have h₄ : (-17 : ℤ).tdiv 5 = -3 := by decide
    rw [h₁, h₂, h₄] at hlaw
    omega
  rw [BitVec.eq_of_toInt_eq hint] at hreturned
  obtain ⟨t, htrans, rfl, hstates⟩ := hevery Ir.remFn clif Ir.remFn.valid hclif
  have hspells : SpellsRemainder Ir.remFn ⟨0⟩ ⟨0⟩ ⟨1⟩ ⟨4⟩ :=
    ⟨rfl, ⟨2⟩, ⟨3⟩, ⟨by decide, by decide, by decide⟩, rfl, rfl, rfl⟩
  have hargs : List.Forall₂ (fun ty x => machineTy ty = some (Val.ty x)) Ir.remFn.params
      [.i64 (-17), .i64 5] := .cons rfl (.cons rfl .nil)
  exact ⟨t.clif, hclif, hreturned 0, t, htrans, rfl, hstates _ _ _ _ hspells _ hargs⟩

end JitLang.Translate
