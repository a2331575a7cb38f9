import JitLang.Translate.Loops

/-! # The emission loop

The loop that fills the blocks, on a valid function. Within a block an invariant over the instructions
already emitted (`emitValues_spec`), over it an invariant over the blocks already emitted (`EmitInv`):
reverse postorder puts every block that dominates the current one among them, so each operand has its
stand-in by the time it is read.
-/

namespace JitLang.Translate
open Foundations Cranelift
set_option autoImplicit false

variable {func : Ir.Function}

/-! ## Stand-ins -/

/-- The values singled out by `D` have stand-ins of their machine types, no two the same one. -/
structure Stands (func : Ir.Function) (D : Ir.Value → Prop) (V : Ir.Value → Option Cranelift.Value)
    (types : List Cranelift.Ty) : Prop where
  defined : ∀ v, (∃ x, V v = some x) ↔ D v
  typed : ∀ v x, V v = some x → ∃ ty, machineType func v = some ty ∧ HasType types x ty
  injective : ∀ v w x, V v = some x → V w = some x → v = w

namespace Stands
variable {D D' : Ir.Value → Prop} {V V' : Ir.Value → Option Cranelift.Value}
  {types : List Cranelift.Ty}

theorem congr (h : Stands func D V types) (hiff : ∀ v, D v ↔ D' v) : Stands func D' V types :=
  ⟨fun v => (h.defined v).trans (hiff v), h.typed, h.injective⟩

theorem eq_none (h : Stands func D V types) {v : Ir.Value} (hv : ¬ D v) : V v = none :=
  Option.eq_none_iff_forall_ne_some.mpr fun x hx => hv ((h.defined v).mp ⟨x, hx⟩)

theorem lt (h : Stands func D V types) {v : Ir.Value} {x : Cranelift.Value} (hx : V v = some x) :
    x.index < types.length := by
  obtain ⟨ty, -, hty⟩ := h.typed v x hx
  exact hty.lt

theorem add (h : Stands func D V types) {more : List Cranelift.Ty} {v : Ir.Value}
    {x : Cranelift.Value} {ty : Cranelift.Ty} (hx : types.length ≤ x.index)
    (hmty : machineType func v = some ty) (hty : HasType (types ++ more) x ty)
    (hV' : ∀ w, V' w = if w = v then some x else V w) :
    Stands func (fun w => D w ∨ w = v) V' (types ++ more) := by
  refine ⟨?_, ?_, ?_⟩
  · intro w
    rw [hV']
    by_cases hw : w = v
    · simp [hw]
    · simp [hw, h.defined w]
  · intro w y hy
    rw [hV'] at hy
    split_ifs at hy with hw
    · cases hy
      exact ⟨ty, hw ▸ hmty, hty⟩
    · obtain ⟨ty', hm, ht⟩ := h.typed w y hy
      exact ⟨ty', hm, ht.append more⟩
  · intro w w' y hy hy'
    rw [hV'] at hy hy'
    split_ifs at hy hy' with hw hw' hw'
    · rw [hw, hw']
    · cases hy
      have := h.lt hy'
      omega
    · cases hy'
      have := h.lt hy
      omega
    · exact h.injective w w' y hy hy'

end Stands

/-! ## The instructions of a block -/

theorem Grows.refl (n : ℕ) (V : Ir.Value → Option Cranelift.Value) : Grows n V V :=
  ⟨fun _ _ h => h, fun _ _ h => .inl h⟩

theorem Grows.add {n : ℕ} {V V' V'' : Ir.Value → Option Cranelift.Value} {v : Ir.Value}
    {x : Cranelift.Value} (h : Grows n V V') (hv : V' v = none) (hx : n ≤ x.index)
    (hV'' : ∀ w, V'' w = if w = v then some x else V' w) : Grows n V V'' := by
  refine ⟨?_, ?_⟩
  · intro w y hy
    have hy' := h.keeps w y hy
    have hw : w ≠ v := fun e => by rw [e, hv] at hy'; cases hy'
    rw [hV'', if_neg hw, hy']
  · intro w y hy
    rw [hV''] at hy
    split_ifs at hy with hw
    · cases hy
      exact .inr hx
    · exact h.fresh w y hy

/-- The code of one more instruction, on operands that have stand-ins. -/
theorem Lowers.add {D : Ir.Value → Prop} {V V' : Ir.Value → Option Cranelift.Value}
    {types : List Cranelift.Ty} {n : ℕ} {done : List Ir.Value} {nodes : List InstData}
    (hlowers : Lowers func V n done nodes) (hstands : Stands func D V types)
    (hnext : types.length = n + nodes.length) {v : Ir.Value} {inst : Ir.Inst}
    {code : List Cranelift.Inst} (hinst : func.inst v = some inst)
    (hcode : lowerInst func V types.length inst = some code) (huses : ∀ u ∈ inst.uses, D u)
    (hgrows : Grows types.length V V')
    (hV' : ∀ w, V' w = if w = v then some (lastValue types.length code) else V w) :
    Lowers func V' n (done ++ [v]) (nodes ++ number types.length code) := by
  rw [hnext] at hcode hgrows hV' ⊢
  refine (hlowers.grows le_rfl hgrows).snoc hinst (lowerInst_extends hgrows.keeps hcode) ?_
    (by rw [hV', if_pos rfl]) ?_
  · intro u hu
    obtain ⟨y, hy⟩ := (hstands.defined u).mpr (huses u hu)
    have hlt := hstands.lt hy
    exact ⟨y, hgrows.keeps u y hy, by omega⟩
  · intro w y hy hle _
    rw [hV'] at hy
    by_contra hw
    rw [if_neg hw] at hy
    have hlt := hstands.lt hy
    omega

/-- The state of the inner loop after the instructions `done`, from the state `⟨b, values⟩`. -/
structure CodeInv (func : Ir.Function) (D : Ir.Value → Prop) (b : Builder) (x : Cranelift.Block)
    (values : List (Option Cranelift.Value)) (done : List Ir.Value) (nodes : List InstData)
    (st : EmitState) : Prop where
  appends : ∃ types, types.length = nodes.length ∧ b.Appends x nodes types st.builder
  length : st.values.length = func.valueCount
  lowers : Lowers func (standIn st.values) b.nextValue.index done nodes
  nodes : ∀ node ∈ nodes, NodeTyped st.builder.func.valueTypes node
  grows : Grows b.nextValue.index (standIn values) (standIn st.values)
  stands : Stands func (fun v => D v ∨ v ∈ done) (standIn st.values) st.builder.func.valueTypes

theorem CodeInv.start {D : Ir.Value → Prop} {b : Builder} {x : Cranelift.Block}
    {values : List (Option Cranelift.Value)} (hpos : b.position = some x)
    (hlength : values.length = func.valueCount)
    (hstands : Stands func D (standIn values) b.func.valueTypes) :
    CodeInv func D b x values [] [] ⟨b, values⟩ :=
  ⟨⟨[], rfl, .refl hpos⟩, hlength, .nil _, by simp, .refl _ _, hstands.congr fun v => by simp⟩

/-- One round of the inner loop, on a well-typed instruction whose operands have stand-ins. -/
theorem emitValue_spec {D : Ir.Value → Prop} {b : Builder} {x : Cranelift.Block}
    {values : List (Option Cranelift.Value)} {done : List Ir.Value} {nodes : List InstData}
    {st : EmitState} (hx : x.index < b.func.blocks.length)
    (h : CodeInv func D b x values done nodes st) {v : Ir.Value} {inst : Ir.Inst}
    (hinst : func.inst v = some inst) (hrange : v.index < func.valueCount)
    (htyped : func.InstTyped v inst) (huses : ∀ u ∈ inst.uses, D u ∨ u ∈ done)
    (hfresh : ¬ (D v ∨ v ∈ done)) :
    ∃ st' nodes', emitValue func st v = .ok st' ∧
      CodeInv func D b x values (done ++ [v]) nodes' st' := by
  obtain ⟨⟨types, hlen, happ⟩, hlength, hlowers, hnodes, hgrows, hstands⟩ := h
  have hnext : st.builder.nextValue.index = b.nextValue.index + nodes.length := by
    rw [happ.nextValue, hlen]
  have hoperands : OperandsTyped func (standIn st.values) st.builder.func.valueTypes inst := by
    intro u hu
    obtain ⟨y, hy⟩ := (hstands.defined u).mpr (huses u hu)
    obtain ⟨ty, hm, ht⟩ := hstands.typed u y hy
    exact ⟨y, ty, hy, hm, ht⟩
  obtain ⟨code, ty, hcode, hmty, hyields⟩ := lowerInst_yields htyped hoperands
  have hnone := hstands.eq_none hfresh
  have hpos : 0 < code.length := List.length_pos_of_ne_nil (lowerInst_ne_nil hcode)
  obtain ⟨values', hwrite, hlength', hlookup⟩ := writeIndex_standIn
    (lastValue st.builder.nextValue.index code) (hlength ▸ hrange : v.index < st.values.length)
  have hpushed := Builder.insAll_appends happ.position (by rw [happ.blocks]; exact hx) code
  have hlast : st.builder.nextValue.index ≤
      (lastValue st.builder.nextValue.index code).index := by
    show st.builder.nextValue.index ≤ st.builder.nextValue.index + code.length - 1
    omega
  have hgrows' : Grows st.builder.nextValue.index (standIn st.values) (standIn values') :=
    (Grows.refl _ _).add hnone hlast hlookup
  refine ⟨⟨st.builder.insAll code, values'⟩, nodes ++ number st.builder.nextValue.index code,
    ?_, ?_, hlength'.trans hlength, ?_, ?_, ?_, ?_⟩
  · simp only [emitValue, hinst, emitInst_eq st.builder htyped hoperands hcode,
      ok_bind, hwrite, pure_eq_ok]
  · exact ⟨_, by simp [hlen], happ.trans hpushed⟩
  · exact hlowers.add hstands hnext hinst hcode huses hgrows' hlookup
  · intro node hnode
    rw [hpushed.types]
    rcases List.mem_append.mp hnode with hnode | hnode
    · exact (hnodes node hnode).append _
    · exact hyields.1.nodes node hnode
  · exact hgrows.add hnone (by omega) hlookup
  · rw [hpushed.types]
    refine (hstands.add hlast hmty hyields.2 hlookup).congr fun w => ?_
    rw [List.mem_append, List.mem_singleton, or_assoc]

/-! ## The blocks -/

/-- Block `x` of `clif` holds the code of the IR block `c`, a terminator last. -/
structure Emitted (func : Ir.Function) (B : Ir.Block → Option Cranelift.Block)
    (V : Ir.Value → Option Cranelift.Value) (clif : Cranelift.Function) (x : Cranelift.Block)
    (c : Ir.Block) (n : ℕ) (nodes : List InstData) (term : Ir.Terminator) (last : Cranelift.Inst) :
    Prop where
  lowers : Lowers func V n (func.insts c) nodes
  terminator : func.terminator c = some term
  lowered : lowerTerminator B V term = some last
  insts : clif.blockInsts x = nodes ++ [⟨none, last⟩]
  typed : ∀ node ∈ nodes, NodeTyped clif.valueTypes node
  bound : n + nodes.length ≤ clif.valueTypes.length

/-- The values with a stand-in after the blocks `done`: every parameter, and their instructions. -/
def DefinedIn (func : Ir.Function) (order done : List Ir.Block) (v : Ir.Value) : Prop :=
  (∃ c ∈ order, v ∈ func.blockParams c) ∨ ∃ c ∈ done, v ∈ func.insts c

/-- The state of the emission loop after the blocks `done`; `base` is the builder it started from. -/
structure EmitInv (func : Ir.Function) (order : List Ir.Block)
    (blocks : List (Option Cranelift.Block)) (base : Builder) (done : List Ir.Block)
    (st : EmitState) : Prop where
  length : st.values.length = func.valueCount
  signature : st.builder.func.signature = base.func.signature
  blockCount : st.builder.func.blocks.length = order.length
  params : ∀ x, st.builder.func.blockParams x = base.func.blockParams x
  pairs : ∀ v x, ParamPair func order base.func v x → standIn st.values v = some x
  layout : st.builder.func.layout = handles done.length
  types : ∃ more, st.builder.func.valueTypes = base.func.valueTypes ++ more ∧
    (handles order.length).flatMap st.builder.func.blockResults =
      (List.range' base.func.valueTypes.length more.length).map Cranelift.Value.mk
  empty : ∀ x : Cranelift.Block, done.length ≤ x.index → st.builder.func.blockInsts x = []
  emitted : ∀ (x : Cranelift.Block) c, done[x.index]? = some c → ∃ n nodes term last,
    Emitted func (standInBlock blocks) (standIn st.values) st.builder.func x c n nodes term last
  stands : Stands func (DefinedIn func order done) (standIn st.values) st.builder.func.valueTypes

theorem mem_done_of_dominates {order done after : List Ir.Block} {a d : Ir.Block}
    (horder : RpoOrder func order) (hsplit : order = done ++ a :: after) (ha : func.Reachable a)
    (hne : d ≠ a) (hd : func.Dominates d a) : d ∈ done := by
  have hsub := horder.dominator_first d a hne ha hd
  have hlt := idxOf_lt_of_sublist horder.nodup hsub
  have hmem : d ∈ order := hsub.subset List.mem_cons_self
  have hidx : order.idxOf a = done.length := by
    rw [hsplit, List.idxOf_append_of_notMem (not_mem_of_split horder.nodup hsplit)]
    simp
  rw [hidx] at hlt
  rw [hsplit] at hmem hlt
  by_contra hnot
  rw [List.idxOf_append_of_notMem hnot] at hlt
  omega

/-- Whatever may be read in the current block has its stand-in already. -/
theorem definedIn_of_available {order done after : List Ir.Block} {a : Ir.Block}
    (horder : RpoOrder func order) (hsplit : order = done ++ a :: after) (ha : func.Reachable a)
    {before : List Ir.Value} {u : Ir.Value} (h : func.Available a before u) :
    DefinedIn func order done u ∨ u ∈ before := by
  rcases h with h | h | ⟨d, hne, hd, h⟩
  · exact .inl (.inl ⟨a, (horder.mem_iff a).mpr ha, h⟩)
  · exact .inr h
  · rcases List.mem_append.mp h with h | h
    · exact .inl (.inl ⟨d, (horder.mem_iff d).mpr (ha.of_dominates hd), h⟩)
    · exact .inl (.inr ⟨d, mem_done_of_dominates horder hsplit ha hne hd, h⟩)

/-- An instruction of the current block has no stand-in before its turn. -/
theorem not_definedIn (hv : func.Valid) {order done after : List Ir.Block} {a : Ir.Block}
    (horder : RpoOrder func order) (hsplit : order = done ++ a :: after) {before after' : List Ir.Value}
    {v : Ir.Value} (hinsts : func.insts a = before ++ v :: after') :
    ¬ (DefinedIn func order done v ∨ v ∈ before) := by
  have hreach : ∀ c ∈ order, func.Reachable c := fun c hc => (horder.mem_iff c).mp hc
  have ha : a ∈ order := by rw [hsplit]; simp
  have hmem : v ∈ func.insts a := by rw [hinsts]; simp
  have hnodup := List.nodup_append'.mp (hv.defs_nodup a (hreach a ha))
  rintro ((⟨c, hc, hvc⟩ | ⟨c, hc, hvc⟩) | hbefore)
  · obtain rfl := hv.defs_disjoint c a (hreach c hc) (hreach a ha) v
      (List.mem_append_left _ hvc) (List.mem_append_right _ hmem)
    exact hnodup.2.2 hvc hmem
  · have hca := hv.defs_disjoint c a (hreach c (by rw [hsplit]; simp [hc])) (hreach a ha) v
      (List.mem_append_right _ hvc) (List.mem_append_right _ hmem)
    exact not_mem_of_split horder.nodup hsplit (hca ▸ hc)
  · exact not_mem_of_split hnodup.2.1 hinsts hbefore

section Blocks
variable {order : List Ir.Block} {blocks : List (Option Cranelift.Block)} {base : Builder}

section Instructions
variable {done after : List Ir.Block} {a : Ir.Block} {st₀ : EmitState}

/-- The next instruction of the current block is emitted; its entry was empty. -/
theorem CodeInv.next (hv : func.Valid) (horder : RpoOrder func order)
    (hsplit : order = done ++ a :: after) (hinv : EmitInv func order blocks base done st₀)
    {passed rest : List Ir.Value} {v : Ir.Value} (hinsts : func.insts a = passed ++ v :: rest)
    {nodes : List InstData} {st : EmitState}
    (hcode : CodeInv func (DefinedIn func order done) (st₀.builder.switchToBlock ⟨done.length⟩)
      ⟨done.length⟩ st₀.values passed nodes st) :
    ∃ st' nodes' inst, emitValue func st v = .ok st' ∧ func.inst v = some inst ∧
      standIn st.values v = none ∧
      CodeInv func (DefinedIn func order done) (st₀.builder.switchToBlock ⟨done.length⟩)
        ⟨done.length⟩ st₀.values (passed ++ [v]) nodes' st' := by
  have hget : order[done.length]? = some a := by simp [hsplit]
  have ha : func.Reachable a := (horder.mem_iff a).mp (List.mem_of_getElem? hget)
  have hmem : v ∈ func.insts a := by simp [hinsts]
  obtain ⟨inst, hinst⟩ := hv.insts_resolve a ha v hmem
  have hfresh := not_definedIn hv horder hsplit hinsts
  have hx : done.length < st₀.builder.func.blocks.length := by
    rw [hinv.blockCount]
    exact (List.getElem?_eq_some_iff.mp hget).1
  obtain ⟨st', nodes', hst', hcode'⟩ := emitValue_spec
    (b := st₀.builder.switchToBlock ⟨done.length⟩) (x := ⟨done.length⟩) hx hcode hinst
    (hv.defs_inRange a ha v (List.mem_append_right _ hmem)) (hv.inst_typed a ha v hmem inst hinst)
    (fun u hu => definedIn_of_available horder hsplit ha
      (hv.inst_dominated a ha passed v rest hinsts inst hinst u hu)) hfresh
  exact ⟨st', nodes', inst, hst', hinst, hcode.stands.eq_none hfresh, hcode'⟩

theorem emitValues_spec (hv : func.Valid) (horder : RpoOrder func order)
    (hsplit : order = done ++ a :: after) (hinv : EmitInv func order blocks base done st₀) :
    ∃ st nodes, (func.insts a).foldlM (emitValue func)
        ⟨st₀.builder.switchToBlock ⟨done.length⟩, st₀.values⟩ = .ok st ∧
      CodeInv func (DefinedIn func order done) (st₀.builder.switchToBlock ⟨done.length⟩)
        ⟨done.length⟩ st₀.values (func.insts a) nodes st := by
  obtain ⟨st, hrun, nodes, hcode⟩ := foldlM_invariant (f := emitValue func) (l := func.insts a)
    (s := ⟨st₀.builder.switchToBlock ⟨done.length⟩, st₀.values⟩)
    (I := fun passed st => ∃ nodes, CodeInv func (DefinedIn func order done)
      (st₀.builder.switchToBlock ⟨done.length⟩) ⟨done.length⟩ st₀.values passed nodes st)
    ⟨[], .start rfl hinv.length hinv.stands⟩
    (by
      rintro passed v rest st hinsts ⟨nodes, hcode⟩
      obtain ⟨st', nodes', inst, hst', -, -, hcode'⟩ := hcode.next hv horder hsplit hinv hinsts
      exact ⟨st', hst', nodes', hcode'⟩)
  exact ⟨st, nodes, hrun, hcode⟩

end Instructions

theorem emitTerminator_spec {b : Builder} {x : Cranelift.Block} (hpos : b.position = some x)
    (hx : x.index < b.func.blocks.length) {D : Ir.Value → Prop}
    {values : List (Option Cranelift.Value)}
    (hstands : Stands func D (standIn values) b.func.valueTypes) {term : Ir.Terminator}
    (huses : ∀ u ∈ term.uses, D u)
    (hsucc : ∀ s ∈ term.successors, ∃ y, standInBlock blocks s = some y) :
    ∃ b' last, emitTerminator b term blocks values = .ok b' ∧
      lowerTerminator (standInBlock blocks) (standIn values) term = some last ∧
      b.Appends x [⟨none, last⟩] [] b' := by
  obtain ⟨last, hlast⟩ := lowerTerminator_some
    (fun u hu => (hstands.defined u).mpr (huses u hu)) hsucc
  exact ⟨_, last, emitTerminator_eq hlast, hlast, Builder.insertInst_appends hpos hx _⟩

/-- What one round of the emission loop does: the next block gets the code of `a`, a terminator last,
and everything else stays. -/
structure EmitRound (func : Ir.Function) (order done : List Ir.Block)
    (blocks : List (Option Cranelift.Block)) (a : Ir.Block) (st st' : EmitState)
    (nodes : List InstData) (types : List Cranelift.Ty) (term : Ir.Terminator)
    (last : Cranelift.Inst) : Prop where
  appends : (st.builder.switchToBlock ⟨done.length⟩).Appends ⟨done.length⟩
    (nodes ++ [⟨none, last⟩]) types st'.builder
  count : types.length = nodes.length
  length : st'.values.length = func.valueCount
  lowers : Lowers func (standIn st'.values) st.builder.nextValue.index (func.insts a) nodes
  typed : ∀ node ∈ nodes, NodeTyped st'.builder.func.valueTypes node
  grows : Grows st.builder.nextValue.index (standIn st.values) (standIn st'.values)
  stands : Stands func (fun v => DefinedIn func order done v ∨ v ∈ func.insts a)
    (standIn st'.values) st'.builder.func.valueTypes
  terminator : func.terminator a = some term
  lowered : lowerTerminator (standInBlock blocks) (standIn st'.values) term = some last

theorem emitBlock_round (hv : func.Valid) (horder : RpoOrder func order) (hplaced : Placed order blocks)
    {done after : List Ir.Block} {a : Ir.Block} (hsplit : order = done ++ a :: after) {st : EmitState}
    (h : EmitInv func order blocks base done st) :
    ∃ st' nodes types term last, emitBlock func blocks st a = .ok st' ∧
      EmitRound func order done blocks a st st' nodes types term last := by
  have hget : order[done.length]? = some a := by simp [hsplit]
  have ha : func.Reachable a := (horder.mem_iff a).mp (List.mem_of_getElem? hget)
  have hblock : standInBlock blocks a = some ⟨done.length⟩ := (hplaced a ⟨_⟩).mpr hget
  have hx : done.length < st.builder.func.blocks.length := by
    rw [h.blockCount]
    exact (List.getElem?_eq_some_iff.mp hget).1
  -- The instructions.
  obtain ⟨st₁, nodes, hrun, hcode⟩ := emitValues_spec hv horder hsplit h
  obtain ⟨⟨types, hlen, happ⟩, hlength, hlowers, hnodes, hgrows, hstands⟩ := hcode
  -- The terminator.
  obtain ⟨term, hterm⟩ := hv.terminated a ha
  have hsucc : ∀ s ∈ term.successors, ∃ y, standInBlock blocks s = some y := by
    intro s hs
    exact hplaced.exists_standIn ((horder.mem_iff s).mpr (hv.successor_reachable ha hterm hs))
  obtain ⟨b', last, hrun', hlowered, happ'⟩ := emitTerminator_spec happ.position
    (by rw [happ.blocks]; exact hx) hstands
    (fun u hu => definedIn_of_available horder hsplit ha
      (hv.terminator_dominated a term ha hterm u hu)) hsucc
  have hall := happ.trans happ'
  rw [List.append_nil] at hall
  have hvalueTypes : b'.func.valueTypes = st₁.builder.func.valueTypes := by
    rw [happ'.types, List.append_nil]
  refine ⟨⟨b', st₁.values⟩, nodes, types, term, last, ?_, hall, hlen, hlength, hlowers, ?_, hgrows,
    ?_, hterm, hlowered⟩
  · simp only [emitBlock, clifBlock_of_some hblock, ok_bind, hrun, hterm, okOr, hrun', pure_eq_ok]
  · rw [hvalueTypes]
    exact hnodes
  · rw [hvalueTypes]
    exact hstands

namespace EmitRound
variable {done : List Ir.Block} {a : Ir.Block} {st st' : EmitState} {nodes : List InstData}
  {types : List Cranelift.Ty} {term : Ir.Terminator} {last : Cranelift.Inst}

theorem valueTypes (hr : EmitRound func order done blocks a st st' nodes types term last) :
    st'.builder.func.valueTypes = st.builder.func.valueTypes ++ types := hr.appends.types

theorem insts (hr : EmitRound func order done blocks a st st' nodes types term last)
    (h : EmitInv func order blocks base done st) (y : Cranelift.Block) :
    st'.builder.func.blockInsts y = if y = ⟨done.length⟩ then nodes ++ [⟨none, last⟩]
      else st.builder.func.blockInsts y := by
  rw [hr.appends.insts]
  split_ifs with hy
  · have hnil : (st.builder.switchToBlock ⟨done.length⟩).func.blockInsts ⟨done.length⟩ = [] :=
      h.empty ⟨done.length⟩ le_rfl
    rw [hy, hnil, List.nil_append]
  · rfl

theorem results (hr : EmitRound func order done blocks a st st' nodes types term last)
    (h : EmitInv func order blocks base done st) (y : Cranelift.Block) :
    st'.builder.func.blockResults y = if y = ⟨done.length⟩ then
        (List.range' st.builder.nextValue.index nodes.length).map .mk
      else st.builder.func.blockResults y := by
  unfold Cranelift.Function.blockResults
  rw [hr.insts h y]
  split_ifs
  · rw [List.filterMap_append, hr.lowers.results]
    simp
  · rfl

theorem layout (hr : EmitRound func order done blocks a st st' nodes types term last)
    (h : EmitInv func order blocks base done st) :
    st'.builder.func.layout = handles (done ++ [a]).length := by
  have hnot : (⟨done.length⟩ : Cranelift.Block) ∉ st.builder.func.layout := by
    rw [h.layout, mem_handles]
    exact lt_irrefl _
  have hlayout : st'.builder.func.layout = st.builder.func.layout ++ [⟨done.length⟩] := by
    rw [hr.appends.layout, if_neg]
    · rfl
    · rintro (hnil | hmem)
      · simp at hnil
      · exact hnot hmem
  rw [hlayout, h.layout, List.length_append, List.length_singleton, handles_succ]

theorem numbering (hr : EmitRound func order done blocks a st st' nodes types term last)
    (h : EmitInv func order blocks base done st) (hlt : done.length < order.length) :
    ∃ more, st'.builder.func.valueTypes = base.func.valueTypes ++ more ∧
      (handles order.length).flatMap st'.builder.func.blockResults =
        (List.range' base.func.valueTypes.length more.length).map Cranelift.Value.mk := by
  obtain ⟨more, hmore, hnumbering⟩ := h.types
  have hempty : ∀ y : Cranelift.Block, done.length ≤ y.index →
      st.builder.func.blockResults y = [] := by
    intro y hy
    rw [Cranelift.Function.blockResults, h.empty y hy]
    rfl
  have hnext : st.builder.nextValue.index = base.func.valueTypes.length + more.length := by
    rw [← List.length_append, ← hmore]
    rfl
  refine ⟨more ++ types, by rw [hr.valueTypes, hmore, List.append_assoc], ?_⟩
  rw [flatMap_handles_extend (x := ⟨done.length⟩) (f := st.builder.func.blockResults)
    (l := (List.range' st.builder.nextValue.index nodes.length).map Cranelift.Value.mk)
    hlt, hnumbering, ← List.map_append]
  · rw [hnext, List.range'_append_1, List.length_append, hr.count]
  · intro y hy
    have hne : y ≠ ⟨done.length⟩ := fun e => by rw [e] at hy; exact lt_irrefl _ hy
    rw [hr.results h, if_neg hne]
  · rw [hr.results h, if_pos rfl, hempty _ le_rfl, List.nil_append]
  · intro y hy _
    have hne : y ≠ ⟨done.length⟩ := fun e => by rw [e] at hy; exact lt_irrefl _ hy
    rw [hr.results h, if_neg hne]
    exact ⟨hempty y hy.le, hempty y hy.le⟩

theorem empty (hr : EmitRound func order done blocks a st st' nodes types term last)
    (h : EmitInv func order blocks base done st) {y : Cranelift.Block} (hy : done.length < y.index) :
    st'.builder.func.blockInsts y = [] := by
  have hne : y ≠ ⟨done.length⟩ := fun e => by rw [e] at hy; exact lt_irrefl _ hy
  rw [hr.insts h, if_neg hne]
  exact h.empty y hy.le

theorem emitted (hr : EmitRound func order done blocks a st st' nodes types term last)
    (h : EmitInv func order blocks base done st) {x : Cranelift.Block} {c : Ir.Block}
    (hc : (done ++ [a])[x.index]? = some c) : ∃ n nodes term last,
      Emitted func (standInBlock blocks) (standIn st'.values) st'.builder.func x c n nodes term
        last := by
  rcases Nat.lt_or_ge x.index done.length with hlt | hge
  · rw [List.getElem?_append_left hlt] at hc
    obtain ⟨n, nodes', term', last', hemit⟩ := h.emitted x c hc
    have hne : x ≠ ⟨done.length⟩ := fun e => by rw [e] at hlt; exact lt_irrefl _ hlt
    refine ⟨n, nodes', term', last', hemit.lowers.grows hemit.bound hr.grows, hemit.terminator,
      lowerTerminator_extends hr.grows.keeps hemit.lowered, ?_, ?_, ?_⟩
    · rw [hr.insts h, if_neg hne, hemit.insts]
    · intro node hnode
      rw [hr.valueTypes]
      exact (hemit.typed node hnode).append _
    · rw [hr.valueTypes, List.length_append]
      exact hemit.bound.trans (Nat.le_add_right _ _)
  · have heq : x.index = done.length := by
      have hlt := (List.getElem?_eq_some_iff.mp hc).1
      rw [List.length_append, List.length_singleton] at hlt
      omega
    obtain rfl : x = ⟨done.length⟩ := Cranelift.Block.ext heq
    rw [List.getElem?_concat_length] at hc
    cases hc
    refine ⟨_, nodes, term, last, hr.lowers, hr.terminator, hr.lowered,
      by rw [hr.insts h, if_pos rfl], hr.typed, ?_⟩
    rw [hr.valueTypes, List.length_append, hr.count]
    exact le_rfl

theorem standsIn (hr : EmitRound func order done blocks a st st' nodes types term last) :
    Stands func (DefinedIn func order (done ++ [a])) (standIn st'.values)
      st'.builder.func.valueTypes := by
  refine hr.stands.congr fun v => ?_
  simp only [DefinedIn, List.mem_append, List.mem_singleton, or_assoc]
  refine or_congr_right ⟨?_, ?_⟩
  · rintro (⟨c, hc, hvc⟩ | hva)
    · exact ⟨c, .inl hc, hvc⟩
    · exact ⟨a, .inr rfl, hva⟩
  · rintro ⟨c, hc | rfl, hvc⟩
    · exact .inl ⟨c, hc, hvc⟩
    · exact .inr hvc

end EmitRound

/-- One round of the emission loop keeps the invariant. -/
theorem emitBlock_spec (hv : func.Valid) (horder : RpoOrder func order) (hplaced : Placed order blocks)
    {done after : List Ir.Block} {a : Ir.Block} (hsplit : order = done ++ a :: after) {st : EmitState}
    (h : EmitInv func order blocks base done st) :
    ∃ st', emitBlock func blocks st a = .ok st' ∧ EmitInv func order blocks base (done ++ [a]) st' := by
  obtain ⟨st', nodes, types, term, last, hrun, hr⟩ := emitBlock_round hv horder hplaced hsplit h
  have hlt : done.length < order.length := by simp [hsplit]
  refine ⟨st', hrun, hr.length, hr.appends.signature.trans h.signature,
    hr.appends.blocks.trans h.blockCount, fun y => (hr.appends.params y).trans (h.params y),
    fun v y hy => hr.grows.keeps v y (h.pairs v y hy), hr.layout h, hr.numbering h hlt, ?_,
    fun x c hc => hr.emitted h hc, hr.standsIn⟩
  intro y hy
  rw [List.length_append, List.length_singleton] at hy
  exact hr.empty h hy

end Blocks

end JitLang.Translate
