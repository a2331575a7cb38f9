import JitLang.Translate.Translated

/-! # The value map along the emission loop

The emission loop of `translate` one instruction at a time: `EmitStep` enters a block, passes one of its
instructions, or leaves it with its terminator, and `translate` is a run of such steps from the table
the parameter loops leave (`emits_of_blocks`). `TableInv` says what the value map holds at every point
of that run; a step writes at most one entry, an empty one.
-/

namespace JitLang.Translate
open Foundations Cranelift
set_option autoImplicit false

variable {func : Ir.Function} {isa : TargetIsa}

/-! ## The loop, step by step -/

/-- A point of the emission loop: the blocks done, the block being filled with its instructions passed
so far, and the loop's variables. -/
structure EmitPoint where
  done : List Ir.Block
  current : Option (Ir.Block × List Ir.Value)
  state : EmitState

inductive EmitStep (func : Ir.Function) (order : List Ir.Block)
    (blocks : List (Option Cranelift.Block)) : EmitPoint → EmitPoint → Prop
  | enter {done after : List Ir.Block} {a : Ir.Block} {x : Cranelift.Block} {st : EmitState} :
      order = done ++ a :: after → clifBlock blocks a = .ok x →
      EmitStep func order blocks ⟨done, none, st⟩
        ⟨done, some (a, []), st.builder.switchToBlock x, st.values⟩
  | inst {done : List Ir.Block} {a : Ir.Block} {passed rest : List Ir.Value} {v : Ir.Value}
      {st st' : EmitState} :
      func.insts a = passed ++ v :: rest → emitValue func st v = .ok st' →
      EmitStep func order blocks ⟨done, some (a, passed), st⟩ ⟨done, some (a, passed ++ [v]), st'⟩
  | leave {done : List Ir.Block} {a : Ir.Block} {st : EmitState} {term : Ir.Terminator}
      {builder : Builder} :
      func.terminator a = some term → emitTerminator st.builder term blocks st.values = .ok builder →
      EmitStep func order blocks ⟨done, some (a, func.insts a), st⟩
        ⟨done ++ [a], none, builder, st.values⟩

abbrev Emits (func : Ir.Function) (order : List Ir.Block) (blocks : List (Option Cranelift.Block)) :
    EmitPoint → EmitPoint → Prop := Relation.ReflTransGen (EmitStep func order blocks)

section Steps
variable {order : List Ir.Block} {blocks : List (Option Cranelift.Block)}

theorem emits_of_values {done : List Ir.Block} {a : Ir.Block} {passed rest : List Ir.Value}
    (hinsts : func.insts a = passed ++ rest) {st st' : EmitState}
    (h : rest.foldlM (emitValue func) st = .ok st') :
    Emits func order blocks ⟨done, some (a, passed), st⟩ ⟨done, some (a, func.insts a), st'⟩ := by
  induction rest generalizing passed st with
  | nil =>
    cases h
    rw [List.append_nil] at hinsts
    rw [hinsts]
  | cons v rest ih =>
    rw [List.foldlM_cons] at h
    obtain ⟨st₁, hv, hrest⟩ := bind_eq_ok.mp h
    have hinsts' : func.insts a = (passed ++ [v]) ++ rest := by rw [hinsts]; simp
    exact .head (.inst hinsts hv) (ih hinsts' hrest)

theorem emits_of_block {done after : List Ir.Block} {a : Ir.Block}
    (horder : order = done ++ a :: after) {st st' : EmitState} (h : emitBlock func blocks st a = .ok st') :
    Emits func order blocks ⟨done, none, st⟩ ⟨done ++ [a], none, st'⟩ := by
  obtain ⟨x, hx, h⟩ := bind_eq_ok.mp h
  obtain ⟨st₁, hinsts, h⟩ := bind_eq_ok.mp h
  obtain ⟨term, hterm, h⟩ := bind_eq_ok.mp h
  obtain ⟨builder, hbuilder, h⟩ := bind_eq_ok.mp h
  cases h
  have hterm : func.terminator a = some term := by
    cases hopt : func.terminator a with
    | none => rw [hopt] at hterm; cases hterm
    | some term' => rw [hopt] at hterm; cases hterm; rfl
  exact .head (.enter horder hx)
    ((emits_of_values (List.nil_append _).symm hinsts).tail (.leave hterm hbuilder))

/-- The loop over the blocks, as steps. -/
theorem emits_of_blocks {done rest : List Ir.Block} (horder : order = done ++ rest)
    {st st' : EmitState} (h : rest.foldlM (emitBlock func blocks) st = .ok st') :
    Emits func order blocks ⟨done, none, st⟩ ⟨order, none, st'⟩ := by
  induction rest generalizing done st with
  | nil =>
    cases h
    rw [List.append_nil] at horder
    rw [horder]
  | cons a rest ih =>
    rw [List.foldlM_cons] at h
    obtain ⟨st₁, ha, hrest⟩ := bind_eq_ok.mp h
    have horder' : order = (done ++ [a]) ++ rest := by rw [horder]; simp
    exact (emits_of_block horder ha).trans (ih horder' hrest)

theorem EmitStep.deterministic {P Q R : EmitPoint} (h : EmitStep func order blocks P Q)
    (h' : EmitStep func order blocks P R) : Q = R := by
  cases h with
  | enter horder hx =>
    cases h' with
    | enter horder' hx' =>
      obtain ⟨rfl, -⟩ := List.cons.inj (List.append_cancel_left (horder.symm.trans horder'))
      obtain rfl := Except.ok.inj (hx.symm.trans hx')
      rfl
  | inst hinsts hv =>
    cases h' with
    | inst hinsts' hv' =>
      obtain ⟨rfl, -⟩ := List.cons.inj (List.append_cancel_left (hinsts.symm.trans hinsts'))
      obtain rfl := Except.ok.inj (hv.symm.trans hv')
      rfl
    | leave => simp at hinsts
  | leave hterm hbuilder =>
    cases h' with
    | inst hinsts' _ => simp at hinsts'
    | leave hterm' hbuilder' =>
      obtain rfl := Option.some.inj (hterm.symm.trans hterm')
      obtain rfl := Except.ok.inj (hbuilder.symm.trans hbuilder')
      rfl

/-- Every point of the loop lies on its way to the end. -/
theorem Emits.to_end {P Q : EmitPoint} {last : EmitState}
    (hend : Emits func order blocks P ⟨order, none, last⟩) (h : Emits func order blocks P Q) :
    Emits func order blocks Q ⟨order, none, last⟩ := by
  have hunique : Relator.RightUnique (EmitStep func order blocks) :=
    fun _ _ _ hQ hR => hQ.deterministic hR
  rcases Relation.ReflTransGen.total_of_right_unique hunique h hend with hon | hback
  · exact hon
  · cases hback.cases_head with
    | inl heq => rw [heq]
    | inr hstep =>
      obtain ⟨R, hR, -⟩ := hstep
      cases hR with
      | enter horder _ => simp at horder

end Steps

/-! ## The parameter table -/

/-- Where the keys are distinct, each write goes to an entry that is still empty. -/
theorem writes_fresh {pairs : List (Ir.Value × Cranelift.Value)} {n : ℕ}
    (hnodup : (pairs.map Prod.fst).Nodup) (hin : ∀ p ∈ pairs, p.1.index < n)
    {before after : List (Ir.Value × Cranelift.Value)} {p : Ir.Value × Cranelift.Value}
    (hsplit : pairs = before ++ p :: after) :
    ∃ table, before.foldlM mapParam (List.replicate n none) = .ok table ∧
      standIn table p.1 = none := by
  rw [hsplit, List.map_append] at hnodup
  have hkeys := List.nodup_append'.mp hnodup
  have hbefore : ∀ q ∈ before,
      q.1.index < (List.replicate n (none : Option Cranelift.Value)).length := by
    intro q hq
    rw [List.length_replicate]
    exact hin q (by rw [hsplit]; simp [hq])
  obtain ⟨table, hrun, -, hspec⟩ := mapParam_loop hkeys.1 hbefore fun q _ => standIn_replicate n q.1
  refine ⟨table, hrun, Option.eq_none_iff_forall_ne_some.mpr fun x hx => ?_⟩
  rcases (hspec p.1 x).mp hx with hold | hmem
  · rw [standIn_replicate] at hold
    cases hold
  · exact hkeys.2.2 (List.mem_map_of_mem hmem) (by simp)

theorem paramWrites_fresh (hv : func.Valid) {order : List Ir.Block} (horder : RpoOrder func order)
    {blocks : List (Option Cranelift.Block)} (hplaced : Placed order blocks) {sig : Signature}
    {b : Builder} (hstate : ParamState func order sig (fun _ => True) b)
    {before after : List (Ir.Value × Cranelift.Value)} {p : Ir.Value × Cranelift.Value}
    (hsplit : order.flatMap (paramWrites func blocks b) = before ++ p :: after) :
    ∃ table, before.foldlM mapParam (List.replicate func.valueCount none) = .ok table ∧
      standIn table p.1 = none := by
  have hlength (x : Cranelift.Block) (c : Ir.Block) (hx : order[x.index]? = some c) :=
    hstate.length_eq hx
  have hkeys : ((order.flatMap (paramWrites func blocks b)).map Prod.fst).Nodup := by
    rw [paramWrites_keys hplaced hlength]
    exact blockParams_nodup hv horder
  have hin : ∀ p ∈ order.flatMap (paramWrites func blocks b), p.1.index < func.valueCount :=
    paramWrites_inRange hplaced hlength fun c hc v hvc =>
      hv.defs_inRange c ((horder.mem_iff c).mp hc) v (List.mem_append_left _ hvc)
  exact writes_fresh hkeys hin hsplit

/-! ## Where stand-ins are defined -/

/-- `x` is defined where `v` is: a parameter of, or the result of an instruction in, the Cranelift block
of the block that has `v` as a parameter or an instruction. -/
def Located (func : Ir.Function) (blocks : List (Option Cranelift.Block)) (clif : Cranelift.Function)
    (v : Ir.Value) (x : Cranelift.Value) : Prop :=
  ∃ c y, func.Reachable c ∧ standInBlock blocks c = some y ∧
    (v ∈ func.blockParams c ∧ x ∈ clif.blockParams y ∨ v ∈ func.insts c ∧ x ∈ clif.blockResults y)

section Location
variable {order : List Ir.Block} {blocks : List (Option Cranelift.Block)} {base : Builder}

theorem Located.appends {v : Ir.Value} {x : Cranelift.Value} {b b' : Builder}
    {blk : Cranelift.Block} {nodes : List InstData} {types : List Cranelift.Ty}
    (h : Located func blocks b.func v x) (happ : b.Appends blk nodes types b') :
    Located func blocks b'.func v x := by
  obtain ⟨c, y, hc, hy, hx⟩ := h
  refine ⟨c, y, hc, hy, hx.imp (fun hx => ⟨hx.1, by rw [happ.params]; exact hx.2⟩) fun hx =>
    ⟨hx.1, ?_⟩⟩
  rw [Cranelift.Function.blockResults, happ.insts]
  split_ifs
  · rw [List.filterMap_append]
    exact List.mem_append_left _ hx.2
  · exact hx.2

theorem mem_results_of_lowers {V : Ir.Value → Option Cranelift.Value} {n : ℕ} {vs : List Ir.Value}
    {nodes : List InstData} (h : Lowers func V n vs nodes) {v : Ir.Value} (hv : v ∈ vs)
    {x : Cranelift.Value} (hx : V v = some x) : x ∈ nodes.filterMap InstData.result := by
  obtain ⟨j, node, hnode, hresult⟩ := h.exists_node hv
  exact List.mem_filterMap.mpr ⟨node, List.mem_of_getElem? hnode, hresult.trans hx⟩

theorem EmitInv.located {sig : Signature} (hstate : ParamState func order sig (fun _ => True) base)
    (horder : RpoOrder func order) (hplaced : Placed order blocks) {done after : List Ir.Block}
    (hsplit : order = done ++ after) {st : EmitState}
    (h : EmitInv func order blocks base done st) {v : Ir.Value} {x : Cranelift.Value}
    (hx : standIn st.values v = some x) : Located func blocks st.builder.func v x := by
  rcases (h.stands.defined v).mp ⟨x, hx⟩ with ⟨c, hc, hvc⟩ | ⟨c, hc, hvc⟩
  · obtain ⟨y, z, hy, hz, hpair⟩ := hstate.exists_pair hc hvc
    obtain rfl := Option.some.inj ((h.pairs v z hpair).symm.trans hx)
    refine ⟨c, y, (horder.mem_iff c).mp hc, (hplaced c y).mpr hy, .inl ⟨hvc, ?_⟩⟩
    rw [h.params]
    exact hz
  · obtain ⟨i, hi⟩ := List.mem_iff_getElem?.mp hc
    have hat : order[i]? = some c := by
      rw [hsplit, List.getElem?_append_left (List.getElem?_eq_some_iff.mp hi).1, hi]
    obtain ⟨n, nodes, term, last, hemit⟩ := h.emitted ⟨i⟩ c hi
    refine ⟨c, ⟨i⟩, (horder.mem_iff c).mp (List.mem_of_getElem? hat), (hplaced c ⟨i⟩).mpr hat,
      .inr ⟨hvc, ?_⟩⟩
    rw [Cranelift.Function.blockResults, hemit.insts, List.filterMap_append]
    exact List.mem_append_left _ (mem_results_of_lowers hemit.lowers hvc hx)

end Location

/-! ## The value map at a point -/

/-- The values defined at a point of the loop: the parameters of all reachable blocks, the instructions
of the blocks done, and those passed in the current one. -/
def EmitPoint.Defined (func : Ir.Function) (P : EmitPoint) (v : Ir.Value) : Prop :=
  (∃ c, func.Reachable c ∧ v ∈ func.blockParams c) ∨ (∃ c ∈ P.done, v ∈ func.insts c) ∨
    ∃ c passed, P.current = some (c, passed) ∧ v ∈ passed

/-- What the value map holds at a point of the loop. -/
structure TableInv (func : Ir.Function) (order : List Ir.Block)
    (blocks : List (Option Cranelift.Block)) (P : EmitPoint) : Prop where
  split : ∃ after, order = P.done ++ (P.current.map Prod.fst).toList ++ after
  defined : ∀ v, (∃ x, standIn P.state.values v = some x) ↔ P.Defined func v
  injective : ∀ v w x, standIn P.state.values v = some x → standIn P.state.values w = some x → v = w
  located : ∀ v x, standIn P.state.values v = some x →
    Located func blocks P.state.builder.func v x

/-- `values'` is `values`, or `values` with one entry more, which was empty. -/
def WritesFresh (values values' : List (Option Cranelift.Value)) : Prop :=
  values' = values ∨ ∃ (v : Ir.Value) (x : Cranelift.Value), v.index < values.length ∧
    standIn values v = none ∧ values' = values.set v.index (some x)

theorem WritesFresh.keeps {values values' : List (Option Cranelift.Value)}
    (h : WritesFresh values values') : Extends (standIn values) (standIn values') := by
  rcases h with rfl | ⟨v, x, hlt, hnone, rfl⟩
  · exact fun _ _ h => h
  · intro w y hy
    have hne : v.index ≠ w.index := by
      intro e
      obtain rfl : v = w := Ir.Value.ext e
      rw [hnone] at hy
      cases hy
    simp only [standIn, List.getElem?_set_ne hne]
    exact hy

/-! ## The invariant of the run -/

section Run
variable {order : List Ir.Block} {blocks : List (Option Cranelift.Block)} {base : Builder}
  {sig : Signature}

/-- The invariants of the two loops at a point: the outer one at the end of the blocks done, the inner
one over the instructions passed since. -/
inductive PointInv (func : Ir.Function) (order : List Ir.Block)
    (blocks : List (Option Cranelift.Block)) (base : Builder) : EmitPoint → Prop
  | between {done after : List Ir.Block} {st : EmitState} :
      order = done ++ after → EmitInv func order blocks base done st →
      PointInv func order blocks base ⟨done, none, st⟩
  | within {done after : List Ir.Block} {a : Ir.Block} {passed rest : List Ir.Value}
      {st₀ st : EmitState} {nodes : List InstData} :
      order = done ++ a :: after → func.insts a = passed ++ rest →
      EmitInv func order blocks base done st₀ →
      passed.foldlM (emitValue func)
        ⟨st₀.builder.switchToBlock ⟨done.length⟩, st₀.values⟩ = .ok st →
      CodeInv func (DefinedIn func order done) (st₀.builder.switchToBlock ⟨done.length⟩)
        ⟨done.length⟩ st₀.values passed nodes st →
      PointInv func order blocks base ⟨done, some (a, passed), st⟩

theorem emitValue_writes {st st' : EmitState} {v : Ir.Value} {inst : Ir.Inst}
    (h : emitValue func st v = .ok st') (hinst : func.inst v = some inst) :
    ∃ x, v.index < st.values.length ∧ st'.values = st.values.set v.index (some x) := by
  simp only [emitValue, hinst] at h
  obtain ⟨⟨x, builder⟩, -, h⟩ := bind_eq_ok.mp h
  obtain ⟨values, hwrite, h⟩ := bind_eq_ok.mp h
  cases h
  unfold writeIndex at hwrite
  split_ifs at hwrite with hlt
  cases hwrite
  exact ⟨x, hlt, rfl⟩

/-- A step keeps the invariant, and what it writes it writes to an empty entry. -/
theorem PointInv.step (hv : func.Valid) (horder : RpoOrder func order) (hplaced : Placed order blocks)
    {P Q : EmitPoint} (h : PointInv func order blocks base P)
    (hstep : EmitStep func order blocks P Q) :
    PointInv func order blocks base Q ∧ WritesFresh P.state.values Q.state.values := by
  cases hstep with
  | @enter done after a x st hsplit hx =>
    cases h with
    | between _ hinv =>
      have hat : standInBlock blocks a = some ⟨done.length⟩ :=
        (hplaced a ⟨_⟩).mpr (by simp [hsplit])
      obtain rfl := Except.ok.inj ((clifBlock_of_some hat).symm.trans hx)
      exact ⟨.within hsplit (List.nil_append _).symm hinv rfl (.start rfl hinv.length hinv.stands),
        .inl rfl⟩
  | @inst done a passed rest v st st' hinsts hv' =>
    cases h with
    | @within _ after _ _ _ st₀ _ nodes hsplit _ hinv hrun hcode =>
      obtain ⟨st₁, nodes', inst, hst₁, hinst, hempty, hcode'⟩ :=
        hcode.next hv horder hsplit hinv hinsts
      obtain rfl := Except.ok.inj (hst₁.symm.trans hv')
      obtain ⟨x, hlt, hset⟩ := emitValue_writes hv' hinst
      have hinsts' : func.insts a = (passed ++ [v]) ++ rest := by rw [hinsts]; simp
      exact ⟨.within hsplit hinsts' hinv (foldlM_snoc hrun hv') hcode',
        .inr ⟨v, x, hlt, hempty, hset⟩⟩
  | @leave done a st term builder hterm hbuilder =>
    cases h with
    | @within _ after _ _ _ st₀ _ nodes hsplit _ hinv hrun hcode =>
      have hat : standInBlock blocks a = some ⟨done.length⟩ :=
        (hplaced a ⟨_⟩).mpr (by simp [hsplit])
      have hblock : emitBlock func blocks st₀ a = .ok ⟨builder, st.values⟩ := by
        simp only [emitBlock, clifBlock_of_some hat, ok_bind, hrun, hterm, okOr, hbuilder, pure_eq_ok]
      obtain ⟨st', hst', hinv'⟩ := emitBlock_spec hv horder hplaced hsplit hinv
      obtain rfl := Except.ok.inj (hblock.symm.trans hst')
      have hsplit' : order = (done ++ [a]) ++ after := by rw [hsplit]; simp
      exact ⟨.between hsplit' hinv', .inl rfl⟩

theorem PointInv.tableInv (hstate : ParamState func order sig (fun _ => True) base)
    (horder : RpoOrder func order) (hplaced : Placed order blocks) {P : EmitPoint}
    (h : PointInv func order blocks base P) : TableInv func order blocks P := by
  have hparams : ∀ v, (∃ c ∈ order, v ∈ func.blockParams c) ↔
      ∃ c, func.Reachable c ∧ v ∈ func.blockParams c := fun v =>
    exists_congr fun c => and_congr_left' (horder.mem_iff c)
  cases h with
  | @between done after st hsplit hinv =>
    refine ⟨⟨after, by simpa using hsplit⟩, fun v => ?_, hinv.stands.injective, fun v x hx =>
      hinv.located hstate horder hplaced hsplit hx⟩
    rw [hinv.stands.defined, DefinedIn, EmitPoint.Defined, hparams]
    simp
  | @within done after a passed rest st₀ st nodes hsplit hinsts hinv hrun hcode =>
    refine ⟨⟨after, by simpa using hsplit⟩, fun v => ?_, hcode.stands.injective, fun v x hx => ?_⟩
    · rw [hcode.stands.defined, DefinedIn, EmitPoint.Defined, hparams, or_assoc]
      simp
    · obtain ⟨types, -, happ⟩ := hcode.appends
      rcases (hcode.stands.defined v).mp ⟨x, hx⟩ with hold | hpassed
      · obtain ⟨y, hy⟩ := (hinv.stands.defined v).mpr hold
        obtain rfl := Option.some.inj ((hcode.grows.keeps v y hy).symm.trans hx)
        exact (hinv.located hstate horder hplaced hsplit hy).appends
          (b := st₀.builder.switchToBlock ⟨done.length⟩) happ
      · have hget : order[done.length]? = some a := by simp [hsplit]
        refine ⟨a, ⟨done.length⟩, (horder.mem_iff a).mp (List.mem_of_getElem? hget),
          (hplaced a ⟨_⟩).mpr hget, .inr ⟨by rw [hinsts]; exact List.mem_append_left _ hpassed, ?_⟩⟩
        rw [Cranelift.Function.blockResults, happ.insts, if_pos rfl, List.filterMap_append]
        exact List.mem_append_right _ (mem_results_of_lowers hcode.lowers hpassed hx)

theorem PointInv.run (hv : func.Valid) (horder : RpoOrder func order) (hplaced : Placed order blocks)
    {P Q : EmitPoint} (h : PointInv func order blocks base P) (hPQ : Emits func order blocks P Q) :
    PointInv func order blocks base Q ∧
      Extends (standIn P.state.values) (standIn Q.state.values) := by
  induction hPQ with
  | refl => exact ⟨h, fun _ _ hx => hx⟩
  | tail _ hstep ih =>
    obtain ⟨hinv, hwrites⟩ := ih.1.step hv horder hplaced hstep
    exact ⟨hinv, ih.2.trans hwrites.keeps⟩

end Run

theorem emission_order {e : Emission} (h : emission func isa = .ok e) :
    reachableRpo func = .ok e.order := by
  obtain ⟨order, horder, h⟩ := bind_eq_ok.mp h
  obtain ⟨sig, -, h⟩ := bind_eq_ok.mp h
  obtain ⟨⟨blocks, builder⟩, -, h⟩ := bind_eq_ok.mp h
  obtain ⟨entry, -, h⟩ := bind_eq_ok.mp h
  obtain ⟨base, -, h⟩ := bind_eq_ok.mp h
  obtain ⟨values, -, h⟩ := bind_eq_ok.mp h
  cases h
  exact horder

/-- On a valid function that `translate` accepts, its emission loop starts from the table of the
parameters, each written to an empty entry. At every point of the loop the value map holds exactly the
parameters of the reachable blocks and the instructions emitted so far, distinct values have distinct
stand-ins, and each stand-in is defined in the block that stands for the one defining the value. A step
writes at most one entry, an empty one, so no entry ever changes. -/
theorem emission_writes_once (hv : func.Valid) {clif : Cranelift.Function}
    (h : translate func isa = .ok clif) :
    ∃ e last, emission func isa = .ok e ∧ reachableRpo func = .ok e.order ∧
      last.builder.func = clif ∧
      Emits func e.order e.blocks ⟨[], none, e.start⟩ ⟨e.order, none, last⟩ ∧
      (e.order.flatMap (paramWrites func e.blocks e.start.builder)).foldlM mapParam
        (List.replicate func.valueCount none) = .ok e.start.values ∧
      (∀ before p after,
        e.order.flatMap (paramWrites func e.blocks e.start.builder) = before ++ p :: after →
        ∃ table, before.foldlM mapParam (List.replicate func.valueCount none) = .ok table ∧
          standIn table p.1 = none) ∧
      ∀ P, Emits func e.order e.blocks ⟨[], none, e.start⟩ P →
        Emits func e.order e.blocks P ⟨e.order, none, last⟩ ∧
        TableInv func e.order e.blocks P ∧
        (∀ Q, EmitStep func e.order e.blocks P Q → WritesFresh P.state.values Q.state.values) ∧
        ∀ Q, Emits func e.order e.blocks P Q →
          Extends (standIn P.state.values) (standIn Q.state.values) := by
  have hunit : ¬ HasUnitParam func := by
    intro hunit
    rw [translate, translation_unit hv hunit] at h
    cases h
  unfold HasUnitParam at hunit
  push Not at hunit
  obtain ⟨order, sig, blocks, b, hstart, hcontinues⟩ := exists_prepared isa hv hunit.1
  obtain ⟨base, values, hparams, hvalues, hstate, hlength, hpairs⟩ := hstart.parameters hv hunit.2
  have hemission : emission func isa = .ok ⟨order, blocks, ⟨base, values⟩⟩ := by
    rw [hcontinues, hparams, ok_bind, hvalues, ok_bind, pure_eq_ok]
  -- The loop, from the point it starts at.
  obtain ⟨t, ht, hclif⟩ := bind_eq_ok.mp h
  rw [translation_eq, hemission, ok_bind] at ht
  obtain ⟨last, hlast, ht⟩ := bind_eq_ok.mp ht
  cases ht
  have hrun : Emits func order blocks ⟨[], none, base, values⟩ ⟨order, none, last⟩ :=
    emits_of_blocks (List.nil_append order).symm hlast
  have hpoint : PointInv func order blocks base ⟨[], none, base, values⟩ :=
    .between (List.nil_append order).symm (EmitInv.start hstate hlength hpairs)
  refine ⟨_, last, hemission, emission_order hemission, Except.ok.inj hclif, hrun, ?_,
    fun before p after hsplit => ?_, fun P hP => ?_⟩
  · rw [← mapParams_eq_writes fun c hc => hstart.placed.exists_standIn hc, hvalues]
  · exact paramWrites_fresh hv hstart.rpo hstart.placed hstate hsplit
  · obtain ⟨hinv, -⟩ := hpoint.run hv hstart.rpo hstart.placed hP
    exact ⟨hrun.to_end hP, hinv.tableInv hstate hstart.rpo hstart.placed,
      fun Q hQ => (hinv.step hv hstart.rpo hstart.placed hQ).2,
      fun Q hQ => (hinv.run hv hstart.rpo hstart.placed hQ).2⟩

theorem halvings_writes_once : ∃ e last, emission Ir.halvings ⟨⟨0⟩⟩ = .ok e ∧
    Emits Ir.halvings e.order e.blocks ⟨[], none, e.start⟩ ⟨e.order, none, last⟩ ∧
    ∀ P, Emits Ir.halvings e.order e.blocks ⟨[], none, e.start⟩ P →
      TableInv Ir.halvings e.order e.blocks P := by
  obtain ⟨clif, hclif⟩ := halvings_translates
  obtain ⟨e, last, hemission, -, -, hrun, -, -, hpoints⟩ :=
    emission_writes_once Ir.halvings.valid hclif
  exact ⟨e, last, hemission, hrun, fun P hP => (hpoints P hP).2.1⟩

end JitLang.Translate
