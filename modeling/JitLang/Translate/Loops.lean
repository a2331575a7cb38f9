import JitLang.Translate.Lowering
import JitLang.Translate.TraversalCorrect

/-! # The signature and the loops before emission

What each stage of `translate` leaves behind, stage by stage: the signature, the block table
(`Placed`), the block parameters (`ParamState`) and the table of their stand-ins (`ParamPair`). The
loops are inductions over the part of the block order already processed; the last one, which only
writes, is a single list of writes (`paramWrites`).
-/

namespace JitLang.Translate
open Foundations Cranelift
set_option autoImplicit false

/-! ## Tables -/

theorem writeIndex_standIn {values : List (Option Cranelift.Value)} {v : Ir.Value}
    (x : Cranelift.Value) (h : v.index < values.length) :
    ∃ values', writeIndex values v.index (some x) = .ok values' ∧
      values'.length = values.length ∧
      ∀ w, standIn values' w = if w = v then some x else standIn values w := by
  refine ⟨_, writeIndex_of_lt _ h, List.length_set, ?_⟩
  intro w
  by_cases hw : w = v
  · simp [standIn, hw, h]
  · have hne : v.index ≠ w.index := fun e => hw (Ir.Value.ext e.symm)
    simp [standIn, hw, hne]

theorem writeIndex_standInBlock {blocks : List (Option Cranelift.Block)} {b : Ir.Block}
    (x : Cranelift.Block) (h : b.index < blocks.length) :
    ∃ blocks', writeIndex blocks b.index (some x) = .ok blocks' ∧
      blocks'.length = blocks.length ∧
      ∀ c, standInBlock blocks' c = if c = b then some x else standInBlock blocks c := by
  refine ⟨_, writeIndex_of_lt _ h, List.length_set, ?_⟩
  intro c
  by_cases hc : c = b
  · simp [standInBlock, hc, h]
  · have hne : b.index ≠ c.index := fun e => hc (Ir.Block.ext e.symm)
    simp [standInBlock, hc, hne]

@[simp] theorem standIn_replicate (n : ℕ) (v : Ir.Value) : standIn (List.replicate n none) v = none := by
  rw [standIn, List.getElem?_replicate]
  split <;> rfl

@[simp] theorem standInBlock_replicate (n : ℕ) (b : Ir.Block) :
    standInBlock (List.replicate n none) b = none := by
  rw [standInBlock, List.getElem?_replicate]
  split <;> rfl

/-! ## The signature -/

def slot (ty : Ir.Ty) : Option AbiParam :=
  (machineTy ty).map fun mty => ⟨mty, if ty = .bool then .uext else .none⟩

theorem abiParam_eq (ty : Ir.Ty) : abiParam ty = okOr (slot ty) (.error unitError) := by
  cases ty <;> rfl

theorem slot_eq_some {ty : Ir.Ty} {param : AbiParam} (h : slot ty = some param) :
    machineTy ty = some param.valueType ∧ (param.extension = .uext ↔ ty = .bool) := by
  obtain ⟨mty, hmty, rfl⟩ := Option.map_eq_some_iff.mp h
  exact ⟨hmty, by by_cases hb : ty = .bool <;> simp [hb]⟩

theorem slot_of_ne_unit {ty : Ir.Ty} (h : ty ≠ .unit) : ∃ param, slot ty = some param := by
  cases ty with
  | unit => exact absurd rfl h
  | _ => exact ⟨_, rfl⟩

structure SignatureOf (func : Ir.Function) (isa : TargetIsa) (sig : Signature) : Prop where
  callConv : sig.callConv = isa.defaultCallConv
  params : func.params.map slot = sig.params.map some
  returns : sig.returns = (slot func.ret).toList

theorem signature_ok {func : Ir.Function} (isa : TargetIsa) (h : Ir.Ty.unit ∉ func.params) :
    ∃ sig, signature func isa = .ok sig ∧ SignatureOf func isa sig := by
  obtain ⟨params, hparams⟩ := exists_map_eq_some (f := slot) (l := func.params) fun ty hty =>
    slot_of_ne_unit fun e => h (e ▸ hty)
  have hmapM : func.params.mapM abiParam = .ok params := by
    rw [mapM_eq_ok_iff]
    have hpairs := hparams
    rw [← List.forall₂_eq_eq_eq, List.forall₂_map_left_iff, List.forall₂_map_right_iff] at hpairs
    refine hpairs.imp fun ty param hslot => ?_
    rw [abiParam_eq, hslot]
    rfl
  by_cases hret : func.ret = .unit
  · refine ⟨⟨isa.defaultCallConv, params, []⟩, by simp [signature, hmapM, hret], rfl, hparams, ?_⟩
    rw [hret]
    rfl
  · obtain ⟨ret, hslot⟩ := slot_of_ne_unit hret
    have hparam : abiParam func.ret = .ok ret := by
      rw [abiParam_eq, hslot]
      rfl
    exact ⟨⟨isa.defaultCallConv, params, [ret]⟩, by simp [signature, hmapM, hret, hparam], rfl,
      hparams, by rw [hslot]; rfl⟩

theorem signature_unit {func : Ir.Function} (isa : TargetIsa) (h : Ir.Ty.unit ∈ func.params) :
    signature func isa = .error (.error unitError) := by
  have hmapM : func.params.mapM abiParam = .error (.error unitError) := by
    refine mapM_fails ?_ ⟨.unit, h, rfl⟩
    intro ty _
    cases ty with
    | unit => exact .inl rfl
    | _ => exact .inr ⟨_, rfl⟩
  rw [signature, hmapM, error_bind]

/-! ## Blocks -/

/-- The table gives each block of the order the Cranelift block at its position. -/
def Placed (order : List Ir.Block) (blocks : List (Option Cranelift.Block)) : Prop :=
  ∀ b x, standInBlock blocks b = some x ↔ order[x.index]? = some b

theorem Placed.exists_standIn {order : List Ir.Block} {blocks : List (Option Cranelift.Block)}
    (h : Placed order blocks) {c : Ir.Block} (hc : c ∈ order) :
    ∃ x, standInBlock blocks c = some x := by
  obtain ⟨i, hi⟩ := List.mem_iff_getElem?.mp hc
  exact ⟨⟨i⟩, (h c ⟨i⟩).mpr hi⟩

def handles (n : ℕ) : List Cranelift.Block := (List.range n).map Cranelift.Block.mk

theorem handles_succ (n : ℕ) : handles (n + 1) = handles n ++ [⟨n⟩] := by
  simp [handles, List.range_succ]

theorem mem_handles {n : ℕ} {x : Cranelift.Block} : x ∈ handles n ↔ x.index < n := by
  cases x
  simp [handles]

theorem handles_nodup (n : ℕ) : (handles n).Nodup :=
  List.nodup_range.map fun _ _ h => congrArg Cranelift.Block.index h

theorem values_nodup (n : ℕ) : ((List.range n).map Cranelift.Value.mk).Nodup :=
  List.nodup_range.map fun _ _ h => congrArg Cranelift.Value.index h

theorem handles_split {n : ℕ} {x : Cranelift.Block} (h : x.index < n) :
    ∃ after, handles n = handles x.index ++ x :: after ∧ ∀ y ∈ after, x.index < y.index := by
  induction n with
  | zero => omega
  | succ n ih =>
    rcases Nat.lt_succ_iff_lt_or_eq.mp h with hlt | heq
    · obtain ⟨after, hsplit, hafter⟩ := ih hlt
      refine ⟨after ++ [⟨n⟩], by rw [handles_succ, hsplit]; simp, ?_⟩
      intro y hy
      rcases List.mem_append.mp hy with hy | hy
      · exact hafter y hy
      · rw [List.mem_singleton.mp hy]
        exact hlt
    · subst heq
      exact ⟨[], by rw [handles_succ], by simp⟩

/-- Adding to the contents of one block, with nothing in the blocks after it, adds at the end. -/
theorem flatMap_handles_extend {α : Type} {f g : Cranelift.Block → List α} {n : ℕ}
    {x : Cranelift.Block} {l : List α} (hx : x.index < n)
    (hbefore : ∀ y, y.index < x.index → g y = f y) (hat : g x = f x ++ l)
    (hafter : ∀ y, x.index < y.index → y.index < n → f y = [] ∧ g y = []) :
    (handles n).flatMap g = (handles n).flatMap f ++ l := by
  obtain ⟨after, hsplit, hlate⟩ := handles_split hx
  have hmem : ∀ y ∈ after, y.index < n := fun y hy =>
    mem_handles.mp (by rw [hsplit]; simp [hy])
  have hf : after.flatMap f = [] :=
    List.flatMap_eq_nil_iff.mpr fun y hy => (hafter y (hlate y hy) (hmem y hy)).1
  have hg : after.flatMap g = [] :=
    List.flatMap_eq_nil_iff.mpr fun y hy => (hafter y (hlate y hy) (hmem y hy)).2
  have hfront : (handles x.index).flatMap g = (handles x.index).flatMap f :=
    List.flatMap_congr fun y hy => hbefore y (mem_handles.mp hy)
  rw [hsplit, List.flatMap_append, List.flatMap_append, List.flatMap_cons, List.flatMap_cons, hf, hg,
    hfront, hat]
  simp

/-- A builder of `n` empty blocks. -/
def blank (name : UserFuncName) (sig : Signature) (n : ℕ) : Builder :=
  ⟨⟨name, sig, List.replicate n ⟨[], []⟩, [], []⟩, none⟩

theorem blank_createBlock (name : UserFuncName) (sig : Signature) (n : ℕ) :
    (blank name sig n).createBlock = (⟨n⟩, blank name sig (n + 1)) := by
  simp [blank, Builder.createBlock, List.replicate_succ']

theorem Placed.concat {done : List Ir.Block} {blocks blocks' : List (Option Cranelift.Block)}
    {a : Ir.Block} (h : Placed done blocks) (ha : a ∉ done)
    (hlookup : ∀ c, standInBlock blocks' c =
      if c = a then some ⟨done.length⟩ else standInBlock blocks c) :
    Placed (done ++ [a]) blocks' := by
  intro b x
  rw [hlookup, List.getElem?_append]
  by_cases hb : b = a
  · subst hb
    cases x with
    | mk i =>
      rcases Nat.lt_trichotomy i done.length with hlt | heq | hgt
      · have hne : done[i] ≠ b := fun e => ha (e ▸ List.getElem_mem hlt)
        simp [hlt, hlt.ne', hne]
      · simp [heq]
      · have hpos : i - done.length ≠ 0 := by omega
        simp [hgt.ne, hgt.not_gt, hpos]
  · have hrest : ([a] : List Ir.Block)[x.index - done.length]? ≠ some b := fun e =>
      hb (List.mem_singleton.mp (List.mem_of_getElem? e))
    rw [if_neg hb, h b x]
    by_cases hlt : x.index < done.length
    · rw [if_pos hlt]
    · rw [if_neg hlt, List.getElem?_eq_none (Nat.not_lt.mp hlt)]
      simp [hrest]

theorem not_mem_of_split {α : Type} {l done rest : List α} {a : α} (hnodup : l.Nodup)
    (hl : l = done ++ a :: rest) : a ∉ done := by
  rw [hl] at hnodup
  exact fun hmem => (List.nodup_append'.mp hnodup).2.2 hmem List.mem_cons_self

theorem createBlocks_spec {order : List Ir.Block} {count : ℕ} (hnodup : order.Nodup)
    (hin : ∀ b ∈ order, b.index < count) (name : UserFuncName) (sig : Signature) :
    ∃ blocks, order.foldlM createBlock (List.replicate count none, blank name sig 0) =
        .ok (blocks, blank name sig order.length) ∧ Placed order blocks := by
  let Inv (done : List Ir.Block) (st : List (Option Cranelift.Block) × Builder) : Prop :=
    st.1.length = count ∧ Placed done st.1 ∧ st.2 = blank name sig done.length
  have hround : ∀ done a rest st, order = done ++ a :: rest → Inv done st →
      ∃ st', createBlock st a = .ok st' ∧ Inv (done ++ [a]) st' := by
    rintro done a rest ⟨blocks, builder⟩ horder ⟨hlen, hplaced, rfl⟩
    have ha : a.index < blocks.length := by
      rw [hlen]
      exact hin a (by rw [horder]; simp)
    obtain ⟨blocks', hwrite, hlen', hlookup⟩ := writeIndex_standInBlock ⟨done.length⟩ ha
    refine ⟨(blocks', blank name sig (done.length + 1)), ?_, hlen'.trans hlen,
      hplaced.concat (not_mem_of_split hnodup horder) hlookup, by simp⟩
    simp [createBlock, blank_createBlock, hwrite]
  obtain ⟨⟨blocks, builder⟩, hrun, -, hplaced, rfl⟩ :=
    foldlM_invariant (s := (List.replicate count none, blank name sig 0))
      (I := Inv) ⟨by simp, by simp [Placed], rfl⟩ hround
  exact ⟨blocks, hrun, hplaced⟩

/-! ## Block parameters -/

def TypedAs (types : List Cranelift.Ty) (xs : List Cranelift.Value) (tys : List Cranelift.Ty) : Prop :=
  xs.map (fun x => types[x.index]?) = tys.map some

theorem TypedAs.append {types : List Cranelift.Ty} {xs : List Cranelift.Value}
    {tys : List Cranelift.Ty} (h : TypedAs types xs tys) (more : List Cranelift.Ty) :
    TypedAs (types ++ more) xs tys := by
  unfold TypedAs at h ⊢
  rw [← List.forall₂_eq_eq_eq, List.forall₂_map_left_iff, List.forall₂_map_right_iff] at h ⊢
  exact h.imp fun _ _ h => HasType.append h more

theorem typedAs_fresh (types tys : List Cranelift.Ty) :
    TypedAs (types ++ tys) ((List.range' types.length tys.length).map Cranelift.Value.mk) tys := by
  refine List.ext_getElem (by simp) fun i h₁ h₂ => ?_
  have hi : i < tys.length := by simpa using h₂
  simp [hi]

def MachineTyped (func : Ir.Function) (vs : List Ir.Value) (tys : List Cranelift.Ty) : Prop :=
  vs.map (machineType func) = tys.map some

theorem exists_machineTyped {func : Ir.Function} {vs : List Ir.Value}
    (htyped : ∀ v ∈ vs, ∃ ty, func.valueType v = some ty)
    (hunit : ∀ v ∈ vs, func.valueType v ≠ some .unit) : ∃ tys, MachineTyped func vs tys := by
  refine exists_map_eq_some fun v hv => ?_
  obtain ⟨ty, hty⟩ := htyped v hv
  rw [machineType_eq hty]
  refine Option.ne_none_iff_exists'.mp fun hnone => hunit v hv ?_
  rw [hty, machineTy_eq_none.mp hnone]

/-- The builder while parameters are appended: the blocks singled out by `filled` have theirs, the
others none, and the values are numbered in block order. -/
structure ParamState (func : Ir.Function) (order : List Ir.Block) (sig : Signature)
    (filled : Ir.Block → Prop) (b : Builder) : Prop where
  signature : b.func.signature = sig
  blocks : b.func.blocks.length = order.length
  layout : b.func.layout = []
  insts : ∀ x, b.func.blockInsts x = []
  typed : ∀ x c, order[x.index]? = some c → filled c → ∃ tys,
    MachineTyped func (func.blockParams c) tys ∧
      TypedAs b.func.valueTypes (b.func.blockParams x) tys
  empty : ∀ x c, order[x.index]? = some c → ¬ filled c → b.func.blockParams x = []
  numbering : (handles order.length).flatMap b.func.blockParams =
    (List.range b.func.valueTypes.length).map Cranelift.Value.mk

namespace ParamState
variable {func : Ir.Function} {order : List Ir.Block} {sig : Signature} {b b' : Builder}
  {filled filled' : Ir.Block → Prop}

theorem congr (h : ParamState func order sig filled b) (hiff : ∀ c ∈ order, filled c ↔ filled' c) :
    ParamState func order sig filled' b := by
  refine ⟨h.signature, h.blocks, h.layout, h.insts, ?_, ?_, h.numbering⟩
  · exact fun x c hx hc => h.typed x c hx ((hiff c (List.mem_of_getElem? hx)).mpr hc)
  · exact fun x c hx hc => h.empty x c hx fun hf => hc ((hiff c (List.mem_of_getElem? hx)).mp hf)

theorem blank : ParamState func order sig (fun _ => False)
    (Translate.blank ⟨0, 0⟩ sig order.length) := by
  have hparams : ∀ x, (Translate.blank ⟨0, 0⟩ sig order.length).func.blockParams x = [] := by
    intro x
    simp only [Translate.blank, Cranelift.Function.blockParams, List.getElem?_replicate]
    split <;> rfl
  have hinsts : ∀ x, (Translate.blank ⟨0, 0⟩ sig order.length).func.blockInsts x = [] := by
    intro x
    simp only [Translate.blank, Cranelift.Function.blockInsts, List.getElem?_replicate]
    split <;> rfl
  exact ⟨rfl, by simp [Translate.blank], rfl, hinsts, fun _ _ _ h => h.elim,
    fun x _ _ _ => hparams x, List.flatMap_eq_nil_iff.mpr fun x _ => hparams x⟩

/-- Filling a block, none of the later ones being filled, extends the numbering. -/
theorem fill (h : ParamState func order sig filled b) (hnodup : order.Nodup) {a : Ir.Block}
    {x : Cranelift.Block} {tys : List Cranelift.Ty} (hx : order[x.index]? = some a)
    (hempty : ¬ filled a)
    (hlater : ∀ (y : Cranelift.Block) c, order[y.index]? = some c → x.index < y.index → ¬ filled c)
    (htys : MachineTyped func (func.blockParams a) tys) (happ : b.AppendsParams x tys b') :
    ParamState func order sig (fun c => filled c ∨ c = a) b' := by
  have hunique : ∀ (y : Cranelift.Block) c, order[y.index]? = some c → c = a → y = x := by
    rintro y c hy rfl
    obtain ⟨hlt, -⟩ := List.getElem?_eq_some_iff.mp hy
    exact Cranelift.Block.ext ((List.getElem?_inj hlt hnodup).mp (hy.trans hx.symm))
  have hold : ∀ y, y ≠ x → b'.func.blockParams y = b.func.blockParams y := fun y hy => by
    rw [happ.params, if_neg hy]
  have hnew : b'.func.blockParams x =
      (List.range' b.func.valueTypes.length tys.length).map Cranelift.Value.mk := by
    rw [happ.params, if_pos rfl, h.empty x a hx hempty]
    rfl
  refine ⟨happ.signature.trans h.signature, happ.blocks.trans h.blocks, happ.layout.trans h.layout,
    fun y => (happ.insts y).trans (h.insts y), ?_, ?_, ?_⟩
  · intro y c hy hc
    rw [happ.types]
    by_cases hyx : y = x
    · subst hyx
      rw [hx] at hy
      cases hy
      exact ⟨tys, htys, hnew ▸ typedAs_fresh _ _⟩
    · have hf : filled c := hc.resolve_right fun hca => hyx (hunique y c hy hca)
      obtain ⟨tys', hm, ht⟩ := h.typed y c hy hf
      exact ⟨tys', hm, hold y hyx ▸ ht.append _⟩
  · intro y c hy hc
    push Not at hc
    have hyx : y ≠ x := fun e => hc.2 (by rw [e, hx] at hy; exact (Option.some.inj hy).symm)
    rw [hold y hyx, h.empty y c hy hc.1]
  · obtain ⟨hlt, -⟩ := List.getElem?_eq_some_iff.mp hx
    rw [flatMap_handles_extend hlt (f := b.func.blockParams)
      (l := (List.range' b.func.valueTypes.length tys.length).map Cranelift.Value.mk), h.numbering,
      happ.types, List.length_append, ← List.map_append, List.range_eq_range', List.range_eq_range',
      ← List.range'_append_1, Nat.zero_add]
    · exact fun y hy => hold y fun e => by rw [e] at hy; exact lt_irrefl _ hy
    · rw [hnew, h.empty x a hx hempty]
      rfl
    · intro y hxy hlen
      have hy := h.empty y _ (List.getElem?_eq_getElem hlen)
        (hlater y _ (List.getElem?_eq_getElem hlen) hxy)
      exact ⟨hy, by rw [hold y fun e => by rw [e] at hxy; exact lt_irrefl _ hxy, hy]⟩

end ParamState

theorem appendParam_loop {func : Ir.Function} {x : Cranelift.Block} {vs : List Ir.Value}
    {tys : List Cranelift.Ty} (htys : MachineTyped func vs tys) {b : Builder}
    (hlt : x.index < b.func.blocks.length) :
    ∃ b', vs.foldlM (appendParam func x) b = .ok b' ∧ b.AppendsParams x tys b' := by
  induction vs generalizing tys b with
  | nil =>
    obtain rfl : tys = [] := by simpa [MachineTyped] using htys
    exact ⟨b, rfl, .refl⟩
  | cons v vs ih =>
    cases tys with
    | nil => simp [MachineTyped] at htys
    | cons ty tys =>
      obtain ⟨hv, hvs⟩ := List.cons.inj htys
      obtain ⟨irTy, hirTy, hty⟩ := Option.bind_eq_some_iff.mp hv
      have happ := Builder.appendBlockParam_appends hlt ty
      obtain ⟨b', hrun, happ'⟩ := ih hvs (b := b.appendBlockParam x ty) (by rwa [happ.blocks])
      refine ⟨b', ?_, happ.trans happ'⟩
      have hround : appendParam func x b v = .ok (b.appendBlockParam x ty) := by
        simp [appendParam, valueType_of_some hirTy, abiType_eq, hty, okOr]
      rw [List.foldlM_cons, hround, ok_bind, hrun]

theorem appendParam_unit {func : Ir.Function} {x : Cranelift.Block} {vs : List Ir.Value}
    (htyped : ∀ v ∈ vs, ∃ ty, func.valueType v = some ty)
    (hunit : ∃ v ∈ vs, func.valueType v = some .unit) (b : Builder) :
    vs.foldlM (appendParam func x) b = .error (.error unitError) := by
  refine foldlM_fails (I := fun _ => True) ?_ ?_ trivial
  · intro v hv t _
    obtain ⟨ty, hty⟩ := htyped v hv
    cases hmty : machineTy ty with
    | none => exact .inl (by simp [appendParam, valueType_of_some hty, abiType_eq, hmty, okOr])
    | some mty =>
      exact .inr ⟨t.appendBlockParam x mty,
        by simp [appendParam, valueType_of_some hty, abiType_eq, hmty, okOr], trivial⟩
  · obtain ⟨v, hv, hty⟩ := hunit
    exact ⟨v, hv, fun t _ => by simp [appendParam, valueType_of_some hty, abiType_eq, machineTy, okOr]⟩

section ParameterLoop
variable {func : Ir.Function} {order : List Ir.Block} {blocks : List (Option Cranelift.Block)}
  {sig : Signature}

theorem machineTyped_entry (hv : func.Valid) {isa : TargetIsa} (hsig : SignatureOf func isa sig) :
    MachineTyped func (func.blockParams func.entry) (sig.params.map AbiParam.valueType) := by
  have hslot (ty : Ir.Ty) : (slot ty).map AbiParam.valueType = machineTy ty := by
    cases ty <;> rfl
  calc (func.blockParams func.entry).map (machineType func)
      = ((func.blockParams func.entry).map func.valueType).map (·.bind machineTy) := by
        rw [List.map_map]
        rfl
    _ = (func.params.map slot).map (Option.map AbiParam.valueType) := by
        rw [hv.entry_params, List.map_map, List.map_map]
        exact List.map_congr_left fun ty _ => (hslot ty).symm
    _ = (sig.params.map AbiParam.valueType).map some := by
        rw [hsig.params, List.map_map, List.map_map]
        rfl

theorem fill_entry (hv : func.Valid) {isa : TargetIsa} (hsig : SignatureOf func isa sig)
    (hnodup : order.Nodup) {rest : List Ir.Block} (horder : order = func.entry :: rest) :
    ParamState func order sig (· = func.entry)
      ((blank ⟨0, 0⟩ sig order.length).appendBlockParamsForFunctionParams ⟨0⟩) := by
  have happ : (blank ⟨0, 0⟩ sig order.length).AppendsParams ⟨0⟩ (sig.params.map AbiParam.valueType)
      ((blank ⟨0, 0⟩ sig order.length).appendBlockParamsForFunctionParams ⟨0⟩) :=
    Builder.appendBlockParams_appends (by simp [blank, horder]) sig.params
  have h := ParamState.blank.fill hnodup (x := ⟨0⟩) (a := func.entry) (by rw [horder]; rfl) id
    (fun _ _ _ _ => id) (machineTyped_entry hv hsig) happ
  exact h.congr fun c _ => by simp

theorem unfilled_later (hnodup : order.Nodup) {rest done after : List Ir.Block} {a : Ir.Block}
    (horder : order = func.entry :: rest) (hsplit : order = done ++ a :: after) {c : Ir.Block}
    {i : ℕ} (hi : order[i]? = some c) (hlate : done.length < i) : ¬ (c = func.entry ∨ c ∈ done) := by
  intro hc
  have hat : ∃ j, j ≤ done.length ∧ order[j]? = some c := by
    rcases hc with rfl | hc
    · exact ⟨0, Nat.zero_le _, by rw [horder]; rfl⟩
    · obtain ⟨j, hj, rfl⟩ := List.mem_iff_getElem.mp hc
      exact ⟨j, hj.le, by rw [hsplit, List.getElem?_append_left hj]; simp [hj]⟩
  obtain ⟨j, hj, hget⟩ := hat
  obtain ⟨hbound, -⟩ := List.getElem?_eq_some_iff.mp hget
  have hsame := (List.getElem?_inj hbound hnodup).mp (hget.trans hi.symm)
  omega

theorem appendParams_spec (hplaced : Placed order blocks) (hnodup : order.Nodup)
    {rest : List Ir.Block} (horder : order = func.entry :: rest)
    (htypes : ∀ c ∈ order, ∃ tys, MachineTyped func (func.blockParams c) tys) {b : Builder}
    (h : ParamState func order sig (· = func.entry) b) :
    ∃ b', order.foldlM (appendParams func blocks) b = .ok b' ∧
      ParamState func order sig (fun _ => True) b' := by
  have hround : ∀ done a after t, order = done ++ a :: after →
      ParamState func order sig (fun c => c = func.entry ∨ c ∈ done) t →
      ∃ t', appendParams func blocks t a = .ok t' ∧
        ParamState func order sig (fun c => c = func.entry ∨ c ∈ done ++ [a]) t' := by
    intro done a after t hsplit ht
    by_cases ha : a = func.entry
    · refine ⟨t, by simp [appendParams, ha], ht.congr fun c _ => ?_⟩
      subst ha
      simp only [List.mem_append, List.mem_singleton]
      tauto
    · have hx : order[done.length]? = some a := by simp [hsplit]
      have hblock : standInBlock blocks a = some ⟨done.length⟩ := (hplaced a ⟨_⟩).mpr hx
      obtain ⟨tys, htys⟩ := htypes a (List.mem_of_getElem? hx)
      have hlt : done.length < t.func.blocks.length := by
        rw [ht.blocks]
        exact (List.getElem?_eq_some_iff.mp hx).1
      obtain ⟨t', hrun, happ⟩ := appendParam_loop htys (b := t) (x := ⟨done.length⟩) hlt
      refine ⟨t', by rw [appendParams, if_neg ha, clifBlock_of_some hblock, ok_bind, hrun], ?_⟩
      have hfresh : ¬ (a = func.entry ∨ a ∈ done) := by
        rintro (h | h)
        · exact ha h
        · exact not_mem_of_split hnodup hsplit h
      refine (ht.fill hnodup (x := ⟨done.length⟩) hx hfresh
        (fun y c hy => unfilled_later hnodup horder hsplit hy) htys happ).congr fun c _ => ?_
      simp only [List.mem_append, List.mem_singleton]
      tauto
  obtain ⟨b', hrun, hstate⟩ := foldlM_invariant (l := order) (s := b)
    (I := fun done t => ParamState func order sig (fun c => c = func.entry ∨ c ∈ done) t)
    (h.congr fun c _ => by simp) hround
  exact ⟨b', hrun, hstate.congr fun c hc => by simp [hc]⟩

/-- The parameter loop fails if a block other than the entry has a `unit` parameter. -/
theorem appendParams_unit (hplaced : Placed order blocks)
    (htyped : ∀ c ∈ order, ∀ v ∈ func.blockParams c, ∃ ty, func.valueType v = some ty)
    (hunit : ∃ c ∈ order, c ≠ func.entry ∧ ∃ v ∈ func.blockParams c, func.valueType v = some .unit)
    {b : Builder} (hlen : b.func.blocks.length = order.length) :
    order.foldlM (appendParams func blocks) b = .error (.error unitError) := by
  have hplace : ∀ c ∈ order, ∃ x, standInBlock blocks c = some x ∧ x.index < order.length := by
    intro c hc
    obtain ⟨i, hi, rfl⟩ := List.mem_iff_getElem.mp hc
    exact ⟨⟨i⟩, (hplaced _ ⟨i⟩).mpr (List.getElem?_eq_getElem hi), hi⟩
  refine foldlM_fails (I := fun t => t.func.blocks.length = order.length) ?_ ?_ hlen
  · intro a ha t ht
    by_cases hentry : a = func.entry
    · exact .inr ⟨t, by simp [appendParams, hentry], ht⟩
    · obtain ⟨x, hx, hlt⟩ := hplace a ha
      have hrun : appendParams func blocks t a =
          (func.blockParams a).foldlM (appendParam func x) t := by
        rw [appendParams, if_neg hentry, clifBlock_of_some hx, ok_bind]
      by_cases hbad : ∃ v ∈ func.blockParams a, func.valueType v = some .unit
      · exact .inl (by rw [hrun, appendParam_unit (htyped a ha) hbad])
      · obtain ⟨tys, htys⟩ := exists_machineTyped (htyped a ha) fun v hv hty => hbad ⟨v, hv, hty⟩
        obtain ⟨t', ht', happ⟩ := appendParam_loop htys (b := t) (x := x) (by rw [ht]; exact hlt)
        exact .inr ⟨t', by rw [hrun, ht'], happ.blocks.trans ht⟩
  · obtain ⟨a, ha, hentry, hbad⟩ := hunit
    obtain ⟨x, hx, -⟩ := hplace a ha
    refine ⟨a, ha, fun t _ => ?_⟩
    rw [appendParams, if_neg hentry, clifBlock_of_some hx, ok_bind,
      appendParam_unit (htyped a ha) hbad]

/-! ## Stand-ins of the parameters -/

/-- The IR value `v` and the Cranelift value `x` are parameters of corresponding blocks, in the same
position. -/
def ParamPair (func : Ir.Function) (order : List Ir.Block) (clif : Cranelift.Function) (v : Ir.Value)
    (x : Cranelift.Value) : Prop :=
  ∃ (i : ℕ) (c : Ir.Block) (j : ℕ), order[i]? = some c ∧ (func.blockParams c)[j]? = some v ∧
    (clif.blockParams ⟨i⟩)[j]? = some x

/-- Writing the pairs of an association with distinct new keys adds exactly them to the table. -/
theorem mapParam_loop {pairs : List (Ir.Value × Cranelift.Value)}
    {values : List (Option Cranelift.Value)} (hnodup : (pairs.map Prod.fst).Nodup)
    (hin : ∀ p ∈ pairs, p.1.index < values.length) (hfresh : ∀ p ∈ pairs, standIn values p.1 = none) :
    ∃ values', pairs.foldlM mapParam values = .ok values' ∧ values'.length = values.length ∧
      ∀ v x, standIn values' v = some x ↔ standIn values v = some x ∨ (v, x) ∈ pairs := by
  induction pairs generalizing values with
  | nil => exact ⟨values, rfl, rfl, by simp⟩
  | cons p pairs ih =>
    obtain ⟨hp, hpairs⟩ := List.nodup_cons.mp hnodup
    obtain ⟨table, hwrite, hlen, hlookup⟩ := writeIndex_standIn p.2 (hin p List.mem_cons_self)
    have hother : ∀ q ∈ pairs, q.1 ≠ p.1 := fun q hq e => hp (e ▸ List.mem_map_of_mem hq)
    have hin' : ∀ q ∈ pairs, q.1.index < table.length := fun q hq => by
      rw [hlen]
      exact hin q (List.mem_cons_of_mem _ hq)
    have hfresh' : ∀ q ∈ pairs, standIn table q.1 = none := fun q hq => by
      rw [hlookup, if_neg (hother q hq), hfresh q (List.mem_cons_of_mem _ hq)]
    obtain ⟨values', hrun, hlen', hspec⟩ := ih hpairs hin' hfresh'
    refine ⟨values', by rw [List.foldlM_cons, mapParam, hwrite, ok_bind, hrun], hlen'.trans hlen, ?_⟩
    intro v x
    rw [hspec, hlookup, List.mem_cons]
    by_cases hv : v = p.1
    · subst hv
      rw [if_pos rfl, hfresh p List.mem_cons_self]
      simp [Prod.ext_iff, eq_comm]
    · have hne : (v, x) ≠ p := fun e => hv (by rw [← e])
      rw [if_neg hv]
      simp [hne]

/-- The writes of the mapping loop for one block, in order. -/
def paramWrites (func : Ir.Function) (blocks : List (Option Cranelift.Block)) (builder : Builder)
    (irBlock : Ir.Block) : List (Ir.Value × Cranelift.Value) :=
  (standInBlock blocks irBlock).toList.flatMap fun block =>
    (func.blockParams irBlock).zip (builder.blockParams block)

theorem paramWrites_of_some {b : Builder} {c : Ir.Block} {x : Cranelift.Block}
    (h : standInBlock blocks c = some x) :
    paramWrites func blocks b c = (func.blockParams c).zip (b.func.blockParams x) := by
  simp [paramWrites, h, Builder.blockParams]

theorem mem_paramWrites (hplaced : Placed order blocks) {b : Builder} {v : Ir.Value}
    {x : Cranelift.Value} :
    (v, x) ∈ order.flatMap (paramWrites func blocks b) ↔ ParamPair func order b.func v x := by
  rw [List.mem_flatMap]
  constructor
  · rintro ⟨c, hc, hmem⟩
    obtain ⟨⟨i⟩, hx⟩ := hplaced.exists_standIn hc
    rw [paramWrites_of_some hx] at hmem
    obtain ⟨j, hj⟩ := List.mem_iff_getElem?.mp hmem
    obtain ⟨hjv, hjx⟩ := List.getElem?_zip_eq_some.mp hj
    exact ⟨i, c, j, (hplaced c ⟨i⟩).mp hx, hjv, hjx⟩
  · rintro ⟨i, c, j, hi, hjv, hjx⟩
    refine ⟨c, List.mem_of_getElem? hi, ?_⟩
    rw [paramWrites_of_some ((hplaced c ⟨i⟩).mpr hi)]
    exact List.mem_of_getElem? (List.getElem?_zip_eq_some.mpr ⟨hjv, hjx⟩)

theorem mapParams_eq_writes {b : Builder} {values : List (Option Cranelift.Value)}
    (hblocks : ∀ c ∈ order, ∃ x, standInBlock blocks c = some x) :
    order.foldlM (mapParams func blocks b) values =
      (order.flatMap (paramWrites func blocks b)).foldlM mapParam values := by
  induction order generalizing values with
  | nil => rfl
  | cons c order ih =>
    obtain ⟨x, hx⟩ := hblocks c List.mem_cons_self
    have hround : mapParams func blocks b values c =
        (paramWrites func blocks b c).foldlM mapParam values := by
      rw [paramWrites_of_some hx, mapParams, clifBlock_of_some hx, ok_bind, Builder.blockParams]
    rw [List.foldlM_cons, List.flatMap_cons, List.foldlM_append, hround]
    exact bind_congr fun table => ih fun d hd => hblocks d (List.mem_cons_of_mem _ hd)

section Writes
variable {b : Builder} (hplaced : Placed order blocks)
  (hlength : ∀ (x : Cranelift.Block) c, order[x.index]? = some c →
    (func.blockParams c).length = (b.func.blockParams x).length)
include hplaced hlength

theorem paramWrites_keys :
    (order.flatMap (paramWrites func blocks b)).map Prod.fst = order.flatMap func.blockParams := by
  rw [List.map_flatMap]
  refine List.flatMap_congr fun c hc => ?_
  obtain ⟨x, hx⟩ := hplaced.exists_standIn hc
  rw [paramWrites_of_some hx, List.map_fst_zip (hlength x c ((hplaced c x).mp hx)).le]

theorem paramWrites_inRange
    (hin : ∀ c ∈ order, ∀ v ∈ func.blockParams c, v.index < func.valueCount) :
    ∀ p ∈ order.flatMap (paramWrites func blocks b), p.1.index < func.valueCount := by
  intro p hp
  have hmem := List.mem_map_of_mem (f := Prod.fst) hp
  rw [paramWrites_keys hplaced hlength] at hmem
  obtain ⟨c, hc, hpc⟩ := List.mem_flatMap.mp hmem
  exact hin c hc _ hpc

theorem mapParams_spec (hnodup : (order.flatMap func.blockParams).Nodup)
    (hin : ∀ c ∈ order, ∀ v ∈ func.blockParams c, v.index < func.valueCount) :
    ∃ values, order.foldlM (mapParams func blocks b) (List.replicate func.valueCount none) =
        .ok values ∧ values.length = func.valueCount ∧
      ∀ v x, standIn values v = some x ↔ ParamPair func order b.func v x := by
  rw [← paramWrites_keys hplaced hlength] at hnodup
  have hlt : ∀ p ∈ order.flatMap (paramWrites func blocks b),
      p.1.index < (List.replicate func.valueCount (none : Option Cranelift.Value)).length := by
    rw [List.length_replicate]
    exact paramWrites_inRange hplaced hlength hin
  obtain ⟨values, hrun, hlen, hspec⟩ := mapParam_loop hnodup hlt fun p _ => standIn_replicate _ p.1
  refine ⟨values, ?_, hlen.trans List.length_replicate, fun v x => ?_⟩
  · rw [mapParams_eq_writes fun c hc => hplaced.exists_standIn hc, hrun]
  · rw [hspec, standIn_replicate, mem_paramWrites hplaced]
    simp

end Writes

end ParameterLoop

end JitLang.Translate
