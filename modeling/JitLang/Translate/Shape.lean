import JitLang.Cranelift.Ssa
import JitLang.Ir.Checker
import JitLang.Translate.Translated

/-! # The shape of the produced function

The produced control-flow graph is the reachable part of the source graph under the block table
(`Translated.edge_iff`), so dominance carries over, and with it the rule that a definition comes before
its uses (`Translated.ssa`).
-/

namespace JitLang.Translate
open Foundations Cranelift
set_option autoImplicit false

variable {func : Ir.Function} {isa : TargetIsa} {t : Translation}

/-! ## Images of edges and terminators -/

/-- A branch is the image of an edge: the stand-ins of its target and of its arguments, in order. -/
def EdgeImage (t : Translation) (edge : Ir.Block × List Ir.Value) (call : BlockCall) : Prop :=
  t.block edge.1 = some call.block ∧ edge.2.map t.value = call.args.map some

/-- A Cranelift terminator is the image of an IR terminator: of the same kind, with `then` and `else` in
their places. -/
inductive TerminatorImage (t : Translation) : Ir.Terminator → Cranelift.Inst → Prop
  | ret {value : Option Ir.Value} {args : List Cranelift.Value} :
      value.toList.map t.value = args.map some → TerminatorImage t (.ret value) (.return_ args)
  | jump {target : Ir.Block} {args : List Ir.Value} {dest : BlockCall} :
      EdgeImage t (target, args) dest → TerminatorImage t (.jump target args) (.jump dest)
  | branch {cond : Ir.Value} {c : Cranelift.Value} {thenBlock elseBlock : Ir.Block}
      {thenArgs elseArgs : List Ir.Value} {thenDest elseDest : BlockCall} :
      t.value cond = some c → EdgeImage t (thenBlock, thenArgs) thenDest →
      EdgeImage t (elseBlock, elseArgs) elseDest →
      TerminatorImage t (.branch cond thenBlock thenArgs elseBlock elseArgs)
        (.brif c thenDest elseDest)

theorem terminatorImage_of_lowered {term : Ir.Terminator} {last : Cranelift.Inst}
    (h : lowerTerminator t.block t.value term = some last) : TerminatorImage t term last := by
  cases term with
  | ret value =>
    obtain ⟨args, hargs, rfl⟩ := by simpa [lowerTerminator, Option.bind_eq_some_iff] using h
    exact .ret (mapM_option_eq_some.mp hargs)
  | jump target args =>
    obtain ⟨call, hcall, rfl⟩ := by simpa [lowerTerminator, Option.bind_eq_some_iff] using h
    exact .jump (lowerEdge_eq_some.mp hcall)
  | branch cond thenBlock thenArgs elseBlock elseArgs =>
    obtain ⟨c, hc, x, hx, y, hy, rfl⟩ := by
      simpa [lowerTerminator, Option.bind_eq_some_iff] using h
    exact .branch hc (lowerEdge_eq_some.mp hx) (lowerEdge_eq_some.mp hy)

theorem TerminatorImage.calls {term : Ir.Terminator} {last : Cranelift.Inst}
    (h : TerminatorImage t term last) : List.Forall₂ (EdgeImage t) term.edges last.calls := by
  cases h with
  | ret => exact .nil
  | jump hdest => exact .cons hdest .nil
  | branch _ hthen helse => exact .cons hthen (.cons helse .nil)

theorem TerminatorImage.uses {term : Ir.Terminator} {last : Cranelift.Inst}
    (h : TerminatorImage t term last) : term.uses.map t.value = last.uses.map some := by
  cases h with
  | ret hargs => exact hargs
  | jump hdest => exact hdest.2
  | branch hc hthen helse =>
    simp only [Ir.Terminator.uses, Inst.uses, List.map_cons, List.map_append]
    rw [hc, hthen.2, helse.2]

theorem Emitted.not_isTerminator {B : Ir.Block → Option Cranelift.Block}
    {V : Ir.Value → Option Cranelift.Value} {clif : Cranelift.Function} {x : Cranelift.Block}
    {c : Ir.Block} {n : ℕ} {nodes : List InstData} {term : Ir.Terminator} {last : Cranelift.Inst}
    (h : Emitted func B V clif x c n nodes term last) {node : InstData} (hnode : node ∈ nodes) :
    ¬ node.inst.IsTerminator := by
  obtain ⟨v, ty, -, -, htyped⟩ := h.typed node hnode
  intro hterm
  cases hinst : node.inst <;> simp_all [Inst.IsTerminator, InstTyped]

/-- The produced graph is the image of the reachable part of the source graph. -/
structure ControlFlowImage (func : Ir.Function) (t : Translation) : Prop where
  block_iff : ∀ c, (∃ x, t.block c = some x) ↔ func.Reachable c
  block_injective : ∀ c c' x, t.block c = some x → t.block c' = some x → c = c'
  layout_nodup : t.clif.layout.Nodup
  mem_layout : ∀ x, x ∈ t.clif.layout ↔ ∃ c, t.block c = some x
  entry : ∃ x, t.clif.entry? = some x ∧ t.block func.entry = some x
  edge_iff : ∀ c d x y, t.block c = some x → t.block d = some y →
    (t.clif.Edge x y ↔ func.Edge c d)
  terminator : ∀ c x, t.block c = some x → ∃ term last, func.terminator c = some term ∧
    (t.clif.blockInsts x).getLast? = some ⟨none, last⟩ ∧ TerminatorImage t term last

namespace Translated

/-! ## Blocks and edges -/

theorem block_iff (ht : Translated func isa t) (c : Ir.Block) :
    (∃ x, t.block c = some x) ↔ func.Reachable c := by
  rw [← ht.order.mem_iff]
  constructor
  · rintro ⟨x, hx⟩
    exact List.mem_of_getElem? ((ht.placed c x).mp hx)
  · exact fun hc => Placed.exists_standIn ht.placed hc

theorem block_injective (ht : Translated func isa t) {c c' : Ir.Block} {x : Cranelift.Block}
    (h : t.block c = some x) (h' : t.block c' = some x) : c = c' :=
  Option.some.inj (((ht.placed c x).mp h).symm.trans ((ht.placed c' x).mp h'))

theorem mem_layout (ht : Translated func isa t) (x : Cranelift.Block) :
    x ∈ t.clif.layout ↔ ∃ c, t.block c = some x := by
  rw [ht.layout, mem_handles]
  constructor
  · intro hlt
    exact ⟨_, (ht.placed _ x).mpr (List.getElem?_eq_getElem hlt)⟩
  · rintro ⟨c, hc⟩
    exact (List.getElem?_eq_some_iff.mp ((ht.placed c x).mp hc)).1

theorem layout_nodup (ht : Translated func isa t) : t.clif.layout.Nodup := by
  rw [ht.layout]
  exact handles_nodup _

theorem entry (ht : Translated func isa t) :
    t.clif.entry? = some ⟨0⟩ ∧ t.block func.entry = some ⟨0⟩ := by
  obtain ⟨rest, hrest⟩ := ht.order.entry_first
  refine ⟨?_, (ht.placed _ ⟨0⟩).mpr (by rw [hrest]; rfl)⟩
  rw [Cranelift.Function.entry?, ht.layout, hrest, List.length_cons, handles, List.range_succ_eq_map]
  rfl

theorem emitted_at (ht : Translated func isa t) {c : Ir.Block} {x : Cranelift.Block}
    (hx : t.block c = some x) :
    ∃ n nodes term last, Emitted func t.block t.value t.clif x c n nodes term last :=
  ht.emitted x c ((ht.placed c x).mp hx)

theorem emitted_of_mem (ht : Translated func isa t) {x : Cranelift.Block} (hx : x ∈ t.clif.layout) :
    ∃ c n nodes term last, t.block c = some x ∧ func.Reachable c ∧
      Emitted func t.block t.value t.clif x c n nodes term last := by
  obtain ⟨c, hc⟩ := (ht.mem_layout x).mp hx
  obtain ⟨n, nodes, term, last, hemit⟩ := ht.emitted_at hc
  exact ⟨c, n, nodes, term, last, hc, (ht.block_iff c).mp ⟨x, hc⟩, hemit⟩

theorem edge_iff (ht : Translated func isa t) (hv : func.Valid) {c d : Ir.Block}
    {x y : Cranelift.Block} (hx : t.block c = some x) (hy : t.block d = some y) :
    t.clif.Edge x y ↔ func.Edge c d := by
  obtain ⟨n, nodes, term, last, hemit⟩ := ht.emitted_at hx
  have hcalls := (terminatorImage_of_lowered hemit.lowered).calls
  have hc : func.Reachable c := (ht.block_iff c).mp ⟨x, hx⟩
  constructor
  · rintro ⟨node, hnode, call, hcall, rfl⟩
    rw [hemit.insts] at hnode
    rcases List.mem_append.mp hnode with hnode | hnode
    · rw [Inst.calls_eq_nil (hemit.not_isTerminator hnode)] at hcall
      cases hcall
    · obtain rfl := List.mem_singleton.mp hnode
      obtain ⟨edge, hedge, himage⟩ := forall₂_exists_left hcalls hcall
      have hd : edge.1 = d := ht.block_injective himage.1 hy
      have hsucc : d ∈ term.successors := hd ▸ List.mem_map_of_mem hedge
      exact ⟨term, hemit.terminator, hsucc, hv.targets_inRange c term hc hemit.terminator d hsucc⟩
  · rintro ⟨term', hterm', hd, -⟩
    rw [hemit.terminator] at hterm'
    cases hterm'
    obtain ⟨edge, hedge, rfl⟩ := List.mem_map.mp hd
    obtain ⟨call, hcall, himage⟩ := forall₂_exists_right hcalls hedge
    refine ⟨⟨none, last⟩, by rw [hemit.insts]; simp, call, hcall, ?_⟩
    exact Option.some.inj (himage.1.symm.trans hy)

theorem controlFlow (ht : Translated func isa t) (hv : func.Valid) : ControlFlowImage func t := by
  refine ⟨ht.block_iff, fun _ _ _ => ht.block_injective, ht.layout_nodup, ht.mem_layout,
    ⟨_, ht.entry⟩, fun _ _ _ _ => ht.edge_iff hv, ?_⟩
  intro c x hx
  obtain ⟨n, nodes, term, last, hemit⟩ := ht.emitted_at hx
  exact ⟨term, last, hemit.terminator, by rw [hemit.insts]; simp,
    terminatorImage_of_lowered hemit.lowered⟩

/-- Dominance is the same in both graphs. -/
theorem dominates (ht : Translated func isa t) (hv : func.Valid) {c d : Ir.Block}
    {x y : Cranelift.Block} (hx : t.block c = some x) (hy : t.block d = some y)
    (h : func.Dominates d c) : t.clif.Dominates y x := by
  intro e he
  obtain ⟨hentry, hentry'⟩ := ht.entry
  rw [hentry] at he
  cases he
  refine Graph.Dominates.of_simulation (R := fun x c => t.block c = some x) ?_
    (fun x c c' => ht.block_injective) (fun x y c hx hy => Option.some.inj (hx.symm.trans hy))
    hentry' hy hx h
  intro x y c hx hedge
  obtain ⟨n, nodes, term, last, hemit⟩ := ht.emitted_at hx
  obtain ⟨node, hnode, call, hcall, rfl⟩ := hedge
  have hmem : call.block ∈ t.clif.layout := by
    rw [hemit.insts] at hnode
    rcases List.mem_append.mp hnode with hnode | hnode
    · rw [Inst.calls_eq_nil (hemit.not_isTerminator hnode)] at hcall
      cases hcall
    · obtain rfl := List.mem_singleton.mp hnode
      obtain ⟨edge, -, himage⟩ :=
        forall₂_exists_left (terminatorImage_of_lowered hemit.lowered).calls hcall
      exact (ht.mem_layout _).mpr ⟨edge.1, himage.1⟩
  obtain ⟨d, hd⟩ := (ht.mem_layout _).mp hmem
  refine ⟨d, hd, (ht.edge_iff hv hx hd).mp ⟨node, hnode, call, hcall, rfl⟩⟩

/-! ## Definitions -/

theorem param_definedAt (ht : Translated func isa t) {c : Ir.Block} {x : Cranelift.Block}
    (hx : t.block c = some x) {v : Ir.Value} (hv : v ∈ func.blockParams c) {y : Cranelift.Value}
    (hy : t.value v = some y) : t.clif.DefinedAt y x 0 := by
  refine ⟨(ht.mem_layout x).mpr ⟨c, hx⟩, .inl ⟨rfl, ?_⟩⟩
  have hparams := map_eq_some_iff.mp (ht.params x c ((ht.placed c x).mp hx))
  obtain ⟨y', hy', hvy⟩ := forall₂_exists_right hparams hv
  rw [hy] at hvy
  cases hvy
  exact hy'

theorem inst_definedAt (ht : Translated func isa t) {c : Ir.Block} {x : Cranelift.Block}
    (hx : t.block c = some x) {n : ℕ} {before : List Ir.Value} {nodes rest : List InstData}
    (hinsts : t.clif.blockInsts x = nodes ++ rest) (hlowers : Lowers func t.value n before nodes)
    {v : Ir.Value} (hv : v ∈ before) {y : Cranelift.Value} (hy : t.value v = some y) :
    ∃ pos ≤ nodes.length, t.clif.DefinedAt y x pos := by
  obtain ⟨j, node, hj, hresult⟩ := hlowers.exists_node hv
  have hlt := (List.getElem?_eq_some_iff.mp hj).1
  refine ⟨j + 1, hlt, (ht.mem_layout x).mpr ⟨c, hx⟩, .inr ⟨j, node, rfl, ?_, hresult.trans hy⟩⟩
  rw [hinsts, List.getElem?_append_left hlt, hj]

/-- The stand-in of a value is defined where the value is: among the parameters or in the code of its
block. -/
theorem standIn_defined (ht : Translated func isa t) {c : Ir.Block} (hc : func.Reachable c)
    {v : Ir.Value} (hv : v ∈ func.defs c) {y : Cranelift.Value} (hy : t.value v = some y) :
    y ∈ t.clif.definitions := by
  obtain ⟨x, hx⟩ := (ht.block_iff c).mpr hc
  rcases List.mem_append.mp hv with hv | hv
  · exact (ht.param_definedAt hx hv hy).defined
  · obtain ⟨n, nodes, term, last, hemit⟩ := ht.emitted_at hx
    obtain ⟨pos, -, hdef⟩ := ht.inst_definedAt hx hemit.insts hemit.lowers hv hy
    exact hdef.defined

/-- What may be read in a block after some instructions has its stand-in defined before the code that
follows theirs. -/
theorem definedBefore (ht : Translated func isa t) (hvalid : func.Valid) {c : Ir.Block}
    {x : Cranelift.Block} (hx : t.block c = some x) {n : ℕ} {before : List Ir.Value}
    {nodes rest : List InstData} (hinsts : t.clif.blockInsts x = nodes ++ rest)
    (hlowers : Lowers func t.value n before nodes) {v : Ir.Value} (hv : func.Available c before v)
    {y : Cranelift.Value} (hy : t.value v = some y) : t.clif.DefinedBefore y x nodes.length := by
  rcases hv with hv | hv | ⟨d, hne, hdom, hv⟩
  · exact ⟨x, 0, ht.param_definedAt hx hv hy, .inl ⟨rfl, Nat.zero_le _⟩⟩
  · obtain ⟨pos, hpos, hdef⟩ := ht.inst_definedAt hx hinsts hlowers hv hy
    exact ⟨x, pos, hdef, .inl ⟨rfl, hpos⟩⟩
  · have hd : func.Reachable d := ((ht.block_iff c).mp ⟨x, hx⟩).of_dominates hdom
    obtain ⟨z, hz⟩ := (ht.block_iff d).mpr hd
    have hzx : z ≠ x := fun e => hne (ht.block_injective (e ▸ hz) hx)
    have hdom' := ht.dominates hvalid hx hz hdom
    rcases List.mem_append.mp hv with hv | hv
    · exact ⟨z, 0, ht.param_definedAt hz hv hy, .inr ⟨hzx, hdom'⟩⟩
    · obtain ⟨m, nodes', term, last, hemit⟩ := ht.emitted_at hz
      obtain ⟨pos, -, hdef⟩ := ht.inst_definedAt hz hemit.insts hemit.lowers hv hy
      exact ⟨z, pos, hdef, .inr ⟨hzx, hdom'⟩⟩

/-- The operands of an instruction are defined before its code. -/
theorem operand_definedBefore (ht : Translated func isa t) (hvalid : func.Valid) {c : Ir.Block}
    {x : Cranelift.Block} (hx : t.block c = some x) {n : ℕ} {vs before after : List Ir.Value}
    {nodes nodes₁ rest : List InstData} {v : Ir.Value} {inst : Ir.Inst} {code : List Cranelift.Inst}
    (hpiece : Piece func t.value n vs nodes before v nodes₁ inst code)
    (hsplit : func.insts c = before ++ v :: after) (hinsts : t.clif.blockInsts x = nodes ++ rest)
    {u : Ir.Value} (hu : u ∈ inst.uses) {y : Cranelift.Value} (hy : t.value u = some y) :
    t.clif.DefinedBefore y x nodes₁.length := by
  obtain ⟨rest', hrest⟩ := hpiece.exists_rest hinsts
  have havail := hvalid.inst_dominated c ((ht.block_iff c).mp ⟨x, hx⟩) before v after hsplit inst
    hpiece.resolves u hu
  exact ht.definedBefore hvalid hx hrest hpiece.lowers havail hy

theorem terminator_definedBefore (ht : Translated func isa t) (hvalid : func.Valid) {c : Ir.Block}
    {x : Cranelift.Block} (hx : t.block c = some x) {n : ℕ} {nodes : List InstData}
    {term : Ir.Terminator} {last : Cranelift.Inst}
    (hemit : Emitted func t.block t.value t.clif x c n nodes term last) {u : Ir.Value}
    (hu : u ∈ term.uses) {y : Cranelift.Value} (hy : t.value u = some y) :
    t.clif.DefinedBefore y x nodes.length := by
  have havail := hvalid.terminator_dominated c term ((ht.block_iff c).mp ⟨x, hx⟩) hemit.terminator
    u hu
  exact ht.definedBefore hvalid hx hemit.insts hemit.lowers havail hy

/-- An operand of the code of a block is the stand-in of a value that may be read there, or the result
of an earlier instruction of the same piece. -/
theorem node_dominated (ht : Translated func isa t) (hvalid : func.Valid) {c : Ir.Block}
    {x : Cranelift.Block} (hc : t.block c = some x) {n : ℕ} {nodes : List InstData}
    {term : Ir.Terminator} {last : Cranelift.Inst}
    (hemit : Emitted func t.block t.value t.clif x c n nodes term last) {j : ℕ} {node : InstData}
    (hj : nodes[j]? = some node) {u : Cranelift.Value} (hu : u ∈ node.inst.uses) :
    t.clif.DefinedBefore u x j := by
  obtain ⟨before, v, nodes₁, inst, code, i, hpiece, hji, hcode, -⟩ :=
    hemit.lowers.exists_piece_of_node hj
  obtain ⟨after, hsplit⟩ := hpiece.split
  have hlt := (List.getElem?_eq_some_iff.mp hj).1
  rcases lowerInst_uses hpiece.lowered hcode u hu with ⟨w, hw, hwu⟩ | ⟨hle, hlt'⟩
  · exact (ht.operand_definedBefore hvalid hc hpiece hsplit hemit.insts hw hwu).mono (by omega)
  · have hk : u.index - n < nodes.length := by omega
    have hget := List.getElem?_eq_getElem hk
    have hindex : n + (u.index - n) = u.index := by omega
    have hresult := hemit.lowers.result_of_node hget
    rw [hindex] at hresult
    have hat : (t.clif.blockInsts x)[u.index - n]? = some nodes[u.index - n] := by
      rw [hemit.insts, List.getElem?_append_left hk, hget]
    exact ⟨x, u.index - n + 1, ⟨(ht.mem_layout x).mpr ⟨c, hc⟩, .inr ⟨_, _, rfl, hat, hresult⟩⟩,
      .inl ⟨rfl, by omega⟩⟩

theorem last_dominated (ht : Translated func isa t) (hvalid : func.Valid) {c : Ir.Block}
    {x : Cranelift.Block} (hc : t.block c = some x) {n : ℕ} {nodes : List InstData}
    {term : Ir.Terminator} {last : Cranelift.Inst}
    (hemit : Emitted func t.block t.value t.clif x c n nodes term last) {u : Cranelift.Value}
    (hu : u ∈ last.uses) : t.clif.DefinedBefore u x nodes.length := by
  have huses := map_eq_some_iff.mp (terminatorImage_of_lowered hemit.lowered).uses
  obtain ⟨w, hw, hwu⟩ := forall₂_exists_left huses hu
  exact ht.terminator_definedBefore hvalid hc hemit hw hwu

theorem ssa (ht : Translated func isa t) (hvalid : func.Valid) : t.clif.Ssa := by
  refine ⟨⟨_, ht.entry.1⟩, ?_, ?_, ?_⟩
  · intro x hx
    obtain ⟨c, n, nodes, term, last, -, -, hemit⟩ := ht.emitted_of_mem hx
    exact ⟨nodes, ⟨none, last⟩, hemit.insts, lowerTerminator_isTerminator hemit.lowered,
      fun node hnode => hemit.not_isTerminator hnode⟩
  · refine (List.flatMap_append_perm t.clif.layout t.clif.blockParams
      t.clif.blockResults).nodup_iff.mp ?_
    rw [ht.numbering]
    exact values_nodup _
  · intro x hx j node hj u hu
    obtain ⟨c, n, nodes, term, last, hc, -, hemit⟩ := ht.emitted_of_mem hx
    rw [hemit.insts] at hj
    rcases Nat.lt_or_ge j nodes.length with hlt | hge
    · rw [List.getElem?_append_left hlt] at hj
      exact ht.node_dominated hvalid hc hemit hj hu
    · have hj' : j = nodes.length := by
        have := (List.getElem?_eq_some_iff.mp hj).1
        rw [List.length_append, List.length_singleton] at this
        omega
      subst hj'
      rw [List.getElem?_concat_length] at hj
      cases hj
      exact ht.last_dominated hvalid hc hemit hu

end Translated

/-- The produced function is well-formed SSA over the image of the reachable source graph, and each of
its values has exactly one definition. -/
theorem translate_ssa (hv : func.Valid) {clif : Cranelift.Function}
    (h : translate func isa = .ok clif) :
    ∃ t, translation func isa = .ok t ∧ t.clif = clif ∧ ControlFlowImage func t ∧ clif.Ssa ∧
      ∀ v : Cranelift.Value, v.index < clif.valueTypes.length → clif.definitions.count v = 1 := by
  obtain ⟨t, htrans, rfl, ht⟩ := translated_of_ok hv h
  refine ⟨t, htrans, rfl, ht.controlFlow hv, ht.ssa hv, fun v hlt => ?_⟩
  have hperm := List.flatMap_append_perm t.clif.layout t.clif.blockParams t.clif.blockResults
  rw [ht.numbering] at hperm
  refine List.count_eq_one_of_mem (ht.ssa hv).single ?_
  exact hperm.subset (List.mem_map.mpr ⟨v.index, List.mem_range.mpr hlt, rfl⟩)

theorem halvings_ssa : ∃ clif t, translation Ir.halvings ⟨⟨0⟩⟩ = .ok t ∧ t.clif = clif ∧
    ControlFlowImage Ir.halvings t ∧ clif.Ssa ∧
      ∀ v : Cranelift.Value, v.index < clif.valueTypes.length → clif.definitions.count v = 1 := by
  obtain ⟨clif, hclif⟩ := halvings_translates
  obtain ⟨t, h⟩ := translate_ssa Ir.halvings.valid hclif
  exact ⟨clif, t, h⟩

/-! ## Branches to the entry block -/

/-- The produced function has a branch to its entry block exactly where a reachable terminator names the
entry of the source. -/
theorem translate_entry_branch_iff (hv : func.Valid) {clif : Cranelift.Function}
    (h : translate func isa = .ok clif) :
    ∃ e, clif.entry? = some e ∧ ((∀ x, ¬ clif.Edge x e) ↔ func.SparesEntry) := by
  obtain ⟨t, -, rfl, ht⟩ := translated_of_ok hv h
  obtain ⟨hentry, hblock⟩ := ht.entry
  refine ⟨⟨0⟩, hentry, ?_⟩
  constructor
  · intro hno c term hc hterm hsucc
    obtain ⟨x, hx⟩ := (ht.block_iff c).mpr hc
    exact hno x ((ht.edge_iff hv hx hblock).mpr ⟨term, hterm, hsucc, hv.entry_inRange⟩)
  · intro hno x hedge
    have hx : x ∈ t.clif.layout := by
      obtain ⟨node, hnode, -⟩ := hedge
      rw [ht.layout, mem_handles, ← ht.blockCount]
      by_contra hge
      rw [Cranelift.Function.blockInsts, List.getElem?_eq_none (Nat.not_lt.mp hge)] at hnode
      cases hnode
    obtain ⟨c, hc⟩ := (ht.mem_layout x).mp hx
    obtain ⟨term, hterm, hsucc, -⟩ := (ht.edge_iff hv hc hblock).mp hedge
    exact hno c term ((ht.block_iff c).mp ⟨x, hc⟩) hterm hsucc

/-- `validate` answers a reachable terminator that names the entry block with an error, as the
`EntryBranchTarget` of `ir-lang`. -/
def RefusesEntryTargets {ε : Type} (validate : Ir.Function → Except ε Unit) : Prop :=
  ∀ {func}, validate func = .ok () → func.SparesEntry

/-- What is validated and translated has no branch to its entry block. -/
theorem translate_spares_entry {ε : Type} {validate : Ir.Function → Except ε Unit}
    (hrefuses : RefusesEntryTargets validate) (hvalidate : validate func = .ok ()) (hv : func.Valid)
    {clif : Cranelift.Function} (h : translate func isa = .ok clif) :
    ∃ e, clif.entry? = some e ∧ ∀ x, ¬ clif.Edge x e := by
  obtain ⟨e, hentry, hedges⟩ := translate_entry_branch_iff hv h
  exact ⟨e, hentry, hedges.mpr (hrefuses hvalidate)⟩

theorem halvings_spares_entry : ∃ clif, translate Ir.halvings ⟨⟨0⟩⟩ = .ok clif ∧
    ∃ e, clif.entry? = some e ∧ ∀ x, ¬ clif.Edge x e := by
  obtain ⟨clif, hclif⟩ := halvings_translates
  have hrefuses : RefusesEntryTargets Ir.Function.refuseEntryTargets :=
    Ir.Function.sparesEntry_of_refuse
  exact ⟨clif, hclif, translate_spares_entry hrefuses rfl Ir.halvings.valid hclif⟩

/-- The translator itself lets a branch to the entry block through: where the loop header of a valid
function is the entry, the produced function refers to its entry block. -/
theorem countdown_branches_to_entry : ¬ ∀ (func : Ir.Function) (isa : TargetIsa)
    (clif : Cranelift.Function), func.Valid → translate func isa = .ok clif →
    ∀ e ∈ clif.entry?, ∀ x, ¬ clif.Edge x e := by
  intro h
  obtain ⟨clif, hclif⟩ : ∃ clif, translate Ir.countdown ⟨⟨0⟩⟩ = .ok clif := ⟨_, rfl⟩
  obtain ⟨e, hentry, hedges⟩ := translate_entry_branch_iff Ir.countdown.valid hclif
  have hspares := hedges.mp (h _ _ clif Ir.countdown.valid hclif e hentry)
  exact hspares ⟨1⟩ _ Ir.countdown.reachable_body rfl (by decide)

end JitLang.Translate
