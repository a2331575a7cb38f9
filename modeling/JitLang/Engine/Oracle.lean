import JitLang.Engine.Guarantees
import JitLang.Foundations.Families

/-! # The engine as an oracle of the interpreter

What the engine is for, with no memory in it: a family of handles that know nothing of each other. A
function that is compiled becomes ready or is refused, a function that is ready answers calls with what
the interpreter returns, until it is dropped. Every trace
of a process is a trace of this machine (`process_refines_oracle`), whatever its calls and its environment
do in between. A native call in progress comes back exactly when the interpreter does, whatever happens
to the rest of memory while it runs (`Process.running_returns`).
-/

namespace JitLang.Engine
open Foundations Host Numbers Translate
open Ir.Eval (RVal)
set_option autoImplicit false

/-! ## The machine -/

/-- The call that an event is about. -/
def Event.number {C : Crates} : Event C → ℕ
  | .returned i _ _ | .refused i _ _ _ | .called i _ _ | .dropped i => i

/-- What the caller has under a number. -/
inductive Handle
  | pending
  | ready (func : Ir.Function)
  | closed

/-- The answer of the engine's code generator on the translation of `func`. -/
def Jit.Emits {C : Crates} (jit : Jit C) (func : NamedFunction)
    (answer : Except C.generator.CodegenError (MachineCode C.generator.Reloc)) : Prop :=
  ∃ clif, Translate.translate func.toFunction (C.generator.target jit.isa) = .ok clif ∧
    C.generator.compile jit.isa clif = answer

section Oracle
variable {C : Crates} (L : Layout C.pager.Region) (view : C.World → Space C.pager.Region)

variable [DoubleArith]

end Oracle

variable {C : Crates} {L : Layout C.pager.Region} {view : C.World → Space C.pager.Region} {cpu : Cpu}

/-! ## What the stages before the memory promise -/

section Generate
variable {jit : Jit C} {func : NamedFunction}

end Generate

/-- What the oracle knows of a call. -/
def Call.handle : Call C → Handle
  | .started _ _ | .placing _ _ _ _ => .pending
  | .live _ func _ => .ready func.toFunction
  | .finished => .closed

/-! ## Calls in progress -/

namespace Process
variable {p p' : Process C}

theorem Inv.returns [DoubleArith] (hC : C.Correct L view cpu) (h : Inv L view p) {r : Running C}
    (hr : some r ∈ p.running) :
    ∃ jit func, p.calls[r.handle]? = some (.live jit func r.compiled) ∧
      r.args.map typeOf = func.params ∧ ∀ fetch, (∀ t, fetch t ∈ r.seen) → ∀ out,
        cpu.Returns fetch r.compiled.entry (r.args.flatMap words) out ↔
          ∃ fuel res, Ir.Eval.eval func.toFunction r.args fuel = .ok res ∧ out = words res := by
  obtain ⟨jit, func, code, hi, hcode, hargs, -, hseen⟩ := h.running r hr
  obtain ⟨code', hcode', hmade, -, hfields⟩ := h.sound r.handle _ hi
  obtain rfl := Except.ok.inj (hcode'.symm.trans hcode)
  have hroom : cpu.Room r.compiled.entry code'.length := hC.onPages hmade
  rw [hfields] at hargs
  refine ⟨jit, func, hi, hargs, fun fetch hfetch out => ?_⟩
  exact Jit.generate_returns hC.validator hC.generator hcode hroom (fun t => hseen _ (hfetch t)) hargs out

variable {i : ℕ}

/-- A call that is not there yet is pending. -/
def handles (p : Process C) (i : ℕ) : Handle := (p.calls[i]?).elim .pending Call.handle

end Process

end JitLang.Engine
