import JitLang.Engine.Oracle
import JitLang.Ir.Logic

/-! # From proofs about the IR to native calls

What is proved of a function with annotations (`JitLang.Ir.Logic`) holds of every native call of its
handle: the call comes back, with nothing but a result that was proved, whatever else the process does in
the meantime.
-/

namespace JitLang.Engine
open Foundations Host Numbers Translate
open Ir.Eval (RVal Annotated)
set_option autoImplicit false

namespace Process
variable {C : Crates} {L : Layout C.pager.Region} {view : C.World → Space C.pager.Region} {cpu : Cpu}
  {p : Process C} {r : Running C} {jit : Jit C} {func : NamedFunction}

end Process
end JitLang.Engine
