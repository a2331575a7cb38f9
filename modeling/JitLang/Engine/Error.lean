import JitLang.Translate.Traversal

/-! # `JitError`: the four ways a compile is refused

The enum of `src/error.rs` with all its variants, over the types of the two errors it wraps; its text,
its source and its conversions. The translator answers with two of the variants.
-/

namespace JitLang.Engine
set_option autoImplicit false

variable {V P : Type}

/-- `V` is `ir_lang::ValidationError` and `P` is `pager_lang::PagerError`. -/
inductive JitError (V P : Type)
  | invalidIr (err : V)
  | unsupported (what : String)
  | codegen (msg : String)
  | memory (err : P)
  deriving DecidableEq, Repr

namespace JitError

/-- The text `Display` puts before what the variant carries. -/
def heading : JitError V P → String
  | .invalidIr _ => "the function is not well-formed: "
  | .unsupported _ => "unsupported: "
  | .codegen _ => "code generation failed: "
  | .memory _ => "executable memory unavailable: "

section Display
variable [ToString V] [ToString P]

def payload : JitError V P → String
  | .invalidIr err => toString err
  | .unsupported what => what
  | .codegen msg => msg
  | .memory err => toString err

/-- `Display::fmt`. -/
def fmt (e : JitError V P) : String := e.heading ++ e.payload

end Display

/-- `Error::source`: the wrapped error, where there is one. -/
def source : JitError V P → Option (V ⊕ P)
  | .invalidIr err => some (.inl err)
  | .memory err => some (.inr err)
  | .unsupported _ | .codegen _ => none

/-- `From<ValidationError>`. -/
def ofValidationError (err : V) : JitError V P := .invalidIr err

/-- `From<PagerError>`. -/
def ofPagerError (err : P) : JitError V P := .memory err

def ofTranslate : Translate.JitError → JitError V P
  | .unsupported what => .unsupported what
  | .codegen message => .codegen message

/-- Texts of different variants differ in their first letter. -/
theorem fmt_injective [ToString V] [ToString P] {e e' : JitError V P} (h : e.fmt = e'.fmt) :
    e.heading = e'.heading ∧ e.payload = e'.payload := by
  have hchars : e.heading.toList ++ e.payload.toList = e'.heading.toList ++ e'.payload.toList := by
    rw [← String.toList_append, ← String.toList_append]
    exact congrArg String.toList h
  have hheading : e.heading = e'.heading := by
    have hfirst := congrArg List.head? hchars
    cases e <;> cases e' <;> first | rfl | simp [heading] at hfirst
  refine ⟨hheading, String.toList_inj.mp ?_⟩
  rw [hheading] at hchars
  exact List.append_cancel_left hchars

end JitError

/-- How the engine fails to return a value: with an error, or as the translator can, by a panic or by
exceeding the model's bound on its loop. -/
inductive Failure (V P : Type)
  | error (e : JitError V P)
  | panic
  | outOfFuel
  deriving DecidableEq, Repr

def Failure.ofTranslate : Translate.Failure → Failure V P
  | .error e => .error (.ofTranslate e)
  | .panic => .panic
  | .outOfFuel => .outOfFuel

end JitLang.Engine
