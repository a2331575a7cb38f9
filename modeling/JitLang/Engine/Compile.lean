import JitLang.Engine.Crates

/-! # `Jit::compile` and `place`

The functions of `src/engine.rs`, `src/icache.rs` and `src/compiled.rs` under their own names, over the
outside code of `Crates`. A computation takes the state of the host along, which an error does not undo;
`?` is the bind of `Action`, and a region in scope is dropped where `?` leaves (`Action.owning`).
-/

namespace JitLang.Engine
open Host
set_option autoImplicit false

/-! ## Computations -/

abbrev Crates.JitError (C : Crates) := Engine.JitError C.validator.Error C.pager.Error

abbrev Crates.Failure (C : Crates) := Engine.Failure C.validator.Error C.pager.Error

def Action (C : Crates) (α : Type) := C.World → Except C.Failure α × C.World

namespace Action
variable {C : Crates} {α β ε : Type}

instance : Monad (Action C) where
  pure a := fun w => (.ok a, w)
  bind x f := fun w =>
    match x w with
    | (.ok a, w) => f a w
    | (.error e, w) => (.error e, w)

/-- A computation that leaves the host alone. -/
def ofExcept (x : Except C.Failure α) : Action C α := fun w => (x, w)

/-- An outside operation whose error `?` converts. -/
def call (op : C.World → Except ε α × C.World) (convert : ε → C.JitError) : Action C α := fun w =>
  match op w with
  | (.ok a, w) => (.ok a, w)
  | (.error e, w) => (.error (.error (convert e)), w)

def effect (f : C.World → C.World) : Action C Unit := fun w => (.ok (), f w)

/-- `body` with `region` in scope: an error drops it, a result moves it out. -/
def owning (region : C.pager.Region) (body : Action C α) : Action C α := fun w =>
  match body w with
  | (.ok a, w) => (.ok a, w)
  | (.error e, w) => (.error e, C.pager.drop region w)

theorem bind_assoc (x : Action C α) (f : α → Action C β) {γ : Type} (g : β → Action C γ) :
    ((x >>= f) >>= g) = x >>= fun a => f a >>= g := by
  funext w
  simp only [bind]
  rcases x w with ⟨_ | _, _⟩ <;> rfl

theorem ofExcept_bind (x : Except C.Failure α) (f : α → Except C.Failure β) :
    ofExcept (x >>= f) = ofExcept x >>= fun a => ofExcept (f a) := by
  cases x <;> rfl

theorem ofExcept_ok_bind (a : α) (f : α → Action C β) : (ofExcept (.ok a) >>= f) = f a := rfl

end Action

variable (C : Crates)

/-! ## The engine -/

/-- Sets one code-generator flag. -/
def setFlag (flags : C.generator.Settings) (name value : String) :
    Except C.JitError C.generator.Settings :=
  (C.generator.set flags name value).mapError fun err => .codegen (C.generator.setErrorText err)

structure Jit (C : Crates) where
  isa : C.generator.Isa

def Jit.new : Except C.JitError (Jit C) := do
  let flags ← setFlag C C.generator.builder "opt_level" "speed"
  let flags ← setFlag C flags "is_pic" "false"
  let flags := C.generator.flags flags
  let builder ← C.generator.nativeBuilder.mapError .unsupported
  let isa ← (C.generator.finish builder flags).mapError
    fun err => .codegen (C.generator.codegenErrorText err)
  return ⟨isa⟩

/-! ## The instruction cache -/

/-- `start.wrapping_add(len)` on pointers. -/
def wrappingAdd (start len : ℕ) : ℕ := (start + len) % 2 ^ 64

def sync (code len : ℕ) (w : C.World) : C.World :=
  match C.target.arch with
  | .x86 | .x86_64 => w
  | .aarch64 =>
    match C.target.os with
    | .macos => C.caches.sysIcacheInvalidate code len w
    -- The `BOOL` result is dropped.
    | .windows => (C.caches.flushInstructionCache C.caches.getCurrentProcess code len w).2
    | .other => C.caches.clearCache code (wrappingAdd code len) w

def synchronize (code len : ℕ) (w : C.World) : C.World := sync C code len w

/-! ## Placing code -/

open JitLang.Engine.Action in
/-- Copies machine code into a fresh guard-flanked region, flips it to read-execute, and synchronizes
the instruction cache. -/
def place (code : List Byte) : Action C C.pager.Region := do
  let region ← call (C.pager.withGuardPages code.length) .ofPagerError
  owning region do
    call (C.pager.write region 0 code) .ofPagerError
    call (C.pager.protect region .readExecute) .ofPagerError
    effect (synchronize C (C.pager.asPtr region) code.length)
    return region

/-! ## Compiled functions -/

/-- An `ir_lang::Function` as its builder makes it: under a name, and with an entry block that takes the
parameters of the function. -/
structure NamedFunction extends Ir.Function where
  name : String
  entry_params : (blockParams entry).map valueType = params.map some

structure Compiled (C : Crates) where
  region : C.pager.Region
  name : String
  params : List Ir.Ty
  ret : Ir.Ty
  codeLen : ℕ

namespace Compiled
variable {C} (compiled : Compiled C)

def asPtr : ℕ := C.pager.asPtr compiled.region

/-- The function pointer: `as_ptr` under another type, whose size is checked at compile time. -/
def entry : ℕ := compiled.asPtr

/-- `Drop`: the region is unmapped. -/
def drop (w : C.World) : C.World := C.pager.drop compiled.region w

end Compiled

/-! ## `compile` -/

variable {C}

def relocationsError : C.JitError := .unsupported "the compiled code requires runtime relocations"

open JitLang.Engine.Action in
def Jit.compile (jit : Jit C) (func : NamedFunction) : Action C (Compiled C) := do
  ofExcept ((C.validator.validate func.toFunction).mapError fun err => .error (.ofValidationError err))
  let clif ← ofExcept ((Translate.translate func.toFunction (C.generator.target jit.isa)).mapError
    .ofTranslate)
  let code ← ofExcept ((C.generator.compile jit.isa clif).mapError
    fun err => .error (.codegen (C.generator.codegenErrorText err)))
  if !code.relocs.isEmpty then
    ofExcept (.error (.error relocationsError))
  else
    let bytes := code.codeBuffer
    let region ← place C bytes
    return ⟨region, func.name, func.params, func.ret, bytes.length⟩

variable (C) in
open JitLang.Engine.Action in
/-- The free function `compile`: a fresh engine for one function. -/
def compile (func : NamedFunction) : Action C (Compiled C) := do
  let jit ← ofExcept ((Jit.new C).mapError .error)
  jit.compile func

/-! ## The two halves of a compile -/

/-- `compile` up to the code it places; it leaves the host alone. -/
def Jit.generate (jit : Jit C) (func : NamedFunction) : Except C.Failure (List Byte) := do
  (C.validator.validate func.toFunction).mapError fun err => .error (.ofValidationError err)
  let clif ← (Translate.translate func.toFunction (C.generator.target jit.isa)).mapError .ofTranslate
  let code ← (C.generator.compile jit.isa clif).mapError
    fun err => .error (.codegen (C.generator.codegenErrorText err))
  if !code.relocs.isEmpty then .error (.error relocationsError) else return code.codeBuffer

theorem Jit.compile_eq (jit : Jit C) (func : NamedFunction) : jit.compile func = do
    let bytes ← Action.ofExcept (jit.generate func)
    let region ← place C bytes
    return ⟨region, func.name, func.params, func.ret, bytes.length⟩ := by
  have hrelocs (code : MachineCode C.generator.Reloc) : (do
      if !code.relocs.isEmpty then
        Action.ofExcept (.error (.error relocationsError))
      else
        let region ← place C code.codeBuffer
        return ⟨region, func.name, func.params, func.ret, code.codeBuffer.length⟩ :
          Action C (Compiled C)) = do
      let bytes ← Action.ofExcept
        (if !code.relocs.isEmpty then .error (.error relocationsError) else return code.codeBuffer)
      let region ← place C bytes
      return ⟨region, func.name, func.params, func.ret, bytes.length⟩ := by
    split_ifs <;> rfl
  simp only [Jit.compile, Jit.generate, Action.ofExcept_bind, Action.bind_assoc, hrelocs]

end JitLang.Engine
