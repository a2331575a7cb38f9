import JitLang.Engine.Error
import JitLang.Host.Space
import JitLang.Translate.Translate
import Mathlib.Algebra.Ring.Nat

/-! # What the engine is built on

The engine calls four pieces of outside code: `ir-lang`'s validation, Cranelift's code generator,
`pager-lang`'s regions, and the platform's primitive for the instruction cache. They are the parameters
`Crates` of the model. What the engine relies on is stated here too, as the behaviour each documents
(`Pager.Documented`, `CacheControl.Documented`), in terms of what memory looks like in a state of the
host.
-/

namespace JitLang.Engine
open Host
set_option autoImplicit false

/-- `ir-lang`. -/
structure Validator where
  Error : Type
  validate : Ir.Function → Except Error Unit

/-- What the code generator returns: the bytes, and the places in them to be patched at run time. -/
structure MachineCode (Reloc : Type) where
  relocs : List Reloc
  codeBuffer : List Byte

/-- `cranelift-codegen` and `cranelift-native`. An `Isa` is what `finish` makes for the host. -/
structure Generator where
  Settings : Type
  Flags : Type
  IsaBuilder : Type
  Isa : Type
  SetError : Type
  CodegenError : Type
  Reloc : Type
  builder : Settings
  set : Settings → String → String → Except SetError Settings
  setErrorText : SetError → String
  flags : Settings → Flags
  nativeBuilder : Except String IsaBuilder
  finish : IsaBuilder → Flags → Except CodegenError Isa
  codegenErrorText : CodegenError → String
  target : Isa → Translate.TargetIsa
  compile : Isa → Cranelift.Function → Except CodegenError (MachineCode Reloc)

/-- `pager-lang`, on the states `W` of the host. An address is a number below `2 ^ 64`. -/
structure Pager (W : Type) where
  Region : Type
  Error : Type
  withGuardPages : ℕ → W → Except Error Region × W
  write : Region → ℕ → List Byte → W → Except Error Unit × W
  protect : Region → Protection → W → Except Error Unit × W
  asPtr : Region → ℕ
  drop : Region → W → W

/-- The primitives `icache` declares as foreign functions. -/
structure CacheControl (W : Type) where
  Process : Type
  sysIcacheInvalidate : ℕ → ℕ → W → W
  getCurrentProcess : Process
  flushInstructionCache : Process → ℕ → ℕ → W → Bool × W
  clearCache : ℕ → ℕ → W → W

inductive Arch
  | x86
  | x86_64
  | aarch64
  deriving DecidableEq, Repr

inductive Os
  | macos
  | windows
  | other
  deriving DecidableEq, Repr

/-- The host the crate is built for. On another architecture it does not compile. -/
structure Target where
  arch : Arch
  os : Os
  deriving DecidableEq, Repr

structure Crates where
  World : Type
  target : Target
  validator : Validator
  generator : Generator
  pager : Pager World
  caches : CacheControl World

/-! ## Documented behaviour -/

section Documented
variable {W : Type}

/-- In some state of the host the pager has made `r` for `n` bytes. -/
def Pager.Made (P : Pager W) (n : ℕ) (r : P.Region) : Prop := ∃ w w', P.withGuardPages n w = (.ok r, w')

/-- In some state of the host the pager answers one of the operations that placing `code` takes with this
error: mapping a region, or protecting one that is filled with the code. -/
inductive Pager.Denies (P : Pager W) (L : Layout P.Region) (view : W → Space P.Region)
    (code : List Byte) (err : P.Error) : Prop
  | map {w w' : W} : P.withGuardPages code.length w = (.error err, w') → Denies P L view code err
  | protect {r : P.Region} {w w' : W} : P.Made code.length r → Loaded L r .readWrite code (view w) →
      P.protect r .readExecute w = (.error err, w') → Denies P L view code err

/-- Each operation on a region is called while the region is mapped. Behind a region lies a guard page, so
that it ends below the end of the address space. -/
structure Pager.Documented (P : Pager W) (L : Layout P.Region) (view : W → Space P.Region) : Prop where
  base : ∀ r, L.base r = P.asPtr r
  map_ok : ∀ {n w r w'}, P.withGuardPages n w = (.ok r, w') →
    Maps L r (view w) (view w') ∧ n ≤ L.size r ∧ L.base r + L.size r < 2 ^ 64
  map_error : ∀ {n w e w'}, P.withGuardPages n w = (.error e, w') → Quiet (view w) (view w')
  write_ok : ∀ {r offset bytes w w'}, r ∈ (view w).mapped →
    P.write r offset bytes w = (.ok (), w') → Writes L r offset bytes (view w) (view w')
  write_error : ∀ {r offset bytes w e w'}, r ∈ (view w).mapped →
    P.write r offset bytes w = (.error e, w') → Modifies L r (view w) (view w')
  /-- A write fails only where it is out of bounds or the region is not for writing. -/
  write_inBounds : ∀ {r offset bytes w}, r ∈ (view w).mapped →
    (view w).protection r = .readWrite → offset + bytes.length ≤ L.size r →
    ∃ w', P.write r offset bytes w = (.ok (), w')
  protect_ok : ∀ {r p w w'}, r ∈ (view w).mapped →
    P.protect r p w = (.ok (), w') → Protects L r p (view w) (view w')
  protect_error : ∀ {r p w e w'}, r ∈ (view w).mapped →
    P.protect r p w = (.error e, w') → Quiet (view w) (view w')
  drop : ∀ {r w}, r ∈ (view w).mapped → Unmaps L r (view w) (view (P.drop r w))

/-- The range from `start` of `len` bytes lies in a region that is mapped for execution. -/
def Executable {R : Type} (L : Layout R) (s : Space R) (start len : ℕ) : Prop :=
  ∃ r ∈ s.mapped, s.protection r = .readExecute ∧ L.base r ≤ start ∧
    start + len ≤ L.base r + L.size r

/-- Where the caches are unified fetch sees memory; the primitives work on ranges that are executable. -/
structure CacheControl.Documented {R : Type} (K : CacheControl W) (target : Target) (L : Layout R)
    (view : W → Space R) : Prop where
  unified : target.arch ≠ .aarch64 → ∀ w a, (view w).Fresh a
  sysIcacheInvalidate : ∀ {start len w}, Executable L (view w) start len →
    Invalidates start (start + len) (view w) (view (K.sysIcacheInvalidate start len w))
  flushInstructionCache : ∀ {start len w}, Executable L (view w) start len →
    Invalidates start (start + len) (view w)
      (view (K.flushInstructionCache K.getCurrentProcess start len w).2)
  clearCache : ∀ {start len w}, Executable L (view w) start len →
    Invalidates start (start + len) (view w) (view (K.clearCache start (start + len) w))

end Documented

/-- The outside code does what it documents; `view` is what memory looks like. -/
structure Crates.Documented (C : Crates) (L : Layout C.pager.Region)
    (view : C.World → Space C.pager.Region) : Prop where
  pager : C.pager.Documented L view
  caches : C.caches.Documented C.target L view

end JitLang.Engine
