import JitLang.Engine.Compile
import JitLang.Translate.Interpreter

/-! # Calling compiled code through the C ABI

The mapping of `Compiled::entry`: an `int` is a 64-bit word, a `float` its bits, a `bool` a byte that is
`0` or `1`, and a `unit` return no word at all. The signature of the translation asks for the byte to be
zero-extended (`uext`), so a `bool` is a whole word that is `0` or `1`.

That the code generator is right is a hypothesis (`Generator.Correct`): machine code that needs no
relocation runs as the function it was compiled from, on whatever page it lies. What it was compiled from
runs as the interpreter does (`Jit.generate_returns`).
-/

namespace JitLang.Engine
open Foundations Host Numbers Cranelift Translate
open Ir.Eval (RVal)
set_option autoImplicit false

/-! ## Words -/

/-- How a 64-bit word holds a machine value. -/
inductive Held : AbiParam → Val → BitVec 64 → Prop
  | i64 (ext : ArgumentExtension) (x : BitVec 64) : Held ⟨.i64, ext⟩ (.i64 x) x
  | f64 (ext : ArgumentExtension) (x : BitVec 64) : Held ⟨.f64, ext⟩ (.f64 x) x
  /-- Without an extension the other bits are anything. -/
  | i8 (word : BitVec 64) : Held ⟨.i8, .none⟩ (.i8 (word.setWidth 8)) word
  | uext (x : BitVec 8) : Held ⟨.i8, .uext⟩ (.i8 x) (x.setWidth 64)
  | sext (x : BitVec 8) : Held ⟨.i8, .sext⟩ (.i8 x) (x.signExtend 64)

/-- The words hold the values, as the parameters ask. -/
inductive Passed : List AbiParam → List Val → List (BitVec 64) → Prop
  | nil : Passed [] [] []
  | cons {param : AbiParam} {x : Val} {word : BitVec 64} {params : List AbiParam} {xs : List Val}
      {words : List (BitVec 64)} :
      Held param x word → Passed params xs words → Passed (param :: params) (x :: xs) (word :: words)

/-- A result of this kind determines the word that holds it. -/
def FillsWord (param : AbiParam) : Prop := param.valueType = .i8 → param.extension ≠ .none

theorem slot_fillsWord {ty : Ir.Ty} {param : AbiParam} (h : slot ty = some param) : FillsWord param := by
  cases ty with
  | int | float =>
    cases h
    intro hty
    cases hty
  | bool =>
    cases h
    intro _ hext
    cases hext
  | unit => cases h

/-- What an `extern "C"` caller passes. -/
def words : RVal → List (BitVec 64)
  | .int v => [v]
  | .float v => [v]
  | .bool v => [if v then 1 else 0]
  | .unit => []

/-- What an `extern "C"` caller makes of what comes back. A `bool` is read from its byte, which must not
be other than `0` and `1`. -/
def readResult : Ir.Ty → List (BitVec 64) → Option RVal
  | .int, [x] => some (.int x)
  | .float, [x] => some (.float x)
  | .bool, [x] =>
    if x.setWidth 8 = 0 then some (.bool false)
    else if x.setWidth 8 = 1 then some (.bool true) else none
  | .unit, [] => some .unit
  | _, _ => none

/-- An encoded value is held, as the signature asks, by the word the C ABI has for it. -/
theorem held_of_encodes {ty : Ir.Ty} {param : AbiParam} {r : RVal} {x : Val}
    (hparam : slot ty = some param) (hr : Encodes ty r x) : ∃ y, words r = [y] ∧ Held param x y := by
  cases hr with
  | int v =>
    cases hparam
    exact ⟨v, rfl, .i64 _ v⟩
  | float v =>
    cases hparam
    exact ⟨v, rfl, .f64 _ v⟩
  | bool v =>
    cases hparam
    cases v
    · exact ⟨0, rfl, .uext 0⟩
    · exact ⟨1, rfl, .uext 1⟩

theorem passed_args {tys : List Ir.Ty} {params : List AbiParam} {args : List RVal}
    (hparams : tys.map slot = params.map some) (hargs : args.map typeOf = tys) :
    Passed params (args.flatMap encode) (args.flatMap words) := by
  induction args generalizing tys params with
  | nil =>
    subst hargs
    obtain rfl := List.map_eq_nil_iff.mp hparams.symm
    exact .nil
  | cons r args ih =>
    subst hargs
    cases params with
    | nil => cases hparams
    | cons param params =>
      obtain ⟨hparam, hrest⟩ := List.cons.inj hparams
      have hunit : typeOf r ≠ .unit := by
        intro hunit
        rw [hunit] at hparam
        cases hparam
      obtain ⟨x, hx⟩ := exists_encodes hunit
      obtain ⟨y, hy, hslot⟩ := held_of_encodes hparam hx
      rw [List.flatMap_cons, List.flatMap_cons, hx.encode, hy]
      exact .cons hslot (ih hrest rfl)

/-- A result comes back as the C ABI has it. -/
theorem passed_result (r : RVal) {out : List (BitVec 64)} :
    Passed (slot (typeOf r)).toList (encode r) out ↔ out = words r := by
  constructor
  · intro h
    cases r with
    | unit =>
      cases h
      rfl
    | int v | float v =>
      cases h with
      | cons hheld hrest =>
        cases hrest
        cases hheld
        rfl
    | bool v =>
      cases h with
      | cons hheld hrest =>
        cases hrest
        cases hheld
        cases v <;> rfl
  · rintro rfl
    by_cases hunit : typeOf r = .unit
    · cases r with
      | unit => exact .nil
      | int v | float v | bool v => cases hunit
    · obtain ⟨x, hx⟩ := exists_encodes hunit
      obtain ⟨param, hparam⟩ := slot_of_ne_unit hunit
      obtain ⟨y, hy, hheld⟩ := held_of_encodes hparam hx
      rw [hparam, hx.encode, hy]
      exact .cons hheld .nil

/-! ## The processor and the code generator -/

/-- The processor, and where a process can have code for it: on pages below `addressEnd`. Called at an
address with these argument words, and fetching at each moment of the call from this image of memory, it
comes back with these words (`Returns`). -/
structure Cpu where
  pageSize : ℕ
  addressEnd : ℕ
  addressEnd_le : addressEnd ≤ 2 ^ 64
  Returns : (ℕ → ℕ → Byte) → ℕ → List (BitVec 64) → List (BitVec 64) → Prop

/-- There is room for `len` bytes of code at `entry`, where a page begins. -/
structure Cpu.Room (cpu : Cpu) (entry len : ℕ) : Prop where
  aligned : cpu.pageSize ∣ entry
  below : entry + len ≤ cpu.addressEnd

section Returns
variable [DoubleArith] {C : Crates} {cpu : Cpu}

/-- Machine code without relocations runs, on whatever page it begins, as the function it was compiled from,
if the results determine the words they come back in. The rest of memory may change while it runs. -/
def Generator.Correct (G : Generator) (cpu : Cpu) : Prop :=
  ∀ {isa clif code}, G.compile isa clif = .ok code → code.relocs = [] →
    (∀ param ∈ clif.signature.returns, FillsWord param) →
    ∀ {fetch entry}, cpu.Room entry code.codeBuffer.length →
    (∀ t i b, code.codeBuffer[i]? = some b → fetch t (entry + i) = b) →
    ∀ {vals regs}, Passed clif.signature.params vals regs → ∀ out,
      cpu.Returns fetch entry regs out ↔ ∃ fuel results,
        Cranelift.eval clif vals fuel = .returned results ∧ Passed clif.signature.returns results out

/-- A region begins on a page, where there is room for the bytes it is made for. -/
def Pager.OnPages {W : Type} (P : Pager W) (cpu : Cpu) : Prop :=
  ∀ {n r}, P.Made n r → cpu.Room (P.asPtr r) n

/-- A function that passes `validate`, and has the entry block its builder made, is valid. -/
def Validator.Sound (V : Validator) : Prop :=
  ∀ {func : NamedFunction}, V.validate func.toFunction = .ok () → func.Valid

/-- What native calls rely on besides what memory looks like. -/
structure Crates.Correct (C : Crates) (L : Layout C.pager.Region)
    (view : C.World → Space C.pager.Region) (cpu : Cpu) : Prop extends C.Documented L view where
  validator : C.validator.Sound
  generator : C.generator.Correct cpu
  onPages : C.pager.OnPages cpu

omit [DoubleArith] in
theorem mapError_eq_ok {ε ε' α : Type} {x : Except ε α} {f : ε → ε'} {a : α}
    (h : x.mapError f = .ok a) : x = .ok a := by
  cases x with
  | error e => cases h
  | ok b =>
    cases h
    rfl

omit [DoubleArith] in
/-- Code comes out of the generator through all stages before the memory. -/
theorem Jit.generate_ok {jit : Jit C} {func : NamedFunction} {code : List Byte}
    (h : jit.generate func = .ok code) : C.validator.validate func.toFunction = .ok () ∧
      ∃ clif out, Translate.translate func.toFunction (C.generator.target jit.isa) = .ok clif ∧
        C.generator.compile jit.isa clif = .ok out ∧ out.relocs = [] ∧ out.codeBuffer = code := by
  obtain ⟨⟨⟩, hvalidate, h⟩ := bind_eq_ok.mp h
  obtain ⟨clif, hclif, h⟩ := bind_eq_ok.mp h
  obtain ⟨out, hout, h⟩ := bind_eq_ok.mp h
  refine ⟨mapError_eq_ok hvalidate, clif, out, mapError_eq_ok hclif, mapError_eq_ok hout, ?_⟩
  split_ifs at h with hrelocs
  cases h
  exact ⟨by simpa using hrelocs, rfl⟩

section Generated
variable {jit : Jit C} {func : NamedFunction} {code : List Byte} {args : List RVal}

/-- Generated code, on whatever page fetch sees it, returns what the interpreter returns, and returns if it
does. -/
theorem Jit.generate_returns (hvalid : C.validator.Sound) (hcorrect : C.generator.Correct cpu)
    (h : jit.generate func = .ok code) {fetch : ℕ → ℕ → Byte} {entry : ℕ}
    (hroom : cpu.Room entry code.length) (hfetch : ∀ t i b, code[i]? = some b → fetch t (entry + i) = b)
    (hargs : args.map typeOf = func.params) (out : List (BitVec 64)) :
    cpu.Returns fetch entry (args.flatMap words) out ↔
      ∃ fuel r, Ir.Eval.eval func.toFunction args fuel = .ok r ∧ out = words r := by
  obtain ⟨hvalidate, clif, code', hclif, hcompile, hrelocs, rfl⟩ := Jit.generate_ok h
  have hv := hvalid hvalidate
  obtain ⟨t, -, rfl, ht⟩ := translated_of_ok hv hclif
  have hsig := ht.signature
  have hfills : ∀ param ∈ t.clif.signature.returns, FillsWord param := fun param hparam => by
    rw [hsig.returns] at hparam
    exact slot_fillsWord (Option.mem_toList.mp hparam)
  rw [hcorrect hcompile hrelocs hfills hroom hfetch (passed_args hsig.params hargs), hsig.returns]
  constructor
  · rintro ⟨fuel, results, heval, hout⟩
    obtain ⟨-, hagrees⟩ := ht.simulate hv hargs fuel
    rw [heval] at hagrees
    generalize hinterp : Ir.Eval.eval func.toFunction args fuel = res at hagrees
    cases hagrees with
    | returned r =>
      have hty := eval_result_type hv hargs hinterp
      rw [← hty, passed_result] at hout
      exact ⟨fuel, r, hinterp, hout⟩
  · rintro ⟨fuel, r, hinterp, hout⟩
    obtain ⟨-, hagrees⟩ := ht.simulate hv hargs fuel
    have hty := eval_result_type hv hargs hinterp
    rw [hinterp] at hagrees
    generalize heval : Cranelift.eval t.clif (args.flatMap encode) fuel = res at hagrees
    cases hagrees
    exact ⟨fuel, encode r, heval, by rw [← hty, passed_result]; exact hout⟩

end Generated
end Returns
end JitLang.Engine
