import JitLang.Engine.Reference
import JitLang.Engine.Stages

/-! # What a compile comes to

A call of `Jit::compile` that nothing interrupts. It returns code that is sealed in a region of its own,
or it refuses and leaves the host with the regions it had (`Jit.compile_leaves`). Which error it refuses
with is decided by the first stage that fails (`Jit.compile_refused`); the translator's internal errors
are not among them, no stage panics, and writing the code never fails.
-/

namespace JitLang.Engine
open Foundations Host Translate
set_option autoImplicit false

variable {C : Crates} {L : Layout C.pager.Region} {view : C.World → Space C.pager.Region}

/-! ## Placing -/

/-- `place` returns a region of its own in which fetch sees the code, or an error of the pager and
nothing new. -/
theorem place_exchange (hdoc : C.Documented L view) {code : List Byte} {w w' : C.World}
    (hsep : Separate L (view w)) {res : Except C.Failure C.pager.Region}
    (h : place C code w = (res, w')) :
    (∃ region, res = .ok region ∧ Sealed L region code (view w') ∧
        Exchange L none (some region) (view w) (view w')) ∨
      (∃ err, res = .error (.error (.memory err)) ∧ Exchange L none none (view w) (view w')) := by
  obtain ⟨n, -, stage, hrun, hres⟩ := place_stages (C := C) code w
  rw [h] at hrun hres
  have hstart : (Stage.map : Stage C).Sound L view code (view w) := trivial
  obtain ⟨hs, hx⟩ := Stage.iterate_sound hdoc hsep hstart hrun
  cases stage with
  | done region =>
    cases hres
    exact .inl ⟨region, rfl, hs.2, hx⟩
  | failed err =>
    cases hres
    exact .inr ⟨err, rfl, hx⟩
  | map | write | protect | synchronize | unwind => cases hres

/-! ## Compiling -/

variable {jit : Jit C} {func : NamedFunction} {w w' : C.World}

theorem Jit.compile_of_error {err : C.Failure} (h : jit.generate func = .error err) :
    jit.compile func w = (.error err, w) := by
  rw [Jit.compile_eq, h]
  rfl

theorem Jit.compile_of_ok {code : List Byte} (h : jit.generate func = .ok code) :
    jit.compile func w = match place C code w with
      | (.ok region, w) => (.ok ⟨region, func.name, func.params, func.ret, code.length⟩, w)
      | (.error err, w) => (.error err, w) := by
  rw [Jit.compile_eq, h, Action.ofExcept_ok_bind]
  simp only [bind]
  rcases place C code w with ⟨_ | _, _⟩ <;> rfl

/-- A compile returns a handle of its function, whose code fetch sees in a region that is not for writing;
or it leaves the host with the regions it had. In either case nobody else notices. -/
theorem Jit.compile_leaves (hdoc : C.Documented L view) (hsep : Separate L (view w))
    {res : Except C.Failure (Compiled C)} (h : jit.compile func w = (res, w')) :
    (∃ code compiled, res = .ok compiled ∧ jit.generate func = .ok code ∧
        compiled = ⟨compiled.region, func.name, func.params, func.ret, code.length⟩ ∧
        Sealed L compiled.region code (view w') ∧
        Exchange L none (some compiled.region) (view w) (view w')) ∨
      (∃ err, res = .error err ∧ Exchange L none none (view w) (view w')) := by
  cases hgenerate : jit.generate func with
  | error err =>
    rw [Jit.compile_of_error hgenerate] at h
    cases h
    exact .inr ⟨err, rfl, exchange_of_untouched (fun r _ => .refl L r _) rfl hsep (by simp)⟩
  | ok code =>
    rw [Jit.compile_of_ok hgenerate] at h
    rcases hplace : place C code w with ⟨res', w₁⟩
    rw [hplace] at h
    rcases place_exchange hdoc hsep hplace with ⟨region, rfl, hsealed, hx⟩ | ⟨err, rfl, hx⟩
    · cases h
      exact .inl ⟨code, _, rfl, rfl, rfl, hsealed, hx⟩
    · cases h
      exact .inr ⟨_, rfl, hx⟩

theorem identity_compiled : ∃ m, Reference.jit.compile Reference.identity .stale =
    (.ok ⟨(⟨4096, 4096⟩ : Reference.Span), "f", [.int], .int, 4⟩, m) ∧ m.next = 12288 := by
  have hgenerates := Jit.compile_of_ok (w := Reference.Memory.stale) Reference.identity_generates
  obtain ⟨m, hplace, hnext⟩ := Reference.identity_placed
  rw [hplace] at hgenerates
  exact ⟨m, hgenerates, hnext⟩

theorem identity_leaves : ∃ m, (Reference.jit.compile Reference.identity .stale).2 = m ∧
    Sealed Reference.layout ⟨4096, 4096⟩ Reference.ret (Reference.view m) := by
  obtain ⟨m, hcompile, -⟩ := identity_compiled
  refine ⟨m, congrArg Prod.snd hcompile, ?_⟩
  rcases Jit.compile_leaves Reference.crates_documented Reference.stale_separate hcompile with
    ⟨code, compiled, hok, hcode, -, hsealed, -⟩ | ⟨err, herr, -⟩
  · rw [Reference.identity_generates] at hcode
    cases hok
    cases hcode
    exact hsealed
  · cases herr

/-- Why a compile refuses `func` in the host state `w`. -/
inductive Refused (jit : Jit C) (func : NamedFunction) (w : C.World) : C.JitError → Prop
  | invalid {err : C.validator.Error} :
      C.validator.validate func.toFunction = .error err → Refused jit func w (.invalidIr err)
  | unit : C.validator.validate func.toFunction = .ok () → HasUnitParam func.toFunction →
      Refused jit func w (.ofTranslate unitError)
  | codegen {clif : Cranelift.Function} {err : C.generator.CodegenError} :
      C.validator.validate func.toFunction = .ok () →
      Translate.translate func.toFunction (C.generator.target jit.isa) = .ok clif →
      C.generator.compile jit.isa clif = .error err →
      Refused jit func w (.codegen (C.generator.codegenErrorText err))
  | relocations {clif : Cranelift.Function} {out : MachineCode C.generator.Reloc} :
      C.validator.validate func.toFunction = .ok () →
      Translate.translate func.toFunction (C.generator.target jit.isa) = .ok clif →
      C.generator.compile jit.isa clif = .ok out → out.relocs ≠ [] →
      Refused jit func w relocationsError
  | map {code : List Byte} {err : C.pager.Error} {w₁ : C.World} : jit.generate func = .ok code →
      C.pager.withGuardPages code.length w = (.error err, w₁) → Refused jit func w (.memory err)
  | protect {code : List Byte} {err : C.pager.Error} {region : C.pager.Region} {w₁ w₂ w₃ : C.World} :
      jit.generate func = .ok code → C.pager.withGuardPages code.length w = (.ok region, w₁) →
      C.pager.write region 0 code w₁ = (.ok (), w₂) →
      C.pager.protect region .readExecute w₂ = (.error err, w₃) → Refused jit func w (.memory err)

/-- A reason to refuse is what the compile refuses with. -/
theorem Refused.compile (hvalid : C.validator.Sound) {e : C.JitError} (h : Refused jit func w e) :
    (jit.compile func w).1 = .error (.error e) := by
  cases h with
  | @invalid err hvalidate =>
    have hgenerate : jit.generate func = .error (.error (.invalidIr err)) := by
      rw [Jit.generate, hvalidate]
      rfl
    rw [Jit.compile_of_error hgenerate]
  | unit hvalidate hunit =>
    have hgenerate : jit.generate func = .error (.error (.ofTranslate unitError)) := by
      rw [Jit.generate, hvalidate, Translate.translate, translation_unit (hvalid hvalidate) hunit]
      rfl
    rw [Jit.compile_of_error hgenerate]
  | @codegen clif err hvalidate htranslate hcompile =>
    have hgenerate : jit.generate func =
        .error (.error (.codegen (C.generator.codegenErrorText err))) := by
      rw [Jit.generate, hvalidate, htranslate]
      simp only [Except.mapError, ok_bind, hcompile, error_bind]
    rw [Jit.compile_of_error hgenerate]
  | relocations hvalidate htranslate hcompile hrelocs =>
    have hgenerate : jit.generate func = .error (.error relocationsError) := by
      rw [Jit.generate, hvalidate, htranslate]
      simp [Except.mapError, hcompile, hrelocs]
    rw [Jit.compile_of_error hgenerate]
  | map hcode hmap =>
    rw [Jit.compile_of_ok hcode]
    simp only [place, bind, Action.call, hmap]
    rfl
  | protect hcode hmap hwrite hprotect =>
    rw [Jit.compile_of_ok hcode]
    simp only [place, bind, Action.call, Action.owning, hmap, hwrite, hprotect]
    rfl

/-- The stages before the memory come to code, or there is a reason to refuse. -/
theorem Jit.generate_or_refused (hvalid : C.validator.Sound) (jit : Jit C) (func : NamedFunction)
    (w : C.World) : (∃ code, jit.generate func = .ok code) ∨ ∃ e, Refused jit func w e := by
  cases hvalidate : C.validator.validate func.toFunction with
  | error err => exact .inr ⟨_, .invalid hvalidate⟩
  | ok =>
    have hv := hvalid hvalidate
    by_cases hunit : HasUnitParam func.toFunction
    · exact .inr ⟨_, .unit hvalidate hunit⟩
    · obtain ⟨t, ht, -⟩ := translation_ok (C.generator.target jit.isa) hv hunit
      have htranslate : Translate.translate func.toFunction (C.generator.target jit.isa) = .ok t.clif := by
        rw [Translate.translate, ht]
        rfl
      cases hcompile : C.generator.compile jit.isa t.clif with
      | error err => exact .inr ⟨_, .codegen hvalidate htranslate hcompile⟩
      | ok out =>
        by_cases hrelocs : out.relocs = []
        · refine .inl ⟨out.codeBuffer, ?_⟩
          rw [Jit.generate, hvalidate, htranslate]
          simp [Except.mapError, hcompile, hrelocs]
        · exact .inr ⟨_, .relocations hvalidate htranslate hcompile hrelocs⟩

/-- What is refused before the memory is refused with reason. -/
theorem Jit.generate_error (hvalid : C.validator.Sound) {err : C.Failure} (w : C.World)
    (h : jit.generate func = .error err) : ∃ e, err = .error e ∧ Refused jit func w e := by
  rcases Jit.generate_or_refused hvalid jit func w with ⟨code, hcode⟩ | ⟨e, he⟩
  · rw [h] at hcode
    cases hcode
  · have hcompile := he.compile hvalid
    rw [Jit.compile_of_error h] at hcompile
    cases hcompile
    exact ⟨e, rfl, he⟩

/-- Code that is there to be placed is placed, or mapping or protecting its region fails. -/
theorem place_or_refused (hdoc : C.Documented L view) {code : List Byte} (w : C.World)
    (hcode : jit.generate func = .ok code) :
    (∃ region, (place C code w).1 = .ok region) ∨ ∃ e, Refused jit func w e := by
  rcases hmap : C.pager.withGuardPages code.length w with ⟨err | region, w₁⟩
  · exact .inr ⟨_, .map hcode hmap⟩
  · obtain ⟨hmaps, hsize, -⟩ := hdoc.pager.map_ok hmap
    have hfits : 0 + code.length ≤ L.size region := by omega
    obtain ⟨w₂, hwrite⟩ :=
      hdoc.pager.write_inBounds hmaps.mapped_self hmaps.protection_self hfits
    rcases hprotect : C.pager.protect region .readExecute w₂ with ⟨err | ⟨⟩, w₃⟩
    · exact .inr ⟨_, .protect hcode hmap hwrite hprotect⟩
    · refine .inl ⟨region, ?_⟩
      simp only [place, bind, Action.call, Action.owning, Action.effect, hmap, hwrite, hprotect]
      rfl

theorem Jit.compile_or_refused (hdoc : C.Documented L view) (hvalid : C.validator.Sound)
    (jit : Jit C) (func : NamedFunction) (w : C.World) :
    (∃ compiled, (jit.compile func w).1 = .ok compiled) ∨ ∃ e, Refused jit func w e := by
  rcases Jit.generate_or_refused hvalid jit func w with ⟨code, hcode⟩ | hrefused
  · rcases place_or_refused hdoc w hcode with ⟨region, hregion⟩ | hrefused
    · refine .inl ⟨⟨region, func.name, func.params, func.ret, code.length⟩, ?_⟩
      rw [Jit.compile_of_ok hcode]
      rcases hplace : place C code w with ⟨res, w₁⟩
      rw [hplace] at hregion
      subst hregion
      rfl
    · exact .inr hrefused
  · exact .inr hrefused

/-- A compile refuses for the reason of the first stage that fails, and for no other: it does not panic,
and no internal error of the translator comes out of it. -/
theorem Jit.compile_refused (hdoc : C.Documented L view) (hvalid : C.validator.Sound)
    (jit : Jit C) (func : NamedFunction) (w : C.World) (err : C.Failure) :
    (jit.compile func w).1 = .error err ↔ ∃ e, err = .error e ∧ Refused jit func w e := by
  constructor
  · intro h
    rcases Jit.compile_or_refused hdoc hvalid jit func w with ⟨compiled, hok⟩ | ⟨e, he⟩
    · rw [hok] at h
      cases h
    · rw [he.compile hvalid] at h
      exact ⟨e, (Except.error.inj h).symm, he⟩
  · rintro ⟨e, rfl, he⟩
    exact he.compile hvalid

theorem identity_exhausted : (Reference.jit.compile Reference.identity .full).1 =
    .error (.error (.memory .exhausted)) :=
  (Jit.compile_refused Reference.crates_documented Reference.validator_sound Reference.jit
    Reference.identity .full _).mpr
    ⟨_, rfl, .map Reference.identity_generates (Reference.full_exhausted _)⟩

end JitLang.Engine
