import JitLang.Translate.Simulation
import JitLang.Translate.TypeSafety

/-! # What translation says of the interpreter

A function that is translated never panics in the interpreter on arguments of its parameter types. Either it
runs on for ever, or there is a number of blocks after which it returns, with a value of the type it
declares; the translation does the same (`interpreter_sound`).
-/

namespace JitLang.Translate
open Foundations Cranelift Numbers
open Ir.Eval (RVal Stop)
set_option autoImplicit false

section Sound
variable [DoubleArith] {func : Ir.Function} {isa : TargetIsa} {t : Translation} {args : List RVal}

/-- A function without `unit` parameters is translated, and what the interpreter returns its translation
returns. -/
theorem translate_returns (isa : TargetIsa) (hv : func.Valid) (hunit : ¬ HasUnitParam func) :
    ∃ clif, translate func isa = .ok clif ∧ ∀ {args : List RVal} {fuel : ℕ} {r : RVal},
      args.map typeOf = func.params → Ir.Eval.eval func args fuel = .ok r →
      Cranelift.eval clif (args.flatMap encode) fuel = .returned (encode r) := by
  obtain ⟨t, htrans, ht⟩ := translation_ok isa hv hunit
  refine ⟨t.clif, by rw [translate, htrans]; rfl, fun {args fuel r} hargs heval => ?_⟩
  obtain ⟨-, hagrees⟩ := ht.simulate hv hargs fuel
  rw [heval] at hagrees
  generalize Cranelift.eval t.clif (args.flatMap encode) fuel = res at hagrees
  cases hagrees
  rfl

/-- The machine enters as many blocks as the interpreter. -/
theorem entered_length (hv : func.Valid) {clif : Cranelift.Function} (h : translate func isa = .ok clif)
    (hargs : args.map typeOf = func.params) (fuel : ℕ) :
    (Cranelift.entered clif (args.flatMap encode) fuel).length =
      (Ir.Eval.entered func args fuel).length := by
  obtain ⟨t, -, rfl, ht⟩ := translated_of_ok hv h
  have hentered := congrArg List.length (ht.simulate hv hargs fuel).1
  simpa using hentered.symm

/-- The interpreter never panics on a translated function: it is cut off by every bound on the blocks, and
so is the translation, or both return from some bound on, and what is returned is of the declared type. -/
theorem interpreter_sound (hv : func.Valid) {clif : Cranelift.Function}
    (h : translate func isa = .ok clif) (hargs : args.map typeOf = func.params) :
    (∀ fuel, Ir.Eval.eval func args fuel = .error .outOfFuel ∧
      Cranelift.eval clif (args.flatMap encode) fuel = .outOfFuel) ∨
    ∃ n r, typeOf r = func.ret ∧ ∀ fuel,
      Ir.Eval.eval func args fuel = (if n ≤ fuel then .ok r else .error .outOfFuel) ∧
      Cranelift.eval clif (args.flatMap encode) fuel =
        if n ≤ fuel then .returned (encode r) else .outOfFuel := by
  obtain ⟨t, -, rfl, ht⟩ := translated_of_ok hv h
  have hagrees : ∀ fuel, Agrees (Ir.Eval.eval func args fuel)
      (Cranelift.eval t.clif (args.flatMap encode) fuel) := fun fuel => (ht.simulate hv hargs fuel).2
  rcases eval_safe hv hargs with hdiverges | ⟨n, r, hty, hreturns⟩
  · refine .inl fun fuel => ⟨hdiverges fuel, ?_⟩
    have h := hagrees fuel
    rw [hdiverges fuel] at h
    generalize Cranelift.eval t.clif (args.flatMap encode) fuel = res at h
    cases h
    rfl
  · refine .inr ⟨n, r, hty, fun fuel => ⟨hreturns fuel, ?_⟩⟩
    have h := hagrees fuel
    rw [hreturns fuel] at h
    generalize Cranelift.eval t.clif (args.flatMap encode) fuel = res at h ⊢
    split_ifs at h ⊢ <;> cases h <;> rfl

end Sound

theorem halvings_sound : ∃ clif, translate Ir.halvings ⟨⟨0⟩⟩ = .ok clif ∧ ∃ n, ∀ fuel,
    @Cranelift.eval clif hostDouble [.i64 4, .i8 1] fuel =
      if n ≤ fuel then .returned [.i8 0] else .outOfFuel := by
  obtain ⟨clif, hclif⟩ := halvings_translates
  let _ := hostDouble
  have hargs : [RVal.int 4, .bool true].map typeOf = Ir.halvings.params := rfl
  have heval : Ir.Eval.eval Ir.halvings [.int 4, .bool true] 9 = .ok (.bool false) := rfl
  rcases interpreter_sound Ir.halvings.valid hclif hargs with hdiverges | ⟨n, r, -, hreturns⟩
  · have h := (hdiverges 9).1.symm.trans heval
    cases h
  · obtain rfl : r = .bool false :=
      Ir.Eval.eval_unique ((hreturns n).1.trans (if_pos le_rfl)) heval
    exact ⟨clif, hclif, n, fun fuel => (hreturns fuel).2⟩

end JitLang.Translate
