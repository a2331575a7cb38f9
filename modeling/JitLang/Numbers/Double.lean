import Mathlib.Order.Compare

/-! # IEEE 754 double arithmetic, as a parameter

The operations of the floating-point unit on the 64 bits of a double. They are not interpreted: every
result about floats holds of whatever arithmetic is put here, and one arithmetic serves both the
source language and the target. A comparison has the four outcomes of IEEE 754: less, equal, greater,
or unordered (`none`).
-/

namespace JitLang.Numbers
set_option autoImplicit false

class DoubleArith where
  add : BitVec 64 → BitVec 64 → BitVec 64
  sub : BitVec 64 → BitVec 64 → BitVec 64
  mul : BitVec 64 → BitVec 64 → BitVec 64
  div : BitVec 64 → BitVec 64 → BitVec 64
  neg : BitVec 64 → BitVec 64
  compare : BitVec 64 → BitVec 64 → Option Ordering

/-- The doubles of the host, except that an arithmetic operation has one NaN for a result, where the host
may keep the bits of an operand. Negation flips the sign bit, of a NaN too. -/
@[reducible] def hostDouble : DoubleArith where
  add a b := (Float.ofBits ⟨a⟩ + Float.ofBits ⟨b⟩).toBits.toBitVec
  sub a b := (Float.ofBits ⟨a⟩ - Float.ofBits ⟨b⟩).toBits.toBitVec
  mul a b := (Float.ofBits ⟨a⟩ * Float.ofBits ⟨b⟩).toBits.toBitVec
  div a b := (Float.ofBits ⟨a⟩ / Float.ofBits ⟨b⟩).toBits.toBitVec
  neg a := a ^^^ BitVec.intMin 64
  compare a b :=
    if Float.ofBits ⟨a⟩ < Float.ofBits ⟨b⟩ then some .lt
    else if Float.ofBits ⟨a⟩ == Float.ofBits ⟨b⟩ then some .eq
    else if Float.ofBits ⟨b⟩ < Float.ofBits ⟨a⟩ then some .gt
    else none

end JitLang.Numbers
