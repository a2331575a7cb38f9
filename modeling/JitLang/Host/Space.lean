import Mathlib.Data.Set.Lattice
import Mathlib.Order.CompletePartialOrder

/-! # Memory, and what instruction fetch sees of it

A `Space` is the memory of a process: regions that are mapped with a protection, the byte at each
address, and the byte instruction fetch has cached for it, if any. Nothing keeps the cache up to date: a
cached byte survives writes, and survives the region under it. Fetch agrees with memory at an address
that is `Fresh`.

What an operation may do is a relation between the space before and after (`Maps`, `Writes`, `Protects`,
`Unmaps`, `Invalidates`). Each acts on one region, and a region apart from it is `Untouched`; so what a
region holds survives whatever is done to the others (`Untouched.sealed`).
-/

namespace JitLang.Host
set_option autoImplicit false

universe u

abbrev Byte := BitVec 8

structure Protection where
  read : Bool
  write : Bool
  execute : Bool
  deriving DecidableEq, Repr

namespace Protection

def readWrite : Protection := ⟨true, true, false⟩
def readExecute : Protection := ⟨true, false, true⟩

end Protection

variable {R : Type u}

structure Space (R : Type u) where
  mapped : Set R
  protection : R → Protection
  byte : ℕ → Byte
  cached : ℕ → Option Byte

/-- Where the regions lie. -/
structure Layout (R : Type u) where
  base : R → ℕ
  size : R → ℕ

def Layout.extent (L : Layout R) (r : R) : Set ℕ := {a | L.base r ≤ a ∧ a < L.base r + L.size r}

namespace Space
variable (s : Space R)

/-- The byte an instruction fetch gets. -/
def fetch (a : ℕ) : Byte := (s.cached a).getD (s.byte a)

def Fresh (a : ℕ) : Prop := ∀ b, s.cached a = some b → b = s.byte a

/-- `bytes` lie in memory from `base` on. -/
def Holds (base : ℕ) (bytes : List Byte) : Prop := ∀ i b, bytes[i]? = some b → s.byte (base + i) = b

variable {s}

theorem Fresh.fetch_eq {a : ℕ} (h : s.Fresh a) : s.fetch a = s.byte a := by
  cases hc : s.cached a with
  | none => rw [fetch, hc, Option.getD_none]
  | some b => rw [fetch, hc, Option.getD_some, h b hc]

end Space

/-! ## What operations do -/

section Operations
variable (L : Layout R)

/-- Off `touched`, memory keeps its bytes; a byte cached there was cached before or has been fetched
from memory since. -/
structure Confined (touched : Set ℕ) (s s' : Space R) : Prop where
  byte : ∀ a ∉ touched, s'.byte a = s.byte a
  cached : ∀ a ∉ touched, ∀ b, s'.cached a = some b → s.cached a = some b ∨ b = s.byte a

/-- No other region than `r` is affected. -/
structure Acts (r : R) (s s' : Space R) : Prop where
  mapped : ∀ r', r' ≠ r → (r' ∈ s'.mapped ↔ r' ∈ s.mapped)
  protection : ∀ r', r' ≠ r → s'.protection r' = s.protection r'
  confined : Confined (L.extent r) s s'

/-- `r` is mapped, for reading and writing, apart from the regions there are. -/
structure Maps (r : R) (s s' : Space R) : Prop extends Acts L r s s' where
  unmapped : r ∉ s.mapped
  mapped_self : r ∈ s'.mapped
  protection_self : s'.protection r = .readWrite
  apart : ∀ r' ∈ s.mapped, Disjoint (L.extent r) (L.extent r')

/-- The contents of `r` may change. -/
structure Modifies (r : R) (s s' : Space R) : Prop extends Acts L r s s' where
  mapped_self : r ∈ s'.mapped ↔ r ∈ s.mapped
  protection_self : s'.protection r = s.protection r

structure Writes (r : R) (offset : ℕ) (bytes : List Byte) (s s' : Space R) : Prop
    extends Modifies L r s s' where
  holds : s'.Holds (L.base r + offset) bytes

structure Protects (r : R) (p : Protection) (s s' : Space R) : Prop extends Acts L r s s' where
  mapped_self : r ∈ s'.mapped ↔ r ∈ s.mapped
  protection_self : s'.protection r = p
  byte : ∀ a, s'.byte a = s.byte a

structure Unmaps (r : R) (s s' : Space R) : Prop extends Acts L r s s' where
  unmapped_self : r ∉ s'.mapped

/-- Nothing happens but that bytes are cached or forgotten. -/
structure Quiet (s s' : Space R) : Prop where
  mapped : s'.mapped = s.mapped
  protection : s'.protection = s.protection
  confined : Confined ∅ s s'

/-- The cached bytes of the half-open range are made fresh. -/
structure Invalidates (lo hi : ℕ) (s s' : Space R) : Prop extends Quiet s s' where
  fresh : ∀ a, lo ≤ a → a < hi → s'.Fresh a

end Operations

/-! ## What a region keeps -/

variable {L : Layout R} {r r' : R} {p : Protection} {bytes : List Byte} {s s' : Space R}

/-- Nothing that is seen of `r` changes, but that cached bytes of it may become fresh. -/
structure Untouched (L : Layout R) (r : R) (s s' : Space R) : Prop where
  mapped : r ∈ s'.mapped ↔ r ∈ s.mapped
  protection : s'.protection r = s.protection r
  byte : ∀ a ∈ L.extent r, s'.byte a = s.byte a
  fresh : ∀ a ∈ L.extent r, s.Fresh a → s'.Fresh a

theorem Confined.refl (touched : Set ℕ) (s : Space R) : Confined touched s s :=
  ⟨fun _ _ => rfl, fun _ _ _ h => .inl h⟩

theorem Quiet.refl (s : Space R) : Quiet s s := ⟨rfl, rfl, .refl ∅ s⟩

theorem Confined.fresh {touched : Set ℕ} (h : Confined touched s s') {a : ℕ} (ha : a ∉ touched)
    (hfresh : s.Fresh a) : s'.Fresh a := by
  intro b hb
  rw [h.byte a ha]
  rcases h.cached a ha b hb with hold | hfetched
  · exact hfresh b hold
  · exact hfetched

theorem Acts.untouched (h : Acts L r s s') (hne : r' ≠ r)
    (hapart : Disjoint (L.extent r) (L.extent r')) : Untouched L r' s s' := by
  have hoff : ∀ a ∈ L.extent r', a ∉ L.extent r := fun a ha ha' =>
    Set.disjoint_left.mp hapart ha' ha
  exact ⟨h.mapped r' hne, h.protection r' hne, fun a ha => h.confined.byte a (hoff a ha),
    fun a ha => h.confined.fresh (hoff a ha)⟩

theorem Quiet.untouched (h : Quiet s s') : Untouched L r s s' :=
  ⟨by rw [h.mapped], by rw [h.protection], fun a _ => h.confined.byte a (Set.notMem_empty a),
    fun a _ => h.confined.fresh (Set.notMem_empty a)⟩

theorem Untouched.refl (L : Layout R) (r : R) (s : Space R) : Untouched L r s s :=
  ⟨Iff.rfl, rfl, fun _ _ => rfl, fun _ _ h => h⟩

theorem Untouched.trans {s'' : Space R} (h : Untouched L r s s') (h' : Untouched L r s' s'') :
    Untouched L r s s'' :=
  ⟨h'.mapped.trans h.mapped, h'.protection.trans h.protection,
    fun a ha => (h'.byte a ha).trans (h.byte a ha), fun a ha hs => h'.fresh a ha (h.fresh a ha hs)⟩

/-! ## Loaded and sealed regions -/

/-- `r` is mapped with protection `p` and begins with `bytes`. -/
structure Loaded (L : Layout R) (r : R) (p : Protection) (bytes : List Byte) (s : Space R) : Prop where
  mapped : r ∈ s.mapped
  protection : s.protection r = p
  fits : bytes.length ≤ L.size r
  holds : s.Holds (L.base r) bytes

/-- `r` is for execution and not for writing, and begins with `bytes`, which fetch sees. -/
structure Sealed (L : Layout R) (r : R) (bytes : List Byte) (s : Space R) : Prop
    extends Loaded L r .readExecute bytes s where
  fresh : ∀ a, L.base r ≤ a → a < L.base r + bytes.length → s.Fresh a

theorem Untouched.loaded (h : Untouched L r s s') (hs : Loaded L r p bytes s) :
    Loaded L r p bytes s' := by
  refine ⟨h.mapped.mpr hs.mapped, h.protection.trans hs.protection, hs.fits, fun i b hb => ?_⟩
  have hlt := (List.getElem?_eq_some_iff.mp hb).1
  have hfits := hs.fits
  rw [h.byte _ ⟨by omega, by omega⟩, hs.holds i b hb]

theorem Untouched.sealed (h : Untouched L r s s') (hs : Sealed L r bytes s) : Sealed L r bytes s' := by
  refine ⟨h.loaded hs.toLoaded, fun a hle hlt => h.fresh a ⟨hle, ?_⟩ (hs.fresh a hle hlt)⟩
  have hfits := hs.fits
  omega

/-- Fetch from a sealed region gets its bytes. -/
theorem Sealed.fetch (h : Sealed L r bytes s) {i : ℕ} {b : Byte} (hb : bytes[i]? = some b) :
    s.fetch (L.base r + i) = b := by
  have hlt := (List.getElem?_eq_some_iff.mp hb).1
  have hfresh := h.fresh (L.base r + i) (by omega) (by omega)
  rw [hfresh.fetch_eq, h.holds i b hb]

/-! The stages of a region that is filled with code. -/

theorem Writes.loaded (h : Writes L r 0 bytes s s') (hmapped : r ∈ s.mapped)
    (hfits : bytes.length ≤ L.size r) : Loaded L r (s.protection r) bytes s' :=
  ⟨h.mapped_self.mpr hmapped, h.protection_self, hfits, h.holds⟩

theorem Protects.loaded (h : Protects L r p s s') {p₀ : Protection} (hs : Loaded L r p₀ bytes s) :
    Loaded L r p bytes s' := by
  refine ⟨h.mapped_self.mpr hs.mapped, h.protection_self, hs.fits, fun i b hb => ?_⟩
  rw [h.byte, hs.holds i b hb]

theorem Invalidates.sealed {lo hi : ℕ} (h : Invalidates lo hi s s')
    (hs : Loaded L r .readExecute bytes s) (hlo : lo ≤ L.base r)
    (hhi : L.base r + bytes.length ≤ hi) : Sealed L r bytes s' :=
  ⟨h.untouched.loaded hs, fun a hle hlt => h.fresh a (hlo.trans hle) (hlt.trans_le hhi)⟩

/-! ## Regions apart -/

/-- No two mapped regions overlap. -/
def Separate (L : Layout R) (s : Space R) : Prop :=
  ∀ r ∈ s.mapped, ∀ r' ∈ s.mapped, r ≠ r' → Disjoint (L.extent r) (L.extent r')

theorem Separate.mono (h : Separate L s) (hsub : ∀ r ∈ s'.mapped, r ∈ s.mapped) : Separate L s' :=
  fun r hr r' hr' hne => h r (hsub r hr) r' (hsub r' hr') hne

theorem Maps.separate (h : Maps L r s s') (hs : Separate L s) : Separate L s' := by
  have hold : ∀ q ∈ s'.mapped, q ≠ r → q ∈ s.mapped := fun q hq hne => (h.mapped q hne).mp hq
  intro q hq q' hq' hne
  by_cases hqr : q = r
  · subst hqr
    exact h.apart q' (hold q' hq' (Ne.symm hne))
  · by_cases hqr' : q' = r
    · subst hqr'
      exact (h.apart q (hold q hq hqr)).symm
    · exact hs q (hold q hq hqr) q' (hold q' hq' hqr') hne

end JitLang.Host
