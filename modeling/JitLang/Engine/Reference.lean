import JitLang.Engine.Abi
import JitLang.Host.Ownership
import Mathlib.Data.Set.Insert

/-! # A host to run the engine on

One set of outside code that behaves as documented, for an AArch64 machine whose instruction cache is
full of stale bytes: a pager that hands out pages in ascending order, a cache primitive that forgets the
cached bytes of its range, a validator that accepts the valid functions without an edge to the entry
block, and a code generator that knows one function, the identity, and emits the one instruction it
takes.
-/

namespace JitLang.Engine.Reference
open Foundations Host Numbers Cranelift Translate
open Ir.Eval (RVal)
set_option autoImplicit false

/-! ## Memory -/

structure Span where
  base : ℕ
  size : ℕ
  deriving DecidableEq, Repr

@[irreducible] def pageSize : ℕ := 4096

/-- Every region ends below `next`, where a page begins. -/
structure Memory where
  regions : List Span
  protection : Span → Protection
  byte : ℕ → Byte
  cached : ℕ → Option Byte
  next : ℕ
  below : ∀ r ∈ regions, r.base + r.size ≤ next
  aligned : pageSize ∣ next

inductive MemoryError
  | exhausted
  | denied
  deriving DecidableEq, Repr

namespace Memory
variable (m : Memory)

/-- Rounds up to whole pages. -/
def pages (n : ℕ) : ℕ := (n + (pageSize - 1)) / pageSize * pageSize

theorem le_pages (n : ℕ) : n ≤ pages n := by
  unfold pages pageSize
  omega

/-- Where the next region goes, behind a guard page. -/
def span (n : ℕ) : Span := ⟨m.next + pageSize, pages n⟩

theorem span_aligned (n : ℕ) : pageSize ∣ (m.span n).base := Nat.dvd_add m.aligned (dvd_refl _)

/-- Behind the region, and a guard page. -/
def behind (n : ℕ) : ℕ := (m.span n).base + (m.span n).size + pageSize

theorem behind_aligned (n : ℕ) : pageSize ∣ m.behind n :=
  Nat.dvd_add (Nat.dvd_add (m.span_aligned n) (Nat.dvd_mul_left _ _)) (dvd_refl _)

/-- Maps the next region, for which there must be room with a guard page on either side. -/
def withGuardPages (n : ℕ) : Except MemoryError Span × Memory :=
  if m.behind n ≤ 2 ^ 64 then
    (.ok (m.span n),
      { m with
        regions := m.span n :: m.regions
        protection := Function.update m.protection (m.span n) .readWrite
        byte := fun a =>
          if (m.span n).base ≤ a ∧ a < (m.span n).base + (m.span n).size then 0 else m.byte a
        next := m.behind n
        below := by
          intro r hr
          rcases List.mem_cons.mp hr with rfl | hr
          · exact Nat.le_add_right _ _
          · have hbelow := m.below r hr
            simp only [behind, span]
            omega
        aligned := m.behind_aligned n })
  else
    (.error .exhausted, m)

def write (r : Span) (offset : ℕ) (bytes : List Byte) : Except MemoryError Unit × Memory :=
  if r ∈ m.regions ∧ m.protection r = .readWrite ∧ offset + bytes.length ≤ r.size then
    (.ok (),
      { m with
        byte := fun a =>
          if r.base + offset ≤ a then (bytes[a - (r.base + offset)]?).getD (m.byte a) else m.byte a })
  else
    (.error .denied, m)

def protect (r : Span) (p : Protection) : Except MemoryError Unit × Memory :=
  if r ∈ m.regions then
    (.ok (), { m with protection := Function.update m.protection r p })
  else
    (.error .denied, m)

def drop (r : Span) : Memory :=
  { m with
    regions := m.regions.filter (· ≠ r)
    below := fun r' hr' => m.below r' (List.mem_filter.mp hr').1 }

/-- Forgets the cached bytes of the half-open range. -/
def clearCache (lo hi : ℕ) : Memory :=
  { m with cached := fun a => if lo ≤ a ∧ a < hi then none else m.cached a }

/-- Nothing is mapped, and the instruction cache holds a stale byte everywhere. -/
def stale : Memory :=
  ⟨[], fun _ => .readWrite, fun _ => 0, fun _ => some 0xFF, 0, by simp, dvd_zero _⟩

/-- No address is left. -/
def full : Memory where
  regions := []
  protection _ := .readWrite
  byte _ := 0
  cached _ := none
  next := 2 ^ 64
  below := by simp
  aligned := by
    unfold pageSize
    decide

end Memory

def layout : Layout Span := ⟨Span.base, Span.size⟩

def view (m : Memory) : Space Span :=
  ⟨{r | r ∈ m.regions}, m.protection, m.byte, m.cached⟩

/-! ## The crates -/

def pager : Pager Memory where
  Region := Span
  Error := MemoryError
  withGuardPages n m := m.withGuardPages n
  write r offset bytes m := m.write r offset bytes
  protect r p m := m.protect r p
  asPtr := Span.base
  drop r m := m.drop r

def caches : CacheControl Memory where
  Process := Unit
  sysIcacheInvalidate start len m := m.clearCache start (start + len)
  getCurrentProcess := ()
  flushInstructionCache _ start len m := (true, m.clearCache start (start + len))
  clearCache lo hi m := m.clearCache lo hi

open Classical in
noncomputable def validator : Validator where
  Error := Unit
  validate func := if func.Valid ∧ func.SparesEntry then .ok () else .error ()

def identityClif : Cranelift.Function := (Translate.translate Ir.identity ⟨⟨0⟩⟩).toOption.getD
  ⟨⟨0, 0⟩, ⟨⟨0⟩, [], []⟩, [], [], []⟩

/-- The instruction `ret`. -/
def ret : List Byte := [0xC0, 0x03, 0x5F, 0xD6]

def generator : Generator where
  Settings := List (String × String)
  Flags := List (String × String)
  IsaBuilder := Unit
  Isa := Unit
  SetError := Empty
  CodegenError := Unit
  Reloc := Empty
  builder := []
  set flags name value := .ok ((name, value) :: flags)
  setErrorText := Empty.elim
  flags := id
  nativeBuilder := .ok ()
  finish _ _ := .ok ()
  codegenErrorText _ := "unknown function"
  target _ := ⟨⟨0⟩⟩
  compile _ clif := if clif = identityClif then .ok ⟨[], ret⟩ else .error ()

noncomputable def crates : Crates where
  World := Memory
  target := ⟨.aarch64, .other⟩
  validator := validator
  generator := generator
  pager := pager
  caches := caches

/-- A machine that knows the instruction `ret`: the first argument register is the result register. -/
def cpu : Cpu where
  pageSize := pageSize
  addressEnd := 2 ^ 64
  addressEnd_le := le_rfl
  Returns fetch entry args out :=
    (∀ t i b, ret[i]? = some b → fetch t (entry + i) = b) ∧ out = args.take 1

/-! ## They behave as documented -/

section Documented
variable {m m' : Memory} {r : Span} {n : ℕ} {bytes : List Byte}

theorem modifies_refl (r : Span) (s : Space Span) : Modifies layout r s s :=
  ⟨⟨fun _ _ => Iff.rfl, fun _ _ => rfl, .refl _ s⟩, Iff.rfl, rfl⟩

theorem withGuardPages_ok (h : m.withGuardPages n = (.ok r, m')) :
    Maps layout r (view m) (view m') ∧ n ≤ layout.size r ∧
      layout.base r + layout.size r < 2 ^ 64 := by
  unfold Memory.withGuardPages at h
  split_ifs at h with hroom
  · obtain ⟨hr, rfl⟩ := Prod.mk.inj h
    obtain rfl := Except.ok.inj hr
    -- The region lies behind all there are.
    have hbehind : ∀ r' ∈ m.regions, r'.base + r'.size < (m.span n).base := fun r' hr' => by
      have hbelow := m.below r' hr'
      simp only [Memory.span, pageSize]
      omega
    have hnew : m.span n ∉ m.regions := fun hmem => by
      have hlt := hbehind _ hmem
      omega
    have hself : Function.update m.protection (m.span n) Protection.readWrite (m.span n) =
        Protection.readWrite := Function.update_self _ _ _
    have hothers : ∀ r', r' ≠ m.span n →
        Function.update m.protection (m.span n) Protection.readWrite r' = m.protection r' :=
      fun r' hne => Function.update_of_ne hne _ _
    refine ⟨⟨⟨fun r' hne => ?_, hothers, fun a ha => if_neg ha, fun a _ b hb => .inl hb⟩, hnew,
      List.mem_cons_self, hself, fun r' hr' => ?_⟩, Memory.le_pages n, ?_⟩
    · show r' ∈ m.span n :: m.regions ↔ r' ∈ m.regions
      simp [hne]
    · have hlt := hbehind r' hr'
      refine Set.disjoint_left.mpr fun a ha ha' => ?_
      have hle : (m.span n).base ≤ a := ha.1
      have hlt' : a < r'.base + r'.size := ha'.2
      omega
    · show (m.span n).base + (m.span n).size < 2 ^ 64
      unfold Memory.behind pageSize at hroom
      omega
  · cases h

theorem withGuardPages_error {e : MemoryError} (h : m.withGuardPages n = (.error e, m')) : m' = m := by
  unfold Memory.withGuardPages at h
  split_ifs at h
  · cases h
  · exact (Prod.mk.inj h).2.symm

theorem write_ok {offset : ℕ} (h : m.write r offset bytes = (.ok (), m')) :
    Writes layout r offset bytes (view m) (view m') := by
  unfold Memory.write at h
  split_ifs at h with hallowed
  · obtain ⟨-, rfl⟩ := Prod.mk.inj h
    obtain ⟨-, -, hfits⟩ := hallowed
    refine ⟨⟨⟨fun _ _ => Iff.rfl, fun _ _ => rfl, fun a ha => ?_, fun a _ b hb => .inl hb⟩, Iff.rfl,
      rfl⟩, fun i b hb => ?_⟩
    · show (if r.base + offset ≤ a then (bytes[a - (r.base + offset)]?).getD (m.byte a)
        else m.byte a) = m.byte a
      split_ifs with hle
      · have hout : ¬ (r.base ≤ a ∧ a < r.base + r.size) := ha
        rw [List.getElem?_eq_none (by omega), Option.getD_none]
      · rfl
    · show (if r.base + offset ≤ r.base + offset + i then
        (bytes[r.base + offset + i - (r.base + offset)]?).getD (m.byte (r.base + offset + i))
        else m.byte (r.base + offset + i)) = b
      rw [if_pos (Nat.le_add_right _ _), Nat.add_sub_cancel_left, hb, Option.getD_some]
  · cases h

theorem write_error {offset : ℕ} {e : MemoryError} (h : m.write r offset bytes = (.error e, m')) :
    m' = m := by
  unfold Memory.write at h
  split_ifs at h
  · cases h
  · exact (Prod.mk.inj h).2.symm

theorem protect_ok {p : Protection} (h : m.protect r p = (.ok (), m')) :
    Protects layout r p (view m) (view m') := by
  unfold Memory.protect at h
  split_ifs at h
  · obtain ⟨-, rfl⟩ := Prod.mk.inj h
    exact ⟨⟨fun _ _ => Iff.rfl, fun r' hne => Function.update_of_ne hne _ _, fun _ _ => rfl,
      fun _ _ _ hb => .inl hb⟩, Iff.rfl, Function.update_self _ _ _, fun _ => rfl⟩
  · cases h

theorem protect_error {p : Protection} {e : MemoryError} (h : m.protect r p = (.error e, m')) :
    m' = m := by
  unfold Memory.protect at h
  split_ifs at h
  · cases h
  · exact (Prod.mk.inj h).2.symm

theorem drop_unmaps : Unmaps layout r (view m) (view (m.drop r)) := by
  refine ⟨⟨fun r' hne => ?_, fun _ _ => rfl, fun _ _ => rfl, fun _ _ _ hb => .inl hb⟩, fun hmem => ?_⟩
  · show r' ∈ m.regions.filter (· ≠ r) ↔ r' ∈ m.regions
    simp [hne]
  · have hmem : r ∈ m.regions.filter (· ≠ r) := hmem
    simp at hmem

theorem clearCache_invalidates (lo hi : ℕ) (m : Memory) :
    Invalidates lo hi (view m) (view (m.clearCache lo hi)) := by
  have hcached : ∀ a b, (m.clearCache lo hi).cached a = some b →
      ¬ (lo ≤ a ∧ a < hi) ∧ m.cached a = some b := fun a b hb => by
    simpa [Memory.clearCache] using hb
  exact ⟨⟨rfl, rfl, fun _ _ => rfl, fun a _ b hb => .inl (hcached a b hb).2⟩,
    fun a hlo hhi b hb => absurd ⟨hlo, hhi⟩ (hcached a b hb).1⟩

theorem pager_documented : pager.Documented layout view where
  base _ := rfl
  map_ok h := withGuardPages_ok h
  map_error h := by
    rw [withGuardPages_error h]
    exact .refl _
  write_ok _ h := write_ok h
  write_error _ h := by
    rw [write_error h]
    exact modifies_refl _ _
  write_inBounds hmapped hprotection hfits := ⟨_, if_pos ⟨hmapped, hprotection, hfits⟩⟩
  protect_ok _ h := protect_ok h
  protect_error _ h := by
    rw [protect_error h]
    exact .refl _
  drop _ := drop_unmaps

theorem caches_documented : caches.Documented ⟨.aarch64, .other⟩ layout view where
  unified h := absurd rfl h
  sysIcacheInvalidate _ := clearCache_invalidates _ _ _
  flushInstructionCache _ := clearCache_invalidates _ _ _
  clearCache _ := clearCache_invalidates _ _ _

theorem crates_documented : crates.Documented layout view := ⟨pager_documented, caches_documented⟩

theorem validator_sound : crates.validator.Sound := by
  intro func h
  by_contra hv
  have hrejected : validator.validate func.toFunction = .error () := if_neg fun h => hv h.1
  have h : validator.validate func.toFunction = .ok () := h
  rw [hrejected] at h
  cases h

theorem identity_translates : Translate.translate Ir.identity ⟨⟨0⟩⟩ = .ok identityClif := rfl

/-- The function `f` of the documentation. -/
def identity : NamedFunction := { Ir.identity with name := "f", entry_params := rfl }

noncomputable def jit : Jit crates := ⟨()⟩

theorem identity_validates : validator.validate Ir.identity = .ok () := by
  refine if_pos ⟨Ir.identity.valid, fun b term hb hterm => ?_⟩
  rw [hb.eq_zero rfl] at hterm
  cases hterm
  decide

theorem identity_compiles : generator.compile () identityClif = .ok ⟨[], ret⟩ := by
  simp [generator]

theorem identity_generates : jit.generate identity = .ok ret := by
  have hvalidate : crates.validator.validate identity.toFunction = .ok () := identity_validates
  have htranslate : Translate.translate identity.toFunction (crates.generator.target jit.isa) =
      .ok identityClif := identity_translates
  have hcompile : crates.generator.compile jit.isa identityClif = .ok ⟨[], ret⟩ := identity_compiles
  rw [Jit.generate, hvalidate, htranslate]
  simp only [Except.mapError, ok_bind, hcompile]
  rfl

/-- Where there is room, code is placed. -/
theorem place_ok (m : Memory) (code : List Byte) (hroom : m.behind code.length ≤ 2 ^ 64) :
    ∃ m', place crates code m = (.ok (m.span code.length), m') ∧ m'.next = m.behind code.length := by
  obtain ⟨m₁, hmap, hnext₁⟩ : ∃ m₁, m.withGuardPages code.length = (.ok (m.span code.length), m₁) ∧
      m₁.next = m.behind code.length := ⟨_, if_pos hroom, rfl⟩
  obtain ⟨hmaps, hsize, -⟩ := withGuardPages_ok hmap
  obtain ⟨m₂, hwrite, hnext₂⟩ : ∃ m₂, m₁.write (m.span code.length) 0 code = (.ok (), m₂) ∧
      m₂.next = m₁.next :=
    ⟨_, if_pos ⟨hmaps.mapped_self, hmaps.protection_self, by rw [Nat.zero_add]; exact hsize⟩, rfl⟩
  obtain ⟨m₃, hprotect, hnext₃⟩ : ∃ m₃, m₂.protect (m.span code.length) .readExecute = (.ok (), m₃) ∧
      m₃.next = m₂.next := ⟨_, if_pos ((write_ok hwrite).mapped_self.mpr hmaps.mapped_self), rfl⟩
  have hmap : crates.pager.withGuardPages code.length m = (.ok (m.span code.length), m₁) := hmap
  have hwrite : crates.pager.write (m.span code.length) 0 code m₁ = (.ok (), m₂) := hwrite
  have hprotect : crates.pager.protect (m.span code.length) .readExecute m₂ = (.ok (), m₃) := hprotect
  simp only [place, bind, Action.call, Action.owning, Action.effect, hmap, hwrite, hprotect]
  exact ⟨_, rfl, hnext₃.trans (hnext₂.trans hnext₁)⟩

theorem span_eq {next : ℕ} (h : m.next = next) : m.span ret.length = ⟨next + 4096, 4096⟩ := by
  subst h
  unfold Memory.span Memory.pages pageSize
  rfl

theorem behind_eq {next : ℕ} (h : m.next = next) :
    m.behind ret.length = next + 4096 + 4096 + 4096 := by
  rw [Memory.behind, span_eq h]
  unfold pageSize
  rfl

theorem identity_placed : ∃ m', place crates ret Memory.stale = (.ok (⟨4096, 4096⟩ : Span), m') ∧
    m'.next = 12288 := by
  have hbehind : Memory.stale.behind ret.length = 12288 := behind_eq rfl
  obtain ⟨m', hplace, hnext⟩ := place_ok Memory.stale ret (by rw [hbehind]; decide)
  rw [span_eq rfl] at hplace
  exact ⟨m', hplace, hnext.trans hbehind⟩

/-- A second region, behind that of the identity. -/
theorem second_mapped (h : m.next = 12288) :
    ∃ m', m.withGuardPages ret.length = (.ok (⟨16384, 4096⟩ : Span), m') := by
  have hroom : m.behind ret.length ≤ 2 ^ 64 := by
    rw [behind_eq h]
    decide
  obtain ⟨m', hmap⟩ : ∃ m', m.withGuardPages ret.length = (.ok (m.span ret.length), m') :=
    ⟨_, if_pos hroom⟩
  rw [span_eq h] at hmap
  exact ⟨m', hmap⟩

theorem stale_separate : Separate layout (view Memory.stale) := fun _ hr => by cases hr

theorem full_exhausted (n : ℕ) : Memory.full.withGuardPages n = (.error .exhausted, Memory.full) := by
  refine if_neg ?_
  unfold Memory.behind Memory.span pageSize
  simp only [Memory.full]
  omega

end Documented
end JitLang.Engine.Reference
