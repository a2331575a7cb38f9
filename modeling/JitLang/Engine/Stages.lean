import JitLang.Engine.Compile
import JitLang.Host.Ownership

/-! # `place` one operation at a time

A call of `place` as the operations it makes on the host, one after the other, so that other calls can
come in between. Run without interruption the stages are `place` (`place_stages`). Each keeps what is
known of the region it works on, `Stage.Sound`, and leaves the regions of others alone
(`Stage.advance_sound`).
-/

namespace JitLang.Engine
open Host
set_option autoImplicit false

variable {C : Crates}

/-- What a call of `place` does next. -/
inductive Stage (C : Crates)
  | map
  | write (region : C.pager.Region)
  | protect (region : C.pager.Region)
  | synchronize (region : C.pager.Region)
  /-- An error leaves the scope of `region`, which is about to be dropped. -/
  | unwind (region : C.pager.Region) (err : C.pager.Error)
  | done (region : C.pager.Region)
  | failed (err : C.pager.Error)

namespace Stage

def region : Stage C → Option C.pager.Region
  | .write region | .protect region | .synchronize region | .unwind region _ | .done region =>
    some region
  | .map | .failed _ => none

/-- The next operation, on behalf of a call that places `code`. -/
def advance (code : List Byte) : Stage C × C.World → Stage C × C.World
  | (.map, w) =>
    match C.pager.withGuardPages code.length w with
    | (.ok region, w) => (.write region, w)
    | (.error err, w) => (.failed err, w)
  | (.write region, w) =>
    match C.pager.write region 0 code w with
    | (.ok (), w) => (.protect region, w)
    | (.error err, w) => (.unwind region err, w)
  | (.protect region, w) =>
    match C.pager.protect region .readExecute w with
    | (.ok (), w) => (.synchronize region, w)
    | (.error err, w) => (.unwind region err, w)
  | (.synchronize region, w) =>
    (.done region, Engine.synchronize C (C.pager.asPtr region) code.length w)
  | (.unwind region err, w) => (.failed err, C.pager.drop region w)
  | (.done region, w) => (.done region, w)
  | (.failed err, w) => (.failed err, w)

/-- The result of a call that is over. -/
def result : Stage C → Option (Except C.Failure C.pager.Region)
  | .done region => some (.ok region)
  | .failed err => some (.error (.error (.ofPagerError err)))
  | _ => none

theorem advance_of_result {code : List Byte} {stage : Stage C} {w : C.World} (h : stage.result ≠ none) :
    advance code (stage, w) = (stage, w) := by
  cases stage with
  | done | failed => rfl
  | map | write | protect | synchronize | unwind => exact absurd rfl h

/-- What an operation can come to. -/
inductive Advances (code : List Byte) : Stage C → C.World → Stage C → C.World → Prop
  | map_ok {region : C.pager.Region} {w w' : C.World} :
      C.pager.withGuardPages code.length w = (.ok region, w') → Advances code .map w (.write region) w'
  | map_error {err : C.pager.Error} {w w' : C.World} :
      C.pager.withGuardPages code.length w = (.error err, w') → Advances code .map w (.failed err) w'
  | write_ok {region : C.pager.Region} {w w' : C.World} :
      C.pager.write region 0 code w = (.ok (), w') →
      Advances code (.write region) w (.protect region) w'
  | write_error {region : C.pager.Region} {err : C.pager.Error} {w w' : C.World} :
      C.pager.write region 0 code w = (.error err, w') →
      Advances code (.write region) w (.unwind region err) w'
  | protect_ok {region : C.pager.Region} {w w' : C.World} :
      C.pager.protect region .readExecute w = (.ok (), w') →
      Advances code (.protect region) w (.synchronize region) w'
  | protect_error {region : C.pager.Region} {err : C.pager.Error} {w w' : C.World} :
      C.pager.protect region .readExecute w = (.error err, w') →
      Advances code (.protect region) w (.unwind region err) w'
  | synchronize (region : C.pager.Region) (w : C.World) :
      Advances code (.synchronize region) w (.done region)
        (Engine.synchronize C (C.pager.asPtr region) code.length w)
  | unwind (region : C.pager.Region) (err : C.pager.Error) (w : C.World) :
      Advances code (.unwind region err) w (.failed err) (C.pager.drop region w)
  | rest {stage : Stage C} (w : C.World) : stage.result ≠ none → Advances code stage w stage w

theorem advance_cases {code : List Byte} {stage stage' : Stage C} {w w' : C.World}
    (h : advance code (stage, w) = (stage', w')) : Advances code stage w stage' w' := by
  cases stage with
  | map =>
    rcases hop : C.pager.withGuardPages code.length w with ⟨err | region, w₁⟩
    · rw [advance, hop] at h
      cases h
      exact .map_error hop
    · rw [advance, hop] at h
      cases h
      exact .map_ok hop
  | write region =>
    rcases hop : C.pager.write region 0 code w with ⟨err | ⟨⟩, w₁⟩
    · rw [advance, hop] at h
      cases h
      exact .write_error hop
    · rw [advance, hop] at h
      cases h
      exact .write_ok hop
  | protect region =>
    rcases hop : C.pager.protect region .readExecute w with ⟨err | ⟨⟩, w₁⟩
    · rw [advance, hop] at h
      cases h
      exact .protect_error hop
    · rw [advance, hop] at h
      cases h
      exact .protect_ok hop
  | synchronize region =>
    cases h
    exact .synchronize region w
  | unwind region err =>
    cases h
    exact .unwind region err w
  | done | failed =>
    cases h
    exact .rest w (by simp [result])

end Stage

/-- Alone on the host, the stages do what `place` does, in at most four operations. -/
theorem place_stages (code : List Byte) (w : C.World) : ∃ n ≤ 4, ∃ stage,
    (Stage.advance code)^[n] (.map, w) = (stage, (place C code w).2) ∧
      stage.result = some (place C code w).1 := by
  simp only [place, bind, Action.call, Action.owning, Action.effect, pure]
  rcases hmap : C.pager.withGuardPages code.length w with ⟨err | region, w₁⟩
  · have h₁ : Stage.advance code (.map, w) = (.failed err, w₁) := by rw [Stage.advance, hmap]
    exact ⟨1, by omega, .failed err, h₁, rfl⟩
  have h₁ : Stage.advance code (.map, w) = (.write region, w₁) := by rw [Stage.advance, hmap]
  rcases hwrite : C.pager.write region 0 code w₁ with ⟨err | ⟨⟩, w₂⟩
  · have h₂ : Stage.advance code (.write region, w₁) = (.unwind region err, w₂) := by
      rw [Stage.advance, hwrite]
    refine ⟨3, by omega, .failed err, ?_, ?_⟩
    · rw [Function.iterate_succ_apply, h₁, Function.iterate_succ_apply, h₂]
      simp only [Function.iterate_one, Stage.advance, hwrite]
    · simp only [hwrite, Stage.result]
  have h₂ : Stage.advance code (.write region, w₁) = (.protect region, w₂) := by
    rw [Stage.advance, hwrite]
  rcases hprotect : C.pager.protect region .readExecute w₂ with ⟨err | ⟨⟩, w₃⟩
  · have h₃ : Stage.advance code (.protect region, w₂) = (.unwind region err, w₃) := by
      rw [Stage.advance, hprotect]
    refine ⟨4, le_rfl, .failed err, ?_, ?_⟩
    · rw [Function.iterate_succ_apply, h₁, Function.iterate_succ_apply, h₂,
        Function.iterate_succ_apply, h₃]
      simp only [Function.iterate_one, Stage.advance, hwrite, hprotect]
    · simp only [hwrite, hprotect, Stage.result]
  have h₃ : Stage.advance code (.protect region, w₂) = (.synchronize region, w₃) := by
    rw [Stage.advance, hprotect]
  refine ⟨4, le_rfl, .done region, ?_, ?_⟩
  · rw [Function.iterate_succ_apply, h₁, Function.iterate_succ_apply, h₂,
      Function.iterate_succ_apply, h₃]
    simp only [Function.iterate_one, Stage.advance, hwrite, hprotect]
  · simp only [hwrite, hprotect, Stage.result]

/-! ## What is known at each stage -/

section Documented
variable {L : Layout C.pager.Region} {view : C.World → Space C.pager.Region}

/-- The region is mapped, large enough for `code` and filled as far as the stage says; it was made for the
code, and ends below the end of the address space. An error is one that the pager has answered. -/
def Stage.Sound (L : Layout C.pager.Region) (view : C.World → Space C.pager.Region) (code : List Byte)
    (s : Space C.pager.Region) : Stage C → Prop
  | .map => True
  | .write region => C.pager.Made code.length region ∧ region ∈ s.mapped ∧
      s.protection region = .readWrite ∧ code.length ≤ L.size region ∧
      L.base region + L.size region < 2 ^ 64
  | .protect region => C.pager.Made code.length region ∧ Loaded L region .readWrite code s ∧
      L.base region + L.size region < 2 ^ 64
  | .synchronize region => C.pager.Made code.length region ∧ Loaded L region .readExecute code s ∧
      L.base region + L.size region < 2 ^ 64
  | .unwind region err => C.pager.Denies L view code err ∧ region ∈ s.mapped ∧
      s.protection region = .readWrite
  | .done region => C.pager.Made code.length region ∧ Sealed L region code s
  | .failed err => C.pager.Denies L view code err

theorem Stage.Sound.mapped {code : List Byte} {s : Space C.pager.Region} {stage : Stage C}
    (h : stage.Sound L view code s) : ∀ r, stage.region = some r → r ∈ s.mapped := by
  intro r hr
  cases stage with
  | map | failed => cases hr
  | write region | unwind region =>
    cases hr
    exact h.2.1
  | protect region | synchronize region =>
    cases hr
    exact h.2.1.mapped
  | done region =>
    cases hr
    exact h.2.mapped

/-- Of the space it speaks of the region alone. -/
theorem Stage.Sound.untouched {code : List Byte} {s s' : Space C.pager.Region} {stage : Stage C}
    (hs : stage.Sound L view code s) (h : ∀ r, stage.region = some r → Untouched L r s s') :
    stage.Sound L view code s' := by
  cases stage with
  | map => trivial
  | failed => exact hs
  | write region =>
    obtain ⟨hmade, hmapped, hprotection, hfits⟩ := hs
    have h := h region rfl
    exact ⟨hmade, h.mapped.mpr hmapped, h.protection.trans hprotection, hfits⟩
  | protect region | synchronize region =>
    obtain ⟨hmade, hloaded, hend⟩ := hs
    exact ⟨hmade, (h region rfl).loaded hloaded, hend⟩
  | unwind region =>
    obtain ⟨hdenies, hmapped, hprotection⟩ := hs
    have h := h region rfl
    exact ⟨hdenies, h.mapped.mpr hmapped, h.protection.trans hprotection⟩
  | done region => exact ⟨hs.1, (h region rfl).sealed hs.2⟩

/-- After `synchronize` on a loaded region fetch sees the code, on every host. Where the primitive takes
the end of the range, the guard page behind the region keeps `start.wrapping_add(len)` from wrapping. -/
theorem synchronize_sealed (hdoc : C.Documented L view) {code : List Byte} {w : C.World}
    {region : C.pager.Region} (hloaded : Loaded L region .readExecute code (view w))
    (hend : L.base region + L.size region < 2 ^ 64) :
    Sealed L region code (view (synchronize C (C.pager.asPtr region) code.length w)) ∧
      Quiet (view w) (view (synchronize C (C.pager.asPtr region) code.length w)) := by
  have hbase : C.pager.asPtr region = L.base region := (hdoc.pager.base region).symm
  have hfits := hloaded.fits
  have hexec : Executable L (view w) (L.base region) code.length :=
    ⟨region, hloaded.mapped, hloaded.protection, le_rfl, by omega⟩
  have hwrap : wrappingAdd (L.base region) code.length = L.base region + code.length :=
    Nat.mod_eq_of_lt (by omega)
  -- An invalidation of exactly the range of the code does all that is asked.
  have hinvalidated : ∀ w', Invalidates (L.base region) (L.base region + code.length) (view w) (view w') →
      Sealed L region code (view w') ∧ Quiet (view w) (view w') := fun w' h =>
    ⟨h.sealed hloaded le_rfl le_rfl, h.toQuiet⟩
  have hunified : C.target.arch ≠ .aarch64 → Sealed L region code (view w) ∧ Quiet (view w) (view w) :=
    fun harch => ⟨⟨hloaded, fun a _ _ => hdoc.caches.unified harch w a⟩, .refl _⟩
  rw [hbase, synchronize, sync]
  cases harch : C.target.arch with
  | x86 => exact hunified (by simp [harch])
  | x86_64 => exact hunified (by simp [harch])
  | aarch64 =>
    cases C.target.os with
    | macos => exact hinvalidated _ (hdoc.caches.sysIcacheInvalidate hexec)
    | windows => exact hinvalidated _ (hdoc.caches.flushInstructionCache hexec)
    | other =>
      simp only [hwrap]
      exact hinvalidated _ (hdoc.caches.clearCache hexec)

/-- One operation keeps what is known of the region, and nobody else notices. -/
theorem Stage.advance_sound (hdoc : C.Documented L view) {code : List Byte} {stage stage' : Stage C}
    {w w' : C.World} (hsep : Separate L (view w)) (hs : stage.Sound L view code (view w))
    (h : Stage.advance code (stage, w) = (stage', w')) :
    stage'.Sound L view code (view w') ∧ Exchange L stage.region stage'.region (view w) (view w') := by
  cases Stage.advance_cases h with
  | map_ok hop =>
    obtain ⟨hmaps, hsize, hend⟩ := hdoc.pager.map_ok hop
    exact ⟨⟨⟨_, _, hop⟩, hmaps.mapped_self, hmaps.protection_self, hsize, hend⟩, hmaps.exchange hsep⟩
  | map_error hop => exact ⟨.map hop, (hdoc.pager.map_error hop).exchange hsep (by simp [region])⟩
  | write_ok hop =>
    obtain ⟨hmade, hmapped, hprotection, hsize, hend⟩ := hs
    have hwrites := hdoc.pager.write_ok hmapped hop
    have hloaded := hwrites.loaded hmapped hsize
    rw [hprotection] at hloaded
    exact ⟨⟨hmade, hloaded, hend⟩, hwrites.exchange hsep hmapped⟩
  | write_error hop =>
    -- The code fits, and the region is for writing.
    obtain ⟨-, hmapped, hprotection, hsize, -⟩ := hs
    obtain ⟨w', hwrite⟩ := hdoc.pager.write_inBounds hmapped hprotection (by rwa [Nat.zero_add])
    rw [hop] at hwrite
    cases hwrite
  | protect_ok hop =>
    obtain ⟨hmade, hloaded, hend⟩ := hs
    have hprotects := hdoc.pager.protect_ok hloaded.mapped hop
    exact ⟨⟨hmade, hprotects.loaded hloaded, hend⟩, hprotects.exchange hsep hloaded.mapped⟩
  | protect_error hop =>
    obtain ⟨hmade, hloaded, -⟩ := hs
    have hquiet := hdoc.pager.protect_error hloaded.mapped hop
    refine ⟨⟨.protect hmade hloaded hop, ?_, ?_⟩,
      hquiet.exchange hsep (by rintro r ⟨⟩; exact hloaded.mapped)⟩
    · rw [hquiet.mapped]
      exact hloaded.mapped
    · rw [hquiet.protection]
      exact hloaded.protection
  | synchronize region =>
    obtain ⟨hmade, hloaded, hend⟩ := hs
    obtain ⟨hsealed, hquiet⟩ := synchronize_sealed hdoc hloaded hend
    exact ⟨⟨hmade, hsealed⟩, hquiet.exchange hsep (by rintro r ⟨⟩; exact hloaded.mapped)⟩
  | unwind region err =>
    obtain ⟨hdenies, hmapped, -⟩ := hs
    exact ⟨hdenies, (hdoc.pager.drop hmapped).exchange hsep hmapped⟩
  | rest => exact ⟨hs, exchange_of_untouched (fun r _ => .refl L r _) rfl hsep hs.mapped⟩

/-- So do any number of operations. -/
theorem Stage.iterate_sound (hdoc : C.Documented L view) {code : List Byte} {stage stage' : Stage C}
    {w w' : C.World} (hsep : Separate L (view w)) (hs : stage.Sound L view code (view w)) {n : ℕ}
    (h : (Stage.advance code)^[n] (stage, w) = (stage', w')) :
    stage'.Sound L view code (view w') ∧ Exchange L stage.region stage'.region (view w) (view w') := by
  induction n generalizing stage w with
  | zero =>
    cases h
    exact ⟨hs, exchange_of_untouched (fun r _ => .refl L r _) rfl hsep hs.mapped⟩
  | succ n ih =>
    rw [Function.iterate_succ_apply] at h
    rcases hstep : Stage.advance code (stage, w) with ⟨stage₁, w₁⟩
    rw [hstep] at h
    obtain ⟨hs₁, hx₁⟩ := Stage.advance_sound hdoc hsep hs hstep
    obtain ⟨hs', hx'⟩ := ih hx₁.separate hs₁ h
    exact ⟨hs', hx₁.trans hx'⟩

end Documented
end JitLang.Engine
