import JitLang.Engine.Outcome
import JitLang.Engine.Process

/-! # What holds in every process

However compiles, calls, drops and the environment interleave: a live handle's region holds the code of its
function, sealed, and fetch sees it (`live_code`); every mapped region has one owner, none overlaps
another, and none can be written and executed (`regions_accounted`); once nothing is being placed, what is
mapped is what the live handles hold (`mapped_eq_live`). A handle stays as it is until it is dropped, and
is gone from then on (`live_run`).
-/

namespace JitLang.Engine
open Foundations Host Translate
open Ir.Eval (RVal)
set_option autoImplicit false

variable {C : Crates} {L : Layout C.pager.Region} {view : C.World → Space C.pager.Region} {cpu : Cpu}

/-- What a call has is for writing, or for execution. -/
theorem Stage.Sound.protection {code : List Byte} {s : Space C.pager.Region} {stage : Stage C}
    (hs : stage.Sound L view code s) {r : C.pager.Region} (hr : stage.region = some r) :
    s.protection r = .readWrite ∨ s.protection r = .readExecute := by
  cases stage with
  | map | failed => cases hr
  | write region =>
    cases hr
    exact .inl hs.2.2.1
  | protect region =>
    cases hr
    exact .inl hs.2.1.protection
  | synchronize region =>
    cases hr
    exact .inr hs.2.1.protection
  | unwind region =>
    cases hr
    exact .inl hs.2.2
  | done region =>
    cases hr
    exact .inr hs.2.protection

theorem Call.Sound.protection {s : Space C.pager.Region} {call : Call C} (hs : call.Sound L view s)
    {r : C.pager.Region} (hr : call.region = some r) :
    s.protection r = .readWrite ∨ s.protection r = .readExecute := by
  cases call with
  | started | finished => cases hr
  | placing jit func code stage => exact hs.2.protection hr
  | live jit func compiled =>
    obtain ⟨code, -, -, hsealed, -⟩ := hs
    cases hr
    exact .inr hsealed.protection

namespace Process
variable {p p' : Process C} {i : ℕ} {jit : Jit C} {func : NamedFunction} {compiled : Compiled C}

/-! ## An uninterrupted compile is a run -/

section Compile
variable {w w' : C.World}

theorem update_last (calls : List (Call C)) (running : List (Option (Running C))) (call call' : Call C) :
    (⟨w, calls ++ [call], running⟩ : Process C).update calls.length call' w' =
      ⟨w', calls ++ [call'], running⟩ := by
  simp [update]

theorem last_getElem? (calls : List (Call C)) (running : List (Option (Running C))) (call : Call C) :
    (⟨w, calls ++ [call], running⟩ : Process C).calls[calls.length]? = some call := by
  simp

/-- The operations of one `place`, with nothing in between. -/
theorem advance_run {code : List Byte} {stage stage' : Stage C} {n : ℕ} (calls : List (Call C))
    (running : List (Option (Running C))) (h : (Stage.advance code)^[n] (stage, w) = (stage', w')) :
    (process L view cpu).Run ⟨w, calls ++ [.placing jit func code stage], running⟩ []
      ⟨w', calls ++ [.placing jit func code stage'], running⟩ := by
  induction n generalizing stage w with
  | zero =>
    cases h
    exact .refl _
  | succ n ih =>
    rw [Function.iterate_succ_apply] at h
    rcases hstep : Stage.advance code (stage, w) with ⟨stage₁, w₁⟩
    rw [hstep] at h
    by_cases hresult : stage.result = none
    swap
    · -- The call is over, and the remaining operations are none.
      rw [Stage.advance_of_result hresult] at hstep
      cases hstep
      exact ih h
    have hfirst : Step L view cpu ⟨w, calls ++ [.placing jit func code stage], running⟩ none _ :=
      .advance (last_getElem? calls running _) hresult hstep
    rw [update_last] at hfirst
    exact System.Run.trans (.silent (.refl _) hfirst) (ih h)

theorem start_run (p : Process C) (jit : Jit C) (func : NamedFunction) :
    (process L view cpu).Run p [] ⟨p.world, p.calls ++ [.started jit func], p.running⟩ :=
  .silent (.refl _) (Step.start jit func)

theorem generate_run {code : List Byte} (hcode : jit.generate func = .ok code) (p : Process C) :
    (process L view cpu).Run ⟨p.world, p.calls ++ [.started jit func], p.running⟩ []
      ⟨p.world, p.calls ++ [.placing jit func code .map], p.running⟩ := by
  have hgenerate : Step L view cpu ⟨p.world, p.calls ++ [.started jit func], p.running⟩ none _ :=
    .generate (last_getElem? p.calls p.running _) hcode
  rw [update_last] at hgenerate
  exact .silent (.refl _) hgenerate

theorem place_run {code : List Byte} {stage : Stage C} {n : ℕ} (hcode : jit.generate func = .ok code)
    (hstages : (Stage.advance code)^[n] (.map, p.world) = (stage, w')) :
    (process L view cpu).Run ⟨p.world, p.calls ++ [.started jit func], p.running⟩ []
      ⟨w', p.calls ++ [.placing jit func code stage], p.running⟩ :=
  (generate_run hcode p).trans (advance_run p.calls p.running hstages)

theorem started_run_ok (h : jit.compile func p.world = (.ok compiled, w')) :
    (process L view cpu).Run ⟨p.world, p.calls ++ [.started jit func], p.running⟩
      [.returned p.calls.length jit func] ⟨w', p.calls ++ [.live jit func compiled], p.running⟩ := by
  cases hcode : jit.generate func with
  | error err =>
    rw [Jit.compile_of_error hcode] at h
    cases h
  | ok code =>
    obtain ⟨n, -, stage, hstages, hres⟩ := place_stages (C := C) code p.world
    rw [Jit.compile_of_ok hcode] at h
    rcases hplace : place C code p.world with ⟨err | region, w₁⟩
    · rw [hplace] at h
      cases h
    · rw [hplace] at h hstages hres
      cases h
      cases stage with
      | done region' =>
        cases hres
        have hdeliver : Step L view cpu
            ⟨w', p.calls ++ [.placing jit func code (.done region)], p.running⟩ _ _ :=
          .deliver (last_getElem? p.calls p.running _)
        rw [update_last] at hdeliver
        exact .visible (place_run hcode hstages) hdeliver
      | map | write | protect | synchronize | unwind | failed => cases hres

theorem started_run_error {err : C.Failure} (h : jit.compile func p.world = (.error err, w')) :
    (process L view cpu).Run ⟨p.world, p.calls ++ [.started jit func], p.running⟩
      [.refused p.calls.length jit func err] ⟨w', p.calls ++ [.finished], p.running⟩ := by
  cases hcode : jit.generate func with
  | error err' =>
    rw [Jit.compile_of_error hcode] at h
    cases h
    have hreject : Step L view cpu ⟨p.world, p.calls ++ [.started jit func], p.running⟩ _ _ :=
      .reject (last_getElem? p.calls p.running _) hcode
    rw [update_last] at hreject
    exact .visible (.refl _) hreject
  | ok code =>
    obtain ⟨n, -, stage, hstages, hres⟩ := place_stages (C := C) code p.world
    rw [Jit.compile_of_ok hcode] at h
    rcases hplace : place C code p.world with ⟨err' | region, w₁⟩
    · rw [hplace] at h hstages hres
      cases h
      cases stage with
      | failed err' =>
        cases hres
        have hfail : Step L view cpu
            ⟨w', p.calls ++ [.placing jit func code (.failed err')], p.running⟩ _ _ :=
          .fail (last_getElem? p.calls p.running _)
        rw [update_last] at hfail
        exact .visible (place_run hcode hstages) hfail
      | map | write | protect | synchronize | unwind | done => cases hres
    · rw [hplace] at h
      cases h

theorem compile_run_ok (h : jit.compile func p.world = (.ok compiled, w')) :
    (process L view cpu).Run p [.returned p.calls.length jit func]
      ⟨w', p.calls ++ [.live jit func compiled], p.running⟩ :=
  (start_run p jit func).trans (started_run_ok h)

theorem compile_run_error {err : C.Failure} (h : jit.compile func p.world = (.error err, w')) :
    (process L view cpu).Run p [.refused p.calls.length jit func err]
      ⟨w', p.calls ++ [.finished], p.running⟩ :=
  (start_run p jit func).trans (started_run_error h)

end Compile

noncomputable abbrev reference : System (Process Reference.crates) (Event Reference.crates) :=
  process Reference.layout Reference.view Reference.cpu

noncomputable def identityHandle : Compiled Reference.crates :=
  ⟨(⟨4096, 4096⟩ : Reference.Span), "f", [.int], .int, 4⟩

/-- The identity, compiled on a host that holds stale bytes everywhere. -/
theorem identity_run : ∃ start w, reference.init start ∧
    reference.Run start [.returned 0 Reference.jit Reference.identity]
      ⟨w, [.live Reference.jit Reference.identity identityHandle], []⟩ := by
  obtain ⟨m, hcompile, -⟩ := identity_compiled
  let start : Process Reference.crates := ⟨Reference.Memory.stale, [], []⟩
  have hrun : reference.Run start [.returned 0 Reference.jit Reference.identity] _ :=
    compile_run_ok hcompile
  exact ⟨start, _, ⟨rfl, rfl, by ext r; exact List.mem_nil_iff r⟩, hrun⟩

theorem identity_reachable : ∃ w, reference.Reachable
    ⟨w, [.live Reference.jit Reference.identity identityHandle], []⟩ := by
  obtain ⟨start, w, hinit, hrun⟩ := identity_run
  exact ⟨w, start, _, hinit, hrun⟩

/-! ## Live handles -/

/-- A live handle reports its function, and its entry is where fetch sees the code of that function, in a
region that is for execution and not for writing. -/
theorem live_code (hdoc : C.Documented L view) (h : (process L view cpu).Reachable p)
    (hi : p.calls[i]? = some (.live jit func compiled)) :
    compiled.name = func.name ∧ compiled.params = func.params ∧ compiled.ret = func.ret ∧
      (view p.world).protection compiled.region = .readExecute ∧
      ∃ code, jit.generate func = .ok code ∧ compiled.codeLen = code.length ∧
        code.length ≤ L.size compiled.region ∧
        ∀ k b, code[k]? = some b → (view p.world).fetch (compiled.entry + k) = b :=
  (Inv.of_reachable hdoc h).live hdoc hi

theorem identity_live : ∃ p, reference.Reachable p ∧
    ∀ k b, Reference.ret[k]? = some b → (Reference.view p.world).fetch (4096 + k) = b := by
  obtain ⟨w, h⟩ := identity_reachable
  obtain ⟨-, -, -, -, code, hcode, -, -, hfetch⟩ :=
    live_code (i := 0) Reference.crates_documented h rfl
  rw [Reference.identity_generates] at hcode
  cases hcode
  exact ⟨_, h, hfetch⟩

/-- A step leaves a live handle as it is, or drops it. -/
theorem live_step (hi : p.calls[i]? = some (.live jit func compiled)) {label : Option (Event C)}
    (hstep : Step L view cpu p label p') :
    p'.calls[i]? = some (.live jit func compiled) ∨ label = some (.dropped i) := by
  -- Another call is updated: this one was not in the state that the step starts from.
  have hother : ∀ {j : ℕ} {call call' : Call C} {w : C.World}, p.calls[j]? = some call →
      call ≠ .live jit func compiled →
      (p.update j call' w).calls[i]? = some (.live jit func compiled) := by
    intro j call call' w hj hne
    have hij : i ≠ j := by
      rintro rfl
      rw [hi] at hj
      exact hne (Option.some.inj hj).symm
    rw [update_getElem? hj, if_neg hij, hi]
  cases hstep with
  | start jit' func' =>
    exact .inl ((List.getElem?_append_left (List.getElem?_eq_some_iff.mp hi).1).trans hi)
  | generate hj | reject hj | advance hj | deliver hj | fail hj => exact .inl (hother hj (by simp))
  | enter | fetch | leave | environment => exact .inl hi
  | @drop j _ _ _ hj =>
    by_cases hij : i = j
    · exact .inr (by rw [hij])
    · exact .inl (by rw [update_getElem? hj, if_neg hij, hi])

/-- Until it is dropped a handle stays as it is, and so does what fetch sees of its code. -/
theorem live_run (hdoc : C.Documented L view) (h : (process L view cpu).Reachable p)
    {labels : List (Event C)} (hrun : (process L view cpu).Run p labels p')
    (hi : p.calls[i]? = some (.live jit func compiled)) (hkept : Event.dropped i ∉ labels) :
    p'.calls[i]? = some (.live jit func compiled) ∧ ∀ k < compiled.codeLen,
      (view p'.world).fetch (compiled.entry + k) = (view p.world).fetch (compiled.entry + k) := by
  have hlive : p'.calls[i]? = some (.live jit func compiled) := by
    induction hrun with
    | refl => exact hi
    | silent _ hstep ih =>
      rcases live_step (ih hkept) hstep with hlive | hdropped
      · exact hlive
      · cases hdropped
    | visible _ hstep ih =>
      rcases live_step (ih fun hmem => hkept (List.mem_append_left _ hmem)) hstep with hlive | hdropped
      · exact hlive
      · cases hdropped
        exact absurd (List.mem_append_right _ (List.mem_singleton_self _)) hkept
  refine ⟨hlive, fun k hk => ?_⟩
  obtain ⟨-, -, -, -, code, hcode, hlen, -, hfetch⟩ := (Inv.of_reachable hdoc h).live hdoc hi
  obtain ⟨-, -, -, -, code', hcode', -, -, hfetch'⟩ :=
    (Inv.of_reachable hdoc (h.run hrun)).live hdoc hlive
  have hsame : code' = code := Except.ok.inj (hcode'.symm.trans hcode)
  subst hsame
  have hb := List.getElem?_eq_getElem (hlen ▸ hk)
  rw [hfetch' k _ hb, hfetch k _ hb]

/-- The identity is compiled again, whatever comes of it. -/
theorem identity_again (p : Process Reference.crates) : ∃ p' labels, reference.Run p labels p' ∧
    labels ≠ [] ∧ (∀ i, .dropped i ∉ labels) ∧ p'.running = p.running := by
  rcases hagain : Reference.jit.compile Reference.identity p.world with ⟨err | compiled, w⟩
  · exact ⟨_, _, compile_run_error hagain, by simp, by simp, rfl⟩
  · exact ⟨_, _, compile_run_ok hagain, by simp, by simp, rfl⟩

theorem identity_kept : ∃ p p' labels, reference.Reachable p ∧ reference.Run p labels p' ∧ labels ≠ [] ∧
    ∀ k < 4, (Reference.view p'.world).fetch (4096 + k) = (Reference.view p.world).fetch (4096 + k) := by
  obtain ⟨w, h⟩ := identity_reachable
  obtain ⟨p', labels, hrun, hlabels, hkept, -⟩ := identity_again _
  exact ⟨_, p', labels, h, hrun, hlabels,
    (live_run (i := 0) Reference.crates_documented h hrun rfl (hkept 0)).2⟩

/-! ## The regions -/

/-- No region is for writing and for execution, every region has one owner, and none overlaps another. -/
theorem regions_accounted (hdoc : C.Documented L view) (h : (process L view cpu).Reachable p) :
    (∀ r ∈ (view p.world).mapped, (∃! i, p.owner i = some r) ∧
        ¬ (((view p.world).protection r).write ∧ ((view p.world).protection r).execute)) ∧
      Separate L (view p.world) := by
  have hinv := Inv.of_reachable hdoc h
  refine ⟨fun r hr => ?_, hinv.owned.separate⟩
  obtain ⟨i, howner⟩ := (hinv.owned.mapped r).mp hr
  refine ⟨⟨i, howner, fun j hj => hinv.owned.unique j i r hj howner⟩, ?_⟩
  obtain ⟨call, hi, hregion⟩ := Option.bind_eq_some_iff.mp howner
  rcases (hinv.sound i call hi).protection hregion with hprotection | hprotection
  · simp [hprotection, Protection.readWrite]
  · simp [hprotection, Protection.readExecute]

/-- The identity is compiled, and compiled again as far as to the region of the second compile. -/
theorem identity_placing : ∃ w, reference.Reachable
    ⟨w, [.live Reference.jit Reference.identity identityHandle,
      .placing Reference.jit Reference.identity Reference.ret
        (.write (⟨16384, 4096⟩ : Reference.Span))], []⟩ := by
  obtain ⟨m, hcompile, hnext⟩ := identity_compiled
  obtain ⟨m', hmap⟩ := Reference.second_mapped hnext
  let start : Process Reference.crates := ⟨Reference.Memory.stale, [], []⟩
  have hfirst : reference.Run start _ _ := compile_run_ok hcompile
  let p : Process Reference.crates := ⟨m, [.live Reference.jit Reference.identity identityHandle], []⟩
  have hstages : (Stage.advance Reference.ret)^[1] ((.map : Stage Reference.crates), p.world) =
      (.write (⟨16384, 4096⟩ : Reference.Span), m') := by
    have hmap : Reference.crates.pager.withGuardPages Reference.ret.length m =
        (.ok (⟨16384, 4096⟩ : Reference.Span), m') := hmap
    rw [Function.iterate_one, Stage.advance, hmap]
    rfl
  have hsecond : reference.Run p _ _ :=
    (start_run p Reference.jit Reference.identity).trans
      (place_run Reference.identity_generates hstages)
  exact ⟨m', start, _, ⟨rfl, rfl, by ext r; exact List.mem_nil_iff r⟩, hfirst.trans hsecond⟩

theorem identity_accounted : ∃ p, reference.Reachable p ∧
    p.owner 0 = some (⟨4096, 4096⟩ : Reference.Span) ∧
    p.owner 1 = some (⟨16384, 4096⟩ : Reference.Span) ∧
    (∀ r ∈ (Reference.view p.world).mapped, (∃! i, p.owner i = some r) ∧
      ¬ (((Reference.view p.world).protection r).write ∧
        ((Reference.view p.world).protection r).execute)) ∧
    Separate Reference.layout (Reference.view p.world) := by
  obtain ⟨w, h⟩ := identity_placing
  exact ⟨_, h, rfl, rfl, regions_accounted Reference.crates_documented h⟩

/-- While no call is placing code, what is mapped is what the live handles have: nothing is left behind by
the calls that failed and the handles that were dropped. -/
theorem mapped_eq_live (hdoc : C.Documented L view) (h : (process L view cpu).Reachable p)
    (hidle : ∀ call ∈ p.calls, ∀ jit func code stage, call ≠ .placing jit func code stage) :
    (view p.world).mapped =
      {r | ∃ jit func compiled, .live jit func compiled ∈ p.calls ∧ compiled.region = r} := by
  ext r
  rw [(Inv.of_reachable hdoc h).owned.mapped]
  constructor
  · rintro ⟨i, howner⟩
    obtain ⟨call, hi, hregion⟩ := Option.bind_eq_some_iff.mp howner
    have hmem := List.mem_of_getElem? hi
    cases call with
    | started | finished => cases hregion
    | placing jit func code stage => exact absurd rfl (hidle _ hmem jit func code stage)
    | live jit func compiled => exact ⟨jit, func, compiled, hmem, Option.some.inj hregion⟩
  · rintro ⟨jit, func, compiled, hmem, rfl⟩
    obtain ⟨i, hi⟩ := List.mem_iff_getElem?.mp hmem
    exact ⟨i, owner_of_getElem? hi⟩

theorem identity_mapped : ∃ p, reference.Reachable p ∧
    (Reference.view p.world).mapped = {⟨4096, 4096⟩} := by
  obtain ⟨w, h⟩ := identity_reachable
  refine ⟨_, h, (mapped_eq_live Reference.crates_documented h (by simp)).trans ?_⟩
  ext r
  constructor
  · rintro ⟨jit, func, compiled, hmem, rfl⟩
    cases List.mem_singleton.mp hmem
    rfl
  · rintro rfl
    exact ⟨Reference.jit, Reference.identity, identityHandle, List.mem_singleton_self _, rfl⟩

end Process
end JitLang.Engine
