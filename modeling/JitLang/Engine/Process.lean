import JitLang.Engine.Abi
import JitLang.Engine.Stages
import JitLang.Foundations.Systems

/-! # A process that compiles, calls and drops

Any number of calls of `Jit::compile`, on any engines and from any threads, with everything that comes in
between: each call makes one operation on the host at a time (`Stage.advance`), the handles it returns are
called and dropped, and the environment does what it likes as long as it keeps off the mapped regions;
bytes may be cached for instruction fetch at any time. Native calls take their time, too: a call is
entered, fetches now and then what memory shows, and is left, and meanwhile everything else goes on.

The invariant accounts for the regions and says what each call knows of its own; it holds of every
reachable process (`Process.Inv.of_reachable`).
-/

namespace JitLang.Engine
open Foundations Host Translate
open Ir.Eval (RVal)
set_option autoImplicit false

/-- One call of `Jit::compile`, from its start to the drop of what it returned. -/
inductive Call (C : Crates)
  | started (jit : Jit C) (func : NamedFunction)
  | placing (jit : Jit C) (func : NamedFunction) (code : List Byte) (stage : Stage C)
  | live (jit : Jit C) (func : NamedFunction) (compiled : Compiled C)
  | finished

/-- What can be seen of a process. A call is named by its number. -/
inductive Event (C : Crates)
  | returned (i : ℕ) (jit : Jit C) (func : NamedFunction)
  | refused (i : ℕ) (jit : Jit C) (func : NamedFunction) (err : C.Failure)
  | called (i : ℕ) (args : List RVal) (result : Option RVal)
  | dropped (i : ℕ)

variable {C : Crates}

def Call.region : Call C → Option C.pager.Region
  | .placing _ _ _ stage => stage.region
  | .live _ _ compiled => some compiled.region
  | .started _ _ | .finished => none

/-- A native call in progress: through which handle, with which arguments, and what instruction fetch has
shown of memory since it was entered. -/
structure Running (C : Crates) where
  handle : ℕ
  compiled : Compiled C
  args : List RVal
  seen : List (ℕ → Byte)

/-- A native call that has come back leaves `none`. -/
structure Process (C : Crates) where
  world : C.World
  calls : List (Call C)
  running : List (Option (Running C))

namespace Process

def owner (p : Process C) (i : ℕ) : Option C.pager.Region := (p.calls[i]?).bind Call.region

def update (p : Process C) (i : ℕ) (call : Call C) (w : C.World) : Process C :=
  { p with world := w, calls := p.calls.set i call }

end Process

section System
variable (L : Layout C.pager.Region) (view : C.World → Space C.pager.Region) (cpu : Cpu)

inductive Process.Step : Process C → Option (Event C) → Process C → Prop
  | start {p : Process C} (jit : Jit C) (func : NamedFunction) :
      Step p none { p with calls := p.calls ++ [.started jit func] }
  | generate {p : Process C} {i : ℕ} {jit : Jit C} {func : NamedFunction} {code : List Byte} :
      p.calls[i]? = some (.started jit func) → jit.generate func = .ok code →
      Step p none (p.update i (.placing jit func code .map) p.world)
  | reject {p : Process C} {i : ℕ} {jit : Jit C} {func : NamedFunction} {err : C.Failure} :
      p.calls[i]? = some (.started jit func) → jit.generate func = .error err →
      Step p (some (.refused i jit func err)) (p.update i .finished p.world)
  | advance {p : Process C} {i : ℕ} {jit : Jit C} {func : NamedFunction} {code : List Byte}
      {stage stage' : Stage C} {w : C.World} :
      p.calls[i]? = some (.placing jit func code stage) → stage.result = none →
      Stage.advance code (stage, p.world) = (stage', w) →
      Step p none (p.update i (.placing jit func code stage') w)
  | deliver {p : Process C} {i : ℕ} {jit : Jit C} {func : NamedFunction} {code : List Byte}
      {region : C.pager.Region} :
      p.calls[i]? = some (.placing jit func code (.done region)) →
      Step p (some (.returned i jit func)) (p.update i
        (.live jit func ⟨region, func.name, func.params, func.ret, code.length⟩) p.world)
  | fail {p : Process C} {i : ℕ} {jit : Jit C} {func : NamedFunction} {code : List Byte}
      {err : C.pager.Error} :
      p.calls[i]? = some (.placing jit func code (.failed err)) →
      Step p (some (.refused i jit func (.error (.ofPagerError err)))) (p.update i .finished p.world)
  /-- A caller keeps the contract of `entry`: the handle is alive, and the arguments are of the types it
  reports. -/
  | enter {p : Process C} {i : ℕ} {jit : Jit C} {func : NamedFunction} {compiled : Compiled C}
      {args : List RVal} :
      p.calls[i]? = some (.live jit func compiled) → args.map typeOf = compiled.params →
      Step p none
        { p with running := p.running ++ [some ⟨i, compiled, args, [(view p.world).fetch]⟩] }
  | fetch {p : Process C} {j : ℕ} {r : Running C} :
      p.running[j]? = some (some r) →
      Step p none
        { p with running := p.running.set j (some { r with seen := (view p.world).fetch :: r.seen }) }
  | leave {p : Process C} {j : ℕ} {r : Running C} {fetch : ℕ → ℕ → Byte} {out : List (BitVec 64)} :
      p.running[j]? = some (some r) → (∀ t, fetch t ∈ r.seen) →
      cpu.Returns fetch r.compiled.entry (r.args.flatMap words) out →
      Step p (some (.called r.handle r.args (readResult r.compiled.ret out)))
        { p with running := p.running.set j none }
  /-- The handle has outlived every call. -/
  | drop {p : Process C} {i : ℕ} {jit : Jit C} {func : NamedFunction} {compiled : Compiled C} :
      p.calls[i]? = some (.live jit func compiled) → (∀ r, some r ∈ p.running → r.handle ≠ i) →
      Step p (some (.dropped i)) (p.update i .finished (compiled.drop p.world))
  | environment {p : Process C} {w : C.World} :
      (∀ r ∈ (view p.world).mapped, Untouched L r (view p.world) (view w)) →
      (view w).mapped = (view p.world).mapped → Step p none { p with world := w }

/-- At the start nothing has been compiled and no region is mapped. -/
def process : System (Process C) (Event C) where
  init p := p.calls = [] ∧ p.running = [] ∧ (view p.world).mapped = ∅
  step := Process.Step L view cpu

end System

/-! ## The invariant -/

section Invariant
variable {L : Layout C.pager.Region} {view : C.World → Space C.pager.Region} {cpu : Cpu}

def Call.Sound (L : Layout C.pager.Region) (view : C.World → Space C.pager.Region)
    (s : Space C.pager.Region) : Call C → Prop
  | .started _ _ | .finished => True
  | .placing jit func code stage => jit.generate func = .ok code ∧ stage.Sound L view code s
  | .live jit func compiled => ∃ code, jit.generate func = .ok code ∧
      C.pager.Made code.length compiled.region ∧ Sealed L compiled.region code s ∧
      compiled = ⟨compiled.region, func.name, func.params, func.ret, code.length⟩

theorem Call.Sound.untouched {s s' : Space C.pager.Region} {call : Call C} (hs : call.Sound L view s)
    (h : ∀ r, call.region = some r → Untouched L r s s') : call.Sound L view s' := by
  cases call with
  | started | finished => trivial
  | placing jit func code stage => exact ⟨hs.1, hs.2.untouched h⟩
  | live jit func compiled =>
    obtain ⟨code, hcode, hmade, hsealed, hfields⟩ := hs
    exact ⟨code, hcode, hmade, (h _ rfl).sealed hsealed, hfields⟩

/-- A call in progress goes through a live handle, and all that fetch has shown has the handle's code in
place. -/
def Running.Sound (calls : List (Call C)) (r : Running C) : Prop :=
  ∃ jit func code, calls[r.handle]? = some (.live jit func r.compiled) ∧ jit.generate func = .ok code ∧
    r.args.map typeOf = r.compiled.params ∧ r.seen ≠ [] ∧
    ∀ image ∈ r.seen, ∀ k b, code[k]? = some b → image (r.compiled.entry + k) = b

theorem Running.Sound.of_calls {calls calls' : List (Call C)} {r : Running C} (h : r.Sound calls)
    (hcalls : calls'[r.handle]? = calls[r.handle]?) : r.Sound calls' := by
  obtain ⟨jit, func, code, hi, hrest⟩ := h
  exact ⟨jit, func, code, hcalls.trans hi, hrest⟩

namespace Process

structure Inv (L : Layout C.pager.Region) (view : C.World → Space C.pager.Region) (p : Process C) :
    Prop where
  owned : Owned L p.owner (view p.world)
  sound : ∀ (i : ℕ) (call : Call C), p.calls[i]? = some call → call.Sound L view (view p.world)
  running : ∀ r, some r ∈ p.running → r.Sound p.calls

variable {p p' : Process C} {i : ℕ} {call call' : Call C} {w : C.World}

theorem owner_of_getElem? (h : p.calls[i]? = some call) : p.owner i = call.region := by
  rw [owner, h, Option.bind_some]

theorem update_getElem? (h : p.calls[i]? = some call) (j : ℕ) :
    (p.update i call' w).calls[j]? = if j = i then some call' else p.calls[j]? := by
  have hlt := (List.getElem?_eq_some_iff.mp h).1
  rw [update, List.getElem?_set]
  by_cases hji : j = i
  · simp [hji, hlt]
  · simp [hji, Ne.symm hji]

theorem owner_update (h : p.calls[i]? = some call) :
    (p.update i call' w).owner = Function.update p.owner i call'.region := by
  funext j
  rw [owner, update_getElem? h]
  by_cases hji : j = i
  · rw [if_pos hji, hji, Function.update_self, Option.bind_some]
  · rw [if_neg hji, Function.update_of_ne hji, owner]

namespace Inv

/-- Every step that changes one call goes through this: the call exchanges its region and says what it
knows of the new one, and nothing is running on its handle. -/
theorem update (h : Inv L view p) (hi : p.calls[i]? = some call)
    (hquiet : ∀ r, some r ∈ p.running → r.handle ≠ i)
    (hx : Exchange L call.region call'.region (view p.world) (view w))
    (hsound : call'.Sound L view (view w)) : Inv L view (p.update i call' w) := by
  rw [← owner_of_getElem? hi] at hx
  refine ⟨?_, fun j d hj => ?_, fun r hr => ?_⟩
  · rw [owner_update hi]
    exact h.owned.exchange hx
  · rw [update_getElem? hi] at hj
    split_ifs at hj with hji
    · cases hj
      exact hsound
    · exact (h.sound j d hj).untouched fun r hr =>
        h.owned.untouched hx hji (by rw [owner_of_getElem? hj, hr])
  · refine (h.running r hr).of_calls ?_
    rw [update_getElem? hi, if_neg (hquiet r hr)]

/-- What a call has is mapped. -/
theorem mapped (h : Inv L view p) (hi : p.calls[i]? = some call) :
    ∀ r, call.region = some r → r ∈ (view p.world).mapped := fun r hr =>
  (h.owned.mapped r).mpr ⟨i, by rw [owner_of_getElem? hi, hr]⟩

/-- Nothing runs on a handle that is not there yet, or no longer. -/
theorem quiet (h : Inv L view p) (hi : p.calls[i]? = some call)
    (hlive : ∀ jit func compiled, call ≠ .live jit func compiled) :
    ∀ r, some r ∈ p.running → r.handle ≠ i := by
  rintro r hr rfl
  obtain ⟨jit, func, code, hcall, -⟩ := h.running r hr
  rw [hi] at hcall
  exact hlive jit func r.compiled (Option.some.inj hcall)

/-- A step that changes the call alone. -/
theorem relabel (h : Inv L view p) (hi : p.calls[i]? = some call)
    (hlive : ∀ jit func compiled, call ≠ .live jit func compiled)
    (hregion : call'.region = call.region) (hsound : call'.Sound L view (view p.world)) :
    Inv L view (p.update i call' p.world) := by
  refine h.update hi (h.quiet hi hlive) ?_ hsound
  rw [hregion]
  exact exchange_of_untouched (fun r _ => .refl L r _) rfl h.owned.separate (h.mapped hi)

theorem start (h : Inv L view p) (jit : Jit C) (func : NamedFunction) :
    Inv L view { p with calls := p.calls ++ [.started jit func] } := by
  have howner : ({ p with calls := p.calls ++ [.started jit func] } : Process C).owner = p.owner := by
    funext j
    simp only [owner]
    rcases lt_trichotomy j p.calls.length with hj | rfl | hj
    · rw [List.getElem?_append_left hj]
    · simp [Call.region]
    · rw [List.getElem?_eq_none (by simp; omega), List.getElem?_eq_none hj.le]
  refine ⟨howner ▸ h.owned, fun j d hj => ?_, fun r hr => ?_⟩
  · rcases List.mem_append.mp (List.mem_of_getElem? hj) with hd | hd
    · obtain ⟨k, hk⟩ := List.mem_iff_getElem?.mp hd
      exact h.sound k d hk
    · obtain rfl := List.mem_singleton.mp hd
      trivial
  · obtain ⟨jit', func', code, hcall, hrest⟩ := h.running r hr
    refine ⟨jit', func', code, ?_, hrest⟩
    rw [List.getElem?_append_left (List.getElem?_eq_some_iff.mp hcall).1, hcall]

theorem environment (h : Inv L view p)
    (huntouched : ∀ r ∈ (view p.world).mapped, Untouched L r (view p.world) (view w))
    (hmapped : (view w).mapped = (view p.world).mapped) : Inv L view { p with world := w } := by
  refine ⟨⟨fun r => by rw [hmapped, h.owned.mapped]; rfl, h.owned.unique,
    h.owned.separate.mono fun r hr => by rwa [hmapped] at hr⟩, fun j d hj => ?_, h.running⟩
  exact (h.sound j d hj).untouched fun r hr => huntouched r (h.mapped hj r hr)

/-- Native calls change nothing but what is running. -/
theorem set_running (h : Inv L view p) {running : List (Option (Running C))}
    (hrunning : ∀ r, some r ∈ running → r.Sound p.calls) : Inv L view { p with running := running } :=
  ⟨h.owned, h.sound, hrunning⟩

theorem live (hdoc : C.Documented L view) (h : Inv L view p) {jit : Jit C} {func : NamedFunction}
    {compiled : Compiled C} (hi : p.calls[i]? = some (.live jit func compiled)) :
    compiled.name = func.name ∧ compiled.params = func.params ∧ compiled.ret = func.ret ∧
      (view p.world).protection compiled.region = .readExecute ∧
      ∃ code, jit.generate func = .ok code ∧ compiled.codeLen = code.length ∧
        code.length ≤ L.size compiled.region ∧
        ∀ k b, code[k]? = some b → (view p.world).fetch (compiled.entry + k) = b := by
  obtain ⟨code, hcode, -, hsealed, hfields⟩ := h.sound i _ hi
  have hentry : compiled.entry = L.base compiled.region := (hdoc.pager.base compiled.region).symm
  rw [hfields]
  refine ⟨rfl, rfl, rfl, hsealed.protection, code, hcode, rfl, hsealed.fits, fun k b hb => ?_⟩
  have hfetch := hsealed.fetch hb
  rwa [← hentry, hfields] at hfetch

theorem enter (hdoc : C.Documented L view) (h : Inv L view p) {jit : Jit C} {func : NamedFunction}
    {compiled : Compiled C} (hi : p.calls[i]? = some (.live jit func compiled)) {args : List RVal}
    (hargs : args.map typeOf = compiled.params) :
    Inv L view { p with running := p.running ++ [some ⟨i, compiled, args, [(view p.world).fetch]⟩] } := by
  refine h.set_running fun r hr => ?_
  rcases List.mem_append.mp hr with hr | hr
  · exact h.running r hr
  · obtain rfl := Option.some.inj (List.mem_singleton.mp hr)
    obtain ⟨-, -, -, -, code, hcode, -, -, hfetch⟩ := h.live hdoc hi
    refine ⟨jit, func, code, hi, hcode, hargs, by simp, fun image himage => ?_⟩
    obtain rfl := List.mem_singleton.mp himage
    exact hfetch

theorem fetch (hdoc : C.Documented L view) (h : Inv L view p) {j : ℕ} {r : Running C}
    (hj : p.running[j]? = some (some r)) :
    Inv L view
      { p with running := p.running.set j (some { r with seen := (view p.world).fetch :: r.seen }) } := by
  refine h.set_running fun r' hr' => ?_
  rcases List.mem_or_eq_of_mem_set hr' with hr' | hr'
  · exact h.running r' hr'
  · obtain rfl := Option.some.inj hr'
    obtain ⟨jit, func, code, hi, hcode, hargs, -, hseen⟩ := h.running r (List.mem_of_getElem? hj)
    obtain ⟨-, -, -, -, code', hcode', -, -, hfetch⟩ := h.live hdoc hi
    obtain rfl := Except.ok.inj (hcode'.symm.trans hcode)
    refine ⟨jit, func, code', hi, hcode, hargs, by simp, fun image himage => ?_⟩
    rcases List.mem_cons.mp himage with rfl | himage
    · exact hfetch
    · exact hseen image himage

theorem leave (h : Inv L view p) (j : ℕ) : Inv L view { p with running := p.running.set j none } := by
  refine h.set_running fun r hr => ?_
  rcases List.mem_or_eq_of_mem_set hr with hr | hr
  · exact h.running r hr
  · cases hr

theorem step (hdoc : C.Documented L view) (h : Inv L view p) {label : Option (Event C)}
    (hstep : Step L view cpu p label p') : Inv L view p' := by
  cases hstep with
  | start jit func => exact h.start jit func
  | generate hi hcode => exact h.relabel hi (by simp) rfl ⟨hcode, trivial⟩
  | reject hi _ => exact h.relabel hi (by simp) rfl trivial
  | advance hi _ hadvance =>
    obtain ⟨hcode, hsound⟩ := h.sound _ _ hi
    obtain ⟨hsound', hx⟩ := Stage.advance_sound hdoc h.owned.separate hsound hadvance
    exact h.update hi (h.quiet hi (by simp)) hx ⟨hcode, hsound'⟩
  | deliver hi =>
    obtain ⟨hcode, hmade, hsealed⟩ := h.sound _ _ hi
    exact h.relabel hi (by simp) rfl ⟨_, hcode, hmade, hsealed, rfl⟩
  | fail hi => exact h.relabel hi (by simp) rfl trivial
  | enter hi hargs => exact h.enter hdoc hi hargs
  | fetch hj => exact h.fetch hdoc hj
  | leave hj _ _ => exact h.leave _
  | drop hi hquiet =>
    have hmapped := h.mapped hi _ rfl
    exact h.update hi hquiet ((hdoc.pager.drop hmapped).exchange h.owned.separate hmapped) trivial
  | environment huntouched hmapped => exact h.environment huntouched hmapped

theorem init (hcalls : p.calls = []) (hrunning : p.running = [])
    (hmapped : (view p.world).mapped = ∅) : Inv L view p := by
  have howner : ∀ i, p.owner i = none := fun i => by simp [owner, hcalls]
  refine ⟨⟨fun r => ?_, ?_, ?_⟩, fun i call hi => ?_, fun r hr => ?_⟩
  · simp [hmapped, howner]
  · intro i j r hi
    rw [howner] at hi
    cases hi
  · intro r hr
    rw [hmapped] at hr
    cases hr
  · rw [hcalls] at hi
    cases hi
  · rw [hrunning] at hr
    cases hr

theorem of_reachable (hdoc : C.Documented L view) (h : (process L view cpu).Reachable p) :
    Inv L view p := by
  refine System.Reachable.invariant ?_ ?_ h
  · rintro q ⟨hcalls, hrunning, hmapped⟩
    exact init hcalls hrunning hmapped
  · intro q label q' hinv hstep
    exact hinv.step hdoc hstep

end Inv
end Process
end Invariant
end JitLang.Engine
