import Mathlib.Data.List.Forall2

/-! # Computations that may fail

The equations of `Except` as a monad, inversion of a successful bind, and the rules for loops written
as `foldlM`: an invariant over the part of the list already processed (`foldlM_invariant`), one error
that some round answers (`foldlM_fails`), and two loops run in lockstep (`Lockstep.foldlM`).
-/

namespace JitLang.Foundations
set_option autoImplicit false

universe u v

variable {ε : Type u} {α β σ τ : Type v}

/-! ## Equations -/

@[simp] theorem ok_bind (a : α) (f : α → Except ε β) : (Except.ok a >>= f) = f a := rfl

@[simp] theorem error_bind (e : ε) (f : α → Except ε β) :
    (Except.error e >>= f) = Except.error e := rfl

@[simp] theorem pure_eq_ok (a : α) : (pure a : Except ε α) = .ok a := rfl

theorem bind_eq_ok {x : Except ε α} {f : α → Except ε β} {b : β} :
    (x >>= f) = .ok b ↔ ∃ a, x = .ok a ∧ f a = .ok b := by
  cases x <;> simp

/-- The computation succeeds, with a result that has the property. -/
def Succeeds (x : Except ε α) (Q : α → Prop) : Prop := ∃ a, x = .ok a ∧ Q a

/-! ## Lists -/

theorem mapM_eq_ok_iff {f : α → Except ε β} {l : List α} {l' : List β} :
    l.mapM f = .ok l' ↔ List.Forall₂ (fun a b => f a = .ok b) l l' := by
  induction l generalizing l' with
  | nil => simp [eq_comm]
  | cons a l ih =>
    rw [List.mapM_cons, bind_eq_ok]
    constructor
    · rintro ⟨b, hb, h⟩
      obtain ⟨bs, hbs, h⟩ := bind_eq_ok.mp h
      cases h
      exact .cons hb (ih.mp hbs)
    · intro h
      cases h with
      | @cons _ b _ bs hb hbs => exact ⟨b, hb, bind_eq_ok.mpr ⟨bs, ih.mpr hbs, rfl⟩⟩

theorem mapM_getElem? {f : α → Except ε β} {l : List α} {l' : List β} (h : l.mapM f = .ok l')
    {i : ℕ} {a : α} (hi : l[i]? = some a) : ∃ b, l'[i]? = some b ∧ f a = .ok b := by
  have hpairs := mapM_eq_ok_iff.mp h
  obtain ⟨hlt, rfl⟩ := List.getElem?_eq_some_iff.mp hi
  have hlt' : i < l'.length := by rwa [← hpairs.length_eq]
  exact ⟨l'[i], List.getElem?_eq_getElem hlt', hpairs.get hlt hlt'⟩

theorem mapM_map_congr {γ : Type v} {f : α → Except ε γ} {g : β → Except ε γ} {φ : α → β} {l : List α}
    (h : ∀ a ∈ l, f a = g (φ a)) : l.mapM f = (l.map φ).mapM g := by
  induction l with
  | nil => rfl
  | cons a l ih =>
    rw [List.map_cons, List.mapM_cons, List.mapM_cons, h a List.mem_cons_self,
      ih fun b hb => h b (List.mem_cons_of_mem _ hb)]

theorem foldlM_snoc {f : σ → α → Except ε σ} {l : List α} {s t t' : σ} {a : α}
    (h : l.foldlM f s = .ok t) (ha : f t a = .ok t') : (l ++ [a]).foldlM f s = .ok t' := by
  rw [List.foldlM_append, h, ok_bind, List.foldlM_cons, ha, ok_bind, List.foldlM_nil, pure_eq_ok]

/-- The loop rule: an invariant of the processed part of the list that each round keeps, with no round
failing, holds at the end. -/
theorem foldlM_invariant {f : σ → α → Except ε σ} {I : List α → σ → Prop} {l : List α} {s : σ}
    (hinit : I [] s)
    (hstep : ∀ done a rest t, l = done ++ a :: rest → I done t →
      ∃ t', f t a = .ok t' ∧ I (done ++ [a]) t') :
    ∃ s', l.foldlM f s = .ok s' ∧ I l s' := by
  suffices h : ∀ rest done t, l = done ++ rest → I done t →
      ∃ s', rest.foldlM f t = .ok s' ∧ I l s' from h l [] s rfl hinit
  intro rest
  induction rest with
  | nil =>
    intro done t hl ht
    rw [List.append_nil] at hl
    exact ⟨t, rfl, hl ▸ ht⟩
  | cons a rest ih =>
    intro done t hl ht
    obtain ⟨t', ht', hinv⟩ := hstep done a rest t hl ht
    obtain ⟨s', hs', h⟩ := ih (done ++ [a]) t' (by rw [hl, List.append_assoc]; rfl) hinv
    exact ⟨s', by rw [List.foldlM_cons, ht', ok_bind, hs'], h⟩

/-- Where every round either keeps the invariant or fails with `e`, and some element always fails, the
loop fails with `e`. -/
theorem foldlM_fails {f : σ → α → Except ε σ} {I : σ → Prop} {e : ε} {l : List α} {s : σ}
    (hstep : ∀ a ∈ l, ∀ t, I t → f t a = .error e ∨ ∃ t', f t a = .ok t' ∧ I t')
    (hbad : ∃ a ∈ l, ∀ t, I t → f t a = .error e) (hinit : I s) : l.foldlM f s = .error e := by
  induction l generalizing s with
  | nil => simp at hbad
  | cons a l ih =>
    rw [List.foldlM_cons]
    rcases hstep a List.mem_cons_self s hinit with herr | ⟨s', hs', hinv⟩
    · rw [herr, error_bind]
    · rw [hs', ok_bind]
      obtain ⟨b, hb, hfail⟩ := hbad
      rcases List.mem_cons.mp hb with rfl | hb
      · rw [hfail s hinit] at hs'
        cases hs'
      · exact ih (fun c hc => hstep c (List.mem_cons_of_mem _ hc)) ⟨b, hb, hfail⟩ hinv

theorem mapM_fails {f : α → Except ε β} {e : ε} {l : List α}
    (hstep : ∀ a ∈ l, f a = .error e ∨ ∃ b, f a = .ok b) (hbad : ∃ a ∈ l, f a = .error e) :
    l.mapM f = .error e := by
  induction l with
  | nil => simp at hbad
  | cons a l ih =>
    rw [List.mapM_cons]
    rcases hstep a List.mem_cons_self with herr | ⟨b, hb⟩
    · rw [herr, error_bind]
    · obtain ⟨c, hc, hfail⟩ := hbad
      rcases List.mem_cons.mp hc with rfl | hc
      · rw [hfail] at hb
        cases hb
      · rw [hb, ok_bind, ih (fun d hd => hstep d (List.mem_cons_of_mem _ hd)) ⟨c, hc, hfail⟩,
          error_bind]

/-! ## Lockstep -/

/-- Both computations fail with the same error, or both succeed with related values. -/
inductive Lockstep (R : σ → τ → Prop) : Except ε σ → Except ε τ → Prop
  | error (e : ε) : Lockstep R (.error e) (.error e)
  | ok {s : σ} {t : τ} : R s t → Lockstep R (.ok s) (.ok t)

namespace Lockstep

theorem bind {R : σ → τ → Prop} {S : α → β → Prop} {x : Except ε σ} {y : Except ε τ}
    {f : σ → Except ε α} {g : τ → Except ε β} (h : Lockstep R x y)
    (hfg : ∀ s t, R s t → Lockstep S (f s) (g t)) : Lockstep S (x >>= f) (y >>= g) := by
  cases h with
  | error e => exact .error e
  | ok hst => exact hfg _ _ hst

theorem mono {R S : σ → τ → Prop} {x : Except ε σ} {y : Except ε τ} (h : Lockstep R x y)
    (hRS : ∀ s t, R s t → S s t) : Lockstep S x y := by
  cases h with
  | error e => exact .error e
  | ok hst => exact .ok (hRS _ _ hst)

theorem eq {x y : Except ε σ} (h : Lockstep Eq x y) : x = y := by
  cases h with
  | error e => rfl
  | ok h => rw [h]

theorem of_eq {x y : Except ε σ} (h : x = y) : Lockstep Eq x y := by
  subst h
  cases x with
  | error e => exact .error e
  | ok s => exact .ok rfl

/-- Two loops over a list and its image run in lockstep if their rounds do. -/
theorem foldlM {R : σ → τ → Prop} {f : σ → α → Except ε σ} {g : τ → β → Except ε τ} {φ : α → β}
    {l : List α} (hround : ∀ a ∈ l, ∀ s t, R s t → Lockstep R (f s a) (g t (φ a))) {s : σ} {t : τ}
    (h : R s t) : Lockstep R (l.foldlM f s) ((l.map φ).foldlM g t) := by
  induction l generalizing s t with
  | nil => exact .ok h
  | cons a l ih =>
    rw [List.map_cons, List.foldlM_cons, List.foldlM_cons]
    exact (hround a List.mem_cons_self s t h).bind fun s' t' h' =>
      ih (fun b hb => hround b (List.mem_cons_of_mem _ hb)) h'

end Lockstep
end JitLang.Foundations
