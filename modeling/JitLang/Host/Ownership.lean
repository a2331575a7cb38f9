import JitLang.Host.Space
import Mathlib.Logic.Function.Basic

/-! # Who owns which region

Regions are handed out to owners, at most one to each. In an accounted space (`Owned`) the mapped regions
are exactly the owned ones, none has two owners, and no two overlap: nothing leaks, nothing is freed
twice. An operation exchanges the region of one owner (`Exchange`), as mapping, filling and unmapping
do; it keeps the account (`Owned.exchange`) and leaves what the others own untouched
(`Owned.untouched`).
-/

namespace JitLang.Host
set_option autoImplicit false

universe u v

variable {R : Type u} {ι : Type v} {L : Layout R} {s s' : Space R}

/-- One owner has `new` in place of `old`, and what the other owners have is untouched. -/
structure Exchange (L : Layout R) (old new : Option R) (s s' : Space R) : Prop where
  others : ∀ r ∈ s.mapped, old ≠ some r → Untouched L r s s'
  mapped : ∀ r, r ∈ s'.mapped ↔ (r ∈ s.mapped ∧ old ≠ some r) ∨ new = some r
  fresh : ∀ r, new = some r → old = some r ∨ r ∉ s.mapped
  separate : Separate L s'

structure Owned (L : Layout R) (owner : ι → Option R) (s : Space R) : Prop where
  mapped : ∀ r, r ∈ s.mapped ↔ ∃ i, owner i = some r
  unique : ∀ i j r, owner i = some r → owner j = some r → i = j
  separate : Separate L s

/-! ## The operations as exchanges -/

section Exchanges
variable {r : R}

theorem Acts.others (h : Acts L r s s') (hsep : Separate L s) (hr : r ∈ s.mapped) :
    ∀ r' ∈ s.mapped, some r ≠ some r' → Untouched L r' s s' := by
  intro r' hr' hne
  have hne : r ≠ r' := fun e => hne (congrArg some e)
  exact h.untouched (Ne.symm hne) (hsep r hr r' hr' hne)

theorem Maps.exchange (h : Maps L r s s') (hsep : Separate L s) : Exchange L none (some r) s s' := by
  refine ⟨fun r' hr' _ => h.untouched ?_ (h.apart r' hr'), fun r' => ?_, ?_, h.separate hsep⟩
  · rintro rfl
    exact h.unmapped hr'
  · by_cases hr' : r' = r
    · subst hr'
      simp [h.mapped_self]
    · simp [h.mapped r' hr', Ne.symm hr']
  · rintro r' ⟨⟩
    exact .inr h.unmapped

theorem Acts.exchange (h : Acts L r s s') (hself : r ∈ s'.mapped ↔ r ∈ s.mapped) (hsep : Separate L s)
    (hr : r ∈ s.mapped) : Exchange L (some r) (some r) s s' := by
  have hmapped : ∀ r', r' ∈ s'.mapped ↔ r' ∈ s.mapped := fun r' => by
    by_cases hr' : r' = r
    · rw [hr', hself]
    · exact h.mapped r' hr'
  refine ⟨h.others hsep hr, fun r' => ?_, fun r' hr' => .inl hr',
    hsep.mono fun r' hr' => (hmapped r').mp hr'⟩
  rw [hmapped]
  by_cases hr' : r = r'
  · subst hr'
    simp [hr]
  · simp [hr']

theorem Modifies.exchange (h : Modifies L r s s') (hsep : Separate L s) (hr : r ∈ s.mapped) :
    Exchange L (some r) (some r) s s' := h.toActs.exchange h.mapped_self hsep hr

theorem Protects.exchange {p : Protection} (h : Protects L r p s s') (hsep : Separate L s)
    (hr : r ∈ s.mapped) : Exchange L (some r) (some r) s s' :=
  h.toActs.exchange h.mapped_self hsep hr

theorem Unmaps.exchange (h : Unmaps L r s s') (hsep : Separate L s) (hr : r ∈ s.mapped) :
    Exchange L (some r) none s s' := by
  refine ⟨h.others hsep hr, fun r' => ?_, fun _ hnew => (by cases hnew), hsep.mono fun r' hr' => ?_⟩
  · by_cases hr' : r' = r
    · subst hr'
      simp [h.unmapped_self]
    · simp [h.mapped r' hr', Ne.symm hr']
  · refine (h.mapped r' ?_).mp hr'
    rintro rfl
    exact h.unmapped_self hr'

/-- A step that touches nothing that is mapped leaves every owner with what it has. -/
theorem exchange_of_untouched (h : ∀ r ∈ s.mapped, Untouched L r s s')
    (hmapped : s'.mapped = s.mapped) (hsep : Separate L s) {old : Option R}
    (hold : ∀ r, old = some r → r ∈ s.mapped) : Exchange L old old s s' := by
  refine ⟨fun r hr _ => h r hr, fun r => ?_, fun r hr => .inl hr,
    hsep.mono fun r hr => by rwa [hmapped] at hr⟩
  rw [hmapped]
  by_cases hr : old = some r
  · simp [hr, hold r hr]
  · simp [hr]

theorem Quiet.exchange (h : Quiet s s') (hsep : Separate L s) {old : Option R}
    (hold : ∀ r, old = some r → r ∈ s.mapped) : Exchange L old old s s' :=
  exchange_of_untouched (fun _ _ => h.untouched) h.mapped hsep hold

/-- One exchange after the other: a region that comes to the owner and goes again is nobody's. -/
theorem Exchange.trans {old mid new : Option R} {s'' : Space R} (h : Exchange L old mid s s')
    (h' : Exchange L mid new s' s'') : Exchange L old new s s'' := by
  have hmid : ∀ r ∈ s.mapped, old ≠ some r → mid ≠ some r := fun r hr hne hmid =>
    (h.fresh r hmid).elim hne fun hunmapped => hunmapped hr
  refine ⟨fun r hr hne => ?_, fun r => ?_, fun r hnew => ?_, h'.separate⟩
  · have hmapped : r ∈ s'.mapped := (h.mapped r).mpr (.inl ⟨hr, hne⟩)
    exact (h.others r hr hne).trans (h'.others r hmapped (hmid r hr hne))
  · rw [h'.mapped, h.mapped]
    constructor
    · rintro (⟨hold | hmid', hne⟩ | hnew)
      · exact .inl hold
      · exact absurd hmid' hne
      · exact .inr hnew
    · rintro (hold | hnew)
      · exact .inl ⟨.inl hold, hmid r hold.1 hold.2⟩
      · exact .inr hnew
  · rcases h'.fresh r hnew with hmid' | hunmapped
    · exact h.fresh r hmid'
    · by_cases hold : old = some r
      · exact .inl hold
      · exact .inr fun hr => hunmapped ((h.mapped r).mpr (.inl ⟨hr, hold⟩))

end Exchanges

/-! ## The account -/

namespace Owned
variable {owner : ι → Option R}

theorem exchange [DecidableEq ι] (h : Owned L owner s) {i : ι} {new : Option R}
    (hx : Exchange L (owner i) new s s') : Owned L (Function.update owner i new) s' := by
  refine ⟨fun r => ?_, ?_, hx.separate⟩
  · rw [hx.mapped, h.mapped]
    constructor
    · rintro (⟨⟨j, hj⟩, hne⟩ | hnew)
      · refine ⟨j, ?_⟩
        rw [Function.update_of_ne, hj]
        rintro rfl
        exact hne hj
      · exact ⟨i, by rw [Function.update_self, hnew]⟩
    · rintro ⟨j, hj⟩
      by_cases hji : j = i
      · subst hji
        exact .inr (by rwa [Function.update_self] at hj)
      · rw [Function.update_of_ne hji] at hj
        exact .inl ⟨⟨j, hj⟩, fun hi => hji (h.unique j i r hj hi)⟩
  · -- A region that is new to `i` was nobody's.
    have hself : ∀ j r, j ≠ i → new = some r → owner j ≠ some r := by
      intro j r hji hnew hj
      rcases hx.fresh r hnew with hold | hunmapped
      · exact hji (h.unique j i r hj hold)
      · exact hunmapped ((h.mapped r).mpr ⟨j, hj⟩)
    intro j k r hj hk
    by_cases hji : j = i
    · by_cases hki : k = i
      · rw [hji, hki]
      · subst hji
        rw [Function.update_self] at hj
        rw [Function.update_of_ne hki] at hk
        exact absurd hk (hself k r hki hj)
    · rw [Function.update_of_ne hji] at hj
      by_cases hki : k = i
      · subst hki
        rw [Function.update_self] at hk
        exact absurd hj (hself j r hji hk)
      · rw [Function.update_of_ne hki] at hk
        exact h.unique j k r hj hk

theorem untouched (h : Owned L owner s) {i j : ι} {new : Option R}
    (hx : Exchange L (owner i) new s s') (hne : j ≠ i) {r : R} (hj : owner j = some r) :
    Untouched L r s s' :=
  hx.others r ((h.mapped r).mpr ⟨j, hj⟩) fun hi => hne (h.unique j i r hj hi)

end Owned
end JitLang.Host
