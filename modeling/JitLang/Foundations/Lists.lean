import Mathlib.Data.List.Forall2
import Mathlib.Data.List.Nodup
import Mathlib.Data.List.Perm.Basic

/-! # Positions in lists, and corresponding lists

Reading a list from some position on. Where a concatenation `l.flatMap f`, or a selection
`l.filterMap f`, has no duplicates, an element of it comes from one position of `l`. In lists that
correspond element by element, every element has its counterpart.
-/

namespace JitLang.Foundations
set_option autoImplicit false

universe u v

variable {α : Type u} {β : Type v}

theorem getElem?_of_drop {l rest : List α} {n : ℕ} {a : α} (h : l.drop n = a :: rest) :
    l[n]? = some a := by
  rw [← List.head?_drop, h, List.head?_cons]

theorem drop_succ_of_drop {l rest : List α} {n : ℕ} {a : α} (h : l.drop n = a :: rest) :
    l.drop (n + 1) = rest := by
  rw [← List.tail_drop, h, List.tail_cons]

theorem flatMap_nodup_index {l : List α} {f : α → List β} (h : (l.flatMap f).Nodup) {i j : ℕ}
    {a b : α} (hi : l[i]? = some a) (hj : l[j]? = some b) {x : β} (ha : x ∈ f a) (hb : x ∈ f b) :
    i = j := by
  have hpair := (List.nodup_flatMap.mp h).2
  rw [List.pairwise_iff_getElem] at hpair
  obtain ⟨hilt, rfl⟩ := List.getElem?_eq_some_iff.mp hi
  obtain ⟨hjlt, rfl⟩ := List.getElem?_eq_some_iff.mp hj
  rcases Nat.lt_trichotomy i j with hlt | heq | hgt
  · exact absurd hb (fun hb => hpair i j hilt hjlt hlt ha hb)
  · exact heq
  · exact absurd hb (fun hb => hpair j i hjlt hilt hgt hb ha)

theorem filterMap_nodup_index {l : List α} {f : α → Option β} (h : (l.filterMap f).Nodup) {i j : ℕ}
    {a b : α} (hi : l[i]? = some a) (hj : l[j]? = some b) {x : β} (ha : f a = some x)
    (hb : f b = some x) : i = j := by
  have hpair := List.pairwise_filterMap.mp h
  rw [List.pairwise_iff_getElem] at hpair
  obtain ⟨hilt, rfl⟩ := List.getElem?_eq_some_iff.mp hi
  obtain ⟨hjlt, rfl⟩ := List.getElem?_eq_some_iff.mp hj
  rcases Nat.lt_trichotomy i j with hlt | heq | hgt
  · exact absurd rfl (hpair i j hilt hjlt hlt x ha x hb)
  · exact heq
  · exact absurd rfl (hpair j i hjlt hilt hgt x hb x ha)

theorem forall₂_getElem? {α β : Type} {R : α → β → Prop} {l : List α} {l' : List β}
    (h : List.Forall₂ R l l') {i : ℕ} {a : α} {b : β} (ha : l[i]? = some a) (hb : l'[i]? = some b) :
    R a b := by
  induction h generalizing i with
  | nil => cases ha
  | cons hab _ ih =>
    cases i with
    | zero =>
      cases ha
      cases hb
      exact hab
    | succ i => exact ih ha hb

theorem getElem?_of_map_eq {α β γ : Type} {f : α → γ} {g : β → γ} {l : List α} {l' : List β}
    (h : l.map f = l'.map g) (i : ℕ) : (l[i]?).map f = (l'[i]?).map g := by
  rw [← List.getElem?_map, ← List.getElem?_map, h]

theorem forall₂_exists_left {R : α → β → Prop} {l : List α} {l' : List β} (h : List.Forall₂ R l l')
    {b : β} (hb : b ∈ l') : ∃ a ∈ l, R a b := by
  induction h with
  | nil => cases hb
  | @cons a b' l l' hab _ ih =>
    rcases List.mem_cons.mp hb with rfl | hb
    · exact ⟨a, List.mem_cons_self, hab⟩
    · obtain ⟨a', ha', hR⟩ := ih hb
      exact ⟨a', List.mem_cons_of_mem _ ha', hR⟩

theorem forall₂_exists_right {R : α → β → Prop} {l : List α} {l' : List β} (h : List.Forall₂ R l l')
    {a : α} (ha : a ∈ l) : ∃ b ∈ l', R a b :=
  forall₂_exists_left h.flip ha

/-- A partial function is defined on all of a list if its values correspond to another list. -/
theorem map_eq_some_iff {f : α → Option β} {l : List α} {l' : List β} :
    l.map f = l'.map some ↔ List.Forall₂ (fun a b => f a = some b) l l' := by
  rw [← List.forall₂_eq_eq_eq, List.forall₂_map_left_iff, List.forall₂_map_right_iff]

theorem map_singleton_eq_some {f : α → Option β} {a : α} {l : List β} (h : [a].map f = l.map some) :
    ∃ b, l = [b] ∧ f a = some b := by
  cases map_eq_some_iff.mp h with
  | cons hb hrest =>
    cases hrest
    exact ⟨_, rfl, hb⟩

end JitLang.Foundations
