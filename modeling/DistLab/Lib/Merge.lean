import Mathlib.Data.List.Perm.Basic
import Mathlib.Order.Lattice
import Mathlib.Tactic.Common

/-!
# Merging orders of intervals

Every element has a beginning and an end. The elements fall into classes, and in
each class they are in an order in which none stands before one that ended before
it began. The orders of the classes can be merged into one with the same
property: an element that ends first among all that are left has in front of it,
in its class, only elements that began before, and the first of these can go
first of all.
-/

namespace DistLab

section
variable {α K T : Type*} [DecidableEq K] [LinearOrder T] {begins ends : α → T} {key : α → K}

theorem exists_min_end (ends : α → T) {l : List α} (h : l ≠ []) : ∃ x ∈ l, ∀ y ∈ l, ends x ≤ ends y := by
  induction l with
  | nil => exact absurd rfl h
  | cons a l ih =>
    by_cases hl : l = []
    · subst hl
      exact ⟨a, List.mem_singleton_self a, fun y hy => by rw [List.mem_singleton.mp hy]⟩
    · obtain ⟨x, hx, hmin⟩ := ih hl
      rcases le_total (ends a) (ends x) with hle | hle
      · refine ⟨a, List.mem_cons_self, fun y hy => ?_⟩
        rcases List.mem_cons.mp hy with rfl | hy
        · exact le_rfl
        · exact hle.trans (hmin y hy)
      · refine ⟨x, List.mem_cons_of_mem _ hx, fun y hy => ?_⟩
        rcases List.mem_cons.mp hy with rfl | hy
        · exact hle
        · exact hmin y hy

theorem exists_merge {all : List α} (hwf : ∀ a ∈ all, begins a ≤ ends a) (L : K → List α)
    (hperm : ∀ k, (L k).Perm (all.filter fun a => key a = k))
    (hpw : ∀ k, (L k).Pairwise fun a b => begins a ≤ ends b) :
    ∃ m : List α, m.Perm all ∧ (∀ k, (m.filter fun a => key a = k) = L k) ∧ m.Pairwise fun a b => begins a ≤ ends b := by
  classical
  -- on the number of elements
  induction hn : all.length generalizing all L with
  | zero =>
    obtain rfl := List.length_eq_zero_iff.mp hn
    exact ⟨[], .nil, fun k => (hperm k).eq_nil.symm, List.Pairwise.nil⟩
  | succ n ih =>
    have hne : all ≠ [] := by
      rintro rfl
      cases hn
    obtain ⟨x, hx, hmin⟩ := exists_min_end ends hne
    have hxL : x ∈ L (key x) := (hperm _).mem_iff.mpr (List.mem_filter.mpr ⟨hx, by simp⟩)
    obtain ⟨a, l, hL⟩ := List.exists_cons_of_ne_nil (List.ne_nil_of_mem hxL)
    have haL : a ∈ all.filter fun b => key b = key x := (hperm _).mem_iff.mp (hL ▸ List.mem_cons_self)
    obtain ⟨ha, hak⟩ := List.mem_filter.mp haL
    have hak : key a = key x := by simpa using hak
    have hpwx := hpw (key x)
    rw [hL] at hxL hpwx
    have hfirst : begins a ≤ ends x := by
      rcases List.mem_cons.mp hxL with rfl | hxl
      · exact hwf _ ha
      · exact (List.pairwise_cons.mp hpwx).1 x hxl
    -- without that element
    have hperm' : ∀ k, (Function.update L (key x) l k).Perm ((all.erase a).filter fun b => key b = k) := by
      intro k
      have hk := (hperm k).trans ((List.perm_cons_erase ha).filter _)
      by_cases hkx : k = key x
      · subst hkx
        rw [hL, List.filter_cons_of_pos (by simpa using hak)] at hk
        rw [Function.update_self]
        exact hk.cons_inv
      · rw [List.filter_cons_of_neg (by rw [hak]; simpa using Ne.symm hkx)] at hk
        rw [Function.update_of_ne hkx]
        exact hk
    have hpw' : ∀ k, (Function.update L (key x) l k).Pairwise fun a b => begins a ≤ ends b := by
      intro k
      by_cases hkx : k = key x
      · subst hkx
        rw [Function.update_self]
        exact (List.pairwise_cons.mp hpwx).2
      · rw [Function.update_of_ne hkx]
        exact hpw k
    obtain ⟨m, hm, hmk, hmp⟩ := ih (fun b hb => hwf b (List.mem_of_mem_erase hb)) _ hperm' hpw'
      (by rw [List.length_erase_of_mem ha, hn]; rfl)
    refine ⟨a :: m, (List.Perm.cons a hm).trans (List.perm_cons_erase ha).symm, fun k => ?_, ?_⟩
    · by_cases hkx : k = key x
      · subst hkx
        rw [List.filter_cons_of_pos (by simpa using hak), hmk, Function.update_self, hL]
      · rw [List.filter_cons_of_neg (by rw [hak]; simpa using Ne.symm hkx), hmk, Function.update_of_ne hkx]
    · refine List.pairwise_cons.mpr ⟨fun b hb => hfirst.trans (hmin b ?_), hmp⟩
      exact List.mem_of_mem_erase (hm.mem_iff.mp hb)

end

end DistLab
