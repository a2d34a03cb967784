import Mathlib.Data.List.Induction
import Mathlib.Data.List.Nodup
import Mathlib.Data.List.Count

/-!
# Numbering the repeats of a list

`ranks m xs` pairs each element with the number of times it came before, modulo
`m`. The pairs are distinct exactly when no element comes more than `m` times.
-/

namespace DistLab

variable {α : Type*} [DecidableEq α]

def ranksAfter (m : Nat) (seen : List α) : List α → List (α × Nat)
  | [] => []
  | x :: xs => (x, seen.count x % m) :: ranksAfter m (seen ++ [x]) xs

def ranks (m : Nat) (xs : List α) : List (α × Nat) :=
  ranksAfter m [] xs

theorem ranksAfter_concat (m : Nat) (seen xs : List α) (x : α) :
    ranksAfter m seen (xs ++ [x]) = ranksAfter m seen xs ++ [(x, (seen ++ xs).count x % m)] := by
  induction xs generalizing seen with
  | nil => simp [ranksAfter]
  | cons y ys ih => simp [ranksAfter, ih]

@[simp]
theorem ranks_concat (m : Nat) (xs : List α) (x : α) :
    ranks m (xs ++ [x]) = ranks m xs ++ [(x, xs.count x % m)] := by
  simp [ranks, ranksAfter_concat]

theorem mem_ranks {m : Nat} {xs : List α} {x : α} {c : Nat} :
    (x, c) ∈ ranks m xs ↔ ∃ i < xs.count x, i % m = c := by
  induction xs using List.reverseRecOn with
  | nil => simp [ranks, ranksAfter]
  | append_singleton ys y ih =>
    rw [ranks_concat, List.mem_append, ih, List.mem_singleton, Prod.mk.injEq]
    by_cases hy : x = y
    · subst hy
      simp only [List.count_append, List.count_singleton_self, true_and, Nat.lt_succ_iff_lt_or_eq, or_and_right,
        exists_or, exists_eq_left]
      simp [eq_comm]
    · simp [hy, List.count_append, Ne.symm hy]

theorem mem_of_mem_ranks {m : Nat} {xs : List α} {p : α × Nat} (h : p ∈ ranks m xs) : p.1 ∈ xs := by
  obtain ⟨i, hi, -⟩ := mem_ranks.1 h
  exact List.count_pos_iff.1 (by omega)

theorem lt_of_mem_ranks {m : Nat} (hm : 0 < m) {xs : List α} {p : α × Nat} (h : p ∈ ranks m xs) : p.2 < m := by
  obtain ⟨i, -, hi⟩ := mem_ranks.1 h
  rw [← hi]
  exact Nat.mod_lt _ hm

/-- The next number is a repeat only once all `m` of them are used. -/
theorem exists_mod_eq_iff {m n : Nat} (hm : 0 < m) (hn : n ≤ m) : (∃ i < n, i % m = n % m) ↔ n = m := by
  constructor
  · intro ⟨i, hi, h⟩
    by_contra hne
    rw [Nat.mod_eq_of_lt (by omega), Nat.mod_eq_of_lt (by omega)] at h
    omega
  · intro h
    exact ⟨0, by omega, by simp [h]⟩

theorem nodup_ranks_iff {m : Nat} (hm : 0 < m) (xs : List α) : (ranks m xs).Nodup ↔ ∀ x, xs.count x ≤ m := by
  induction xs using List.reverseRecOn with
  | nil => simp [ranks, ranksAfter]
  | append_singleton ys y ih =>
    rw [ranks_concat, ← List.concat_eq_append, List.nodup_concat, mem_ranks, ih]
    constructor
    · intro ⟨hnew, hle⟩ x
      rw [exists_mod_eq_iff hm (hle y)] at hnew
      have hx := hle x
      have hy := hle y
      by_cases hyx : y = x
      · subst hyx
        simp only [List.count_append, List.count_singleton_self]
        omega
      · simpa [hyx] using hx
    · intro h
      have hle : ∀ x, ys.count x ≤ m := by
        intro x
        have hx := h x
        rw [List.count_append] at hx
        omega
      have hy := h y
      simp only [List.count_append, List.count_singleton_self] at hy
      rw [exists_mod_eq_iff hm (hle y)]
      exact ⟨by omega, hle⟩

end DistLab
