import Mathlib.Data.List.Basic

/-!
# Text as lines and fields

A text is a list of symbols in which one symbol ends a line. `lines` cuts it
into lines, where an end without a separator still counts as a line, and `cut`
splits one line at the first separator.
-/

namespace DistLab

variable {α : Type*} [DecidableEq α] (sep : α)

def lines : List α → List (List α)
  | [] => []
  | c :: cs =>
    if c = sep then [] :: lines cs
    else
      match lines cs with
      | [] => [[c]]
      | l :: ls => (c :: l) :: ls

def cut : List α → Option (List α × List α)
  | [] => none
  | c :: cs => if c = sep then some ([], cs) else (cut cs).map fun p => (c :: p.1, p.2)

variable {sep}

theorem lines_ne_nil (c : α) (cs : List α) : lines sep (c :: cs) ≠ [] := by
  rw [lines]
  split
  · simp
  · split <;> simp

/-- A separator ends the line before it, whatever comes before that. -/
theorem lines_append (xs ys : List α) : lines sep (xs ++ sep :: ys) = lines sep (xs ++ [sep]) ++ lines sep ys := by
  induction xs with
  | nil => simp [lines]
  | cons c cs ih =>
    simp only [List.cons_append, lines, ih]
    by_cases hc : c = sep
    · simp [hc]
    · simp only [hc, if_false]
      cases hl : lines sep (cs ++ [sep]) with
      | nil =>
        cases cs with
        | nil => exact absurd hl (lines_ne_nil sep [])
        | cons c' cs => exact absurd hl (lines_ne_nil c' (cs ++ [sep]))
      | cons l ls => rfl

theorem lines_single {l : List α} (h : sep ∉ l) : lines sep (l ++ [sep]) = [l] := by
  induction l with
  | nil => simp [lines]
  | cons c cs ih =>
    rw [List.mem_cons, not_or] at h
    simp [lines, ih h.2, Ne.symm h.1]

theorem lines_flatMap {ls : List (List α)} (h : ∀ l ∈ ls, sep ∉ l) : lines sep (ls.flatMap (· ++ [sep])) = ls := by
  induction ls with
  | nil => rfl
  | cons l ls ih =>
    rw [List.flatMap_cons, List.append_assoc, List.singleton_append, lines_append,
      lines_single (h l List.mem_cons_self), ih fun l' hl' => h l' (List.mem_cons_of_mem _ hl')]
    rfl

/-- A text made of pieces that all end a line has the lines of its pieces. -/
theorem lines_flatMap_append {β : Type*} (f : β → List α) (bs : List β) :
    lines sep (bs.flatMap fun b => f b ++ [sep]) = bs.flatMap fun b => lines sep (f b ++ [sep]) := by
  induction bs with
  | nil => rfl
  | cons b bs ih =>
    rw [List.flatMap_cons, List.flatMap_cons, List.append_assoc, List.singleton_append, lines_append, ih]

theorem length_le_of_mem_lines {xs l : List α} (h : l ∈ lines sep (xs ++ [sep])) : l.length ≤ xs.length := by
  induction xs generalizing l with
  | nil => simp_all [lines]
  | cons c cs ih =>
    rw [List.length_cons]
    rw [List.cons_append, lines] at h
    split at h
    · rcases List.mem_cons.mp h with rfl | h
      · simp
      · exact Nat.le_succ_of_le (ih h)
    · split at h
      · simp_all
      · rename_i l' ls hl
        rw [hl] at ih
        rcases List.mem_cons.mp h with rfl | h
        · exact Nat.succ_le_succ (ih List.mem_cons_self)
        · exact Nat.le_succ_of_le (ih (List.mem_cons_of_mem _ h))

theorem not_mem_of_mem_lines {xs l : List α} (h : l ∈ lines sep xs) : sep ∉ l := by
  induction xs generalizing l with
  | nil => cases h
  | cons c cs ih =>
    rw [lines] at h
    split at h
    · rcases List.mem_cons.mp h with rfl | h
      · exact List.not_mem_nil
      · exact ih h
    · rename_i hc
      split at h
      · rw [List.mem_singleton.mp h, List.mem_singleton]
        exact Ne.symm hc
      · rename_i l' ls hl
        rw [hl] at ih
        rcases List.mem_cons.mp h with rfl | h
        · rw [List.mem_cons, not_or]
          exact ⟨Ne.symm hc, ih List.mem_cons_self⟩
        · exact ih (List.mem_cons_of_mem _ h)

theorem cut_append {l : List α} (h : sep ∉ l) (rest : List α) : cut sep (l ++ sep :: rest) = some (l, rest) := by
  induction l with
  | nil => simp [cut]
  | cons c cs ih =>
    rw [List.mem_cons, not_or] at h
    simp [cut, ih h.2, Ne.symm h.1]

theorem cut_eq_some {l a b : List α} (h : cut sep l = some (a, b)) : l = a ++ sep :: b ∧ sep ∉ a := by
  induction l generalizing a with
  | nil => cases h
  | cons c cs ih =>
    rw [cut] at h
    split at h
    · rename_i hc
      cases h
      exact ⟨by rw [hc, List.nil_append], List.not_mem_nil⟩
    · rename_i hc
      obtain ⟨⟨a', b'⟩, hcut, heq⟩ := Option.map_eq_some_iff.mp h
      cases heq
      obtain ⟨hl, ha⟩ := ih hcut
      refine ⟨by rw [hl, List.cons_append], ?_⟩
      rw [List.mem_cons, not_or]
      exact ⟨Ne.symm hc, ha⟩

end DistLab
