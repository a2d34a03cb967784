import Mathlib.Data.List.Induction
import Mathlib.Data.List.Infix

/-!
# First occurrences

A log in which requests are repeated, and the list of the first occurrence of
every request, in the order of the log. `ident` tells which requests are the same.
-/

namespace DistLab

section
variable {α ι : Type*} [DecidableEq ι] (ident : α → ι)

def firsts (log : List α) : List α :=
  log.foldl (fun acc a => if ident a ∈ acc.map ident then acc else acc ++ [a]) []

theorem firsts_snoc (log : List α) (a : α) :
    firsts ident (log ++ [a]) =
      if ident a ∈ (firsts ident log).map ident then firsts ident log else firsts ident log ++ [a] := by
  rw [firsts, List.foldl_append]
  rfl

theorem firsts_snoc_of_mem {log : List α} {a : α} (h : ident a ∈ (firsts ident log).map ident) :
    firsts ident (log ++ [a]) = firsts ident log := by rw [firsts_snoc, if_pos h]

theorem firsts_snoc_of_not_mem {log : List α} {a : α} (h : ident a ∉ (firsts ident log).map ident) :
    firsts ident (log ++ [a]) = firsts ident log ++ [a] := by rw [firsts_snoc, if_neg h]

theorem mem_map_firsts {log : List α} {i : ι} : i ∈ (firsts ident log).map ident ↔ i ∈ log.map ident := by
  induction log using List.reverseRecOn with
  | nil => rfl
  | append_singleton log a ih =>
    rw [firsts_snoc, List.map_append, List.mem_append, ← ih, List.map_singleton, List.mem_singleton]
    split
    · rename_i hmem
      refine ⟨Or.inl, fun h => h.elim id ?_⟩
      rintro rfl
      exact hmem
    · rw [List.map_append, List.mem_append, List.map_singleton, List.mem_singleton]

theorem firsts_le_append (log more : List α) : firsts ident log <+: firsts ident (log ++ more) := by
  induction more generalizing log with
  | nil => rw [List.append_nil]
  | cons a more ih =>
    rw [← List.singleton_append, ← List.append_assoc]
    refine List.IsPrefix.trans ?_ (ih (log ++ [a]))
    rw [firsts_snoc]
    split
    · exact List.prefix_rfl
    · exact List.prefix_append _ _

end

end DistLab
