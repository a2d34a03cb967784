import Mathlib.Data.List.Nodup
import Mathlib.Data.List.Perm.Lattice

/-!
# Grouping a sorted list by key

`groupRuns` is the loop that walks over a list of pairs and gathers the values of
one key until the key changes. On a list sorted by key it visits every key once
and with all its values, so what is computed from the groups depends only on the
pairs and not on the order in which equal keys come, and can be computed on the
parts of a partition of the keys.
-/

namespace DistLab

section
variable {K V : Type*} [DecidableEq K]

/-- `k` is the key of the current group and `vs` are the values gathered so far. -/
def groupFrom (k : K) (vs : List V) : List (K × V) → List (K × List V)
  | [] => [(k, vs)]
  | (k', v) :: l => if k' = k then groupFrom k (vs ++ [v]) l else (k, vs) :: groupFrom k' [v] l

def groupRuns : List (K × V) → List (K × List V)
  | [] => []
  | (k, v) :: l => groupFrom k [v] l

def valuesOf (l : List (K × V)) (k : K) : List V := (l.filter fun e => e.1 = k).map Prod.snd

theorem valuesOf_cons_self (k : K) (v : V) (l : List (K × V)) : valuesOf ((k, v) :: l) k = v :: valuesOf l k := by
  simp [valuesOf]

theorem valuesOf_cons_ne {k k' : K} (h : k' ≠ k) (v : V) (l : List (K × V)) : valuesOf ((k', v) :: l) k = valuesOf l k := by
  simp [valuesOf, h]

theorem valuesOf_eq_nil {k : K} {l : List (K × V)} (h : k ∉ l.map Prod.fst) : valuesOf l k = [] := by
  rw [valuesOf, List.filter_eq_nil_iff.mpr, List.map_nil]
  intro e he hk
  exact h (List.mem_map.mpr ⟨e, he, of_decide_eq_true hk⟩)

theorem valuesOf_perm {l l' : List (K × V)} (h : l.Perm l') (k : K) : (valuesOf l k).Perm (valuesOf l' k) :=
  (h.filter _).map _

end

section
variable {K V : Type*} [DecidableEq K] [LE K] [Std.IsPartialOrder K]

def KeyAscending (l : List (K × V)) : Prop := l.Pairwise fun a b => a.1 ≤ b.1

/-- The groups of a sorted list: the current one, with the rest of its values, and
one for every other key. -/
theorem mem_groupFrom {k : K} {l : List (K × V)} (hk : ∀ e ∈ l, k ≤ e.1) (hl : KeyAscending l) {vs : List V}
    {g : K × List V} : g ∈ groupFrom k vs l ↔
      g = (k, vs ++ valuesOf l k) ∨ (g.1 ≠ k ∧ g.1 ∈ l.map Prod.fst ∧ g.2 = valuesOf l g.1) := by
  induction l generalizing k vs with
  | nil => simp [groupFrom, valuesOf]
  | cons e l ih =>
    obtain ⟨k', v⟩ := e
    obtain ⟨hk', hl⟩ := List.pairwise_cons.mp hl
    rw [groupFrom]
    split
    · rename_i heq
      subst heq
      rw [ih hk' hl, valuesOf_cons_self, List.append_assoc, List.singleton_append]
      refine or_congr_right ⟨fun ⟨hne, hm, hv⟩ => ?_, fun ⟨hne, hm, hv⟩ => ?_⟩
      · exact ⟨hne, List.mem_cons_of_mem _ hm, by rw [valuesOf_cons_ne (Ne.symm hne), hv]⟩
      · rw [valuesOf_cons_ne (Ne.symm hne)] at hv
        exact ⟨hne, (List.mem_cons.mp hm).resolve_left hne, hv⟩
    · rename_i hne
      -- the key does not come back in the rest
      have hkl : ∀ e ∈ l, e.1 ≠ k := by
        rintro e he heq
        exact hne (Std.le_antisymm (heq ▸ hk' e he) (hk _ List.mem_cons_self))
      have hknot : k ∉ l.map Prod.fst := by
        intro h
        obtain ⟨e, he, heq⟩ := List.mem_map.mp h
        exact hkl e he heq
      rw [List.mem_cons, ih hk' hl, valuesOf_cons_ne hne, valuesOf_eq_nil hknot, List.append_nil]
      refine or_congr_right ⟨?_, fun ⟨hgk, hm, hv⟩ => ?_⟩
      · rintro (rfl | ⟨hgk, hm, hv⟩)
        · exact ⟨hne, List.mem_cons_self, by rw [valuesOf_cons_self]; rfl⟩
        · refine ⟨fun heq => hknot (heq ▸ hm), List.mem_cons_of_mem _ hm, ?_⟩
          rw [valuesOf_cons_ne (Ne.symm hgk), hv]
      · by_cases hg : g.1 = k'
        · left
          obtain ⟨gk, gv⟩ := g
          simp only at hg hv
          subst hg
          rw [hv, valuesOf_cons_self]
          rfl
        · right
          rw [valuesOf_cons_ne (Ne.symm hg)] at hv
          exact ⟨hg, (List.mem_cons.mp hm).resolve_left hg, hv⟩

theorem mem_groupRuns {l : List (K × V)} (hl : KeyAscending l) {g : K × List V} :
    g ∈ groupRuns l ↔ g.1 ∈ l.map Prod.fst ∧ g.2 = valuesOf l g.1 := by
  cases l with
  | nil => simp [groupRuns]
  | cons e l =>
    obtain ⟨k, v⟩ := e
    obtain ⟨hk, hl⟩ := List.pairwise_cons.mp hl
    rw [groupRuns, mem_groupFrom hk hl]
    obtain ⟨gk, gv⟩ := g
    by_cases hg : gk = k
    · subst hg
      simp [valuesOf_cons_self]
    · simp [hg, valuesOf_cons_ne (Ne.symm hg)]

theorem groupFrom_pairwise {k : K} {l : List (K × V)} (hk : ∀ e ∈ l, k ≤ e.1) (hl : KeyAscending l) (vs : List V) :
    (groupFrom k vs l).Pairwise fun a b => a.1 ≤ b.1 ∧ a.1 ≠ b.1 := by
  induction l generalizing k vs with
  | nil => simp [groupFrom]
  | cons e l ih =>
    obtain ⟨k', v⟩ := e
    obtain ⟨hk', hl'⟩ := List.pairwise_cons.mp hl
    have hkk : k ≤ k' := hk _ List.mem_cons_self
    rw [groupFrom]
    split
    · exact ih (fun e he => Std.le_trans hkk (hk' e he)) hl' _
    · rename_i hne
      refine List.pairwise_cons.mpr ⟨fun g hg => ?_, ih hk' hl' _⟩
      rcases (mem_groupFrom hk' hl').mp hg with rfl | ⟨-, hm, -⟩
      · exact ⟨hkk, Ne.symm hne⟩
      · obtain ⟨e, he, heq⟩ := List.mem_map.mp hm
        have hle : k' ≤ g.1 := heq ▸ hk' e he
        refine ⟨Std.le_trans hkk hle, ?_⟩
        intro heq'
        rw [← heq'] at hle
        exact hne (Std.le_antisymm hle hkk)

theorem groupRuns_pairwise {l : List (K × V)} (hl : KeyAscending l) :
    (groupRuns l).Pairwise fun a b => a.1 ≤ b.1 ∧ a.1 ≠ b.1 := by
  cases l with
  | nil => exact .nil
  | cons e l =>
    obtain ⟨hk, hl'⟩ := List.pairwise_cons.mp hl
    exact groupFrom_pairwise hk hl' _

/-! ## What is computed from the groups -/

variable {R : Type*} (f : K → List V → R)

def summarize (l : List (K × V)) : List (K × R) := (groupRuns l).map fun g => (g.1, f g.1 g.2)

theorem mem_summarize {l : List (K × V)} (hl : KeyAscending l) {s : K × R} :
    s ∈ summarize f l ↔ s.1 ∈ l.map Prod.fst ∧ s.2 = f s.1 (valuesOf l s.1) := by
  simp only [summarize, List.mem_map, mem_groupRuns hl]
  constructor
  · rintro ⟨g, ⟨hm, hv⟩, rfl⟩
    exact ⟨hm, by rw [hv]⟩
  · rintro ⟨hm, hs⟩
    exact ⟨(s.1, valuesOf l s.1), ⟨hm, rfl⟩, by rw [← hs]⟩

theorem summarize_pairwise {l : List (K × V)} (hl : KeyAscending l) :
    (summarize f l).Pairwise fun a b => a.1 ≤ b.1 ∧ a.1 ≠ b.1 :=
  List.pairwise_map.mpr (groupRuns_pairwise hl)

theorem summarize_nodup {l : List (K × V)} (hl : KeyAscending l) : (summarize f l).Nodup :=
  (summarize_pairwise f hl).imp fun h heq => h.2 (by rw [heq])

variable {f} (hf : ∀ k vs vs', vs.Perm vs' → f k vs = f k vs')

include hf

/-- It does not matter in which order equal keys come. -/
theorem summarize_eq_of_perm {l l' : List (K × V)} (hl : KeyAscending l) (hl' : KeyAscending l') (h : l.Perm l') :
    summarize f l = summarize f l' := by
  have hmem : ∀ s, s ∈ summarize f l ↔ s ∈ summarize f l' := by
    intro s
    rw [mem_summarize f hl, mem_summarize f hl', (h.map Prod.fst).mem_iff, hf _ _ _ (valuesOf_perm h s.1)]
  refine List.Perm.eq_of_pairwise (fun a b ha hb h₁ h₂ => ?_) (summarize_pairwise f hl) (summarize_pairwise f hl')
    ((List.perm_ext_iff_of_nodup (summarize_nodup f hl) (summarize_nodup f hl')).mpr hmem)
  exact absurd (Std.le_antisymm h₁.1 h₂.1) h₁.2

theorem mem_summarize_part {p : K → Nat} {i : Nat} {l l' : List (K × V)} (hl : KeyAscending l)
    (hl' : KeyAscending l') (h : l'.Perm (l.filter fun e => p e.1 = i)) {s : K × R} :
    s ∈ summarize f l' ↔ p s.1 = i ∧ s ∈ summarize f l := by
  rw [mem_summarize f hl', mem_summarize f hl, (h.map Prod.fst).mem_iff, hf _ _ _ (valuesOf_perm h s.1)]
  by_cases hs : p s.1 = i
  · have hvalues : valuesOf (l.filter fun e => p e.1 = i) s.1 = valuesOf l s.1 := by
      simp only [valuesOf, List.filter_filter]
      congr 1
      refine List.filter_congr fun e _ => ?_
      by_cases he : e.1 = s.1 <;> simp [he, hs]
    rw [hvalues]
    simp only [hs, true_and]
    refine and_congr_left fun _ => ?_
    simp only [List.mem_map, List.mem_filter, decide_eq_true_eq]
    constructor
    · rintro ⟨e, ⟨he, -⟩, heq⟩
      exact ⟨e, he, heq⟩
    · rintro ⟨e, he, heq⟩
      exact ⟨e, ⟨he, by rw [heq, hs]⟩, heq⟩
  · simp only [hs, false_and, iff_false, not_and]
    intro hm
    obtain ⟨e, he, heq⟩ := List.mem_map.mp hm
    have := (List.mem_filter.mp he).2
    simp [heq, hs] at this

/-- The results of all parts are, together, those of the whole list. -/
theorem summarize_partition {n : Nat} {p : K → Nat} (hp : ∀ k, p k < n) {l : List (K × V)}
    {ls : Nat → List (K × V)} (hl : KeyAscending l) (hls : ∀ i, KeyAscending (ls i))
    (h : ∀ i < n, (ls i).Perm (l.filter fun e => p e.1 = i)) :
    ((List.range n).flatMap fun i => summarize f (ls i)).Perm (summarize f l) := by
  have hmem : ∀ i < n, ∀ s : K × R, s ∈ summarize f (ls i) ↔ p s.1 = i ∧ s ∈ summarize f l :=
    fun i hi s => mem_summarize_part hf hl (hls i) (h i hi)
  refine (List.perm_ext_iff_of_nodup ?_ (summarize_nodup f hl)).mpr fun s => ?_
  · refine List.nodup_flatMap.mpr ⟨fun i _ => summarize_nodup f (hls i), ?_⟩
    refine (List.pairwise_lt_range).imp_of_mem fun {i j} hi hj hij => List.disjoint_left.mpr fun s hs hs' => ?_
    have hpi := ((hmem i (List.mem_range.mp hi) s).mp hs).1
    have hpj := ((hmem j (List.mem_range.mp hj) s).mp hs').1
    omega
  · simp only [List.mem_flatMap, List.mem_range]
    constructor
    · rintro ⟨i, hi, hs⟩
      exact ((hmem i hi s).mp hs).2
    · intro hs
      exact ⟨p s.1, hp s.1, (hmem _ (hp s.1) s).mpr ⟨rfl, hs⟩⟩

end

end DistLab
