import Mathlib.Data.List.Nodup

/-!
# Finite maps with an order of iteration

A Go map is a finite map whose `range` visits every key once, in an order the
program cannot rely on. Here the entries are a list without a repeated key, and
the order of the list is the order of iteration.
-/

namespace DistLab

structure GoMap (K V : Type*) where
  entries : List (K × V)
  nodup : (entries.map Prod.fst).Nodup

namespace GoMap

variable {K V : Type*}

def empty : GoMap K V := ⟨[], List.nodup_nil⟩

def keys (m : GoMap K V) : List K := m.entries.map Prod.fst

def size (m : GoMap K V) : Nat := m.entries.length

variable [DecidableEq K]

def get? (m : GoMap K V) (k : K) : Option V := (m.entries.find? fun e => e.1 = k).map Prod.snd

def delete (m : GoMap K V) (k : K) : GoMap K V where
  entries := m.entries.filter fun e => e.1 ≠ k
  nodup := m.nodup.sublist (List.filter_sublist.map Prod.fst)

theorem not_mem_delete (m : GoMap K V) (k : K) : k ∉ (m.delete k).entries.map Prod.fst := by
  intro h
  obtain ⟨e, he, rfl⟩ := List.mem_map.mp h
  have := (List.mem_filter.mp he).2
  simp at this

def insert (m : GoMap K V) (k : K) (v : V) : GoMap K V where
  entries := (m.delete k).entries ++ [(k, v)]
  nodup := by
    rw [List.map_append, List.map_singleton]
    refine List.nodup_append.mpr ⟨(m.delete k).nodup, List.nodup_singleton k, fun a ha b hb => ?_⟩
    rw [List.mem_singleton.mp hb]
    rintro rfl
    exact m.not_mem_delete a ha

theorem mem_keys_delete {m : GoMap K V} {k k' : K} : k' ∈ (m.delete k).keys ↔ k' ∈ m.keys ∧ k' ≠ k := by
  simp only [keys, delete, List.mem_map, List.mem_filter, decide_eq_true_eq]
  constructor
  · rintro ⟨e, ⟨he, hne⟩, rfl⟩
    exact ⟨⟨e, he, rfl⟩, hne⟩
  · rintro ⟨⟨e, he, rfl⟩, hne⟩
    exact ⟨e, ⟨he, hne⟩, rfl⟩

theorem mem_keys_insert {m : GoMap K V} {k k' : K} {v : V} : k' ∈ (m.insert k v).keys ↔ k' ∈ m.keys ∨ k' = k := by
  have hkeys : (m.insert k v).keys = (m.delete k).keys ++ [k] := by simp [keys, insert]
  rw [hkeys, List.mem_append, List.mem_singleton, mem_keys_delete]
  by_cases h : k' = k
  · simp [h]
  · simp [h]

theorem mem_keys_deletes {m : GoMap K V} {ks : List K} {k : K} :
    k ∈ (ks.foldl delete m).keys ↔ k ∈ m.keys ∧ k ∉ ks := by
  induction ks generalizing m with
  | nil => simp
  | cons k' ks ih =>
    rw [List.foldl_cons, ih, mem_keys_delete, List.mem_cons, not_or, and_assoc]

theorem mem_keys_inserts {m : GoMap K V} {es : List (K × V)} {k : K} :
    k ∈ (es.foldl (fun m e => m.insert e.1 e.2) m).keys ↔ k ∈ m.keys ∨ k ∈ es.map Prod.fst := by
  induction es generalizing m with
  | nil => simp
  | cons e es ih =>
    rw [List.foldl_cons, ih, mem_keys_insert, List.map_cons, List.mem_cons, or_assoc]

theorem get?_eq_none {m : GoMap K V} {k : K} : m.get? k = none ↔ k ∉ m.keys := by
  simp only [get?, keys, Option.map_eq_none_iff, List.find?_eq_none, decide_eq_true_eq, List.mem_map, not_exists, not_and]

theorem get?_isSome {m : GoMap K V} {k : K} : (m.get? k).isSome = true ↔ k ∈ m.keys := by
  rw [← not_iff_not, Option.not_isSome_iff_eq_none, get?_eq_none]

@[simp] theorem get?_delete_self (m : GoMap K V) (k : K) : (m.delete k).get? k = none :=
  get?_eq_none.mpr (m.not_mem_delete k)

theorem get?_delete_of_ne {m : GoMap K V} {k k' : K} (h : k' ≠ k) : (m.delete k).get? k' = m.get? k' := by
  rw [get?, delete, List.find?_filter, get?]
  congr 2
  funext e
  by_cases he : e.1 = k' <;> simp [he, h]

@[simp] theorem get?_insert_self (m : GoMap K V) (k : K) (v : V) : (m.insert k v).get? k = some v := by
  have hnone : (m.delete k).entries.find? (fun e => e.1 = k) = none :=
    Option.map_eq_none_iff.mp (m.get?_delete_self k)
  simp [get?, insert, List.find?_append, hnone]

theorem get?_insert_of_ne {m : GoMap K V} {k k' : K} (h : k' ≠ k) (v : V) : (m.insert k v).get? k' = m.get? k' := by
  have hold : (m.delete k).get? k' = m.get? k' := get?_delete_of_ne h
  rw [← hold]
  simp [get?, insert, List.find?_append, Ne.symm h]

theorem get?_inserts_of_not_mem {es : List (K × V)} {k : K} (h : k ∉ es.map Prod.fst) (m : GoMap K V) :
    (es.foldl (fun m e => m.insert e.1 e.2) m).get? k = m.get? k := by
  induction es generalizing m with
  | nil => rfl
  | cons e es ih =>
    rw [List.map_cons, List.mem_cons, not_or] at h
    rw [List.foldl_cons, ih h.2, get?_insert_of_ne h.1]

theorem get?_inserts_of_mem {es : List (K × V)} {k : K} {v : V} (h : (k, v) ∈ es) (hu : ∀ v', (k, v') ∈ es → v' = v)
    (m : GoMap K V) : (es.foldl (fun m e => m.insert e.1 e.2) m).get? k = some v := by
  induction es generalizing m with
  | nil => cases h
  | cons e es ih =>
    rw [List.foldl_cons]
    by_cases hk : k ∈ es.map Prod.fst
    · obtain ⟨⟨k', v'⟩, hmem, rfl⟩ := List.mem_map.mp hk
      obtain rfl := hu v' (List.mem_cons_of_mem _ hmem)
      exact ih hmem (fun v'' hv => hu v'' (List.mem_cons_of_mem _ hv)) _
    · rcases List.mem_cons.mp h with rfl | hmem
      · rw [get?_inserts_of_not_mem hk, get?_insert_self]
      · exact absurd (List.mem_map.mpr ⟨_, hmem, rfl⟩) hk

/-! ## The order of iteration -/

theorem get?_eq_some {m : GoMap K V} {k : K} {v : V} : m.get? k = some v ↔ (k, v) ∈ m.entries := by
  rw [get?, Option.map_eq_some_iff]
  constructor
  · rintro ⟨e, he, rfl⟩
    have hkey : e.1 = k := by simpa using List.find?_some he
    rw [← hkey]
    exact List.mem_of_find?_eq_some he
  · intro hmem
    cases he : m.entries.find? fun e => e.1 = k with
    | none =>
      have := List.find?_eq_none.mp he (k, v) hmem
      simp at this
    | some e =>
      have hkey : e.1 = k := by simpa using List.find?_some he
      exact ⟨e, rfl, congrArg Prod.snd (List.inj_on_of_nodup_map m.nodup (List.mem_of_find?_eq_some he) hmem hkey)⟩

/-- Equality as Go has it: the same values at the same keys. -/
def Same (m m' : GoMap K V) : Prop := ∀ k, m.get? k = m'.get? k

theorem Same.keys_perm {m m' : GoMap K V} (h : m.Same m') : m.keys.Perm m'.keys := by
  refine (List.perm_ext_iff_of_nodup m.nodup m'.nodup).mpr fun k => ?_
  rw [← keys, ← keys, ← get?_isSome, ← get?_isSome, h k]

theorem get?_inserts {m' : GoMap K V} {es : List (K × V)} (h : es.Perm m'.entries) (m : GoMap K V) (k : K) :
    (es.foldl (fun m e => m.insert e.1 e.2) m).get? k = (m'.get? k).or (m.get? k) := by
  cases hk : m'.get? k with
  | none =>
    rw [get?_eq_none, keys] at hk
    rw [get?_inserts_of_not_mem (fun hmem => hk ((h.map Prod.fst).mem_iff.mp hmem)), Option.none_or]
  | some v =>
    refine get?_inserts_of_mem (h.mem_iff.mpr (get?_eq_some.mp hk)) (fun v' hv' => ?_) m
    have hv := get?_eq_some.mpr (h.mem_iff.mp hv')
    rw [hk] at hv
    exact (Option.some.inj hv).symm

theorem get?_deletes (m : GoMap K V) (ks : List K) (k : K) :
    (ks.foldl delete m).get? k = if k ∈ ks then none else m.get? k := by
  induction ks generalizing m with
  | nil => simp
  | cons k' ks ih =>
    rw [List.foldl_cons, ih]
    by_cases hk : k = k'
    · simp [hk]
    · simp [hk, get?_delete_of_ne]

end GoMap

structure RangeOrder (α : Type*) where
  visit : List α → List α
  perm : ∀ l, (visit l).Perm l

end DistLab
