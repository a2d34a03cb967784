import DistLab.Kv.Store
import DistLab.Lib.GoMap
import DistLab.Lib.Merge
import DistLab.Porcupine.Checker
import Mathlib.Algebra.Order.Group.Int
import Mathlib.Data.List.Induction
import Mathlib.Data.List.Sort

/-!
# One key at a time

`models.KvModel` splits a history by key and describes a single key. A model of
one key gives a model of all keys, and a history is linearizable for all keys if
its part of each key is linearizable.
-/

namespace DistLab

/-! ## Histories split by key -/

section
variable {St In Out K : Type} [DecidableEq K]

/-- One state for each key. No two states are taken for the same. -/
def CheckModel.byKey (M : CheckModel St In Out) (key : In → K) : CheckModel (K → St) In Out where
  init _ := M.init
  step m x y := ((M.step (m (key x)) x y).1, Function.update m (key x) (M.step (m (key x)) x y).2)
  equal _ _ := false

variable {M : CheckModel St In Out} {key : In → K}

/-- An order is accepted if the part of each key is. -/
theorem CheckModel.accepts_byKey {m : K → St} {l : List (Operation In Out)} :
    (M.byKey key).Accepts m l ↔ ∀ k, M.Accepts (m k) (l.filter fun op => key op.input = k) := by
  induction l generalizing m with
  | nil => simp [Accepts]
  | cons op l ih =>
    simp only [Accepts, ih]
    have hother : ∀ k, k ≠ key op.input → (op :: l).filter (fun op => key op.input = k) =
        l.filter fun op => key op.input = k := fun k hk => List.filter_cons_of_neg (by simpa using Ne.symm hk)
    constructor
    · rintro ⟨hok, hl⟩ k
      by_cases hk : k = key op.input
      · subst hk
        rw [List.filter_cons_of_pos (by simp)]
        have := hl (key op.input)
        simp only [byKey, Function.update_self] at this
        exact ⟨hok, this⟩
      · rw [hother k hk]
        have := hl k
        simp only [byKey, Function.update_of_ne hk] at this
        exact this
    · intro hall
      have hkey := hall (key op.input)
      rw [List.filter_cons_of_pos (by simp)] at hkey
      refine ⟨hkey.1, fun k => ?_⟩
      by_cases hk : k = key op.input
      · subst hk
        simp only [byKey, Function.update_self]
        exact hkey.2
      · simp only [byKey, Function.update_of_ne hk]
        have := hall k
        rwa [hother k hk] at this

/-- A history is linearizable if and only if its part of each key is. -/
theorem CheckModel.linearizable_byKey {history : List (Operation In Out)} (hcr : ∀ op ∈ history, op.call ≤ op.ret) :
    (M.byKey key).Linearizable history ↔ ∀ k, M.Linearizable (history.filter fun op => key op.input = k) := by
  constructor
  · rintro ⟨l, hperm, hacc, hrt⟩ k
    exact ⟨_, hperm.filter _, accepts_byKey.mp hacc k, hrt.filter _⟩
  · intro hall
    choose L hperm hacc hrt using hall
    obtain ⟨l, hl, hlk, hlrt⟩ := exists_merge hcr L hperm hrt
    exact ⟨l, hl, accepts_byKey.mpr fun k => by rw [hlk]; exact hacc k, hlrt⟩

end

/-! ## KvModel -/

/-- `Init`, `Step` and the default `Equal` of `models.KvModel`. The output of a
write is not looked at. -/
def kvCheckModel : CheckModel GoString KvInput GoString where
  init := []
  step st inp out :=
    match inp.opType with
    | .get => (out == st, st)
    | .put => (true, inp.value)
    | .append => (true, st ++ inp.value)
  equal s t := s == t

theorem kvCheckModel_lawful : kvCheckModel.Lawful := by
  intro s t hst x y
  obtain rfl : s = t := by simpa [kvCheckModel] using hst
  exact ⟨rfl, by simp [kvCheckModel]⟩

def kvGroups (history : List (Operation KvInput GoString)) : GoMap GoString (List (Operation KvInput GoString)) :=
  history.foldl (fun m v => m.insert v.input.key ((m.get? v.input.key).getD [] ++ [v])) GoMap.empty

def kvPartition (history : List (Operation KvInput GoString)) : List (List (Operation KvInput GoString)) :=
  let m := kvGroups history
  (m.keys.insertionSort (· ≤ ·)).map fun k => (m.get? k).getD []

theorem kvGroups_snoc (history : List (Operation KvInput GoString)) (op : Operation KvInput GoString) :
    kvGroups (history ++ [op]) =
      (kvGroups history).insert op.input.key (((kvGroups history).get? op.input.key).getD [] ++ [op]) :=
  List.foldl_append

theorem kvGroups_get (history : List (Operation KvInput GoString)) (k : GoString) :
    ((kvGroups history).get? k).getD [] = history.filter fun op => op.input.key = k := by
  induction history using List.reverseRecOn with
  | nil => rfl
  | append_singleton history op ih =>
    rw [kvGroups_snoc, List.filter_append]
    by_cases hk : k = op.input.key
    · subst hk
      rw [GoMap.get?_insert_self, Option.getD_some, ih]
      simp
    · rw [GoMap.get?_insert_of_ne hk, ih]
      simp [Ne.symm hk]

theorem kvGroups_keys (history : List (Operation KvInput GoString)) (k : GoString) :
    k ∈ (kvGroups history).keys ↔ ∃ op ∈ history, op.input.key = k := by
  induction history using List.reverseRecOn with
  | nil => simp [kvGroups, GoMap.empty, GoMap.keys]
  | append_singleton history op ih =>
    rw [kvGroups_snoc, GoMap.mem_keys_insert, ih]
    simp only [List.mem_append, List.mem_singleton, or_and_right, exists_or, exists_eq_left]
    rw [eq_comm (a := k)]

theorem mem_kvPartition {history part : List (Operation KvInput GoString)} : part ∈ kvPartition history ↔
    ∃ k, (∃ op ∈ history, op.input.key = k) ∧ part = history.filter fun op => op.input.key = k := by
  simp only [kvPartition, List.mem_map, List.mem_insertionSort, kvGroups_keys, kvGroups_get]
  constructor
  · rintro ⟨k, hk, rfl⟩
    exact ⟨k, hk, rfl⟩
  · rintro ⟨k, hk, rfl⟩
    exact ⟨k, hk, rfl⟩

/-- A history of the map is linearizable if and only if each part is. -/
theorem kvPartition_linearizable {history : List (Operation KvInput GoString)} (hcr : ∀ op ∈ history, op.call ≤ op.ret) :
    (kvCheckModel.byKey KvInput.key).Linearizable history ↔
      ∀ part ∈ kvPartition history, kvCheckModel.Linearizable part := by
  rw [CheckModel.linearizable_byKey hcr]
  constructor
  · intro hall part hpart
    obtain ⟨k, -, rfl⟩ := mem_kvPartition.mp hpart
    exact hall k
  · intro hall k
    by_cases hk : ∃ op ∈ history, op.input.key = k
    · exact hall _ (mem_kvPartition.mpr ⟨k, hk, rfl⟩)
    · have hnil : (history.filter fun op => op.input.key = k) = [] := by
        rw [List.filter_eq_nil_iff]
        intro op hop hkey
        exact hk ⟨op, hop, by simpa using hkey⟩
      rw [hnil]
      exact ⟨[], .nil, trivial, List.Pairwise.nil⟩

end DistLab
