import DistLab.Lib.Linear
import DistLab.Lib.Merge
import Mathlib.Data.Fintype.Basic
import Mathlib.Data.List.Dedup

/-!
# Objects made of parts

The operations of an object fall into classes, and each class works on a part of
the state that is its own. When the history of every class has a linearization,
the whole history has one: the operations of all classes are merged so that none
stands before one that returned before it was invoked.
-/

namespace DistLab

section
variable {κ Id In Out St : Type*}

/-- `agree i s t` says that the part of class `i` is the same in both states. -/
structure Object.Splits (O : Object St In Out) (cls : In → κ) (agree : κ → St → St → Prop) : Prop where
  refl : ∀ i s, agree i s s
  own : ∀ s t x, agree (cls x) s t →
    (O.step s x).2 = (O.step t x).2 ∧ agree (cls x) (O.step s x).1 (O.step t x).1
  other : ∀ i s t x, cls x ≠ i → agree i s t → agree i (O.step s x).1 t

theorem Object.Splits.legal [DecidableEq κ] {O : Object St In Out} {cls : In → κ} {agree : κ → St → St → Prop}
    (h : O.Splits cls agree) {l : List (Done Id In Out)} {s : St}
    (hl : ∀ i, ∃ t, agree i s t ∧ O.Legal t (l.filter fun d => cls d.input = i)) : O.Legal s l := by
  induction l generalizing s with
  | nil => trivial
  | cons d l ih =>
    obtain ⟨t, hst, ht⟩ := hl (cls d.input)
    rw [List.filter_cons_of_pos (by simp)] at ht
    obtain ⟨hans, hnext⟩ := h.own s t d.input hst
    refine ⟨hans.trans ht.1, ih fun i => ?_⟩
    by_cases hi : cls d.input = i
    · subst hi
      exact ⟨_, hnext, ht.2⟩
    · obtain ⟨u, hsu, hu⟩ := hl i
      rw [List.filter_cons_of_neg (by simpa using hi)] at hu
      exact ⟨u, h.other i s u d.input hi hsu, hu⟩

/-- `evOn i` is the history of class `i`. Every operation is invoked once and
returns once, after its invocation. -/
structure ClassHistories (cls : In → κ) (ev : ℕ → Option (Event Id In Out))
    (evOn : κ → ℕ → Option (Event Id In Out)) : Prop where
  invoke : ∀ i k id x, evOn i k = some (.invoke id x) ↔ ev k = some (.invoke id x) ∧ cls x = i
  ret : ∀ k id y, ev k = some (.ret id y) ↔ ∃ i, evOn i k = some (.ret id y)
  invokes : ∀ j k id x y, ev j = some (.invoke id x) → ev k = some (.invoke id y) → j = k
  returns : ∀ j k id y z, ev j = some (.ret id y) → ev k = some (.ret id z) → j = k
  late : ∀ k id y, ev k = some (.ret id y) → ∃ j < k, ∃ x, ev j = some (.invoke id x)

end

/-! ## Positions -/

open Classical in
noncomputable def place (P : ℕ → Prop) (K : ℕ) : ℕ := if h : ∃ k, P k then h.choose else K

theorem place_eq {P : ℕ → Prop} (hP : ∀ j k, P j → P k → j = k) {k : ℕ} (h : P k) (K : ℕ) : place P K = k := by
  have hex : ∃ k, P k := ⟨k, h⟩
  rw [place, dif_pos hex]
  exact hP _ _ hex.choose_spec h

theorem place_none {P : ℕ → Prop} (h : ¬ ∃ k, P k) (K : ℕ) : place P K = K := dif_neg h

section
variable {Id In Out : Type*} (ev : ℕ → Option (Event Id In Out)) (K : ℕ) (d : Done Id In Out)

noncomputable def begins : ℕ := place (fun k => ∃ x, ev k = some (.invoke d.id x)) K

/-- Operations that have not returned end at `K`. -/
noncomputable def ends : ℕ := place (fun k => ∃ y, ev k = some (.ret d.id y)) K

end

theorem not_sublist_swap {α : Type*} {l : List α} (hl : l.Nodup) {a b : α} (h : [a, b].Sublist l)
    (h' : [b, a].Sublist l) : False := by
  induction l with
  | nil => cases h
  | cons x l ih =>
    rw [List.nodup_cons] at hl
    cases h with
    | cons _ h =>
      cases h' with
      | cons _ h' => exact ih hl.2 h h'
      | cons_cons _ h' => exact hl.1 (h.subset (by simp))
    | cons_cons _ h =>
      cases h' with
      | cons _ h' => exact hl.1 (h'.subset (by simp))
      | cons_cons _ h' => exact hl.1 (h.subset (by simp))

theorem sublist_or_swap {α : Type*} {l : List α} {a b : α} (ha : a ∈ l) (hb : b ∈ l) (hne : a ≠ b) :
    [a, b].Sublist l ∨ [b, a].Sublist l := by
  induction l with
  | nil => cases ha
  | cons x l ih =>
    rcases List.mem_cons.mp ha with rfl | hal
    · have hbl := (List.mem_cons.mp hb).resolve_left hne.symm
      exact Or.inl ((List.singleton_sublist.mpr hbl).cons_cons a)
    · rcases List.mem_cons.mp hb with rfl | hbl
      · exact Or.inr ((List.singleton_sublist.mpr hal).cons_cons b)
      · exact (ih hal hbl).imp (List.Sublist.cons x) (List.Sublist.cons x)

/-! ## Merging linearizations -/

namespace ClassHistories

section
variable {κ Id In Out St : Type*} {O : Object St In Out} {cls : In → κ} {ev : ℕ → Option (Event Id In Out)}
  {evOn : κ → ℕ → Option (Event Id In Out)} {K : ℕ} {L : κ → List (Done Id In Out)}
  (h : ClassHistories cls ev evOn) (hL : ∀ i, Linearization O (evOn i) K (L i))

include h hL

theorem invoked {i : κ} {d : Done Id In Out} (hd : d ∈ L i) :
    cls d.input = i ∧ ∃ k < K, ev k = some (.invoke d.id d.input) := by
  obtain ⟨k, hk, he⟩ := (hL i).invoked d hd
  obtain ⟨he, hc⟩ := (h.invoke i k _ _).mp he
  exact ⟨hc, k, hk, he⟩

theorem same {i j : κ} {d e : Done Id In Out} (hd : d ∈ L i) (he : e ∈ L j) (hid : d.id = e.id) : d = e := by
  obtain ⟨hi, m, -, hm⟩ := h.invoked hL hd
  obtain ⟨hj, n, -, hn⟩ := h.invoked hL he
  rw [← hid] at hn
  obtain rfl := h.invokes m n _ _ _ hm hn
  have hin : d.input = e.input := by
    rw [hm] at hn
    exact (Event.invoke.inj (Option.some.inj hn)).2
  obtain rfl : i = j := by rw [← hi, ← hj, hin]
  exact List.inj_on_of_nodup_map (hL i).nodup hd he hid

theorem returned {k : ℕ} (hk : k < K) {id : Id} {y : Out} (hret : ev k = some (.ret id y)) :
    ∃ i, evOn i k = some (.ret id y) ∧ ∃ d ∈ L i, d.id = id ∧ d.output = y := by
  obtain ⟨i, hi⟩ := (h.ret k id y).mp hret
  exact ⟨i, hi, (hL i).complete k hk id y hi⟩

omit hL in
theorem begins_eq {k : ℕ} {d : Done Id In Out} {x : In} (hinv : ev k = some (.invoke d.id x)) : begins ev K d = k := by
  refine place_eq ?_ ⟨x, hinv⟩ K
  rintro j k ⟨x, hj⟩ ⟨y, hk⟩
  exact h.invokes j k _ _ _ hj hk

omit hL in
theorem ends_eq {k : ℕ} {d : Done Id In Out} {y : Out} (hret : ev k = some (.ret d.id y)) : ends ev K d = k := by
  refine place_eq ?_ ⟨y, hret⟩ K
  rintro j k ⟨y, hj⟩ ⟨z, hk⟩
  exact h.returns j k _ _ _ hj hk

theorem begins_lt {i : κ} {d : Done Id In Out} (hd : d ∈ L i) : begins ev K d < K := by
  obtain ⟨-, k, hk, hinv⟩ := h.invoked hL hd
  rw [h.begins_eq hinv]
  exact hk

theorem begins_le_ends {i : κ} {a b : Done Id In Out} (ha : a ∈ L i)
    (hb : ∀ k y, ev k = some (.ret b.id y) → begins ev K a ≤ k) : begins ev K a ≤ ends ev K b := by
  by_cases hex : ∃ k, ∃ y, ev k = some (.ret b.id y)
  · obtain ⟨k, y, hret⟩ := hex
    rw [h.ends_eq hret]
    exact hb k y hret
  · rw [ends, place_none hex]
    exact (h.begins_lt hL ha).le

theorem pairwise (i : κ) : (L i).Pairwise fun a b => begins ev K a ≤ ends ev K b := by
  rw [List.pairwise_iff_forall_sublist]
  intro a b hab
  have ha : a ∈ L i := hab.subset (by simp)
  have hb : b ∈ L i := hab.subset (by simp)
  obtain ⟨hai, k, hk, hinv⟩ := h.invoked hL ha
  refine h.begins_le_ends hL ha fun j y hret => ?_
  rw [h.begins_eq hinv]
  by_contra hlt
  have hjk : j < k := Nat.lt_of_not_le hlt
  obtain ⟨i', hreti, d, hd, hid, -⟩ := h.returned hL (hjk.trans hk) hret
  obtain rfl := h.same hL hd hb hid
  obtain rfl : i' = i := (h.invoked hL hd).1.symm.trans (h.invoked hL hb).1
  obtain ⟨e, he, hide, hba⟩ := (hL i').realtime j k hjk hk _ _ _ _ hreti ((h.invoke i' k _ _).mpr ⟨hinv, hai⟩) a ha rfl
  obtain rfl := h.same hL he hb hide
  exact not_sublist_swap (List.Nodup.of_map _ (hL i').nodup) hab hba

/-- A merge of the lists that puts no operation before one that returned before
it was invoked is a linearization. -/
theorem linearization_of_merge [DecidableEq κ] {agree : κ → St → St → Prop} (hO : O.Splits cls agree)
    {m : List (Done Id In Out)} (hnodup : (m.map Done.id).Nodup)
    (hm : ∀ i, (m.filter fun d => cls d.input = i) = L i)
    (hpw : m.Pairwise fun a b => begins ev K a ≤ ends ev K b) : Linearization O ev K m := by
  have hmem : ∀ d, d ∈ m ↔ ∃ i, d ∈ L i := by
    intro d
    constructor
    · intro hd
      exact ⟨cls d.input, by rw [← hm]; exact List.mem_filter.mpr ⟨hd, by simp⟩⟩
    · rintro ⟨i, hd⟩
      rw [← hm] at hd
      exact List.mem_of_mem_filter hd
  refine ⟨hnodup, fun d hd => ?_, fun k hk id y hret => ?_, ?_, ?_⟩
  · obtain ⟨i, hd⟩ := (hmem d).mp hd
    exact (h.invoked hL hd).2
  · obtain ⟨i, -, d, hd, hid, hy⟩ := h.returned hL hk hret
    exact ⟨d, (hmem d).mpr ⟨i, hd⟩, hid, hy⟩
  · exact hO.legal fun i => ⟨O.init, hO.refl i _, by rw [hm]; exact (hL i).legal⟩
  · intro j k hjk hk a y b x hret hinv e he hid
    subst hid
    obtain ⟨i, -, d, hd, rfl, -⟩ := h.returned hL (hjk.trans hk) hret
    have hdm : d ∈ m := (hmem d).mpr ⟨i, hd⟩
    refine ⟨d, hdm, rfl, (sublist_or_swap hdm he ?_).resolve_right fun hed => ?_⟩
    · -- an operation returns after its own invocation
      rintro rfl
      obtain ⟨i, hij, x', hx'⟩ := h.late j _ _ hret
      have := h.invokes i k _ _ _ hx' hinv
      omega
    · have hle := List.pairwise_iff_forall_sublist.mp hpw hed
      rw [h.begins_eq hinv, h.ends_eq hret] at hle
      omega

theorem exists_linearization [Fintype κ] [DecidableEq κ] {agree : κ → St → St → Prop} (hO : O.Splits cls agree) :
    ∃ l, Linearization O ev K l := by
  have hmem : ∀ d, d ∈ Finset.univ.toList.flatMap L ↔ ∃ i, d ∈ L i := by simp
  have hids : ((Finset.univ.toList.flatMap L).map Done.id).Nodup := by
    rw [List.map_flatMap, List.nodup_flatMap]
    refine ⟨fun i _ => (hL i).nodup, (Finset.nodup_toList _).imp fun {i j} hij id hi hj => ?_⟩
    obtain ⟨d, hd, rfl⟩ := List.mem_map.mp hi
    obtain ⟨e, he, hid⟩ := List.mem_map.mp hj
    obtain rfl := h.same hL he hd hid
    exact hij ((h.invoked hL hd).1.symm.trans (h.invoked hL he).1)
  have hnodup : (Finset.univ.toList.flatMap L).Nodup := List.Nodup.of_map _ hids
  have hwf : ∀ d ∈ Finset.univ.toList.flatMap L, begins ev K d ≤ ends ev K d := by
    intro d hd
    obtain ⟨i, hd⟩ := (hmem d).mp hd
    refine h.begins_le_ends hL hd fun k y hret => ?_
    obtain ⟨n, hn, x, hx⟩ := h.late k _ _ hret
    rw [h.begins_eq hx]
    exact hn.le
  have hperm : ∀ i, (L i).Perm ((Finset.univ.toList.flatMap L).filter fun d => cls d.input = i) := by
    intro i
    rw [List.perm_ext_iff_of_nodup (List.Nodup.of_map _ (hL i).nodup) (hnodup.filter _)]
    intro d
    rw [List.mem_filter, hmem]
    constructor
    · intro hd
      exact ⟨⟨i, hd⟩, by simpa using (h.invoked hL hd).1⟩
    · rintro ⟨⟨j, hd⟩, hc⟩
      obtain rfl : j = i := (h.invoked hL hd).1.symm.trans (by simpa using hc)
      exact hd
  obtain ⟨m, hall, hm, hpw⟩ := exists_merge hwf L hperm (h.pairwise hL)
  exact ⟨m, h.linearization_of_merge hL hO ((hall.map Done.id).nodup_iff.mpr hids) hm hpw⟩

end

end ClassHistories

end DistLab
