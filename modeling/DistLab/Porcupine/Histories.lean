import DistLab.Porcupine.Choices
import Mathlib.Data.List.Induction
import Mathlib.Data.List.Perm.Basic

/-!
# Entries of a history

However `sort.Sort` orders entries of the same kind and time, every operation has
one call and one return, in this order if it did not return before it was called,
and a call stands before a return exactly if it is not later.
-/

namespace DistLab

section
variable {St In Out : Type} {history : List (Operation In Out)} {entries : List (Entry In Out)}

def Entry.key (e : Entry In Out) : Nat × Bool := (e.id, e.isCall)

theorem mem_rawEntries {e : Entry In Out} : e ∈ rawEntries history ↔
    ∃ i op, history[i]? = some op ∧ (e = ⟨.call op.input, i, op.call⟩ ∨ e = ⟨.ret op.output, i, op.ret⟩) := by
  simp only [rawEntries, List.mem_flatMap, List.mem_cons, List.not_mem_nil, or_false]
  constructor
  · rintro ⟨⟨op, i⟩, hm, he⟩
    exact ⟨i, op, List.mem_zipIdx_iff_getElem?.mp hm, he⟩
  · rintro ⟨i, op, hop, he⟩
    exact ⟨(op, i), List.mem_zipIdx_iff_getElem?.mpr hop, he⟩

theorem rawEntries_snoc (history : List (Operation In Out)) (op : Operation In Out) :
    rawEntries (history ++ [op]) = rawEntries history ++
      [⟨.call op.input, history.length, op.call⟩, ⟨.ret op.output, history.length, op.ret⟩] := by
  simp [rawEntries, List.zipIdx_append, List.flatMap_append]

theorem nodup_rawEntries (history : List (Operation In Out)) : ((rawEntries history).map Entry.key).Nodup := by
  induction history using List.reverseRecOn with
  | nil => exact List.nodup_nil
  | append_singleton history op ih =>
    rw [rawEntries_snoc, List.map_append, List.nodup_append]
    refine ⟨ih, by simp [Entry.key, Entry.isCall], fun k hk k' hk' he => ?_⟩
    obtain ⟨e, hm, rfl⟩ := List.mem_map.mp hk
    obtain ⟨i, op', hop, hcase⟩ := mem_rawEntries.mp hm
    have hi := (List.getElem?_eq_some_iff.mp hop).1
    have hid : e.id = i := by rcases hcase with rfl | rfl <;> rfl
    have hlast : k'.1 = history.length := by
      simp only [List.map_cons, List.map_nil, List.mem_cons, List.not_mem_nil, or_false] at hk'
      rcases hk' with rfl | rfl <;> rfl
    rw [← he] at hlast
    have hfst : e.id = history.length := hlast
    omega

theorem Entry.less_eq_false {a b : Entry In Out} : a.less b = false ↔
    b.time < a.time ∨ a.time = b.time ∧ (a.isCall = true → b.isCall = true) := by
  unfold less
  split
  · rename_i hne
    simp only [decide_eq_false_iff_not]
    omega
  · rename_i heq
    rw [not_not] at heq
    simp [heq]

/-- A stable sort is one of the orders that `sort.Sort` may give. -/
theorem makeEntries_makes (history : List (Operation In Out)) : MakesEntries history (makeEntries history) := by
  have htrans : ∀ a b c : Entry In Out, (!b.less a) = true → (!c.less b) = true → (!c.less a) = true := by
    intro a b c hab hbc
    rw [Bool.not_eq_true', Entry.less_eq_false] at hab hbc ⊢
    rcases hab with hab | ⟨hab, hcall⟩ <;> rcases hbc with hbc | ⟨hbc, hcall'⟩
    · exact Or.inl (by omega)
    · exact Or.inl (by omega)
    · exact Or.inl (by omega)
    · exact Or.inr ⟨hbc.trans hab, fun hc => hcall (hcall' hc)⟩
  have htotal : ∀ a b : Entry In Out, (!b.less a || !a.less b) = true := by
    intro a b
    rw [Bool.or_eq_true, Bool.not_eq_true', Bool.not_eq_true', Entry.less_eq_false, Entry.less_eq_false]
    rcases Int.lt_trichotomy a.time b.time with hlt | heq | hlt
    · exact Or.inl (Or.inl hlt)
    · cases hb : b.isCall with
      | false => exact Or.inl (Or.inr ⟨heq.symm, fun h => by cases h⟩)
      | true => exact Or.inr (Or.inr ⟨heq, fun _ => rfl⟩)
    · exact Or.inr (Or.inl hlt)
  exact ⟨List.mergeSort_perm _ _, (List.pairwise_mergeSort htrans htotal (rawEntries history)).imp fun h => by
    simpa using h⟩

namespace MakesEntries

variable (h : MakesEntries history entries)
include h

theorem nodup : (entries.map Entry.key).Nodup := (h.perm.map Entry.key).nodup_iff.mpr (nodup_rawEntries history)

theorem pos_inj {a b : Nat} {e f : Entry In Out} (ha : entries[a]? = some e) (hb : entries[b]? = some f)
    (hk : e.key = f.key) : a = b := by
  have hlt : a < (entries.map Entry.key).length := by
    rw [List.length_map]
    exact (List.getElem?_eq_some_iff.mp ha).1
  refine (List.getElem?_inj hlt h.nodup).mp ?_
  rw [List.getElem?_map, List.getElem?_map, ha, hb, Option.map_some, Option.map_some, hk]

theorem exists_pos {i : Nat} {op : Operation In Out} (hop : history[i]? = some op) :
    ∃ p q : Nat, entries[p]? = some ⟨.call op.input, i, op.call⟩ ∧ entries[q]? = some ⟨.ret op.output, i, op.ret⟩ := by
  have hcall := h.perm.mem_iff.mpr (mem_rawEntries.mpr ⟨i, op, hop, Or.inl rfl⟩)
  have hret := h.perm.mem_iff.mpr (mem_rawEntries.mpr ⟨i, op, hop, Or.inr rfl⟩)
  obtain ⟨p, hp⟩ := List.getElem?_of_mem hcall
  obtain ⟨q, hq⟩ := List.getElem?_of_mem hret
  exact ⟨p, q, hp, hq⟩

theorem lt_iff {p q i j : Nat} {x : In} {y : Out} {s t : Int} (hp : entries[p]? = some ⟨.call x, i, s⟩)
    (hq : entries[q]? = some ⟨.ret y, j, t⟩) : p < q ↔ s ≤ t := by
  have sorted : ∀ {a b : Nat} {e f : Entry In Out}, entries[a]? = some e → entries[b]? = some f → a < b →
      f.less e = false := by
    intro a b e f ha hb hab
    obtain ⟨ha', rfl⟩ := List.getElem?_eq_some_iff.mp ha
    obtain ⟨hb', rfl⟩ := List.getElem?_eq_some_iff.mp hb
    exact List.pairwise_iff_getElem.mp h.sorted a b ha' hb' hab
  constructor
  · intro hlt
    have hless := sorted hp hq hlt
    simp only [Entry.less, Entry.isCall, Bool.false_and] at hless
    split at hless
    · simpa using hless
    · rename_i heq
      simp only [ne_eq, not_not] at heq
      exact Int.le_of_eq heq.symm
  · intro hle
    by_contra hge
    have hne : p ≠ q := by
      rintro rfl
      rw [hp] at hq
      cases hq
    have hless := sorted hq hp (by omega)
    simp only [Entry.less, Entry.isCall] at hless
    split at hless
    · rename_i hst
      simp only [decide_eq_false_iff_not, Int.not_lt] at hless
      exact hst (Int.le_antisymm hle hless)
    · cases hless

theorem paired (hcr : ∀ op ∈ history, op.call ≤ op.ret) : ∃ callAt retAt, Paired history entries callAt retAt ∧
    ∀ i j op op', history[i]? = some op → history[j]? = some op' → (callAt i < retAt j ↔ op.call ≤ op'.ret) := by
  have pos : ∀ i, ∃ p q : Nat, ∀ op, history[i]? = some op →
      entries[p]? = some ⟨.call op.input, i, op.call⟩ ∧ entries[q]? = some ⟨.ret op.output, i, op.ret⟩ := by
    intro i
    cases hop : history[i]? with
    | none => exact ⟨0, 0, fun op he => by cases he⟩
    | some op =>
      obtain ⟨p, q, hp, hq⟩ := h.exists_pos hop
      exact ⟨p, q, fun op' he => by cases he; exact ⟨hp, hq⟩⟩
  choose callAt retAt hpos using pos
  refine ⟨callAt, retAt, ⟨fun i op hop => (hpos i op hop).1, fun i op hop => (hpos i op hop).2, fun i hi => ?_,
    fun a e ha => ?_⟩, fun i j op op' hi hj => h.lt_iff (hpos i op hi).1 (hpos j op' hj).2⟩
  · obtain ⟨op, hop⟩ := exists_op hi
    exact (h.lt_iff (hpos i op hop).1 (hpos i op hop).2).mpr (hcr op (List.mem_of_getElem? hop))
  · obtain ⟨i, op, hop, hcase⟩ := mem_rawEntries.mp (h.perm.mem_iff.mp (List.mem_of_getElem? ha))
    have hi := (List.getElem?_eq_some_iff.mp hop).1
    rcases hcase with rfl | rfl
    · exact ⟨hi, Or.inl (h.pos_inj ha (hpos i op hop).1 rfl)⟩
    · exact ⟨hi, Or.inr (h.pos_inj ha (hpos i op hop).2 rfl)⟩

theorem length : entries.length = 2 * history.length := by
  rw [h.perm.length_eq]
  clear h
  induction history using List.reverseRecOn with
  | nil => rfl
  | append_singleton history op ih =>
    rw [rawEntries_snoc, List.length_append, List.length_append, ih]
    simp only [List.length_cons, List.length_nil]
    omega

end MakesEntries

/-! ## Orders of a history -/

theorem filterMap_range (history : List (Operation In Out)) :
    ((List.range history.length).filterMap fun i => history[i]?) = history := by
  induction history using List.reverseRecOn with
  | nil => rfl
  | append_singleton history op ih =>
    rw [List.length_append, List.length_singleton, List.range_succ, List.filterMap_append]
    have hold : ((List.range history.length).filterMap fun i => (history ++ [op])[i]?) =
        (List.range history.length).filterMap fun i => history[i]? :=
      List.filterMap_congr fun i hi => List.getElem?_append_left (List.mem_range.mp hi)
    rw [hold, ih]
    simp

theorem exists_perm_range {l : List (Operation In Out)} (hl : l.Perm history) :
    ∃ m : List Nat, m.Perm (List.range history.length) ∧ (m.filterMap fun i => history[i]?) = l := by
  have hzip : history = history.zipIdx.map Prod.fst := by simp
  have hcomp : Relation.Comp (· = List.map Prod.fst ·) List.Perm l history.zipIdx := by
    rw [List.eq_map_comp_perm]
    show l.Perm (history.zipIdx.map Prod.fst)
    rw [← hzip]
    exact hl
  obtain ⟨z, rfl, hz⟩ := hcomp
  refine ⟨z.map Prod.snd, ?_, ?_⟩
  · have := hz.map Prod.snd
    rwa [List.zipIdx_map_snd, ← List.range_eq_range'] at this
  · rw [List.filterMap_map]
    have hf : ∀ p ∈ z, ((fun i => history[i]?) ∘ Prod.snd) p = some p.1 := fun p hp =>
      List.mem_zipIdx_iff_getElem?.mp (hz.mem_iff.mp hp)
    rw [List.filterMap_congr hf, ← List.filterMap_eq_map]
    rfl

/-- The history is linearizable if the operations, none of which is in the order
yet, can be put in order. -/
theorem linearizable_iff {M : CheckModel St In Out} {callAt retAt : Nat → Nat} (hord : ∀ i j op op',
      history[i]? = some op → history[j]? = some op' → (callAt i < retAt j ↔ op.call ≤ op'.ret)) (n : Nat) :
    M.Linearizable history ↔ ∃ l, Completes M history callAt retAt (Bitset.newBitset n) M.init l := by
  have realtime : ∀ {m : List Nat}, (∀ i ∈ m, i < history.length) →
      ((m.filterMap fun i => history[i]?).Pairwise (fun a b => a.call ≤ b.ret) ↔
        m.Pairwise fun i j => callAt i < retAt j) := by
    intro m hm
    rw [List.pairwise_filterMap]
    constructor
    · refine fun hp => hp.imp_of_mem fun {i j} hi hj hij => ?_
      obtain ⟨op, hop⟩ := exists_op (hm i hi)
      obtain ⟨op', hop'⟩ := exists_op (hm j hj)
      exact (hord i j op op' hop hop').mpr (hij op hop op' hop')
    · exact fun hp => hp.imp fun {i j} hij op hop op' hop' => (hord i j op op' hop hop').mp hij
  constructor
  · rintro ⟨l, hperm, hacc, hrt⟩
    obtain ⟨m, hm, rfl⟩ := exists_perm_range hperm
    have hlt : ∀ i ∈ m, i < history.length := fun i hi => List.mem_range.mp (hm.mem_iff.mp hi)
    refine ⟨m, hm.nodup_iff.mpr List.nodup_range, fun i => ?_, hacc, (realtime hlt).mp hrt⟩
    rw [hm.mem_iff, List.mem_range, Bitset.has_newBitset]
    simp
  · rintro ⟨m, hm⟩
    have hlt : ∀ i ∈ m, i < history.length := fun i hi => ((hm.mem i).mp hi).1
    have hperm : m.Perm (List.range history.length) := by
      refine (List.perm_ext_iff_of_nodup hm.nodup List.nodup_range).mpr fun i => ?_
      rw [hm.mem, List.mem_range, Bitset.has_newBitset]
      simp
    refine ⟨_, ?_, hm.accepts, (realtime hlt).mpr hm.realtime⟩
    have := hperm.filterMap fun i => history[i]?
    rwa [filterMap_range] at this

end

end DistLab
