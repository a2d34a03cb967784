import DistLab.Porcupine.Choices
import Mathlib.Data.List.Range

/-!
# The list that the checker starts with

`makeLinkedEntries` goes through the entries from the last to the first. After it
the nodes stand in the order of the entries, and the call of every operation
points to its return.
-/

namespace DistLab

section
variable {St In Out : Type}

def linkFrom (entries : List (Entry In Out)) (s : Nat) : Linking In Out :=
  (entries.zipIdx s).foldr (fun p k => k.add p.2 p.1) Linking.empty

theorem linkFrom_cons (e : Entry In Out) (entries : List (Entry In Out)) (s : Nat) :
    linkFrom (e :: entries) s = (linkFrom entries (s + 1)).add s e := rfl

theorem Linking.add_links (k : Linking In Out) (i : Nat) (e : Entry In Out) :
    (k.add i e).links = insertBefore k.links i k.root ∧ (k.add i e).root = some i := by
  unfold add
  split <;> exact ⟨rfl, rfl⟩

theorem Linking.add_node (k : Linking In Out) (i : Nat) (e : Entry In Out) :
    (k.add i e).node = Function.update k.node i ⟨some e.value, if e.isCall then k.matching e.id else none, e.id⟩ ∧
      (k.add i e).matching = if e.isCall then k.matching else Function.update k.matching e.id (some i) := by
  obtain ⟨value, id, time⟩ := e
  cases value <;> exact ⟨rfl, rfl⟩

/-! ## Pointers -/

structure ChainFrom (L : Links Nat) (root : Option Nat) (s n : Nat) : Prop where
  root : root = (List.range' s n).head?
  seg : 0 < n → L.Seg s (List.range' (s + 1) (n - 1)) none
  fresh : ∀ a, a < s ∨ s + n ≤ a → L.next a = none ∧ L.prev a = none
  first : L.prev s = none

theorem ChainFrom.insert {L : Links Nat} {root : Option Nat} {s n : Nat} (h : ChainFrom L root s n) {x : Nat}
    (hx : x < s ∨ s + n ≤ x) : (insertBefore L x root).Seg x (List.range' s n) none ∧
      (insertBefore L x root).prev x = none ∧
      ∀ a, a ≠ x → a < s ∨ s + n ≤ a → (insertBefore L x root).next a = none ∧ (insertBefore L x root).prev a = none := by
  cases n with
  | zero =>
    rw [h.root]
    exact ⟨(h.fresh x hx).1, (h.fresh x hx).2, fun a _ ha => h.fresh a ha⟩
  | succ n =>
    have hins : insertBefore L x (some s) = (L.setPrev s (some x)).setNext x (some s) := by
      simp only [insertBefore, h.first]
    have hxs : x ≠ s := by omega
    rw [h.root, List.range'_succ, List.head?_cons, hins]
    refine ⟨⟨Function.update_self .., Function.update_self .., ?_⟩, ?_, fun a hax ha => ⟨?_, ?_⟩⟩
    · refine (h.seg (by omega)).congr (fun a ha => Function.update_of_ne ?_ ..) fun a ha => Function.update_of_ne ?_ ..
      · simp only [List.mem_cons, List.mem_range'_1] at ha
        omega
      · simp only [List.mem_range'_1] at ha
        omega
    · exact (Function.update_of_ne hxs ..).trans (h.fresh x hx).2
    · exact (Function.update_of_ne hax ..).trans (h.fresh a ha).1
    · have has : a ≠ s := by omega
      exact (Function.update_of_ne has ..).trans (h.fresh a ha).2

theorem chainFrom (entries : List (Entry In Out)) (s : Nat) :
    ChainFrom (linkFrom entries s).links (linkFrom entries s).root s entries.length := by
  induction entries generalizing s with
  | nil => exact ⟨rfl, fun h => absurd h (Nat.lt_irrefl 0), fun _ _ => ⟨rfl, rfl⟩, rfl⟩
  | cons e entries ih =>
    obtain ⟨hlinks, hroot⟩ := (linkFrom entries (s + 1)).add_links s e
    obtain ⟨hseg, hprev, hfresh⟩ := (ih (s + 1)).insert (Or.inl (Nat.lt_succ_self s))
    rw [linkFrom_cons, hlinks, hroot, List.length_cons]
    exact ⟨rfl, fun _ => hseg, fun a ha => hfresh a (by omega) (by omega), hprev⟩

theorem Links.Seg.length {L : Links Nat} {a : Nat} {l : List Nat} (h : L.Seg a l none) {fuel : Nat}
    (hf : l.length < fuel) : L.length fuel (some a) = l.length + 1 := by
  induction l generalizing a fuel with
  | nil =>
    obtain ⟨fuel, rfl⟩ := Nat.exists_eq_add_one_of_ne_zero (Nat.ne_of_gt hf)
    rw [Links.length, show L.next a = none from h, Links.length]
    rfl
  | cons b l ih =>
    obtain ⟨fuel, rfl⟩ := Nat.exists_eq_add_one_of_ne_zero (Nat.ne_of_gt (Nat.zero_lt_of_lt hf))
    rw [Links.length, h.1, ih h.2.2 (by rw [List.length_cons] at hf; omega), List.length_cons]

theorem makeLinkedEntries_links (entries : List (Entry In Out)) :
    (insertBefore (makeLinkedEntries entries).links entries.length (makeLinkedEntries entries).root).Seg entries.length
        (List.range entries.length) none ∧
      (makeLinkedEntries entries).root = (List.range entries.length).head? ∧
      (makeLinkedEntries entries).links.length entries.length (makeLinkedEntries entries).root = entries.length := by
  have h : ChainFrom (makeLinkedEntries entries).links (makeLinkedEntries entries).root 0 entries.length :=
    chainFrom entries 0
  rw [List.range_eq_range']
  refine ⟨(h.insert (Or.inr (by omega))).1, h.root, ?_⟩
  rw [h.root]
  cases entries with
  | nil => rfl
  | cons e entries =>
    rw [List.length_cons, List.range'_succ, List.head?_cons, (h.seg (Nat.succ_pos _)).length]
    · simp
    · simp

/-! ## Nodes -/

def IsRet (entries : List (Entry In Out)) (s i r : Nat) : Prop :=
  s ≤ r ∧ ∃ e, entries[r - s]? = some e ∧ e.id = i ∧ e.isCall = false

theorem isRet_cons {e : Entry In Out} {entries : List (Entry In Out)} {s i r : Nat} :
    IsRet (e :: entries) s i r ↔ (r = s ∧ e.id = i ∧ e.isCall = false) ∨ IsRet entries (s + 1) i r := by
  unfold IsRet
  constructor
  · rintro ⟨hle, f, hf, hid⟩
    rcases Nat.eq_or_lt_of_le hle with rfl | hlt
    · rw [Nat.sub_self, List.getElem?_cons_zero] at hf
      cases hf
      exact Or.inl ⟨rfl, hid⟩
    · rw [show r - s = r - (s + 1) + 1 by omega, List.getElem?_cons_succ] at hf
      exact Or.inr ⟨hlt, f, hf, hid⟩
  · rintro (⟨rfl, hid⟩ | ⟨hle, f, hf, hid⟩)
    · exact ⟨le_rfl, e, by rw [Nat.sub_self, List.getElem?_cons_zero], hid⟩
    · refine ⟨by omega, f, ?_, hid⟩
      rw [show r - s = r - (s + 1) + 1 by omega, List.getElem?_cons_succ]
      exact hf

/-- The map `match` knows a return of every operation that has one. -/
theorem linkFrom_matching (entries : List (Entry In Out)) (s i : Nat) :
    (∀ r, (linkFrom entries s).matching i = some r → IsRet entries s i r) ∧
      ((∃ r, IsRet entries s i r) → ∃ r, (linkFrom entries s).matching i = some r) := by
  induction entries generalizing s with
  | nil =>
    constructor
    · intro r hr
      cases hr
    · rintro ⟨r, -, e, he, -⟩
      simp at he
  | cons e entries ih =>
    obtain ⟨ih1, ih2⟩ := ih (s + 1)
    rw [linkFrom_cons, ((linkFrom entries (s + 1)).add_node s e).2]
    simp only [isRet_cons]
    cases hc : e.isCall with
    | true =>
      simp only [if_true, Bool.true_eq_false, and_false, false_or]
      exact ⟨ih1, ih2⟩
    | false =>
      simp only [Bool.false_eq_true, if_false, and_true]
      by_cases hi : e.id = i
      · subst hi
        rw [Function.update_self]
        exact ⟨fun r hr => Or.inl ⟨(Option.some.inj hr).symm, rfl⟩, fun _ => ⟨s, rfl⟩⟩
      · rw [Function.update_of_ne (Ne.symm hi)]
        refine ⟨fun r hr => Or.inr (ih1 r hr), fun ⟨r, hr⟩ => ih2 ⟨r, ?_⟩⟩
        exact hr.resolve_left fun h => hi h.2

theorem linkFrom_node (entries : List (Entry In Out)) (s a : Nat) {e : Entry In Out} (he : entries[a]? = some e) :
    (linkFrom entries s).node (s + a) =
      ⟨some e.value, if e.isCall then (linkFrom (entries.drop (a + 1)) (s + a + 1)).matching e.id else none, e.id⟩ := by
  induction entries generalizing s a with
  | nil => simp at he
  | cons f entries ih =>
    rw [linkFrom_cons, ((linkFrom entries (s + 1)).add_node s f).1]
    cases a with
    | zero =>
      cases he
      exact Function.update_self ..
    | succ a =>
      rw [Function.update_of_ne (by omega), show s + (a + 1) = s + 1 + a by omega, ih (s + 1) a he]
      rfl

section
variable {ops : List (Operation In Out)} {entries : List (Entry In Out)} {callAt retAt : Nat → Nat}

theorem Paired.node_ret (h : Paired ops entries callAt retAt) {i : Nat} {op : Operation In Out}
    (hop : ops[i]? = some op) : (makeLinkedEntries entries).node (retAt i) = ⟨some (.ret op.output), none, i⟩ := by
  have hnode := linkFrom_node entries 0 (retAt i) (h.ret i op hop)
  rw [Nat.zero_add] at hnode
  exact hnode

theorem Paired.node_call (h : Paired ops entries callAt retAt) {i : Nat} {op : Operation In Out}
    (hop : ops[i]? = some op) :
    (makeLinkedEntries entries).node (callAt i) = ⟨some (.call op.input), some (retAt i), i⟩ := by
  have hi := (List.getElem?_eq_some_iff.mp hop).1
  have hlt := h.lt i hi
  have hret : IsRet (entries.drop (callAt i + 1)) (callAt i + 1) i (retAt i) := by
    refine ⟨hlt, ⟨.ret op.output, i, op.ret⟩, ?_, rfl, rfl⟩
    rw [List.getElem?_drop, show callAt i + 1 + (retAt i - (callAt i + 1)) = retAt i by omega]
    exact h.ret i op hop
  obtain ⟨r, hr⟩ := (linkFrom_matching _ _ i).2 ⟨_, hret⟩
  -- the return that the map has is the only one
  obtain ⟨hle, e, he, hid, hcall⟩ := (linkFrom_matching _ _ i).1 r hr
  rw [List.getElem?_drop, show callAt i + 1 + (r - (callAt i + 1)) = r by omega] at he
  have hrr : r = retAt i := by
    obtain ⟨-, hat | hat⟩ := h.all r e he
    · rw [hid] at hat
      omega
    · rw [hat, hid]
  have hnode := linkFrom_node entries 0 (callAt i) (h.call i op hop)
  rw [Nat.zero_add] at hnode
  rw [hrr] at hr
  simp only [Entry.isCall, if_true, hr] at hnode
  exact hnode

end

/-! ## Lifting an operation out of the list -/

theorem Links.Seg.next_eq {L : Links Nat} {a b : Nat} {l₁ l₂ : List Nat} (h : L.Seg a (l₁ ++ b :: l₂) none) :
    L.next b = l₂.head? := by
  obtain ⟨-, -, h⟩ := Links.seg_append.mp h
  cases l₂ with
  | nil => exact h
  | cons c l₂ => exact h.1

/-- `lift` takes out the call and then the return. -/
theorem lift_eq {L L₁ : Links Nat} {e r n : Nat} (hcut : L.cut e = some L₁) (hn : L₁.next e = some n) :
    lift L e r = L₁.cut r := by
  simp only [Links.cut, Option.bind_eq_bind, Option.bind_eq_some_iff, Option.some.injEq] at hcut
  obtain ⟨p, hp, rfl⟩ := hcut
  rw [Links.setPrev?_next] at hn
  simp only [lift, hp, hn, Option.bind_eq_bind, Option.bind_some]
  rfl

/-- `unlift` puts back the return and then the call. -/
theorem unlift_eq {L L₁ L₀ : Links Nat} {e r n : Nat} (hr : L.mend r = some L₁) (he : L₁.mend e = some L₀)
    (hn : L₀.next e = some n) : unlift L e r = some L₀ := by
  simp only [Links.mend, Option.bind_eq_bind, Option.bind_eq_some_iff, Option.some.injEq] at hr he
  obtain ⟨p, hp, rfl⟩ := hr
  obtain ⟨q, hq, rfl⟩ := he
  rw [Links.setPrev?_next] at hn
  simp only [unlift, hp, hq, hn, Option.bind_eq_bind, Option.bind_some]
  rfl

/-- An operation that is lifted can be put back. -/
theorem Links.Seg.lift {L : Links Nat} {a e r : Nat} {l₁ l₂ l₃ : List Nat}
    (h : L.Seg a (l₁ ++ e :: (l₂ ++ r :: l₃)) none) (hnd : (a :: (l₁ ++ e :: (l₂ ++ r :: l₃))).Nodup) :
    ∃ L', DistLab.lift L e r = some L' ∧ L'.Seg a (l₁ ++ (l₂ ++ l₃)) none ∧ unlift L' e r = some L := by
  obtain ⟨n, hn⟩ : ∃ n, L.next e = some n := by
    rw [h.next_eq]
    cases l₂ with
    | nil => exact ⟨r, rfl⟩
    | cons c l₂ => exact ⟨c, rfl⟩
  obtain ⟨L₁, hcut, hseg, hmend⟩ := h.cut hnd
  have hn₁ : L₁.next e = some n := by
    have hin := h.inside hnd
    rw [hin.cut] at hcut
    cases hcut
    rw [Links.setPrev?_next]
    exact (Function.update_of_ne hin.ne_last ..).trans hn
  have hnd₁ : (a :: ((l₁ ++ l₂) ++ r :: l₃)).Nodup := by
    refine hnd.sublist (List.Sublist.cons_cons a ?_)
    rw [List.append_assoc]
    exact List.Sublist.append_left (List.sublist_cons_self e _) l₁
  rw [← List.append_assoc] at hseg
  obtain ⟨L', hcut', hseg', hmend'⟩ := hseg.cut hnd₁
  refine ⟨L', (lift_eq hcut hn₁).trans hcut', ?_, unlift_eq hmend' hmend hn⟩
  rwa [List.append_assoc] at hseg'

end

end DistLab
