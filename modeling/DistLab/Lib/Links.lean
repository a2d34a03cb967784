import Mathlib.Logic.Function.Basic
import Mathlib.Data.List.Nodup
import Mathlib.Tactic.Common

/-!
# Doubly linked lists

The pointers of a doubly linked list, with the two moves of a search that
backtracks: `cut` takes a node out of the list and leaves the node's own pointers
as they are, and `mend` uses these to put it back. A missing pointer where one is
followed gives `none`.
-/

namespace DistLab

structure Links (A : Type*) where
  next : A → Option A
  prev : A → Option A

namespace Links

variable {A : Type*} [DecidableEq A]

def setNext (L : Links A) (a : A) (o : Option A) : Links A := { L with next := Function.update L.next a o }

def setPrev (L : Links A) (a : A) (o : Option A) : Links A := { L with prev := Function.update L.prev a o }

def setPrev? (L : Links A) (a o : Option A) : Links A :=
  match a with
  | some a => L.setPrev a o
  | none => L

def cut (L : Links A) (a : A) : Option (Links A) := do
  let p ← L.prev a
  let L := L.setNext p (L.next a)
  some (L.setPrev? (L.next a) (L.prev a))

def mend (L : Links A) (a : A) : Option (Links A) := do
  let p ← L.prev a
  let L := L.setNext p (some a)
  some (L.setPrev? (L.next a) (some a))

/-- From `a` on the pointers run through `l`, both ways, and end in `o`. -/
def Seg (L : Links A) : A → List A → Option A → Prop
  | a, [], o => L.next a = o
  | a, b :: l, o => L.next a = some b ∧ L.prev b = some a ∧ Seg L b l o

def last : A → List A → A
  | a, [] => a
  | _, b :: l => last b l

variable {L L' : Links A} {a b c : A} {l l₁ l₂ : List A} {o o' : Option A}

omit [DecidableEq A] in
theorem last_mem : last a l ∈ a :: l := by
  induction l generalizing a with
  | nil => exact List.mem_singleton_self a
  | cons b l ih => exact List.mem_cons_of_mem _ ih

omit [DecidableEq A] in
theorem seg_append : L.Seg a (l₁ ++ b :: l₂) o ↔
    L.Seg a l₁ (some b) ∧ L.prev b = some (last a l₁) ∧ L.Seg b l₂ o := by
  induction l₁ generalizing a with
  | nil => simp [Seg, last]
  | cons c l₁ ih =>
    simp only [List.cons_append, Seg, last, ih, and_assoc]

omit [DecidableEq A] in
theorem Seg.congr (h : L.Seg a l o) (hn : ∀ x ∈ a :: l, L'.next x = L.next x) (hp : ∀ x ∈ l, L'.prev x = L.prev x) :
    L'.Seg a l o := by
  induction l generalizing a with
  | nil => exact (hn a List.mem_cons_self).trans h
  | cons b l ih =>
    obtain ⟨h1, h2, h3⟩ := h
    exact ⟨(hn a List.mem_cons_self).trans h1, (hp b List.mem_cons_self).trans h2,
      ih h3 (fun x hx => hn x (List.mem_cons_of_mem _ hx)) fun x hx => hp x (List.mem_cons_of_mem _ hx)⟩

omit [DecidableEq A] in
theorem Seg.next_last (h : L.Seg a l o) : L.next (last a l) = o := by
  induction l generalizing a with
  | nil => exact h
  | cons b l ih => exact ih h.2.2

/-- The last node of a segment is the only one whose `next` may change. -/
theorem Seg.retarget (h : L.Seg a l o) (hnd : (a :: l).Nodup) : (L.setNext (last a l) o').Seg a l o' := by
  induction l generalizing a with
  | nil => exact Function.update_self ..
  | cons b l ih =>
    obtain ⟨h1, h2, h3⟩ := h
    obtain ⟨ha, hnd⟩ := List.nodup_cons.mp hnd
    refine ⟨?_, h2, ih h3 hnd⟩
    have hne : a ≠ last b l := fun he => ha (he ▸ last_mem)
    exact (Function.update_of_ne hne ..).trans h1

/-! ## Taking a node out and putting it back -/

theorem setPrev?_next (L : Links A) (a o : Option A) (b : A) : (L.setPrev? a o).next b = L.next b := by
  cases a <;> rfl

theorem setPrev?_prev_of_ne {a : Option A} (h : a ≠ some b) (o : Option A) : (L.setPrev? a o).prev b = L.prev b := by
  cases a with
  | none => rfl
  | some a => exact Function.update_of_ne (fun he => h (by rw [he])) ..

structure Inside (L : Links A) (a : A) (l₁ : List A) (b : A) (l₂ : List A) : Prop where
  before : L.Seg a l₁ (some b)
  prev : L.prev b = some (last a l₁)
  after : L.Seg b l₂ none
  ne_last : b ≠ last a l₁
  next_ne : L.next b ≠ some b
  nodup : (a :: l₁).Nodup
  nodup_after : l₂.Nodup
  apart : ∀ x ∈ a :: l₁, x ∉ b :: l₂

omit [DecidableEq A] in
theorem Seg.inside (h : L.Seg a (l₁ ++ b :: l₂) none) (hnd : (a :: (l₁ ++ b :: l₂)).Nodup) : L.Inside a l₁ b l₂ := by
  obtain ⟨h1, h2, h3⟩ := seg_append.mp h
  rw [← List.cons_append, List.nodup_append] at hnd
  obtain ⟨hnd1, hnd2, hnd3⟩ := hnd
  obtain ⟨hb, hnd2⟩ := List.nodup_cons.mp hnd2
  refine ⟨h1, h2, h3, ?_, ?_, hnd1, hnd2, fun x hx hx' => hnd3 x hx x hx' rfl⟩
  · intro he
    exact hnd3 b (he ▸ last_mem) b List.mem_cons_self rfl
  · intro he
    cases l₂ with
    | nil => rw [show L.next b = none from h3] at he; cases he
    | cons c l₂ =>
      rw [h3.1] at he
      cases he
      exact hb List.mem_cons_self

theorem Inside.cut (h : L.Inside a l₁ b l₂) :
    L.cut b = some ((L.setNext (last a l₁) (L.next b)).setPrev? (L.next b) (some (last a l₁))) := by
  have hnext : (L.setNext (last a l₁) (L.next b)).next b = L.next b := Function.update_of_ne h.ne_last ..
  simp only [Links.cut, h.prev, Option.bind_eq_bind, Option.bind_some, hnext]
  rw [show (L.setNext (last a l₁) (L.next b)).prev b = L.prev b from rfl, h.prev]

theorem Inside.seg_cut (h : L.Inside a l₁ b l₂) :
    ((L.setNext (last a l₁) (L.next b)).setPrev? (L.next b) (some (last a l₁))).Seg a (l₁ ++ l₂) none := by
  have hfirst : (L.setNext (last a l₁) (L.next b)).Seg a l₁ (L.next b) := h.before.retarget h.nodup
  have hafter := h.after
  cases l₂ with
  | nil =>
    rw [show L.next b = none from hafter] at hfirst ⊢
    rw [List.append_nil]
    exact hfirst
  | cons c l₂ =>
    obtain ⟨hn, hp, hrest⟩ := hafter
    rw [hn] at hfirst ⊢
    have hc : c ∉ a :: l₁ := fun hc => h.apart c hc (List.mem_cons_of_mem _ List.mem_cons_self)
    refine seg_append.mpr ⟨hfirst.congr (fun _ _ => rfl) fun x hx => ?_, Function.update_self .., ?_⟩
    · have hne : x ≠ c := fun he => hc (he ▸ List.mem_cons_of_mem _ hx)
      exact Function.update_of_ne hne ..
    · have hne : ∀ x ∈ c :: l₂, x ≠ last a l₁ := fun x hx he =>
        h.apart x (he ▸ last_mem) (List.mem_cons_of_mem _ hx)
      refine hrest.congr (fun x hx => Function.update_of_ne (hne x hx) ..) fun x hx => ?_
      have hxc : x ≠ c := fun he => (List.nodup_cons.mp h.nodup_after).1 (he ▸ hx)
      exact Function.update_of_ne hxc ..

theorem Inside.mend_cut (h : L.Inside a l₁ b l₂) :
    ((L.setNext (last a l₁) (L.next b)).setPrev? (L.next b) (some (last a l₁))).mend b = some L := by
  have hprev : ((L.setNext (last a l₁) (L.next b)).setPrev? (L.next b) (some (last a l₁))).prev b =
      some (last a l₁) := by
    rw [setPrev?_prev_of_ne h.next_ne]
    exact h.prev
  have hlast : Function.update L.next (last a l₁) (some b) = L.next := by
    rw [← h.before.next_last]
    exact Function.update_eq_self ..
  simp only [mend, hprev, Option.bind_eq_bind, Option.bind_some]
  have hafter := h.after
  cases l₂ with
  | nil =>
    have hb : L.next b = none := hafter
    simp only [hb, setPrev?, setNext, Function.update_idem]
    rw [hlast, hb]
  | cons c l₂ =>
    obtain ⟨hn, hp, -⟩ := hafter
    have hback : Function.update L.prev c (some b) = L.prev := by
      rw [← hp]
      exact Function.update_eq_self ..
    simp only [hn, setPrev?, setNext, setPrev, Function.update_idem]
    rw [hlast, hn]
    simp only [Function.update_idem]
    rw [hback]

theorem Seg.cut (h : L.Seg a (l₁ ++ b :: l₂) none) (hnd : (a :: (l₁ ++ b :: l₂)).Nodup) :
    ∃ L', L.cut b = some L' ∧ L'.Seg a (l₁ ++ l₂) none ∧ L'.mend b = some L :=
  ⟨_, (h.inside hnd).cut, (h.inside hnd).seg_cut, (h.inside hnd).mend_cut⟩

end Links

end DistLab
