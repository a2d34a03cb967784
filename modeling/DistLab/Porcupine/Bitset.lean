import Mathlib.Data.List.Basic
import Mathlib.Tactic.Common

/-!
# Sets of operations as bits

`bitset` of the checker: the set of the operations that are in the linearization
so far. An index beyond the last word panics in Go; here it gives `none`.
-/

namespace DistLab

/-- Bits 0 to 63 are in the first word, the next ones in the second. -/
abbrev Bitset := List (BitVec 64)

namespace Bitset

def newBitset (bits : Nat) : Bitset := List.replicate (bits / 64 + if bits % 64 ≠ 0 then 1 else 0) 0

def set (b : Bitset) (pos : Nat) : Option Bitset :=
  if pos / 64 < b.length then some (b.modify (pos / 64) (· ||| 1#64 <<< (pos % 64))) else none

def clear (b : Bitset) (pos : Nat) : Option Bitset :=
  if pos / 64 < b.length then some (b.modify (pos / 64) (· &&& ~~~(1#64 <<< (pos % 64)))) else none

def onesCount (w : BitVec 64) : Nat := (List.range 64).countP w.getLsbD

def popcnt (b : Bitset) : Nat := b.foldl (fun total v => total + onesCount v) 0

def hash (b : Bitset) : BitVec 64 := b.foldl (· ^^^ ·) (BitVec.ofNat 64 b.popcnt)

def equals (b b2 : Bitset) : Bool := b.length == b2.length && (b.zip b2).all fun p => p.1 == p.2

def word (b : Bitset) (k : Nat) : BitVec 64 := (b[k]?).getD 0

def has (b : Bitset) (pos : Nat) : Bool := (b.word (pos / 64)).getLsbD (pos % 64)

theorem equals_iff {b b2 : Bitset} : b.equals b2 = true ↔ b = b2 := by
  simp only [equals, Bool.and_eq_true, beq_iff_eq, List.all_eq_true]
  constructor
  · rintro ⟨hlen, hall⟩
    refine List.ext_getElem hlen fun i h1 h2 => ?_
    exact hall (b[i], b2[i]) (List.mem_iff_getElem.mpr ⟨i, by simp [hlen, h2], by simp⟩)
  · rintro rfl
    refine ⟨rfl, fun p hp => ?_⟩
    obtain ⟨i, hi, rfl⟩ := List.mem_iff_getElem.mp hp
    simp

theorem has_newBitset (bits pos : Nat) : (newBitset bits).has pos = false := by
  have hword : (newBitset bits).word (pos / 64) = 0 := by
    generalize hn : (bits / 64 + if bits % 64 ≠ 0 then 1 else 0) = n
    rw [word, newBitset, hn, List.getElem?_replicate]
    split <;> rfl
  rw [has, hword]
  exact BitVec.getLsbD_zero

theorem lt_length_newBitset {bits pos : Nat} (h : pos < bits) : pos / 64 < (newBitset bits).length := by
  simp only [newBitset, List.length_replicate]
  split <;> omega

section
variable {b b' : Bitset} {i : Nat}

theorem set_of_lt (h : i / 64 < b.length) : b.set i = some (b.modify (i / 64) (· ||| 1#64 <<< (i % 64))) := if_pos h

theorem lt_of_set (h : b.set i = some b') : i / 64 < b.length := by
  by_contra hge
  rw [set, if_neg hge] at h
  cases h

theorem length_set (h : b.set i = some b') : b'.length = b.length := by
  rw [set_of_lt (lt_of_set h)] at h
  cases h
  exact List.length_modify ..

theorem getLsbD_one_shift (i j : Nat) (hj : j < 64) : (1#64 <<< i).getLsbD j = decide (j = i) := by
  rw [BitVec.getLsbD_shiftLeft, BitVec.getLsbD_one]
  by_cases hij : j = i
  · subst hij
    simp [hj]
  · simp [hij]
    omega

theorem word_modify (f : BitVec 64 → BitVec 64) {k : Nat} (hk : k < b.length) (j : Nat) :
    word (b.modify k f) j = if j = k then f (b.word k) else b.word j := by
  unfold word
  rw [List.getElem?_modify]
  by_cases hj : j = k
  · subst hj
    simp [hk]
  · simp [hj, Ne.symm hj]

theorem has_set (h : b.set i = some b') (j : Nat) : b'.has j = (decide (j = i) || b.has j) := by
  have hlen := lt_of_set h
  rw [set_of_lt hlen] at h
  cases h
  unfold has
  rw [word_modify _ hlen]
  split
  · rename_i hword
    rw [BitVec.getLsbD_or, getLsbD_one_shift _ _ (by omega), hword, Bool.or_comm]
    congr 1
    rw [decide_eq_decide]
    omega
  · have hne : j ≠ i := by rintro rfl; contradiction
    simp [hne]

theorem modify_eq_self {k : Nat} {f : BitVec 64 → BitVec 64} (h : f (b.word k) = b.word k) : b.modify k f = b := by
  refine List.ext_getElem? fun j => ?_
  rw [List.getElem?_modify]
  by_cases hj : k = j
  · subst hj
    unfold word at h
    cases hb : b[k]? with
    | none => rfl
    | some w =>
      rw [hb] at h
      simpa using h
  · simp [hj]

/-- Setting a bit that was not set can be undone. -/
theorem clear_set (h : b.set i = some b') (hi : b.has i = false) : b'.clear i = some b := by
  have hlen := lt_of_set h
  rw [set_of_lt hlen] at h
  cases h
  rw [clear, if_pos (by rwa [List.length_modify]), List.modify_modify_eq]
  congr 1
  refine modify_eq_self (BitVec.eq_of_getLsbD_eq fun j hj => ?_)
  simp only [Function.comp_apply, BitVec.getLsbD_and, BitVec.getLsbD_or, BitVec.getLsbD_not, hj, decide_true,
    getLsbD_one_shift _ _ hj, Bool.true_and]
  by_cases hji : j = i % 64
  · subst hji
    simpa [has] using hi.symm
  · simp [hji]

end

end Bitset

end DistLab
