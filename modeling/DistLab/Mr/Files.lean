import DistLab.Kv.Store
import DistLab.Lib.GoMap
import DistLab.Lib.Lines
import Mathlib.Data.List.Sort
import Mathlib.Data.Nat.Digits.Defs

/-!
# File names and the working directory

The coordinator and its workers share one directory. A file appears in it all at
once, by the rename of a finished temporary file, so it is a map from names to
contents. This module has the names the job gives to its files, and `Glob`.
-/

namespace DistLab

def bytes (s : String) : GoString := s.toUTF8.toList

def decimal (n : Nat) : GoString :=
  if n = 0 then [48] else (Nat.digits 10 n).reverse.map fun d => UInt8.ofNat (48 + d)

def mapResult (j i : Nat) : GoString := bytes "map-result-" ++ decimal j ++ bytes "-" ++ decimal i

def mrOut (i : Nat) : GoString := bytes "mr-out-" ++ decimal i

/-- `reduce-%d`, under which the coordinator books a reduce task. -/
def reduceKey (i : Nat) : GoString := bytes "reduce-" ++ decimal i

abbrev Dir := GoMap GoString GoString

/-- Whether a name matches `pre*suf`; a `*` does not match a `/`. -/
def globMatch (pre suf name : GoString) : Bool :=
  decide (name.take pre.length = pre) && suf.isSuffixOf (name.drop pre.length) && decide ((47 : UInt8) ∉ name)

/-- `filepath.Glob`: the names that match, sorted. -/
def Dir.glob (dir : Dir) (pre suf : GoString) : List GoString :=
  (dir.keys.filter (globMatch pre suf)).insertionSort (· ≤ ·)

/-- The pattern `map-result-*-%d` of `reducetask`. -/
def ofPartition (i : Nat) (name : GoString) : Bool := globMatch (bytes "map-result-") (bytes "-" ++ decimal i) name

/-- The pattern `map-result-*` of `cleanup`. -/
def isIntermediate (name : GoString) : Bool := globMatch (bytes "map-result-") [] name

/-! ## Decimal numbers -/

theorem digit_toNat {d : Nat} (h : d < 10) : (UInt8.ofNat (48 + d)).toNat = 48 + d := by
  rw [UInt8.toNat_ofNat']
  omega

theorem decimal_digit {n : Nat} {c : UInt8} (h : c ∈ decimal n) : ∃ d < 10, c = UInt8.ofNat (48 + d) := by
  unfold decimal at h
  split at h
  · exact ⟨0, by omega, List.mem_singleton.mp h⟩
  · simp only [List.mem_map, List.mem_reverse] at h
    obtain ⟨d, hd, rfl⟩ := h
    exact ⟨d, Nat.digits_lt_base (by omega) hd, rfl⟩

theorem not_mem_decimal {n : Nat} {c : UInt8} (h : c.toNat < 48) : c ∉ decimal n := by
  intro hc
  obtain ⟨d, hd, rfl⟩ := decimal_digit hc
  rw [digit_toNat hd] at h
  omega

theorem ofDigits_decimal (n : Nat) : Nat.ofDigits 10 ((decimal n).reverse.map fun c => c.toNat - 48) = n := by
  unfold decimal
  split
  · rename_i h
    simp [h]
  · rw [← List.map_reverse, List.reverse_reverse, List.map_map, List.map_congr_left (g := id), List.map_id,
      Nat.ofDigits_digits]
    intro d hd
    have := digit_toNat (Nat.digits_lt_base (by omega) hd)
    simp only [Function.comp_apply, this, id_eq]
    omega

theorem decimal_injective : Function.Injective decimal := by
  intro m n h
  rw [← ofDigits_decimal m, ← ofDigits_decimal n, h]

/-! ## Names -/

theorem dash : bytes "-" = [45] := by decide +kernel

/-- The last dash of a name is where its last number begins. -/
theorem lastDash_inj {a a' b b' : GoString} (hb : (45 : UInt8) ∉ b) (hb' : (45 : UInt8) ∉ b')
    (h : a ++ 45 :: b = a' ++ 45 :: b') : a = a' ∧ b = b' := by
  have hrev := congrArg List.reverse h
  simp only [List.reverse_append, List.reverse_cons, List.append_assoc, List.singleton_append] at hrev
  have hcut := congrArg (cut 45) hrev
  rw [cut_append (mt List.mem_reverse.mp hb), cut_append (mt List.mem_reverse.mp hb')] at hcut
  simp only [Option.some.injEq, Prod.mk.injEq, List.reverse_inj] at hcut
  exact ⟨hcut.2, hcut.1⟩

theorem mapResult_eq (j i : Nat) : mapResult j i = (bytes "map-result-" ++ decimal j) ++ 45 :: decimal i := by
  simp [mapResult, dash]

theorem mapResult_inj {j i j' i' : Nat} (h : mapResult j i = mapResult j' i') : j = j' ∧ i = i' := by
  have hdash : (45 : UInt8).toNat < 48 := by decide
  rw [mapResult_eq, mapResult_eq] at h
  obtain ⟨hj, hi⟩ := lastDash_inj (not_mem_decimal hdash) (not_mem_decimal hdash) h
  exact ⟨decimal_injective (List.append_cancel_left hj), decimal_injective hi⟩

theorem mrOut_injective : Function.Injective mrOut := fun _ _ h => decimal_injective (List.append_cancel_left h)

theorem reduceKey_injective : Function.Injective reduceKey := fun _ _ h => decimal_injective (List.append_cancel_left h)

theorem globMatch_iff {pre suf name : GoString} :
    globMatch pre suf name = true ↔ (∃ mid, name = pre ++ (mid ++ suf)) ∧ (47 : UInt8) ∉ name := by
  simp only [globMatch, Bool.and_eq_true, decide_eq_true_eq, List.isSuffixOf_iff_suffix]
  refine and_congr_left fun _ => ⟨?_, ?_⟩
  · rintro ⟨hpre, mid, hmid⟩
    have hname := List.take_append_drop pre.length name
    rw [hpre, ← hmid] at hname
    exact ⟨mid, hname.symm⟩
  · rintro ⟨mid, rfl⟩
    simp

theorem isIntermediate_of_ofPartition {i : Nat} {name : GoString} (h : ofPartition i name = true) :
    isIntermediate name = true := by
  obtain ⟨⟨mid, hname⟩, hslash⟩ := globMatch_iff.mp h
  exact globMatch_iff.mpr ⟨⟨mid ++ (bytes "-" ++ decimal i), by rw [hname, List.append_nil]⟩, hslash⟩

theorem not_slash_mapResult (j i : Nat) : (47 : UInt8) ∉ mapResult j i := by
  have hslash : (47 : UInt8).toNat < 48 := by decide
  have htext : (47 : UInt8) ∉ bytes "map-result-" := by decide +kernel
  simp [mapResult, dash, htext, not_mem_decimal hslash]

theorem ofPartition_mapResult {j i i' : Nat} : ofPartition i (mapResult j i') = true ↔ i' = i := by
  have hdash : (45 : UInt8).toNat < 48 := by decide
  rw [ofPartition, globMatch_iff]
  constructor
  · rintro ⟨⟨mid, hmid⟩, -⟩
    rw [mapResult_eq, dash, List.singleton_append, ← List.append_assoc] at hmid
    exact decimal_injective (lastDash_inj (not_mem_decimal hdash) (not_mem_decimal hdash) hmid).2
  · rintro rfl
    exact ⟨⟨decimal j, by simp [mapResult]⟩, not_slash_mapResult j i'⟩

theorem isIntermediate_mapResult (j i : Nat) : isIntermediate (mapResult j i) = true :=
  isIntermediate_of_ofPartition (ofPartition_mapResult.mpr rfl)

theorem isIntermediate_mrOut (i : Nat) : isIntermediate (mrOut i) = false := by
  rw [Bool.eq_false_iff]
  intro h
  obtain ⟨⟨mid, hmid⟩, -⟩ := globMatch_iff.mp h
  have htexts : (bytes "mr-out-").take 2 ≠ (bytes "map-result-").take 2 := by decide +kernel
  have hlen : 2 ≤ (bytes "mr-out-").length ∧ 2 ≤ (bytes "map-result-").length := by decide +kernel
  have htake := congrArg (List.take 2) hmid
  rw [mrOut, List.take_append_of_le_length hlen.1, List.take_append_of_le_length hlen.2] at htake
  exact htexts htake

theorem mapResult_ne_mrOut (j i k : Nat) : mapResult j i ≠ mrOut k := by
  intro h
  have := isIntermediate_mapResult j i
  rw [h, isIntermediate_mrOut] at this
  cases this

/-! ## Listing -/

theorem Dir.mem_glob {dir : Dir} {pre suf name : GoString} :
    name ∈ dir.glob pre suf ↔ (dir.get? name).isSome = true ∧ globMatch pre suf name = true := by
  rw [glob, (List.perm_insertionSort _ _).mem_iff, List.mem_filter, GoMap.get?_isSome]

theorem Dir.nodup_glob (dir : Dir) (pre suf : GoString) : (dir.glob pre suf).Nodup :=
  (List.perm_insertionSort _ _).nodup_iff.mpr (dir.nodup.filter _)

end DistLab
