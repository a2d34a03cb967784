import Mathlib.Algebra.Group.Nat.Defs
import DistLab.Lib.Ranks

/-!
# Client ids

The three clerks draw their id from one generator, copied into `kvraft`,
`shardctrler` and `shardkv`: the second, a random field drawn once a second, and
a counter of ten bits that goes round. An id is thus the second with the rank of
the call in that second modulo 1024, so ids repeat exactly when a second sees
more than 1024 calls.
-/

namespace DistLab

structure IdGen where
  lastSec : Int64
  rand : Int64
  counter : Int64

namespace IdGen

def init : IdGen :=
  ⟨0, 0, 0⟩

def pack (now rand counter : Int64) : Int64 :=
  (now <<< 32) ||| (rand <<< 10) ||| counter

/-- One call, with the second `time.Now().Unix()` reads and what `randBits(22)` returns if it is asked. -/
def genClientId (g : IdGen) (now sample : Int64) : IdGen × Int64 :=
  let g :=
    if now ≠ g.lastSec then ⟨now, sample, 0⟩
    else { g with counter := (g.counter + 1) &&& 0x3FF }
  (g, pack now g.rand g.counter)

def genClientIds (g : IdGen) : List (Int64 × Int64) → IdGen × List Int64
  | [] => (g, [])
  | (now, sample) :: calls =>
    let (g', id) := g.genClientId now sample
    let (g'', ids) := g'.genClientIds calls
    (g'', id :: ids)

theorem genClientIds_concat (g : IdGen) (calls : List (Int64 × Int64)) (now sample : Int64) :
    g.genClientIds (calls ++ [(now, sample)]) =
      let (g', ids) := g.genClientIds calls
      let (g'', id) := g'.genClientId now sample
      (g'', ids ++ [id]) := by
  induction calls generalizing g with
  | nil => rfl
  | cons c cs ih => simp [genClientIds, ih]

section packing

theorem toNat_lt {t : Int64} {b : Nat} (hb : b < 2 ^ 63) (h0 : 0 ≤ t) (ht : t < Int64.ofNat b) :
    t.toBitVec.toNat < b := by
  rw [Int64.lt_iff_toInt_lt, Int64.toInt_ofNat_of_lt hb, ← Int64.cast_toNatClampNeg t h0] at ht
  rw [Int64.toNat_toBitVec_of_le h0]
  omega

theorem counter_wraps (c : Nat) : (Int64.ofNat (c % 1024) + 1) &&& 0x3FF = Int64.ofNat ((c + 1) % 1024) := by
  rw [← Int64.toBitVec_inj, Int64.toBitVec_and, Int64.toBitVec_add, ← BitVec.toNat_inj, BitVec.toNat_and,
    BitVec.toNat_add]
  have h1 : (1 : Int64).toBitVec.toNat = 1 := rfl
  have hmask : (0x3FF : Int64).toBitVec.toNat = 2 ^ 10 - 1 := rfl
  rw [h1, hmask, Nat.and_two_pow_sub_one_eq_mod]
  simp only [Int64.toBitVec_ofNat', BitVec.toNat_ofNat]
  omega

theorem toNat_pack {t r : Int64} {c : Nat} (ht : t.toBitVec.toNat < 2 ^ 31) (hr : r.toBitVec.toNat < 2 ^ 22)
    (hc : c < 1024) :
    (pack t r (Int64.ofNat c)).toBitVec.toNat = t.toBitVec.toNat * 2 ^ 32 + (r.toBitVec.toNat * 2 ^ 10 + c) := by
  have h32 : (t <<< 32).toBitVec = t.toBitVec <<< 32 := rfl
  have h10 : (r <<< 10).toBitVec = r.toBitVec <<< 10 := rfl
  rw [pack, Int64.toBitVec_or, Int64.toBitVec_or, h32, h10, BitVec.toNat_or, BitVec.toNat_or, BitVec.toNat_shiftLeft,
    BitVec.toNat_shiftLeft, Int64.toBitVec_ofNat', BitVec.toNat_ofNat, Nat.or_assoc]
  rw [Nat.mod_eq_of_lt (a := c) (by omega)]
  rw [Nat.shiftLeft_eq, Nat.shiftLeft_eq, Nat.mod_eq_of_lt (by omega), Nat.mod_eq_of_lt (by omega)]
  rw [Nat.mul_comm r.toBitVec.toNat, ← Nat.two_pow_add_eq_or_of_lt hc]
  rw [Nat.mul_comm t.toBitVec.toNat, ← Nat.two_pow_add_eq_or_of_lt (by omega)]

theorem pack_inj {t t' r r' : Int64} {c c' : Nat} (ht : t.toBitVec.toNat < 2 ^ 31) (ht' : t'.toBitVec.toNat < 2 ^ 31)
    (hr : r.toBitVec.toNat < 2 ^ 22) (hr' : r'.toBitVec.toNat < 2 ^ 22) (hc : c < 1024) (hc' : c' < 1024)
    (h : pack t r (Int64.ofNat c) = pack t' r' (Int64.ofNat c')) : t = t' ∧ c = c' := by
  have hn := congrArg (fun x : Int64 => x.toBitVec.toNat) h
  simp only [toNat_pack ht hr hc, toNat_pack ht' hr' hc'] at hn
  have hsec : t.toBitVec.toNat = t'.toBitVec.toNat := by omega
  refine ⟨?_, by omega⟩
  rwa [BitVec.toNat_inj, Int64.toBitVec_inj] at hsec

end packing

/-- The sample in force in second `t`: the one of the first call made in it. -/
def sampleOf (calls : List (Int64 × Int64)) (t : Int64) : Int64 :=
  (calls.lookup t).getD 0

theorem sampleOf_of_mem {calls : List (Int64 × Int64)} {t : Int64} (h : t ∈ calls.map Prod.fst)
    (c : Int64 × Int64) : sampleOf (calls ++ [c]) t = sampleOf calls t := by
  cases hl : calls.lookup t with
  | none =>
    obtain ⟨c', hc', rfl⟩ := List.mem_map.1 h
    have := List.lookup_eq_none_iff.1 hl c' hc'
    simp at this
  | some s => simp [sampleOf, List.lookup_append, hl]

theorem sampleOf_of_not_mem {calls : List (Int64 × Int64)} {t : Int64} (h : t ∉ calls.map Prod.fst)
    (s : Int64) : sampleOf (calls ++ [(t, s)]) t = s := by
  have hl : calls.lookup t = none := by
    rw [List.lookup_eq_none_iff]
    intro c hc
    have : t ≠ c.1 := fun ht => h (List.mem_map.2 ⟨c, hc, ht.symm⟩)
    simpa using this
  simp [sampleOf, List.lookup_append, hl]

theorem sampleOf_mem {calls : List (Int64 × Int64)} {t : Int64} (h : t ∈ calls.map Prod.fst) :
    ∃ c ∈ calls, c.2 = sampleOf calls t := by
  induction calls using List.reverseRecOn with
  | nil => simp at h
  | append_singleton cs c ih =>
    by_cases ht : t ∈ cs.map Prod.fst
    · obtain ⟨c', hc', heq⟩ := ih ht
      rw [sampleOf_of_mem ht]
      exact ⟨c', by simp [hc'], heq⟩
    · have : t = c.1 := by simpa [ht] using h
      subst this
      exact ⟨c, by simp, (sampleOf_of_not_mem ht c.2).symm⟩

def holding (calls : List (Int64 × Int64)) (t : Int64) : IdGen :=
  ⟨t, sampleOf calls t, Int64.ofNat (((calls.map Prod.fst).count t - 1) % 1024)⟩

structure After (g : IdGen) (calls : List (Int64 × Int64)) : Prop where
  held : g = holding calls g.lastSec
  le : ∀ c ∈ calls, c.1 ≤ g.lastSec
  seen : g.lastSec ≠ 0 → g.lastSec ∈ calls.map Prod.fst

theorem After.init : IdGen.init.After [] where
  held := rfl
  le := by simp
  seen := by simp [IdGen.init]

section step
variable {g : IdGen} {calls : List (Int64 × Int64)} {now : Int64}
variable (h : g.After calls) (hle : ∀ c ∈ calls, c.1 ≤ now) (hpos : 1 ≤ now)

include hle in
theorem After.concat (sample : Int64) : (holding (calls ++ [(now, sample)]) now).After (calls ++ [(now, sample)]) where
  held := rfl
  le := by
    intro c hc
    rcases List.mem_append.1 hc with hc | hc
    · exact hle c hc
    · rw [List.mem_singleton.1 hc]
      exact Int64.le_refl _
  seen := by simp [holding]

include h hpos

theorem After.mem_of_eq (heq : now = g.lastSec) : now ∈ calls.map Prod.fst := by
  rw [heq]
  refine h.seen fun h0 => ?_
  rw [heq, h0] at hpos
  exact absurd hpos (by decide)

include hle in
theorem After.not_mem_of_ne (hne : now ≠ g.lastSec) : now ∉ calls.map Prod.fst := by
  intro hmem
  obtain ⟨c, hc, rfl⟩ := List.mem_map.1 hmem
  have hlast : g.lastSec ∈ calls.map Prod.fst := by
    refine h.seen fun h0 => ?_
    have hc0 := h.le c hc
    rw [h0] at hc0
    exact absurd (Int64.le_trans hpos hc0) (by decide)
  obtain ⟨d, hd, hd'⟩ := List.mem_map.1 hlast
  exact hne (Int64.le_antisymm (h.le c hc) (hd' ▸ hle d hd))

include hle in
theorem After.genClientId_fst (sample : Int64) :
    (g.genClientId now sample).1 = holding (calls ++ [(now, sample)]) now := by
  by_cases heq : now = g.lastSec
  · have hmem := h.mem_of_eq hpos heq
    have hcount : 0 < (calls.map Prod.fst).count now := List.count_pos_iff.2 hmem
    have hrand : g.rand = sampleOf calls now := by
      rw [heq, h.held]
      rfl
    have hctr : (g.counter + 1) &&& 0x3FF = Int64.ofNat ((calls.map Prod.fst).count now % 1024) := by
      rw [h.held]
      simp only [holding, ← heq]
      rw [counter_wraps, Nat.sub_add_cancel hcount]
    simp only [IdGen.genClientId, holding, sampleOf_of_mem hmem]
    simp [← heq, hrand, hctr]
  · have hmem := h.not_mem_of_ne hle hpos heq
    simp only [IdGen.genClientId, holding, sampleOf_of_not_mem hmem]
    simp [heq, List.count_eq_zero.2 hmem]

include hle in
theorem After.genClientId_snd (sample : Int64) :
    (g.genClientId now sample).2 = pack now (sampleOf (calls ++ [(now, sample)]) now)
      (Int64.ofNat ((calls.map Prod.fst).count now % 1024)) := by
  have hsnd : (g.genClientId now sample).2 =
      pack now (g.genClientId now sample).1.rand (g.genClientId now sample).1.counter := rfl
  rw [hsnd, h.genClientId_fst hle hpos sample]
  simp [holding]

end step

def idOf (calls : List (Int64 × Int64)) (p : Int64 × Nat) : Int64 :=
  pack p.1 (sampleOf calls p.1) (Int64.ofNat p.2)

theorem genClientIds_eq {calls : List (Int64 × Int64)} (hmono : calls.Pairwise fun c c' => c.1 ≤ c'.1)
    (hpos : ∀ c ∈ calls, 1 ≤ c.1) :
    (init.genClientIds calls).1.After calls ∧
      (init.genClientIds calls).2 = (ranks 1024 (calls.map Prod.fst)).map (idOf calls) := by
  induction calls using List.reverseRecOn with
  | nil => exact ⟨.init, rfl⟩
  | append_singleton cs c ih =>
    obtain ⟨now, sample⟩ := c
    rw [List.pairwise_append] at hmono
    have hle : ∀ c ∈ cs, c.1 ≤ now := fun c hc => hmono.2.2 c hc (now, sample) (by simp)
    have hnow : 1 ≤ now := hpos (now, sample) (by simp)
    obtain ⟨hafter, hids⟩ := ih hmono.1 fun c hc => hpos c (by simp [hc])
    rw [genClientIds_concat]
    refine ⟨?_, ?_⟩
    · change ((init.genClientIds cs).1.genClientId now sample).1.After _
      rw [hafter.genClientId_fst hle hnow]
      exact After.concat hle sample
    · change (init.genClientIds cs).2 ++ [((init.genClientIds cs).1.genClientId now sample).2] = _
      -- a second that was read before keeps its sample
      have hold : (ranks 1024 (cs.map Prod.fst)).map (idOf cs) =
          (ranks 1024 (cs.map Prod.fst)).map (idOf (cs ++ [(now, sample)])) := by
        refine List.map_congr_left fun p hp => ?_
        simp only [idOf, sampleOf_of_mem (mem_of_mem_ranks hp)]
      rw [hafter.genClientId_snd hle hnow, hids, hold, List.map_append, List.map_singleton, ranks_concat,
        List.map_append, List.map_singleton, idOf]

section bounds
variable {calls : List (Int64 × Int64)}
variable (hsec : ∀ c ∈ calls, 1 ≤ c.1 ∧ c.1 < 0x80000000) (hrand : ∀ c ∈ calls, 0 ≤ c.2 ∧ c.2 < 0x400000)
include hsec

theorem sec_lt {t : Int64} (h : t ∈ calls.map Prod.fst) : t.toBitVec.toNat < 2 ^ 31 := by
  obtain ⟨c, hc, rfl⟩ := List.mem_map.1 h
  obtain ⟨h1, hlt⟩ := hsec c hc
  exact toNat_lt (by decide) (Int64.le_trans (by decide) h1) hlt

include hrand

theorem idOf_inj {p p' : Int64 × Nat} (hp : p ∈ ranks 1024 (calls.map Prod.fst))
    (hp' : p' ∈ ranks 1024 (calls.map Prod.fst)) (h : idOf calls p = idOf calls p') : p = p' := by
  have hsample : ∀ t ∈ calls.map Prod.fst, (sampleOf calls t).toBitVec.toNat < 2 ^ 22 := by
    intro t ht
    obtain ⟨c, hc, heq⟩ := sampleOf_mem ht
    rw [← heq]
    exact toNat_lt (by decide) (hrand c hc).1 (hrand c hc).2
  have hm := mem_of_mem_ranks hp
  have hm' := mem_of_mem_ranks hp'
  have hinj := pack_inj (sec_lt hsec hm) (sec_lt hsec hm') (hsample _ hm) (hsample _ hm')
    (lt_of_mem_ranks (by decide) hp) (lt_of_mem_ranks (by decide) hp') h
  exact Prod.ext hinj.1 hinj.2

/-- Ids are distinct exactly when no second sees more calls than the counter has values. -/
theorem nodup_clientIds_iff (hmono : calls.Pairwise fun c c' => c.1 ≤ c'.1) :
    (init.genClientIds calls).2.Nodup ↔ ∀ t, (calls.map Prod.fst).count t ≤ 1024 := by
  rw [(genClientIds_eq hmono fun c hc => (hsec c hc).1).2, ← nodup_ranks_iff (by decide)]
  constructor
  · intro h
    exact h.of_map
  · intro h
    exact h.map_on fun p hp p' hp' => idOf_inj hsec hrand hp hp'

end bounds

theorem nodup_clientIds_three : (init.genClientIds [(5, 7), (5, 9), (6, 1)]).2.Nodup :=
  (nodup_clientIds_iff (by simp) (by simp) (by simp)).2 fun _ => Nat.le_trans List.count_le_length (by decide)

/-- The 1025th clerk of a second gets the id of the first. -/
theorem clientIds_repeat :
    (∀ c ∈ List.replicate 1025 ((1 : Int64), (0 : Int64)), (1 ≤ c.1 ∧ c.1 < 0x80000000) ∧ 0 ≤ c.2 ∧ c.2 < 0x400000) ∧
      (List.replicate 1025 ((1 : Int64), (0 : Int64))).Pairwise (fun c c' => c.1 ≤ c'.1) ∧
      ¬ (init.genClientIds (List.replicate 1025 (1, 0))).2.Nodup := by
  have hall : ∀ c ∈ List.replicate 1025 ((1 : Int64), (0 : Int64)), c = (1, 0) :=
    fun c hc => List.eq_of_mem_replicate hc
  have hmono : (List.replicate 1025 ((1 : Int64), (0 : Int64))).Pairwise (fun c c' => c.1 ≤ c'.1) :=
    List.pairwise_replicate.2 (Or.inr (by decide))
  refine ⟨?_, hmono, ?_⟩
  · intro c hc
    rw [hall c hc]
    decide
  · rw [(genClientIds_eq hmono fun c hc => by rw [hall c hc]; decide).2]
    intro h
    have hle := (nodup_ranks_iff (by decide) _).1 h.of_map 1
    rw [List.map_replicate, List.count_replicate_self] at hle
    omega

end IdGen
end DistLab
