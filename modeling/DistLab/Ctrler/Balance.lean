import DistLab.Ctrler.Server
import DistLab.Lib.Loads
import Mathlib.Data.List.Flatten

/-!
# rebalance deals out every shard

Trimming moves shards to the pool and refilling takes them from it, so at every
point the groups and the pool together hold each shard once. The targets add up
to the number of shards; so the pool is never empty when a group takes from it,
and it is empty in the end. A group that has no more than its target keeps what it
has, and one that has no less gets nothing.
-/

namespace DistLab

section
variable {avg extra : Nat}

/-! ## Targets -/

/-- The number of shards that each group holds stands in `R` to its target. -/
def Sized (R : Nat → Nat → Prop) (avg extra : Nat) : Nat → List (Int × List ShardId) → Prop
  | _, [] => True
  | i, o :: owned => R o.2.length (target avg extra i) ∧ Sized R avg extra (i + 1) owned

def shortage (avg extra : Nat) : Nat → List (Int × List ShardId) → Nat
  | _, [] => 0
  | i, o :: owned => (target avg extra i - o.2.length) + shortage avg extra (i + 1) owned

def quota (avg extra : Nat) : Nat → Nat → Nat
  | _, 0 => 0
  | i, n + 1 => target avg extra i + quota avg extra (i + 1) n

theorem quota_eq (i n : Nat) : quota avg extra i n = n * avg + (min extra (i + n) - min extra i) := by
  induction n generalizing i with
  | zero => simp [quota]
  | succ n ih =>
    simp only [quota, ih, target, Nat.succ_mul]
    split <;> omega

theorem quota_total {n : Nat} (hn : n ≠ 0) : quota (nShards / n) (nShards % n) 0 n = nShards := by
  have hlt : nShards % n < n := Nat.mod_lt _ (Nat.pos_of_ne_zero hn)
  rw [quota_eq, Nat.zero_add, Nat.min_eq_left hlt.le, Nat.min_zero, Nat.sub_zero]
  exact Nat.div_add_mod nShards n

theorem shortage_add {i : Nat} {owned : List (Int × List ShardId)} (h : Sized (· ≤ ·) avg extra i owned) :
    shortage avg extra i owned + (owned.flatMap Prod.snd).length = quota avg extra i owned.length := by
  induction owned generalizing i with
  | nil => rfl
  | cons o owned ih =>
    obtain ⟨ho, h⟩ := h
    have := ih h
    simp only [shortage, quota, List.flatMap_cons, List.length_append, List.length_cons]
    omega

/-! ## The two loops -/

theorem trim_spec (avg extra i : Nat) (owned : List (Int × List ShardId)) (pool : List ShardId) :
    (trim avg extra i owned pool).1.map Prod.fst = owned.map Prod.fst ∧
      ((trim avg extra i owned pool).1.flatMap Prod.snd ++ (trim avg extra i owned pool).2).Perm
        (owned.flatMap Prod.snd ++ pool) ∧
      Sized (· ≤ ·) avg extra i (trim avg extra i owned pool).1 := by
  induction owned generalizing i pool with
  | nil => exact ⟨rfl, .refl _, trivial⟩
  | cons o owned ih =>
    obtain ⟨gid, shards⟩ := o
    simp only [trim]
    split
    · rename_i hlt
      obtain ⟨hfst, hperm, hsized⟩ := ih (i + 1) (pool ++ shards.drop (target avg extra i))
      refine ⟨by simp [hfst], ?_, by simp, hsized⟩
      simp only [List.flatMap_cons, List.append_assoc]
      refine (hperm.append_left _).trans ?_
      -- the part that was cut off moves to the end of the pool
      have hsplit := List.take_append_drop (target avg extra i) shards
      calc shards.take (target avg extra i) ++ (owned.flatMap Prod.snd ++ (pool ++ shards.drop (target avg extra i)))
        _ = shards.take (target avg extra i) ++ ((owned.flatMap Prod.snd ++ pool) ++ shards.drop (target avg extra i)) := by
          rw [List.append_assoc]
        List.Perm _ (shards.take (target avg extra i) ++
            (shards.drop (target avg extra i) ++ (owned.flatMap Prod.snd ++ pool))) :=
          (List.perm_append_comm).append_left _
        _ = shards ++ (owned.flatMap Prod.snd ++ pool) := by rw [← List.append_assoc, hsplit]
    · rename_i hle
      obtain ⟨hfst, hperm, hsized⟩ := ih (i + 1) pool
      refine ⟨by simp [hfst], ?_, Nat.le_of_not_lt hle, hsized⟩
      simp only [List.flatMap_cons, List.append_assoc]
      exact hperm.append_left _

theorem takePool_eq (n : Nat) (pool : List ShardId) (h : n ≤ pool.length) :
    takePool n pool = some (pool.take n, pool.drop n) := by
  induction n generalizing pool with
  | zero => rfl
  | succ n ih =>
    cases pool with
    | nil => simp at h
    | cons s pool =>
      simp only [List.length_cons, Nat.add_le_add_iff_right] at h
      simp [takePool, ih pool h]

theorem refill_spec {i : Nat} {owned : List (Int × List ShardId)} (pool : List ShardId)
    (hle : shortage avg extra i owned ≤ pool.length) (h : Sized (· ≤ ·) avg extra i owned) :
    ∃ dealt, refill avg extra i owned pool = some dealt ∧ dealt.map Prod.fst = owned.map Prod.fst ∧
      (dealt.flatMap Prod.snd).Perm (owned.flatMap Prod.snd ++ pool.take (shortage avg extra i owned)) ∧
      Sized (· = ·) avg extra i dealt := by
  induction owned generalizing i pool with
  | nil => exact ⟨[], rfl, rfl, by simp [shortage], trivial⟩
  | cons o owned ih =>
    obtain ⟨gid, shards⟩ := o
    obtain ⟨ho, h⟩ := h
    simp only [shortage] at hle ho ⊢
    have htake := takePool_eq (target avg extra i - shards.length) pool (by omega)
    obtain ⟨dealt, hdealt, hfst, hperm, hsized⟩ := ih (pool.drop (target avg extra i - shards.length))
      (by rw [List.length_drop]; omega) h
    refine ⟨(gid, shards ++ pool.take (target avg extra i - shards.length)) :: dealt, ?_, by simp [hfst], ?_, ?_, hsized⟩
    · simp [refill, htake, hdealt]
    · simp only [List.flatMap_cons, List.append_assoc]
      refine List.Perm.append_left _ ?_
      rw [List.take_add]
      refine (hperm.append_left _).trans ?_
      rw [← List.append_assoc, ← List.append_assoc]
      exact List.perm_append_comm.append_right _
    · simp only [List.length_append, List.length_take]
      omega

/-! ## What a group keeps -/

def cutOff (avg extra : Nat) : Nat → List (Int × List ShardId) → List (Int × List ShardId)
  | _, [] => []
  | i, o :: owned => (o.1, o.2.take (target avg extra i)) :: cutOff avg extra (i + 1) owned

theorem trim_fst (avg extra i : Nat) (owned : List (Int × List ShardId)) (pool : List ShardId) :
    (trim avg extra i owned pool).1 = cutOff avg extra i owned := by
  induction owned generalizing i pool with
  | nil => rfl
  | cons o owned ih =>
    obtain ⟨gid, shards⟩ := o
    simp only [trim, cutOff]
    split
    · rw [ih]
    · rename_i hle
      rw [ih, List.take_of_length_le (Nat.le_of_not_lt hle)]

/-- A group below its target keeps its shards, and one above it gets no other. -/
def Adjusted (avg extra : Nat) : Nat → List (Int × List ShardId) → List (Int × List ShardId) → Prop
  | _, [], [] => True
  | i, o :: owned, d :: dealt => d.1 = o.1 ∧ (o.2.length ≤ target avg extra i → o.2 ⊆ d.2) ∧
      (target avg extra i ≤ o.2.length → d.2 ⊆ o.2) ∧ Adjusted avg extra (i + 1) owned dealt
  | _, _, _ => False

theorem refill_adjusted {i : Nat} {owned dealt : List (Int × List ShardId)} {pool : List ShardId}
    (h : refill avg extra i (cutOff avg extra i owned) pool = some dealt) : Adjusted avg extra i owned dealt := by
  induction owned generalizing i pool dealt with
  | nil =>
    cases h
    trivial
  | cons o owned ih =>
    simp only [cutOff, refill, Option.bind_eq_bind, Option.bind_eq_some_iff] at h
    obtain ⟨⟨more, pool'⟩, htake, rest, hrest, h⟩ := h
    cases h
    refine ⟨rfl, fun hle => ?_, fun hle => ?_, ih hrest⟩
    · rw [List.take_of_length_le hle]
      exact List.subset_append_left _ _
    · -- nothing is missing, so nothing is taken from the pool
      rw [List.length_take, min_eq_left hle, Nat.sub_self] at htake
      cases htake
      rw [List.append_nil]
      exact List.take_subset _ _

theorem Adjusted.get {i k : Nat} {owned dealt : List (Int × List ShardId)} (h : Adjusted avg extra i owned dealt)
    {o : Int × List ShardId} (ho : owned[k]? = some o) : ∃ d, dealt[k]? = some d ∧ d.1 = o.1 ∧
      (o.2.length ≤ target avg extra (i + k) → o.2 ⊆ d.2) ∧ (target avg extra (i + k) ≤ o.2.length → d.2 ⊆ o.2) := by
  induction owned generalizing i k dealt with
  | nil => cases ho
  | cons o' owned ih =>
    cases dealt with
    | nil => exact h.elim
    | cons d dealt =>
      obtain ⟨hfst, hkeep, hgain, h⟩ := h
      cases k with
      | zero =>
        cases ho
        exact ⟨d, rfl, hfst, hkeep, hgain⟩
      | succ k =>
        obtain ⟨d', hd', hrest⟩ := ih h ho
        rw [Nat.add_assoc, Nat.add_comm 1 k] at hrest
        exact ⟨d', hd', hrest⟩

theorem Sized.get {i k : Nat} {dealt : List (Int × List ShardId)} (h : Sized (· = ·) avg extra i dealt)
    {d : Int × List ShardId} (hd : dealt[k]? = some d) : d.2.length = target avg extra (i + k) := by
  induction dealt generalizing i k with
  | nil => cases hd
  | cons d' dealt ih =>
    cases k with
    | zero =>
      cases hd
      exact h.1
    | succ k =>
      rw [ih h.2 hd, Nat.add_assoc, Nat.add_comm 1 k]

end

/-! ## Writing back -/

theorem foldl_update_of_not_mem {l : List ShardId} {s : ShardId} (h : s ∉ l) (gid : Int) (shards : ShardId → Int) :
    l.foldl (fun shards t => Function.update shards t gid) shards s = shards s := by
  induction l generalizing shards with
  | nil => rfl
  | cons t l ih =>
    rw [List.mem_cons, not_or] at h
    rw [List.foldl_cons, ih h.2, Function.update_of_ne h.1]

theorem foldl_update_of_mem {l : List ShardId} {s : ShardId} (h : s ∈ l) (gid : Int) (shards : ShardId → Int) :
    l.foldl (fun shards t => Function.update shards t gid) shards s = gid := by
  induction l generalizing shards with
  | nil => cases h
  | cons t l ih =>
    rw [List.foldl_cons]
    by_cases hs : s ∈ l
    · exact ih hs _
    · rw [foldl_update_of_not_mem hs, (List.mem_cons.mp h).resolve_right hs, Function.update_self]

theorem writeBack_of_not_mem {owned : List (Int × List ShardId)} {s : ShardId} (h : s ∉ owned.flatMap Prod.snd)
    (shards : ShardId → Int) : writeBack owned shards s = shards s := by
  induction owned generalizing shards with
  | nil => rfl
  | cons o owned ih =>
    rw [List.flatMap_cons, List.mem_append, not_or] at h
    have := ih h.2 (o.2.foldl (fun shards t => Function.update shards t o.1) shards)
    rw [foldl_update_of_not_mem h.1] at this
    exact this

theorem writeBack_of_mem {owned : List (Int × List ShardId)} (hnd : (owned.flatMap Prod.snd).Nodup)
    {o : Int × List ShardId} (ho : o ∈ owned) {s : ShardId} (hs : s ∈ o.2) (shards : ShardId → Int) :
    writeBack owned shards s = o.1 := by
  induction owned generalizing shards with
  | nil => cases ho
  | cons o' owned ih =>
    rw [List.flatMap_cons, List.nodup_append] at hnd
    show writeBack owned (o'.2.foldl (fun shards t => Function.update shards t o'.1) shards) s = o.1
    rcases List.mem_cons.mp ho with rfl | ho
    · rw [writeBack_of_not_mem, foldl_update_of_mem hs]
      intro hrest
      exact hnd.2.2 s hs s hrest rfl
    · exact ih hnd.2.1 ho _

/-! ## rebalance -/

section
variable {Srv : Type}

/-- Every shard is dealt to one group, and every group gets its target. -/
structure Dealt (gids : List Int) (owned : List (Int × List ShardId)) : Prop where
  gids_eq : owned.map Prod.fst = gids
  perm : (owned.flatMap Prod.snd).Perm (List.finRange nShards)
  sized : Sized (· = ·) (nShards / gids.length) (nShards % gids.length) 0 owned

theorem mem_sortedGIDs {groups : GoMap Int (List Srv)} {gid : Int} : gid ∈ sortedGIDs groups ↔ gid ∈ groups.keys :=
  (List.perm_insertionSort _ _).mem_iff

theorem length_sortedGIDs (groups : GoMap Int (List Srv)) : (sortedGIDs groups).length = groups.size := by
  rw [sortedGIDs, List.length_insertionSort, GoMap.keys, List.length_map, GoMap.size]

theorem nodup_sortedGIDs (groups : GoMap Int (List Srv)) : (sortedGIDs groups).Nodup :=
  (List.perm_insertionSort _ _).nodup_iff.mpr groups.nodup

theorem owned_perm {gids : List Int} (hnd : gids.Nodup) (f : ShardId → Int) :
    (((gids.map fun gid => (gid, (List.finRange nShards).filter fun s => f s ≠ 0 ∧ f s = gid)).flatMap Prod.snd) ++
      (List.finRange nShards).filter fun s => f s = 0 ∨ f s ∉ gids).Perm (List.finRange nShards) := by
  have hfin := List.nodup_finRange nShards
  simp only [List.flatMap_map]
  refine (List.perm_ext_iff_of_nodup ?_ hfin).mpr fun s => ?_
  · refine List.nodup_append.mpr ⟨List.nodup_flatMap.mpr ⟨fun _ _ => hfin.filter _, ?_⟩, hfin.filter _, ?_⟩
    · refine hnd.imp fun {a b} hne => ?_
      refine List.disjoint_left.mpr fun s ha hb => ?_
      simp only [List.mem_filter, decide_eq_true_eq] at ha hb
      exact hne (ha.2.2.symm.trans hb.2.2)
    · rintro s hs t ht rfl
      simp only [List.mem_flatMap, List.mem_filter, decide_eq_true_eq] at hs ht
      obtain ⟨gid, hgid, -, hne, rfl⟩ := hs
      rcases ht.2 with h | h
      · exact hne h
      · exact h hgid
  · simp only [List.mem_append, List.mem_flatMap, List.mem_filter, decide_eq_true_eq, List.mem_finRange, true_and, iff_true]
    by_cases hs : f s ≠ 0 ∧ f s ∈ gids
    · exact Or.inl ⟨f s, hs.2, hs.1, rfl⟩
    · refine Or.inr ?_
      rw [not_and_or, not_not] at hs
      exact hs

def holdings (gids : List Int) (shards : ShardId → Int) : List (Int × List ShardId) :=
  gids.map fun gid => (gid, (List.finRange nShards).filter fun s => shards s ≠ 0 ∧ shards s = gid)

def deal (nGroups : Nat) (gids : List Int) (shards : ShardId → Int) : Option (List (Int × List ShardId)) :=
  let avg := nShards / nGroups
  let extra := nShards % nGroups
  let (owned, pool) := trim avg extra 0 (holdings gids shards)
    ((List.finRange nShards).filter fun s => shards s = 0 ∨ shards s ∉ gids)
  refill avg extra 0 owned pool

theorem deal_spec {gids : List Int} (hnd : gids.Nodup) (h : gids.length ≠ 0) (shards : ShardId → Int) :
    ∃ owned, deal gids.length gids shards = some owned ∧ Dealt gids owned ∧
      Adjusted (nShards / gids.length) (nShards % gids.length) 0 (holdings gids shards) owned := by
  have hperm : ((holdings gids shards).flatMap Prod.snd ++ _).Perm _ := owned_perm hnd shards
  simp only [deal]
  generalize howned : holdings gids shards = owned at hperm ⊢
  generalize (List.finRange nShards).filter (fun s => decide (shards s = 0 ∨ shards s ∉ gids)) = pool at hperm ⊢
  obtain ⟨hfst, htrim, hsized⟩ := trim_spec (nShards / gids.length) (nShards % gids.length) 0 owned pool
  have hcut := trim_fst (nShards / gids.length) (nShards % gids.length) 0 owned pool
  have hgids : (trim (nShards / gids.length) (nShards % gids.length) 0 owned pool).1.map Prod.fst = gids := by
    rw [hfst, ← howned, holdings, List.map_map]
    exact List.map_id _
  generalize trim (nShards / gids.length) (nShards % gids.length) 0 owned pool = trimmed at *
  -- the pool holds exactly what is missing
  have hcount := (htrim.trans hperm).length_eq
  have hsum := shortage_add hsized
  rw [show trimmed.1.length = gids.length by rw [← congrArg List.length hgids, List.length_map], quota_total h] at hsum
  rw [List.length_append, List.length_finRange] at hcount
  obtain ⟨dealt, hdealt, hfst', hperm', hfull⟩ := refill_spec trimmed.2 (by omega) hsized
  rw [List.take_of_length_le (by omega)] at hperm'
  refine ⟨dealt, hdealt, ⟨hfst'.trans hgids, hperm'.trans (htrim.trans hperm), hfull⟩, ?_⟩
  rw [hcut] at hdealt
  exact refill_adjusted hdealt

theorem Config.rebalance_eq_deal {cfg : Config Srv} (h : cfg.groups.size ≠ 0) :
    cfg.rebalance = (deal cfg.groups.size (sortedGIDs cfg.groups) cfg.shards).map fun owned =>
      { cfg with shards := writeBack owned cfg.shards } := by
  simp only [rebalance, if_neg h, deal, holdings, Option.map_eq_bind]
  rfl

theorem Config.rebalance_dealt {cfg : Config Srv} (h : cfg.groups.size ≠ 0) : ∃ owned,
    Dealt (sortedGIDs cfg.groups) owned ∧
      Adjusted (nShards / cfg.groups.size) (nShards % cfg.groups.size) 0 (holdings (sortedGIDs cfg.groups) cfg.shards)
        owned ∧
      cfg.rebalance = some { cfg with shards := writeBack owned cfg.shards } := by
  rw [rebalance_eq_deal h, ← length_sortedGIDs]
  rw [← length_sortedGIDs] at h
  obtain ⟨owned, hdeal, hdealt, hadj⟩ := deal_spec (nodup_sortedGIDs cfg.groups) h cfg.shards
  exact ⟨owned, hdealt, hadj, by rw [hdeal, Option.map_some]⟩

theorem Dealt.mem {gids : List Int} {owned : List (Int × List ShardId)} (h : Dealt gids owned) (shards : ShardId → Int)
    (s : ShardId) : writeBack owned shards s ∈ gids := by
  obtain ⟨o, ho, hs⟩ := List.mem_flatMap.mp (h.perm.mem_iff.mpr (List.mem_finRange s))
  rw [writeBack_of_mem (h.perm.nodup_iff.mpr (List.nodup_finRange _)) ho hs, ← h.gids_eq]
  exact List.mem_map_of_mem ho

/-- `rebalance` never takes from an empty pool. It assigns every shard to a
group, if there is one. -/
theorem Config.rebalance_spec (cfg : Config Srv) : ∃ shards, cfg.rebalance = some { cfg with shards } ∧
    (cfg.groups.keys = [] → ∀ s, shards s = 0) ∧ (cfg.groups.keys ≠ [] → ∀ s, shards s ∈ cfg.groups.keys) := by
  by_cases h : cfg.groups.size = 0
  · refine ⟨fun _ => 0, by simp only [rebalance, if_pos h], fun _ _ => rfl, fun hne => absurd ?_ hne⟩
    rw [GoMap.keys, List.map_eq_nil_iff]
    exact List.eq_nil_of_length_eq_zero h
  · obtain ⟨owned, hdealt, -, hreb⟩ := rebalance_dealt h
    refine ⟨_, hreb, fun hnil => absurd ?_ h, fun _ s => mem_sortedGIDs.mp (hdealt.mem cfg.shards s)⟩
    rw [GoMap.keys, List.map_eq_nil_iff] at hnil
    rw [GoMap.size, hnil, List.length_nil]

/-! ## Shares -/

def Config.gids (cfg : Config Srv) : Finset Int := cfg.groups.keys.toFinset

variable {cfg : Config Srv} {shards : ShardId → Int} {owned : List (Int × List ShardId)} {gids : List Int}

theorem Config.mem_gids {gid : Int} : gid ∈ cfg.gids ↔ gid ∈ cfg.groups.keys := List.mem_toFinset

theorem Config.card_gids (cfg : Config Srv) : cfg.gids.card = cfg.groups.size := by
  rw [gids, GoMap.keys, List.toFinset_card_of_nodup cfg.groups.nodup, List.length_map, GoMap.size]

theorem pairwise_sortedGIDs (groups : GoMap Int (List Srv)) : (sortedGIDs groups).Pairwise (· < ·) := by
  have hsorted : (sortedGIDs groups).Pairwise (· ≤ ·) := List.pairwise_insertionSort _ _
  exact (hsorted.and (nodup_sortedGIDs groups)).imp fun h => lt_of_le_of_ne h.1 h.2

theorem Config.rank_gids {k : Nat} {gid : Int} (h : (sortedGIDs cfg.groups)[k]? = some gid) : rank cfg.gids gid = k := by
  have hsame : cfg.gids = (sortedGIDs cfg.groups).toFinset :=
    (List.toFinset_eq_of_perm _ _ (List.perm_insertionSort _ _)).symm
  rw [hsame]
  exact rank_of_pairwise (pairwise_sortedGIDs cfg.groups) h

theorem Config.share_eq_target {k : Nat} {gid : Int} (h : (sortedGIDs cfg.groups)[k]? = some gid) :
    share nShards cfg.gids gid = target (nShards / cfg.groups.size) (nShards % cfg.groups.size) k := by
  rw [share, rank_gids h, card_gids, target]
  split <;> rfl

theorem Dealt.writeBack_iff (h : Dealt gids owned) (hnd : gids.Nodup) {d : Int × List ShardId} (hd : d ∈ owned)
    (shards : ShardId → Int) (s : ShardId) : writeBack owned shards s = d.1 ↔ s ∈ d.2 := by
  have hflat := h.perm.nodup_iff.mpr (List.nodup_finRange _)
  refine ⟨fun heq => ?_, fun hs => writeBack_of_mem hflat hd hs shards⟩
  obtain ⟨o, ho, hs⟩ := List.mem_flatMap.mp (h.perm.mem_iff.mpr (List.mem_finRange s))
  rw [writeBack_of_mem hflat ho hs] at heq
  have hkeys : (owned.map Prod.fst).Nodup := by rwa [h.gids_eq]
  rwa [← List.inj_on_of_nodup_map hkeys ho hd heq]

theorem Dealt.load (h : Dealt gids owned) (hnd : gids.Nodup) {d : Int × List ShardId} (hd : d ∈ owned)
    (shards : ShardId → Int) : load (writeBack owned shards) d.1 = d.2.length := by
  have hflat := h.perm.nodup_iff.mpr (List.nodup_finRange _)
  have hfilter : (Finset.univ.filter fun s => writeBack owned shards s = d.1) = d.2.toFinset := by
    ext s
    simp only [Finset.mem_filter, Finset.mem_univ, true_and, List.mem_toFinset]
    exact h.writeBack_iff hnd hd shards s
  rw [DistLab.load, hfilter, List.toFinset_card_of_nodup ((List.nodup_flatMap.mp hflat).1 d hd)]

structure Config.Rebalanced (cfg : Config Srv) (shards : ShardId → Int) : Prop where
  mem : ∀ s, shards s ∈ cfg.gids
  load : ∀ gid ∈ cfg.gids, load shards gid = share nShards cfg.gids gid
  keeps : ∀ s, cfg.shards s ≠ 0 → cfg.shards s ∈ cfg.gids →
    DistLab.load cfg.shards (cfg.shards s) ≤ share nShards cfg.gids (cfg.shards s) → shards s = cfg.shards s
  gains : ∀ s, shards s ≠ 0 → share nShards cfg.gids (shards s) ≤ DistLab.load cfg.shards (shards s) →
    cfg.shards s = shards s

theorem Config.length_holding {gid : Int} (hne : gid ≠ 0) (cfg : Config Srv) :
    ((List.finRange nShards).filter fun s => cfg.shards s ≠ 0 ∧ cfg.shards s = gid).length = DistLab.load cfg.shards gid := by
  rw [DistLab.load, ← List.toFinset_card_of_nodup ((List.nodup_finRange _).filter _)]
  congr 1
  ext s
  simp only [List.mem_toFinset, List.mem_filter, List.mem_finRange, true_and, decide_eq_true_eq, Finset.mem_filter,
    Finset.mem_univ]
  exact ⟨fun h => h.2, fun h => ⟨h ▸ hne, h⟩⟩

theorem Config.adjusted_at {gid : Int} (hadj : Adjusted (nShards / cfg.groups.size) (nShards % cfg.groups.size) 0
    (holdings (sortedGIDs cfg.groups) cfg.shards) owned) (hmem : gid ∈ cfg.gids) (hne : gid ≠ 0) : ∃ d ∈ owned, d.1 = gid ∧
      (DistLab.load cfg.shards gid ≤ share nShards cfg.gids gid → ∀ s, cfg.shards s = gid → s ∈ d.2) ∧
      (share nShards cfg.gids gid ≤ DistLab.load cfg.shards gid → ∀ s ∈ d.2, cfg.shards s = gid) := by
  obtain ⟨k, hk⟩ := List.getElem?_of_mem (mem_sortedGIDs.mpr (mem_gids.mp hmem))
  obtain ⟨d, hd, hfst, hkeep, hgain⟩ := hadj.get (k := k) (by rw [holdings, List.getElem?_map, hk]; rfl)
  rw [length_holding hne, Nat.zero_add, ← share_eq_target hk] at hkeep hgain
  refine ⟨d, List.mem_of_getElem? hd, hfst, fun hle s hs => hkeep hle ?_, fun hle s hs => ?_⟩
  · simp [hs, hne]
  · have := hgain hle hs
    simp only [List.mem_filter, decide_eq_true_eq] at this
    exact this.2.2

theorem Config.rebalanced (hne : cfg.groups.keys ≠ []) :
    ∃ shards, cfg.rebalance = some { cfg with shards } ∧ cfg.Rebalanced shards := by
  have hsize : cfg.groups.size ≠ 0 := by
    intro h
    refine hne ?_
    rw [GoMap.keys, List.map_eq_nil_iff]
    exact List.eq_nil_of_length_eq_zero h
  obtain ⟨owned, hdealt, hadj, hreb⟩ := rebalance_dealt hsize
  have hnd := nodup_sortedGIDs cfg.groups
  have hin : ∀ s, writeBack owned cfg.shards s ∈ cfg.gids :=
    fun s => mem_gids.mpr (mem_sortedGIDs.mp (hdealt.mem cfg.shards s))
  refine ⟨_, hreb, hin, fun gid hgid => ?_, fun s hs hmem hle => ?_, fun s hs hle => ?_⟩
  · obtain ⟨k, hk⟩ := List.getElem?_of_mem (mem_sortedGIDs.mpr (mem_gids.mp hgid))
    have hkey := hk
    rw [← hdealt.gids_eq, List.getElem?_map, Option.map_eq_some_iff] at hkey
    obtain ⟨d, hd, rfl⟩ := hkey
    rw [hdealt.load hnd (List.mem_of_getElem? hd), hdealt.sized.get hd, share_eq_target hk, Nat.zero_add, length_sortedGIDs]
  · obtain ⟨d, hd, hfst, hkeep, -⟩ := adjusted_at hadj hmem hs
    rw [← hfst]
    exact (hdealt.writeBack_iff hnd hd _ s).mpr (hkeep hle s rfl)
  · obtain ⟨d, hd, hfst, -, hgain⟩ := adjusted_at hadj (hin s) hs
    exact hgain hle s ((hdealt.writeBack_iff hnd hd _ s).mp hfst.symm)

theorem Config.rebalance_shares (cfg : Config Srv) (hne : cfg.groups.keys ≠ []) :
    ∃ new, cfg.rebalance = some new ∧ new.num = cfg.num ∧ new.groups = cfg.groups ∧
      (∀ s, new.shards s ∈ cfg.groups.keys) ∧ ∀ gid ∈ cfg.groups.keys, DistLab.load new.shards gid =
        nShards / cfg.groups.size + if rank cfg.gids gid < nShards % cfg.groups.size then 1 else 0 := by
  obtain ⟨shards, hreb, hnew⟩ := rebalanced hne
  refine ⟨_, hreb, rfl, rfl, fun s => mem_gids.mp (hnew.mem s), fun gid hgid => ?_⟩
  rw [hnew.load gid (mem_gids.mpr hgid), share, card_gids]

theorem Config.rebalance_shares_unknown :
    let cfg : Config Nat := { num := 4, shards := fun _ => 9, groups := (GoMap.empty.insert 5 []).insert 2 [] }
    cfg.groups.keys ≠ [] ∧ ∃ new, cfg.rebalance = some new ∧ new.num = cfg.num ∧ new.groups = cfg.groups ∧
      (∀ s, new.shards s ∈ cfg.groups.keys) ∧ ∀ gid ∈ cfg.groups.keys, DistLab.load new.shards gid =
        nShards / cfg.groups.size + if rank cfg.gids gid < nShards % cfg.groups.size then 1 else 0 :=
  ⟨by decide, rebalance_shares _ (by decide)⟩

end

end DistLab
