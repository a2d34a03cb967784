import DistLab.Ctrler.Staffed

/-!
# The order of iteration

Four loops of `applyOp` range over a map. Each may take its own order, and every
replica another one; the configuration that comes out is the same.
-/

namespace DistLab

section
variable {Srv : Type} {latest latest' cfg cfg' new new' : Config Srv} {servers servers' : GoMap Int (List Srv)}

/-! ## applyOp with given orders -/

structure Orders (Srv : Type) where
  /-- `for gid, servers := range latest.Groups` in `cloneLatestConfig` -/
  latest : RangeOrder (Int × List Srv)
  /-- `for gid, servers := range op.Servers` -/
  servers : RangeOrder (Int × List Srv)
  /-- `for gid := range groups` in `sortedGIDs` -/
  groups : RangeOrder Int
  /-- `for gid, shards := range owned` -/
  owned : RangeOrder (Int × List ShardId)

def Config.cloneIn (o : Orders Srv) (latest : Config Srv) : Config Srv where
  num := latest.num + 1
  shards := latest.shards
  groups := (o.latest.visit latest.groups.entries).foldl (fun groups e => groups.insert e.1 e.2) GoMap.empty

def sortedGIDsIn (o : Orders Srv) (groups : GoMap Int (List Srv)) : List Int :=
  (o.groups.visit groups.keys).insertionSort (· ≤ ·)

def Config.rebalanceIn (o : Orders Srv) (cfg : Config Srv) : Option (Config Srv) :=
  let nGroups := cfg.groups.size
  if nGroups = 0 then some { cfg with shards := fun _ => 0 }
  else do
    let owned ← deal nGroups (sortedGIDsIn o cfg.groups) cfg.shards
    some { cfg with shards := writeBack (o.owned.visit owned) cfg.shards }

def Config.joinIn (o : Orders Srv) (latest : Config Srv) (servers : GoMap Int (List Srv)) : Option (Config Srv) :=
  let newCfg := latest.cloneIn o
  let groups := (o.servers.visit servers.entries).foldl (fun groups e => groups.insert e.1 e.2) newCfg.groups
  { newCfg with groups }.rebalanceIn o

def Config.leaveIn (o : Orders Srv) (latest : Config Srv) (gids : List Int) : Option (Config Srv) :=
  let newCfg := latest.cloneIn o
  let groups := gids.foldl GoMap.delete newCfg.groups
  let shards := fun s => if newCfg.shards s ∈ gids then 0 else newCfg.shards s
  { newCfg with groups, shards }.rebalanceIn o

def Config.moveIn (o : Orders Srv) (latest : Config Srv) (shard gid : Int) : Option (Config Srv) :=
  let newCfg := latest.cloneIn o
  if h : shard.toNat < nShards ∧ 0 ≤ shard then
    some { newCfg with shards := Function.update newCfg.shards ⟨shard.toNat, h.1⟩ gid }
  else none

def CtrlOp.makesIn (o : Orders Srv) (latest : Config Srv) : CtrlOp Srv → Option (Config Srv)
  | .join servers => latest.joinIn o servers
  | .leave gids => latest.leaveIn o gids
  | .move shard gid => latest.moveIn o shard gid
  | .query _ => none

/-- The list `configs` after the writes, each with orders of its own. -/
def ctrlConfigsIn : List (Orders Srv × CtrlOp Srv) → Option (List (Config Srv)) :=
  List.foldlM (fun configs w => do
    let latest ← configs.getLast?
    let newCfg ← w.2.makesIn w.1 latest
    some (configs ++ [newCfg])) [Config.zero]

/-! ## The same configuration -/

structure Config.Same (cfg cfg' : Config Srv) : Prop where
  num : cfg.num = cfg'.num
  shards : cfg.shards = cfg'.shards
  groups : cfg.groups.Same cfg'.groups

theorem Config.Same.refl (cfg : Config Srv) : cfg.Same cfg := ⟨rfl, rfl, fun _ => rfl⟩

theorem Config.Same.symm (h : cfg.Same cfg') : cfg'.Same cfg := ⟨h.num.symm, h.shards.symm, fun gid => (h.groups gid).symm⟩

theorem Config.Same.trans {cfg'' : Config Srv} (h : cfg.Same cfg') (h' : cfg'.Same cfg'') : cfg.Same cfg'' :=
  ⟨h.num.trans h'.num, h.shards.trans h'.shards, fun gid => (h.groups gid).trans (h'.groups gid)⟩

theorem sortedGIDsIn_eq (o : Orders Srv) {groups groups' : GoMap Int (List Srv)} (h : groups.Same groups') :
    sortedGIDsIn o groups = sortedGIDs groups' := by
  have hperm : (sortedGIDsIn o groups).Perm (sortedGIDs groups') :=
    (List.perm_insertionSort _ _).trans (((o.groups.perm _).trans h.keys_perm).trans (List.perm_insertionSort _ _).symm)
  exact hperm.eq_of_pairwise' (List.pairwise_insertionSort _ _) (List.pairwise_insertionSort _ _)

/-- The lists that are written back have no shard in common. -/
theorem Dealt.writeBack_perm {gids : List Int} {owned owned' : List (Int × List ShardId)} (h : Dealt gids owned)
    (hperm : owned'.Perm owned) (shards shards' : ShardId → Int) : writeBack owned' shards' = writeBack owned shards := by
  funext s
  have hflat := h.perm.nodup_iff.mpr (List.nodup_finRange _)
  have hflat' := (hperm.flatMap_right Prod.snd).nodup_iff.mpr hflat
  obtain ⟨d, hd, hs⟩ := List.mem_flatMap.mp (h.perm.mem_iff.mpr (List.mem_finRange s))
  rw [writeBack_of_mem hflat hd hs, writeBack_of_mem hflat' (hperm.mem_iff.mpr hd) hs]

theorem Config.Same.rebalanceIn (h : cfg.Same cfg') (o : Orders Srv) (hnew : cfg'.rebalance = some new') :
    ∃ new, cfg.rebalanceIn o = some new ∧ new.Same new' := by
  have hsize : cfg.groups.size = cfg'.groups.size := by
    simpa [GoMap.keys, GoMap.size] using h.groups.keys_perm.length_eq
  simp only [Config.rebalanceIn]
  rw [hsize]
  by_cases h0 : cfg'.groups.size = 0
  · rw [if_pos h0]
    simp only [rebalance, if_pos h0, Option.some.injEq] at hnew
    subst hnew
    exact ⟨_, rfl, h.num, rfl, h.groups⟩
  · rw [if_neg h0, sortedGIDsIn_eq o h.groups, h.shards]
    have hlen : (sortedGIDs cfg'.groups).length ≠ 0 := by rwa [length_sortedGIDs]
    obtain ⟨owned, hdeal, hdealt, -⟩ := deal_spec (nodup_sortedGIDs cfg'.groups) hlen cfg'.shards
    rw [length_sortedGIDs] at hdeal
    rw [rebalance_eq_deal h0, hdeal, Option.map_some, Option.some.injEq] at hnew
    subst hnew
    rw [hdeal]
    exact ⟨_, rfl, h.num, hdealt.writeBack_perm (o.owned.perm owned) _ _, h.groups⟩

theorem Config.Same.cloneIn (h : latest.Same latest') (o : Orders Srv) : (latest.cloneIn o).Same latest'.clone where
  num := congrArg (· + 1) h.num
  shards := h.shards
  groups gid := by
    rw [Config.cloneIn, GoMap.get?_inserts (o.latest.perm _), h.groups gid]
    exact Option.or_none

theorem Config.Same.joinIn (h : latest.Same latest') (hs : servers.Same servers') (o : Orders Srv)
    (hnew : latest'.join servers' = some new') : ∃ new, latest.joinIn o servers = some new ∧ new.Same new' := by
  refine Same.rebalanceIn ?_ o hnew
  refine ⟨(h.cloneIn o).num, (h.cloneIn o).shards, fun gid => ?_⟩
  rw [GoMap.get?_inserts (o.servers.perm _), GoMap.get?_inserts (List.Perm.refl _), (h.cloneIn o).groups gid, hs gid]
  rfl

theorem Config.Same.leaveIn (h : latest.Same latest') {gids : List Int} (o : Orders Srv)
    (hnew : latest'.leave gids = some new') : ∃ new, latest.leaveIn o gids = some new ∧ new.Same new' := by
  refine Same.rebalanceIn ?_ o hnew
  refine ⟨(h.cloneIn o).num, ?_, fun gid => ?_⟩
  · simp only [(h.cloneIn o).shards]
    rfl
  · rw [GoMap.get?_deletes, GoMap.get?_deletes, (h.cloneIn o).groups gid]
    rfl

/-- Replicas whose latest configurations agree make configurations that agree,
whatever the orders. -/
theorem orders_agree (o o' : Orders Srv) (latest latest' : Config Srv) (h : latest.Same latest') :
    (∀ servers servers' : GoMap Int (List Srv), servers.Same servers' → ∃ new new',
      latest.joinIn o servers = some new ∧ latest'.joinIn o' servers' = some new' ∧ new.Same new') ∧
    ∀ gids, ∃ new new', latest.leaveIn o gids = some new ∧ latest'.leaveIn o' gids = some new' ∧ new.Same new' := by
  constructor
  · intro servers servers' hs
    obtain ⟨made, hmade⟩ := (CtrlOp.join servers').makes_some rfl trivial latest'
    obtain ⟨new, hnew, hsame⟩ := h.joinIn hs o hmade
    obtain ⟨new', hnew', hsame'⟩ := (Config.Same.refl latest').joinIn (fun _ => rfl) o' hmade
    exact ⟨new, new', hnew, hnew', hsame.trans hsame'.symm⟩
  · intro gids
    obtain ⟨made, hmade⟩ := (CtrlOp.leave gids).makes_some rfl trivial latest'
    obtain ⟨new, hnew, hsame⟩ := h.leaveIn o hmade
    obtain ⟨new', hnew', hsame'⟩ := (Config.Same.refl latest').leaveIn o' hmade
    exact ⟨new, new', hnew, hnew', hsame.trans hsame'.symm⟩

/-- A replica that visits every map backwards. -/
theorem orders_agree_backwards :
    let forth : Orders Nat := ⟨⟨id, .refl⟩, ⟨id, .refl⟩, ⟨id, .refl⟩, ⟨id, .refl⟩⟩
    let back : Orders Nat := ⟨⟨_, List.reverse_perm⟩, ⟨_, List.reverse_perm⟩, ⟨_, List.reverse_perm⟩, ⟨_, List.reverse_perm⟩⟩
    let latest : Config Nat := { num := 0, shards := fun _ => 3, groups := (GoMap.empty.insert 3 [0]).insert 1 [1] }
    let latest' : Config Nat := { num := 0, shards := fun _ => 3, groups := (GoMap.empty.insert 1 [1]).insert 3 [0] }
    latest.Same latest' ∧ ∀ gids, ∃ new new', latest.leaveIn forth gids = some new ∧
      latest'.leaveIn back gids = some new' ∧ new.Same new' := by
  intro forth back latest latest'
  have hsame : latest.Same latest' := by
    refine ⟨rfl, rfl, fun gid => ?_⟩
    by_cases h1 : gid = 1
    · subst h1; rfl
    · by_cases h3 : gid = 3
      · subst h3; rfl
      · simp only [latest, latest', GoMap.get?_insert_of_ne h1, GoMap.get?_insert_of_ne h3]
  exact ⟨hsame, (orders_agree forth back latest latest' hsame).2⟩

/-! ## Histories -/

theorem Config.Same.makesIn (h : latest.Same latest') {op : CtrlOp Srv} (o : Orders Srv)
    (hnew : op.makes latest' = some new') : ∃ new, op.makesIn o latest = some new ∧ new.Same new' := by
  cases op with
  | join servers => exact h.joinIn (fun _ => rfl) o hnew
  | leave gids => exact h.leaveIn o hnew
  | move shard gid =>
    simp only [CtrlOp.makes, Config.move] at hnew
    split at hnew
    · rename_i hr
      cases hnew
      refine ⟨_, dif_pos hr.symm, (h.cloneIn o).num, ?_, (h.cloneIn o).groups⟩
      exact congrArg (Function.update · _ gid) (h.cloneIn o).shards
    · cases hnew
  | query num => cases hnew

theorem exists_getLast?_of_forall₂ {α : Type} {R : α → α → Prop} {l l' : List α} {b : α} (h : List.Forall₂ R l l')
    (hb : l'.getLast? = some b) : ∃ a, l.getLast? = some a ∧ R a b := by
  rw [List.getLast?_eq_head?_reverse] at hb ⊢
  have hrev := List.forall₂_reverse_iff.mpr h
  generalize l.reverse = r, l'.reverse = r' at hb hrev
  cases hrev with
  | nil => cases hb
  | cons hab _ =>
    cases hb
    exact ⟨_, rfl, hab⟩

theorem ctrlConfigsIn_same {ws : List (Orders Srv × CtrlOp Srv)} (hw : ∀ w ∈ ws, w.2.isWrite = true)
    {configs : List (Config Srv)} (h : ctrlConfigs (ws.map Prod.snd) = some configs) :
    ∃ configs', ctrlConfigsIn ws = some configs' ∧ List.Forall₂ Config.Same configs' configs := by
  induction ws using List.reverseRecOn generalizing configs with
  | nil =>
    cases h
    exact ⟨_, rfl, .cons (.refl _) .nil⟩
  | append_singleton ws w ih =>
    rw [List.map_append, List.map_singleton, ctrlConfigs_snoc, Option.bind_eq_some_iff] at h
    obtain ⟨old, hold, h⟩ := h
    obtain ⟨old', hold', hall⟩ := ih (fun w hmem => hw w (List.mem_append_left _ hmem)) hold
    obtain ⟨latest, hlast, -⟩ := (counted_ctrlConfigs hold).exists_latest
    rw [CtrlOp.apply_write (hw w (by simp)) hlast, Option.map_map, Option.map_eq_some_iff] at h
    obtain ⟨new, hnew, rfl⟩ := h
    obtain ⟨latest', hlast', hsame⟩ := exists_getLast?_of_forall₂ hall hlast
    obtain ⟨new', hnew', hsame'⟩ := hsame.makesIn w.1 hnew
    refine ⟨old' ++ [new'], ?_, List.rel_append hall (.cons hsame' .nil)⟩
    simp only [ctrlConfigsIn, List.foldlM_append] at hold' ⊢
    rw [hold']
    simp [hlast', hnew']

end

end DistLab
