import DistLab.Lib.GoMap
import Mathlib.Data.Fintype.Basic
import Mathlib.Data.List.FinRange
import Mathlib.Data.List.Sort

/-!
# shardctrler

The configurations that tell which group owns which shard, and how the
controller makes the next one from the latest. The name of a server has an
arbitrary type. A slice expression out of range panics in Go; here it gives
`none`.
-/

namespace DistLab

def nShards : Nat := 10

abbrev ShardId := Fin nShards

/-! ## Configurations -/

/-- A gid of `0` means that nobody owns the shard. -/
structure Config (Srv : Type) where
  num : Nat
  shards : ShardId → Int
  groups : GoMap Int (List Srv)

section
variable {Srv : Type}

def Config.zero : Config Srv := ⟨0, fun _ => 0, GoMap.empty⟩

def sortedGIDs (groups : GoMap Int (List Srv)) : List Int := groups.keys.insertionSort (· ≤ ·)

/-! ## rebalance -/

/-- How many shards the `i`-th group in ascending order gets. -/
def target (avg extra i : Nat) : Nat := if i < extra then avg + 1 else avg

/-- What the `i`-th group holds beyond its target goes to the pool. -/
def trim (avg extra : Nat) : Nat → List (Int × List ShardId) → List ShardId → List (Int × List ShardId) × List ShardId
  | _, [], pool => ([], pool)
  | i, (gid, shards) :: owned, pool =>
    let t := target avg extra i
    if t < shards.length then
      let (rest, pool) := trim avg extra (i + 1) owned (pool ++ shards.drop t)
      ((gid, shards.take t) :: rest, pool)
    else
      let (rest, pool) := trim avg extra (i + 1) owned pool
      ((gid, shards) :: rest, pool)

def takePool : Nat → List ShardId → Option (List ShardId × List ShardId)
  | 0, pool => some ([], pool)
  | _ + 1, [] => none
  | n + 1, shard :: pool => (takePool n pool).map fun (shards, pool) => (shard :: shards, pool)

def refill (avg extra : Nat) : Nat → List (Int × List ShardId) → List ShardId → Option (List (Int × List ShardId))
  | _, [], _ => some []
  | i, (gid, shards) :: owned, pool => do
    let (more, pool) ← takePool (target avg extra i - shards.length) pool
    let rest ← refill avg extra (i + 1) owned pool
    some ((gid, shards ++ more) :: rest)

def writeBack (owned : List (Int × List ShardId)) (shards : ShardId → Int) : ShardId → Int :=
  owned.foldl (fun shards o => o.2.foldl (fun shards shard => Function.update shards shard o.1) shards) shards

def Config.rebalance (cfg : Config Srv) : Option (Config Srv) :=
  let nGroups := cfg.groups.size
  if nGroups = 0 then some { cfg with shards := fun _ => 0 }
  else do
    let gids := sortedGIDs cfg.groups
    let avg := nShards / nGroups
    let extra := nShards % nGroups
    let owned := gids.map fun gid => (gid, (List.finRange nShards).filter fun s => cfg.shards s ≠ 0 ∧ cfg.shards s = gid)
    let unassigned := (List.finRange nShards).filter fun s => cfg.shards s = 0 ∨ cfg.shards s ∉ gids
    let (owned, pool) := trim avg extra 0 owned unassigned
    let owned ← refill avg extra 0 owned pool
    some { cfg with shards := writeBack owned cfg.shards }

/-! ## The operations -/

inductive CtrlOp (Srv : Type)
  | join (servers : GoMap Int (List Srv))
  | leave (gids : List Int)
  | move (shard gid : Int)
  | query (num : Int)

def Config.clone (latest : Config Srv) : Config Srv := { latest with num := latest.num + 1 }

def Config.join (latest : Config Srv) (servers : GoMap Int (List Srv)) : Option (Config Srv) :=
  let groups := servers.entries.foldl (fun groups e => groups.insert e.1 e.2) latest.groups
  { latest.clone with groups }.rebalance

def Config.leave (latest : Config Srv) (gids : List Int) : Option (Config Srv) :=
  let groups := gids.foldl GoMap.delete latest.groups
  let shards := fun s => if latest.shards s ∈ gids then 0 else latest.shards s
  { latest.clone with groups, shards }.rebalance

def Config.move (latest : Config Srv) (shard gid : Int) : Option (Config Srv) :=
  if h : 0 ≤ shard ∧ shard.toNat < nShards then
    some { latest.clone with shards := Function.update latest.shards ⟨shard.toNat, h.2⟩ gid }
  else none

/-- `applyOp` on the list `configs`; only `Query` answers with a configuration. -/
def CtrlOp.apply (configs : List (Config Srv)) : CtrlOp Srv → Option (List (Config Srv) × Config Srv)
  | .join servers => do
    let latest ← configs.getLast?
    let newCfg ← latest.join servers
    some (configs ++ [newCfg], Config.zero)
  | .leave gids => do
    let latest ← configs.getLast?
    let newCfg ← latest.leave gids
    some (configs ++ [newCfg], Config.zero)
  | .move shard gid => do
    let latest ← configs.getLast?
    let newCfg ← latest.move shard gid
    some (configs ++ [newCfg], Config.zero)
  | .query num => do
    let cfg ← if num = -1 ∨ configs.length ≤ num then configs.getLast? else if 0 ≤ num then configs[num.toNat]? else none
    some (configs, cfg)

def ctrlConfigs : List (CtrlOp Srv) → Option (List (Config Srv)) :=
  List.foldlM (fun configs op => (op.apply configs).map Prod.fst) [Config.zero]

/-- What `Query(n)` returns, the latest configuration if there is no `n`-th. -/
def queryConfig (configs : List (Config Srv)) (n : Nat) : Config Srv :=
  (configs[n]?).getD (configs.getLast?.getD Config.zero)

end

end DistLab
