import DistLab.Ctrler.Server
import DistLab.Kv.Store
import DistLab.Service.Group

/-!
# One shardkv group

The replicated state of a group, the applier on every kind of command, and what
the background goroutines and the migration handlers read of it. The servers of
a group are numbered.
-/

namespace DistLab

/-! ## State -/

inductive ShardState
  | serving
  | pulling
  | bePulling
  | gcing
deriving DecidableEq, Repr

structure Shard where
  state : ShardState
  kv : Store

structure DupEntry where
  seqId : Nat
  reply : KvReply
deriving DecidableEq, Repr

abbrev DupTable := Nat → Option DupEntry

/-- `Op` by its type; the fields of the other types are left out. -/
inductive ShardCmd
  | kv (clientId seqId : Nat) (op : KvInput)
  | config (config : Config Nat)
  | install (configNum : Nat) (shards : ShardId → Option Store) (dupTable : DupTable)
  | gc (configNum : Nat) (shardIds : List ShardId)

structure ShardOp where
  internalId : Nat
  cmd : ShardCmd

structure ShardKv where
  config : Config Nat
  lastConfig : Config Nat
  shards : ShardId → Shard
  dupTable : DupTable

def key2shard (key : GoString) : ShardId :=
  match key with
  | [] => ⟨0, by decide⟩
  | b :: _ => ⟨b.toNat % nShards, Nat.mod_lt _ (by decide)⟩

namespace ShardKv

def init : ShardKv where
  config := Config.zero
  lastConfig := Config.zero
  shards _ := ⟨.serving, Store.empty⟩
  dupTable _ := none

def setShard (kv : ShardKv) (i : ShardId) (s : Shard) : ShardKv := { kv with shards := Function.update kv.shards i s }

/-! ## Client operations -/

def Accepts (gid : Int) (kv : ShardKv) (i : ShardId) : Prop :=
  kv.config.shards i = gid ∧ ((kv.shards i).state = .serving ∨ (kv.shards i).state = .gcing)

instance (gid : Int) (kv : ShardKv) (i : ShardId) : Decidable (kv.Accepts gid i) :=
  inferInstanceAs (Decidable (_ ∧ (_ ∨ _)))

def duplicate (kv : ShardKv) (clientId seqId : Nat) : Option KvReply :=
  match kv.dupTable clientId with
  | some last => if seqId ≤ last.seqId then some last.reply else none
  | none => none

def applyKVOp (kv : ShardKv) (op : KvInput) : ShardKv × KvReply :=
  let i := key2shard op.key
  let (m, r) := (kv.shards i).kv.applyOp op
  (kv.setShard i { kv.shards i with kv := m }, r)

def applyClient (gid : Int) (kv : ShardKv) (clientId seqId : Nat) (op : KvInput) : ShardKv × KvReply :=
  if ¬ kv.Accepts gid (key2shard op.key) then (kv, ⟨.errWrongGroup, []⟩)
  else if op.opType ≠ .get then
    match kv.duplicate clientId seqId with
    | some r => (kv, r)
    | none =>
      let (kv, r) := kv.applyKVOp op
      ({ kv with dupTable := Function.update kv.dupTable clientId (some ⟨seqId, r⟩) }, r)
  else kv.applyKVOp op

/-! ## Commands of the group itself -/

def reassign (gid : Int) (last next : Config Nat) (i : ShardId) (s : Shard) : Shard :=
  let nowOwner := next.shards i = gid
  let wasOwner := last.shards i = gid
  let prevGid := last.shards i
  if nowOwner ∧ ¬ wasOwner then
    if prevGid = 0 then { s with state := .serving } else { s with state := .pulling }
  else if ¬ nowOwner ∧ wasOwner then { s with state := .bePulling }
  else s

def applyConfig (gid : Int) (kv : ShardKv) (config : Config Nat) : ShardKv :=
  if config.num ≠ kv.config.num + 1 then kv
  else
    { kv with
      lastConfig := kv.config
      config
      shards := fun i => reassign gid kv.config config i (kv.shards i) }

def installShard (s : Shard) (data : Option Store) : Shard :=
  match data with
  | some m => if s.state = .pulling then ⟨.gcing, m⟩ else s
  | none => s

/-- The entry with the larger number wins. -/
def mergeEntry (own other : Option DupEntry) : Option DupEntry :=
  match other with
  | some entry =>
    match own with
    | some existing => if existing.seqId < entry.seqId then some entry else some existing
    | none => some entry
  | none => own

def applyInstall (kv : ShardKv) (configNum : Nat) (shards : ShardId → Option Store) (dupTable : DupTable) : ShardKv :=
  if configNum ≠ kv.config.num then kv
  else
    { kv with
      shards := fun i => installShard (kv.shards i) (shards i)
      dupTable := fun c => mergeEntry (kv.dupTable c) (dupTable c) }

def collectShard (s : Shard) : Shard :=
  match s.state with
  | .bePulling => ⟨.serving, Store.empty⟩
  | .gcing => { s with state := .serving }
  | _ => s

def applyGC (kv : ShardKv) (configNum : Nat) (shardIds : List ShardId) : ShardKv :=
  shardIds.foldl (fun kv i => if kv.config.num = configNum then kv.setShard i (collectShard (kv.shards i)) else kv) kv

def apply (gid : Int) (kv : ShardKv) (op : ShardOp) : ShardKv × KvReply :=
  match op.cmd with
  | .kv clientId seqId op => kv.applyClient gid clientId seqId op
  | .config config => (kv.applyConfig gid config, ⟨.ok, []⟩)
  | .install configNum shards dupTable => (kv.applyInstall configNum shards dupTable, ⟨.ok, []⟩)
  | .gc configNum shardIds => (kv.applyGC configNum shardIds, ⟨.ok, []⟩)

/-! ## What goroutines and handlers read -/

/-- The check of `configPoller`. -/
def allStable (kv : ShardKv) : Bool := (List.finRange nShards).all fun i => (kv.shards i).state = .serving

/-- The shards in this state whose previous owner is `gid`: a list of `pullMap`
or of `gcMap`. -/
def fromOwner (kv : ShardKv) (state : ShardState) (gid : Int) : List ShardId :=
  (List.finRange nShards).filter fun i => (kv.shards i).state = state ∧ kv.lastConfig.shards i = gid

/-- `PullShard`; `none` is `ErrNotReady`. -/
def pullShard (kv : ShardKv) (configNum : Nat) (shardIds : List ShardId) :
    Option ((ShardId → Option Store) × DupTable) :=
  if kv.config.num < configNum then none
  else some (fun i => if i ∈ shardIds then some (kv.shards i).kv else none, kv.dupTable)

/-- `GCShard` answers `OK` without a command. -/
def alreadyGCed (kv : ShardKv) (configNum : Nat) (shardIds : List ShardId) : Bool :=
  configNum < kv.config.num ∨ shardIds.all fun i => (kv.shards i).state ≠ .bePulling

end ShardKv

def shardMachine (gid : Int) : Machine ShardOp Nat ShardKv KvReply where
  init := ShardKv.init
  apply := ShardKv.apply gid
  ident := ShardOp.internalId
  noId := 0
  wrongLeader := ⟨.errWrongLeader, []⟩
  timeout := ⟨.errTimeout, []⟩

end DistLab
