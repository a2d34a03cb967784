import DistLab.Lib.Runs
import DistLab.Shard.Server

/-!
# The shardkv system

Any number of groups, each a replicated service, with the goroutines that move
shards between them, and the clerks. Every message may be lost, late or handled
more than once, and any replica may take itself for the leader. The random
`InternalId` of a command is a number that was not used before; gid `0` is no
group.

`configs n` is what `Query(n)` returns. `overtakes` is as in `Group.act`.
-/

namespace DistLab

/-! ## Messages -/

/-- `GetArgs` or `PutAppendArgs` on the way to a server of a group, for the call
with this number. -/
structure ShardRequest where
  gid : Int
  server : Nat
  clientId : Nat
  seqId : Nat
  op : KvInput
  call : Nat
deriving DecidableEq, Repr

def ShardRequest.answer (req : ShardRequest) (r : KvReply) : KvReply :=
  match req.op.opType with
  | .get => r
  | _ => ⟨r.err, []⟩

/-- A goroutine of `migrationPuller` or `gcHandler` of group `gid`: it asks the
servers of group `src` about some shards. -/
structure MoveRequest where
  gid : Int
  src : Int
  servers : List Nat
  configNum : Nat
  shardIds : List ShardId
deriving DecidableEq, Repr

/-- `PullShardReply`, with the goroutine that gets it. -/
structure PullReply where
  req : MoveRequest
  shards : ShardId → Option Store
  dupTable : DupTable

inductive ShardTok
  | client (req : ShardRequest)
  | gc (req : MoveRequest)

/-! ## The clerk -/

inductive ClerkStage
  /-- before it looks up the group of the shard -/
  | lookup
  /-- at the head of the inner loop -/
  | next (gid : Int) (servers : List Nat) (si i : Nat)
  /-- inside `Call` -/
  | calling (gid : Int) (servers : List Nat) (si i : Nat)
  /-- before `Query(-1)` -/
  | refresh
deriving DecidableEq, Repr

structure ShardClerk where
  config : Config Nat
  seqId : Nat
  leaderIds : Int → Nat
  current : Option KvInput
  stage : ClerkStage
  /-- the number of the last call -/
  call : Nat

namespace ShardClerk

def init : ShardClerk := ⟨Config.zero, 0, fun _ => 0, none, .lookup, 0⟩

def begin (ck : ShardClerk) (op : KvInput) : ShardClerk :=
  { ck with seqId := ck.seqId + 1, current := some op, stage := .lookup }

def lookup (ck : ShardClerk) (op : KvInput) : ShardClerk :=
  let gid := ck.config.shards (key2shard op.key)
  match ck.config.groups.get? gid with
  | some servers => { ck with stage := .next gid servers (ck.leaderIds gid) 0 }
  | none => { ck with stage := .refresh }

/-- After a call without an answer to return: the next server in turn. -/
def advance (gid : Int) (servers : List Nat) (si i : Nat) : ClerkStage :=
  .next gid servers ((si + 1) % servers.length) (i + 1)

def receive (ck : ShardClerk) (gid : Int) (servers : List Nat) (si i : Nat) (op : KvInput) (reply : KvReply) :
    ShardClerk :=
  match op.returns reply with
  | some _ => { ck with leaderIds := Function.update ck.leaderIds gid si, current := none, stage := .lookup }
  | none =>
    if reply.err = .errWrongGroup then { ck with stage := .refresh }
    else { ck with stage := advance gid servers si i }

end ShardClerk

/-! ## The system -/

abbrev ShardGroup := Group ShardOp Nat ShardKv KvReply ShardTok

structure ShardSystem where
  /-- by gid -/
  group : Int → ShardGroup
  /-- by client id -/
  clerk : Nat → ShardClerk
  requests : List ShardRequest
  replies : List (ShardRequest × KvReply)
  /-- `configPoller` between its query and `Start` -/
  polled : List (Int × Config Nat)
  pulls : List MoveRequest
  pulled : List PullReply
  gcs : List MoveRequest
  /-- `GCShard` at a replica, between its checks and `submitOp` -/
  checked : List (MoveRequest × Nat)
  /-- the requests that `GCShard` answered with `OK` -/
  gced : List MoveRequest
  nextId : Nat

inductive ShardAct
  | invoke (c : Nat) (op : KvInput)
  | lookup (c : Nat)
  | call (c : Nat)
  | receive (k : Nat)
  | fail (c : Nat)
  | query (c n : Nat)
  | accept (k index : Nat)
  | refuse (k : Nat)
  | inner (gid : Int) (a : Inner)
  | poll (gid : Int) (r : Nat)
  | startConfig (k index : Nat)
  | pull (gid : Int) (r : Nat) (src : Int)
  | pullShard (k r : Nat)
  | startInstall (k index : Nat)
  | gc (gid : Int) (r : Nat) (src : Int)
  | gcShard (k r : Nat)
  | gcSubmit (k index : Nat)
  | startGC (k index : Nat)
deriving DecidableEq, Repr

namespace ShardSystem

def init : ShardSystem where
  group gid := Group.init (shardMachine gid)
  clerk _ := ShardClerk.init
  requests := []
  replies := []
  polled := []
  pulls := []
  pulled := []
  gcs := []
  checked := []
  gced := []
  nextId := 1

section
variable (σ : ShardSystem)

/-- The replicated state of a group: all its committed commands, executed. -/
def kv (gid : Int) : ShardKv := (shardMachine gid).replay (σ.group gid).log

def replica (gid : Int) (r : Nat) : ShardKv := ((σ.group gid).replica r).state

def setGroup (gid : Int) (g : ShardGroup) : ShardSystem := { σ with group := Function.update σ.group gid g }

def setClerk (c : Nat) (ck : ShardClerk) : ShardSystem := { σ with clerk := Function.update σ.clerk c ck }

def start (gid : Int) (cmd : ShardCmd) (index : Nat) : ShardSystem :=
  { σ.setGroup gid ((σ.group gid).propose ⟨σ.nextId, cmd⟩ index) with nextId := σ.nextId + 1 }

def submitOp (gid : Int) (r : Nat) (tok : ShardTok) (cmd : ShardCmd) (index : Nat) : ShardSystem :=
  { σ.setGroup gid ((σ.group gid).submit r tok ⟨σ.nextId, cmd⟩ index) with nextId := σ.nextId + 1 }

/-- What a handler returns goes to its caller; `gcHandler` only reacts to `OK`. -/
def reply (tok : ShardTok) (r : KvReply) : ShardSystem :=
  match tok with
  | .client req => { σ with replies := σ.replies ++ [(req, req.answer r)] }
  | .gc req => if r.err = .ok then { σ with gced := σ.gced ++ [req] } else σ

def listens (req : ShardRequest) : Option (Int × List Nat × Nat × Nat × KvInput) :=
  let ck := σ.clerk req.clientId
  match ck.stage, ck.current with
  | .calling gid servers si i, some op => if req.call = ck.call then some (gid, servers, si, i, op) else none
  | _, _ => none

variable (configs : Nat → Config Nat) (overtakes : Bool)

def step : ShardAct → Option ShardSystem
  | .invoke c op =>
    match (σ.clerk c).current with
    | none => some (σ.setClerk c ((σ.clerk c).begin op))
    | some _ => none
  | .lookup c =>
    match (σ.clerk c).current, (σ.clerk c).stage with
    | some op, .lookup => some (σ.setClerk c ((σ.clerk c).lookup op))
    | _, _ => none
  | .call c =>
    match (σ.clerk c).current, (σ.clerk c).stage with
    | some op, .next gid servers si i =>
      if i < servers.length then
        match servers[si]? with
        | some server =>
          some { σ.setClerk c { σ.clerk c with stage := .calling gid servers si i, call := (σ.clerk c).call + 1 } with
            requests := σ.requests ++ [⟨gid, server, c, (σ.clerk c).seqId, op, (σ.clerk c).call + 1⟩] }
        | none => none
      else some (σ.setClerk c { σ.clerk c with stage := .refresh })
    | _, _ => none
  | .receive k =>
    match σ.replies[k]? with
    | some (req, reply) =>
      match σ.listens req with
      | some (gid, servers, si, i, op) =>
        some (σ.setClerk req.clientId ((σ.clerk req.clientId).receive gid servers si i op reply))
      | none => none
    | none => none
  | .fail c =>
    match (σ.clerk c).stage with
    | .calling gid servers si i =>
      some (σ.setClerk c { σ.clerk c with stage := ShardClerk.advance gid servers si i })
    | _ => none
  | .query c n =>
    match (σ.clerk c).stage with
    | .refresh => some (σ.setClerk c { σ.clerk c with config := configs n, stage := .lookup })
    | _ => none
  | .accept k index =>
    match σ.requests[k]? with
    | some req =>
      if req.gid = 0 then none
      else some (σ.submitOp req.gid req.server (.client req) (.kv req.clientId req.seqId req.op) index)
    | none => none
  | .refuse k =>
    match σ.requests[k]? with
    | some req => some (σ.reply (.client req) ⟨.errWrongLeader, []⟩)
    | none => none
  | .inner gid a =>
    match (σ.group gid).act (shardMachine gid) overtakes a with
    | some (g, none) => some (σ.setGroup gid g)
    | some (g, some (tok, r)) => some ((σ.setGroup gid g).reply tok r)
    | none => none
  | .poll gid r =>
    let num := (σ.replica gid r).config.num
    if gid ≠ 0 ∧ (σ.replica gid r).allStable ∧ (configs (num + 1)).num = num + 1 then
      some { σ with polled := σ.polled ++ [(gid, configs (num + 1))] }
    else none
  | .startConfig k index =>
    match σ.polled[k]? with
    | some (gid, config) => some (σ.start gid (.config config) index)
    | none => none
  | .pull gid r src =>
    let kv := σ.replica gid r
    match kv.lastConfig.groups.get? src, kv.fromOwner .pulling src with
    | some servers, i :: is => some { σ with pulls := σ.pulls ++ [⟨gid, src, servers, kv.config.num, i :: is⟩] }
    | _, _ => none
  | .pullShard k r =>
    match σ.pulls[k]? with
    | some req =>
      if r ∈ req.servers then
        match (σ.replica req.src r).pullShard req.configNum req.shardIds with
        | some (shards, dupTable) => some { σ with pulled := σ.pulled ++ [⟨req, shards, dupTable⟩] }
        | none => none
      else none
    | none => none
  | .startInstall k index =>
    match σ.pulled[k]? with
    | some reply => some (σ.start reply.req.gid (.install reply.req.configNum reply.shards reply.dupTable) index)
    | none => none
  | .gc gid r src =>
    let kv := σ.replica gid r
    match kv.lastConfig.groups.get? src, kv.fromOwner .gcing src with
    | some servers, i :: is => some { σ with gcs := σ.gcs ++ [⟨gid, src, servers, kv.config.num, i :: is⟩] }
    | _, _ => none
  | .gcShard k r =>
    match σ.gcs[k]? with
    | some req =>
      if r ∈ req.servers then
        if (σ.replica req.src r).alreadyGCed req.configNum req.shardIds then some (σ.reply (.gc req) ⟨.ok, []⟩)
        else some { σ with checked := σ.checked ++ [(req, r)] }
      else none
    | none => none
  | .gcSubmit k index =>
    match σ.checked[k]? with
    | some (req, r) => some (σ.submitOp req.src r (.gc req) (.gc req.configNum req.shardIds) index)
    | none => none
  | .startGC k index =>
    match σ.gced[k]? with
    | some req => some (σ.start req.gid (.gc req.configNum req.shardIds) index)
    | none => none

def event : ShardAct → Option (Event (Nat × Nat) KvInput GoString)
  | .invoke c op => some (.invoke (c, (σ.clerk c).seqId + 1) op)
  | .receive k =>
    match σ.replies[k]? with
    | some (req, reply) =>
      match σ.listens req with
      | some (_, _, _, _, op) => (op.returns reply).map fun y => .ret (req.clientId, (σ.clerk req.clientId).seqId) y
      | none => none
    | none => none
  | _ => none

end

end ShardSystem

abbrev ShardRun (configs : Nat → Config Nat) (overtakes : Bool) :=
  Run (ShardSystem.step · configs overtakes) ShardSystem.init

end DistLab
