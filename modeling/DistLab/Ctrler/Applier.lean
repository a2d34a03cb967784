import DistLab.Ctrler.Server
import DistLab.Kv.Store
import DistLab.Service.Group

/-!
# The replicated controller

The applier of `shardctrler` executes `Join`, `Leave` and `Move` once for every
number of a client, and `Query` whenever it comes. An operation that panics leaves
no state. The controller takes no snapshots.
-/

namespace DistLab

section
variable {Srv : Type}

def CtrlOp.isWrite : CtrlOp Srv → Bool
  | .join _ => true
  | .leave _ => true
  | .move _ _ => true
  | .query _ => false

structure CtrlCmd (Srv : Type) where
  clientId : Int
  seqId : Int
  op : CtrlOp Srv

def CtrlCmd.ident (cmd : CtrlCmd Srv) : Int × Int := (cmd.clientId, cmd.seqId)

structure CtrlReply (Srv : Type) where
  err : Err
  config : Config Srv

structure CtrlLast (Srv : Type) where
  seqId : Int
  reply : CtrlReply Srv

structure ShardCtrler (Srv : Type) where
  configs : List (Config Srv)
  dupTable : Int → Option (CtrlLast Srv)

namespace ShardCtrler

def init : ShardCtrler Srv := ⟨[Config.zero], fun _ => none⟩

/-- The reply that `dupTable` has for the operation; not for a `Query`. -/
def duplicate (sc : ShardCtrler Srv) (cmd : CtrlCmd Srv) : Option (CtrlReply Srv) :=
  if cmd.op.isWrite then
    match sc.dupTable cmd.clientId with
    | some last => if cmd.seqId ≤ last.seqId then some last.reply else none
    | none => none
  else none

def execute (sc : ShardCtrler Srv) (cmd : CtrlCmd Srv) : Option (ShardCtrler Srv × CtrlReply Srv) := do
  let (configs, config) ← cmd.op.apply sc.configs
  let reply := ⟨.ok, config⟩
  let dupTable :=
    if cmd.op.isWrite then Function.update sc.dupTable cmd.clientId (some ⟨cmd.seqId, reply⟩) else sc.dupTable
  some (⟨configs, dupTable⟩, reply)

def apply (sc : ShardCtrler Srv) (cmd : CtrlCmd Srv) : Option (ShardCtrler Srv × CtrlReply Srv) :=
  match sc.duplicate cmd with
  | some reply => some (sc, reply)
  | none => sc.execute cmd

end ShardCtrler

/-- A replica that has panicked has no state. -/
def ctrlMachine (Srv : Type) : Machine (CtrlCmd Srv) (Int × Int) (Option (ShardCtrler Srv)) (CtrlReply Srv) where
  init := some ShardCtrler.init
  apply sc cmd :=
    match sc.bind (·.apply cmd) with
    | some (sc, reply) => (some sc, reply)
    | none => (none, ⟨.errTimeout, Config.zero⟩)
  ident := CtrlCmd.ident
  noId := (0, 0)
  wrongLeader := ⟨.errWrongLeader, Config.zero⟩
  timeout := ⟨.errTimeout, Config.zero⟩

abbrev ctrlReplay (log : List (CtrlCmd Srv)) : Option (ShardCtrler Srv) := (ctrlMachine Srv).replay log

end

end DistLab
