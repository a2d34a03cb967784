import DistLab.Service.Refine
import DistLab.Shard.System
import DistLab.Shard.Tables

/-!
# shardkv on Raft servers

The groups of `ShardSystem`, with the Raft servers of every group in the place of
`Group`. The clerks, the messages and the goroutines that move shards are those
of `ShardSystem`: what they do without `Start` is a step of that system on what
they see of the servers, which is the state of each. A goroutine or a migration
handler asks `GetState` before it reads, and the server may have lost its
leadership in between, so their steps are open to every server; `Start` works at
a leader only. Every group has `N` servers.
-/

namespace DistLab

abbrev ShardStack (N : Nat) := Stack N ShardOp Nat ShardKv KvReply ShardTok

structure ShardDeployment (N : Nat) where
  /-- by gid -/
  stack : Int → ShardStack N
  /-- by client id -/
  clerk : Nat → ShardClerk
  requests : List ShardRequest
  replies : List (ShardRequest × KvReply)
  polled : List (Int × Config Nat)
  pulls : List MoveRequest
  pulled : List PullReply
  gcs : List MoveRequest
  checked : List (MoveRequest × Nat)
  gced : List MoveRequest
  nextId : Nat

/-- `front` is a step without `Start`. -/
inductive ShardDeploymentAct (N : Nat)
  | front (a : ShardAct)
  | accept (k : Nat)
  | refuse (k : Nat)
  | inner (gid : Int) (a : StackAct N ShardOp)
  | startConfig (k : Nat) (s : Fin N)
  | startInstall (k : Nat) (s : Fin N)
  | gcSubmit (k : Nat)
  | startGC (k : Nat) (s : Fin N)

/-- The step does not reach Raft, and the server it reads is one of `N`. -/
def ShardAct.front (N : Nat) : ShardAct → Bool
  | .invoke .. => true
  | .lookup .. => true
  | .call .. => true
  | .receive .. => true
  | .fail .. => true
  | .query .. => true
  | .poll _ r => r < N
  | .pull _ r _ => r < N
  | .pullShard _ r => r < N
  | .gc _ r _ => r < N
  | .gcShard _ r => r < N
  | _ => false

def ShardStack.group {N : Nat} (st : ShardStack N) : ShardGroup where
  log := []
  proposed := []
  snapshots := []
  replica r := if h : r < N then (st.host ⟨r, h⟩).alone else Replica.boot (0, ShardKv.init) 0

namespace ShardDeployment

def init (N : Nat) : ShardDeployment N where
  stack gid := Stack.init N (shardMachine gid)
  clerk _ := ShardClerk.init
  requests := []
  replies := []
  polled := []
  pulls := []
  pulled := []
  gcs := []
  checked := []
  gced := []
  nextId := 1

section
variable {N : Nat} (σ : ShardDeployment N)

def view : ShardSystem where
  group gid := ShardStack.group (σ.stack gid)
  clerk := σ.clerk
  requests := σ.requests
  replies := σ.replies
  polled := σ.polled
  pulls := σ.pulls
  pulled := σ.pulled
  gcs := σ.gcs
  checked := σ.checked
  gced := σ.gced
  nextId := σ.nextId

/-- The servers stay as they are, the rest becomes that of `s`. -/
def follow (s : ShardSystem) : ShardDeployment N where
  stack := σ.stack
  clerk := s.clerk
  requests := s.requests
  replies := s.replies
  polled := s.polled
  pulls := s.pulls
  pulled := s.pulled
  gcs := s.gcs
  checked := s.checked
  gced := s.gced
  nextId := s.nextId

def setStack (gid : Int) (st : ShardStack N) : ShardDeployment N := { σ with stack := Function.update σ.stack gid st }

/-- `rf.Start` with a new `InternalId`. -/
def start (gid : Int) (s : Fin N) (cmd : ShardCmd) : Option (ShardDeployment N) :=
  ((σ.stack gid).propose s ⟨σ.nextId, cmd⟩).map fun p => { σ.setStack gid p.1 with nextId := σ.nextId + 1 }

def submitOp (gid : Int) (s : Fin N) (tok : ShardTok) (cmd : ShardCmd) : Option (ShardDeployment N) :=
  ((σ.stack gid).submit s tok ⟨σ.nextId, cmd⟩).map fun p => { σ.setStack gid p.1 with nextId := σ.nextId + 1 }

def answer : Option (ShardTok × KvReply) → ShardDeployment N
  | some (tok, r) => σ.follow (σ.view.reply tok r)
  | none => σ

variable (configs : Nat → Config Nat) (c : (gid : Int) → Codec (shardMachine gid) ShardOp.Finite)

def step : ShardDeploymentAct N → Option (ShardDeployment N)
  | .front a => if a.front N then (σ.view.step configs false a).map σ.follow else none
  | .accept k =>
    match σ.requests[k]? with
    | some req =>
      if h : req.gid ≠ 0 ∧ req.server < N then
        σ.submitOp req.gid ⟨req.server, h.2⟩ (.client req) (.kv req.clientId req.seqId req.op)
      else none
    | none => none
  | .refuse k =>
    match σ.requests[k]? with
    | some req =>
      if h : req.server < N then
        match (((σ.stack req.gid).raft.server ⟨req.server, h⟩).rf.start
            ⟨σ.nextId, .kv req.clientId req.seqId req.op⟩).2 with
        | none => some (σ.answer (some (.client req, ⟨.errWrongLeader, []⟩)))
        | some _ => none
      else none
    | none => none
  | .inner gid a =>
    ((σ.stack gid).act (shardMachine gid) (c gid) a).map fun p => (σ.setStack gid p.1).answer p.2
  | .startConfig k s =>
    match σ.polled[k]? with
    | some (gid, config) => σ.start gid s (.config config)
    | none => none
  | .startInstall k s =>
    match σ.pulled[k]? with
    | some reply => σ.start reply.req.gid s (.install reply.req.configNum reply.shards reply.dupTable)
    | none => none
  | .gcSubmit k =>
    match σ.checked[k]? with
    | some (req, r) =>
      if h : r < N then σ.submitOp req.src ⟨r, h⟩ (.gc req) (.gc req.configNum req.shardIds) else none
    | none => none
  | .startGC k s =>
    match σ.gced[k]? with
    | some req => σ.start req.gid s (.gc req.configNum req.shardIds)
    | none => none

def event : ShardDeploymentAct N → Option (Event (Nat × Nat) KvInput GoString)
  | .front a => σ.view.event a
  | _ => none

/-- A snapshot is accepted only when no command is on its way to the service. -/
def QuietInstall : ShardDeploymentAct N → Prop
  | .inner gid a => (σ.stack gid).QuietInstall a
  | _ => True

end

end ShardDeployment

abbrev ShardDeploymentRun (N : Nat) (configs : Nat → Config Nat)
    (c : (gid : Int) → Codec (shardMachine gid) ShardOp.Finite) :=
  Run (ShardDeployment.step (N := N) · configs c) (ShardDeployment.init N)

def ShardDeploymentRun.event {N : Nat} {configs : Nat → Config Nat}
    {c : (gid : Int) → Codec (shardMachine gid) ShardOp.Finite} (r : ShardDeploymentRun N configs c) (k : Nat) :
    Option (Event (Nat × Nat) KvInput GoString) :=
  (r.act k).bind (r.state k).event

end DistLab
