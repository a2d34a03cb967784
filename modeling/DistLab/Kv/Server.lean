import DistLab.Kv.Store
import DistLab.Lib.Runs
import DistLab.Service.Group

/-!
# kvraft

The replicated key/value server with its table of last replies, the clerk that
repeats a call until it is answered, and the system of the two. A request or a
reply may be lost, late or handled more than once; a clerk only listens to the
reply of the call it is in.
-/

namespace DistLab

/-! ## The server -/

structure KvOp extends KvInput where
  clientId : Nat
  seqId : Nat
deriving DecidableEq, Repr

def KvOp.ident (op : KvOp) : Nat × Nat := (op.clientId, op.seqId)

structure LastReply where
  seqId : Nat
  reply : KvReply
deriving DecidableEq, Repr

structure KvServer where
  kvStore : Store
  dupTable : Nat → Option LastReply

namespace KvServer

def init : KvServer := ⟨Store.empty, fun _ => none⟩

def duplicate (kv : KvServer) (op : KvOp) : Option KvReply :=
  match kv.dupTable op.clientId with
  | some last => if op.seqId ≤ last.seqId then some last.reply else none
  | none => none

def execute (kv : KvServer) (op : KvOp) : KvServer × KvReply :=
  let (kvStore, r) := kv.kvStore.applyOp op.toKvInput
  let dupTable :=
    if op.opType ≠ .get then Function.update kv.dupTable op.clientId (some ⟨op.seqId, r⟩) else kv.dupTable
  (⟨kvStore, dupTable⟩, r)

def apply (kv : KvServer) (op : KvOp) : KvServer × KvReply :=
  match kv.duplicate op with
  | some r => (kv, r)
  | none => kv.execute op

end KvServer

def kvMachine : Machine KvOp (Nat × Nat) KvServer KvReply where
  init := KvServer.init
  apply := KvServer.apply
  ident := KvOp.ident
  noId := (0, 0)
  wrongLeader := ⟨.errWrongLeader, []⟩
  timeout := ⟨.errTimeout, []⟩

/-! ## The clerk -/

/-- `GetArgs` or `PutAppendArgs` on the way to a server, for the call with this
number. -/
structure KvRequest where
  op : KvOp
  call : Nat
  server : Nat
deriving DecidableEq, Repr

def KvRequest.answer (req : KvRequest) (r : KvReply) : KvReply :=
  match req.op.opType with
  | .get => r
  | _ => ⟨r.err, []⟩

structure Clerk where
  seqId : Nat
  leaderId : Nat
  /-- the operation that `Get` or `PutAppend` is busy with -/
  current : Option KvInput
  /-- whether it is inside `Call`, and the number of that call -/
  calling : Bool
  call : Nat

namespace Clerk

def init : Clerk := ⟨0, 0, none, false, 0⟩

def begin (ck : Clerk) (op : KvInput) : Clerk := { ck with seqId := ck.seqId + 1, current := some op }

def rotate (ck : Clerk) (servers : Nat) : Clerk := { ck with leaderId := (ck.leaderId + 1) % servers }

def receive (ck : Clerk) (servers : Nat) (op : KvInput) (reply : KvReply) : Clerk :=
  let ck := { ck with calling := false }
  match op.returns reply with
  | some _ => { ck with current := none }
  | none => if reply.err = .errWrongLeader then ck.rotate servers else ck

def fail (ck : Clerk) (servers : Nat) : Clerk := { ck with calling := false }.rotate servers

end Clerk

/-! ## The system -/

structure KvSystem where
  group : Group KvOp (Nat × Nat) KvServer KvReply KvRequest
  /-- by client id -/
  clerk : Nat → Clerk
  requests : List KvRequest
  replies : List (KvRequest × KvReply)

inductive KvAct
  | invoke (c : Nat) (op : KvInput)
  | send (c : Nat)
  | accept (k index : Nat)
  | refuse (k : Nat)
  | inner (a : Inner)
  | receive (k : Nat)
  | fail (c : Nat)
deriving DecidableEq, Repr

namespace KvSystem

def init : KvSystem where
  group := Group.init kvMachine
  clerk _ := Clerk.init
  requests := []
  replies := []

def setClerk (σ : KvSystem) (c : Nat) (ck : Clerk) : KvSystem := { σ with clerk := Function.update σ.clerk c ck }

def listens (σ : KvSystem) (req : KvRequest) : Option KvInput :=
  let ck := σ.clerk req.op.clientId
  if ck.calling ∧ req.call = ck.call then ck.current else none

def step (servers : Nat) (σ : KvSystem) : KvAct → Option KvSystem
  | .invoke c op =>
    match (σ.clerk c).current with
    | none => some (σ.setClerk c ((σ.clerk c).begin op))
    | some _ => none
  | .send c =>
    let ck := σ.clerk c
    match ck.current, ck.calling with
    | some op, false =>
      some { σ.setClerk c { ck with calling := true, call := ck.call + 1 } with
        requests := σ.requests ++ [⟨⟨op, c, ck.seqId⟩, ck.call + 1, ck.leaderId⟩] }
    | _, _ => none
  | .accept k index =>
    match σ.requests[k]? with
    | some req => some { σ with group := σ.group.submit req.server req req.op index }
    | none => none
  | .refuse k =>
    match σ.requests[k]? with
    | some req => some { σ with replies := σ.replies ++ [(req, req.answer kvMachine.wrongLeader)] }
    | none => none
  | .inner a =>
    match σ.group.act kvMachine false a with
    | some (group, none) => some { σ with group }
    | some (group, some (req, r)) => some { σ with group, replies := σ.replies ++ [(req, req.answer r)] }
    | none => none
  | .receive k =>
    match σ.replies[k]? with
    | some (req, reply) =>
      match σ.listens req with
      | some op => some (σ.setClerk req.op.clientId ((σ.clerk req.op.clientId).receive servers op reply))
      | none => none
    | none => none
  | .fail c => if (σ.clerk c).calling then some (σ.setClerk c ((σ.clerk c).fail servers)) else none

def event (σ : KvSystem) : KvAct → Option (Event (Nat × Nat) KvInput GoString)
  | .invoke c op => some (.invoke (c, (σ.clerk c).seqId + 1) op)
  | .receive k =>
    match σ.replies[k]? with
    | some (req, reply) =>
      match σ.listens req with
      | some op => (op.returns reply).map fun y => .ret (req.op.clientId, (σ.clerk req.op.clientId).seqId) y
      | none => none
    | none => none
  | _ => none

end KvSystem

abbrev KvRun (servers : Nat) := Run (KvSystem.step servers) KvSystem.init

def KvRun.event {servers : Nat} (r : KvRun servers) (k : Nat) : Option (Event (Nat × Nat) KvInput GoString) :=
  (r.act k).bind (r.state k).event

end DistLab
