import DistLab.Raft.Origin
import DistLab.Service.Group
import Mathlib.Logic.Equiv.List

/-!
# A replicated service over Raft servers

Here a service runs on the Raft servers themselves, not on what `Group` says of
them. Every host has the state machine, the handlers and the applier of the
service, and beside it stands its Raft server. They meet in `Start`, on
`applyCh`, in `Snapshot`, in `CondInstallSnapshot` and at a restart. The applier
is at one place at a time: it waits on `applyCh`, has a command in hand, holds a
snapshot before `CondInstallSnapshot`, or sends to a handler.
-/

namespace DistLab

/-! ## Bytes of a snapshot -/

/-- What a service writes with `labgob` and reads back, as long as the commands
that led to its state are `good`. -/
structure Codec {Op Id St Res : Type} (M : Machine Op Id St Res) (good : Op → Prop) where
  encode : St → List UInt8
  decode : List UInt8 → Option St
  encode_ne_nil : ∀ s, encode s ≠ []
  decode_encode : ∀ log, (∀ op ∈ log, good op) → decode (encode (M.replay log)) = some (M.replay log)

section
variable {Op Id St Res Tok : Type} {M : Machine Op Id St Res} {good : Op → Prop}

/-- Empty or undecodable bytes leave the state alone. -/
def Codec.installSnapshot (c : Codec M good) (state : St) (data : List UInt8) : St :=
  if data = [] then state else (c.decode data).getD state

theorem Codec.installSnapshot_nil (c : Codec M good) (state : St) : c.installSnapshot state [] = state := if_pos rfl

theorem Codec.installSnapshot_encode (c : Codec M good) (state : St) {log : List Op} (h : ∀ op ∈ log, good op) :
    c.installSnapshot state (c.encode (M.replay log)) = M.replay log := by
  rw [installSnapshot, if_neg (c.encode_ne_nil _), c.decode_encode log h, Option.getD_some]

variable (M good) in
/-- A state that some log leads to can be written as the number of that log. -/
theorem Codec.exists_of_countable [Countable { op // good op }] : Nonempty (Codec M good) := by
  classical
  obtain ⟨f, hf⟩ := exists_injective_nat (List { op // good op })
  let replay (log : List { op // good op }) : St := M.replay (log.map Subtype.val)
  let number (s : St) : Nat := if h : ∃ log, replay log = s then f h.choose else 0
  refine ⟨⟨fun s => List.replicate (number s + 1) 0,
    fun data => if h : ∃ log, f log + 1 = data.length then some (replay h.choose) else none, ?_, ?_⟩⟩
  · intro s h
    cases h
  · intro log hgood
    have hex : ∃ l, replay l = M.replay log :=
      ⟨log.pmap Subtype.mk hgood, by simp only [replay, List.map_pmap, List.pmap_eq_map, List.map_id']⟩
    have hnum : number (M.replay log) = f hex.choose := dif_pos hex
    have hdec : ∃ l, f l + 1 = (List.replicate (number (M.replay log) + 1) (0 : UInt8)).length :=
      ⟨hex.choose, by rw [List.length_replicate, hnum]⟩
    rw [dif_pos hdec]
    have hlen : f hdec.choose + 1 = f hex.choose + 1 :=
      hdec.choose_spec.trans (by rw [List.length_replicate, hnum])
    rw [hf (Nat.succ.inj hlen), hex.choose_spec]

end

/-! ## State -/

structure Host (Op Id St Res Tok : Type) where
  state : St
  /-- the command that the applier has received and not yet executed -/
  hand : Option (Op × Nat)
  notifyChans : Nat → Option (Waiter Id)
  calls : Nat → Option (Submission Op Id Res Tok)
  nextCall : Nat
  /-- the applier after it unlocked, before its send on a handler's channel -/
  sending : Option (Nat × Id × Res)

/-- The part of a replica that is Raft's: what it has executed, fetched and
queued, and what the persister holds. -/
structure Feed (St : Type) where
  applied : Nat
  fetched : Nat
  queue : List Nat
  snapshot : Nat × St

structure Stack (N : Nat) (Op Id St Res Tok : Type) where
  raft : Cluster N Op
  host : Fin N → Host Op Id St Res Tok

section
variable {Op Id St Res Tok : Type}

def Host.boot (state : St) (nextCall : Nat) : Host Op Id St Res Tok where
  state := state
  hand := none
  notifyChans _ := none
  calls _ := none
  nextCall := nextCall
  sending := none

def Host.replica (x : Host Op Id St Res Tok) (f : Feed St) : Replica Op Id St Res Tok where
  state := x.state
  applied := f.applied
  fetched := f.fetched
  queue := f.queue
  snapshot := f.snapshot
  notifyChans := x.notifyChans
  calls := x.calls
  nextCall := x.nextCall
  sending := x.sending

def Host.update (x : Host Op Id St Res Tok) (rep : Replica Op Id St Res Tok) : Host Op Id St Res Tok :=
  { x with
    state := rep.state
    notifyChans := rep.notifyChans
    calls := rep.calls
    nextCall := rep.nextCall
    sending := rep.sending }

/-- The host on its own. The handlers and the applier do not read the feed. -/
def Host.alone (x : Host Op Id St Res Tok) : Replica Op Id St Res Tok := x.replica ⟨0, 0, [], 0, x.state⟩

/-- What happens on the servers. `raft` is a step inside Raft and its network,
the others are steps of the service. -/
inductive StackAct (N : Nat) (Op : Type)
  | raft (a : Action N Op)
  | register (s : Fin N) (ch : Nat)
  | receive (s : Fin N) (ch : Nat)
  | timeout (s : Fin N) (ch : Nat)
  | finish (s : Fin N) (ch : Nat)
  | take (s : Fin N)
  | execute (s : Fin N) (snap : Bool)
  | notify (s : Fin N)
  | condInstall (s : Fin N)
  | restart (s : Fin N)

def Action.internal {N : Nat} {C : Type} : Action N C → Bool
  | .server _ (.start _) => false
  | .server _ .consume => false
  | .server _ .condInstall => false
  | .server _ (.snapshot ..) => false
  | .server _ .restart => false
  | _ => true

namespace Stack

variable {N : Nat}

def init (N : Nat) (M : Machine Op Id St Res) : Stack N Op Id St Res Tok where
  raft := Cluster.init N Op
  host _ := Host.boot M.init 0

def setHost (σ : Stack N Op Id St Res Tok) (s : Fin N) (x : Host Op Id St Res Tok) : Stack N Op Id St Res Tok :=
  { σ with host := Function.update σ.host s x }

def both (σ : Stack N Op Id St Res Tok) (s : Fin N) (l : Local N Op) (x : Host Op Id St Res Tok) :
    Option (Stack N Op Id St Res Tok) :=
  (σ.raft.step (.server s l)).map fun raft => { σ with raft }.setHost s x

/-- `submitAndWait` up to the return of `Start`, at a server that takes itself
for the leader. -/
def submit (σ : Stack N Op Id St Res Tok) (s : Fin N) (tok : Tok) (op : Op) :
    Option (Stack N Op Id St Res Tok × Nat) :=
  let x := σ.host s
  match ((σ.raft.server s).rf.start op).2 with
  | none => none
  | some (index, _) =>
    (σ.both s (.start op)
      { x with
        calls := Function.update x.calls x.nextCall (some ⟨tok, op, index, .started, none⟩)
        nextCall := x.nextCall + 1 }).map fun σ => (σ, index)

def propose (σ : Stack N Op Id St Res Tok) (s : Fin N) (op : Op) : Option (Stack N Op Id St Res Tok × Nat) :=
  match ((σ.raft.server s).rf.start op).2 with
  | none => none
  | some (index, _) => (σ.both s (.start op) (σ.host s)).map fun σ => (σ, index)

def executed (M : Machine Op Id St Res) [DecidableEq Id] (x : Host Op Id St Res Tok) (op : Op) (index : Nat) :
    Host Op Id St Res Tok :=
  { x.update (x.alone.applyCommand M index op) with hand := none }

section
variable [DecidableEq Id] (M : Machine Op Id St Res) {good : Op → Prop} (c : Codec M good)

def act (σ : Stack N Op Id St Res Tok) : StackAct N Op → Option (Stack N Op Id St Res Tok × Option (Tok × Res))
  | .raft a => if a.internal then (σ.raft.step a).map fun raft => ({ σ with raft }, none) else none
  | .register s ch =>
    ((σ.host s).alone.register M ch).map fun rep => (σ.setHost s ((σ.host s).update rep), none)
  | .receive s ch =>
    ((σ.host s).alone.receive M ch).map fun rep => (σ.setHost s ((σ.host s).update rep), none)
  | .timeout s ch =>
    ((σ.host s).alone.timeout M ch).map fun rep => (σ.setHost s ((σ.host s).update rep), none)
  | .finish s ch =>
    ((σ.host s).alone.finish M ch).map fun (rep, answer) => (σ.setHost s ((σ.host s).update rep), some answer)
  | .take s =>
    let x := σ.host s
    match x.hand, x.sending, (σ.raft.server s).applyCh with
    | none, none, .command op i :: _ => (σ.both s .consume { x with hand := some (op, i) }).map (·, none)
    | none, none, .snapshot .. :: _ => (σ.both s .consume x).map (·, none)
    | _, _, _ => none
  | .execute s snap =>
    match (σ.host s).hand with
    | none => none
    | some (op, i) =>
      let x := executed M (σ.host s) op i
      if snap then (σ.both s (.snapshot i (c.encode x.state)) x).map (·, none) else some (σ.setHost s x, none)
  | .notify s => (σ.host s).alone.notify.map fun rep => (σ.setHost s ((σ.host s).update rep), none)
  | .condInstall s =>
    let x := σ.host s
    match (σ.raft.server s).service.holding with
    | none => none
    | some (snap, t, i) =>
      match (σ.raft.server s).rf.condInstallSnapshot t i snap with
      | none => none
      | some (_, true) =>
        (σ.both s .condInstall { x with state := c.installSnapshot x.state snap.data }).map (·, none)
      | some (_, false) => (σ.both s .condInstall x).map (·, none)
  | .restart s =>
    (σ.both s .restart
      (Host.boot (c.installSnapshot M.init (σ.raft.server s).rf.persister.snapshot.data)
        (σ.host s).nextCall)).map (·, none)

end

end Stack

/-! ## The servers on their own -/

inductive StackStep (N : Nat) (Op : Type)
  | submit (s : Fin N) (op : Op)
  | act (a : StackAct N Op)

def Stack.step {N : Nat} [DecidableEq Id] (M : Machine Op Id St Res) {good : Op → Prop} (c : Codec M good)
    (σ : Stack N Op Id St Res Unit) : StackStep N Op → Option (Stack N Op Id St Res Unit)
  | .submit s op => (σ.submit s () op).map Prod.fst
  | .act a => (σ.act M c a).map Prod.fst

end

end DistLab
