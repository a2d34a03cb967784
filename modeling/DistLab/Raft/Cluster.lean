import DistLab.Lib.Runs
import DistLab.Raft.Server

/-!
# A cluster of Raft servers

Every server runs with its service; requests and replies travel through a
network that delays, reorders and loses them and delivers each at most once. A
step is one critical section, one channel operation or one crash. Timers are
not modelled: they may fire at any moment.

The channel `applyCh` is a queue without bound. A channel of any capacity
blocks some of these steps and adds none.
-/

namespace DistLab

/-- The bytes a service passes to `Snapshot`. The other two fields are a record
for the proofs: the index the bytes were made for and the entries up to it.
The functions of `Raft` work for every type of snapshot, so no server can read
them. -/
structure Snapshot (C : Type) where
  data : List UInt8
  index : Nat
  entries : List (LogEntry C)
deriving DecidableEq, Repr

abbrev Msg (C : Type) := ApplyMsg C (Snapshot C)

/-- The consumer of `applyCh`, as in `config.applierSnap`. -/
structure Service (C : Type) where
  lastApplied : Nat
  /-- the index of the snapshot it started from -/
  restored : Nat
  /-- the indices of the commands it received -/
  commands : List Nat
  /-- the indices of the snapshots for which `CondInstallSnapshot` returned true -/
  installed : List Nat
  /-- a snapshot message that it took, before its call of `CondInstallSnapshot` -/
  holding : Option (Snapshot C × Nat × Nat)

structure Server (N : Nat) (C : Type) where
  rf : Raft N C (Snapshot C)
  /-- the counter `votes` of the call of `startElection` for each term -/
  votes : Nat → Nat
  /-- the applier between its critical sections, `none` at the top of its loop -/
  applier : Option (Raft.Batch C)
  /-- the goroutines of `InstallSnapshot` that still have to send -/
  senders : List (Msg C)
  applyCh : List (Msg C)
  /-- the indices of the commands sent on `applyCh` -/
  sent : List Nat
  service : Service C
  /-- counts the restarts -/
  epoch : Nat

/-- A request carries the epoch of its caller, a reply also the arguments that
the waiting goroutine holds. -/
inductive Packet (N : Nat) (C : Type)
  | requestVote (dst : Fin N) (epoch : Nat) (args : RequestVoteArgs N)
  | requestVoteReply (dst src : Fin N) (epoch : Nat) (args : RequestVoteArgs N) (reply : RequestVoteReply)
  | appendEntries (dst : Fin N) (epoch : Nat) (args : AppendEntriesArgs N C)
  | appendEntriesReply (dst src : Fin N) (epoch : Nat) (args : AppendEntriesArgs N C) (reply : AppendEntriesReply)
  | installSnapshot (dst : Fin N) (epoch : Nat) (args : InstallSnapshotArgs N (Snapshot C))
  | installSnapshotReply (dst src : Fin N) (epoch : Nat) (args : InstallSnapshotArgs N (Snapshot C))
      (reply : InstallSnapshotReply)

def Packet.dst {N : Nat} {C : Type} : Packet N C → Fin N
  | .requestVote dst .. => dst
  | .requestVoteReply dst .. => dst
  | .appendEntries dst .. => dst
  | .appendEntriesReply dst .. => dst
  | .installSnapshot dst .. => dst
  | .installSnapshotReply dst .. => dst

/-! ## The steps of a server -/

inductive Local (N : Nat) (C : Type)
  | electionTimeout
  | replicate (peer : Fin N)
  | start (command : C)
  | collect
  | send
  | finish
  | sendSnapshot (k : Nat)
  | consume
  | condInstall
  | snapshot (index : Nat) (data : List UInt8)
  | restart

section
variable {N : Nat} {C : Type}

/-- The whole log: the entries folded into the snapshot, then `rf.log`. -/
def Raft.fullLog (rf : Raft N C (Snapshot C)) : List (LogEntry C) := rf.persister.snapshot.entries ++ rf.log

/-- `Make`, and a service that reads the persister's snapshot. -/
def Server.boot (me : Fin N) (persister : Persister C (Snapshot C)) (epoch : Nat) : Server N C where
  rf := Raft.make me persister
  votes _ := 0
  applier := none
  senders := []
  applyCh := []
  sent := []
  service := ⟨persister.snapshot.index, persister.snapshot.index, [], [], none⟩
  epoch := epoch

def Server.act (srv : Server N C) : Local N C → Option (Server N C × List (Packet N C))
  | .electionTimeout =>
    if srv.rf.state = .leader then none
    else
      let (rf, args) := srv.rf.startElection
      some ({ srv with rf, votes := fun t => if t = args.term then 1 else srv.votes t },
        ((List.finRange N).filter (· ≠ rf.me)).map fun peer => .requestVote peer srv.epoch args)
  | .replicate peer =>
    if peer = srv.rf.me then none
    else
      match srv.rf.replicateTo peer with
      | some (some (.append args)) => some (srv, [.appendEntries peer srv.epoch args])
      | some (some (.install args)) => some (srv, [.installSnapshot peer srv.epoch args])
      | _ => none
  | .start command => some ({ srv with rf := (srv.rf.start command).1 }, [])
  | .collect =>
    match srv.applier, srv.rf.collect with
    | none, some b => some ({ srv with applier := some b }, [])
    | _, _ => none
  | .send =>
    match srv.applier with
    | none => none
    | some b =>
      match b.send with
      | none => none
      | some (none, b') => some ({ srv with applier := some b' }, [])
      | some (some m, b') =>
        some ({ srv with applier := some b', applyCh := srv.applyCh ++ [m], sent := srv.sent ++ [b.next] }, [])
  | .finish =>
    match srv.applier with
    | none => none
    | some b =>
      match b.entries with
      | [] => some ({ srv with rf := srv.rf.applied b.commitIndex, applier := none }, [])
      | _ :: _ => none
  | .sendSnapshot k =>
    match srv.senders[k]? with
    | none => none
    | some m => some ({ srv with senders := srv.senders.eraseIdx k, applyCh := srv.applyCh ++ [m] }, [])
  | .consume =>
    match srv.service.holding, srv.applyCh with
    | none, .command _ i :: rest =>
      some ({ srv with
        applyCh := rest
        service := { srv.service with lastApplied := i, commands := srv.service.commands ++ [i] } }, [])
    | none, .snapshot snap term i :: rest =>
      some ({ srv with applyCh := rest, service := { srv.service with holding := some (snap, term, i) } }, [])
    | _, _ => none
  | .condInstall =>
    match srv.service.holding with
    | none => none
    | some (snap, term, i) =>
      match srv.rf.condInstallSnapshot term i snap with
      | none => none
      | some (rf, true) =>
        some ({ srv with
          rf
          service := { srv.service with
            lastApplied := i
            installed := srv.service.installed ++ [i]
            holding := none } }, [])
      | some (rf, false) => some ({ srv with rf, service := { srv.service with holding := none } }, [])
  | .snapshot index data =>
    if index ∈ srv.service.commands then
      match srv.rf.snapshot index ⟨data, index, srv.rf.fullLog.take index⟩ with
      | none => none
      | some rf => some ({ srv with rf }, [])
    else none
  | .restart => some (Server.boot srv.rf.me srv.rf.persister (srv.epoch + 1), [])

/-- Handling one packet. The goroutine that waits for a reply dies with its
process, so a reply to an earlier epoch is lost. -/
def Server.receive (srv : Server N C) : Packet N C → Option (Server N C × List (Packet N C))
  | .requestVote dst epoch args =>
    let (rf, reply) := srv.rf.requestVote args
    some ({ srv with rf }, [.requestVoteReply args.candidateId dst epoch args reply])
  | .requestVoteReply _ _ epoch args reply =>
    if epoch ≠ srv.epoch then some (srv, [])
    else
      let (rf, votes) := srv.rf.requestVoteReply (srv.votes args.term) args reply
      some ({ srv with rf, votes := fun t => if t = args.term then votes else srv.votes t }, [])
  | .appendEntries dst epoch args =>
    match srv.rf.appendEntries args with
    | none => none
    | some (rf, reply) => some ({ srv with rf }, [.appendEntriesReply args.leaderId dst epoch args reply])
  | .appendEntriesReply _ src epoch args reply =>
    if epoch ≠ srv.epoch then some (srv, [])
    else some ({ srv with rf := srv.rf.appendEntriesReply src args reply }, [])
  | .installSnapshot dst epoch args =>
    let (rf, reply, msg) := srv.rf.installSnapshot args
    some ({ srv with rf, senders := srv.senders ++ msg.toList },
      [.installSnapshotReply args.leaderId dst epoch args reply])
  | .installSnapshotReply _ src epoch args reply =>
    if epoch ≠ srv.epoch then some (srv, [])
    else some ({ srv with rf := srv.rf.installSnapshotReply src args reply }, [])

end

/-! ## The cluster -/

structure Cluster (N : Nat) (C : Type) where
  server : Fin N → Server N C
  net : List (Packet N C)

inductive Action (N : Nat) (C : Type)
  | server (s : Fin N) (a : Local N C)
  | deliver (k : Nat)
  | drop (k : Nat)

namespace Cluster

section
variable {N : Nat} {C : Type}

def put (σ : Cluster N C) (s : Fin N) (srv : Server N C) (net : List (Packet N C)) : Cluster N C where
  server r := if r = s then srv else σ.server r
  net := net

def init (N : Nat) (C : Type) : Cluster N C where
  server s := Server.boot s ⟨[], ⟨[], 0, []⟩⟩ 0
  net := []

def step (σ : Cluster N C) : Action N C → Option (Cluster N C)
  | .server s a =>
    match (σ.server s).act a with
    | none => none
    | some (srv, out) => some (σ.put s srv (σ.net ++ out))
  | .deliver k =>
    match σ.net[k]? with
    | none => none
    | some p =>
      match (σ.server p.dst).receive p with
      | none => none
      | some (srv, out) => some (σ.put p.dst srv (σ.net.eraseIdx k ++ out))
  | .drop k => if k < σ.net.length then some { σ with net := σ.net.eraseIdx k } else none

@[simp] theorem put_self (σ : Cluster N C) (s : Fin N) (srv : Server N C) (net : List (Packet N C)) :
    (σ.put s srv net).server s = srv := if_pos rfl

theorem put_ne (σ : Cluster N C) {s r : Fin N} (srv : Server N C) (net : List (Packet N C)) (h : r ≠ s) :
    (σ.put s srv net).server r = σ.server r := if_neg h

@[simp] theorem put_net (σ : Cluster N C) (s : Fin N) (srv : Server N C) (net : List (Packet N C)) :
    (σ.put s srv net).net = net := rfl

/-- A step is a local step of one server, a packet handled by one server, or
the loss of a packet. -/
theorem step_cases {σ σ' : Cluster N C} {a : Action N C} (h : σ.step a = some σ') :
    (∃ s l srv out, a = .server s l ∧ (σ.server s).act l = some (srv, out) ∧
      σ' = σ.put s srv (σ.net ++ out)) ∨
    (∃ k p srv out, a = .deliver k ∧ σ.net[k]? = some p ∧ (σ.server p.dst).receive p = some (srv, out) ∧
      σ' = σ.put p.dst srv (σ.net.eraseIdx k ++ out)) ∨
    ∃ k, a = .drop k ∧ k < σ.net.length ∧ σ' = { σ with net := σ.net.eraseIdx k } := by
  cases a with
  | server s l =>
    left
    simp only [step] at h
    cases hl : (σ.server s).act l with
    | none => rw [hl] at h; cases h
    | some r =>
      rw [hl] at h
      exact ⟨s, l, r.1, r.2, rfl, hl, (Option.some.inj h).symm⟩
  | deliver k =>
    right; left
    simp only [step] at h
    cases hp : σ.net[k]? with
    | none => rw [hp] at h; cases h
    | some p =>
      rw [hp] at h
      cases hr : (σ.server p.dst).receive p with
      | none => simp only [hr] at h; cases h
      | some r =>
        simp only [hr] at h
        exact ⟨k, p, r.1, r.2, rfl, hp, hr, (Option.some.inj h).symm⟩
  | drop k =>
    right; right
    simp only [step] at h
    split at h
    · rename_i hk
      exact ⟨k, rfl, hk, (Option.some.inj h).symm⟩
    · cases h

end

end Cluster

abbrev RaftRun (N : Nat) (C : Type) := Run (Cluster.step (N := N) (C := C)) (Cluster.init N C)

end DistLab
