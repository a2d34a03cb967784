import DistLab.Raft.Deliver

/-!
# The order of delivery

The applier sends the commands of a batch after it has unlocked. A snapshot
that the service installs meanwhile overtakes the rest of the batch, and the
service then gets commands it has already covered. As long as no snapshot is
accepted while commands are on their way, the commands on their way are the
indices after the last one the service has applied, without a gap.
-/

namespace DistLab

section
variable {N : Nat} {C : Type}

def Server.unsent (srv : Server N C) : List (LogEntry C) :=
  match srv.applier with
  | none => []
  | some b => b.entries

def Server.queued (srv : Server N C) : List Nat :=
  srv.applyCh.filterMap fun m =>
    match m with
    | .command _ i => some i
    | .snapshot .. => none

/-- Every command is consumed when the service has applied exactly the
commands before it. -/
def RaftRun.InOrder (r : RaftRun N C) : Prop :=
  ∀ k s c i rest, r.act k = some (.server s .consume) → ((r.state k).server s).applyCh = .command c i :: rest →
    i = ((r.state k).server s).service.lastApplied + 1

/-- A snapshot is accepted only when no command is on its way to the service. -/
def Cluster.QuietInstall (σ : Cluster N C) (a : Action N C) : Prop :=
  ∀ x ∈ σ.accepts a, x.server.unsent.length = 0 ∧ x.server.queued = []

instance (σ : Cluster N C) (a : Action N C) : Decidable (σ.QuietInstall a) :=
  inferInstanceAs (Decidable (∀ x ∈ σ.accepts a, _ ∧ _))

/-! ## The commands on their way -/

structure Streaming (srv : Server N C) : Prop where
  queue : srv.queued = List.range' (srv.service.lastApplied + 1) srv.queued.length
  reach : srv.service.lastApplied + srv.queued.length = srv.reach
  ahead : ∀ b, srv.applier = some b → b.entries ≠ [] → srv.rf.lastApplied < b.next

theorem Streaming.keep {srv srv' : Server N C} (hs : Streaming srv) (hap : srv'.applier = srv.applier)
    (hla : srv'.rf.lastApplied = srv.rf.lastApplied) (hq : srv'.queued = srv.queued)
    (hv : srv'.service.lastApplied = srv.service.lastApplied) : Streaming srv' := by
  have hreach : srv'.reach = srv.reach := by unfold Server.reach; rw [hap, hla]
  refine ⟨?_, ?_, fun b hb he => ?_⟩
  · rw [hq, hv]; exact hs.queue
  · rw [hq, hv, hreach]; exact hs.reach
  · rw [hla]; exact hs.ahead b (hap ▸ hb) he

theorem Streaming.head {srv : Server N C} (hs : Streaming srv) {c : C} {i : Nat} {rest : List (Msg C)}
    (hq : srv.applyCh = .command c i :: rest) : i = srv.service.lastApplied + 1 := by
  have hhead : srv.queued.head? = some i := by
    unfold Server.queued
    rw [hq]
    rfl
  rw [hs.queue, List.head?_range'] at hhead
  split at hhead
  · cases hhead
  · exact (Option.some.inj hhead).symm

theorem Streaming.consume {srv : Server N C} (hs : Streaming srv) {c : C} {i : Nat} {rest : List (Msg C)}
    (hq : srv.applyCh = .command c i :: rest) (commands : List Nat) :
    Streaming { srv with
      applyCh := rest
      service := { srv.service with lastApplied := i, commands := commands } } := by
  have hi := hs.head hq
  have hcons : srv.queued = i :: ({ srv with applyCh := rest } : Server N C).queued := by
    unfold Server.queued
    rw [hq]
    rfl
  have hqueue := hs.queue
  have hreach := hs.reach
  rw [hcons, List.length_cons] at hqueue hreach
  rw [List.range'_succ, ← hi] at hqueue
  refine ⟨(List.cons.inj hqueue).2, ?_, hs.ahead⟩
  show i + _ = srv.reach
  rw [← hreach, hi]
  exact Nat.add_right_comm _ _ _

theorem Streaming.send {srv : Server N C} (hs : Streaming srv) {b : Raft.Batch C} {e : LogEntry C}
    {rest : List (LogEntry C)} (hb : srv.applier = some b) (he : b.entries = e :: rest) (sent : List Nat) :
    Streaming { srv with
      applier := some { b with next := b.next + 1, entries := rest }
      applyCh := srv.applyCh ++ [.command e.command b.next]
      sent := sent } := by
  have hlt := hs.ahead b hb (by rw [he]; exact List.cons_ne_nil _ _)
  have hreach := hs.reach
  rw [Server.reach_some hb] at hreach
  have hnext : b.next = srv.service.lastApplied + 1 + srv.queued.length := by omega
  have hsnoc : ∀ applier sent, ({ srv with
      applier := applier
      applyCh := srv.applyCh ++ [.command e.command b.next]
      sent := sent } : Server N C).queued = srv.queued ++ [b.next] := by
    intro applier sent
    unfold Server.queued
    rw [List.filterMap_append]
    rfl
  refine ⟨?_, ?_, fun b' hb' _ => ?_⟩
  · rw [hsnoc, List.length_append, List.length_singleton, List.range'_concat, Nat.one_mul, ← hs.queue, ← hnext]
  · rw [hsnoc, List.length_append, List.length_singleton, Server.reach_some rfl]
    show srv.service.lastApplied + _ = max srv.rf.lastApplied (b.next + 1 - 1)
    omega
  · cases hb'
    exact Nat.lt_succ_of_lt hlt

theorem Streaming.finish {srv : Server N C} (hs : Streaming srv) (ha : Applying srv) {b : Raft.Batch C}
    (hb : srv.applier = some b) (he : b.entries = []) :
    Streaming { srv with rf := srv.rf.applied b.commitIndex, applier := none } := by
  refine ⟨hs.queue, ?_, fun b' hb' => (by cases hb')⟩
  rw [Applying.reach_finish ha hb he]
  exact hs.reach

theorem Streaming.restart {srv : Server N C} (hsh : srv.rf.Shaped) (hsv : srv.rf.Saved) :
    Streaming (Server.boot srv.rf.me srv.rf.persister (srv.epoch + 1) : Server N C) := by
  obtain ⟨-, -, hla⟩ := Raft.make_of_saved hsv srv.rf.me
  refine ⟨rfl, ?_, fun b hb => (by cases hb)⟩
  show srv.rf.persister.snapshot.index = (Raft.make srv.rf.me srv.rf.persister).lastApplied
  rw [hsh.index, hla]

theorem Streaming.act {srv srv' : Server N C} {l : Local N C} {out : List (Packet N C)} (hs : Streaming srv)
    (ha : Applying srv) (hact : srv.Act l srv' out) (hsh : srv.rf.Shaped) (hsv : srv.rf.Saved)
    (hci : srv.rf.commitIndex ≤ srv.rf.lastLogIndex) (hsend : ∀ c i, .command c i ∉ srv.senders)
    (hquiet : ∀ snap t i, l = .condInstall → srv.service.holding = some (snap, t, i) →
      srv.rf.commitIndex < i → srv.unsent.length = 0 ∧ srv.queued = []) : Streaming srv' := by
  cases hact with
  | electionTimeout _ => exact hs.keep rfl rfl rfl rfl
  | append _ _ => exact hs
  | install _ _ => exact hs
  | start c =>
    refine hs.keep rfl ?_ rfl rfl
    unfold Raft.start
    split <;> rfl
  | @collect b hnone hc =>
    have hidx := ha.index
    rw [Server.reach_none hnone] at hidx
    obtain ⟨-, hnext, -⟩ := batchOk_collect hsh hci hidx hc
    refine ⟨hs.queue, ?_, fun b' hb' _ => ?_⟩
    · have hreach := hs.reach
      rw [Server.reach_none hnone] at hreach
      rw [Server.reach_some rfl, hnext, Nat.add_sub_cancel, Nat.max_self]
      exact hreach
    · cases hb'
      exact hnext ▸ Nat.lt_succ_self _
  | skip hb _ hle => exact absurd (ha.batch _ hb).fresh (Nat.not_lt.mpr hle)
  | send hb he _ => exact hs.send hb he _
  | finish hb he => exact hs.finish ha hb he
  | @sendSnapshot k m hm =>
    refine hs.keep rfl rfl ?_ rfl
    cases m with
    | command c i => exact absurd (List.mem_of_getElem? hm) (hsend c i)
    | snapshot snap t i =>
      unfold Server.queued
      rw [List.filterMap_append]
      exact List.append_nil _
  | command _ hq => exact hs.consume hq _
  | hold _ hq =>
    refine hs.keep rfl rfl ?_ rfl
    unfold Server.queued
    rw [hq]
    rfl
  | @installed snap t i rf hh hc =>
    obtain ⟨-, -, hok⟩ | ⟨log, hlt, -, -, hrf⟩ := Raft.condInstallSnapshot_cases hc
    · cases hok
    · obtain ⟨hu, hq⟩ := hquiet snap t i rfl hh hlt
      refine ⟨?_, ?_, fun b hb he => ?_⟩
      · show srv.queued = List.range' _ srv.queued.length
        rw [hq]
        rfl
      · show i + srv.queued.length = _
        rw [hq]
        exact (Applying.reach_installed ha hc _).symm
      · unfold Server.unsent at hu
        rw [show srv.applier = some b from hb] at hu
        exact absurd (List.length_eq_zero_iff.mp hu) he
  | refused _ hc =>
    obtain ⟨-, rfl, -⟩ | ⟨log, -, hok, -⟩ := Raft.condInstallSnapshot_cases hc
    · exact hs.keep rfl rfl rfl rfl
    · cases hok
  | snapshot _ hr =>
    obtain ⟨-, rfl⟩ | ⟨entry, -, -, rfl⟩ := Raft.snapshot_cases hr
    · exact hs
    · exact hs.keep rfl rfl rfl rfl
  | restart => exact .restart hsh hsv

theorem Streaming.receive {srv srv' : Server N C} {p : Packet N C} {out : List (Packet N C)} (hs : Streaming srv)
    (hrec : srv.Receive p srv' out) : Streaming srv' := by
  obtain ⟨h1, h2, -, h4⟩ := hrec.rest
  apply hs.keep h1 hrec.lastApplied
  · unfold Server.queued
    rw [h2]
  · rw [h4]

/-! ## Runs -/

theorem Streaming.step {h : Ledger (Fin N) (LogEntry C)} {σ σ' : Cluster N C} (hr : Rel h σ) {a : Action N C}
    (hstep : σ.step a = some σ') (hquiet : σ.QuietInstall a) {s : Fin N} (ha : Applying (σ.server s))
    (hs : Streaming (σ.server s)) : Streaming (σ'.server s) := by
  have hsr := hr.server s
  obtain heq | ⟨l, out, rfl, hact⟩ | ⟨k, p, out, -, -, -, hrec⟩ := Cluster.server_cases hstep s
  · rw [heq]; exact hs
  · refine hs.act ha hact (hr.shaped.server s) (hr.saved s) hsr.tracks.core.commit_le hsr.bounded.senders
      fun snap t i hl hh hlt => ?_
    subst hl
    exact hquiet _ (Cluster.accepts_of_holding hh hlt)
  · exact hs.receive hrec

theorem Streaming.init (s : Fin N) : Streaming ((Cluster.init N C).server s) :=
  ⟨rfl, rfl, fun b hb => (by cases hb)⟩

/-- In a run that accepts snapshots only when no command is on its way, every
service gets the commands in order. -/
theorem delivery_in_order (r : RaftRun N C) (hc : r.Meets Cluster.QuietInstall) : r.InOrder := by
  obtain ⟨g, hg, -⟩ := r.history hc
    (R := fun (h : Ledger (Fin N) (LogEntry C)) σ =>
      Rel h σ ∧ ∀ s, Applying (σ.server s) ∧ Streaming (σ.server s))
    ⟨Rel.init, fun s => ⟨Applying.init s, Streaming.init s⟩⟩ (by
      intro h σ a σ' hr hquiet hstep
      obtain ⟨h', hle, hr'⟩ := hr.1.step hstep
      refine ⟨h', hle, hr', fun s => ?_⟩
      obtain ⟨ha, hs⟩ := hr.2 s
      exact ⟨ha.step hr.1 hr' hle hstep, hs.step hr.1 hstep hquiet ha⟩)
  intro k s c i rest _ hq
  exact ((hg k).2 s).2.head hq

theorem catchUp_ordered :
    ((catchUp.state 18).server 2).service.lastApplied = 1 ∧ catchUp.InOrder :=
  ⟨by decide +kernel, delivery_in_order catchUp (Run.meets_ofList _ (by decide +kernel))⟩

/-- Server `c` has sent the first of two commands when the snapshot of index 3
arrives; its service installs it and then gets the second command. -/
def overtakeActs {N : Nat} (a b c : Fin N) : List (Action N Nat) :=
  [.server a .electionTimeout, .deliver 0, .deliver 1,
   .server a (.start 10), .server a (.start 11),
   .server a (.replicate c), .deliver 1, .deliver 1, .server a (.replicate c), .deliver 1,
   .server c .collect, .server c .send, .server c .consume,
   .server a (.start 12), .server a (.replicate b), .deliver 2, .deliver 2,
   .server a .collect, .server a .send, .server a .send, .server a .send,
   .server a .consume, .server a .consume, .server a .consume, .server a .finish, .server a (.snapshot 3 [1]),
   .server a (.replicate c), .deliver 2,
   .server c (.sendSnapshot 0), .server c .consume, .server c .condInstall, .server c .send, .server c .consume]

theorem overtake_exec : (exec Cluster.step (Cluster.init 3 Nat) (overtakeActs 0 1 2)).isSome = true := by
  decide +kernel

theorem overtake_disorder : ¬ ∀ r : RaftRun 3 Nat, r.InOrder := by
  intro ho
  let r : RaftRun 3 Nat := Run.ofList (overtakeActs 0 1 2) (Option.some_get overtake_exec).symm
  have hlast : ((r.state 32).server 2).service.lastApplied = 3 := by decide +kernel
  have hq : ((r.state 32).server 2).applyCh = [.command 11 2] := by decide +kernel
  have := ho r 32 2 11 2 [] rfl hq
  omega

end

end DistLab
