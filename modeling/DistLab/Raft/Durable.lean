import DistLab.Raft.Spec

/-!
# What the persister holds

Every critical section that changes one of the five persistent values saves
them before it ends, and the snapshot beside them is always the one that some
service made for the server's `lastIncludedIndex`.
-/

namespace DistLab

namespace Raft

section
variable {N : Nat} {C S : Type}

/-- The persister holds the server's values; before the first save it is empty
and the values are those of `Make`. -/
def Saved (rf : Raft N C S) : Prop :=
  HardState.decode rf.persister.raftstate = some rf.hard ∨
    rf.persister.raftstate = [] ∧ rf.hard = ⟨0, none, [], 0, 0⟩

structure Keeps (rf rf' : Raft N C S) : Prop where
  me : rf'.me = rf.me
  snapshot : rf'.persister.snapshot = rf.persister.snapshot
  index : rf'.lastIncludedIndex = rf.lastIncludedIndex
  term : rf'.lastIncludedTerm = rf.lastIncludedTerm
  saved : rf.Saved → rf'.Saved

theorem Keeps.refl (rf : Raft N C S) : Keeps rf rf := ⟨rfl, rfl, rfl, rfl, id⟩

theorem Keeps.trans {a b c : Raft N C S} (h : Keeps a b) (h' : Keeps b c) : Keeps a c :=
  ⟨h'.me.trans h.me, h'.snapshot.trans h.snapshot, h'.index.trans h.index, h'.term.trans h.term,
    fun hs => h'.saved (h.saved hs)⟩

theorem saved_persist (rf : Raft N C S) : rf.persist.Saved := Or.inl (HardState.decode_encode rf.hard)

theorem saved_persistWithSnapshot (rf : Raft N C S) (snapshot : S) : (rf.persistWithSnapshot snapshot).Saved :=
  Or.inl (HardState.decode_encode rf.hard)

variable (rf : Raft N C S)

theorem keeps_stepDown (term : Nat) : Keeps rf (rf.stepDown term) :=
  ⟨rfl, rfl, rfl, rfl, fun _ => saved_persist _⟩

theorem keeps_newTerm (term : Nat) : Keeps rf (rf.newTerm term) := by
  unfold newTerm
  by_cases h : rf.currentTerm < term
  · simp only [if_pos h]
    exact ⟨rfl, rfl, rfl, rfl, fun _ => saved_persist { rf with currentTerm := term, votedFor := none }⟩
  · simp only [if_neg h]
    exact ⟨rfl, rfl, rfl, rfl, id⟩

theorem keeps_requestVote (args : RequestVoteArgs N) : Keeps rf (rf.requestVote args).1 := by
  unfold requestVote
  by_cases h : args.term < rf.currentTerm
  · rw [if_pos h]; exact .refl rf
  · rw [if_neg h]
    have h1 : Keeps rf (if rf.currentTerm < args.term then rf.stepDown args.term else rf) := by
      split
      · exact keeps_stepDown rf _
      · exact .refl rf
    generalize (if rf.currentTerm < args.term then rf.stepDown args.term else rf) = rf₁ at h1 ⊢
    simp only
    split
    · exact h1.trans ⟨rfl, rfl, rfl, rfl, fun _ => saved_persist _⟩
    · exact h1

theorem keeps_startElection : Keeps rf rf.startElection.1 :=
  ⟨rfl, rfl, rfl, rfl, fun _ => saved_persist _⟩

theorem keeps_requestVoteReply (votes : Nat) (args : RequestVoteArgs N) (reply : RequestVoteReply) :
    Keeps rf (rf.requestVoteReply votes args reply).1 := by
  unfold requestVoteReply
  split
  · exact keeps_stepDown rf _
  · split
    · exact .refl rf
    · split
      · split
        · exact ⟨rfl, rfl, rfl, rfl, id⟩
        · exact .refl rf
      · exact .refl rf

theorem keeps_acceptEntries {args : AppendEntriesArgs N C} {rf' : Raft N C S}
    (h : rf.acceptEntries args = some rf') : Keeps rf rf' := by
  unfold acceptEntries at h
  cases hl : rf.appendLoop (args.prevLogIndex + 1) args.entries with
  | none => simp [hl] at h
  | some log =>
    simp only [hl, Option.bind_eq_bind, Option.bind_some, Option.some.injEq] at h
    subst h
    have h1 : Keeps rf ({ rf with log := log }.persist) := ⟨rfl, rfl, rfl, rfl, fun _ => saved_persist _⟩
    split
    · exact h1.trans ⟨rfl, rfl, rfl, rfl, id⟩
    · exact h1

theorem keeps_appendEntries {args : AppendEntriesArgs N C} {rf' : Raft N C S} {reply : AppendEntriesReply}
    (h : rf.appendEntries args = some (rf', reply)) : Keeps rf rf' := by
  unfold appendEntries at h
  by_cases h0 : args.term < rf.currentTerm
  · simp only [if_pos h0, Option.some.injEq, Prod.mk.injEq] at h
    rw [← h.1]; exact .refl rf
  · simp only [if_neg h0] at h
    have h1 := keeps_newTerm rf args.term
    split at h
    · simp only [Option.some.injEq, Prod.mk.injEq] at h; rw [← h.1]; exact h1
    · split at h
      · simp only [Option.some.injEq, Prod.mk.injEq] at h; rw [← h.1]; exact h1
      · split at h
        · simp only [Option.some.injEq, Prod.mk.injEq] at h; rw [← h.1]; exact h1
        · cases ha : (rf.newTerm args.term).acceptEntries args with
          | none => simp [ha] at h
          | some rf₂ =>
            simp only [ha, Option.bind_eq_bind, Option.bind_some, Option.some.injEq, Prod.mk.injEq] at h
            rw [← h.1]; exact h1.trans (keeps_acceptEntries _ ha)

theorem keeps_installSnapshot (args : InstallSnapshotArgs N S) : Keeps rf (rf.installSnapshot args).1 := by
  unfold installSnapshot
  split
  · exact .refl rf
  · simp only
    split
    · exact keeps_newTerm rf _
    · exact keeps_newTerm rf _

theorem keeps_tryCommitFrom : ∀ n, Keeps rf (rf.tryCommitFrom n)
  | 0 => .refl rf
  | n + 1 => by
    unfold tryCommitFrom
    split
    · split
      · exact keeps_tryCommitFrom n
      · simp only
        split
        · exact ⟨rfl, rfl, rfl, rfl, id⟩
        · exact keeps_tryCommitFrom n
    · exact .refl rf

theorem keeps_appendEntriesReply (peer : Fin N) (args : AppendEntriesArgs N C) (reply : AppendEntriesReply) :
    Keeps rf (rf.appendEntriesReply peer args reply) := by
  rcases rf.appendEntriesReply_cases peer args reply with ⟨-, heq⟩ | ⟨-, heq⟩ | ⟨-, -, -, ⟨-, m, -, heq⟩ | ⟨-, heq⟩⟩
  · rw [heq]
    exact keeps_stepDown rf _
  · rw [heq]
    exact .refl rf
  · rw [heq]
    refine Keeps.trans ?_ (keeps_tryCommitFrom _ _)
    exact ⟨rfl, rfl, rfl, rfl, id⟩
  · rw [heq]
    exact ⟨rfl, rfl, rfl, rfl, id⟩

theorem keeps_installSnapshotReply (peer : Fin N) (args : InstallSnapshotArgs N S) (reply : InstallSnapshotReply) :
    Keeps rf (rf.installSnapshotReply peer args reply) := by
  rcases rf.installSnapshotReply_cases peer args reply with ⟨-, heq⟩ | ⟨-, heq⟩ | ⟨-, -, heq⟩
  · rw [heq]
    exact keeps_stepDown rf _
  · rw [heq]
    exact .refl rf
  · rw [heq]
    exact ⟨rfl, rfl, rfl, rfl, id⟩

theorem keeps_start (command : C) : Keeps rf (rf.start command).1 := by
  unfold start
  split
  · exact .refl rf
  · have h := saved_persist { rf with log := rf.log ++ [⟨rf.currentTerm, command⟩] }
    exact ⟨rfl, rfl, rfl, rfl, fun _ => h⟩

theorem keeps_applied (commitIndex : Nat) : Keeps rf (rf.applied commitIndex) := by
  unfold applied
  split
  · exact ⟨rfl, rfl, rfl, rfl, id⟩
  · exact .refl rf

variable {rf}

theorem condInstallSnapshot_cases {t i : Nat} {snap : S} {rf' : Raft N C S} {ok : Bool}
    (h : rf.condInstallSnapshot t i snap = some (rf', ok)) :
    i ≤ rf.commitIndex ∧ rf' = rf ∧ ok = false ∨
      ∃ log, rf.commitIndex < i ∧ ok = true ∧
        (i ≤ rf.lastLogIndex ∧ goFrom rf.log (rf.toSliceIndex i + 1) = some log ∨
          rf.lastLogIndex < i ∧ log = []) ∧
        rf' = { rf with log, lastIncludedIndex := i, lastIncludedTerm := t,
                        commitIndex := i, lastApplied := i }.persistWithSnapshot snap := by
  unfold condInstallSnapshot at h
  by_cases hc : i ≤ rf.commitIndex
  · simp only [if_pos hc, Option.some.injEq, Prod.mk.injEq] at h
    exact Or.inl ⟨hc, h.1.symm, h.2.symm⟩
  · right
    rw [if_neg hc] at h
    by_cases hl : i ≤ rf.lastLogIndex
    · simp only [if_pos hl] at h
      cases hg : goFrom rf.log (rf.toSliceIndex i + 1) with
      | none => simp [hg] at h
      | some log =>
        simp only [hg, Option.bind_eq_bind, Option.bind_some, Option.some.injEq, Prod.mk.injEq] at h
        exact ⟨log, Nat.lt_of_not_le hc, h.2.symm, Or.inl ⟨hl, rfl⟩, h.1.symm⟩
    · simp only [if_neg hl, Option.bind_eq_bind, Option.bind_some, Option.some.injEq, Prod.mk.injEq] at h
      exact ⟨[], Nat.lt_of_not_le hc, h.2.symm, Or.inr ⟨Nat.lt_of_not_le hl, rfl⟩, h.1.symm⟩

theorem snapshot_cases {i : Nat} {snap : S} {rf' : Raft N C S} (h : rf.snapshot i snap = some rf') :
    i ≤ rf.lastIncludedIndex ∧ rf' = rf ∨
      ∃ entry, rf.lastIncludedIndex < i ∧ rf.log[i - rf.lastIncludedIndex - 1]? = some entry ∧
        rf' = { rf with lastIncludedTerm := entry.term, log := rf.log.drop (i - rf.lastIncludedIndex),
                        lastIncludedIndex := i }.persistWithSnapshot snap := by
  unfold snapshot at h
  by_cases hc : i ≤ rf.lastIncludedIndex
  · simp only [if_pos hc, Option.some.injEq] at h
    exact Or.inl ⟨hc, h.symm⟩
  · right
    have hlt : rf.lastIncludedIndex < i := Nat.lt_of_not_le hc
    have hsucc : ((i - rf.lastIncludedIndex - 1 : Nat) : Int) + 1 = (i - rf.lastIncludedIndex : Nat) := by omega
    simp only [if_neg hc, toSliceIndex_eq hlt, hsucc, goIndex_natCast] at h
    cases he : rf.log[i - rf.lastIncludedIndex - 1]? with
    | none => simp [he] at h
    | some entry =>
      have hk : i - rf.lastIncludedIndex ≤ rf.log.length := by
        have := (List.getElem?_eq_some_iff.mp he).1
        omega
      simp only [he, goFrom_natCast hk, Option.bind_eq_bind, Option.bind_some, Option.some.injEq] at h
      exact ⟨entry, hlt, rfl, h.symm⟩

theorem make_of_saved (hs : rf.Saved) (me : Fin N) :
    (make me rf.persister).hard = rf.hard ∧ (make me rf.persister).commitIndex = rf.lastIncludedIndex ∧
      (make me rf.persister).lastApplied = rf.lastIncludedIndex := by
  rcases hs with hs | ⟨hs, hh⟩
  · have hne : rf.persister.raftstate.isEmpty = false := by
      cases hr : rf.persister.raftstate with
      | nil => rw [hr] at hs; cases hs
      | cons a l => rfl
    simp only [make, readPersist, hne, hs]
    exact ⟨rfl, rfl, rfl⟩
  · have h0 : rf.lastIncludedIndex = 0 := congrArg HardState.lastIncludedIndex hh
    rw [hh, h0]
    simp only [make, readPersist, hs]
    exact ⟨rfl, rfl, rfl⟩

theorem make_persister (me : Fin N) (ps : Persister C S) : (make me ps : Raft N C S).persister = ps := by
  unfold make readPersist
  split
  · rfl
  · split <;> rfl

theorem make_me (me : Fin N) (ps : Persister C S) : (make me ps : Raft N C S).me = me := by
  unfold make readPersist
  split
  · rfl
  · split <;> rfl

theorem make_state (me : Fin N) (ps : Persister C S) : (make me ps : Raft N C S).state = .follower := by
  unfold make readPersist
  split
  · rfl
  · split <;> rfl

end

end Raft

/-! ## Every server is saved at all times -/

section
variable {N : Nat} {C : Type}

theorem Raft.Saved.make {rf : Raft N C (Snapshot C)} (hs : rf.Saved) (me : Fin N) :
    (Raft.make me rf.persister : Raft N C (Snapshot C)).Saved := by
  unfold Raft.Saved
  rw [Raft.make_persister, (Raft.make_of_saved hs me).1]
  exact hs

theorem Server.Act.saved {srv srv' : Server N C} {l : Local N C} {out : List (Packet N C)}
    (h : srv.Act l srv' out) (hs : srv.rf.Saved) : srv'.rf.Saved := by
  cases h with
  | electionTimeout _ => exact (Raft.keeps_startElection srv.rf).saved hs
  | start c => exact (Raft.keeps_start srv.rf c).saved hs
  | finish _ _ => exact (Raft.keeps_applied srv.rf _).saved hs
  | installed _ hc =>
    obtain ⟨-, -, hok⟩ | ⟨log, -, -, -, rfl⟩ := Raft.condInstallSnapshot_cases hc
    · cases hok
    · exact Raft.saved_persistWithSnapshot _ _
  | refused _ hc =>
    obtain ⟨-, rfl, -⟩ | ⟨log, -, hok, -⟩ := Raft.condInstallSnapshot_cases hc
    · exact hs
    · cases hok
  | snapshot _ hr =>
    obtain ⟨-, rfl⟩ | ⟨entry, -, -, rfl⟩ := Raft.snapshot_cases hr
    · exact hs
    · exact Raft.saved_persistWithSnapshot _ _
  | restart => exact hs.make _
  | _ => exact hs

theorem Server.Receive.keeps {srv srv' : Server N C} {p : Packet N C} {out : List (Packet N C)}
    (h : srv.Receive p srv' out) : Raft.Keeps srv.rf srv'.rf := by
  cases h with
  | requestVote dst epoch args => exact Raft.keeps_requestVote srv.rf args
  | requestVoteReply dst src args reply => exact Raft.keeps_requestVoteReply srv.rf _ args reply
  | appendEntries dst epoch hr => exact Raft.keeps_appendEntries srv.rf hr
  | appendEntriesReply dst src args reply => exact Raft.keeps_appendEntriesReply srv.rf src args reply
  | installSnapshot dst epoch args => exact Raft.keeps_installSnapshot srv.rf args
  | installSnapshotReply dst src args reply => exact Raft.keeps_installSnapshotReply srv.rf src args reply
  | lost => exact .refl _

def Cluster.Saved (σ : Cluster N C) : Prop := ∀ s, (σ.server s).rf.Saved

theorem Cluster.saved_init : (Cluster.init N C).Saved := fun _ => Or.inr ⟨rfl, rfl⟩

theorem Cluster.saved_step {σ σ' : Cluster N C} {a : Action N C} (hs : σ.Saved) (h : σ.step a = some σ') :
    σ'.Saved := by
  intro s
  obtain heq | ⟨l, out, -, hact⟩ | ⟨k, p, out, -, -, -, hrec⟩ := Cluster.server_cases h s
  · rw [heq]; exact hs s
  · exact hact.saved (hs s)
  · exact hrec.keeps.saved (hs s)

/-! ## Where snapshots come from -/

def Server.Brings (srv : Server N C) (snap : Snapshot C) (t i : Nat) : Prop :=
  .snapshot snap t i ∈ srv.senders ∨ .snapshot snap t i ∈ srv.applyCh ∨
    srv.service.holding = some (snap, t, i)

def Server.Carries (srv : Server N C) (snap : Snapshot C) (t i : Nat) : Prop :=
  snap = srv.rf.persister.snapshot ∧ t = srv.rf.lastIncludedTerm ∧ i = srv.rf.lastIncludedIndex ∨
    srv.Brings snap t i

def Packet.Carries (snap : Snapshot C) (t i : Nat) : Packet N C → Prop
  | .installSnapshot _ _ args => snap = args.data ∧ t = args.lastIncludedTerm ∧ i = args.lastIncludedIndex
  | _ => False

def Cluster.Carries (σ : Cluster N C) (snap : Snapshot C) (t i : Nat) : Prop :=
  (∃ s, (σ.server s).Carries snap t i) ∨ ∃ p ∈ σ.net, p.Carries snap t i

theorem Server.Act.brings {srv srv' : Server N C} {l : Local N C} {out : List (Packet N C)}
    {snap : Snapshot C} {t i : Nat} (h : srv.Act l srv' out) (hb : srv'.Brings snap t i) : srv.Brings snap t i := by
  unfold Server.Brings at hb ⊢
  cases h with
  | send _ _ _ => simpa using hb
  | sendSnapshot hm =>
    rcases hb with h1 | h2 | h3
    · exact Or.inl (List.mem_of_mem_eraseIdx h1)
    · rcases List.mem_append.mp h2 with h2 | h2
      · exact Or.inr (Or.inl h2)
      · rw [← List.mem_singleton.mp h2] at hm
        exact Or.inl (List.mem_of_getElem? hm)
    · exact Or.inr (Or.inr h3)
  | command _ ha => rw [ha]; simpa using hb
  | hold hh ha =>
    rw [ha]
    rcases hb with h1 | h2 | h3
    · exact Or.inl h1
    · exact Or.inr (Or.inl (List.mem_cons_of_mem _ h2))
    · cases h3; exact Or.inr (Or.inl List.mem_cons_self)
  | installed hh _ =>
    rcases hb with h1 | h2 | h3
    · exact Or.inl h1
    · exact Or.inr (Or.inl h2)
    · cases h3
  | refused hh _ =>
    rcases hb with h1 | h2 | h3
    · exact Or.inl h1
    · exact Or.inr (Or.inl h2)
    · cases h3
  | restart => simp [Server.boot] at hb
  | _ => exact hb

theorem Raft.Keeps.stored {rf rf' : Raft N C (Snapshot C)} {snap : Snapshot C} {t i : Nat} (hk : Raft.Keeps rf rf')
    (hc : snap = rf'.persister.snapshot ∧ t = rf'.lastIncludedTerm ∧ i = rf'.lastIncludedIndex) :
    snap = rf.persister.snapshot ∧ t = rf.lastIncludedTerm ∧ i = rf.lastIncludedIndex := by
  rwa [hk.snapshot, hk.term, hk.index] at hc

theorem Server.Act.carries {srv srv' : Server N C} {l : Local N C} {out : List (Packet N C)}
    {snap : Snapshot C} {t i : Nat} (h : srv.Act l srv' out) (hs : srv.rf.Saved)
    (hc : srv'.Carries snap t i) :
    srv.Carries snap t i ∨ ∃ data entry, l = .snapshot i data ∧ snap = ⟨data, i, srv.rf.fullLog.take i⟩ ∧
      srv.rf.lastIncludedIndex < i ∧ srv.rf.log[i - srv.rf.lastIncludedIndex - 1]? = some entry ∧
      t = entry.term := by
  rcases hc with hc | hb
  · cases h with
    | electionTimeout _ => exact Or.inl (Or.inl ((Raft.keeps_startElection srv.rf).stored hc))
    | start c => exact Or.inl (Or.inl ((Raft.keeps_start srv.rf c).stored hc))
    | finish _ _ => exact Or.inl (Or.inl ((Raft.keeps_applied srv.rf _).stored hc))
    | installed hh hc' =>
      obtain ⟨-, -, hok⟩ | ⟨log, -, -, -, rfl⟩ := Raft.condInstallSnapshot_cases hc'
      · cases hok
      · obtain ⟨rfl, rfl, rfl⟩ := hc
        exact Or.inl (Or.inr (Or.inr (Or.inr hh)))
    | refused _ hc' =>
      obtain ⟨-, rfl, -⟩ | ⟨log, -, hok, -⟩ := Raft.condInstallSnapshot_cases hc'
      · exact Or.inl (Or.inl hc)
      · cases hok
    | @snapshot j data rf _ hr =>
      obtain ⟨-, rfl⟩ | ⟨entry, hlt, he, rfl⟩ := Raft.snapshot_cases hr
      · exact Or.inl (Or.inl hc)
      · obtain ⟨rfl, rfl, rfl⟩ := hc
        exact Or.inr ⟨data, entry, rfl, rfl, hlt, he, rfl⟩
    | restart =>
      have hm := (Raft.make_of_saved hs srv.rf.me).1
      simp only [Server.boot, Raft.make_persister] at hc
      obtain ⟨rfl, rfl, rfl⟩ := hc
      exact Or.inl (Or.inl ⟨rfl, congrArg HardState.lastIncludedTerm hm, congrArg HardState.lastIncludedIndex hm⟩)
    | _ => exact Or.inl (Or.inl hc)
  · exact Or.inl (Or.inr (h.brings hb))

theorem Server.Act.carries_out {srv srv' : Server N C} {l : Local N C} {out : List (Packet N C)}
    {snap : Snapshot C} {t i : Nat} (h : srv.Act l srv' out) {p : Packet N C} (hp : p ∈ out)
    (hc : p.Carries snap t i) : srv.Carries snap t i := by
  cases h with
  | electionTimeout _ =>
    obtain ⟨peer, -, rfl⟩ := List.mem_map.mp hp
    exact hc.elim
  | append _ _ => rw [List.mem_singleton.mp hp] at hc; exact hc.elim
  | install _ hr =>
    rw [List.mem_singleton.mp hp] at hc
    obtain ⟨-, -, rfl⟩ := Raft.replicateTo_install hr
    exact Or.inl hc
  | _ => cases hp

theorem Raft.installSnapshot_msg {rf : Raft N C (Snapshot C)} {args : InstallSnapshotArgs N (Snapshot C)}
    {m : Msg C} (hm : m ∈ (rf.installSnapshot args).2.2.toList) :
    m = .snapshot args.data args.lastIncludedTerm args.lastIncludedIndex ∧ rf.currentTerm ≤ args.term := by
  unfold Raft.installSnapshot at hm
  split at hm
  · cases hm
  · rename_i ht
    simp only at hm
    split at hm
    · cases hm
    · exact ⟨List.mem_singleton.mp hm, Nat.le_of_not_lt ht⟩

theorem Server.Receive.brings {srv srv' : Server N C} {p : Packet N C} {out : List (Packet N C)}
    {snap : Snapshot C} {t i : Nat} (h : srv.Receive p srv' out) (hb : srv'.Brings snap t i) :
    srv.Brings snap t i ∨ p.Carries snap t i := by
  cases h with
  | installSnapshot dst epoch args =>
    rcases hb with h2 | h3
    · rcases List.mem_append.mp h2 with h2 | h2
      · exact Or.inl (Or.inl h2)
      · cases (Raft.installSnapshot_msg h2).1
        exact Or.inr ⟨rfl, rfl, rfl⟩
    · exact Or.inl (Or.inr h3)
  | _ => exact Or.inl hb

theorem Server.Receive.carries {srv srv' : Server N C} {p : Packet N C} {out : List (Packet N C)}
    {snap : Snapshot C} {t i : Nat} (h : srv.Receive p srv' out) (hc : srv'.Carries snap t i) :
    srv.Carries snap t i ∨ p.Carries snap t i := by
  rcases hc with hc | hb
  · exact Or.inl (Or.inl (h.keeps.stored hc))
  · rcases h.brings hb with hb | hp
    · exact Or.inl (Or.inr hb)
    · exact Or.inr hp

theorem Server.Receive.carries_out {srv srv' : Server N C} {p : Packet N C} {out : List (Packet N C)}
    {snap : Snapshot C} {t i : Nat} (h : srv.Receive p srv' out) {q : Packet N C} (hq : q ∈ out) :
    ¬ q.Carries snap t i := by
  cases h with
  | requestVote dst epoch args => rw [List.mem_singleton.mp hq]; exact id
  | appendEntries dst epoch hr => rw [List.mem_singleton.mp hq]; exact id
  | installSnapshot dst epoch args => rw [List.mem_singleton.mp hq]; exact id
  | _ => cases hq

/-- Every snapshot of the cluster was there before the step, except one that
a service has just made. -/
theorem Cluster.carries_step {σ σ' : Cluster N C} {a : Action N C} (hs : σ.Saved) (h : σ.step a = some σ')
    {snap : Snapshot C} {t i : Nat} (hc : σ'.Carries snap t i) :
    σ.Carries snap t i ∨ ∃ s data entry, a = .server s (.snapshot i data) ∧
      snap = ⟨data, i, (σ.server s).rf.fullLog.take i⟩ ∧ (σ.server s).rf.lastIncludedIndex < i ∧
      (σ.server s).rf.log[i - (σ.server s).rf.lastIncludedIndex - 1]? = some entry ∧ t = entry.term := by
  rcases hc with ⟨s, hc⟩ | ⟨q, hq, hc⟩
  · obtain heq | ⟨l, out, rfl, hact⟩ | ⟨k, p, out, -, hk, -, hrec⟩ := Cluster.server_cases h s
    · rw [heq] at hc; exact Or.inl (Or.inl ⟨s, hc⟩)
    · rcases hact.carries (hs s) hc with hc | ⟨data, entry, rfl, hnew⟩
      · exact Or.inl (Or.inl ⟨s, hc⟩)
      · exact Or.inr ⟨s, data, entry, rfl, hnew⟩
    · rcases hrec.carries hc with hc | hc
      · exact Or.inl (Or.inl ⟨s, hc⟩)
      · exact Or.inl (Or.inr ⟨p, List.mem_of_getElem? hk, hc⟩)
  · obtain hin | ⟨s, l, out, hact, hin⟩ | ⟨s, p, out, -, -, hrec, hin⟩ := Cluster.packet_cases h hq
    · exact Or.inl (Or.inr ⟨q, hin, hc⟩)
    · exact Or.inl (Or.inl ⟨s, hact.carries_out hin hc⟩)
    · exact absurd hc (hrec.carries_out hin)

def Cluster.Shaped (σ : Cluster N C) : Prop := ∀ snap t i, σ.Carries snap t i → snap.Shaped t i

theorem Cluster.Shaped.server {σ : Cluster N C} (h : σ.Shaped) (s : Fin N) : (σ.server s).rf.Shaped :=
  h _ _ _ (Or.inl ⟨s, Or.inl ⟨rfl, rfl, rfl⟩⟩)

theorem Cluster.carries_init {snap : Snapshot C} {t i : Nat} (h : (Cluster.init N C).Carries snap t i) :
    snap = ⟨[], 0, []⟩ ∧ t = 0 ∧ i = 0 := by
  rcases h with ⟨s, h⟩ | ⟨p, hp, -⟩
  · simpa [Server.Carries, Server.Brings, Cluster.init, Server.boot, Raft.make, Raft.readPersist] using h
  · cases hp

theorem Cluster.shaped_init : (Cluster.init N C).Shaped := by
  intro snap t i hc
  obtain ⟨rfl, rfl, rfl⟩ := carries_init hc
  exact ⟨rfl, rfl, rfl⟩

theorem Cluster.shaped_step {σ σ' : Cluster N C} {a : Action N C} (hs : σ.Saved) (hsh : σ.Shaped)
    (h : σ.step a = some σ') : σ'.Shaped := by
  intro snap t i hc
  rcases carries_step hs h hc with hc | ⟨s, data, entry, -, rfl, hlt, he, rfl⟩
  · exact hsh snap t i hc
  · have hi : (σ.server s).rf.fullLog[i - 1]? = some entry := by
      rw [Raft.getElem_fullLog (hsh.server s) (by omega), ← he]
      congr 1; omega
    have hlen : i - 1 < (σ.server s).rf.fullLog.length := (List.getElem?_eq_some_iff.mp hi).1
    obtain ⟨j, rfl⟩ : ∃ j, i = j + 1 := ⟨i - 1, by omega⟩
    exact ⟨rfl, by simp only [List.length_take]; omega, lastTerm_take LogEntry.term hi⟩

theorem RaftRun.saved (r : RaftRun N C) (k : Nat) : (r.state k).Saved :=
  r.invariant r.meets_true Cluster.saved_init (fun _ _ _ hp _ h => Cluster.saved_step hp h) k

def RaftRun.Supplied (r : RaftRun N C) (k i : Nat) (data : List UInt8) : Prop :=
  ∃ j, j < k ∧ ∃ s, r.act j = some (.server s (.snapshot i data))

theorem RaftRun.supplied (r : RaftRun N C) : ∀ (k : Nat) {snap : Snapshot C} {t i : Nat},
    (r.state k).Carries snap t i → i = 0 ∧ snap.data = [] ∨ r.Supplied k i snap.data
  | 0, snap, t, i, hc => by
    rw [r.start] at hc
    obtain ⟨rfl, -, rfl⟩ := Cluster.carries_init hc
    exact Or.inl ⟨rfl, rfl⟩
  | k + 1, snap, t, i, hc => by
    have earlier : (r.state k).Carries snap t i → i = 0 ∧ snap.data = [] ∨ r.Supplied (k + 1) i snap.data := by
      intro hc
      rcases r.supplied k hc with h0 | ⟨j, hj, hs⟩
      · exact Or.inl h0
      · exact Or.inr ⟨j, Nat.lt_succ_of_lt hj, hs⟩
    rcases r.next_cases k with ⟨-, he⟩ | ⟨a, ha, hk⟩
    · rw [he] at hc; exact earlier hc
    · rcases Cluster.carries_step (r.saved k) hk hc with hc | ⟨s, data, entry, rfl, rfl, -⟩
      · exact earlier hc
      · exact Or.inr ⟨k, Nat.lt_succ_self k, s, ha⟩

/-- Between any two critical sections the persister holds what a restart needs:
nothing was ever saved and the five values are those of a new server, or
decoding yields exactly their current values. -/
theorem hard_state_durable (r : RaftRun N C) (k : Nat) (s : Fin N) :
    let rf := ((r.state k).server s).rf
    let restarted : Raft N C (Snapshot C) := Raft.make s rf.persister
    (HardState.decode rf.persister.raftstate = some rf.hard ∨
      rf.persister.raftstate = [] ∧ rf.hard = ⟨0, none, [], 0, 0⟩) ∧
    (r.Supplied k rf.lastIncludedIndex rf.persister.snapshot.data ∨
      rf.lastIncludedIndex = 0 ∧ rf.persister.snapshot.data = []) ∧
    restarted.hard = rf.hard ∧
    restarted.commitIndex = rf.lastIncludedIndex ∧ restarted.lastApplied = rf.lastIncludedIndex := by
  intro rf restarted
  have hsaved : rf.Saved := r.saved k s
  have hsupplied := r.supplied k (Or.inl ⟨s, Or.inl ⟨rfl, rfl, rfl⟩⟩)
  exact ⟨hsaved, hsupplied.symm, Raft.make_of_saved hsaved s⟩

/-- A new server has saved nothing: its raft state is empty and decodes to nothing. -/
theorem hard_state_not_decodable :
    ¬ ∀ (N : Nat) (C : Type) (r : RaftRun N C) (k : Nat) (s : Fin N),
      HardState.decode ((r.state k).server s).rf.persister.raftstate = some ((r.state k).server s).rf.hard := by
  intro h
  have := h 1 Nat (Run.ofList [] rfl) 0 0
  simp [Run.ofList_state, exec, Cluster.init, Server.boot, Raft.make, Raft.readPersist, HardState.decode,
    decodeInt] at this

end

end DistLab
