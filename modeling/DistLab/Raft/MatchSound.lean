import DistLab.Raft.LogMatching

/-!
# What `matchIndex` means

A value that came with an `AppendEntries` reply counts entries that the peer
stored, and keeps while it stays in the leader's term. A value that came with
an `InstallSnapshot` reply says only that the peer has the snapshot in its
queue; it never passes the leader's own `lastIncludedIndex`. So what `matchIndex`
promises of an index depends on which replies have raised it since it was below
that index.
-/

namespace DistLab

/-! ## Leaders in one step -/

section
variable {N : Nat} {C S : Type} {rf : Raft N C S}

theorem Raft.requestVote_leader {args : RequestVoteArgs N} (hst : (rf.requestVote args).1.state = .leader) :
    rf.state = .leader ∧ (rf.requestVote args).1.currentTerm = rf.currentTerm ∧
      (rf.requestVote args).1.matchIndex = rf.matchIndex := by
  unfold Raft.requestVote at hst ⊢
  by_cases hlt : args.term < rf.currentTerm
  · rw [if_pos hlt] at hst ⊢; exact ⟨hst, rfl, rfl⟩
  · rw [if_neg hlt] at hst ⊢
    by_cases hgt : rf.currentTerm < args.term
    · simp only [if_pos hgt] at hst
      split at hst <;> cases hst
    · simp only [if_neg hgt] at hst ⊢
      split at hst
      · rename_i hv; rw [if_pos hv]; exact ⟨hst, rfl, rfl⟩
      · rename_i hv; rw [if_neg hv]; exact ⟨hst, rfl, rfl⟩

theorem Raft.requestVoteReply_leader {votes : Nat} {args : RequestVoteArgs N} {reply : RequestVoteReply}
    (hst : (rf.requestVoteReply votes args reply).1.state = .leader) :
    (rf.requestVoteReply votes args reply).1 = rf ∨ (rf.requestVoteReply votes args reply).1 = rf.becomeLeader := by
  unfold Raft.requestVoteReply at hst ⊢
  split at hst
  · cases hst
  · rename_i hlt
    rw [if_neg hlt]
    split_ifs
    · exact Or.inl rfl
    · exact Or.inr rfl
    · exact Or.inl rfl
    · exact Or.inl rfl

theorem Raft.appendEntries_leader {rf' : Raft N C S} {args : AppendEntriesArgs N C} {reply : AppendEntriesReply}
    (hr : rf.appendEntries args = some (rf', reply)) (hst : rf'.state = .leader) : rf' = rf := by
  rcases Raft.appendEntries_cases hr with ⟨-, rfl, -⟩ | ⟨-, rfl, -⟩ | ⟨-, hp1, -, -, hacc, -⟩
  · rfl
  · cases hst
  · have heq := Raft.acceptEntries_eq (by simpa using hp1) hacc
    simp only at heq
    rw [heq] at hst
    split at hst <;> cases hst

theorem Raft.installSnapshot_leader {args : InstallSnapshotArgs N S}
    (hst : (rf.installSnapshot args).1.state = .leader) : (rf.installSnapshot args).1 = rf := by
  unfold Raft.installSnapshot at hst ⊢
  split at hst
  · rename_i hlt; rw [if_pos hlt]
  · simp only at hst
    split at hst <;> cases hst

theorem Raft.tryCommit_fields : rf.tryCommit.state = rf.state ∧ rf.tryCommit.currentTerm = rf.currentTerm ∧
    rf.tryCommit.matchIndex = rf.matchIndex := by
  unfold Raft.tryCommit
  rcases rf.tryCommitFrom_cases rf.lastLogIndex with heq | ⟨m, -, -, -, -, heq⟩
  · rw [heq]; exact ⟨rfl, rfl, rfl⟩
  · rw [heq]; exact ⟨rfl, rfl, rfl⟩

theorem Raft.appendEntriesReply_leader {peer : Fin N} {args : AppendEntriesArgs N C} {reply : AppendEntriesReply}
    (hst : (rf.appendEntriesReply peer args reply).state = .leader) :
    rf.state = .leader ∧ (rf.appendEntriesReply peer args reply).currentTerm = rf.currentTerm ∧
      ∀ q, (rf.appendEntriesReply peer args reply).matchIndex q = rf.matchIndex q ∨
        q = peer ∧ reply.success = true ∧ args.term = rf.currentTerm ∧
          (rf.appendEntriesReply peer args reply).matchIndex q = args.prevLogIndex + args.entries.length := by
  rcases rf.appendEntriesReply_cases peer args reply with ⟨-, heq⟩ | ⟨-, heq⟩ | ⟨hl, hterm, -, ⟨hok, m, hm, heq⟩ | ⟨-, heq⟩⟩
  · rw [heq] at hst
    cases hst
  · rw [heq] at hst ⊢
    exact ⟨hst, rfl, fun q => Or.inl rfl⟩
  · rw [heq]
    refine ⟨hl, Raft.tryCommit_fields.2.1, fun q => ?_⟩
    rw [Raft.tryCommit_fields.2.2]
    change (if q = peer then m else rf.matchIndex q) = _ ∨ _ ∧ _ ∧ _ ∧ (if q = peer then m else rf.matchIndex q) = _
    by_cases hq : q = peer
    · rw [if_pos hq, hm, hq]
      rcases max_choice (rf.matchIndex peer) (args.prevLogIndex + args.entries.length) with hmax | hmax
      · exact Or.inl hmax
      · exact Or.inr ⟨rfl, hok, hterm.symm, hmax⟩
    · rw [if_neg hq]
      exact Or.inl rfl
  · rw [heq]
    exact ⟨hl, rfl, fun q => Or.inl rfl⟩

theorem Raft.installSnapshotReply_leader {peer : Fin N} {args : InstallSnapshotArgs N S}
    {reply : InstallSnapshotReply} (hst : (rf.installSnapshotReply peer args reply).state = .leader) :
    rf.state = .leader ∧ (rf.installSnapshotReply peer args reply).currentTerm = rf.currentTerm ∧
      ∀ q, (rf.installSnapshotReply peer args reply).matchIndex q = rf.matchIndex q ∨
        q = peer ∧ (rf.installSnapshotReply peer args reply).matchIndex q = args.lastIncludedIndex := by
  rcases rf.installSnapshotReply_cases peer args reply with ⟨-, heq⟩ | ⟨-, heq⟩ | ⟨hl, -, heq⟩
  · rw [heq] at hst
    cases hst
  · rw [heq] at hst ⊢
    exact ⟨hst, rfl, fun q => Or.inl rfl⟩
  · rw [heq]
    refine ⟨hl, rfl, fun q => ?_⟩
    change (if q = peer then _ else rf.matchIndex q) = _ ∨ _ ∧ (if q = peer then _ else rf.matchIndex q) = _
    by_cases hq : q = peer
    · rw [if_pos hq, hq]
      exact (max_choice _ _).imp_right fun h => ⟨rfl, h⟩
    · rw [if_neg hq]
      exact Or.inl rfl

end

section
variable {N : Nat} {C : Type}

theorem Server.Act.leader {srv srv' : Server N C} {l : Local N C} {out : List (Packet N C)} (h : srv.Act l srv' out)
    (hst : srv'.rf.state = .leader) : srv.rf.state = .leader ∧ srv'.rf.currentTerm = srv.rf.currentTerm ∧
      ∀ q, q ≠ srv.rf.me → srv'.rf.matchIndex q = srv.rf.matchIndex q := by
  cases h with
  | electionTimeout _ => cases hst
  | start c =>
    refine ⟨(Raft.start_state c).symm.trans hst, Raft.start_currentTerm c, fun q hq => ?_⟩
    simp only [Raft.start]
    split
    · rfl
    · exact if_neg hq
  | finish _ _ =>
    refine ⟨(Raft.applied_state _).symm.trans hst, Raft.applied_currentTerm _, fun q _ => ?_⟩
    simp only [Raft.applied]
    split <;> rfl
  | installed _ hc =>
    obtain ⟨-, -, hok⟩ | ⟨log, -, -, -, rfl⟩ := Raft.condInstallSnapshot_cases hc
    · cases hok
    · exact ⟨hst, rfl, fun _ _ => rfl⟩
  | refused _ hc =>
    obtain ⟨-, rfl, -⟩ | ⟨log, -, hok, -⟩ := Raft.condInstallSnapshot_cases hc
    · exact ⟨hst, rfl, fun _ _ => rfl⟩
    · cases hok
  | snapshot _ hr =>
    obtain ⟨-, rfl⟩ | ⟨entry, -, -, rfl⟩ := Raft.snapshot_cases hr
    · exact ⟨hst, rfl, fun _ _ => rfl⟩
    · exact ⟨hst, rfl, fun _ _ => rfl⟩
  | restart =>
    simp only [Server.boot, Raft.make_state] at hst
    cases hst
  | _ => exact ⟨hst, rfl, fun _ _ => rfl⟩

/-- Where the values of `matchIndex` of a leader come from. -/
theorem Server.Receive.leader {srv srv' : Server N C} {p : Packet N C} {out : List (Packet N C)}
    (h : srv.Receive p srv' out) (hst : srv'.rf.state = .leader) :
    (∀ q, q ≠ srv.rf.me → srv'.rf.matchIndex q = 0) ∨
    srv.rf.state = .leader ∧ srv'.rf.currentTerm = srv.rf.currentTerm ∧ ∀ q,
      srv'.rf.matchIndex q = srv.rf.matchIndex q ∨
      (∃ dst e args reply, p = .appendEntriesReply dst q e args reply ∧ reply.success = true ∧
        args.term = srv.rf.currentTerm ∧ srv'.rf.matchIndex q = args.prevLogIndex + args.entries.length) ∨
      (∃ dst e args reply, p = .installSnapshotReply dst q e args reply ∧
        srv'.rf.matchIndex q = args.lastIncludedIndex) := by
  cases h with
  | requestVote dst e args =>
    obtain ⟨h1, h2, h3⟩ := Raft.requestVote_leader hst
    exact Or.inr ⟨h1, h2, fun q => Or.inl (congrFun h3 q)⟩
  | requestVoteReply dst src args reply =>
    rcases Raft.requestVoteReply_leader hst with heq | heq
    · exact Or.inr ⟨(congrArg Raft.state heq).symm.trans hst, congrArg Raft.currentTerm heq,
        fun q => Or.inl (congrFun (congrArg Raft.matchIndex heq) q)⟩
    · left
      intro q hq
      simp only [heq]
      exact if_neg hq
  | appendEntries dst e hae =>
    have heq := Raft.appendEntries_leader hae hst
    subst heq
    exact Or.inr ⟨hst, rfl, fun q => Or.inl rfl⟩
  | appendEntriesReply dst src args reply =>
    obtain ⟨h1, h2, h3⟩ := Raft.appendEntriesReply_leader hst
    refine Or.inr ⟨h1, h2, fun q => ?_⟩
    rcases h3 q with hq | ⟨rfl, hs, ht, hq⟩
    · exact Or.inl hq
    · exact Or.inr (Or.inl ⟨dst, _, args, reply, rfl, hs, ht, hq⟩)
  | installSnapshot dst e args =>
    have heq := Raft.installSnapshot_leader hst
    exact Or.inr ⟨(congrArg Raft.state heq).symm.trans hst, congrArg Raft.currentTerm heq,
      fun q => Or.inl (congrFun (congrArg Raft.matchIndex heq) q)⟩
  | installSnapshotReply dst src args reply =>
    obtain ⟨h1, h2, h3⟩ := Raft.installSnapshotReply_leader hst
    refine Or.inr ⟨h1, h2, fun q => ?_⟩
    rcases h3 q with hq | ⟨rfl, hq⟩
    · exact Or.inl hq
    · exact Or.inr (Or.inr ⟨dst, _, args, reply, rfl, hq⟩)
  | lost => exact Or.inr ⟨hst, rfl, fun q => Or.inl rfl⟩

/-! ## The snapshot index -/

theorem Server.Act.index_le {srv srv' : Server N C} {l : Local N C} {out : List (Packet N C)}
    (h : srv.Act l srv' out) (hsv : srv.rf.Saved) (hge : srv.rf.lastIncludedIndex ≤ srv.rf.commitIndex) :
    srv.rf.lastIncludedIndex ≤ srv'.rf.lastIncludedIndex := by
  cases h with
  | start c => exact (Raft.keeps_start srv.rf c).index.ge
  | finish _ _ => exact (Raft.keeps_applied srv.rf _).index.ge
  | installed _ hc =>
    obtain ⟨-, -, hok⟩ | ⟨log, hlt, -, -, rfl⟩ := Raft.condInstallSnapshot_cases hc
    · cases hok
    · exact hge.trans hlt.le
  | refused _ hc =>
    obtain ⟨-, rfl, -⟩ | ⟨log, -, hok, -⟩ := Raft.condInstallSnapshot_cases hc
    · exact le_rfl
    · cases hok
  | snapshot _ hr =>
    obtain ⟨-, rfl⟩ | ⟨entry, hlt, -, rfl⟩ := Raft.snapshot_cases hr
    · exact le_rfl
    · exact hlt.le
  | restart => exact (congrArg HardState.lastIncludedIndex (Raft.make_of_saved hsv srv.rf.me).1).ge
  | _ => exact le_rfl

variable {h h' : Ledger (Fin N) (LogEntry C)} {σ σ' : Cluster N C}

theorem Rel.index_step (hr : Rel h σ) {a : Action N C} (hstep : σ.step a = some σ') (s : Fin N) :
    (σ.server s).rf.lastIncludedIndex ≤ (σ'.server s).rf.lastIncludedIndex := by
  obtain heq | ⟨l, out, -, hact⟩ | ⟨k, p, out, -, -, -, hrec⟩ := Cluster.server_cases hstep s
  · rw [heq]
  · exact hact.index_le (hr.saved s) (hr.server s).tracks.core.commit_ge
  · exact hrec.keeps.index.ge

/-! ## What a peer holds -/

/-- The peer has reached term `T`, and while it is in it, its log starts with
the first `m` entries of the leader. -/
def Held (h : Ledger (Fin N) (LogEntry C)) (σ : Cluster N C) (p : Fin N) (T m : Nat) : Prop :=
  T ≤ (σ.server p).rf.currentTerm ∧ m ≤ (h.log T).length ∧
    ((σ.server p).rf.currentTerm = T → (h.log T).take m <+: (σ.server p).rf.fullLog)

theorem Held.mono (hle : h ≤ h') {p : Fin N} {T m : Nat} (hh : Held h σ p T m) : Held h' σ p T m := by
  obtain ⟨hT, hm, hpre⟩ := hh
  refine ⟨hT, hm.trans (Ledger.Le.length_log hle T), fun heq => ?_⟩
  rw [Ledger.Le.take_log hle hm]
  exact hpre heq

theorem Rel.term_step (hr : Rel h σ) (hr' : Rel h' σ') (hle : h ≤ h') (s : Fin N) :
    (σ.server s).rf.currentTerm ≤ (σ'.server s).rf.currentTerm := by
  rw [← (hr.server s).tracks.core.term, ← (hr'.server s).tracks.core.term]
  exact hle.term s

theorem Held.step (hr : Rel h σ) (hr' : Rel h' σ') (hle : h ≤ h') {a : Action N C} (hstep : σ.step a = some σ')
    {p : Fin N} {T m : Nat} (hh : Held h σ p T m) : Held h' σ' p T m := by
  obtain ⟨hT, hm, hpre⟩ := hh
  have hmono := hr.term_step hr' hle p
  refine ⟨hT.trans hmono, hm.trans (Ledger.Le.length_log hle T), fun heq => ?_⟩
  rw [Ledger.Le.take_log hle hm]
  have hsame : (σ.server p).rf.currentTerm = T := by omega
  have hF := hpre hsame
  cases hr.log_step hstep p with
  | same hfull => rw [hfull]; exact hF
  | start e _ hfull => rw [hfull]; exact hF.trans (List.prefix_append _ _)
  | accept m' hm' hno hfull =>
    rw [heq] at hm' hno hfull
    rw [hfull]
    rcases le_total m m' with hle' | hge
    · exact List.take_prefix_take_left hle'
    · exact absurd ((List.take_prefix_take_left hge).trans hF) hno
  | install snap t i _ hhold hlt hfull _ =>
    rw [hfull]
    by_cases h0 : m = 0
    · rw [h0]; exact List.nil_prefix
    · -- the snapshot is part of the leader's log
      obtain ⟨q, hq⟩ := hr.sound.leader_of_log (t := T) (List.length_pos_iff.mp (by omega))
      have hb : (σ.server p).Brings snap t i := Or.inr (Or.inr hhold)
      have hlen := (hr.shaped snap t i (Or.inl ⟨p, Or.inr hb⟩)).length
      have hx := hr.sound.committed_log hq ((hr.server p).pending snap t i hb)
        ((σ.server p).rf.bound_le.trans hsame.le)
      rcases le_total i m with him | hmi
      · have htake : (σ.server p).rf.fullLog.take i = snap.entries := by
          rw [prefix_take_eq hF (by rw [List.length_take]; omega), List.take_take, Nat.min_eq_left him, ← hlen,
            prefix_take_eq hx le_rfl, List.take_length]
        rw [← htake, List.take_append_drop]
        exact hF
      · have hmx : (h.log T).take m <+: snap.entries :=
          List.prefix_of_prefix_length_le ( List.take_prefix m _) hx (by rw [List.length_take]; omega)
        exact hmx.trans (List.prefix_append _ _)

def Packet.Synced (h : Ledger (Fin N) (LogEntry C)) (σ : Cluster N C) : Packet N C → Prop
  | .appendEntriesReply _ src _ args reply =>
    reply.success = true → Held h σ src args.term (args.prevLogIndex + args.entries.length)
  | .installSnapshot _ _ args => args.lastIncludedIndex ≤ (σ.server args.leaderId).rf.lastIncludedIndex
  | .installSnapshotReply dst _ _ args _ => args.lastIncludedIndex ≤ (σ.server dst).rf.lastIncludedIndex
  | _ => True

def Cluster.Synced (h : Ledger (Fin N) (LogEntry C)) (σ : Cluster N C) : Prop := ∀ p ∈ σ.net, p.Synced h σ

section
variable (hr : Rel h σ) (hr' : Rel h' σ') (hle : h ≤ h') {a : Action N C} (hstep : σ.step a = some σ')
include hr hr' hle hstep

theorem Packet.Synced.step {p : Packet N C} (hp : p.Synced h σ) : p.Synced h' σ' := by
  cases p with
  | requestVote dst e args => trivial
  | requestVoteReply dst src e args reply => trivial
  | appendEntries dst e args => trivial
  | appendEntriesReply dst src e args reply => exact fun hv => (hp hv).step hr hr' hle hstep
  | installSnapshot dst e args => exact Nat.le_trans hp (hr.index_step hstep _)
  | installSnapshotReply dst src e args reply => exact Nat.le_trans hp (hr.index_step hstep _)

theorem Cluster.Synced.step (hs : σ.Synced h) : σ'.Synced h' := by
  intro p hp
  obtain hin | ⟨s, l, out, hact, hin⟩ | ⟨s, q, out, hmem, hd, hrec, hin⟩ := Cluster.packet_cases hstep hp
  · exact (hs p hin).step hr hr' hle hstep
  · generalize σ'.server s = srv at hact
    cases hact with
    | electionTimeout _ =>
      obtain ⟨peer, -, rfl⟩ := List.mem_map.mp hin
      trivial
    | append _ _ => rw [List.mem_singleton.mp hin]; trivial
    | install _ hrep =>
      obtain ⟨-, -, rfl⟩ := Raft.replicateTo_install hrep
      rw [List.mem_singleton.mp hin]
      show (σ.server s).rf.lastIncludedIndex ≤ (σ'.server (σ.server s).rf.me).rf.lastIncludedIndex
      rw [(hr.server s).tracks.core.me]
      exact hr.index_step hstep s
    | _ => cases hin
  · have hj := hr.packet q hmem
    have hq := (hs q hmem).step hr hr' hle hstep
    generalize hsrv : σ'.server s = srv at hrec
    cases hrec with
    | requestVote dst e args => rw [List.mem_singleton.mp hin]; trivial
    | appendEntries dst e hae =>
      obtain rfl : dst = s := hd
      rw [List.mem_singleton.mp hin]
      intro hv
      obtain ⟨hct, hpre⟩ :=
        (appendEntries_fullLog hr.sound (hr.server dst).tracks (hr.shaped.server dst) hj.2 hae).2 hv
      have hlen := hj.2.le
      refine ⟨?_, hlen.trans (Ledger.Le.length_log hle _), fun _ => ?_⟩
      · rw [hsrv]; exact hct.ge
      · rw [hsrv, Ledger.Le.take_log hle hlen]; exact hpre
    | installSnapshot dst e args =>
      rw [List.mem_singleton.mp hin]
      exact hq
    | _ => cases hin

end

/-! ## Which replies have raised it -/

def RaftRun.SnapshotReply (r : RaftRun N C) (m : Nat) (s p : Fin N) : Prop :=
  ∃ n epoch args reply, r.act m = some (.deliver n) ∧
    (r.state m).net[n]? = some (.installSnapshotReply s p epoch args reply)

/-- Since a moment of this leadership at which `matchIndex[p]` was below `i`, only
`InstallSnapshot` replies of `p` have changed it. -/
def RaftRun.RaisedBySnapshots (r : RaftRun N C) (k : Nat) (s p : Fin N) (i : Nat) : Prop :=
  ∃ j < k, ((r.state j).server s).rf.state = .leader ∧
    ((r.state j).server s).rf.currentTerm = ((r.state k).server s).rf.currentTerm ∧
    ((r.state j).server s).rf.matchIndex p < i ∧
    ∀ m, j ≤ m → m < k →
      ((r.state (m + 1)).server s).rf.matchIndex p ≠ ((r.state m).server s).rf.matchIndex p → r.SnapshotReply m s p

/-- The peer has stored the entries up to `n`, and what is above `n` stands for
snapshots that the leader has sent. -/
structure RaftRun.Acked (r : RaftRun N C) (h : Ledger (Fin N) (LogEntry C)) (k : Nat) (s p : Fin N) (n : Nat) :
    Prop where
  held : n = 0 ∨ Held h (r.state k) p ((r.state k).server s).rf.currentTerm n
  above : ∀ i, n < i → i ≤ ((r.state k).server s).rf.matchIndex p →
    i ≤ ((r.state k).server s).rf.lastIncludedIndex ∧ r.RaisedBySnapshots k s p i

section
variable {r : RaftRun N C} {k : Nat} {s p : Fin N} {i : Nat}

theorem RaftRun.RaisedBySnapshots.succ (hb : r.RaisedBySnapshots k s p i)
    (hterm : ((r.state (k + 1)).server s).rf.currentTerm = ((r.state k).server s).rf.currentTerm)
    (hm : ((r.state (k + 1)).server s).rf.matchIndex p ≠ ((r.state k).server s).rf.matchIndex p →
      r.SnapshotReply k s p) : r.RaisedBySnapshots (k + 1) s p i := by
  obtain ⟨j, hj, hlead, ht, hlt, hrest⟩ := hb
  refine ⟨j, Nat.lt_succ_of_lt hj, hlead, ht.trans hterm.symm, hlt, fun m hjm hmk hne => ?_⟩
  rcases Nat.lt_succ_iff_lt_or_eq.mp hmk with hmk | rfl
  · exact hrest m hjm hmk hne
  · exact hm hne

theorem RaftRun.raisedBySnapshots_now (hlead : ((r.state k).server s).rf.state = .leader)
    (hterm : ((r.state (k + 1)).server s).rf.currentTerm = ((r.state k).server s).rf.currentTerm)
    (hlt : ((r.state k).server s).rf.matchIndex p < i) (hreply : r.SnapshotReply k s p) :
    r.RaisedBySnapshots (k + 1) s p i := by
  refine ⟨k, Nat.lt_succ_self k, hlead, hterm.symm, hlt, fun m hkm hmk _ => ?_⟩
  rw [Nat.le_antisymm (Nat.le_of_lt_succ hmk) hkm]
  exact hreply

variable {a : Action N C} (hact : r.act k = some a) (hr : Rel h (r.state k)) (hr' : Rel h' (r.state (k + 1)))
  (hle : h ≤ h') (hstep : (r.state k).step a = some (r.state (k + 1)))
include hr hr' hle hstep

theorem RaftRun.Acked.keep {n : Nat} (ha : r.Acked h k s p n) (hlead : ((r.state k).server s).rf.state = .leader)
    (hterm : ((r.state (k + 1)).server s).rf.currentTerm = ((r.state k).server s).rf.currentTerm)
    (hm : ((r.state (k + 1)).server s).rf.matchIndex p = ((r.state k).server s).rf.matchIndex p ∨
      r.SnapshotReply k s p ∧
        ((r.state (k + 1)).server s).rf.matchIndex p ≤ ((r.state (k + 1)).server s).rf.lastIncludedIndex) :
    r.Acked h' (k + 1) s p n where
  held := ha.held.imp_right fun hh => by
    rw [hterm]
    exact hh.step hr hr' hle hstep
  above i hn hi := by
    by_cases hold : i ≤ ((r.state k).server s).rf.matchIndex p
    · obtain ⟨hin, hby⟩ := ha.above i hn hold
      exact ⟨hin.trans (hr.index_step hstep s), hby.succ hterm fun hne => (hm.resolve_left hne).1⟩
    · have hne : ((r.state (k + 1)).server s).rf.matchIndex p ≠ ((r.state k).server s).rf.matchIndex p := by omega
      obtain ⟨hreply, hin⟩ := hm.resolve_left hne
      exact ⟨hi.trans hin, raisedBySnapshots_now hlead hterm (by omega) hreply⟩

include hact

theorem RaftRun.Acked.step (hs : (r.state k).Synced h) (hsp : p ≠ s)
    (ha : ((r.state k).server s).rf.state = .leader → ∃ n, r.Acked h k s p n)
    (hst : ((r.state (k + 1)).server s).rf.state = .leader) : ∃ n, r.Acked h' (k + 1) s p n := by
  have hme := (hr.server s).tracks.core.me
  -- the same leadership
  have same : ((r.state k).server s).rf.state = .leader →
      ((r.state (k + 1)).server s).rf.currentTerm = ((r.state k).server s).rf.currentTerm →
      ((r.state (k + 1)).server s).rf.matchIndex p = ((r.state k).server s).rf.matchIndex p ∨
        r.SnapshotReply k s p ∧
          ((r.state (k + 1)).server s).rf.matchIndex p ≤ ((r.state (k + 1)).server s).rf.lastIncludedIndex →
      ∃ n, r.Acked h' (k + 1) s p n := by
    intro hlead hterm hm
    obtain ⟨n, hn⟩ := ha hlead
    exact ⟨n, hn.keep hr hr' hle hstep hlead hterm hm⟩
  obtain heq | ⟨l, out, -, hl⟩ | ⟨n, q, out, rfl, hn, hd, hrec⟩ := Cluster.server_cases hstep s
  · rw [heq] at hst
    exact same hst (by rw [heq]) (Or.inl (by rw [heq]))
  · obtain ⟨h1, h2, h3⟩ := hl.leader hst
    exact same h1 h2 (Or.inl (h3 p (by rw [hme]; exact hsp)))
  · have hq := (hs q (List.mem_of_getElem? hn)).step hr hr' hle hstep
    rcases hrec.leader hst with hzero | ⟨h1, h2, h3⟩
    · -- it has just become leader
      refine ⟨0, Or.inl rfl, fun i hpos hi => ?_⟩
      rw [hzero p (by rw [hme]; exact hsp)] at hi
      omega
    · rcases h3 p with hm | ⟨dst, e, args, reply, rfl, hv, ht, hm⟩ | ⟨dst, e, args, reply, rfl, hm⟩
      · exact same h1 h2 (Or.inl hm)
      · refine ⟨args.prevLogIndex + args.entries.length, Or.inr ?_, fun i hlt hi => absurd hi (by omega)⟩
        have := hq hv
        rwa [ht, ← h2] at this
      · obtain rfl : dst = s := hd
        exact same h1 h2 (Or.inr ⟨⟨n, e, args, reply, hact, hn⟩, by rw [hm]; exact hq⟩)

end

theorem RaftRun.acked (r : RaftRun N C) {g : Nat → Ledger (Fin N) (LogEntry C)} (hmono : Monotone g)
    (hg : ∀ k, Rel (g k) (r.state k) ∧ (r.state k).Synced (g k)) {s p : Fin N} (hsp : p ≠ s) (k : Nat) :
    ((r.state k).server s).rf.state = .leader → ∃ n, r.Acked (g k) k s p n := by
  induction k with
  | zero =>
    intro hst
    rw [r.start] at hst
    cases hst
  | succ k ih =>
    intro hst
    rcases r.next_cases k with ⟨-, heq⟩ | ⟨a, ha, hstep⟩
    · rw [heq] at hst
      obtain ⟨n, hn⟩ := ih hst
      refine ⟨n, hn.held.imp_right fun hheld => ?_, fun i hlt hi => ?_⟩
      · rw [heq]
        exact hheld.mono (hmono (Nat.le_succ k))
      · rw [heq] at hi ⊢
        obtain ⟨hin, hby⟩ := hn.above i hlt hi
        exact ⟨hin, hby.succ (by rw [heq]) fun hne => absurd (by rw [heq]) hne⟩
    · exact Acked.step ha (hg k).1 (hg (k + 1)).1 (hmono (Nat.le_succ k)) hstep (hg k).2 hsp ih hst

/-- For a peer in the leader's term, `matchIndex` counts entries that the peer
has stored. The only exception are indices, within the leader's own snapshot,
over which it was raised by `InstallSnapshot` replies alone. -/
theorem matchIndex_stored (r : RaftRun N C) (k : Nat) {s p : Fin N} (hs : ((r.state k).server s).rf.state = .leader)
    (hp : ((r.state k).server p).rf.currentTerm = ((r.state k).server s).rf.currentTerm) {i : Nat} (h1 : 1 ≤ i)
    (hi : i ≤ ((r.state k).server s).rf.matchIndex p) :
    (∃ e, ((r.state k).server s).rf.entryAt i = some e ∧ ((r.state k).server p).rf.persister.entryAt N i = some e) ∨
    i ≤ ((r.state k).server s).rf.lastIncludedIndex ∧ r.RaisedBySnapshots k s p i := by
  obtain ⟨g, hg, hmono⟩ := r.history r.meets_true
    (R := fun (h : Ledger (Fin N) (LogEntry C)) σ => Rel h σ ∧ σ.Synced h)
    ⟨Rel.init, fun p hp => by cases hp⟩ (by
      intro h σ a σ' hr _ hstep
      obtain ⟨h', hle, hr'⟩ := hr.1.step hstep
      exact ⟨h', hle, hr', hr.2.step hr.1 hr' hle hstep⟩)
  obtain ⟨hr, -⟩ := hg k
  obtain ⟨-, hfull⟩ := hr.leader_log hs
  have agree : ∀ {m : Nat}, i ≤ m → m ≤ ((r.state k).server s).rf.fullLog.length →
      ((r.state k).server s).rf.fullLog.take m <+: ((r.state k).server p).rf.fullLog →
      ∃ e, ((r.state k).server s).rf.entryAt i = some e ∧
        ((r.state k).server p).rf.persister.entryAt N i = some e := by
    intro m him hm hpre
    rw [(hr.saved p).entryAt]
    exact entryAt_of_prefix (hr.shaped.server s) (hr.shaped.server p) ( List.take_prefix m _) hpre h1
      (by rw [List.length_take]; omega)
  by_cases hps : p = s
  · left
    subst hps
    refine agree hi ?_ ( List.take_prefix _ _)
    rw [Raft.length_fullLog (hr.shaped.server p)]
    exact ((hr.server p).tracks.leading hs).own
  · obtain ⟨n, hheld, habove⟩ := r.acked hmono hg hps k hs
    by_cases hin : i ≤ n
    · left
      obtain ⟨-, hm, hpre⟩ := hheld.resolve_left (by omega)
      rw [← hfull] at hm hpre
      exact agree hin hm (hpre hp)
    · exact Or.inr (habove i (by omega) hi)

theorem handover_stored : ∃ e, ((handover.state 7).server 0).rf.entryAt 1 = some e ∧
    ((handover.state 7).server 1).rf.persister.entryAt 2 1 = some e := by
  refine (matchIndex_stored handover 7 (s := 0) (p := 1) (by decide +kernel) (by decide +kernel) (by decide)
    (by decide +kernel)).resolve_right fun h => ?_
  exact absurd h.1 (by decide +kernel)

/-- Server 0 has handled the `InstallSnapshot` reply of server 2, which has not
yet installed anything. -/
theorem matchIndex_not_stored :
    ¬ ∀ s p : Fin 3, ((catchUp.state 15).server s).rf.state = .leader →
      ((catchUp.state 15).server p).rf.currentTerm = ((catchUp.state 15).server s).rf.currentTerm →
      ∀ i, 1 ≤ i → i ≤ ((catchUp.state 15).server s).rf.matchIndex p →
        ∃ e, ((catchUp.state 15).server s).rf.entryAt i = some e ∧
          ((catchUp.state 15).server p).rf.persister.entryAt 3 i = some e := by
  intro hall
  obtain ⟨e, -, he⟩ := hall 0 2 (by decide +kernel) (by decide +kernel) 1 (by decide) (by decide +kernel)
  have hnone : ((catchUp.state 15).server 2).rf.persister.entryAt 3 1 = none := by decide +kernel
  rw [hnone] at he
  cases he

end

end DistLab
