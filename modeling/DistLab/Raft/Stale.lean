import DistLab.Raft.Bounds

/-!
# Requests that come late

A request of a leader reaches to the end of its log, so an older request of the
same term ends no later and carries a commit index that is no larger. A follower
that has accepted a newer one has all that the older one brings.
-/

namespace DistLab

section
variable {N : Nat} {C S : Type} {rf rf' : Raft N C S}

/-! ## One server -/

theorem Raft.replicateTo_end {peer : Fin N} {args : AppendEntriesArgs N C}
    (h : rf.replicateTo peer = some (some (.append args))) (hnext : rf.nextIndex peer ≤ rf.lastLogIndex + 1) :
    args.prevLogIndex + args.entries.length = rf.lastLogIndex := by
  obtain ⟨-, hlt, rfl⟩ := Raft.replicateTo_append h
  unfold Raft.lastLogIndex at hnext ⊢
  simp only [List.length_drop]
  omega

theorem Raft.requestVoteReply_state {votes : Nat} {args : RequestVoteArgs N} {reply : RequestVoteReply}
    (hst : (rf.requestVoteReply votes args reply).1.state = .leader) :
    (rf.state = .leader ∨ rf.state = .candidate) ∧
      (rf.requestVoteReply votes args reply).1.currentTerm = rf.currentTerm := by
  unfold Raft.requestVoteReply at hst ⊢
  by_cases hlt : rf.currentTerm < reply.term
  · rw [if_pos hlt] at hst
    cases hst
  · rw [if_neg hlt] at hst ⊢
    by_cases hrole : rf.state ≠ .candidate ∨ rf.currentTerm ≠ args.term
    · rw [if_pos hrole] at hst ⊢
      exact ⟨Or.inl hst, rfl⟩
    · rw [if_neg hrole]
      push Not at hrole
      refine ⟨Or.inr hrole.1, ?_⟩
      split_ifs <;> rfl

/-- A request that is accepted is not above `commitIndex` afterwards, as far as the
log reaches. -/
theorem Raft.appendEntries_commit {args : AppendEntriesArgs N C} {reply : AppendEntriesReply}
    (h : rf.appendEntries args = some (rf', reply)) (hok : reply.success = true) (hle : args.leaderCommit ≤ rf'.lastLogIndex) :
    args.leaderCommit ≤ rf'.commitIndex := by
  rcases Raft.appendEntries_cases h with ⟨-, -, hf, -⟩ | ⟨-, -, hf, -⟩ | ⟨-, hp, -, -, hacc, -⟩
  · rw [hf] at hok
    cases hok
  · rw [hf] at hok
    cases hok
  · have heq := Raft.acceptEntries_eq (by simpa using hp) hacc
    simp only at heq
    rw [heq] at hle ⊢
    split
    · rename_i hlt
      rw [if_pos hlt] at hle
      split
      · exact hle
      · exact le_rfl
    · rename_i hge
      exact Nat.le_of_not_lt hge

theorem Raft.newTerm_same {t : Nat} (h : rf.currentTerm = t) : rf.newTerm t = { rf with state := .follower } := by
  unfold Raft.newTerm
  simp only
  rw [if_neg (by omega)]

/-- A request of the current term that changes neither the log nor `commitIndex`
changes nothing but the role. -/
theorem Raft.appendEntries_same {rf rf' : Raft N C (Snapshot C)} {args : AppendEntriesArgs N C} {reply : AppendEntriesReply}
    (h : rf.appendEntries args = some (rf', reply)) (hterm : rf.currentTerm = args.term)
    (hfull : rf'.fullLog = rf.fullLog) (hci : args.leaderCommit ≤ rf.commitIndex) :
    rf'.log = rf.log ∧ rf'.lastIncludedIndex = rf.lastIncludedIndex ∧ rf'.commitIndex = rf.commitIndex ∧
      rf'.currentTerm = rf.currentTerm ∧ rf'.votedFor = rf.votedFor := by
  have hlog : rf'.log = rf.log := by
    have hsnap := (Raft.keeps_appendEntries rf h).snapshot
    rw [Raft.fullLog, Raft.fullLog, hsnap] at hfull
    exact List.append_cancel_left hfull
  rcases Raft.appendEntries_cases h with ⟨hlt, -⟩ | ⟨-, rfl, -⟩ | ⟨-, hp, -, -, hacc, -⟩
  · omega
  · rw [Raft.newTerm_same hterm]
    exact ⟨rfl, rfl, rfl, rfl, rfl⟩
  · have heq := Raft.acceptEntries_eq (by simpa using hp) hacc
    simp only [Raft.newTerm_same hterm] at heq
    rw [if_neg (by omega)] at heq
    refine ⟨hlog, ?_⟩
    rw [heq]
    exact ⟨rfl, rfl, rfl, rfl⟩

end

/-! ## The leader -/

section
variable {N : Nat} {C : Type}

theorem Server.Receive.led {srv srv' : Server N C} {p : Packet N C} {out : List (Packet N C)}
    (h : srv.Receive p srv' out) (hst : srv'.rf.state = .leader) :
    (srv.rf.state = .leader ∨ srv.rf.state = .candidate) ∧ srv'.rf.currentTerm = srv.rf.currentTerm := by
  cases h with
  | requestVote dst e args =>
    obtain ⟨h1, h2, -⟩ := Raft.requestVote_leader hst
    exact ⟨Or.inl h1, h2⟩
  | requestVoteReply dst src args reply => exact Raft.requestVoteReply_state hst
  | appendEntries dst e hae =>
    have heq := Raft.appendEntries_leader hae hst
    subst heq
    exact ⟨Or.inl hst, rfl⟩
  | appendEntriesReply dst src args reply =>
    obtain ⟨h1, h2, -⟩ := Raft.appendEntriesReply_leader hst
    exact ⟨Or.inl h1, h2⟩
  | installSnapshot dst e args =>
    have heq := Raft.installSnapshot_leader hst
    exact ⟨Or.inl ((congrArg Raft.state heq).symm.trans hst), congrArg Raft.currentTerm heq⟩
  | installSnapshotReply dst src args reply =>
    obtain ⟨h1, h2, -⟩ := Raft.installSnapshotReply_leader hst
    exact ⟨Or.inl h1, h2⟩
  | lost => exact ⟨Or.inl hst, rfl⟩

variable {h : Ledger (Fin N) (LogEntry C)} {σ σ' : Cluster N C} {s : Fin N}

theorem Cluster.restart_state (hstep : σ.step (.server s .restart) = some σ') : (σ'.server s).rf.state = .follower := by
  cases hstep
  rw [Cluster.put_self]
  exact Raft.make_state _ _

/-- Nobody is elected twice in a term, so a leader has led its term ever since. -/
theorem Rel.led_step (hr : Rel h σ) {a : Action N C} (hstep : σ.step a = some σ')
    (hlead : h.leader (σ'.server s).rf.currentTerm = some s) (hst : (σ'.server s).rf.state = .leader) :
    (σ.server s).rf.state = .leader ∧ (σ'.server s).rf.currentTerm = (σ.server s).rf.currentTerm := by
  obtain heq | ⟨l, out, -, hact⟩ | ⟨k, p, out, -, -, -, hrec⟩ := Cluster.server_cases hstep s
  · rw [heq] at hst ⊢
    exact ⟨hst, rfl⟩
  · obtain ⟨h1, h2, -⟩ := hact.leader hst
    exact ⟨h1, h2⟩
  · obtain ⟨hrole, hterm⟩ := hrec.led hst
    refine ⟨hrole.resolve_right fun hcand => ?_, hterm⟩
    rw [hterm] at hlead
    exact ((hr.server s).tracks.standing hcand).unelected hlead

theorem RaftRun.led_commit {r : RaftRun N C} {g : Nat → Ledger (Fin N) (LogEntry C)} (hg : ∀ k, Rel (g k) (r.state k))
    (hmono : Monotone g) {j k : Nat} (hjk : j ≤ k) {T : Nat} (hj : ((r.state j).server s).rf.state = .leader)
    (hT : ((r.state j).server s).rf.currentTerm = T) (hk : ((r.state k).server s).rf.state = .leader)
    (hTk : ((r.state k).server s).rf.currentTerm = T) :
    ((r.state j).server s).rf.commitIndex ≤ ((r.state k).server s).rf.commitIndex := by
  have hlead : ∀ i, j ≤ i → (g i).leader T = some s := fun i hi =>
    (hmono hi).leader T s (hT ▸ ((hg j).leader_log hj).1)
  refine r.induction_from (P := fun _ σ => (σ.server s).rf.state = .leader → (σ.server s).rf.currentTerm = T →
    ((r.state j).server s).rf.commitIndex ≤ (σ.server s).rf.commitIndex) hjk (fun _ _ => le_rfl)
    (fun _ _ _ _ h => h) ?_ hk hTk
  intro i a hji _ _ ih hstep hst hterm
  obtain ⟨hst', hterm'⟩ := (hg i).led_step hstep (by rw [hterm]; exact hlead i hji) hst
  refine (ih hst' (hterm'.symm.trans hterm)).trans ((hg i).commit_step hstep ?_)
  rintro rfl
  rw [Cluster.restart_state hstep] at hst
  cases hst

/-! ## Runs -/

structure RaftRun.Requests (r : RaftRun N C) (k : Nat) (s p : Fin N) (args : AppendEntriesArgs N C) : Prop where
  act : r.act k = some (.server s (.replicate p))
  call : ((r.state k).server s).rf.replicateTo p = some (some (.append args))

def RaftRun.Delivers (r : RaftRun N C) (k : Nat) (p : Fin N) (args : AppendEntriesArgs N C) : Prop :=
  ∃ i e, r.act k = some (.deliver i) ∧ (r.state k).net[i]? = some (.appendEntries p e args)

structure RaftRun.Accepts (r : RaftRun N C) (k : Nat) (p : Fin N) (args : AppendEntriesArgs N C) : Prop where
  delivers : r.Delivers k p args
  success : ∃ rf' reply, ((r.state k).server p).rf.appendEntries args = some (rf', reply) ∧ reply.success = true

section
variable {r : RaftRun N C} {p : Fin N} {m : AppendEntriesArgs N C} {k : Nat}

theorem RaftRun.Delivers.next (hd : r.Delivers k p m) {g : Nat → Ledger (Fin N) (LogEntry C)}
    (hg : ∀ k, Rel (g k) (r.state k)) : Sent (g k) m ∧
      ∃ reply, ((r.state k).server p).rf.appendEntries m = some (((r.state (k + 1)).server p).rf, reply) := by
  obtain ⟨i, e, hact, hnet⟩ := hd
  refine ⟨((hg k).packet _ (List.mem_of_getElem? hnet)).2, ?_⟩
  have hstep := r.next_some hact
  obtain ⟨_, _, _, _, heq, -⟩ | ⟨i', q, srv, out, heq, hk, hrec, hst⟩ | ⟨_, heq, -⟩ := Cluster.step_cases hstep
  · cases heq
  · cases heq
    rw [hnet] at hk
    cases hk
    have hsrv : (r.state (k + 1)).server p = srv := by rw [hst]; exact Cluster.put_self ..
    simp only [Server.receive] at hrec
    split at hrec
    · cases hrec
    · rename_i rf' reply hae
      cases hrec
      exact ⟨reply, by rw [hsrv]; exact hae⟩
  · cases heq

/-- What a request of a leader brings is what the leader had when it sent it. -/
theorem RaftRun.Requests.sent (hq : r.Requests k s p m) {g : Nat → Ledger (Fin N) (LogEntry C)}
    (hg : ∀ k, Rel (g k) (r.state k)) : ((r.state k).server s).rf.state = .leader ∧
      m.term = ((r.state k).server s).rf.currentTerm ∧ m.leaderCommit = ((r.state k).server s).rf.commitIndex ∧
      m.prevLogIndex + m.entries.length = ((g k).log m.term).length := by
  have ht := ((hg k).server s).tracks
  obtain ⟨hl, -, hargs⟩ := Raft.replicateTo_append hq.call
  have hend := Raft.replicateTo_end hq.call ((ht.leading hl).next_le p)
  have hterm : m.term = ((r.state k).server s).rf.currentTerm := by rw [hargs]
  refine ⟨hl, hterm, by rw [hargs], ?_⟩
  rw [hend, hterm, leader_length (hg k).sound ht.core (ht.leading hl)]

end

/-- A follower that has accepted a request keeps what it brought, until it is
started again or leaves the term. -/
theorem RaftRun.Accepts.held {r : RaftRun N C} {g : Nat → Ledger (Fin N) (LogEntry C)} (hg : ∀ k, Rel (g k) (r.state k))
    (hmono : Monotone g) {p : Fin N} {m : AppendEntriesArgs N C} {k n : Nat} (hacc : r.Accepts k p m) (hkn : k < n)
    (hup : ∀ i, k < i → i < n → r.act i ≠ some (.server p .restart)) :
    Held (g n) (r.state n) p m.term (m.prevLogIndex + m.entries.length) ∧
      m.leaderCommit ≤ ((r.state n).server p).rf.commitIndex := by
  obtain ⟨hsent, reply, hae⟩ := hacc.delivers.next hg
  have hok : reply.success = true := by
    obtain ⟨rf', reply', hae', hok⟩ := hacc.success
    rw [hae] at hae'
    cases hae'
    exact hok
  obtain ⟨hT, hpre⟩ :=
    (appendEntries_fullLog (hg k).sound ((hg k).server p).tracks ((hg k).shaped.server p) hsent hae).2 hok
  refine r.induction_from (P := fun n σ => Held (g n) σ p m.term (m.prevLogIndex + m.entries.length) ∧
    m.leaderCommit ≤ (σ.server p).rf.commitIndex) (Nat.succ_le_of_lt hkn) ⟨⟨hT.ge, ?_, fun _ => ?_⟩, ?_⟩ ?_ ?_
  · exact hsent.le.trans ((hmono (Nat.le_succ k)).length_log _)
  · rw [(hmono (Nat.le_succ k)).take_log hsent.le]
    exact hpre
  · have hlen := hpre.length_le
    rw [List.length_take, Nat.min_eq_left hsent.le, Raft.length_fullLog ((hg (k + 1)).shaped.server p)] at hlen
    exact Raft.appendEntries_commit hae hok (hsent.commit_le.trans hlen)
  · intro i _ _ _ hi
    exact ⟨hi.1.mono (hmono (Nat.le_succ i)), hi.2⟩
  · intro i a hki hin ha hi hstep
    refine ⟨hi.1.step (hg i) (hg (i + 1)) (hmono (Nat.le_succ i)) hstep, hi.2.trans ((hg i).commit_step hstep ?_)⟩
    rintro rfl
    exact hup i hki hin ha

/-- A request that was sent no later than one that the follower has accepted in the
same term changes nothing. -/
theorem old_append_harmless (r : RaftRun N C) {s p : Fin N} {m₁ m₂ : AppendEntriesArgs N C} {j₁ j₂ k₂ k₃ : Nat}
    (hs₁ : r.Requests j₁ s p m₁) (hs₂ : r.Requests j₂ s p m₂) (hterm : m₁.term = m₂.term) (hj : j₁ ≤ j₂)
    (hacc : r.Accepts k₂ p m₂) (hk : k₂ < k₃) (hdel : r.Delivers k₃ p m₁)
    (hup : ∀ i, k₂ < i → i < k₃ → r.act i ≠ some (.server p .restart))
    (hcur : ((r.state k₃).server p).rf.currentTerm = m₂.term) :
    ((r.state (k₃ + 1)).server p).rf.log = ((r.state k₃).server p).rf.log ∧
    ((r.state (k₃ + 1)).server p).rf.lastIncludedIndex = ((r.state k₃).server p).rf.lastIncludedIndex ∧
    ((r.state (k₃ + 1)).server p).rf.commitIndex = ((r.state k₃).server p).rf.commitIndex ∧
    ((r.state (k₃ + 1)).server p).rf.currentTerm = ((r.state k₃).server p).rf.currentTerm ∧
    ((r.state (k₃ + 1)).server p).rf.votedFor = ((r.state k₃).server p).rf.votedFor := by
  obtain ⟨g, hg, hmono⟩ := r.ledger
  obtain ⟨hl₁, ht₁, hc₁, he₁⟩ := hs₁.sent hg
  obtain ⟨hl₂, ht₂, hc₂, he₂⟩ := hs₂.sent hg
  have hend : m₁.prevLogIndex + m₁.entries.length ≤ m₂.prevLogIndex + m₂.entries.length := by
    rw [he₁, he₂, hterm]
    exact (hmono hj).length_log _
  have hcommit : m₁.leaderCommit ≤ m₂.leaderCommit := by
    rw [hc₁, hc₂]
    exact RaftRun.led_commit hg hmono hj hl₁ rfl hl₂ (by rw [← ht₁, ← ht₂, hterm])
  obtain ⟨⟨-, -, hpre⟩, hci⟩ := hacc.held hg hmono hk hup
  obtain ⟨hsent, reply, hae⟩ := hdel.next hg
  have hfull := (appendEntries_fullLog (hg k₃).sound ((hg k₃).server p).tracks ((hg k₃).shaped.server p) hsent hae).1
  refine Raft.appendEntries_same hae (hcur.trans hterm.symm) (hfull.resolve_right fun hnew => hnew.2.1 ?_)
    (hcommit.trans hci)
  rw [hterm]
  exact (List.take_prefix_take_left hend).trans (hpre hcur)

/-- Server 0 sends one entry, then two; the second request arrives first. -/
def swappedActs : List (Action 4 Nat) :=
  [.server 0 .electionTimeout, .deliver 0, .deliver 0, .deliver 1, .deliver 1, .server 0 (.start 7),
   .server 0 (.replicate 1), .server 0 (.start 8), .server 0 (.replicate 1), .deliver 2, .deliver 1]

theorem swapped_exec : (exec Cluster.step (Cluster.init 4 Nat) swappedActs).isSome = true := by decide +kernel

def swapped : RaftRun 4 Nat := Run.ofList swappedActs (Option.some_get swapped_exec).symm

theorem swapped_harmless : ((swapped.state 10).server 1).rf.log = [⟨1, 7⟩, ⟨1, 8⟩] ∧
    ((swapped.state 11).server 1).rf.log = ((swapped.state 10).server 1).rf.log ∧
    ((swapped.state 11).server 1).rf.lastIncludedIndex = ((swapped.state 10).server 1).rf.lastIncludedIndex ∧
    ((swapped.state 11).server 1).rf.commitIndex = ((swapped.state 10).server 1).rf.commitIndex ∧
    ((swapped.state 11).server 1).rf.currentTerm = ((swapped.state 10).server 1).rf.currentTerm ∧
    ((swapped.state 11).server 1).rf.votedFor = ((swapped.state 10).server 1).rf.votedFor := by
  have hs₁ : swapped.Requests 6 0 1 ⟨1, 0, 0, some 0, [⟨1, 7⟩], 0⟩ := ⟨rfl, rfl⟩
  have hs₂ : swapped.Requests 8 0 1 ⟨1, 0, 0, some 0, [⟨1, 7⟩, ⟨1, 8⟩], 0⟩ := ⟨rfl, rfl⟩
  have hacc : swapped.Accepts 9 1 ⟨1, 0, 0, some 0, [⟨1, 7⟩, ⟨1, 8⟩], 0⟩ := ⟨⟨2, 0, rfl, rfl⟩, _, _, rfl, rfl⟩
  have hdel : swapped.Delivers 10 1 ⟨1, 0, 0, some 0, [⟨1, 7⟩], 0⟩ := ⟨1, 0, rfl, rfl⟩
  refine ⟨by decide +kernel, ?_⟩
  exact old_append_harmless swapped hs₁ hs₂ rfl (by decide) hacc (by decide) hdel (fun i h1 h2 => by omega) rfl

end

end DistLab
