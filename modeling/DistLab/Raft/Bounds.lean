import DistLab.Raft.Order

/-!
# Index bounds

The slice `rf.log` starts after `lastIncludedIndex`, and every index used on it
is compared with `commitIndex` or with `lastLogIndex` first. The bounds between
the three make all the slice expressions of `raft.go` total, and the bound on
`nextIndex` makes the commit index of a request one that the request covers.
-/

namespace DistLab

section
variable {N : Nat} {C S : Type} {rf : Raft N C S}

/-! ## Slice expressions -/

theorem Raft.condInstallSnapshot_isSome (hci : rf.lastIncludedIndex ≤ rf.commitIndex) (t i : Nat) (snap : S) :
    (rf.condInstallSnapshot t i snap).isSome := by
  unfold condInstallSnapshot
  split
  · rfl
  · rename_i hlt
    by_cases hle : i ≤ rf.lastLogIndex
    · have hk : i - rf.lastIncludedIndex ≤ rf.log.length := by unfold lastLogIndex at hle; omega
      rw [if_pos hle, toSliceIndex_succ (by omega), goFrom_natCast hk]
      rfl
    · rw [if_neg hle]; rfl

theorem Raft.snapshot_isSome {i : Nat} (hi : i ≤ rf.lastLogIndex) (snap : S) : (rf.snapshot i snap).isSome := by
  unfold snapshot
  split
  · rfl
  · rename_i hlt
    have hk : i - rf.lastIncludedIndex - 1 < rf.log.length := by unfold lastLogIndex at hi; omega
    dsimp only
    rw [toSliceIndex_succ (by omega), toSliceIndex_eq (by omega), goIndex_natCast, goFrom_natCast (by omega),
      List.getElem?_eq_getElem hk]
    rfl

theorem Raft.acceptEntries_isSome {args : AppendEntriesArgs N C} (h : rf.lastIncludedIndex ≤ args.prevLogIndex) :
    (rf.acceptEntries args).isSome := by
  rw [acceptEntries, appendLoop_eq _ _ (by omega)]
  rfl

theorem Raft.appendEntries_isSome (args : AppendEntriesArgs N C) : (rf.appendEntries args).isSome := by
  unfold appendEntries
  split
  · rfl
  · dsimp only
    split_ifs with hp hl ht
    · rfl
    · rfl
    · rfl
    · obtain ⟨rf', hacc⟩ := Option.isSome_iff_exists.mp (acceptEntries_isSome (Nat.le_of_not_lt hp))
      rw [hacc]
      rfl

theorem Raft.replicateTo_isSome (peer : Fin N) : (rf.replicateTo peer).isSome := by
  by_cases hl : rf.state = .leader
  · rw [replicateTo_eq hl]
    rfl
  · simp [replicateTo, hl]

theorem Raft.goIndex_isSome {i : Nat} (hlo : rf.lastIncludedIndex < i) (hhi : i ≤ rf.lastLogIndex) :
    (goIndex rf.log (rf.toSliceIndex i)).isSome := by
  have hk : i - rf.lastIncludedIndex - 1 < rf.log.length := by unfold lastLogIndex at hhi; omega
  rw [toSliceIndex_eq hlo, goIndex_natCast, List.getElem?_eq_getElem hk]
  rfl

end

/-! ## Runs -/

section
variable {N : Nat} {C : Type} {h : Ledger (Fin N) (LogEntry C)} {σ σ' : Cluster N C}

theorem Rel.commit_step (hr : Rel h σ) {a : Action N C} (hstep : σ.step a = some σ') {s : Fin N}
    (ha : a ≠ .server s .restart) : (σ.server s).rf.commitIndex ≤ (σ'.server s).rf.commitIndex := by
  obtain heq | ⟨l, out, rfl, hact⟩ | ⟨k, p, out, -, hk, hd, hrec⟩ := Cluster.server_cases hstep s
  · rw [heq]
  · exact hact.commit_le.resolve_left fun hl => ha (by rw [hl])
  · obtain ⟨-, -, -, hg, -⟩ := hr.receive_tracks hk hd hrec
    exact hg.commit

theorem Sent.accept_commit {args : AppendEntriesArgs N C} (hs : Sent h args) {rf rf' : Raft N C (Snapshot C)}
    {reply : AppendEntriesReply} (hae : rf.appendEntries args = some (rf', reply)) :
    rf'.commitIndex = rf.commitIndex ∨ rf'.commitIndex ≤ args.prevLogIndex + args.entries.length := by
  have hnew := rf.newTerm_commitIndex args.term
  rcases Raft.appendEntries_cases hae with ⟨-, rfl, -⟩ | ⟨-, rfl, -⟩ | ⟨-, hp, -, -, hacc, -⟩
  · exact Or.inl rfl
  · exact Or.inl hnew
  · have heq := Raft.acceptEntries_eq (by simpa using hp) hacc
    have hle := hs.commit_le
    simp only at heq
    rw [heq]
    split
    · right
      dsimp only
      split <;> omega
    · exact Or.inl hnew

/-- A leader's `nextIndex` stays within its log, so a request reaches to the
end of the leader's log and covers the commit index it carries; a follower that
handles it commits nothing beyond. -/
theorem leader_commit_covered (r : RaftRun N C) :
    (∀ k s p, ((r.state k).server s).rf.state = .leader →
      ((r.state k).server s).rf.nextIndex p ≤ ((r.state k).server s).rf.lastLogIndex + 1) ∧
    (∀ k s p args, ((r.state k).server s).rf.replicateTo p = some (some (.append args)) →
      args.prevLogIndex ≤ ((r.state k).server s).rf.lastLogIndex ∧
      args.leaderCommit ≤ args.prevLogIndex + args.entries.length) ∧
    ∀ k dst e args rf' reply, .appendEntries dst e args ∈ (r.state k).net →
      ((r.state k).server dst).rf.appendEntries args = some (rf', reply) →
      ((r.state k).server dst).rf.commitIndex < rf'.commitIndex →
      rf'.commitIndex ≤ args.prevLogIndex + args.entries.length := by
  obtain ⟨g, hg, -⟩ := r.ledger
  have hnext : ∀ k s p, ((r.state k).server s).rf.state = .leader →
      ((r.state k).server s).rf.nextIndex p ≤ ((r.state k).server s).rf.lastLogIndex + 1 :=
    fun k s p hl => (((hg k).server s).tracks.leading hl).next_le p
  refine ⟨hnext, fun k s p args hsend => ?_, fun k dst e args rf' reply hmem hae hlt => ?_⟩
  · have ht := ((hg k).server s).tracks
    obtain ⟨hl, -, hargs⟩ := Raft.replicateTo_append hsend
    have hsent := (sent_replicateTo (hg k).sound ht.core ((hg k).shaped.server s) (ht.leading hl) hsend).1
    refine ⟨?_, hsent.commit_le⟩
    have := hnext k s p hl
    rw [hargs]
    dsimp only
    omega
  · have hsent : Sent (g k) args := ((hg k).packet _ hmem).2
    exact (hsent.accept_commit hae).resolve_left (by omega)

theorem handover_next_le : ((handover.state 7).server 0).rf.state = .leader ∧
    ((handover.state 7).server 0).rf.nextIndex 1 ≤ ((handover.state 7).server 0).rf.lastLogIndex + 1 := by
  have hl : ((handover.state 7).server 0).rf.state = .leader := by decide +kernel
  exact ⟨hl, (leader_commit_covered handover).1 7 0 1 hl⟩

/-- The slice expressions of `Snapshot`, `CondInstallSnapshot`,
`AppendEntries`, `replicateTo` and `applier`, for all the arguments they can be
called with; the service passes to `Snapshot` an index it received. -/
structure Server.InRange (srv : Server N C) : Prop where
  snapshot : ∀ i ∈ srv.service.commands, ∀ snap, (srv.rf.snapshot i snap).isSome
  condInstall : ∀ t i snap, (srv.rf.condInstallSnapshot t i snap).isSome
  append : ∀ args, (srv.rf.appendEntries args).isSome
  replicate : ∀ peer, (srv.rf.replicateTo peer).isSome
  apply : ∀ i, srv.rf.lastApplied < i → i ≤ srv.rf.commitIndex → srv.rf.lastIncludedIndex < i →
    (goIndex srv.rf.log (srv.rf.toSliceIndex i)).isSome

theorem index_bounds (r : RaftRun N C) :
    (∀ k s, ((r.state k).server s).rf.lastIncludedIndex ≤ ((r.state k).server s).rf.commitIndex ∧
      ((r.state k).server s).rf.commitIndex ≤ ((r.state k).server s).rf.lastLogIndex ∧
      ((r.state k).server s).rf.lastApplied ≤ ((r.state k).server s).rf.commitIndex) ∧
    (∀ k s, r.act k ≠ some (.server s .restart) →
      ((r.state k).server s).rf.commitIndex ≤ ((r.state (k + 1)).server s).rf.commitIndex) ∧
    ∀ k s, ((r.state k).server s).InRange := by
  obtain ⟨g, hg, -⟩ := r.applying
  refine ⟨fun k s => ?_, fun k s hk => ?_, fun k s => ?_⟩
  · have hc := ((hg k).1.server s).tracks.core
    exact ⟨hc.commit_ge, hc.commit_le, ((hg k).2 s).applied⟩
  · rcases r.next_cases k with ⟨-, heq⟩ | ⟨a, ha, hstep⟩
    · rw [heq]
    · exact (hg k).1.commit_step hstep fun he => hk (by rw [ha, he])
  · have hsr := (hg k).1.server s
    have hc := hsr.tracks.core
    exact
      { snapshot := fun i hi snap =>
          Raft.snapshot_isSome ((hsr.bounded.received i hi).trans hc.commit_le) snap
        condInstall := fun t i snap => Raft.condInstallSnapshot_isSome hc.commit_ge t i snap
        append := fun args => Raft.appendEntries_isSome args
        replicate := fun peer => Raft.replicateTo_isSome peer
        apply := fun i _ hi hlo => Raft.goIndex_isSome hlo (hi.trans hc.commit_le) }

theorem catchUp_bounds : ((catchUp.state 12).server 0).rf.lastIncludedIndex = 1 ∧
    ((catchUp.state 12).server 0).rf.commitIndex ≤ ((catchUp.state 13).server 0).rf.commitIndex := by
  have hact : catchUp.act 12 ≠ some (.server 0 .restart) := by
    intro h
    cases h
  exact ⟨by decide +kernel, (index_bounds catchUp).2.1 12 0 hact⟩

end

end DistLab
