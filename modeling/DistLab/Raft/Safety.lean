import DistLab.Raft.RunSound

/-!
# Safety of every run

One leader in a term, committed entries that never differ, leaders that hold
whatever was committed before them, and commits that a majority has stored.
-/

namespace DistLab

/-! ## Entries by index -/

section
variable {N : Nat} {C : Type}

/-- The entry at a global index: in `rf.log`, or folded into the snapshot. -/
def Raft.entryAt (rf : Raft N C (Snapshot C)) (i : Nat) : Option (LogEntry C) :=
  if i ≤ rf.lastIncludedIndex then rf.persister.snapshot.entries[i - 1]?
  else rf.log[i - rf.lastIncludedIndex - 1]?

def Persister.entryAt (N : Nat) (ps : Persister C (Snapshot C)) (i : Nat) : Option (LogEntry C) :=
  let d : HardState N C := (HardState.decode ps.raftstate).getD ⟨0, none, [], 0, 0⟩
  if i ≤ d.lastIncludedIndex then ps.snapshot.entries[i - 1]? else d.log[i - d.lastIncludedIndex - 1]?

theorem Raft.entryAt_eq {rf : Raft N C (Snapshot C)} (hsh : rf.Shaped) {i : Nat} (hi : 1 ≤ i) :
    rf.entryAt i = rf.fullLog[i - 1]? := by
  unfold Raft.entryAt
  split
  · rename_i hle
    rw [Raft.fullLog, List.getElem?_append_left (by rw [hsh.length]; omega)]
  · rw [Raft.getElem_fullLog hsh (by omega)]
    congr 1; omega

theorem Raft.Saved.entryAt {rf : Raft N C (Snapshot C)} (hsv : rf.Saved) (i : Nat) :
    rf.persister.entryAt N i = rf.entryAt i := by
  rcases hsv with hd | ⟨hd, hh⟩
  · unfold Persister.entryAt
    rw [hd]; rfl
  · have hl : rf.log = [] := congrArg HardState.log hh
    have h0 : rf.lastIncludedIndex = 0 := congrArg HardState.lastIncludedIndex hh
    unfold Persister.entryAt Raft.entryAt
    rw [hd, hl, h0]; rfl

theorem prefix_getElem {α : Type*} {l m : List α} (h : l <+: m) {k : Nat} {a : α} (ha : l[k]? = some a) :
    m[k]? = some a := by
  obtain ⟨hk, rfl⟩ := List.getElem?_eq_some_iff.mp ha
  exact List.prefix_iff_getElem?.mp h k hk

theorem entryAt_of_prefix {rf rf' : Raft N C (Snapshot C)} (hsh : rf.Shaped) (hsh' : rf'.Shaped)
    {x : List (LogEntry C)} (h : x <+: rf.fullLog) (h' : x <+: rf'.fullLog) {i : Nat} (h1 : 1 ≤ i)
    (hi : i ≤ x.length) : ∃ e, rf.entryAt i = some e ∧ rf'.entryAt i = some e := by
  have hx : x[i - 1]? = some (x.get ⟨i - 1, by omega⟩) := List.getElem?_eq_getElem _
  refine ⟨x.get ⟨i - 1, by omega⟩, ?_, ?_⟩
  · rw [Raft.entryAt_eq hsh h1]; exact prefix_getElem h hx
  · rw [Raft.entryAt_eq hsh' h1]; exact prefix_getElem h' hx

end

/-! ## What the ledger knows about one state -/

section
variable {N : Nat} {C : Type} {h h' : Ledger (Fin N) (LogEntry C)} {σ σ' : Cluster N C} (hr : Rel h σ)
include hr

theorem Rel.length_commit (s : Fin N) :
    ((σ.server s).rf.fullLog.take (σ.server s).rf.commitIndex).length = (σ.server s).rf.commitIndex := by
  rw [List.length_take, Raft.length_fullLog (hr.shaped.server s),
    Nat.min_eq_left (hr.server s).tracks.core.commit_le]

theorem Rel.committed (s : Fin N) : h.Committed (σ.server s).rf.currentTerm
    ((σ.server s).rf.fullLog.take (σ.server s).rf.commitIndex) :=
  (hr.server s).tracks.core.committed

/-- Committed entries of the branch stand in the whole log too. -/
theorem Rel.prefix_full {s : Fin N} {t : Nat} {x : List (LogEntry C)} (hx : h.Committed t x)
    (hb : x <+: h.branch s) : x <+: (σ.server s).rf.fullLog := by
  have hc := (hr.server s).tracks.core
  have hsh := hr.shaped.server s
  rcases hr.sound.committed_compat hx (hc.folded_committed hsh) with hp | hp
  · exact hp.trans (List.prefix_append _ _)
  · rw [hc.aligned hsh (hp.trans hb)]; exact hb

theorem Rel.leader_log {s : Fin N} (hst : (σ.server s).rf.state = .leader) :
    h.leader (σ.server s).rf.currentTerm = some s ∧
      (σ.server s).rf.fullLog = h.log (σ.server s).rf.currentTerm := by
  have ht := (hr.server s).tracks
  have hl := ht.leading hst
  exact ⟨hl.elected, leader_fullLog hr.sound ht.core (hr.shaped.server s) hl⟩

theorem Rel.commit_agree (hr' : Rel h' σ') (hle : h ≤ h') (p q : Fin N) {i : Nat} (h1 : 1 ≤ i)
    (hp : i ≤ (σ.server p).rf.commitIndex) (hq : i ≤ (σ'.server q).rf.commitIndex) :
    ∃ e, (σ.server p).rf.entryAt i = some e ∧ (σ'.server q).rf.entryAt i = some e := by
  have hcp := Ledger.Le.of_committed hle (hr.committed p)
  have hlp := hr.length_commit p
  have hlq := hr'.length_commit q
  have hpp := List.take_prefix (σ.server p).rf.commitIndex (σ.server p).rf.fullLog
  have hqq := List.take_prefix (σ'.server q).rf.commitIndex (σ'.server q).rf.fullLog
  rcases hr'.sound.committed_compat hcp (hr'.committed q) with hpre | hpre
  · exact entryAt_of_prefix (hr.shaped.server p) (hr'.shaped.server q) hpp (hpre.trans hqq) h1 (by omega)
  · exact entryAt_of_prefix (hr.shaped.server p) (hr'.shaped.server q) (hpre.trans hpp) hqq h1 (by omega)

end

/-! ## Runs -/

/-- Server 0 leads term 1 and commits one entry, then server 1 leads term 2. -/
def handoverActs : List (Action 2 Nat) :=
  [.server 0 .electionTimeout, .deliver 0, .deliver 0,
   .server 0 (.start 7), .server 0 (.replicate 1), .deliver 0, .deliver 0,
   .server 0 (.replicate 1), .deliver 0, .deliver 0,
   .server 1 .electionTimeout, .deliver 0, .deliver 0]

theorem handover_exec : (exec Cluster.step (Cluster.init 2 Nat) handoverActs).isSome = true := by decide +kernel

def handover : RaftRun 2 Nat := Run.ofList handoverActs (Option.some_get handover_exec).symm

section
variable {N : Nat} {C : Type}

/-- State-machine safety: what two servers ever had committed at an index is
the same entry. -/
theorem committed_entries_agree (r : RaftRun N C) {p q : Fin N} {k k' i : Nat} (h1 : 1 ≤ i)
    (hp : i ≤ ((r.state k).server p).rf.commitIndex) (hq : i ≤ ((r.state k').server q).rf.commitIndex) :
    ∃ e, ((r.state k).server p).rf.entryAt i = some e ∧ ((r.state k').server q).rf.entryAt i = some e := by
  obtain ⟨g, hg, hmono⟩ := r.ledger
  rcases le_total k k' with hk | hk
  · exact (hg k).commit_agree (hg k') (hmono hk) p q h1 hp hq
  · obtain ⟨e, he, he'⟩ := (hg k').commit_agree (hg k) (hmono hk) q p h1 hq hp
    exact ⟨e, he', he⟩

theorem handover_agree :
    ∃ e, ((handover.state 13).server 0).rf.entryAt 1 = some e ∧ ((handover.state 9).server 1).rf.entryAt 1 = some e :=
  committed_entries_agree handover (by decide) (by decide +kernel) (by decide +kernel)

/-- Election safety: nobody else is ever leader in the same term. -/
theorem leader_unique (r : RaftRun N C) {p q : Fin N} {j k T : Nat}
    (hp : ((r.state j).server p).rf.state = .leader) (hpT : ((r.state j).server p).rf.currentTerm = T)
    (hq : ((r.state k).server q).rf.state = .leader) (hqT : ((r.state k).server q).rf.currentTerm = T) : p = q := by
  obtain ⟨g, hg, hmono⟩ := r.ledger
  have lead : ∀ {s : Fin N} {i m : Nat}, i ≤ m → ((r.state i).server s).rf.state = .leader →
      ((r.state i).server s).rf.currentTerm = T → (g m).leader T = some s := by
    intro s i m him hst hT
    have := ((hg i).leader_log hst).1
    rw [hT] at this
    exact (hmono him).leader _ _ this
  have h1 := lead (le_max_left j k) hp hpT
  have h2 := lead (le_max_right j k) hq hqT
  exact Option.some.inj (h1.symm.trans h2)

theorem handover_leader :
    ((handover.state 3).server 0).rf.state = .leader ∧ ((handover.state 10).server 0).rf.state = .leader ∧
      ((handover.state 3).server 0).rf.commitIndex < ((handover.state 10).server 0).rf.commitIndex ∧ (0 : Fin 2) = 0 :=
  ⟨by decide +kernel, by decide +kernel, by decide +kernel,
    leader_unique handover (j := 3) (k := 10) (T := 1) (by decide +kernel) (by decide +kernel)
      (by decide +kernel) (by decide +kernel)⟩

/-- The step at position `k` is a call of `tryCommit` by the leader `s` of term
`T` that sets `commitIndex` to `n`. -/
structure RaftRun.Commits (r : RaftRun N C) (k : Nat) (s : Fin N) (T n : Nat) : Prop where
  call : ∃ j src e args reply, r.act k = some (.deliver j) ∧
    (r.state k).net[j]? = some (.appendEntriesReply s src e args reply)
  term : ((r.state k).server s).rf.currentTerm = T
  lt : ((r.state k).server s).rf.commitIndex < n
  set : ((r.state (k + 1)).server s).rf.commitIndex = n

end

/-! ## A commit -/

section
variable {N : Nat} {C S : Type} {rf : Raft N C S}

/-- Only `tryCommit` raises `commitIndex` in the handler of a reply, and only
to an index that holds an entry of the leader's own term. -/
theorem Raft.appendEntriesReply_commit {peer : Fin N} {args : AppendEntriesArgs N C} {reply : AppendEntriesReply}
    (hlt : rf.commitIndex < (rf.appendEntriesReply peer args reply).commitIndex) :
    (rf.appendEntriesReply peer args reply).state = .leader ∧
      (rf.appendEntriesReply peer args reply).currentTerm = rf.currentTerm ∧
      (rf.appendEntriesReply peer args reply).commitIndex ≤ (rf.appendEntriesReply peer args reply).lastLogIndex ∧
      (rf.appendEntriesReply peer args reply).termAt (rf.appendEntriesReply peer args reply).commitIndex =
        some rf.currentTerm := by
  rcases rf.appendEntriesReply_cases peer args reply with ⟨-, heq⟩ | ⟨-, heq⟩ | ⟨hl, -, -, ⟨-, m, -, heq⟩ | ⟨-, heq⟩⟩
  · rw [heq] at hlt
    exact absurd hlt (lt_irrefl _)
  · rw [heq] at hlt
    exact absurd hlt (lt_irrefl _)
  · rw [heq] at hlt ⊢
    generalize hrf : (rf.setMatchIndex peer m).setNextIndex peer (m + 1) = rf₁ at hlt ⊢
    have hst : rf₁.state = .leader := by rw [← hrf]; exact hl
    have hct : rf₁.currentTerm = rf.currentTerm := by rw [← hrf]; rfl
    have hci : rf₁.commitIndex = rf.commitIndex := by rw [← hrf]; rfl
    unfold Raft.tryCommit at hlt ⊢
    rcases rf₁.tryCommitFrom_cases rf₁.lastLogIndex with heq | ⟨m, -, hml, hterm, -, heq⟩
    · rw [heq, hci] at hlt
      exact absurd hlt (lt_irrefl _)
    · rw [heq]
      rw [hct] at hterm
      exact ⟨hst, hct, hml, hterm⟩
  · rw [heq] at hlt
    exact absurd hlt (lt_irrefl _)

end

section
variable {N : Nat} {C : Type} {r : RaftRun N C}

theorem RaftRun.Commits.after {k : Nat} {s : Fin N} {T n : Nat} (hc : r.Commits k s T n) :
    ((r.state (k + 1)).server s).rf.state = .leader ∧ ((r.state (k + 1)).server s).rf.currentTerm = T ∧
      n ≤ ((r.state (k + 1)).server s).rf.lastLogIndex ∧
      ((r.state (k + 1)).server s).rf.termAt n = some T := by
  obtain ⟨⟨j, src, e, args, reply, hact, hnet⟩, hT, hlt, hset⟩ := hc
  have hstep := r.next_some hact
  obtain ⟨_, _, _, _, ha, -⟩ | ⟨j', p, srv, out, ha, hk, hrec, heq⟩ | ⟨_, ha, -⟩ := Cluster.step_cases hstep
  · cases ha
  · cases ha
    rw [hnet] at hk
    cases hk
    have hsrv : (r.state (k + 1)).server s = srv := by rw [heq]; exact Cluster.put_self _ _ _ _
    rw [hsrv] at hset ⊢
    change ((r.state k).server s).receive (.appendEntriesReply s src e args reply) = some (srv, out) at hrec
    simp only [Server.receive] at hrec
    by_cases he : e ≠ ((r.state k).server s).epoch
    · rw [if_pos he] at hrec
      cases hrec; omega
    · rw [if_neg he] at hrec
      cases hrec
      simp only at hset ⊢
      rw [← hset] at hlt
      have hraised := Raft.appendEntriesReply_commit hlt
      rwa [hset, hT] at hraised
  · cases ha

theorem RaftRun.Commits.recorded {k : Nat} {s : Fin N} {T n : Nat} (hc : r.Commits k s T n)
    {h : Ledger (Fin N) (LogEntry C)} (hr : Rel h (r.state (k + 1))) :
    ∃ m, h.committed T m ∧
      (((r.state (k + 1)).server s).rf.fullLog.take n) <+: (h.log T).take m ∧
      ((((r.state (k + 1)).server s).rf.fullLog.take n).length = n) := by
  obtain ⟨hst, hT, hlast, hterm⟩ := hc.after
  have hset := hc.set
  have hlt := hc.lt
  have hcore := (hr.server s).tracks.core
  have hsh := hr.shaped.server s
  have hge := hcore.commit_ge
  have hlen := hr.length_commit s
  have hcm := hr.committed s
  rw [hset] at hlen hcm hge
  rw [hT] at hcm
  rw [Raft.termAt_eq hsh hge hlast, Option.some.injEq] at hterm
  rcases hcm with hnil | ⟨u, m, hu, hm, hpre⟩
  · rw [hnil] at hlen
    simp at hlen
    omega
  · have hne : ((r.state (k + 1)).server s).rf.fullLog.take n ≠ [] := by
      intro hnil
      rw [hnil] at hlen
      simp at hlen
      omega
    obtain ⟨e, hemem, hetm⟩ := lastTerm_mem LogEntry.term hne
    have := hr.sound.log_le e (List.mem_of_mem_take (hpre.subset hemem))
    obtain rfl : u = T := by omega
    exact ⟨m, hm, hpre, hlen⟩

end

section
variable {N : Nat} {C : Type}

/-- Leader completeness: once term `T` committed index `n`, every leader of a
later term has, all through its term, the committed entries up to `n`. -/
theorem leader_complete (r : RaftRun N C) {k : Nat} {s : Fin N} {T n : Nat} (hc : r.Commits k s T n) {j : Nat}
    {p : Fin N} {U : Nat} (hT : T < U) (hp : ((r.state j).server p).rf.state = .leader)
    (hpT : ((r.state j).server p).rf.currentTerm = U) {i : Nat} (h1 : 1 ≤ i) (hi : i ≤ n) :
    ∃ e, ((r.state (k + 1)).server s).rf.entryAt i = some e ∧ ((r.state j).server p).rf.entryAt i = some e := by
  obtain ⟨g, hg, hmono⟩ := r.ledger
  have hr := hg (k + 1)
  have hj := hg j
  obtain ⟨m, hm, hpre, hlen⟩ := hc.recorded hr
  obtain ⟨hlead, hfull⟩ := hj.leader_log hp
  rw [hpT] at hlead hfull
  -- in the later of the two ledgers
  have hK := hg (max (k + 1) j)
  have hle1 : g (k + 1) ≤ g (max (k + 1) j) := hmono (le_max_left _ _)
  have hle2 : g j ≤ g (max (k + 1) j) := hmono (le_max_right _ _)
  have hcm : (g (max (k + 1) j)).Committed T (((r.state (k + 1)).server s).rf.fullLog.take n) :=
    Ledger.Le.of_committed hle1 (Or.inr ⟨T, m, le_rfl, hm, hpre⟩)
  have hstood := hK.sound.committed_stood (hle2.leader _ _ hlead) hcm hT
  rw [hle2.stood _ _ (hj.sound.leader_le hlead)] at hstood
  have hin : ((r.state (k + 1)).server s).rf.fullLog.take n <+: ((r.state j).server p).rf.fullLog := by
    rw [hfull]; exact hstood.trans (hj.sound.stood_log hlead)
  exact entryAt_of_prefix (hr.shaped.server s) (hj.shaped.server p) ( List.take_prefix n _) hin h1 (by omega)

theorem handover_commits : handover.Commits 6 0 1 1 where
  call := ⟨0, 1, 0, ⟨1, 0, 0, some 0, [⟨1, 7⟩], 0⟩, ⟨1, true, some 0, 0⟩, rfl, rfl⟩
  term := by decide +kernel
  lt := by decide +kernel
  set := by decide +kernel

theorem handover_complete :
    ∃ e, ((handover.state 7).server 0).rf.entryAt 1 = some e ∧ ((handover.state 13).server 1).rf.entryAt 1 = some e :=
  leader_complete handover handover_commits (U := 2) (by decide) (by decide +kernel) (by decide +kernel)
    (by decide) (by decide)

/-- Commits are durable: when `tryCommit` advances to `n`, a majority that
includes the leader has stored the leader's entries up to `n`. -/
theorem commit_durable (r : RaftRun N C) {k : Nat} {s : Fin N} {T n : Nat} (hc : r.Commits k s T n) :
    ∃ Q : Finset (Fin N), N < 2 * Q.card ∧ s ∈ Q ∧ ∀ q ∈ Q, ∀ i, 1 ≤ i → i ≤ n →
      ∃ e, ((r.state (k + 1)).server s).rf.entryAt i = some e ∧
        ((r.state (k + 1)).server q).rf.persister.entryAt N i = some e := by
  obtain ⟨g, hg, -⟩ := r.ledger
  have hr := hg (k + 1)
  obtain ⟨m, hm, hpre, hlen⟩ := hc.recorded hr
  obtain ⟨hends, Q, hQ, hack⟩ := hr.sound.quorum hm
  have holds : ∀ q ∈ insert s Q,
      ((r.state (k + 1)).server s).rf.fullLog.take n <+: ((r.state (k + 1)).server q).rf.fullLog := by
    intro q hq
    rcases Finset.mem_insert.mp hq with rfl | hq
    · exact List.take_prefix n _
    · have hbranch := hr.sound.acked_branch (hack q hq) (Or.inr ⟨hends, hr.sound.not_blocked hm⟩)
      exact hr.prefix_full (Or.inr ⟨T, m, le_rfl, hm, hpre⟩) (hpre.trans hbranch)
  refine ⟨insert s Q, ?_, Finset.mem_insert_self s Q, fun q hq i h1 hi => ?_⟩
  · have hmaj : Fintype.card (Fin N) < 2 * Q.card := hQ
    have := Finset.card_le_card (Finset.subset_insert s Q)
    rw [Fintype.card_fin] at hmaj
    omega
  · rw [(hr.saved q).entryAt]
    exact entryAt_of_prefix (hr.shaped.server s) (hr.shaped.server q) ( List.take_prefix n _) (holds q hq) h1
      (by omega)

theorem handover_durable :
    ∃ Q : Finset (Fin 2), 2 < 2 * Q.card ∧ 0 ∈ Q ∧ ∀ q ∈ Q, ∀ i, 1 ≤ i → i ≤ 1 →
      ∃ e, ((handover.state 7).server 0).rf.entryAt i = some e ∧
        ((handover.state 7).server q).rf.persister.entryAt 2 i = some e :=
  commit_durable handover handover_commits

end

end DistLab
