import DistLab.Lib.LedgerSound
import DistLab.Raft.Durable

/-!
# The ledger of a cluster

`Rel h σ` says that the ledger `h` is a history of the cluster `σ`. The branch
of a server is its log as the ledger knows it. It continues into `rf.log`, but
it may differ from the entries folded into the snapshot:
`CondInstallSnapshot` keeps the entries after the snapshot without comparing
terms. Such a stale suffix holds nothing committed, and no leader's entry ever
matches it.
-/

namespace DistLab

section
variable {N : Nat} {C : Type}

/-! ## One server -/

structure Core (h : Ledger (Fin N) (LogEntry C)) (s : Fin N) (rf : Raft N C (Snapshot C)) : Prop where
  me : rf.me = s
  term : h.term s = rf.currentTerm
  vote : h.voted s rf.currentTerm = rf.votedFor
  index_le : rf.lastIncludedIndex ≤ (h.branch s).length
  log : rf.log = (h.branch s).drop rf.lastIncludedIndex
  folded : (h.branch s).length = rf.lastIncludedIndex → h.branch s = rf.persister.snapshot.entries
  commit_ge : rf.lastIncludedIndex ≤ rf.commitIndex
  commit_le : rf.commitIndex ≤ rf.lastLogIndex
  committed : h.Committed rf.currentTerm (rf.fullLog.take rf.commitIndex)

/-- The member acknowledged the first `m` entries of the leader of `t`, or they
were committed before anyway. -/
def Matched (h : Ledger (Fin N) (LogEntry C)) (p : Fin N) (t m : Nat) : Prop :=
  m ≤ h.acked p t ∨ ∃ u n, u ≤ t ∧ h.committed u n ∧ m ≤ n

structure Leading (h : Ledger (Fin N) (LogEntry C)) (s : Fin N) (rf : Raft N C (Snapshot C)) : Prop where
  elected : h.leader rf.currentTerm = some s
  next_le : ∀ p, rf.nextIndex p ≤ rf.lastLogIndex + 1
  own : rf.matchIndex s ≤ rf.lastLogIndex
  matched : ∀ p, p ≠ s → Matched h p rf.currentTerm (rf.matchIndex p)
  newest : ∀ n, h.committed rf.currentTerm n → n ≤ rf.commitIndex

/-- A candidate may install a snapshot after it asked for votes, and then its
log is not the one it stood with; but then it cannot win. -/
structure Standing (h : Ledger (Fin N) (LogEntry C)) (s : Fin N) (rf : Raft N C (Snapshot C)) : Prop where
  pos : 0 < rf.currentTerm
  vote : h.voted s rf.currentTerm = some s
  unelected : h.leader rf.currentTerm ≠ some s
  stood : (∀ u n, h.committed u n → u < rf.currentTerm → (h.log u).take n <+: h.stood rf.currentTerm s) →
    h.branch s = h.stood rf.currentTerm s

structure Tracks (h : Ledger (Fin N) (LogEntry C)) (s : Fin N) (rf : Raft N C (Snapshot C)) : Prop where
  core : Core h s rf
  leading : rf.state = .leader → Leading h s rf
  standing : rf.state = .candidate → Standing h s rf

def Raft.bound (rf : Raft N C (Snapshot C)) : Nat :=
  if rf.state = .follower then rf.currentTerm else rf.currentTerm - 1

structure Server.Bounded (srv : Server N C) : Prop where
  batch : ∀ b, srv.applier = some b → b.next + b.entries.length ≤ srv.rf.commitIndex + 1
  senders : ∀ c i, .command c i ∉ srv.senders
  queued : ∀ c i, .command c i ∈ srv.applyCh → i ≤ srv.rf.commitIndex
  received : ∀ i ∈ srv.service.commands, i ≤ srv.rf.commitIndex

structure ServerRel (h : Ledger (Fin N) (LogEntry C)) (s : Fin N) (srv : Server N C) : Prop where
  tracks : Tracks h s srv.rf
  pending : ∀ snap t i, srv.Brings snap t i → h.Committed srv.rf.bound snap.entries
  bounded : srv.Bounded

/-! ## Packets -/

structure Sent (h : Ledger (Fin N) (LogEntry C)) (args : AppendEntriesArgs N C) : Prop where
  leader : h.leader args.term = some args.leaderId
  le : args.prevLogIndex + args.entries.length ≤ (h.log args.term).length
  entries : (h.log args.term).take (args.prevLogIndex + args.entries.length) =
    (h.log args.term).take args.prevLogIndex ++ args.entries
  prev : args.prevLogTerm = some (lastTerm LogEntry.term ((h.log args.term).take args.prevLogIndex))
  commit_le : args.leaderCommit ≤ args.prevLogIndex + args.entries.length
  committed : h.Committed args.term ((h.log args.term).take args.leaderCommit)

structure Asked (h : Ledger (Fin N) (LogEntry C)) (args : RequestVoteArgs N) : Prop where
  vote : h.voted args.candidateId args.term = some args.candidateId
  index : args.lastLogIndex = (h.stood args.term args.candidateId).length
  last : args.lastLogTerm = lastTerm LogEntry.term (h.stood args.term args.candidateId)

def Packet.Justified (h : Ledger (Fin N) (LogEntry C)) : Packet N C → Prop
  | .requestVote dst _ args => dst ≠ args.candidateId ∧ Asked h args
  | .requestVoteReply dst src _ args reply =>
    dst = args.candidateId ∧ (reply.voteGranted = true → h.voted src args.term = some dst)
  | .appendEntries dst _ args => dst ≠ args.leaderId ∧ Sent h args
  | .appendEntriesReply dst src _ args reply =>
    src ≠ dst ∧ h.leader args.term = some dst ∧
      (reply.success = true → Matched h src args.term (args.prevLogIndex + args.entries.length)) ∧
      (reply.success = false → reply.term ≤ args.term → reply.conflictIndex ≤ (h.log args.term).length + 1)
  | .installSnapshot dst _ args =>
    dst ≠ args.leaderId ∧ h.leader args.term = some args.leaderId ∧ h.Committed args.term args.data.entries
  | .installSnapshotReply dst src _ args _ =>
    src ≠ dst ∧ h.leader args.term = some dst ∧ Matched h src args.term args.lastIncludedIndex

/-! ## Ballots -/

def Packet.ballot : Packet N C → Option (Nat × Fin N × Fin N)
  | .requestVote dst _ args => some (args.term, args.candidateId, dst)
  | .requestVoteReply _ src _ args _ => some (args.term, args.candidateId, src)
  | _ => none

def ballotsIn (net : List (Packet N C)) : List (Nat × Fin N × Fin N) := net.filterMap Packet.ballot

/-- Each voter is asked once in an election, so `votes` counts different voters. -/
structure Ballots (h : Ledger (Fin N) (LogEntry C)) (σ : Cluster N C) : Prop where
  nodup : (ballotsIn σ.net).Nodup
  known : ∀ t p r, (t, p, r) ∈ ballotsIn σ.net → t ≤ h.term p ∧ r ≠ p
  counted : ∀ s, (σ.server s).rf.state = .candidate → ∃ V : Finset (Fin N),
    V.card = (σ.server s).votes (σ.server s).rf.currentTerm ∧ s ∈ V ∧
      ∀ r ∈ V, h.voted r (σ.server s).rf.currentTerm = some s ∧
        ((σ.server s).rf.currentTerm, s, r) ∉ ballotsIn σ.net

structure Rel (h : Ledger (Fin N) (LogEntry C)) (σ : Cluster N C) : Prop where
  sound : h.Sound LogEntry.term
  saved : σ.Saved
  shaped : σ.Shaped
  server : ∀ s, ServerRel h s (σ.server s)
  packet : ∀ p ∈ σ.net, p.Justified h
  ballots : Ballots h σ

end

/-! ## Later histories -/

section
variable {N : Nat} {C : Type} {h h' : Ledger (Fin N) (LogEntry C)}

theorem Matched.mono (hle : h.Le h') {p : Fin N} {t m : Nat} (hm : Matched h p t m) : Matched h' p t m := by
  rcases hm with hm | ⟨u, n, hu, hn, hmn⟩
  · exact Or.inl (hm.trans (hle.acked p t))
  · exact Or.inr ⟨u, n, hu, hle.committed u n hn, hmn⟩

theorem Matched.max {p : Fin N} {t m n : Nat} (hm : Matched h p t m) (hn : Matched h p t n) :
    Matched h p t (max m n) := by
  rcases max_choice m n with heq | heq
  · rwa [heq]
  · rwa [heq]

theorem Matched.of_committed {p : Fin N} {t : Nat} {x : List (LogEntry C)} (hc : h.Committed t x) :
    Matched h p t x.length := by
  rcases hc with rfl | ⟨u, n, hu, hn, hx⟩
  · exact Or.inl (Nat.zero_le _)
  · exact Or.inr ⟨u, n, hu, hn, hx.length_le.trans (List.length_take_le n _)⟩

theorem Matched.le_log (hs : h.Sound LogEntry.term) {p q : Fin N} {t m : Nat} (hl : h.leader t = some q)
    (hm : Matched h p t m) : m ≤ (h.log t).length := by
  rcases hm with hm | ⟨u, n, hu, hn, hmn⟩
  · exact hm.trans (hs.acked_le p t)
  · have hpre := hs.committed_log hl (Or.inr ⟨u, n, le_rfl, hn, List.prefix_rfl⟩) hu
    have hlen := hpre.length_le
    rw [List.length_take, Nat.min_eq_left (hs.quorum hn).1.2.1] at hlen
    exact hmn.trans hlen

theorem Sent.mono (hle : h.Le h') {args : AppendEntriesArgs N C} (hs : Sent h args) : Sent h' args := by
  have hprev : args.prevLogIndex ≤ (h.log args.term).length := (Nat.le_add_right _ _).trans hs.le
  exact
    { leader := hle.leader _ _ hs.leader
      le := hs.le.trans (hle.length_log _)
      entries := by rw [hle.take_log hs.le, hle.take_log hprev, hs.entries]
      prev := by rw [hle.take_log hprev, hs.prev]
      commit_le := hs.commit_le
      committed := by rw [hle.take_log (hs.commit_le.trans hs.le)]; exact hle.of_committed hs.committed }

theorem Asked.mono (hs : h.Sound LogEntry.term) (hle : h.Le h') {args : RequestVoteArgs N} (ha : Asked h args) :
    Asked h' args := by
  have hst := hle.stood args.term args.candidateId (hs.voted_le ha.vote)
  exact ⟨hle.voted _ _ _ ha.vote, by rw [hst, ha.index], by rw [hst, ha.last]⟩

theorem Packet.Justified.mono (hs : h.Sound LogEntry.term) (hle : h.Le h') {p : Packet N C}
    (hp : p.Justified h) : p.Justified h' := by
  cases p with
  | requestVote dst e args => exact ⟨hp.1, hp.2.mono hs hle⟩
  | requestVoteReply dst src e args reply => exact ⟨hp.1, fun hv => hle.voted _ _ _ (hp.2 hv)⟩
  | appendEntries dst e args => exact ⟨hp.1, hp.2.mono hle⟩
  | appendEntriesReply dst src e args reply =>
    obtain ⟨h1, h2, h3, h4⟩ := hp
    exact ⟨h1, hle.leader _ _ h2, fun hv => (h3 hv).mono hle,
      fun hf ht => (h4 hf ht).trans (Nat.succ_le_succ (hle.length_log _))⟩
  | installSnapshot dst e args => exact ⟨hp.1, hle.leader _ _ hp.2.1, hle.of_committed hp.2.2⟩
  | installSnapshotReply dst src e args reply => exact ⟨hp.1, hle.leader _ _ hp.2.1, hp.2.2.mono hle⟩

/-! ## A move of another server -/

variable {r s : Fin N} {rf : Raft N C (Snapshot C)}

theorem Core.frame (hle : h.Le h') (hf : h.Frame s h') (hr : r ≠ s) (hc : Core h r rf) : Core h' r rf where
  me := hc.me
  term := (hf.term r hr).trans hc.term
  vote := by rw [hf.voted r hr]; exact hc.vote
  index_le := by rw [hf.branch r hr]; exact hc.index_le
  log := by rw [hf.branch r hr]; exact hc.log
  folded := by rw [hf.branch r hr]; exact hc.folded
  commit_ge := hc.commit_ge
  commit_le := hc.commit_le
  committed := hle.of_committed hc.committed

theorem Leading.frame (hle : h.Le h') (hf : h.Frame s h') (hr : r ≠ s) (hl : Leading h r rf) : Leading h' r rf where
  elected := hle.leader _ _ hl.elected
  next_le := hl.next_le
  own := hl.own
  matched p hp := (hl.matched p hp).mono hle
  newest n hn := hl.newest n (hf.committed _ r n hr hl.elected hn)

theorem Standing.frame (hs : h.Sound LogEntry.term) (hle : h.Le h') (hf : h.Frame s h') (hr : r ≠ s)
    (ht : Standing h r rf) : Standing h' r rf where
  pos := ht.pos
  vote := hle.voted _ _ _ ht.vote
  unelected hl := ht.unelected (hf.leader _ r hr hl)
  stood hall := by
    rw [hf.branch r hr, hf.stood _ r hr]
    apply ht.stood
    intro u n hn hu
    have := hall u n (hle.committed u n hn) hu
    rwa [hf.stood _ r hr, hle.take_log (hs.quorum hn).1.2.1] at this

theorem Tracks.frame (hs : h.Sound LogEntry.term) (hle : h.Le h') (hf : h.Frame s h') (hr : r ≠ s)
    (ht : Tracks h r rf) : Tracks h' r rf where
  core := ht.core.frame hle hf hr
  leading hl := (ht.leading hl).frame hle hf hr
  standing hl := (ht.standing hl).frame hs hle hf hr

theorem ServerRel.frame {srv : Server N C} (hs : h.Sound LogEntry.term) (hle : h.Le h') (hf : h.Frame s h')
    (hr : r ≠ s) (ht : ServerRel h r srv) : ServerRel h' r srv where
  tracks := ht.tracks.frame hs hle hf hr
  pending snap t i hb := hle.of_committed (ht.pending snap t i hb)
  bounded := ht.bounded

end

/-! ## Reading the whole log on the branch -/

section
variable {N : Nat} {C : Type} {h : Ledger (Fin N) (LogEntry C)} {s : Fin N} {rf : Raft N C (Snapshot C)}
  (hc : Core h s rf)
include hc

theorem Core.length : (h.branch s).length = rf.lastLogIndex := by
  have := hc.index_le
  unfold Raft.lastLogIndex
  rw [hc.log, List.length_drop]
  omega

theorem Core.lastTerm_eq : lastTerm LogEntry.term rf.fullLog = lastTerm LogEntry.term (h.branch s) := by
  have hlen := hc.length
  by_cases hl : (h.branch s).length = rf.lastIncludedIndex
  · have hnil : rf.log = [] := by rw [hc.log, ← hl, List.drop_length]
    rw [hc.folded hl, Raft.fullLog, hnil, List.append_nil]
  · have hne : rf.log ≠ [] := by
      intro hnil
      unfold Raft.lastLogIndex at hlen
      rw [hnil, List.length_nil] at hlen
      exact hl hlen
    have hsplit := List.take_append_drop rf.lastIncludedIndex (h.branch s)
    rw [← hc.log] at hsplit
    rw [Raft.fullLog, lastTerm_append _ _ hne, ← hsplit, lastTerm_append _ _ hne]

variable (hsh : rf.Shaped)
include hsh

theorem Core.getElem_eq {k : Nat} (hk : rf.lastIncludedIndex ≤ k) : rf.fullLog[k]? = (h.branch s)[k]? := by
  rw [Raft.getElem_fullLog hsh hk, hc.log, List.getElem?_drop, Nat.add_sub_cancel' hk]

theorem Core.folded_committed : h.Committed rf.currentTerm rf.persister.snapshot.entries := by
  apply hc.committed.sub
  rw [← Raft.take_fullLog hsh]
  exact List.take_prefix_take_left hc.commit_ge

/-- The branch is the whole log as soon as it agrees with the snapshot. -/
theorem Core.aligned (hp : rf.persister.snapshot.entries <+: h.branch s) : rf.fullLog = h.branch s := by
  obtain ⟨t, ht⟩ := hp
  unfold Raft.fullLog
  rw [hc.log, ← ht, ← hsh.length, List.drop_left]

theorem Core.aligned_of_take {l : List (LogEntry C)} (hl : rf.persister.snapshot.entries <+: l) {k : Nat}
    (hk : rf.lastIncludedIndex ≤ k) (hb : (h.branch s).take k = l.take k) : rf.fullLog = h.branch s := by
  apply hc.aligned hsh
  have he : rf.persister.snapshot.entries = (h.branch s).take rf.lastIncludedIndex := by
    calc rf.persister.snapshot.entries = l.take rf.lastIncludedIndex := by
          rw [← hsh.length]; exact List.prefix_iff_eq_take.mp hl
      _ = (l.take k).take rf.lastIncludedIndex := by rw [List.take_take, Nat.min_eq_left hk]
      _ = (h.branch s).take rf.lastIncludedIndex := by rw [← hb, List.take_take, Nat.min_eq_left hk]
  rw [he]
  exact List.take_prefix _ _

variable (hs : h.Sound LogEntry.term)
include hs

/-- A valid log that continues the snapshot and has an entry of the same term
as the server agrees with the server up to there, and the suffix is not stale. -/
theorem Core.agree {l : List (LogEntry C)} (hv : h.Valid LogEntry.term l)
    (hl : rf.persister.snapshot.entries <+: l) {k : Nat} {a b : LogEntry C} (hk : rf.lastIncludedIndex ≤ k)
    (ha : rf.fullLog[k]? = some a) (hb : l[k]? = some b) (hab : a.term = b.term) :
    rf.fullLog = h.branch s ∧ rf.fullLog.take (k + 1) = l.take (k + 1) := by
  rw [hc.getElem_eq hsh hk] at ha
  have htake := (hs.branch_valid s).agree hv ha hb hab
  have heq := hc.aligned_of_take hsh hl (Nat.le_succ_of_le hk) htake
  rw [heq]
  exact ⟨rfl, htake⟩

theorem Core.aligned_of_commit (hlt : rf.lastIncludedIndex < rf.commitIndex) : rf.fullLog = h.branch s := by
  have hle : rf.commitIndex ≤ rf.fullLog.length := by rw [Raft.length_fullLog hsh]; exact hc.commit_le
  obtain ⟨k, hk⟩ : ∃ k, rf.commitIndex = k + 1 := ⟨rf.commitIndex - 1, by omega⟩
  have ha : rf.fullLog[k]? = some (rf.fullLog.get ⟨k, by omega⟩) := List.getElem?_eq_getElem _
  have hpre : rf.persister.snapshot.entries <+: rf.fullLog.take rf.commitIndex := by
    rw [← Raft.take_fullLog hsh]
    exact List.take_prefix_take_left hc.commit_ge
  refine (hc.agree hsh hs (hs.committed_valid hc.committed) hpre (by omega) ha ?_ rfl).1
  rw [List.getElem?_take_of_lt (by omega), ha]

end

/-! ## Assembling a step -/

section
variable {N : Nat} {C : Type}

structure Moves (s : Fin N) (h h' : Ledger (Fin N) (LogEntry C)) : Prop where
  sound : h'.Sound LogEntry.term
  le : h.Le h'
  frame : h.Frame s h'

theorem Moves.refl {s : Fin N} {h : Ledger (Fin N) (LogEntry C)} (hs : h.Sound LogEntry.term) : Moves s h h :=
  ⟨hs, .refl, .refl⟩

theorem Moves.of_step {s : Fin N} {h h' : Ledger (Fin N) (LogEntry C)} (hs : h.Sound LogEntry.term)
    (st : h.Step LogEntry.term s h') : Moves s h h' :=
  ⟨hs.step st, st.le hs, st.frame⟩

theorem Moves.trans {s : Fin N} {a b c : Ledger (Fin N) (LogEntry C)} (h : Moves s a b) (h' : Moves s b c) :
    Moves s a c :=
  ⟨h'.sound, h.le.trans h'.le, h.frame.trans h.le h'.frame⟩

/-- What no critical section but `startElection` and `Make` breaks. -/
structure Grows (rf rf' : Raft N C (Snapshot C)) : Prop where
  commit : rf.commitIndex ≤ rf'.commitIndex
  bound : rf.bound ≤ rf'.bound
  candidate : rf'.state = .candidate → rf.state = .candidate ∧ rf'.currentTerm = rf.currentTerm

theorem Grows.refl (rf : Raft N C (Snapshot C)) : Grows rf rf := ⟨le_rfl, le_rfl, fun h => ⟨h, rfl⟩⟩

theorem Grows.trans {a b c : Raft N C (Snapshot C)} (h : Grows a b) (h' : Grows b c) : Grows a c where
  commit := h.commit.trans h'.commit
  bound := h.bound.trans h'.bound
  candidate hc := ⟨(h.candidate (h'.candidate hc).1).1,
    (h'.candidate hc).2.trans (h.candidate (h'.candidate hc).1).2⟩

theorem Raft.bound_le (rf : Raft N C (Snapshot C)) : rf.bound ≤ rf.currentTerm := by
  unfold Raft.bound
  split
  · exact le_rfl
  · exact Nat.sub_le _ _

theorem Grows.follower {rf rf' : Raft N C (Snapshot C)} (hst : rf'.state = .follower)
    (hci : rf.commitIndex ≤ rf'.commitIndex) (ht : rf.currentTerm ≤ rf'.currentTerm) : Grows rf rf' where
  commit := hci
  bound := by
    have hb : rf'.bound = rf'.currentTerm := if_pos hst
    rw [hb]
    exact rf.bound_le.trans ht
  candidate hc := by rw [hst] at hc; cases hc

theorem Grows.same {rf rf' : Raft N C (Snapshot C)} (hst : rf'.state = rf.state)
    (hci : rf.commitIndex ≤ rf'.commitIndex) (ht : rf'.currentTerm = rf.currentTerm) : Grows rf rf' where
  commit := hci
  bound := by unfold Raft.bound; rw [hst, ht]
  candidate hc := ⟨hst.symm.trans hc, ht⟩

theorem Core.keep {h h' : Ledger (Fin N) (LogEntry C)} {s : Fin N} {rf rf' : Raft N C (Snapshot C)}
    (hc : Core h s rf) (hle : h.Le h') (hbr : h'.branch s = h.branch s) (hk : Raft.Keeps rf rf')
    (hlog : rf'.log = rf.log) (hci : rf'.commitIndex = rf.commitIndex) (hterm : h'.term s = rf'.currentTerm)
    (hvote : h'.voted s rf'.currentTerm = rf'.votedFor) : Core h' s rf' where
  me := hk.me.trans hc.me
  term := hterm
  vote := hvote
  index_le := by rw [hbr, hk.index]; exact hc.index_le
  log := by rw [hbr, hk.index, hlog]; exact hc.log
  folded := by rw [hbr, hk.index, hk.snapshot]; exact hc.folded
  commit_ge := by rw [hk.index, hci]; exact hc.commit_ge
  commit_le := by
    have := hc.commit_le
    unfold Raft.lastLogIndex at this ⊢
    rwa [hk.index, hci, hlog]
  committed := by
    have hfull : rf'.fullLog = rf.fullLog := by unfold Raft.fullLog; rw [hk.snapshot, hlog]
    have ht : rf.currentTerm ≤ rf'.currentTerm := by rw [← hc.term, ← hterm]; exact hle.term s
    rw [hfull, hci]
    exact hle.of_committed (hc.committed.mono ht)

theorem Core.recommit {h : Ledger (Fin N) (LogEntry C)} {s : Fin N} {rf : Raft N C (Snapshot C)} (hc : Core h s rf)
    {n : Nat} (h1 : rf.commitIndex ≤ n) (h2 : n ≤ rf.lastLogIndex)
    (h3 : h.Committed rf.currentTerm (rf.fullLog.take n)) : Core h s { rf with commitIndex := n } :=
  { hc with commit_ge := hc.commit_ge.trans h1, commit_le := h2, committed := h3 }

/-- A step after which the whole log is the branch and still has what was committed. -/
theorem Core.relog {h h' : Ledger (Fin N) (LogEntry C)} {s : Fin N} {rf rf' : Raft N C (Snapshot C)}
    (hc : Core h s rf) (hsh : rf.Shaped) (hle : h.Le h') (hk : Raft.Keeps rf rf')
    (hci : rf'.commitIndex = rf.commitIndex) (hterm : h'.term s = rf'.currentTerm)
    (hvote : h'.voted s rf'.currentTerm = rf'.votedFor) (hal : rf'.fullLog = h'.branch s)
    (hpre : rf.fullLog.take rf.commitIndex <+: rf'.fullLog) : Core h' s rf' := by
  have hsh' : rf'.Shaped := by unfold Raft.Shaped; rw [hk.snapshot, hk.term, hk.index]; exact hsh
  have hlen : (rf.fullLog.take rf.commitIndex).length = rf.commitIndex := by
    rw [List.length_take, Raft.length_fullLog hsh, Nat.min_eq_left hc.commit_le]
  have ht : rf.currentTerm ≤ rf'.currentTerm := by rw [← hc.term, ← hterm]; exact hle.term s
  exact
    { me := hk.me.trans hc.me
      term := hterm
      vote := hvote
      index_le := by rw [← hal, Raft.length_fullLog hsh']; exact Nat.le_add_right _ _
      log := by rw [← hal, Raft.drop_fullLog hsh' le_rfl, Nat.sub_self, List.drop_zero]
      folded := by
        intro hl
        rw [← hal, Raft.length_fullLog hsh', Raft.lastLogIndex] at hl
        have hnil : rf'.log = [] := List.eq_nil_of_length_eq_zero (by omega)
        rw [← hal, Raft.fullLog, hnil, List.append_nil]
      commit_ge := by rw [hk.index, hci]; exact hc.commit_ge
      commit_le := by
        rw [hci, ← Raft.length_fullLog hsh', ← hlen]
        exact hpre.length_le
      committed := by
        have := prefix_take_eq hpre hlen.ge
        rw [hci, this, List.take_take, Nat.min_self]
        exact hle.of_committed (hc.committed.mono ht) }

theorem Leading.keep {h h' : Ledger (Fin N) (LogEntry C)} {s : Fin N} {rf rf' : Raft N C (Snapshot C)}
    (hl : Leading h s rf) (hle : h.Le h') (hcm : ∀ t n, h'.committed t n → h.committed t n)
    (ht : rf'.currentTerm = rf.currentTerm) (hn : rf'.nextIndex = rf.nextIndex)
    (hm : rf'.matchIndex = rf.matchIndex) (hll : rf'.lastLogIndex = rf.lastLogIndex)
    (hci : rf.commitIndex ≤ rf'.commitIndex) : Leading h' s rf' where
  elected := by rw [ht]; exact hle.leader _ _ hl.elected
  next_le p := by rw [hn, hll]; exact hl.next_le p
  own := by rw [hm, hll]; exact hl.own
  matched p hp := by rw [ht, hm]; exact (hl.matched p hp).mono hle
  newest n hn := by rw [ht] at hn; exact (hl.newest n (hcm _ n hn)).trans hci

theorem Standing.keep {h : Ledger (Fin N) (LogEntry C)} {s : Fin N} {rf rf' : Raft N C (Snapshot C)}
    (hst : Standing h s rf) (ht : rf'.currentTerm = rf.currentTerm) : Standing h s rf' where
  pos := by rw [ht]; exact hst.pos
  vote := by rw [ht]; exact hst.vote
  unelected := by rw [ht]; exact hst.unelected
  stood := by rw [ht]; exact hst.stood

theorem Core.follower {h : Ledger (Fin N) (LogEntry C)} {s : Fin N} {rf : Raft N C (Snapshot C)}
    (hc : Core h s rf) (hst : rf.state = .follower) : Tracks h s rf where
  core := hc
  leading hl := by rw [hst] at hl; cases hl
  standing hl := by rw [hst] at hl; cases hl

theorem Server.Bounded.mono {srv srv' : Server N C} (hb : srv.Bounded)
    (hc : srv.rf.commitIndex ≤ srv'.rf.commitIndex) (ha : srv'.applier = srv.applier)
    (hs : srv'.senders = srv.senders) (hq : srv'.applyCh = srv.applyCh)
    (hv : srv'.service.commands = srv.service.commands) : srv'.Bounded where
  batch b hsb := by rw [ha] at hsb; exact (hb.batch b hsb).trans (Nat.succ_le_succ hc)
  senders c i := by rw [hs]; exact hb.senders c i
  queued c i hi := by rw [hq] at hi; exact (hb.queued c i hi).trans hc
  received i hi := by rw [hv] at hi; exact (hb.received i hi).trans hc

variable {h h' : Ledger (Fin N) (LogEntry C)} {σ : Cluster N C} {s : Fin N} {srv : Server N C}
  {net : List (Packet N C)}

theorem Rel.put (hr : Rel h σ) (hm : Moves s h h') (hsaved : (σ.put s srv net).Saved)
    (hshaped : (σ.put s srv net).Shaped) (hsrv : ServerRel h' s srv)
    (hpk : ∀ p ∈ net, p ∈ σ.net ∨ p.Justified h') (hb : Ballots h' (σ.put s srv net)) :
    Rel h' (σ.put s srv net) where
  sound := hm.sound
  saved := hsaved
  shaped := hshaped
  server r := by
    by_cases hrs : r = s
    · subst hrs; rw [Cluster.put_self]; exact hsrv
    · rw [Cluster.put_ne _ _ _ hrs]; exact (hr.server r).frame hr.sound hm.le hm.frame hrs
  packet p hp := by
    rcases hpk p hp with hp | hp
    · exact (hr.packet p hp).mono hr.sound hm.le
    · exact hp
  ballots := hb

theorem Ballots.keep (hb : Ballots h σ) (hle : h.Le h') (hsub : (ballotsIn net).Subperm (ballotsIn σ.net))
    (hcand : srv.rf.state = .candidate → (σ.server s).rf.state = .candidate ∧
      srv.rf.currentTerm = (σ.server s).rf.currentTerm ∧
      srv.votes srv.rf.currentTerm = (σ.server s).votes srv.rf.currentTerm) :
    Ballots h' (σ.put s srv net) where
  nodup := by
    obtain ⟨l, hl, hsl⟩ := hsub
    exact hl.nodup_iff.mp (hb.nodup.sublist hsl)
  known t p r hm := by
    obtain ⟨h1, h2⟩ := hb.known t p r (hsub.subset hm)
    exact ⟨h1.trans (hle.term p), h2⟩
  counted r hc := by
    rw [Cluster.put_net]
    have old : ∀ {T : Nat} {V : Finset (Fin N)},
        (∀ q ∈ V, h.voted q T = some r ∧ (T, r, q) ∉ ballotsIn σ.net) →
        ∀ q ∈ V, h'.voted q T = some r ∧ (T, r, q) ∉ ballotsIn net := by
      intro T V hV q hq
      exact ⟨hle.voted _ _ _ (hV q hq).1, fun hm => (hV q hq).2 (hsub.subset hm)⟩
    by_cases hrs : r = s
    · subst hrs
      rw [Cluster.put_self] at hc ⊢
      obtain ⟨h1, h2, h3⟩ := hcand hc
      obtain ⟨V, hcard, hmem, hV⟩ := hb.counted r h1
      rw [h3, h2]
      exact ⟨V, hcard, hmem, old hV⟩
    · rw [Cluster.put_ne _ _ _ hrs] at hc ⊢
      obtain ⟨V, hcard, hmem, hV⟩ := hb.counted r hc
      exact ⟨V, hcard, hmem, old hV⟩

theorem ballots_append (l m : List (Packet N C)) : ballotsIn (l ++ m) = ballotsIn l ++ ballotsIn m :=
  List.filterMap_append

theorem ballots_deliver {p q : Packet N C} {k : Nat} (hk : σ.net[k]? = some p) (hq : q.ballot = p.ballot) :
    (ballotsIn (σ.net.eraseIdx k ++ [q])).Perm (ballotsIn σ.net) := by
  obtain ⟨hlt, rfl⟩ := List.getElem?_eq_some_iff.mp hk
  have hperm := (List.getElem_cons_eraseIdx_perm hlt).filterMap Packet.ballot
  refine List.Perm.trans ?_ hperm
  rw [ballots_append]
  refine List.perm_append_comm.trans ?_
  unfold ballotsIn
  rw [← List.filterMap_append, List.singleton_append, List.filterMap_cons, List.filterMap_cons, hq]

end

end DistLab
