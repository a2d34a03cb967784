import DistLab.Raft.Rel

/-!
# Elections follow the ledger

`startElection` is the move `stand`, a granted `RequestVote` the move `vote`,
and the last vote of a majority the move `win`. Everything that meets a higher
term is the move `advance`.
-/

namespace DistLab

section
variable {N : Nat} {C : Type} {h : Ledger (Fin N) (LogEntry C)} {s : Fin N} {rf : Raft N C (Snapshot C)}

theorem advance_term (h : Ledger (Fin N) (LogEntry C)) (s : Fin N) (t : Nat) : (h.advance s t).term s = t :=
  if_pos rfl

theorem moves_advance (hs : h.Sound LogEntry.term) (hc : Core h s rf) {t : Nat} (ht : rf.currentTerm ≤ t) :
    Moves s h (h.advance s t) :=
  .of_step hs (.advance t (by rw [hc.term]; exact ht))

theorem unvoted (hs : h.Sound LogEntry.term) (hc : Core h s rf) {t : Nat} (ht : rf.currentTerm < t) :
    h.voted s t = none := by
  cases hv : h.voted s t with
  | none => rfl
  | some p =>
    have := hs.voted_le hv
    rw [hc.term] at this
    omega

theorem Core.stepDown (hs : h.Sound LogEntry.term) (hc : Core h s rf) {t : Nat} (ht : rf.currentTerm < t) :
    Core (h.advance s t) s (rf.stepDown t) :=
  hc.keep (moves_advance hs hc ht.le).le rfl (Raft.keeps_stepDown rf t) rfl rfl (advance_term h s t)
    (unvoted hs hc ht)

theorem Core.newTerm (hs : h.Sound LogEntry.term) (hc : Core h s rf) {t : Nat} (ht : rf.currentTerm ≤ t) :
    Core (h.advance s t) s (rf.newTerm t) ∧ (rf.newTerm t).currentTerm = t := by
  have hk := Raft.keeps_newTerm rf t
  have hle := (moves_advance hs hc ht).le
  unfold Raft.newTerm at hk ⊢
  by_cases hlt : rf.currentTerm < t
  · simp only [if_pos hlt] at hk ⊢
    exact ⟨hc.keep hle rfl hk rfl rfl (advance_term h s t) (unvoted hs hc hlt), rfl⟩
  · simp only [if_neg hlt] at hk ⊢
    obtain rfl : rf.currentTerm = t := by omega
    exact ⟨hc.keep hle rfl hk rfl rfl (advance_term h s _) hc.vote, rfl⟩

theorem tracks_stepDown (hs : h.Sound LogEntry.term) (hc : Core h s rf) {t : Nat} (ht : rf.currentTerm < t) :
    ∃ h', Moves s h h' ∧ Tracks h' s (rf.stepDown t) ∧ Grows rf (rf.stepDown t) :=
  ⟨h.advance s t, moves_advance hs hc ht.le, (hc.stepDown hs ht).follower rfl, .follower rfl le_rfl ht.le⟩

/-! ## RequestVote -/

theorem Tracks.votedFor (hs : h.Sound LogEntry.term) (ht : Tracks h s rf) (hst : rf.state ≠ .follower) :
    rf.votedFor = some s := by
  rw [← ht.core.vote]
  cases hr : rf.state with
  | follower => exact absurd hr hst
  | candidate => exact (ht.standing hr).vote
  | leader =>
    obtain ⟨Q, hQ, hv⟩ := hs.votes (ht.leading hr).elected
    obtain ⟨r, hr, -⟩ := hQ.meet hQ
    exact hs.voted_stood (hv r hr)

theorem tracks_grant (hs : h.Sound LogEntry.term) (ht : Tracks h s rf) (hsh : rf.Shaped) {args : RequestVoteArgs N}
    (hd : s ≠ args.candidateId) (ha : Asked h args) (hterm : rf.currentTerm = args.term)
    (hcan : rf.votedFor = none ∨ rf.votedFor = some args.candidateId)
    (hup : rf.isMoreUpToDate args.lastLogIndex args.lastLogTerm = true) :
    ∃ h', Moves s h h' ∧ Tracks h' s ({ rf with votedFor := some args.candidateId }.persist) ∧
      h'.voted s args.term = some args.candidateId ∧ rf.state = .follower := by
  have hc := ht.core
  have hst : rf.state = .follower := by
    by_contra hne
    have hv := ht.votedFor hs hne
    rcases hcan with hcan | hcan
    · rw [hcan] at hv; cases hv
    · rw [hcan] at hv; exact hd (Option.some.inj hv).symm
  have hk : Raft.Keeps rf ({ rf with votedFor := some args.candidateId }.persist) :=
    ⟨rfl, rfl, rfl, rfl, fun _ => Raft.saved_persist _⟩
  rcases hcan with hcan | hcan
  · have hvote : (h.vote s args.candidateId).voted s args.term = some args.candidateId := by
      simp [Ledger.vote, hc.term, hterm]
    have hnew : UpToDate LogEntry.term (h.stood args.term args.candidateId) (h.branch s) := by
      rw [ha.index, ha.last, Raft.isMoreUpToDate_iff hsh] at hup
      unfold UpToDate at hup ⊢
      rwa [hc.lastTerm_eq, Raft.length_fullLog hsh, ← hc.length] at hup
    have hmv : Moves s h (h.vote s args.candidateId) := by
      apply Moves.of_step hs
      apply Ledger.Step.vote
      · exact Ne.symm hd
      · rw [hc.term, hc.vote]; exact hcan
      · rw [hc.term, hterm]; exact ha.vote
      · rw [hc.term, hterm]; exact hnew
    refine ⟨_, hmv, ?_, hvote, hst⟩
    refine Core.follower ?_ hst
    apply hc.keep hmv.le rfl hk rfl rfl hc.term
    show (h.vote s args.candidateId).voted s rf.currentTerm = _
    rw [hterm]; exact hvote
  · have hvote : h.voted s args.term = some args.candidateId := by rw [← hterm, hc.vote]; exact hcan
    refine ⟨h, .refl hs, ?_, hvote, hst⟩
    refine Core.follower ?_ hst
    apply hc.keep .refl rfl hk rfl rfl hc.term
    show h.voted s rf.currentTerm = _
    rw [hterm]; exact hvote

theorem tracks_requestVote (hs : h.Sound LogEntry.term) (ht : Tracks h s rf) (hsh : rf.Shaped)
    {args : RequestVoteArgs N} (hd : s ≠ args.candidateId) (ha : Asked h args) :
    ∃ h', Moves s h h' ∧ Tracks h' s (rf.requestVote args).1 ∧ Grows rf (rf.requestVote args).1 ∧
      ((rf.requestVote args).2.voteGranted = true → h'.voted s args.term = some args.candidateId) := by
  unfold Raft.requestVote
  by_cases hlt : args.term < rf.currentTerm
  · rw [if_pos hlt]
    exact ⟨h, .refl hs, ht, .refl rf, fun hv => by cases hv⟩
  · rw [if_neg hlt]
    -- the server in the candidate's term, before it decides
    have hmet : ∃ h₁, Moves s h h₁ ∧
        Tracks h₁ s (if rf.currentTerm < args.term then rf.stepDown args.term else rf) ∧
        Grows rf (if rf.currentTerm < args.term then rf.stepDown args.term else rf) ∧
        (if rf.currentTerm < args.term then rf.stepDown args.term else rf).Shaped ∧
        (if rf.currentTerm < args.term then rf.stepDown args.term else rf).currentTerm = args.term := by
      by_cases hgt : rf.currentTerm < args.term
      · simp only [if_pos hgt]
        obtain ⟨h₁, hm, ht₁, hg⟩ := tracks_stepDown hs ht.core hgt
        exact ⟨h₁, hm, ht₁, hg, hsh, rfl⟩
      · simp only [if_neg hgt]
        exact ⟨h, .refl hs, ht, .refl rf, hsh, by omega⟩
    generalize (if rf.currentTerm < args.term then rf.stepDown args.term else rf) = rf₁ at hmet ⊢
    obtain ⟨h₁, hm, ht₁, hg, hsh₁, hterm⟩ := hmet
    simp only
    split
    · rename_i hcan
      obtain ⟨h₂, hm₂, ht₂, hv, hst⟩ :=
        tracks_grant hm.sound ht₁ hsh₁ hd (ha.mono hs hm.le) hterm hcan.1 hcan.2
      exact ⟨h₂, hm.trans hm₂, ht₂, hg.trans (.follower hst le_rfl le_rfl), fun _ => hv⟩
    · exact ⟨h₁, hm, ht₁, hg, fun hv => by cases hv⟩

/-! ## startElection -/

theorem tracks_startElection (hs : h.Sound LogEntry.term) (ht : Tracks h s rf) (hsh : rf.Shaped) :
    Moves s h (h.stand s) ∧ Tracks (h.stand s) s rf.startElection.1 ∧ Asked (h.stand s) rf.startElection.2 := by
  have hc := ht.core
  have hmv : Moves s h (h.stand s) := .of_step hs .stand
  have hvote : (h.stand s).voted s (rf.currentTerm + 1) = some s := by simp [Ledger.stand, hc.term]
  have hstood : (h.stand s).stood (rf.currentTerm + 1) s = h.branch s := by simp [Ledger.stand, hc.term]
  have hcore : Core (h.stand s) s rf.startElection.1 := by
    apply hc.keep hmv.le rfl (Raft.keeps_startElection rf) rfl rfl
    · simp [Ledger.stand, hc.term, Raft.startElection, Raft.persist]
    · show (h.stand s).voted s (rf.currentTerm + 1) = some rf.me
      rw [hc.me]; exact hvote
  refine ⟨hmv, ⟨hcore, fun hl => (by cases hl), fun _ => ⟨Nat.succ_pos _, hvote, ?_, fun _ => hstood.symm⟩⟩, ?_⟩
  · intro hl
    have : rf.currentTerm + 1 ≤ h.term s := hs.leader_le hl
    rw [hc.term] at this
    omega
  · refine ⟨?_, ?_, ?_⟩
    · show (h.stand s).voted rf.me (rf.currentTerm + 1) = some rf.me
      rw [hc.me]; exact hvote
    · show rf.lastLogIndex = ((h.stand s).stood (rf.currentTerm + 1) rf.me).length
      rw [hc.me, hstood, hc.length]
    · show rf.lastLogTerm = lastTerm LogEntry.term ((h.stand s).stood (rf.currentTerm + 1) rf.me)
      rw [hc.me, hstood, ← hc.lastTerm_eq, Raft.lastLogTerm_eq hsh]

/-! ## The votes -/

theorem tracks_becomeLeader (hs : h.Sound LogEntry.term) (ht : Tracks h s rf) (hst : rf.state = .candidate)
    {V : Finset (Fin N)} (hV : N / 2 + 1 ≤ V.card) (hvotes : ∀ r ∈ V, h.voted r rf.currentTerm = some s) :
    ∃ h', Moves s h h' ∧ Tracks h' s rf.becomeLeader ∧ Grows rf rf.becomeLeader := by
  have hc := ht.core
  have hcand := ht.standing hst
  have hmaj : Majority V := by unfold Majority; rw [Fintype.card_fin]; omega
  have hnone : h.leader rf.currentTerm = none := by
    cases hl : h.leader rf.currentTerm with
    | none => rfl
    | some q =>
      obtain ⟨Q, hQ, hq⟩ := hs.votes hl
      obtain ⟨r, hrV, hrQ⟩ := hmaj.meet hQ
      have := (hvotes r hrV).symm.trans (hq r hrQ)
      rw [← Option.some.inj this] at hl
      exact absurd hl hcand.unelected
  have hbranch : h.branch s = h.stood rf.currentTerm s :=
    hcand.stood fun u n hn hu => hs.committed_of_votes hmaj hvotes (Or.inr ⟨u, n, le_rfl, hn, List.prefix_rfl⟩) hu
  have hmv : Moves s h (h.win s) := by
    apply Moves.of_step hs
    apply Ledger.Step.win V
    · rw [hc.term]; exact hnone
    · exact hmaj
    · rw [hc.term]; exact hvotes
    · rw [hc.term]; exact hbranch
  refine ⟨h.win s, hmv, ⟨?_, fun _ => ?_, fun hl => (by cases hl)⟩, ?_⟩
  · exact hc.keep hmv.le rfl ⟨rfl, rfl, rfl, rfl, id⟩ rfl rfl hc.term hc.vote
  · refine ⟨?_, fun p => le_rfl, ?_, fun p hp => Or.inl ?_, ?_⟩
    · show (h.win s).leader rf.currentTerm = some s
      simp [Ledger.win, hc.term]
    · show (if s = rf.me then rf.lastLogIndex else 0) ≤ rf.lastLogIndex
      rw [hc.me, if_pos rfl]
    · show (if p = rf.me then rf.lastLogIndex else 0) ≤ _
      rw [hc.me, if_neg hp]; exact Nat.zero_le _
    · intro n hn
      -- nothing is committed in a term without a leader
      have hlen := (hs.quorum (t := rf.currentTerm) hn).1
      have hnil := hs.log_none hnone
      rw [Ledger.Ends, hnil] at hlen
      have := hlen.2.1
      simp at this
      omega
  · refine ⟨le_rfl, ?_, fun hl => by cases hl⟩
    unfold Raft.bound
    rw [hst]
    rfl

theorem tracks_requestVoteReply (hs : h.Sound LogEntry.term) (ht : Tracks h s rf) {args : RequestVoteArgs N}
    {reply : RequestVoteReply} {votes : Nat}
    (hcount : rf.state = .candidate → rf.currentTerm = args.term → reply.voteGranted = true →
      ∃ V : Finset (Fin N), V.card = votes + 1 ∧ ∀ r ∈ V, h.voted r rf.currentTerm = some s) :
    ∃ h', Moves s h h' ∧ Tracks h' s (rf.requestVoteReply votes args reply).1 ∧
      Grows rf (rf.requestVoteReply votes args reply).1 := by
  unfold Raft.requestVoteReply
  by_cases hlt : rf.currentTerm < reply.term
  · rw [if_pos hlt]; exact tracks_stepDown hs ht.core hlt
  · rw [if_neg hlt]
    by_cases hold : rf.state ≠ .candidate ∨ rf.currentTerm ≠ args.term
    · rw [if_pos hold]; exact ⟨h, .refl hs, ht, .refl rf⟩
    · rw [if_neg hold]
      push Not at hold
      by_cases hv : reply.voteGranted = true
      · rw [if_pos hv]
        by_cases hmaj : N / 2 + 1 ≤ votes + 1
        · rw [if_pos hmaj]
          obtain ⟨V, hcard, hV⟩ := hcount hold.1 hold.2 hv
          exact tracks_becomeLeader hs ht hold.1 (by rw [hcard]; exact hmaj) hV
        · rw [if_neg hmaj]; exact ⟨h, .refl hs, ht, .refl rf⟩
      · rw [if_neg hv]; exact ⟨h, .refl hs, ht, .refl rf⟩

end

end DistLab
