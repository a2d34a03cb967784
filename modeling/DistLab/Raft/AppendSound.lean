import DistLab.Raft.ElectSound

/-!
# Replication follows the ledger

A successful `AppendEntries` is the move `accept`, `Start` on a leader the move
`append`, and a `tryCommit` that raises `commitIndex` the move `commit`.
-/

namespace DistLab

section
variable {N : Nat} {C : Type} {h : Ledger (Fin N) (LogEntry C)} {s : Fin N} {rf rf' : Raft N C (Snapshot C)}

theorem Core.folded_log (hc : Core h s rf) (hsh : rf.Shaped) (hs : h.Sound LogEntry.term) {t : Nat} {q : Fin N}
    (hl : h.leader t = some q) (ht : rf.currentTerm ≤ t) : rf.persister.snapshot.entries <+: h.log t :=
  hs.committed_log hl (hc.folded_committed hsh) ht

/-! ## The follower -/

section
variable {args : AppendEntriesArgs N C} (hs : h.Sound LogEntry.term) (hc : Core h s rf) (hsh : rf.Shaped)
  (hsent : Sent h args) (hterm : rf.currentTerm = args.term) (hp1 : rf.lastIncludedIndex ≤ args.prevLogIndex)
  (hp2 : args.prevLogIndex ≤ rf.lastLogIndex) (hpt : rf.termAt args.prevLogIndex = args.prevLogTerm)
include hs hc hsh hsent hterm

/-- A matching entry after the snapshot means agreement with the leader. -/
theorem agree_leader {k : Nat} {a b : LogEntry C} (hk : rf.lastIncludedIndex ≤ k) (ha : rf.fullLog[k]? = some a)
    (hb : (h.log args.term)[k]? = some b) (hab : a.term = b.term) :
    rf.fullLog = h.branch s ∧ rf.fullLog.take (k + 1) = (h.log args.term).take (k + 1) :=
  hc.agree hsh hs (hs.log_valid _) (hc.folded_log hsh hs hsent.leader hterm.le) hk ha hb hab

include hp1 hp2 hpt

theorem take_prev : rf.fullLog.take args.prevLogIndex = (h.log args.term).take args.prevLogIndex := by
  have hfold := hc.folded_log hsh hs hsent.leader hterm.le
  have hle : args.prevLogIndex ≤ (h.log args.term).length := (Nat.le_add_right _ _).trans hsent.le
  rcases Nat.eq_or_lt_of_le hp1 with heq | hlt
  · rw [← heq, Raft.take_fullLog hsh, ← hsh.length, prefix_take_eq hfold le_rfl, List.take_length]
  · obtain ⟨k, hk⟩ : ∃ k, args.prevLogIndex = k + 1 := ⟨args.prevLogIndex - 1, by omega⟩
    rw [Raft.termAt_eq hsh hp1 hp2, hsent.prev, Option.some.injEq, hk] at hpt
    have hF : k < rf.fullLog.length := by rw [Raft.length_fullLog hsh]; omega
    have hL : k < (h.log args.term).length := by omega
    have ha : rf.fullLog[k]? = some rf.fullLog[k] := List.getElem?_eq_getElem hF
    have hb : (h.log args.term)[k]? = some (h.log args.term)[k] := List.getElem?_eq_getElem hL
    rw [lastTerm_take _ ha, lastTerm_take _ hb] at hpt
    rw [hk]
    exact (agree_leader hs hc hsh hsent hterm (by omega) ha hb hpt).2

theorem splice_leader :
    let m := args.prevLogIndex + args.entries.length
    (h.log args.term).take m <+: rf.fullLog ∧ Raft.splice rf.fullLog args.prevLogIndex args.entries = rf.fullLog ∨
      ¬ (h.log args.term).take m <+: rf.fullLog ∧
        Raft.splice rf.fullLog args.prevLogIndex args.entries = (h.log args.term).take m := by
  apply Raft.splice_spec args.entries
  · rw [Raft.length_fullLog hsh]; exact hp2
  · exact take_prev hs hc hsh hsent hterm hp1 hp2 hpt
  · exact hsent.le
  · exact hsent.entries
  · intro k a b hk ha hb hab
    exact (agree_leader hs hc hsh hsent hterm (hp1.trans hk) ha hb hab).2

omit hp1 hp2 hpt in
/-- With a stale suffix, nothing beyond the snapshot matches the leader. -/
theorem aligned_of_prefix {m : Nat} (hm : rf.lastIncludedIndex < m) (hml : m ≤ (h.log args.term).length)
    (hpre : (h.log args.term).take m <+: rf.fullLog) : rf.fullLog = h.branch s := by
  obtain ⟨hlen, htake⟩ := (prefix_take_iff hml).mp hpre
  obtain ⟨k, rfl⟩ : ∃ k, m = k + 1 := ⟨m - 1, by omega⟩
  have ha : rf.fullLog[k]? = some (rf.fullLog.get ⟨k, hlen⟩) := List.getElem?_eq_getElem _
  have hb : (h.log args.term)[k]? = rf.fullLog[k]? := by
    rw [← List.getElem?_take_of_lt (Nat.lt_succ_self k), ← htake, List.getElem?_take_of_lt (Nat.lt_succ_self k)]
  exact (agree_leader hs hc hsh hsent hterm (by omega) ha (hb.trans ha) rfl).1

omit hsh hp1 hp2 hpt in
theorem committed_take {m : Nat} (hml : m ≤ (h.log args.term).length)
    (hpre : ¬ (h.log args.term).take m <+: rf.fullLog) :
    rf.fullLog.take rf.commitIndex <+: (h.log args.term).take m := by
  have hlog := hs.committed_log hsent.leader hc.committed hterm.le
  rcases le_total (rf.fullLog.take rf.commitIndex).length m with hle | hge
  · exact List.prefix_of_prefix_length_le hlog ( List.take_prefix m _) (by simpa [hml] using hle)
  · refine absurd ?_ hpre
    have hpm : (h.log args.term).take m <+: rf.fullLog.take rf.commitIndex :=
      List.prefix_of_prefix_length_le ( List.take_prefix m _) hlog (by rw [List.length_take]; omega)
    exact hpm.trans ( List.take_prefix _ _)

theorem core_splice (hd : s ≠ args.leaderId)
    (hrf : rf' = { rf with log := Raft.splice rf.log (args.prevLogIndex - rf.lastIncludedIndex) args.entries }.persist) :
    ∃ h', Moves s h h' ∧ h'.log = h.log ∧ Core h' s rf' ∧
      (h.log args.term).take (args.prevLogIndex + args.entries.length) <+: rf'.fullLog ∧
      Matched h' s args.term (args.prevLogIndex + args.entries.length) := by
  have hk : Raft.Keeps rf rf' := by rw [hrf]; exact ⟨rfl, rfl, rfl, rfl, fun _ => Raft.saved_persist _⟩
  have hfull : rf'.fullLog = Raft.splice rf.fullLog args.prevLogIndex args.entries := by
    have := Raft.splice_append rf.persister.snapshot.entries rf.log args.entries
      (args.prevLogIndex - rf.lastIncludedIndex)
    rw [hsh.length, Nat.add_sub_cancel' hp1] at this
    rw [hrf]
    exact this.symm
  have hct : rf'.currentTerm = rf.currentTerm := by rw [hrf]; rfl
  have hvf : rf'.votedFor = rf.votedFor := by rw [hrf]; rfl
  have hci : rf'.commitIndex = rf.commitIndex := by rw [hrf]; rfl
  -- the move, and what it leaves alone
  have hacc : Moves s h (h.accept s (args.prevLogIndex + args.entries.length)) := by
    apply Moves.of_step hs
    apply Ledger.Step.accept args.leaderId
    · exact Ne.symm hd
    · rw [hc.term, hterm]; exact hsent.leader
    · rw [hc.term, hterm]; exact hsent.le
  have hlt : h.log (h.term s) = h.log args.term := by rw [hc.term, hterm]
  have hacked : Matched (h.accept s (args.prevLogIndex + args.entries.length)) s args.term
      (args.prevLogIndex + args.entries.length) := by
    have := h.accept_acked s (args.prevLogIndex + args.entries.length)
    rw [hc.term, hterm] at this
    exact Or.inl this
  rcases splice_leader hs hc hsh hsent hterm hp1 hp2 hpt with ⟨hpre, hsp⟩ | ⟨hpre, hsp⟩
  · rw [hsp] at hfull
    by_cases hal : rf.fullLog = h.branch s
    · refine ⟨_, hacc, rfl, ?_, by rw [hfull]; exact hpre, hacked⟩
      apply hc.relog hsh hacc.le hk hci (hc.term.trans hct.symm)
      · rw [hct, hvf]; exact hc.vote
      · rw [Ledger.accept_branch_old (by rw [hlt, ← hal]; exact hpre), hfull, hal]
      · rw [hfull]; exact List.take_prefix _ _
    · -- a late request that ends at the snapshot of a server with a stale suffix
      have hm : args.prevLogIndex + args.entries.length = rf.lastIncludedIndex := by
        by_contra hne
        exact hal ( aligned_of_prefix hs hc hsh hsent hterm (by omega) hsent.le hpre)
      have hlog : rf'.log = rf.log := by
        unfold Raft.fullLog at hfull
        rw [hk.snapshot] at hfull
        exact List.append_cancel_left hfull
      refine ⟨h, .refl hs, rfl, ?_, by rw [hfull]; exact hpre, ?_⟩
      · apply hc.keep .refl rfl hk hlog hci (hc.term.trans hct.symm)
        rw [hct, hvf]; exact hc.vote
      · rw [hm, ← hsh.length, ← hterm]
        exact .of_committed (hc.folded_committed hsh)
  · rw [hsp] at hfull
    have hnb : ¬ (h.log args.term).take (args.prevLogIndex + args.entries.length) <+: h.branch s := by
      intro hpb
      obtain ⟨hlen, htake⟩ := (prefix_take_iff hsent.le).mp hpb
      have hfold := hc.folded_log hsh hs hsent.leader hterm.le
      have := hc.aligned_of_take hsh hfold (hp1.trans (Nat.le_add_right _ _)) htake
      rw [← this] at hpb
      exact hpre hpb
    refine ⟨_, hacc, rfl, ?_, by rw [hfull], hacked⟩
    apply hc.relog hsh hacc.le hk hci (hc.term.trans hct.symm)
    · rw [hct, hvf]; exact hc.vote
    · rw [Ledger.accept_branch_new (by rw [hlt]; exact hnb), hfull, hlt]
    · rw [hfull]
      exact committed_take hs hc hsent hterm hsent.le hpre

theorem core_acceptEntries (hd : s ≠ args.leaderId) (hacc : rf.acceptEntries args = some rf') :
    ∃ h', Moves s h h' ∧ Core h' s rf' ∧ rf.commitIndex ≤ rf'.commitIndex ∧
      Matched h' s args.term (args.prevLogIndex + args.entries.length) := by
  obtain ⟨h', hm, hlog, hc', hpre, hmatch⟩ := core_splice hs hc hsh hsent hterm hp1 hp2 hpt hd rfl
  have hrf := Raft.acceptEntries_eq hp1 hacc
  simp only at hrf
  generalize hrf₁ :
    ({ rf with log := Raft.splice rf.log (args.prevLogIndex - rf.lastIncludedIndex) args.entries }.persist) = rf₁
    at hrf hc' hpre
  have hci : rf₁.commitIndex = rf.commitIndex := by rw [← hrf₁]; rfl
  have hct : rf₁.currentTerm = args.term := by rw [← hrf₁]; exact hterm
  have hsh₁ : rf₁.Shaped := by rw [← hrf₁]; exact hsh
  by_cases hlt : rf.commitIndex < args.leaderCommit
  · -- the log now reaches `leaderCommit`, so the minimum is `leaderCommit`
    have hlen : args.leaderCommit ≤ rf₁.lastLogIndex := by
      have := hpre.length_le
      rw [List.length_take, Nat.min_eq_left hsent.le, Raft.length_fullLog hsh₁] at this
      exact hsent.commit_le.trans this
    rw [if_pos hlt, if_neg (Nat.not_lt.mpr hlen)] at hrf
    subst hrf
    refine ⟨h', hm, ?_, hlt.le, hmatch⟩
    apply hc'.recommit (by rw [hci]; exact hlt.le) hlen
    have htake : rf₁.fullLog.take args.leaderCommit = (h.log args.term).take args.leaderCommit := by
      have hmin : args.leaderCommit ≤
          ((h.log args.term).take (args.prevLogIndex + args.entries.length)).length := by
        rw [List.length_take, Nat.min_eq_left hsent.le]; exact hsent.commit_le
      rw [prefix_take_eq hpre hmin, List.take_take, Nat.min_eq_left hsent.commit_le]
    rw [htake, hct]
    exact hm.le.of_committed hsent.committed
  · rw [if_neg hlt] at hrf
    subst hrf
    exact ⟨h', hm, hc', hci.ge, hmatch⟩

end

theorem tracks_appendEntries (hs : h.Sound LogEntry.term) (ht : Tracks h s rf) (hsh : rf.Shaped)
    {args : AppendEntriesArgs N C} {reply : AppendEntriesReply} (hd : s ≠ args.leaderId) (hsent : Sent h args)
    (hr : rf.appendEntries args = some (rf', reply)) :
    ∃ h', Moves s h h' ∧ Tracks h' s rf' ∧ Grows rf rf' ∧
      (reply.success = true → Matched h' s args.term (args.prevLogIndex + args.entries.length)) ∧
      (reply.success = false → reply.term ≤ args.term →
        reply.conflictIndex ≤ (h'.log args.term).length + 1) := by
  have hc := ht.core
  rcases Raft.appendEntries_cases hr with ⟨hlt, rfl, hf, hrt⟩ | ⟨hle, rfl, hf, hci⟩ | ⟨hle, hp1, hp2, hpt, hacc, hok⟩
  · refine ⟨h, .refl hs, ht, .refl _, fun hv => ?_, fun _ hle => ?_⟩
    · rw [hf] at hv; cases hv
    · omega
  · have hmv := moves_advance hs hc hle
    obtain ⟨hc₁, hct⟩ := hc.newTerm hs hle
    refine ⟨_, hmv, hc₁.follower rfl, ?_, fun hv => ?_, fun _ _ => ?_⟩
    · exact .follower rfl (by simp) (by rw [hct]; exact hle)
    · rw [hf] at hv; cases hv
    · show reply.conflictIndex ≤ (h.log args.term).length + 1
      have hlii := (hc.folded_log hsh hs hsent.leader hle).length_le
      rw [hsh.length] at hlii
      have := hsent.le
      rcases hci with hci | hci <;> omega
  · have hmv := moves_advance hs hc hle
    obtain ⟨hc₁, hct⟩ := hc.newTerm hs hle
    have hk := Raft.keeps_newTerm rf args.term
    have hsh₁ : (rf.newTerm args.term).Shaped := by
      unfold Raft.Shaped; rw [hk.snapshot, hk.term, hk.index]; exact hsh
    obtain ⟨h', hm, hc', hcm, hmatch⟩ := core_acceptEntries hmv.sound hc₁ hsh₁ (hsent.mono hmv.le) hct
      (by simpa using hp1) (by simpa using hp2) hpt hd hacc
    have hst : rf'.state = .follower := by
      have := Raft.acceptEntries_eq (by simpa using hp1) hacc
      simp only at this
      rw [this]
      split <;> rfl
    have hct' : rf'.currentTerm = args.term := by
      have := Raft.acceptEntries_eq (by simpa using hp1) hacc
      simp only at this
      rw [this]
      split <;> exact hct
    refine ⟨h', hmv.trans hm, hc'.follower hst, ?_, fun _ => hmatch, fun hv => ?_⟩
    · exact .follower hst (by simpa using hcm) (by rw [hct']; exact hle)
    · rw [hok] at hv; cases hv

/-! ## The leader -/

section
variable (hs : h.Sound LogEntry.term) (hc : Core h s rf) (hsh : rf.Shaped) (hl : Leading h s rf)
include hs hc hl

theorem leader_branch : h.branch s = h.log rf.currentTerm ∧ h.acked s rf.currentTerm = (h.log rf.currentTerm).length := by
  have := hs.leader_own (p := s) (by rw [hc.term]; exact hl.elected)
  rwa [hc.term] at this

theorem leader_length : (h.log rf.currentTerm).length = rf.lastLogIndex := by
  rw [← hc.length, (leader_branch hs hc hl).1]

include hsh

theorem leader_fullLog : rf.fullLog = h.log rf.currentTerm := by
  have hb := (leader_branch hs hc hl).1
  rw [← hb]
  apply hc.aligned hsh
  rw [hb]
  exact hc.folded_log hsh hs hl.elected le_rfl

theorem sent_replicateTo {peer : Fin N} {args : AppendEntriesArgs N C}
    (hr : rf.replicateTo peer = some (some (.append args))) : Sent h args ∧ args.leaderId = s := by
  obtain ⟨-, hlt, rfl⟩ := Raft.replicateTo_append hr
  have hnext := hl.next_le peer
  have hfull := leader_fullLog hs hc hsh hl
  have hlen : (h.log rf.currentTerm).length = rf.lastLogIndex := leader_length hs hc hl
  have hdrop : rf.log.drop (rf.nextIndex peer - rf.lastIncludedIndex - 1) =
      (h.log rf.currentTerm).drop (rf.nextIndex peer - 1) := by
    rw [← hfull, Raft.drop_fullLog hsh (by omega)]
    congr 1; omega
  have hsum : rf.nextIndex peer - 1 + ((h.log rf.currentTerm).drop (rf.nextIndex peer - 1)).length =
      (h.log rf.currentTerm).length := by rw [List.length_drop]; omega
  refine ⟨?_, hc.me⟩
  rw [hdrop]
  constructor
  · rw [hc.me]; exact hl.elected
  · exact hsum.le
  · show (h.log rf.currentTerm).take _ = _
    simp only
    rw [hsum, List.take_length, List.take_append_drop]
  · show rf.termAt (rf.nextIndex peer - 1) = _
    rw [Raft.termAt_eq hsh (by omega) (by omega), hfull]
  · show rf.commitIndex ≤ _
    simp only
    rw [hsum, hlen]
    exact hc.commit_le
  · show h.Committed rf.currentTerm ((h.log rf.currentTerm).take rf.commitIndex)
    rw [← hfull]
    exact hc.committed

omit hsh hc in
/-- A peer counted for an index of the leader's own term has acknowledged it:
an index committed before belongs to an earlier term or is not above `commitIndex`. -/
theorem acked_of_matched {p : Fin N} (hp : p ≠ s) {m : Nat} (hlt : rf.commitIndex < m)
    (he : h.Ends LogEntry.term rf.currentTerm m) (hm : m ≤ rf.matchIndex p) : m ≤ h.acked p rf.currentTerm := by
  rcases hl.matched p hp with ha | ⟨u, n, hu, hn, hmn⟩
  · exact hm.trans ha
  · exfalso
    rcases Nat.eq_or_lt_of_le hu with rfl | hu'
    · have := hl.newest n hn
      omega
    · have hpre := hs.committed_log hl.elected (Or.inr ⟨u, n, le_rfl, hn, List.prefix_rfl⟩) hu
      have hmn' : m ≤ ((h.log u).take n).length := by
        rw [List.length_take, Nat.min_eq_left (hs.quorum hn).1.2.1]; omega
      obtain ⟨h0, -, hlast⟩ := he
      rw [prefix_take_eq hpre hmn'] at hlast
      have hne : ((h.log u).take n).take m ≠ [] := by
        intro hnil
        have := congrArg List.length hnil
        rw [List.length_take, Nat.min_eq_left hmn', List.length_nil] at this
        omega
      obtain ⟨e, hemem, hetm⟩ := lastTerm_mem LogEntry.term hne
      have := hs.log_le e (List.mem_of_mem_take (List.mem_of_mem_take hemem))
      omega

theorem counted_quorum {m : Nat} (hlt : rf.commitIndex < m) (hml : m ≤ rf.lastLogIndex)
    (hterm : rf.termAt m = some rf.currentTerm) (hmaj : N / 2 < 1 + (rf.counted m).length) :
    h.Ends LogEntry.term rf.currentTerm m ∧
      ∃ Q : Finset (Fin N), Majority Q ∧ ∀ r ∈ Q, m ≤ h.acked r rf.currentTerm := by
  have hlen := leader_length hs hc hl
  have hge := hc.commit_ge
  have hends : h.Ends LogEntry.term rf.currentTerm m := by
    refine ⟨by omega, by omega, ?_⟩
    rw [Raft.termAt_eq hsh (by omega) hml, leader_fullLog hs hc hsh hl] at hterm
    exact Option.some.inj hterm
  have hmem : ∀ p, p ∈ rf.counted m ↔ p ≠ s ∧ m ≤ rf.matchIndex p := by
    intro p
    simp [Raft.counted, hc.me]
  have hnodup : (rf.counted m).Nodup := (List.nodup_finRange N).filter _
  refine ⟨hends, insert s (rf.counted m).toFinset, ?_, ?_⟩
  · unfold Majority
    rw [Fintype.card_fin, Finset.card_insert_of_notMem (by simp [hmem]), List.toFinset_card_of_nodup hnodup]
    omega
  · intro r hr
    rcases Finset.mem_insert.mp hr with rfl | hr
    · rw [(leader_branch hs hc hl).2]; omega
    · obtain ⟨hrs, hrm⟩ := (hmem r).mp (List.mem_toFinset.mp hr)
      exact acked_of_matched hs hl hrs hlt hends hrm

theorem tracks_tryCommit (hst : rf.state = .leader) :
    ∃ h', Moves s h h' ∧ Tracks h' s rf.tryCommit ∧ Grows rf rf.tryCommit := by
  unfold Raft.tryCommit
  rcases rf.tryCommitFrom_cases rf.lastLogIndex with heq | ⟨m, hlt, hml, hterm, hmaj, heq⟩
  · rw [heq]
    exact ⟨h, .refl hs, ⟨hc, fun _ => hl, fun hcand => by rw [hst] at hcand; cases hcand⟩, .refl rf⟩
  · rw [heq]
    obtain ⟨hends, Q, hQ, hack⟩ := counted_quorum hs hc hsh hl hlt hml hterm hmaj
    have hmv : Moves s h (h.commit s m) := by
      apply Moves.of_step hs
      apply Ledger.Step.commit m Q
      · rw [hc.term]; exact hl.elected
      · rw [hc.term]; exact hends
      · exact hQ
      · rw [hc.term]; exact hack
    have hnew : (h.commit s m).committed rf.currentTerm m := Or.inl ⟨hc.term.symm, rfl⟩
    refine ⟨_, hmv, ⟨?_, fun _ => ?_, fun hcand => ?_⟩, .same rfl hlt.le rfl⟩
    · have hc' : Core (h.commit s m) s rf :=
        hc.keep hmv.le rfl (.refl rf) rfl rfl hc.term hc.vote
      apply hc'.recommit hlt.le hml
      refine Or.inr ⟨_, m, le_rfl, hnew, ?_⟩
      rw [leader_fullLog hs hc hsh hl]
      exact List.prefix_rfl
    · refine ⟨hl.elected, hl.next_le, hl.own, fun p hp => (hl.matched p hp).mono hmv.le, ?_⟩
      intro n hn
      rcases hn with ⟨-, rfl⟩ | hn
      · exact le_rfl
      · exact (hl.newest n hn).trans hlt.le
    · rw [show ({ rf with commitIndex := m } : Raft N C (Snapshot C)).state = rf.state from rfl, hst] at hcand
      cases hcand

end

section
variable {peer : Fin N} {i : Nat}

theorem Tracks.setNextIndex (ht : Tracks h s rf) (hst : rf.state = .leader) (hi : i ≤ rf.lastLogIndex + 1) :
    Tracks h s (rf.setNextIndex peer i) := by
  have hl := ht.leading hst
  refine ⟨?_, fun _ => ⟨hl.elected, fun p => ?_, hl.own, hl.matched, hl.newest⟩, fun hcand => ?_⟩
  · exact ht.core.keep .refl rfl ⟨rfl, rfl, rfl, rfl, id⟩ rfl rfl ht.core.term ht.core.vote
  · show (if p = peer then i else rf.nextIndex p) ≤ _
    split
    · exact hi
    · exact hl.next_le p
  · have : rf.state = .candidate := hcand
    rw [hst] at this; cases this

theorem Tracks.setMatchIndex (ht : Tracks h s rf) (hst : rf.state = .leader) (hp : peer ≠ s)
    (hm : Matched h peer rf.currentTerm i) : Tracks h s (rf.setMatchIndex peer i) := by
  have hl := ht.leading hst
  refine ⟨?_, fun _ => ⟨hl.elected, hl.next_le, ?_, fun p hps => ?_, hl.newest⟩, fun hcand => ?_⟩
  · exact ht.core.keep .refl rfl ⟨rfl, rfl, rfl, rfl, id⟩ rfl rfl ht.core.term ht.core.vote
  · show (if s = peer then i else rf.matchIndex s) ≤ _
    rw [if_neg (Ne.symm hp)]; exact hl.own
  · show Matched h p rf.currentTerm (if p = peer then i else rf.matchIndex p)
    split
    · rename_i heq; rw [heq]; exact hm
    · exact hl.matched p hps
  · have : rf.state = .candidate := hcand
    rw [hst] at this; cases this

end

theorem tracks_appendEntriesReply (hs : h.Sound LogEntry.term) (ht : Tracks h s rf) (hsh : rf.Shaped)
    {peer : Fin N} {e : Nat} {args : AppendEntriesArgs N C} {reply : AppendEntriesReply}
    (hp : (Packet.appendEntriesReply s peer e args reply).Justified h) :
    ∃ h', Moves s h h' ∧ Tracks h' s (rf.appendEntriesReply peer args reply) ∧
      Grows rf (rf.appendEntriesReply peer args reply) := by
  obtain ⟨hps, -, hok, hno⟩ := hp
  have hc := ht.core
  rcases rf.appendEntriesReply_cases peer args reply with ⟨hlt, heq⟩ | ⟨-, heq⟩ | ⟨hst, hterm, hle, hcase⟩
  · rw [heq]
    exact tracks_stepDown hs hc hlt
  · rw [heq]
    exact ⟨h, .refl hs, ht, .refl rf⟩
  · have hl := ht.leading hst
    have hlen := leader_length hs hc hl
    rcases hcase with ⟨hsucc, m, hm, heq⟩ | ⟨hsucc, heq⟩
    · rw [heq]
      have hmatch := hok hsucc
      rw [← hterm] at hmatch
      have hnew : Matched h peer rf.currentTerm m := by
        rw [hm]
        exact (hl.matched peer hps).max hmatch
      have hbound := hnew.le_log hs hl.elected
      rw [hlen] at hbound
      have ht₁ : Tracks h s ((rf.setMatchIndex peer m).setNextIndex peer (m + 1)) :=
        (ht.setMatchIndex hst hps hnew).setNextIndex hst (Nat.succ_le_succ hbound)
      have hg₁ : Grows rf ((rf.setMatchIndex peer m).setNextIndex peer (m + 1)) := .same rfl le_rfl rfl
      obtain ⟨h', hmoves, ht', hg⟩ := tracks_tryCommit hs ht₁.core hsh (ht₁.leading hst) hst
      exact ⟨h', hmoves, ht', hg₁.trans hg⟩
    · rw [heq]
      have hci := hno hsucc (by omega)
      rw [← hterm, hlen] at hci
      refine ⟨h, .refl hs, ht.setNextIndex hst (max_le (by omega) ?_), .same rfl le_rfl rfl⟩
      split
      · exact hci
      · exact Raft.backUp_le hci _ fun j _ hj _ => Nat.lt_succ_of_le hj

/-! ## Start -/

theorem tracks_start (hs : h.Sound LogEntry.term) (ht : Tracks h s rf) (hsh : rf.Shaped) (command : C) :
    ∃ h', Moves s h h' ∧ Tracks h' s (rf.start command).1 ∧ Grows rf (rf.start command).1 := by
  have hc := ht.core
  unfold Raft.start
  by_cases hst : rf.state ≠ .leader
  · rw [if_pos hst]; exact ⟨h, .refl hs, ht, .refl rf⟩
  · rw [if_neg hst]
    have hst' : rf.state = .leader := Decidable.not_not.mp hst
    have hl := ht.leading hst'
    have hmv : Moves s h (h.append s ⟨rf.currentTerm, command⟩) := by
      apply Moves.of_step hs
      apply Ledger.Step.append
      · rw [hc.term]; exact hl.elected
      · rw [hc.term]
    have hbr : (h.append s ⟨rf.currentTerm, command⟩).branch s = h.branch s ++ [⟨rf.currentTerm, command⟩] :=
      if_pos rfl
    have hk := Raft.keeps_start rf command
    rw [Raft.start, if_neg hst] at hk
    refine ⟨_, hmv, ⟨?_, fun _ => ?_, fun hcand => ?_⟩, .same rfl le_rfl rfl⟩
    · refine hc.relog hsh hmv.le hk rfl hc.term hc.vote ?_ ?_
      · rw [hbr, (leader_branch hs hc hl).1, ← leader_fullLog hs hc hsh hl]
        exact (List.append_assoc rf.persister.snapshot.entries rf.log _).symm
      · have hfull : rf.fullLog <+: rf.persister.snapshot.entries ++ (rf.log ++ [⟨rf.currentTerm, command⟩]) := by
          rw [← List.append_assoc]; exact List.prefix_append _ _
        exact ( List.take_prefix _ _).trans hfull
    · refine ⟨hl.elected, fun p => ?_, ?_, fun p hp => ?_, hl.newest⟩
      · show rf.nextIndex p ≤ rf.lastIncludedIndex + (rf.log ++ [_]).length + 1
        have := hl.next_le p
        unfold Raft.lastLogIndex at this
        rw [List.length_append]
        omega
      · simp [Raft.setMatchIndex, Raft.persist, hc.me, Raft.lastLogIndex]
      · have := (hl.matched p hp).mono hmv.le
        simpa [Raft.setMatchIndex, Raft.persist, hc.me, hp] using this
    · have : rf.state = .candidate := hcand
      rw [hst'] at this; cases this

end

end DistLab
