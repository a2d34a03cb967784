import DistLab.Raft.AppendSound

/-!
# Snapshots follow the ledger

A snapshot covers committed entries only. `Snapshot` moves entries from the
log into the snapshot and is no move of the ledger; `CondInstallSnapshot` is
the move `install` when it leaves no entry of the log behind it. A leader never
changes its log that way, for what it is offered is part of it.
-/

namespace DistLab

section
variable {N : Nat} {C : Type} {h : Ledger (Fin N) (LogEntry C)} {s : Fin N} {rf rf' : Raft N C (Snapshot C)}

/-! ## InstallSnapshot -/

theorem tracks_installSnapshot (hs : h.Sound LogEntry.term) (ht : Tracks h s rf)
    (args : InstallSnapshotArgs N (Snapshot C)) :
    ∃ h', Moves s h h' ∧ Tracks h' s (rf.installSnapshot args).1 ∧ Grows rf (rf.installSnapshot args).1 ∧
      (rf.currentTerm ≤ args.term → (rf.installSnapshot args).1.bound = args.term) := by
  by_cases hlt : args.term < rf.currentTerm
  · have heq : (rf.installSnapshot args).1 = rf := by unfold Raft.installSnapshot; rw [if_pos hlt]
    rw [heq]
    exact ⟨h, .refl hs, ht, .refl rf, fun hle => by omega⟩
  · have hle := Nat.le_of_not_lt hlt
    have heq : (rf.installSnapshot args).1 = rf.newTerm args.term := by
      unfold Raft.installSnapshot
      rw [if_neg hlt]
      simp only
      split <;> rfl
    obtain ⟨hc, hct⟩ := ht.core.newTerm hs hle
    rw [heq]
    refine ⟨_, moves_advance hs ht.core hle, hc.follower rfl, .follower rfl (by simp) (by rw [hct]; exact hle), ?_⟩
    intro _
    have hb : (rf.newTerm args.term).bound = (rf.newTerm args.term).currentTerm := if_pos rfl
    rw [hb, hct]

theorem tracks_installSnapshotReply (hs : h.Sound LogEntry.term) (ht : Tracks h s rf) {peer : Fin N} {e : Nat}
    {args : InstallSnapshotArgs N (Snapshot C)} {reply : InstallSnapshotReply}
    (hp : (Packet.installSnapshotReply s peer e args reply).Justified h) :
    ∃ h', Moves s h h' ∧ Tracks h' s (rf.installSnapshotReply peer args reply) ∧
      Grows rf (rf.installSnapshotReply peer args reply) := by
  obtain ⟨hps, -, hm⟩ := hp
  rcases rf.installSnapshotReply_cases peer args reply with ⟨hlt, heq⟩ | ⟨-, heq⟩ | ⟨hst, hterm, heq⟩
  · rw [heq]
    exact tracks_stepDown hs ht.core hlt
  · rw [heq]
    exact ⟨h, .refl hs, ht, .refl rf⟩
  · rw [heq]
    have hl := ht.leading hst
    rw [← hterm] at hm
    have hlen := hm.le_log hs hl.elected
    rw [leader_length hs ht.core hl] at hlen
    have hnext : Tracks h s (rf.setNextIndex peer (max (rf.nextIndex peer) (args.lastIncludedIndex + 1))) :=
      ht.setNextIndex hst (max_le (hl.next_le peer) (Nat.succ_le_succ hlen))
    exact ⟨h, .refl hs, hnext.setMatchIndex hst hps ((hl.matched peer hps).max hm), .same rfl le_rfl rfl⟩

theorem justified_install (ht : Tracks h s rf) (hsh : rf.Shaped) {peer : Fin N}
    {e : Nat} {args : InstallSnapshotArgs N (Snapshot C)} (hp : peer ≠ rf.me)
    (hr : rf.replicateTo peer = some (some (.install args))) :
    (Packet.installSnapshot peer e args).Justified h := by
  obtain ⟨hst, -, rfl⟩ := Raft.replicateTo_install hr
  have hc := ht.core
  refine ⟨hp, ?_, hc.folded_committed hsh⟩
  rw [hc.me]
  exact (ht.leading hst).elected

/-! ## CondInstallSnapshot -/

section
variable {snap : Snapshot C} {t i : Nat} (ht : Tracks h s rf)
include ht

theorem condInstall_log (hlt : rf.commitIndex < i) {log : List (LogEntry C)}
    (hlog : i ≤ rf.lastLogIndex ∧ goFrom rf.log (rf.toSliceIndex i + 1) = some log ∨
      rf.lastLogIndex < i ∧ log = []) : log = (h.branch s).drop i := by
  have hc := ht.core
  have hge := hc.commit_ge
  rcases hlog with ⟨hle, hlog⟩ | ⟨hgt, rfl⟩
  · have hk : i - rf.lastIncludedIndex ≤ rf.log.length := by unfold Raft.lastLogIndex at hle; omega
    rw [Raft.toSliceIndex_succ (by omega), goFrom_natCast hk, Option.some.injEq] at hlog
    rw [← hlog, hc.log, List.drop_drop, Nat.add_sub_cancel' (by omega)]
  · rw [List.drop_eq_nil_of_le (by rw [hc.length]; exact hgt.le)]

variable (hcm : h.Committed rf.bound snap.entries)
include hcm

theorem core_installed {h' : Ledger (Fin N) (LogEntry C)} (hsnap : snap.Shaped t i) (hle : h.Le h')
    (hterm : h'.term s = h.term s) (hvote : h'.voted s = h.voted s) (hi : i ≤ (h'.branch s).length)
    (hfold : (h'.branch s).length = i → h'.branch s = snap.entries) {log : List (LogEntry C)}
    (hlog : log = (h'.branch s).drop i) :
    Core h' s ({ rf with log, lastIncludedIndex := i, lastIncludedTerm := t, commitIndex := i,
                         lastApplied := i }.persistWithSnapshot snap) := by
  have hc := ht.core
  constructor
  · exact hc.me
  · exact hterm.trans hc.term
  · show h'.voted s rf.currentTerm = rf.votedFor
    rw [hvote]; exact hc.vote
  · exact hi
  · exact hlog
  · exact hfold
  · exact le_rfl
  · exact Nat.le_add_right _ _
  · show h'.Committed rf.currentTerm ((snap.entries ++ log).take i)
    rw [← hsnap.length, List.take_left]
    exact hle.of_committed (hcm.mono rf.bound_le)

theorem install_leader (hs : h.Sound LogEntry.term) (hst : rf.state = .leader) : snap.entries <+: h.branch s := by
  have hl := ht.leading hst
  rw [(leader_branch hs ht.core hl).1]
  exact hs.committed_log hl.elected hcm rf.bound_le

theorem install_candidate (hst : rf.state = .candidate)
    (hall : ∀ u n, h.committed u n → u < rf.currentTerm → (h.log u).take n <+: h.stood rf.currentTerm s) :
    snap.entries <+: h.stood rf.currentTerm s := by
  have hpos := (ht.standing hst).pos
  have hb : rf.bound = rf.currentTerm - 1 := by unfold Raft.bound; rw [hst]; rfl
  rw [hb] at hcm
  rcases hcm with hnil | ⟨u, n, hu, hn, hx⟩
  · rw [hnil]; exact List.nil_prefix
  · exact hx.trans (hall u n hn (by omega))

theorem tracks_condInstall (hs : h.Sound LogEntry.term) (hsnap : snap.Shaped t i)
    (hr : rf.condInstallSnapshot t i snap = some (rf', true)) :
    ∃ h', Moves s h h' ∧ Tracks h' s rf' ∧ Grows rf rf' := by
  obtain ⟨-, -, hok⟩ | ⟨log, hlt, -, hlog, rfl⟩ := Raft.condInstallSnapshot_cases hr
  · cases hok
  have hc := ht.core
  have hdrop := condInstall_log ht hlt hlog
  by_cases hshort : (h.branch s).length ≤ i
  · -- nothing is left of the log, and the ledger installs the snapshot
    have hnil : (h.branch s).drop i = [] := List.drop_eq_nil_of_le hshort
    have hmv : Moves s h (h.install s snap.entries) := by
      apply Moves.of_step hs
      apply Ledger.Step.install
      · rw [hc.term]; exact hcm.mono rf.bound_le
      · rw [hsnap.length]; exact hshort
    have hbr : (h.install s snap.entries).branch s = snap.entries := if_pos rfl
    have same : snap.entries <+: h.branch s → snap.entries = h.branch s := fun hp =>
      hp.eq_of_length (le_antisymm hp.length_le (by rw [hsnap.length]; exact hshort))
    refine ⟨_, hmv, ⟨?_, fun hst => ?_, fun hst => ?_⟩, .same rfl hlt.le rfl⟩
    · apply core_installed ht hcm hsnap hmv.le rfl rfl
      · rw [hbr, hsnap.length]
      · intro _; exact hbr
      · rw [hbr, hdrop, hnil, List.drop_eq_nil_of_le hsnap.length.le]
    · refine (ht.leading hst).keep hmv.le (fun _ _ hn => hn) rfl rfl rfl ?_ hlt.le
      show i + log.length = rf.lastLogIndex
      rw [hdrop, hnil, ← hc.length, ← same (install_leader ht hcm hs hst), hsnap.length]
      rfl
    · have hcand := ht.standing hst
      refine ⟨hcand.pos, hcand.vote, hcand.unelected, fun hall => ?_⟩
      have hstood := hcand.stood hall
      have hp := install_candidate ht hcm hst hall
      rw [← hstood] at hp
      rw [hbr, same hp]
      exact hstood
  · refine ⟨h, .refl hs, ⟨?_, fun hst => ?_, fun hst => (ht.standing hst).keep rfl⟩, .same rfl hlt.le rfl⟩
    · exact core_installed ht hcm hsnap .refl rfl rfl (by omega) (fun heq => by omega) hdrop
    · refine (ht.leading hst).keep .refl (fun _ _ hn => hn) rfl rfl rfl ?_ hlt.le
      show i + log.length = rf.lastLogIndex
      rw [hdrop, List.length_drop, ← hc.length]
      omega

end

/-! ## Snapshot and Make -/

theorem fullLog_snapshot (hsh : rf.Shaped) {i : Nat} {data : List UInt8}
    (hr : rf.snapshot i ⟨data, i, rf.fullLog.take i⟩ = some rf') : rf'.fullLog = rf.fullLog := by
  obtain ⟨-, rfl⟩ | ⟨entry, hlt, -, rfl⟩ := Raft.snapshot_cases hr
  · rfl
  · show rf.fullLog.take i ++ rf.log.drop (i - rf.lastIncludedIndex) = rf.fullLog
    rw [← Raft.drop_fullLog hsh hlt.le, List.take_append_drop]

theorem tracks_snapshot (hs : h.Sound LogEntry.term) (ht : Tracks h s rf) (hsh : rf.Shaped) {i : Nat}
    {data : List UInt8} (hi : i ≤ rf.commitIndex)
    (hr : rf.snapshot i ⟨data, i, rf.fullLog.take i⟩ = some rf') : Tracks h s rf' ∧ Grows rf rf' := by
  have hfull := fullLog_snapshot hsh hr
  have hc := ht.core
  obtain ⟨-, rfl⟩ | ⟨entry, hlt, -, rfl⟩ := Raft.snapshot_cases hr
  · exact ⟨ht, .refl _⟩
  have hal := hc.aligned_of_commit hsh hs (hlt.trans_le hi)
  have hcl := hc.commit_le
  have hlast : i + (rf.log.drop (i - rf.lastIncludedIndex)).length = rf.lastLogIndex := by
    rw [List.length_drop]; unfold Raft.lastLogIndex at hcl ⊢; omega
  refine ⟨⟨?_, fun hst => ?_, fun hst => ?_⟩, .same rfl le_rfl rfl⟩
  · constructor
    · exact hc.me
    · exact hc.term
    · exact hc.vote
    · show i ≤ (h.branch s).length
      rw [hc.length]; omega
    · show rf.log.drop (i - rf.lastIncludedIndex) = (h.branch s).drop i
      rw [← Raft.drop_fullLog hsh hlt.le, hal]
    · show (h.branch s).length = i → h.branch s = rf.fullLog.take i
      intro hlen
      rw [hal, ← hlen, List.take_length]
    · exact hi
    · exact hcl.trans hlast.ge
    · rw [hfull]; exact hc.committed
  · exact (ht.leading hst).keep .refl (fun _ _ hn => hn) rfl rfl rfl hlast le_rfl
  · exact (ht.standing hst).keep rfl

theorem fullLog_make (hsv : rf.Saved) (me : Fin N) : (Raft.make me rf.persister : Raft N C (Snapshot C)).fullLog =
    rf.fullLog := by
  have hlog := congrArg HardState.log (Raft.make_of_saved hsv me).1
  unfold Raft.fullLog
  rw [Raft.make_persister]
  exact congrArg _ hlog

theorem tracks_make (hc : Core h s rf) (hsh : rf.Shaped) (hsv : rf.Saved) :
    Tracks h s (Raft.make rf.me rf.persister : Raft N C (Snapshot C)) := by
  obtain ⟨hh, hci, -⟩ := Raft.make_of_saved hsv rf.me
  have hfull := fullLog_make hsv rf.me
  have hct : (Raft.make rf.me rf.persister).currentTerm = rf.currentTerm := congrArg HardState.currentTerm hh
  have hvf : (Raft.make rf.me rf.persister).votedFor = rf.votedFor := congrArg HardState.votedFor hh
  have hlog : (Raft.make rf.me rf.persister).log = rf.log := congrArg HardState.log hh
  have hlii : (Raft.make rf.me rf.persister).lastIncludedIndex = rf.lastIncludedIndex :=
    congrArg HardState.lastIncludedIndex hh
  refine Core.follower ?_ (Raft.make_state _ _)
  constructor
  · rw [Raft.make_me, hc.me]
  · rw [hct, hc.term]
  · rw [hct, hvf, hc.vote]
  · rw [hlii]; exact hc.index_le
  · rw [hlii, hlog]; exact hc.log
  · rw [hlii, Raft.make_persister]; exact hc.folded
  · rw [hlii, hci]
  · unfold Raft.lastLogIndex; rw [hci, hlii]; exact Nat.le_add_right _ _
  · rw [hct, hci, hfull, Raft.take_fullLog hsh]
    exact hc.folded_committed hsh

end

end DistLab
