import DistLab.Raft.SnapshotSound

/-!
# Every run has a ledger

Each step of a cluster is a few moves of the one server that takes it, so
`Rel` is kept with a later ledger (`Rel.step`), and one growing history
accompanies every run (`RaftRun.ledger`).
-/

namespace DistLab

section
variable {N : Nat} {C : Type}

/-! ## The applier's indices -/

theorem Raft.length_collectLoop {S : Type} (rf : Raft N C S) : ∀ k i, (rf.collectLoop k i).length ≤ k
  | 0, i => le_rfl
  | k + 1, i => by
    unfold Raft.collectLoop
    split
    · exact Nat.le_succ_of_le (rf.length_collectLoop k (i + 1))
    · simp only
      split
      · exact Nat.zero_le _
      · split
        · exact Nat.zero_le _
        · exact Nat.succ_le_succ (rf.length_collectLoop k (i + 1))

theorem Server.Act.bounded {srv srv' : Server N C} {l : Local N C} {out : List (Packet N C)} (h : srv.Act l srv' out)
    (hb : srv.Bounded) (hci : l ≠ .restart → srv.rf.commitIndex ≤ srv'.rf.commitIndex) : srv'.Bounded := by
  cases h with
  | electionTimeout _ => exact hb.mono (hci (by simp)) rfl rfl rfl rfl
  | append _ _ => exact hb
  | install _ _ => exact hb
  | start _ => exact hb.mono (hci (by simp)) rfl rfl rfl rfl
  | @collect b _ hc =>
    refine ⟨fun b' hb' => ?_, hb.senders, hb.queued, hb.received⟩
    unfold Raft.collect at hc
    split at hc
    · cases hc
    · cases hc; cases hb'
      have := srv.rf.length_collectLoop (srv.rf.commitIndex - srv.rf.lastApplied) (srv.rf.lastApplied + 1)
      simp only
      omega
  | skip ha he _ =>
    refine ⟨fun b' hb' => ?_, hb.senders, hb.queued, hb.received⟩
    have := hb.batch _ ha
    rw [he, List.length_cons] at this
    cases hb'
    simp only
    omega
  | send ha he _ =>
    have hle := hb.batch _ ha
    rw [he, List.length_cons] at hle
    refine ⟨fun b' hb' => ?_, hb.senders, fun c i hi => ?_, hb.received⟩
    · cases hb'
      simp only
      omega
    · rcases List.mem_append.mp hi with hi | hi
      · exact hb.queued c i hi
      · cases List.mem_singleton.mp hi
        simp only
        omega
  | finish _ _ =>
    have hle := hci (by simp)
    exact ⟨fun b hb' => (by cases hb'), hb.senders, fun c i hi => (hb.queued c i hi).trans hle,
      fun i hi => (hb.received i hi).trans hle⟩
  | sendSnapshot hm =>
    refine ⟨hb.batch, fun c i hi => hb.senders c i (List.mem_of_mem_eraseIdx hi), fun c i hi => ?_, hb.received⟩
    rcases List.mem_append.mp hi with hi | hi
    · exact hb.queued c i hi
    · rw [← List.mem_singleton.mp hi] at hm
      exact absurd (List.mem_of_getElem? hm) (hb.senders c i)
  | @command c j rest _ ha =>
    refine ⟨hb.batch, hb.senders, fun c i hi => ?_, fun i hi => ?_⟩
    · exact hb.queued c i (by rw [ha]; exact List.mem_cons_of_mem _ hi)
    · rcases List.mem_append.mp hi with hi | hi
      · exact hb.received i hi
      · rw [List.mem_singleton.mp hi]
        exact hb.queued c j (by rw [ha]; exact List.mem_cons_self)
  | hold _ ha =>
    refine ⟨hb.batch, hb.senders, fun c i hi => ?_, hb.received⟩
    exact hb.queued c i (by rw [ha]; exact List.mem_cons_of_mem _ hi)
  | installed _ _ => exact hb.mono (hci (by simp)) rfl rfl rfl rfl
  | refused _ _ => exact hb.mono (hci (by simp)) rfl rfl rfl rfl
  | snapshot _ _ => exact hb.mono (hci (by simp)) rfl rfl rfl rfl
  | restart =>
    exact ⟨fun b hb' => (by cases hb'), fun c i hi => (by cases hi), fun c i hi => (by cases hi),
      fun i hi => (by cases hi)⟩

variable {h h' : Ledger (Fin N) (LogEntry C)} {s : Fin N} {σ : Cluster N C}

theorem ServerRel.handle {srv : Server N C} (hr : ServerRel h s srv) (hle : h.Le h')
    {rf : Raft N C (Snapshot C)} {votes : Nat → Nat} (ht : Tracks h' s rf) (hg : Grows srv.rf rf) :
    ServerRel h' s { srv with rf, votes } where
  tracks := ht
  pending snap t i hb := hle.of_committed ((hr.pending snap t i hb).mono hg.bound)
  bounded := hr.bounded.mono hg.commit rfl rfl rfl rfl

theorem ServerRel.act {srv srv' : Server N C} {l : Local N C} {out : List (Packet N C)} (hr : ServerRel h s srv)
    (hact : srv.Act l srv' out) (hle : h.Le h') (ht : Tracks h' s srv'.rf)
    (hci : l ≠ .restart → srv.rf.commitIndex ≤ srv'.rf.commitIndex) (hbd : l ≠ .restart → srv.rf.bound ≤ srv'.rf.bound) :
    ServerRel h' s srv' where
  tracks := ht
  pending snap t i hb := by
    by_cases hl : l = .restart
    · subst hl
      cases hact
      simp [Server.Brings, Server.boot] at hb
    · exact hle.of_committed ((hr.pending snap t i (hact.brings hb)).mono (hbd hl))
  bounded := hact.bounded hr.bounded hci

/-! ## Local steps -/

theorem Rel.act_tracks (hr : Rel h σ) {l : Local N C} {srv : Server N C} {out : List (Packet N C)}
    (hact : (σ.server s).Act l srv out) :
    ∃ h', Moves s h h' ∧ ServerRel h' s srv ∧ ∀ p ∈ out, p.Justified h' := by
  have hsr := hr.server s
  have ht := hsr.tracks
  have hsh := hr.shaped.server s
  have hs := hr.sound
  -- steps whose critical section is a few moves and that send nothing
  have quiet : ∀ {rf : Raft N C (Snapshot C)}, srv.rf = rf → out = [] →
      (∃ h', Moves s h h' ∧ Tracks h' s rf ∧ Grows (σ.server s).rf rf) →
      ∃ h', Moves s h h' ∧ ServerRel h' s srv ∧ ∀ p ∈ out, p.Justified h' := by
    intro rf hrf hout hex
    obtain ⟨h', hm, ht', hg⟩ := hex
    subst hrf hout
    exact ⟨h', hm, hsr.act hact hm.le ht' (fun _ => hg.commit) (fun _ => hg.bound), fun p hp => by cases hp⟩
  have same : ∃ h', Moves s h h' ∧ Tracks h' s (σ.server s).rf ∧ Grows (σ.server s).rf (σ.server s).rf :=
    ⟨h, .refl hs, ht, .refl _⟩
  cases hact with
  | electionTimeout hst =>
    obtain ⟨hm, ht', hask⟩ := tracks_startElection hs ht hsh
    refine ⟨_, hm, hsr.act (.electionTimeout hst) hm.le ht' (fun _ => le_rfl) (fun _ => ?_), ?_⟩
    · exact (σ.server s).rf.bound_le
    · intro p hp
      obtain ⟨peer, hpeer, rfl⟩ := List.mem_map.mp hp
      have hne : peer ≠ (σ.server s).rf.me := by simpa using (List.mem_filter.mp hpeer).2
      exact ⟨hne, hask⟩
  | append hp hrep =>
    have hst := (Raft.replicateTo_append hrep).1
    obtain ⟨hsent, hid⟩ := sent_replicateTo hs ht.core hsh (ht.leading hst) hrep
    refine ⟨h, .refl hs, hsr, fun q hq => ?_⟩
    rw [List.mem_singleton.mp hq]
    rw [ht.core.me] at hp
    exact ⟨by rw [hid]; exact hp, hsent⟩
  | install hp hrep =>
    refine ⟨h, .refl hs, hsr, fun q hq => ?_⟩
    rw [List.mem_singleton.mp hq]
    exact justified_install ht hsh hp hrep
  | start c => exact quiet rfl rfl (tracks_start hs ht hsh c)
  | collect _ _ => exact quiet rfl rfl same
  | skip _ _ _ => exact quiet rfl rfl same
  | send _ _ _ => exact quiet rfl rfl same
  | @finish b _ _ =>
    refine quiet rfl rfl ⟨h, .refl hs, ?_, ?_⟩
    · have hk := Raft.keeps_applied (σ.server s).rf b.commitIndex
      unfold Raft.applied at hk ⊢
      split at hk
      · rename_i hlt
        rw [if_pos hlt]
        refine ⟨ht.core.keep .refl rfl hk rfl rfl ht.core.term ht.core.vote, fun hst => ?_, fun hst => ?_⟩
        · exact (ht.leading hst).keep .refl (fun _ _ hn => hn) rfl rfl rfl rfl le_rfl
        · exact (ht.standing hst).keep rfl
      · rename_i hlt
        rw [if_neg hlt]; exact ht
    · unfold Raft.applied
      split
      · exact .same rfl le_rfl rfl
      · exact .refl _
  | sendSnapshot _ => exact quiet rfl rfl same
  | command _ _ => exact quiet rfl rfl same
  | hold _ _ => exact quiet rfl rfl same
  | installed hh hci =>
    have hb : (σ.server s).Brings _ _ _ := Or.inr (Or.inr hh)
    have hsnap := hr.shaped _ _ _ (Or.inl ⟨s, Or.inr hb⟩)
    exact quiet rfl rfl (tracks_condInstall ht (hsr.pending _ _ _ hb) hs hsnap hci)
  | refused _ hci =>
    obtain ⟨-, rfl, -⟩ | ⟨log, -, hok, -⟩ := Raft.condInstallSnapshot_cases hci
    · exact quiet rfl rfl same
    · cases hok
  | snapshot hi hsn =>
    obtain ⟨ht', hg⟩ := tracks_snapshot hs ht hsh (hsr.bounded.received _ hi) hsn
    exact quiet rfl rfl ⟨h, .refl hs, ht', hg⟩
  | restart =>
    have ht' : Tracks h s (Raft.make (σ.server s).rf.me (σ.server s).rf.persister) :=
      tracks_make ht.core hsh (hr.saved s)
    refine ⟨h, .refl hs, hsr.act .restart .refl ht' (fun hl => absurd rfl hl) (fun hl => absurd rfl hl), ?_⟩
    intro p hp
    cases hp

/-! ## Packets -/

theorem Rel.count (hr : Rel h σ) {k e : Nat} {src : Fin N} {args : RequestVoteArgs N} {reply : RequestVoteReply}
    (hk : σ.net[k]? = some (.requestVoteReply s src e args reply)) (hst : (σ.server s).rf.state = .candidate)
    (hterm : (σ.server s).rf.currentTerm = args.term) (hv : reply.voteGranted = true) :
    ∃ V : Finset (Fin N), V.card = (σ.server s).votes args.term + 1 ∧ s ∈ V ∧
      ∀ r ∈ V, h.voted r args.term = some s ∧ (args.term, s, r) ∉ ballotsIn (σ.net.eraseIdx k) := by
  have hj := hr.packet _ (List.mem_of_getElem? hk)
  obtain ⟨hs, hvote⟩ := hj
  obtain ⟨V, hcard, hmem, hV⟩ := hr.ballots.counted s hst
  rw [hterm] at hcard hV
  -- the vote is on its way exactly once
  have hperm : ((args.term, s, src) :: ballotsIn (σ.net.eraseIdx k)).Perm (ballotsIn σ.net) := by
    obtain ⟨hlt, heq⟩ := List.getElem?_eq_some_iff.mp hk
    have := (List.getElem_cons_eraseIdx_perm hlt).filterMap Packet.ballot
    rw [heq, List.filterMap_cons_some (b := (args.term, s, src)) (by rw [hs]; rfl)] at this
    exact this
  have hnodup := hperm.nodup_iff.mpr hr.ballots.nodup
  have hin : (args.term, s, src) ∈ ballotsIn σ.net := hperm.subset List.mem_cons_self
  have hnew : src ∉ V := fun hmem => (hV src hmem).2 hin
  refine ⟨insert src V, ?_, Finset.mem_insert_of_mem hmem, fun r hrV => ?_⟩
  · rw [Finset.card_insert_of_notMem hnew, hcard]
  · rcases Finset.mem_insert.mp hrV with rfl | hrV
    · exact ⟨hvote hv, (List.nodup_cons.mp hnodup).1⟩
    · exact ⟨(hV r hrV).1, fun hm => (hV r hrV).2 (hperm.subset (List.mem_cons_of_mem _ hm))⟩

theorem Rel.receive_tracks (hr : Rel h σ) {k : Nat} {p : Packet N C} {srv : Server N C} {out : List (Packet N C)}
    (hk : σ.net[k]? = some p) (hd : p.dst = s) (hrec : (σ.server s).Receive p srv out) :
    ∃ h', Moves s h h' ∧ ServerRel h' s srv ∧ Grows (σ.server s).rf srv.rf ∧ ∀ q ∈ out, q.Justified h' := by
  have hj := hr.packet p (List.mem_of_getElem? hk)
  have hsr := hr.server s
  have ht := hsr.tracks
  have hsh := hr.shaped.server s
  have hs := hr.sound
  cases hrec with
  | requestVote dst e args =>
    obtain rfl : dst = s := hd
    obtain ⟨h', hm, ht', hg, hv⟩ := tracks_requestVote hs ht hsh hj.1 hj.2
    refine ⟨h', hm, hsr.handle hm.le ht' hg, hg, fun q hq => ?_⟩
    rw [List.mem_singleton.mp hq]
    exact ⟨rfl, hv⟩
  | requestVoteReply dst src args reply =>
    obtain rfl : dst = s := hd
    have hcount : (σ.server dst).rf.state = .candidate → (σ.server dst).rf.currentTerm = args.term →
        reply.voteGranted = true → ∃ V : Finset (Fin N), V.card = (σ.server dst).votes args.term + 1 ∧
          ∀ r ∈ V, h.voted r (σ.server dst).rf.currentTerm = some dst := by
      intro hst hterm hv
      obtain ⟨V, hcard, -, hV⟩ := hr.count hk hst hterm hv
      exact ⟨V, hcard, fun r hrV => by rw [hterm]; exact (hV r hrV).1⟩
    obtain ⟨h', hm, ht', hg⟩ := tracks_requestVoteReply hs ht hcount
    exact ⟨h', hm, hsr.handle hm.le ht' hg, hg, fun q hq => by cases hq⟩
  | appendEntries dst e hae =>
    obtain rfl : dst = s := hd
    obtain ⟨h', hm, ht', hg, hok, hno⟩ := tracks_appendEntries hs ht hsh hj.1 hj.2 hae
    refine ⟨h', hm, hsr.handle hm.le ht' hg, hg, fun q hq => ?_⟩
    rw [List.mem_singleton.mp hq]
    exact ⟨hj.1, hm.le.leader _ _ hj.2.leader, hok, hno⟩
  | appendEntriesReply dst src args reply =>
    obtain rfl : dst = s := hd
    obtain ⟨h', hm, ht', hg⟩ := tracks_appendEntriesReply hs ht hsh hj
    exact ⟨h', hm, hsr.handle hm.le ht' hg, hg, fun q hq => by cases hq⟩
  | installSnapshot dst e args =>
    obtain rfl : dst = s := hd
    obtain ⟨hne, hlead, hcm⟩ := hj
    obtain ⟨h', hm, ht', hg, hbound⟩ := tracks_installSnapshot hs ht args
    have hshape : args.data.Shaped args.lastIncludedTerm args.lastIncludedIndex :=
      hr.shaped _ _ _ (Or.inr ⟨_, List.mem_of_getElem? hk, rfl, rfl, rfl⟩)
    refine ⟨h', hm, ⟨ht', fun snap t i hb => ?_, ?_⟩, hg, fun q hq => ?_⟩
    · rcases hb with hb | hb
      · rcases List.mem_append.mp hb with hb | hb
        · exact hm.le.of_committed ((hsr.pending snap t i (Or.inl hb)).mono hg.bound)
        · obtain ⟨heq, hle⟩ := Raft.installSnapshot_msg hb
          cases heq
          show h'.Committed (Raft.bound _) args.data.entries
          rw [hbound hle]
          exact hm.le.of_committed hcm
      · exact hm.le.of_committed ((hsr.pending snap t i (Or.inr hb)).mono hg.bound)
    · have hb : Server.Bounded { σ.server dst with rf := ((σ.server dst).rf.installSnapshot args).1 } :=
        hsr.bounded.mono hg.commit rfl rfl rfl rfl
      refine ⟨hb.batch, fun c i hi => ?_, hb.queued, hb.received⟩
      rcases List.mem_append.mp hi with hi | hi
      · exact hb.senders c i hi
      · cases (Raft.installSnapshot_msg hi).1
    · rw [List.mem_singleton.mp hq]
      refine ⟨hne, hm.le.leader _ _ hlead, ?_⟩
      have := (Matched.of_committed (p := dst) hcm).mono hm.le
      rwa [hshape.length] at this
  | installSnapshotReply dst src args reply =>
    obtain rfl : dst = s := hd
    obtain ⟨h', hm, ht', hg⟩ := tracks_installSnapshotReply hs ht hj
    exact ⟨h', hm, hsr.handle hm.le ht' hg, hg, fun q hq => by cases hq⟩
  | lost => exact ⟨h, .refl hs, hsr, .refl _, fun q hq => by cases hq⟩

/-! ## Ballots -/

theorem Server.Act.ballots {srv srv' : Server N C} {l : Local N C} {out : List (Packet N C)}
    (h : srv.Act l srv' out) : l = .electionTimeout ∨ ballotsIn out = [] ∧ (srv'.rf.state = .candidate →
      srv.rf.state = .candidate ∧ srv'.rf.currentTerm = srv.rf.currentTerm ∧
        srv'.votes srv'.rf.currentTerm = srv.votes srv'.rf.currentTerm) := by
  cases h with
  | electionTimeout _ => exact Or.inl rfl
  | start c =>
    exact Or.inr ⟨rfl, fun hst => ⟨(Raft.start_state c).symm.trans hst, Raft.start_currentTerm c, rfl⟩⟩
  | finish _ _ =>
    exact Or.inr ⟨rfl, fun hst => ⟨(Raft.applied_state _).symm.trans hst, Raft.applied_currentTerm _, rfl⟩⟩
  | installed _ hc =>
    obtain ⟨-, -, hok⟩ | ⟨log, -, -, -, rfl⟩ := Raft.condInstallSnapshot_cases hc
    · cases hok
    · exact Or.inr ⟨rfl, fun hst => ⟨hst, rfl, rfl⟩⟩
  | refused _ hc =>
    obtain ⟨-, rfl, -⟩ | ⟨log, -, hok, -⟩ := Raft.condInstallSnapshot_cases hc
    · exact Or.inr ⟨rfl, fun hst => ⟨hst, rfl, rfl⟩⟩
    · cases hok
  | snapshot _ hr =>
    obtain ⟨-, rfl⟩ | ⟨entry, -, -, rfl⟩ := Raft.snapshot_cases hr
    · exact Or.inr ⟨rfl, fun hst => ⟨hst, rfl, rfl⟩⟩
    · exact Or.inr ⟨rfl, fun hst => ⟨hst, rfl, rfl⟩⟩
  | restart =>
    refine Or.inr ⟨rfl, fun hst => ?_⟩
    simp only [Server.boot, Raft.make_state] at hst
    cases hst
  | _ => exact Or.inr ⟨rfl, fun hst => ⟨hst, rfl, rfl⟩⟩

theorem Rel.election (hr : Rel h σ) (hle : h.Le h') {srv : Server N C} {out : List (Packet N C)}
    (hact : (σ.server s).Act .electionTimeout srv out) (ht : Tracks h' s srv.rf) :
    Ballots h' (σ.put s srv (σ.net ++ out)) := by
  have hc := (hr.server s).tracks.core
  cases hact with
  | electionTimeout _ =>
  have hnew : ballotsIn (((List.finRange N).filter (· ≠ (σ.server s).rf.me)).map fun peer =>
      (Packet.requestVote peer (σ.server s).epoch (σ.server s).rf.startElection.2 : Packet N C)) =
      ((List.finRange N).filter (· ≠ s)).map fun peer => ((σ.server s).rf.currentTerm + 1, s, peer) := by
    unfold ballotsIn
    rw [List.filterMap_map, ← List.filterMap_eq_map, hc.me]
    congr 1
    funext peer
    show some ((σ.server s).rf.currentTerm + 1, (σ.server s).rf.me, peer) = _
    rw [hc.me]; rfl
  have hold : ∀ r, ((σ.server s).rf.currentTerm + 1, s, r) ∉ ballotsIn σ.net := by
    intro r hm
    have := (hr.ballots.known _ _ _ hm).1
    rw [hc.term] at this
    omega
  have hterm : h'.term s = (σ.server s).rf.currentTerm + 1 := ht.core.term
  have hmem : ∀ t p r, (t, p, r) ∈ ballotsIn (σ.net ++ (((List.finRange N).filter (· ≠ (σ.server s).rf.me)).map
      fun peer => Packet.requestVote peer (σ.server s).epoch (σ.server s).rf.startElection.2)) ↔
      (t, p, r) ∈ ballotsIn σ.net ∨ t = (σ.server s).rf.currentTerm + 1 ∧ p = s ∧ r ≠ s := by
    intro t p r
    rw [ballots_append, List.mem_append, hnew]
    simp only [List.mem_map, List.mem_filter, List.mem_finRange, true_and, decide_eq_true_eq, Prod.mk.injEq]
    constructor
    · rintro (hm | ⟨q, hq, rfl, rfl, rfl⟩)
      · exact Or.inl hm
      · exact Or.inr ⟨rfl, rfl, hq⟩
    · rintro (hm | ⟨rfl, rfl, hq⟩)
      · exact Or.inl hm
      · exact Or.inr ⟨r, hq, rfl, rfl, rfl⟩
  refine ⟨?_, fun t p r hm => ?_, fun r hst => ?_⟩
  · rw [Cluster.put_net, ballots_append, hnew]
    refine List.Nodup.append hr.ballots.nodup ?_ ?_
    · refine ((List.nodup_finRange N).filter _).map ?_
      intro a b hab
      exact (Prod.mk.inj (Prod.mk.inj hab).2).2
    · intro b hb hb'
      obtain ⟨peer, -, rfl⟩ := List.mem_map.mp hb'
      exact hold peer hb
  · rw [Cluster.put_net] at hm
    rcases (hmem t p r).mp hm with hm | ⟨rfl, rfl, hrp⟩
    · obtain ⟨h1, h2⟩ := hr.ballots.known t p r hm
      exact ⟨h1.trans (hle.term p), h2⟩
    · exact ⟨hterm.ge, hrp⟩
  · rw [Cluster.put_net]
    by_cases hrs : r = s
    · subst hrs
      rw [Cluster.put_self] at hst ⊢
      refine ⟨{r}, (if_pos rfl).symm, Finset.mem_singleton_self r, fun q hq => ?_⟩
      rw [Finset.mem_singleton.mp hq]
      refine ⟨(ht.standing hst).vote, fun hm => ?_⟩
      rcases (hmem _ _ _).mp hm with hm | ⟨-, -, hne⟩
      · exact hold r hm
      · exact hne rfl
    · rw [Cluster.put_ne _ _ _ hrs] at hst ⊢
      obtain ⟨V, hcard, hs, hV⟩ := hr.ballots.counted r hst
      refine ⟨V, hcard, hs, fun q hq => ⟨hle.voted _ _ _ (hV q hq).1, fun hm => ?_⟩⟩
      rcases (hmem _ _ _).mp hm with hm | ⟨-, hrs', -⟩
      · exact (hV q hq).2 hm
      · exact hrs hrs'

theorem Raft.requestVoteReply_votes (rf : Raft N C (Snapshot C)) (votes : Nat) (args : RequestVoteArgs N)
    (reply : RequestVoteReply) :
    (rf.requestVoteReply votes args reply).2 = votes ∨ rf.state = .candidate ∧ rf.currentTerm = args.term ∧
      reply.voteGranted = true ∧ (rf.requestVoteReply votes args reply).2 = votes + 1 := by
  unfold Raft.requestVoteReply
  split
  · exact Or.inl rfl
  · split
    · exact Or.inl rfl
    · rename_i hold
      push Not at hold
      split
      · rename_i hv
        split
        · exact Or.inr ⟨hold.1, hold.2, hv, rfl⟩
        · exact Or.inr ⟨hold.1, hold.2, hv, rfl⟩
      · exact Or.inl rfl

theorem Rel.receive_ballots (hr : Rel h σ) (hle : h.Le h') {k : Nat} {p : Packet N C} {srv : Server N C}
    {out : List (Packet N C)} (hk : σ.net[k]? = some p) (hd : p.dst = s) (hrec : (σ.server s).Receive p srv out)
    (hg : Grows (σ.server s).rf srv.rf) : Ballots h' (σ.put s srv (σ.net.eraseIdx k ++ out)) := by
  have hsub : (ballotsIn (σ.net.eraseIdx k)).Subperm (ballotsIn σ.net) :=
    ((List.eraseIdx_sublist σ.net k).filterMap _).subperm
  have other : ballotsIn out = [] → srv.votes = (σ.server s).votes →
      Ballots h' (σ.put s srv (σ.net.eraseIdx k ++ out)) := by
    intro hout hv
    refine hr.ballots.keep hle ?_ fun hst => ⟨(hg.candidate hst).1, (hg.candidate hst).2, by rw [hv]⟩
    rw [ballots_append, hout, List.append_nil]
    exact hsub
  cases hrec with
  | requestVote dst e args =>
    refine hr.ballots.keep hle (List.Perm.subperm ?_) fun hst => ?_
    · exact ballots_deliver hk rfl
    · exact ⟨(hg.candidate hst).1, (hg.candidate hst).2, rfl⟩
  | requestVoteReply dst src args reply =>
    obtain rfl : dst = s := hd
    rw [List.append_nil]
    by_cases hcand : ((σ.server dst).rf.requestVoteReply ((σ.server dst).votes args.term) args reply).1.state =
        .candidate
    · obtain ⟨hst, hct⟩ := hg.candidate hcand
      rcases (σ.server dst).rf.requestVoteReply_votes ((σ.server dst).votes args.term) args reply with
        hv | ⟨-, hterm, hgr, hv⟩
      · refine hr.ballots.keep hle hsub fun _ => ⟨hst, hct, ?_⟩
        simp only [hv]
        split
        · rename_i heq; rw [heq]
        · rfl
      · obtain ⟨V, hcard, hmem, hV⟩ := hr.count hk hst hterm hgr
        -- the other servers as before, this one with the new vote
        have hbase : Ballots h' (σ.put dst (σ.server dst) (σ.net.eraseIdx k)) :=
          hr.ballots.keep hle hsub fun h => ⟨h, rfl, rfl⟩
        refine ⟨hbase.nodup, hbase.known, fun r hr' => ?_⟩
        by_cases hrd : r = dst
        · subst hrd
          have hct' : ((σ.server r).rf.requestVoteReply ((σ.server r).votes args.term) args reply).1.currentTerm =
              args.term := hct.trans hterm
          rw [Cluster.put_self] at hr' ⊢
          simp only [hct', hv, if_true]
          exact ⟨V, hcard, hmem, fun q hq => ⟨hle.voted _ _ _ (hV q hq).1, (hV q hq).2⟩⟩
        · have := hbase.counted r
          rw [Cluster.put_ne _ _ _ hrd] at this hr' ⊢
          exact this hr'
    · exact hr.ballots.keep hle hsub fun hst => absurd hst hcand
  | appendEntries dst e _ => exact other rfl rfl
  | appendEntriesReply dst src args reply => exact other rfl rfl
  | installSnapshot dst e args => exact other rfl rfl
  | installSnapshotReply dst src args reply => exact other rfl rfl
  | lost => exact other rfl rfl

/-! ## Runs -/

theorem Rel.step (hr : Rel h σ) {a : Action N C} {σ' : Cluster N C} (hstep : σ.step a = some σ') :
    ∃ h', h ≤ h' ∧ Rel h' σ' := by
  have hsaved := Cluster.saved_step hr.saved hstep
  have hshaped := Cluster.shaped_step hr.saved hr.shaped hstep
  obtain ⟨s, l, srv, out, rfl, hl, rfl⟩ | ⟨k, p, srv, out, rfl, hk, hrc, rfl⟩ | ⟨k, rfl, -, rfl⟩ :=
    Cluster.step_cases hstep
  · have hact := Server.act_cases hl
    obtain ⟨h', hm, hsrv, hout⟩ := hr.act_tracks hact
    refine ⟨h', hm.le, hr.put hm hsaved hshaped hsrv (fun p hp => ?_) ?_⟩
    · rcases List.mem_append.mp hp with hp | hp
      · exact Or.inl hp
      · exact Or.inr (hout p hp)
    · rcases hact.ballots with rfl | ⟨hnone, hcand⟩
      · exact hr.election hm.le hact hsrv.tracks
      · refine hr.ballots.keep hm.le ?_ hcand
        rw [ballots_append, hnone, List.append_nil]
  · have hrec := Server.receive_cases hrc
    obtain ⟨h', hm, hsrv, hg, hout⟩ := hr.receive_tracks hk rfl hrec
    refine ⟨h', hm.le, hr.put hm hsaved hshaped hsrv (fun q hq => ?_) (hr.receive_ballots hm.le hk rfl hrec hg)⟩
    rcases List.mem_append.mp hq with hq | hq
    · exact Or.inl (List.mem_of_mem_eraseIdx hq)
    · exact Or.inr (hout q hq)
  · have hsub : (ballotsIn (σ.net.eraseIdx k)).Sublist (ballotsIn σ.net) :=
      (List.eraseIdx_sublist σ.net k).filterMap _
    refine ⟨h, le_refl h, hr.sound, hsaved, hshaped, hr.server,
      fun p hp => hr.packet p (List.mem_of_mem_eraseIdx hp), ?_, fun t p r hm => ?_, fun s hst => ?_⟩
    · exact hr.ballots.nodup.sublist hsub
    · exact hr.ballots.known t p r (hsub.subset hm)
    · obtain ⟨V, hcard, hmem, hV⟩ := hr.ballots.counted s hst
      exact ⟨V, hcard, hmem, fun q hq => ⟨(hV q hq).1, fun hm => (hV q hq).2 (hsub.subset hm)⟩⟩

theorem Rel.init : Rel (Ledger.start (Fin N) (LogEntry C)) (Cluster.init N C) where
  sound := Ledger.Sound.start _
  saved := Cluster.saved_init
  shaped := Cluster.shaped_init
  server s := by
    refine ⟨⟨?_, fun hst => (by cases hst), fun hst => (by cases hst)⟩, fun snap t i hb => ?_, ?_⟩
    · exact ⟨rfl, rfl, rfl, le_rfl, rfl, fun _ => rfl, le_rfl, le_rfl, Or.inl rfl⟩
    · simp [Server.Brings, Cluster.init, Server.boot] at hb
    · exact ⟨fun b hb => (by cases hb), fun c i hi => (by cases hi), fun c i hi => (by cases hi),
        fun i hi => (by cases hi)⟩
  packet p hp := by cases hp
  ballots := ⟨List.nodup_nil, fun t p r hm => (by cases hm), fun s hst => by cases hst⟩

/-- Along every run there is one growing history that the cluster follows. -/
theorem RaftRun.ledger (r : RaftRun N C) :
    ∃ g : Nat → Ledger (Fin N) (LogEntry C), (∀ k, Rel (g k) (r.state k)) ∧ Monotone g :=
  r.history r.meets_true Rel.init fun _ _ _ _ hr _ hstep => hr.step hstep

end

end DistLab
