import DistLab.Raft.MatchSound

/-!
# Delivery to the service

The applier copies the committed entries under the lock and sends them after
unlocking. `Applying` says what then holds at every moment: the batch is the
part of the log it was taken from, and every index up to `reach` was sent or is
covered by a snapshot, so nothing is skipped and every label is right.
-/

namespace DistLab

section
variable {N : Nat} {C : Type}

/-! ## What the critical sections leave alone -/

theorem Server.Receive.lastApplied {srv srv' : Server N C} {p : Packet N C} {out : List (Packet N C)}
    (h : srv.Receive p srv' out) : srv'.rf.lastApplied = srv.rf.lastApplied := by
  cases h with
  | requestVote dst e args =>
    simp only [Raft.requestVote]
    split_ifs <;> rfl
  | requestVoteReply dst src args reply =>
    simp only [Raft.requestVoteReply]
    split_ifs <;> rfl
  | appendEntries dst e hae =>
    rcases Raft.appendEntries_cases hae with ⟨-, rfl, -⟩ | ⟨-, rfl, -⟩ | ⟨-, hp1, -, -, hacc, -⟩
    · rfl
    · exact Raft.newTerm_lastApplied _
    · have heq := Raft.acceptEntries_eq (by simpa using hp1) hacc
      simp only at heq
      rw [heq]
      split <;> exact Raft.newTerm_lastApplied _
  | appendEntriesReply dst src args reply =>
    have hcommit : ∀ rf : Raft N C (Snapshot C), rf.tryCommit.lastApplied = rf.lastApplied := by
      intro rf
      unfold Raft.tryCommit
      rcases rf.tryCommitFrom_cases rf.lastLogIndex with heq | ⟨m, -, -, -, -, heq⟩ <;> rw [heq]
    rcases srv.rf.appendEntriesReply_cases src args reply with ⟨-, heq⟩ | ⟨-, heq⟩ | ⟨-, -, -, ⟨-, m, -, heq⟩ | ⟨-, heq⟩⟩
    · simp only [heq, Raft.stepDown, Raft.persist]
    · simp only [heq]
    · simp only [heq]
      exact hcommit _
    · simp only [heq, Raft.setNextIndex]
  | installSnapshot dst e args =>
    simp only [Raft.installSnapshot, Raft.newTerm]
    split_ifs <;> rfl
  | installSnapshotReply dst src args reply =>
    simp only [Raft.installSnapshotReply]
    split_ifs <;> rfl
  | lost => rfl

theorem Server.Act.commit_le {srv srv' : Server N C} {l : Local N C} {out : List (Packet N C)}
    (h : srv.Act l srv' out) : l = .restart ∨ srv.rf.commitIndex ≤ srv'.rf.commitIndex := by
  cases h with
  | start c =>
    right
    simp only [Raft.start]
    split <;> exact le_rfl
  | finish _ _ =>
    right
    simp only [Raft.applied]
    split <;> exact le_rfl
  | installed _ hc =>
    obtain ⟨-, -, hok⟩ | ⟨log, hlt, -, -, rfl⟩ := Raft.condInstallSnapshot_cases hc
    · cases hok
    · exact Or.inr hlt.le
  | refused _ hc =>
    obtain ⟨-, rfl, -⟩ | ⟨log, -, hok, -⟩ := Raft.condInstallSnapshot_cases hc
    · exact Or.inr le_rfl
    · cases hok
  | snapshot _ hr =>
    obtain ⟨-, rfl⟩ | ⟨entry, -, -, rfl⟩ := Raft.snapshot_cases hr
    · exact Or.inr le_rfl
    · exact Or.inr le_rfl
  | restart => exact Or.inl rfl
  | _ => exact Or.inr le_rfl

/-! ## The batch -/

theorem Raft.collectLoop_eq {rf : Raft N C (Snapshot C)} (hsh : rf.Shaped) : ∀ k i, rf.lastIncludedIndex < i →
    i + k ≤ rf.lastLogIndex + 1 → rf.collectLoop k i = (rf.fullLog.drop (i - 1)).take k
  | 0, i, _, _ => by simp [Raft.collectLoop]
  | k + 1, i, hi, hk => by
    have ih := Raft.collectLoop_eq hsh k (i + 1) (by omega) (by omega)
    have hlen : i - rf.lastIncludedIndex - 1 < rf.log.length := by unfold Raft.lastLogIndex at hk; omega
    have hF : i - 1 < rf.fullLog.length := by rw [Raft.length_fullLog hsh]; omega
    have hentry : rf.log[i - rf.lastIncludedIndex - 1]? = some rf.fullLog[i - 1] := by
      rw [← List.getElem?_eq_getElem hF, Raft.getElem_fullLog hsh (by omega)]
      congr 1; omega
    unfold Raft.collectLoop
    rw [if_neg (by omega), Raft.toSliceIndex_eq hi]
    simp only [goIndex_natCast, hentry]
    rw [if_neg (by omega), List.drop_eq_getElem_cons hF, List.take_succ_cons, ih]
    congr 3; omega

/-- The index up to which everything was sent or skipped for good. -/
def Server.reach (srv : Server N C) : Nat :=
  match srv.applier with
  | none => srv.rf.lastApplied
  | some b => max srv.rf.lastApplied (b.next - 1)

/-- The index was sent by this incarnation, or a snapshot covers it. -/
def Server.Covered (srv : Server N C) (j : Nat) : Prop :=
  j ∈ srv.sent ∨ j ≤ srv.service.restored ∨ ∃ m ∈ srv.service.installed, j ≤ m

structure BatchOk (rf : Raft N C (Snapshot C)) (b : Raft.Batch C) : Prop where
  sum : b.next + b.entries.length = b.commitIndex + 1
  commit : b.commitIndex ≤ rf.commitIndex
  fresh : b.lastIncludedIndex < b.next
  entries : ∀ n e, b.entries[n]? = some e → rf.fullLog[b.next - 1 + n]? = some e

structure Applying (srv : Server N C) : Prop where
  batch : ∀ b, srv.applier = some b → BatchOk srv.rf b
  index : srv.rf.lastIncludedIndex ≤ srv.reach
  applied : srv.rf.lastApplied ≤ srv.rf.commitIndex
  sent : ∀ i ∈ srv.sent, i ≤ srv.reach
  queued : ∀ c i, .command c i ∈ srv.applyCh → i ∈ srv.sent
  received : ∀ i ∈ srv.service.commands, i ∈ srv.sent
  covered : ∀ j, 1 ≤ j → j ≤ srv.reach → srv.Covered j

/-- Committed entries stay where they are, so a batch stays part of the log. -/
theorem BatchOk.mono {rf rf' : Raft N C (Snapshot C)} {b : Raft.Batch C} (hb : BatchOk rf b)
    (hci : rf.commitIndex ≤ rf'.commitIndex) (hF : rf.fullLog.take rf.commitIndex <+: rf'.fullLog) :
    BatchOk rf' b where
  sum := hb.sum
  commit := hb.commit.trans hci
  fresh := hb.fresh
  entries n e hn := by
    have hlt : n < b.entries.length := (List.getElem?_eq_some_iff.mp hn).1
    have hsum := hb.sum
    have hcommit := hb.commit
    have hfresh := hb.fresh
    apply prefix_getElem hF
    rw [List.getElem?_take_of_lt (by omega)]
    exact hb.entries n e hn

theorem batchOk_collect {rf : Raft N C (Snapshot C)} {b : Raft.Batch C} (hsh : rf.Shaped)
    (hci : rf.commitIndex ≤ rf.lastLogIndex) (hla : rf.lastIncludedIndex ≤ rf.lastApplied)
    (hc : rf.collect = some b) : BatchOk rf b ∧ b.next = rf.lastApplied + 1 ∧ b.commitIndex = rf.commitIndex := by
  unfold Raft.collect at hc
  split at hc
  · cases hc
  · rename_i hlt
    cases hc
    have heq := Raft.collectLoop_eq hsh (rf.commitIndex - rf.lastApplied) (rf.lastApplied + 1) (by omega) (by omega)
    have hlen : (rf.collectLoop (rf.commitIndex - rf.lastApplied) (rf.lastApplied + 1)).length =
        rf.commitIndex - rf.lastApplied := by
      rw [heq, List.length_take, List.length_drop, Raft.length_fullLog hsh]
      omega
    refine ⟨⟨?_, le_rfl, ?_, fun n e hn => ?_⟩, rfl, rfl⟩
    · show rf.lastApplied + 1 + _ = rf.commitIndex + 1
      rw [hlen]; omega
    · show rf.lastIncludedIndex < rf.lastApplied + 1
      omega
    · have hlt : n < rf.commitIndex - rf.lastApplied := by
        rw [← hlen]; exact (List.getElem?_eq_some_iff.mp hn).1
      simp only at hn ⊢
      rw [heq, List.getElem?_take_of_lt hlt, List.getElem?_drop] at hn
      exact hn

/-! ## The applier in one step -/

theorem Server.reach_some {srv : Server N C} {b : Raft.Batch C} (hb : srv.applier = some b) :
    srv.reach = max srv.rf.lastApplied (b.next - 1) := by
  unfold Server.reach; rw [hb]

theorem Server.reach_none {srv : Server N C} (hb : srv.applier = none) : srv.reach = srv.rf.lastApplied := by
  unfold Server.reach; rw [hb]

theorem Applying.reach_le {srv : Server N C} (ha : Applying srv) : srv.reach ≤ srv.rf.commitIndex := by
  have happ := ha.applied
  cases hb : srv.applier with
  | none => rw [Server.reach_none hb]; exact happ
  | some b =>
    have hok := ha.batch b hb
    have := hok.sum
    have := hok.commit
    rw [Server.reach_some hb]
    omega

theorem Applying.keep {srv srv' : Server N C} (ha : Applying srv) (hap : srv'.applier = srv.applier)
    (hla : srv'.rf.lastApplied = srv.rf.lastApplied) (hidx : srv'.rf.lastIncludedIndex ≤ srv.reach)
    (hci : srv.rf.commitIndex ≤ srv'.rf.commitIndex)
    (hF : srv.rf.fullLog.take srv.rf.commitIndex <+: srv'.rf.fullLog) (hs : srv'.sent = srv.sent)
    (hq : ∀ c i, .command c i ∈ srv'.applyCh → .command c i ∈ srv.applyCh)
    (hv : ∀ i ∈ srv'.service.commands, i ∈ srv.service.commands ∨ i ∈ srv.sent)
    (hr : srv'.service.restored = srv.service.restored) (hi : srv'.service.installed = srv.service.installed) :
    Applying srv' := by
  have hreach : srv'.reach = srv.reach := by unfold Server.reach; rw [hap, hla]
  refine ⟨fun b hb => ?_, ?_, ?_, ?_, fun c i hm => ?_, fun i hm => ?_, fun j h1 hj => ?_⟩
  · exact (ha.batch b (hap ▸ hb)).mono hci hF
  · rw [hreach]; exact hidx
  · rw [hla]; exact ha.applied.trans hci
  · rw [hs, hreach]; exact ha.sent
  · rw [hs]; exact ha.queued c i (hq c i hm)
  · rw [hs]
    rcases hv i hm with hm | hm
    · exact ha.received i hm
    · exact hm
  · rw [hreach] at hj
    have := ha.covered j h1 hj
    unfold Server.Covered at this ⊢
    rwa [hs, hr, hi]

theorem Applying.send {srv srv' : Server N C} (ha : Applying srv) {b : Raft.Batch C} {e : LogEntry C}
    {rest : List (LogEntry C)} (hb : srv.applier = some b) (he : b.entries = e :: rest)
    (hsrv : srv' = { srv with
      applier := some { b with next := b.next + 1, entries := rest }
      applyCh := srv.applyCh ++ [.command e.command b.next]
      sent := srv.sent ++ [b.next] }) : Applying srv' := by
  have hok := ha.batch b hb
  have hsum := hok.sum
  rw [he, List.length_cons] at hsum
  have hfresh := hok.fresh
  have hreach := Server.reach_some hb
  have hreach' : srv'.reach = max srv.rf.lastApplied b.next := by rw [hsrv]; rfl
  have hle : srv.reach ≤ srv'.reach := by rw [hreach, hreach']; omega
  have hnext : b.next ≤ srv'.reach := by rw [hreach']; exact le_max_right _ _
  have hlii : srv'.rf = srv.rf := by rw [hsrv]
  refine ⟨fun b' hb' => ?_, ?_, ?_, fun i hi => ?_, fun c i hm => ?_, fun i hm => ?_, fun j h1 hj => ?_⟩
  · rw [hsrv] at hb'
    cases hb'
    rw [hlii]
    refine ⟨by simp only; omega, hok.commit, by simp only; omega, fun n d hn => ?_⟩
    have := hok.entries (n + 1) d (by rw [he]; exact hn)
    simp only
    rw [← this]
    congr 1; omega
  · rw [hlii]; exact ha.index.trans hle
  · rw [hlii]; exact ha.applied
  · rw [hsrv] at hi
    rcases List.mem_append.mp hi with hi | hi
    · exact (ha.sent i hi).trans hle
    · rw [List.mem_singleton.mp hi]; exact hnext
  · rw [hsrv] at hm ⊢
    rcases List.mem_append.mp hm with hm | hm
    · exact List.mem_append_left _ (ha.queued c i hm)
    · cases List.mem_singleton.mp hm
      exact List.mem_append_right _ (List.mem_singleton_self _)
  · rw [hsrv] at hm ⊢
    exact List.mem_append_left _ (ha.received i hm)
  · rw [hsrv]
    by_cases hjn : j = b.next
    · rw [hjn]; exact Or.inl (List.mem_append_right _ (List.mem_singleton_self _))
    · have hj' : j ≤ srv.reach := by rw [hreach'] at hj; rw [hreach]; omega
      rcases ha.covered j h1 hj' with hs | hs
      · exact Or.inl (List.mem_append_left _ hs)
      · exact Or.inr hs

theorem Raft.applied_lastApplied (rf : Raft N C (Snapshot C)) (c : Nat) :
    (rf.applied c).lastApplied = max rf.lastApplied c := by
  unfold Raft.applied
  split
  · show c = _
    omega
  · omega

theorem Applying.reach_finish {srv : Server N C} (ha : Applying srv) {b : Raft.Batch C} (hb : srv.applier = some b)
    (he : b.entries = []) :
    ({ srv with rf := srv.rf.applied b.commitIndex, applier := none } : Server N C).reach = srv.reach := by
  have hsum := (ha.batch b hb).sum
  rw [he, List.length_nil] at hsum
  rw [Server.reach_some hb, Server.reach_none rfl, Raft.applied_lastApplied]
  omega

theorem Applying.finish {srv : Server N C} (ha : Applying srv) {b : Raft.Batch C} (hb : srv.applier = some b)
    (he : b.entries = []) : Applying { srv with rf := srv.rf.applied b.commitIndex, applier := none } := by
  have hreach := ha.reach_finish hb he
  have hci : (srv.rf.applied b.commitIndex).commitIndex = srv.rf.commitIndex := by
    unfold Raft.applied; split <;> rfl
  refine ⟨fun b' hb' => (by cases hb'), ?_, ?_, ?_, ha.queued, ha.received, fun j h1 hj => ?_⟩
  · rw [hreach, (Raft.keeps_applied srv.rf _).index]; exact ha.index
  · have hcommit := (ha.batch b hb).commit
    have happ := ha.applied
    rw [Raft.applied_lastApplied, hci]
    omega
  · rw [hreach]; exact ha.sent
  · rw [hreach] at hj; exact ha.covered j h1 hj

/-- An accepted snapshot covers all that was sent before. -/
theorem Applying.reach_installed {srv : Server N C} (ha : Applying srv) {snap : Snapshot C} {t i : Nat}
    {rf : Raft N C (Snapshot C)} (hc : srv.rf.condInstallSnapshot t i snap = some (rf, true))
    (service : Service C) : ({ srv with rf, service } : Server N C).reach = i := by
  obtain ⟨-, -, hok⟩ | ⟨log, hlt, -, -, rfl⟩ := Raft.condInstallSnapshot_cases hc
  · cases hok
  cases hb : srv.applier with
  | none => simp only [Server.reach]; rfl
  | some b =>
    have hsum := (ha.batch b hb).sum
    have hcommit := (ha.batch b hb).commit
    simp only [Server.reach]
    show max i (b.next - 1) = i
    omega

theorem Applying.installed {srv : Server N C} (ha : Applying srv) {snap : Snapshot C} {t i : Nat}
    {rf : Raft N C (Snapshot C)} (hc : srv.rf.condInstallSnapshot t i snap = some (rf, true))
    (hF : srv.rf.fullLog.take srv.rf.commitIndex <+: rf.fullLog) :
    Applying { srv with
      rf
      service := { srv.service with
        lastApplied := i
        installed := srv.service.installed ++ [i]
        holding := none } } := by
  have hle := ha.reach_le
  have hreach := ha.reach_installed hc
  obtain ⟨-, -, hok⟩ | ⟨log, hlt, -, -, rfl⟩ := Raft.condInstallSnapshot_cases hc
  · cases hok
  refine ⟨fun b hb => ?_, ?_, le_rfl, fun j hj => ?_, ha.queued, ha.received, fun j h1 hj => ?_⟩
  · exact (ha.batch b hb).mono hlt.le hF
  · rw [hreach]; exact le_rfl
  · rw [hreach]
    have := ha.sent j hj
    omega
  · rw [hreach] at hj
    exact Or.inr (Or.inr ⟨i, List.mem_append_right _ (List.mem_singleton_self i), hj⟩)

theorem Applying.restart {srv : Server N C} (hsh : srv.rf.Shaped) (hsv : srv.rf.Saved) :
    Applying (Server.boot srv.rf.me srv.rf.persister (srv.epoch + 1) : Server N C) := by
  obtain ⟨hh, hci, hla⟩ := Raft.make_of_saved hsv srv.rf.me
  have hlii : (Raft.make srv.rf.me srv.rf.persister).lastIncludedIndex = srv.rf.lastIncludedIndex :=
    congrArg HardState.lastIncludedIndex hh
  have hreach : (Server.boot srv.rf.me srv.rf.persister (srv.epoch + 1) : Server N C).reach =
      srv.rf.lastIncludedIndex := hla
  refine ⟨fun b hb => (by cases hb), ?_, ?_, fun i hi => (by cases hi), fun c i hi => (by cases hi),
    fun i hi => (by cases hi), fun j h1 hj => ?_⟩
  · rw [hreach]; exact hlii.le
  · show (Raft.make srv.rf.me srv.rf.persister).lastApplied ≤ (Raft.make srv.rf.me srv.rf.persister).commitIndex
    rw [hla, hci]
  · rw [hreach] at hj
    refine Or.inr (Or.inl ?_)
    show j ≤ srv.rf.persister.snapshot.index
    rw [hsh.index]; exact hj

theorem Applying.act {srv srv' : Server N C} {l : Local N C} {out : List (Packet N C)} (ha : Applying srv)
    (hact : srv.Act l srv' out) (hsh : srv.rf.Shaped) (hsv : srv.rf.Saved)
    (hci : srv.rf.commitIndex ≤ srv.rf.lastLogIndex) (hsend : ∀ c i, .command c i ∉ srv.senders)
    (hF : l ≠ .restart → srv.rf.fullLog.take srv.rf.commitIndex <+: srv'.rf.fullLog) : Applying srv' := by
  have hcm := hact.commit_le
  -- the critical section of a step that the applier and the service do not see
  have quiet : ∀ {rf : Raft N C (Snapshot C)} {votes : Nat → Nat}, srv' = { srv with rf, votes } →
      l ≠ .restart → rf.lastApplied = srv.rf.lastApplied → rf.lastIncludedIndex ≤ srv.reach → Applying srv' := by
    intro rf votes heq hl hla hidx
    have hci' := hcm.resolve_left hl
    have hF' := hF hl
    subst heq
    exact ha.keep rfl hla hidx hci' hF' rfl (fun _ _ hm => hm) (fun _ hm => Or.inl hm) rfl rfl
  cases hact with
  | electionTimeout _ => exact quiet rfl (by simp) rfl ha.index
  | append _ _ => exact ha
  | install _ _ => exact ha
  | start c =>
    refine quiet rfl (by simp) ?_ ?_
    · unfold Raft.start; split <;> rfl
    · rw [(Raft.keeps_start srv.rf c).index]; exact ha.index
  | @collect b hnone hc =>
    have hidx := ha.index
    have happ := ha.applied
    rw [Server.reach_none hnone] at hidx
    obtain ⟨hok, hnext, -⟩ := batchOk_collect hsh hci hidx hc
    have hreach : ({ srv with applier := some b } : Server N C).reach = srv.reach := by
      rw [Server.reach_none hnone, Server.reach_some rfl, hnext]
      simp
    refine ⟨fun b' hb' => ?_, ?_, happ, ?_, ha.queued, ha.received, fun j h1 hj => ?_⟩
    · cases hb'; exact hok
    · rw [hreach]; exact ha.index
    · rw [hreach]; exact ha.sent
    · rw [hreach] at hj; exact ha.covered j h1 hj
  | skip hb _ hle => exact absurd (ha.batch _ hb).fresh (Nat.not_lt.mpr hle)
  | send hb he _ => exact ha.send hb he rfl
  | finish hb he => exact ha.finish hb he
  | sendSnapshot hm =>
    refine ha.keep rfl rfl ha.index le_rfl ( List.take_prefix _ _) rfl (fun c i hin => ?_)
      (fun _ hv => Or.inl hv) rfl rfl
    rcases List.mem_append.mp hin with hin | hin
    · exact hin
    · rw [← List.mem_singleton.mp hin] at hm
      exact absurd (List.mem_of_getElem? hm) (hsend c i)
  | @command c j rest _ hq =>
    refine ha.keep rfl rfl ha.index le_rfl ( List.take_prefix _ _) rfl (fun c i hin => ?_) (fun i hv => ?_) rfl rfl
    · rw [hq]; exact List.mem_cons_of_mem _ hin
    · rcases List.mem_append.mp hv with hv | hv
      · exact Or.inl hv
      · rw [List.mem_singleton.mp hv]
        exact Or.inr (ha.queued c j (by rw [hq]; exact List.mem_cons_self))
  | hold _ hq =>
    refine ha.keep rfl rfl ha.index le_rfl ( List.take_prefix _ _) rfl (fun c i hin => ?_)
      (fun _ hv => Or.inl hv) rfl rfl
    rw [hq]; exact List.mem_cons_of_mem _ hin
  | installed _ hc => exact ha.installed hc (hF (by simp))
  | refused _ hc =>
    obtain ⟨-, rfl, -⟩ | ⟨log, -, hok, -⟩ := Raft.condInstallSnapshot_cases hc
    · exact ha.keep rfl rfl ha.index le_rfl ( List.take_prefix _ _) rfl (fun _ _ hm => hm)
        (fun _ hv => Or.inl hv) rfl rfl
    · cases hok
  | snapshot hi hr =>
    have hle := ha.sent _ (ha.received _ hi)
    obtain ⟨-, rfl⟩ | ⟨entry, -, -, rfl⟩ := Raft.snapshot_cases hr
    · exact ha
    · exact quiet rfl (by simp) rfl hle
  | restart => exact .restart hsh hsv

theorem Server.Receive.rest {srv srv' : Server N C} {p : Packet N C} {out : List (Packet N C)}
    (h : srv.Receive p srv' out) : srv'.applier = srv.applier ∧ srv'.applyCh = srv.applyCh ∧ srv'.sent = srv.sent ∧
      srv'.service = srv.service := by
  cases h <;> exact ⟨rfl, rfl, rfl, rfl⟩

theorem Applying.receive {srv srv' : Server N C} {p : Packet N C} {out : List (Packet N C)} (ha : Applying srv)
    (hrec : srv.Receive p srv' out) (hci : srv.rf.commitIndex ≤ srv'.rf.commitIndex)
    (hF : srv.rf.fullLog.take srv.rf.commitIndex <+: srv'.rf.fullLog) : Applying srv' := by
  obtain ⟨h1, h2, h3, h4⟩ := hrec.rest
  apply ha.keep h1 hrec.lastApplied _ hci hF h3
  · intro c i hm
    rwa [h2] at hm
  · intro i hm
    rw [h4] at hm
    exact Or.inl hm
  · rw [h4]
  · rw [h4]
  · rw [hrec.keeps.index]; exact ha.index

/-! ## Runs -/

variable {h h' : Ledger (Fin N) (LogEntry C)} {σ σ' : Cluster N C}

theorem Rel.commit_kept (hr : Rel h σ) (hr' : Rel h' σ') (hle : h ≤ h') {s : Fin N}
    (hci : (σ.server s).rf.commitIndex ≤ (σ'.server s).rf.commitIndex) :
    (σ.server s).rf.fullLog.take (σ.server s).rf.commitIndex <+: (σ'.server s).rf.fullLog := by
  have hlen := hr.length_commit s
  have hlen' := hr'.length_commit s
  have hcm := Ledger.Le.of_committed hle (hr.committed s)
  have hin := List.take_prefix (σ'.server s).rf.commitIndex (σ'.server s).rf.fullLog
  rcases hr'.sound.committed_compat hcm (hr'.committed s) with hpre | hpre
  · exact hpre.trans hin
  · rw [← hpre.eq_of_length (by have := hpre.length_le; omega)]; exact hin

theorem Applying.step (hr : Rel h σ) (hr' : Rel h' σ') (hle : h ≤ h') {a : Action N C} (hstep : σ.step a = some σ')
    {s : Fin N} (ha : Applying (σ.server s)) : Applying (σ'.server s) := by
  have hsr := hr.server s
  obtain heq | ⟨l, out, -, hact⟩ | ⟨k, p, out, -, hk, hd, hrec⟩ := Cluster.server_cases hstep s
  · rw [heq]; exact ha
  · exact ha.act hact (hr.shaped.server s) (hr.saved s) hsr.tracks.core.commit_le hsr.bounded.senders
      fun hnr => hr.commit_kept hr' hle (hact.commit_le.resolve_left hnr)
  · obtain ⟨-, -, -, hg, -⟩ := hr.receive_tracks hk hd hrec
    exact ha.receive hrec hg.commit (hr.commit_kept hr' hle hg.commit)

theorem Applying.init (s : Fin N) : Applying ((Cluster.init N C).server s) :=
  ⟨fun b hb => (by cases hb), le_rfl, le_rfl, fun i hi => (by cases hi), fun c i hi => (by cases hi),
    fun i hi => (by cases hi), fun j _ hj => Or.inr (Or.inl hj)⟩

theorem RaftRun.applying (r : RaftRun N C) : ∃ g : Nat → Ledger (Fin N) (LogEntry C),
    (∀ k, Rel (g k) (r.state k) ∧ ∀ s, Applying ((r.state k).server s)) ∧ Monotone g :=
  r.history r.meets_true
    (R := fun (h : Ledger (Fin N) (LogEntry C)) σ => Rel h σ ∧ ∀ s, Applying (σ.server s))
    ⟨Rel.init, Applying.init⟩ (by
    intro h σ a σ' hr _ hstep
    obtain ⟨h', hle, hr'⟩ := hr.1.step hstep
    exact ⟨h', hle, hr', fun s => (hr.2 s).step hr.1 hr' hle hstep⟩)

structure RaftRun.Sends (r : RaftRun N C) (k : Nat) (s : Fin N) (c : C) (i : Nat) : Prop where
  act : r.act k = some (.server s .send)
  msg : ((r.state (k + 1)).server s).applyCh = ((r.state k).server s).applyCh ++ [.command c i]

theorem RaftRun.act_step (r : RaftRun N C) {k : Nat} {s : Fin N} {l : Local N C}
    (ha : r.act k = some (.server s l)) :
    ∃ out, ((r.state k).server s).Act l ((r.state (k + 1)).server s) out := by
  obtain ⟨q, l', srv, out, heq, hl, hst⟩ | ⟨_, _, _, _, heq, -⟩ | ⟨_, heq, -⟩ :=
    Cluster.step_cases (r.next_some ha)
  · cases heq
    refine ⟨out, ?_⟩
    rw [hst, Cluster.put_self]
    exact Server.act_cases hl
  · cases heq
  · cases heq

theorem RaftRun.Sends.batch {r : RaftRun N C} {k : Nat} {s : Fin N} {c : C} {i : Nat} (hs : r.Sends k s c i) :
    ∃ b e rest, ((r.state k).server s).applier = some b ∧ b.entries = e :: rest ∧ b.next = i ∧ e.command = c := by
  obtain ⟨out, hact⟩ := r.act_step hs.act
  have hmsg := hs.msg
  generalize (r.state (k + 1)).server s = srv' at hact hmsg
  cases hact with
  | skip hb he _ =>
    have := congrArg List.length hmsg
    simp at this
  | send hb he _ =>
    have := List.append_cancel_left hmsg
    simp only [List.cons.injEq, and_true, ApplyMsg.command.injEq] at this
    exact ⟨_, _, _, hb, he, this.2, this.1⟩

/-- Every command that is sent is the committed one of its index, and all
indices before it were sent by the same incarnation or are covered by a
snapshot. A batch always holds every entry from `lastApplied` up to
`commitIndex`, in order, and nothing up to `lastApplied` is ever dropped. -/
theorem delivery_complete (r : RaftRun N C) :
    (∀ k s c i, r.Sends k s c i → 1 ≤ i ∧ i ≤ ((r.state k).server s).rf.commitIndex ∧
      (∃ e, e.command = c ∧ ∀ k' q, i ≤ ((r.state k').server q).rf.commitIndex →
        ((r.state k').server q).rf.entryAt i = some e) ∧
      ∀ j, 1 ≤ j → j < i → ((r.state k).server s).Covered j) ∧
    (∀ k s, r.act k = some (.server s .collect) → ∃ b, ((r.state (k + 1)).server s).applier = some b ∧
      b.next = ((r.state k).server s).rf.lastApplied + 1 ∧
      b.entries.length = ((r.state k).server s).rf.commitIndex - ((r.state k).server s).rf.lastApplied ∧
      ∀ n e, b.entries[n]? = some e → ((r.state k).server s).rf.entryAt (b.next + n) = some e) ∧
    ∀ k s j, 1 ≤ j → j ≤ ((r.state k).server s).rf.lastApplied → ((r.state k).server s).Covered j := by
  obtain ⟨g, hg, hmono⟩ := r.applying
  refine ⟨fun k s c i hs => ?_, fun k s ha => ?_, fun k s j h1 hj => ?_⟩
  · obtain ⟨hr, happ⟩ := hg k
    obtain ⟨b, e, rest, hb, he, rfl, rfl⟩ := hs.batch
    have hok := (happ s).batch b hb
    have hsum := hok.sum
    have hcommit := hok.commit
    have hfresh := hok.fresh
    rw [he, List.length_cons] at hsum
    have hle : b.next ≤ ((r.state k).server s).rf.commitIndex := by omega
    have hentry : ((r.state k).server s).rf.entryAt b.next = some e := by
      rw [Raft.entryAt_eq (hr.shaped.server s) (by omega)]
      exact hok.entries 0 e (by rw [he]; rfl)
    refine ⟨by omega, hle, ⟨e, rfl, fun k' q hq => ?_⟩, fun j h1 hj => ?_⟩
    · have hagree : ∃ d, ((r.state k).server s).rf.entryAt b.next = some d ∧
          ((r.state k').server q).rf.entryAt b.next = some d := by
        rcases le_total k k' with hk | hk
        · exact hr.commit_agree (hg k').1 (hmono hk) s q (by omega) hle hq
        · obtain ⟨d, h1, h2⟩ := (hg k').1.commit_agree hr (hmono hk) q s (by omega) hq hle
          exact ⟨d, h2, h1⟩
      obtain ⟨d, hd, hd'⟩ := hagree
      rw [hd', ← hd, hentry]
    · apply (happ s).covered j h1
      rw [Server.reach_some hb]
      omega
  · obtain ⟨hr, happ⟩ := hg k
    obtain ⟨out, hact⟩ := r.act_step ha
    have hidx := (happ s).index
    generalize (r.state (k + 1)).server s = srv' at hact
    cases hact with
    | @collect b hnone hc =>
      rw [Server.reach_none hnone] at hidx
      obtain ⟨hok, hnext, hbc⟩ := batchOk_collect (hr.shaped.server s) (hr.server s).tracks.core.commit_le hidx hc
      refine ⟨b, rfl, hnext, ?_, fun n e hn => ?_⟩
      · have := hok.sum
        omega
      · rw [Raft.entryAt_eq (hr.shaped.server s) (by omega)]
        have := hok.entries n e hn
        rw [← this]
        congr 1; omega
  · obtain ⟨-, happ⟩ := hg k
    apply (happ s).covered j h1
    unfold Server.reach
    split
    · exact hj
    · exact hj.trans (le_max_left _ _)

theorem catchUp_sends : catchUp.Sends 8 0 7 1 ∧ 1 ≤ ((catchUp.state 8).server 0).rf.commitIndex := by
  have hsent : catchUp.Sends 8 0 7 1 := ⟨rfl, by decide +kernel⟩
  exact ⟨hsent, ((delivery_complete catchUp).1 8 0 7 1 hsent).2.1⟩

/-! ## The command of an entry -/

/-- The entry stands at the index in some server's `rf.log`, or an
`AppendEntries` request on its way carries it for that index. -/
def Cluster.Logged (σ : Cluster N C) (i : Nat) (e : LogEntry C) : Prop :=
  (∃ s, (σ.server s).rf.logAt i = some e) ∨
  ∃ dst epoch args, .appendEntries dst epoch args ∈ σ.net ∧ args.prevLogIndex < i ∧
    args.entries[i - args.prevLogIndex - 1]? = some e

theorem Rel.origin (hr : Rel h σ) {s : Fin N} {k : Nat} {e : LogEntry C}
    (he : (σ.server s).rf.fullLog[k]? = some e) : (h.log e.term)[k]? = some e := by
  have hc := (hr.server s).tracks.core
  have hsh := hr.shaped.server s
  by_cases hk : k < (σ.server s).rf.lastIncludedIndex
  · unfold Raft.fullLog at he
    rw [List.getElem?_append_left (by rw [hsh.length]; exact hk)] at he
    exact (hr.sound.committed_valid (hc.folded_committed hsh)).origin he
  · rw [hc.getElem_eq hsh (by omega)] at he
    exact (hr.sound.branch_valid s).origin he

/-- Whoever has an entry has it from the leader of its term. -/
theorem Rel.logged (hr : Rel h σ) {i : Nat} {e : LogEntry C} (hl : σ.Logged i e) :
    (h.log e.term)[i - 1]? = some e := by
  rcases hl with ⟨s, hs⟩ | ⟨dst, epoch, args, hin, hlt, he⟩
  · unfold Raft.logAt at hs
    split at hs
    · cases hs
    · apply hr.origin (s := s)
      rw [Raft.getElem_fullLog (hr.shaped.server s) (by omega), ← hs]
      congr 1; omega
  · obtain ⟨-, hsent⟩ := hr.packet _ hin
    have hle := hsent.le
    have hk : i - args.prevLogIndex - 1 < args.entries.length := (List.getElem?_eq_some_iff.mp he).1
    have htake := congrArg (·[i - 1]?) hsent.entries
    have hlen : ((h.log args.term).take args.prevLogIndex).length = args.prevLogIndex := by
      rw [List.length_take]; omega
    simp only [List.getElem?_take_of_lt (show i - 1 < args.prevLogIndex + args.entries.length by omega)] at htake
    rw [List.getElem?_append_right (by omega), hlen, show i - 1 - args.prevLogIndex = i - args.prevLogIndex - 1 by omega,
      he] at htake
    exact (hr.sound.log_valid _).origin htake

/-- What `Start` appends is in the log of the term from then on. -/
theorem Rel.started (hr' : Rel h' σ') {rf : Raft N C (Snapshot C)} (hsh : rf.Shaped) {s : Fin N} {cmd : C}
    {index term : Nat} (hst : (rf.start cmd).2 = some (index, term)) (hs : (σ'.server s).rf = (rf.start cmd).1) :
    (h'.log term)[index - 1]? = some ⟨term, cmd⟩ := by
  by_cases hl : rf.state = .leader
  · have hnl : ¬ rf.state ≠ .leader := fun hne => hne hl
    obtain ⟨-, hlog⟩ := hr'.leader_log (s := s) (by rw [hs, Raft.start_state, hl])
    simp only [Raft.start, if_neg hnl, Option.some.injEq, Prod.mk.injEq] at hst
    obtain ⟨rfl, rfl⟩ := hst
    have hfull : (rf.start cmd).1.fullLog = rf.fullLog ++ [⟨rf.currentTerm, cmd⟩] := by
      simp only [Raft.start, if_neg hnl]
      exact (List.append_assoc _ _ _).symm
    rw [hs, hfull, Raft.start_currentTerm] at hlog
    have hlen := Raft.length_fullLog hsh
    show (h'.log rf.currentTerm)[rf.lastIncludedIndex + (rf.log ++ [_]).length - 1]? = _
    rw [← hlog, List.length_append, List.length_singleton, ← Nat.add_assoc, Nat.add_sub_cancel]
    exact List.getElem?_concat_length ▸ congrArg _ hlen.symm
  · simp only [Raft.start, if_pos hl] at hst
    cases hst

/-- Entries of one index and term have one command; so whoever delivers the
entry of the index and term that `Start` returned delivers its command. -/
theorem entry_identity (r : RaftRun N C) :
    (∀ j k i d e, (r.state j).Logged i d → (r.state k).Logged i e → d.term = e.term → d.command = e.command) ∧
    ∀ j s cmd index term, r.act j = some (.server s (.start cmd)) →
      (((r.state j).server s).rf.start cmd).2 = some (index, term) →
      ∀ k p c e, r.Sends k p c index → ((r.state k).server p).rf.entryAt index = some e → e.term = term →
        c = cmd := by
  obtain ⟨g, hg, hmono⟩ := r.applying
  -- entries of one term and index in two histories are the same
  have same : ∀ {j k t i : Nat} {d e : LogEntry C}, ((g j).log t)[i]? = some d → ((g k).log t)[i]? = some e →
      d = e := by
    intro j k t i d e hd he
    have hd' := prefix_getElem ((hmono (le_max_left j k)).log t) hd
    have he' := prefix_getElem ((hmono (le_max_right j k)).log t) he
    exact Option.some.inj (hd'.symm.trans he')
  refine ⟨fun j k i d e hd he ht => ?_, fun j s cmd index term ha hst k p c e hs he ht => ?_⟩
  · have hd := (hg j).1.logged hd
    have he := (hg k).1.logged he
    rw [ht] at hd
    rw [same hd he]
  · obtain ⟨b, e', rest, hb, hcons, rfl, rfl⟩ := hs.batch
    obtain ⟨hr, happ⟩ := hg k
    have hok := (happ p).batch b hb
    have hfresh := hok.fresh
    have he' := hok.entries 0 e' (by rw [hcons]; rfl)
    rw [Raft.entryAt_eq (hr.shaped.server p) (by omega)] at he
    obtain rfl : e' = e := Option.some.inj (he'.symm.trans he)
    obtain ⟨out, hact⟩ := r.act_step ha
    have hrf : ((r.state (j + 1)).server s).rf = (((r.state j).server s).rf.start cmd).1 := by
      generalize (r.state (j + 1)).server s = srv' at hact ⊢
      cases hact
      rfl
    have hnew := (hg (j + 1)).1.started ((hg j).1.shaped.server s) hst hrf
    have hold := hr.origin he
    rw [ht] at hold
    rw [same hold hnew]

theorem catchUp_start : (((catchUp.state 3).server 0).rf.start 7).2 = some (1, 1) ∧
    ∃ c, catchUp.Sends 8 0 c 1 ∧ ((catchUp.state 8).server 0).rf.entryAt 1 = some ⟨1, c⟩ ∧ c = 7 := by
  have hstart : (((catchUp.state 3).server 0).rf.start 7).2 = some (1, 1) := by decide +kernel
  have hsent : catchUp.Sends 8 0 7 1 := ⟨rfl, by decide +kernel⟩
  have hentry : ((catchUp.state 8).server 0).rf.entryAt 1 = some ⟨1, 7⟩ := by decide +kernel
  exact ⟨hstart, 7, hsent, hentry,
    (entry_identity catchUp).2 3 0 7 1 1 rfl hstart 8 0 7 ⟨1, 7⟩ hsent hentry rfl⟩

end

end DistLab
