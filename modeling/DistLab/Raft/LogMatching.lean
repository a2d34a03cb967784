import DistLab.Raft.Safety

/-!
# Log matching

`Rel.log_step` lists what a step can do to the whole log of a server. Every
case keeps the log valid, that is, made of leaders' entries in the leaders'
order, except an installation over a suffix that does not continue the
snapshot: `CondInstallSnapshot` cuts the log at the snapshot's index without
comparing terms. In the runs in which that never happens two logs with the
same term at an index agree before it.
-/

namespace DistLab

section
variable {N : Nat} {C : Type}

/-! ## The log in one step -/

inductive LogStep (h : Ledger (Fin N) (LogEntry C)) (a : Action N C) (s : Fin N) (srv srv' : Server N C) : Prop
  | same : srv'.rf.fullLog = srv.rf.fullLog → LogStep h a s srv srv'
  | start (e : LogEntry C) : srv'.rf.state = .leader → srv'.rf.fullLog = srv.rf.fullLog ++ [e] → LogStep h a s srv srv'
  | accept (m : Nat) : m ≤ (h.log srv'.rf.currentTerm).length →
      ¬ (h.log srv'.rf.currentTerm).take m <+: srv.rf.fullLog →
      srv'.rf.fullLog = (h.log srv'.rf.currentTerm).take m → LogStep h a s srv srv'
  | install (snap : Snapshot C) (t i : Nat) : a = .server s .condInstall →
      srv.service.holding = some (snap, t, i) → srv.rf.commitIndex < i →
      srv'.rf.fullLog = snap.entries ++ srv.rf.fullLog.drop i → srv'.rf.currentTerm = srv.rf.currentTerm →
      LogStep h a s srv srv'

theorem Raft.Keeps.fullLog {rf rf' : Raft N C (Snapshot C)} (hk : Raft.Keeps rf rf') (hl : rf'.log = rf.log) :
    rf'.fullLog = rf.fullLog := by
  unfold Raft.fullLog
  rw [hk.snapshot, hl]

section
variable {S : Type} (rf : Raft N C S)

theorem Raft.requestVote_log (args : RequestVoteArgs N) : (rf.requestVote args).1.log = rf.log := by
  unfold Raft.requestVote
  split
  · rfl
  · dsimp only
    split_ifs <;> rfl

theorem Raft.requestVoteReply_log (votes : Nat) (args : RequestVoteArgs N) (reply : RequestVoteReply) :
    (rf.requestVoteReply votes args reply).1.log = rf.log := by
  unfold Raft.requestVoteReply
  split_ifs <;> rfl

theorem Raft.tryCommit_log : rf.tryCommit.log = rf.log := by
  unfold Raft.tryCommit
  rcases rf.tryCommitFrom_cases rf.lastLogIndex with heq | ⟨m, -, -, -, -, heq⟩
  · rw [heq]
  · rw [heq]

theorem Raft.appendEntriesReply_log (peer : Fin N) (args : AppendEntriesArgs N C) (reply : AppendEntriesReply) :
    (rf.appendEntriesReply peer args reply).log = rf.log := by
  rcases rf.appendEntriesReply_cases peer args reply with ⟨-, heq⟩ | ⟨-, heq⟩ | ⟨-, -, -, ⟨-, m, -, heq⟩ | ⟨-, heq⟩⟩
  · rw [heq]
    rfl
  · rw [heq]
  · rw [heq, Raft.tryCommit_log]
    rfl
  · rw [heq]
    rfl

theorem Raft.installSnapshot_log (args : InstallSnapshotArgs N S) : (rf.installSnapshot args).1.log = rf.log := by
  unfold Raft.installSnapshot
  split
  · rfl
  · dsimp only
    split <;> exact Raft.newTerm_log _

theorem Raft.installSnapshotReply_log (peer : Fin N) (args : InstallSnapshotArgs N S)
    (reply : InstallSnapshotReply) : (rf.installSnapshotReply peer args reply).log = rf.log := by
  rcases rf.installSnapshotReply_cases peer args reply with ⟨-, heq⟩ | ⟨-, heq⟩ | ⟨-, -, heq⟩
  · rw [heq]
    rfl
  · rw [heq]
  · rw [heq]
    rfl

theorem Raft.applied_log (commitIndex : Nat) : (rf.applied commitIndex).log = rf.log := by
  unfold Raft.applied
  split <;> rfl

end

variable {h : Ledger (Fin N) (LogEntry C)} {σ σ' : Cluster N C} {s : Fin N}

theorem appendEntries_fullLog {rf rf' : Raft N C (Snapshot C)} (hs : h.Sound LogEntry.term) (ht : Tracks h s rf)
    (hsh : rf.Shaped) {args : AppendEntriesArgs N C} {reply : AppendEntriesReply} (hsent : Sent h args)
    (hr : rf.appendEntries args = some (rf', reply)) :
    (rf'.fullLog = rf.fullLog ∨
      rf'.currentTerm = args.term ∧
        ¬ (h.log args.term).take (args.prevLogIndex + args.entries.length) <+: rf.fullLog ∧
        rf'.fullLog = (h.log args.term).take (args.prevLogIndex + args.entries.length)) ∧
    (reply.success = true → rf'.currentTerm = args.term ∧
      (h.log args.term).take (args.prevLogIndex + args.entries.length) <+: rf'.fullLog) := by
  rcases Raft.appendEntries_cases hr with ⟨-, rfl, hf, -⟩ | ⟨-, rfl, hf, -⟩ | ⟨hle, hp1, hp2, hpt, hacc, -⟩
  · exact ⟨Or.inl rfl, fun hv => by rw [hf] at hv; cases hv⟩
  · exact ⟨Or.inl ((Raft.keeps_newTerm rf _).fullLog (Raft.newTerm_log _)), fun hv => by rw [hf] at hv; cases hv⟩
  · have hc := ht.core
    have hmv := moves_advance hs hc hle
    obtain ⟨hc₁, hct⟩ := hc.newTerm hs hle
    have hk := Raft.keeps_newTerm rf args.term
    have hfull₁ : (rf.newTerm args.term).fullLog = rf.fullLog := hk.fullLog (Raft.newTerm_log _)
    have hsh₁ : (rf.newTerm args.term).Shaped := by
      unfold Raft.Shaped; rw [hk.snapshot, hk.term, hk.index]; exact hsh
    have heq := Raft.acceptEntries_eq (by simpa using hp1) hacc
    simp only at heq
    -- the log is the spliced one whether or not `commitIndex` moves
    have hfull : rf'.fullLog = Raft.splice rf.fullLog args.prevLogIndex args.entries := by
      have := Raft.splice_append (rf.newTerm args.term).persister.snapshot.entries (rf.newTerm args.term).log
        args.entries (args.prevLogIndex - rf.lastIncludedIndex)
      rw [hsh₁.length, Raft.newTerm_lastIncludedIndex, Nat.add_sub_cancel' hp1] at this
      rw [← hfull₁, heq, Raft.newTerm_lastIncludedIndex]
      split <;> exact this.symm
    have hterm : rf'.currentTerm = args.term := by rw [heq]; split <;> exact hct
    rcases splice_leader hmv.sound hc₁ hsh₁ (hsent.mono hmv.le) hct (by simpa using hp1) (by simpa using hp2) hpt with
      ⟨hin, hsp⟩ | ⟨hno, hsp⟩
    · rw [hfull₁] at hin hsp
      rw [hsp] at hfull
      exact ⟨Or.inl hfull, fun _ => ⟨hterm, by rw [hfull]; exact hin⟩⟩
    · rw [hfull₁] at hno hsp
      rw [hsp] at hfull
      exact ⟨Or.inr ⟨hterm, hno, hfull⟩, fun _ => ⟨hterm, by rw [hfull]; exact List.prefix_rfl⟩⟩

theorem Rel.act_log (hr : Rel h σ) {l : Local N C} {srv : Server N C} {out : List (Packet N C)}
    (hact : (σ.server s).Act l srv out) : LogStep h (.server s l) s (σ.server s) srv := by
  have hsh := hr.shaped.server s
  cases hact with
  | electionTimeout _ => exact .same rfl
  | start c =>
    by_cases hst : (σ.server s).rf.state ≠ .leader
    · exact .same (by simp only [Raft.start, if_pos hst])
    · apply LogStep.start ⟨(σ.server s).rf.currentTerm, c⟩
      · exact (Raft.start_state c).trans (Decidable.not_not.mp hst)
      · simp only [Raft.start, if_neg hst]
        exact (List.append_assoc _ _ _).symm
  | finish _ _ => exact .same ((Raft.keeps_applied _ _).fullLog (Raft.applied_log _ _))
  | installed hh hc =>
    obtain ⟨-, -, hok⟩ | ⟨log, hlt, -, hlog, rfl⟩ := Raft.condInstallSnapshot_cases hc
    · cases hok
    · refine .install _ _ _ rfl hh hlt ?_ rfl
      have hc := (hr.server s).tracks.core
      have hge := hc.commit_ge
      rw [Raft.drop_fullLog hsh (by omega)]
      rw [condInstall_log (hr.server s).tracks hlt hlog, hc.log, List.drop_drop, Nat.add_sub_cancel' (by omega)]
      rfl
  | refused _ hc =>
    obtain ⟨-, rfl, -⟩ | ⟨log, -, hok, -⟩ := Raft.condInstallSnapshot_cases hc
    · exact .same rfl
    · cases hok
  | snapshot _ hsn => exact .same (fullLog_snapshot hsh hsn)
  | restart => exact .same (fullLog_make (hr.saved s) _)
  | _ => exact .same rfl

theorem Rel.receive_log (hr : Rel h σ) {k : Nat} {a : Action N C} {p : Packet N C} {srv : Server N C}
    {out : List (Packet N C)} (hk : σ.net[k]? = some p) (hd : p.dst = s) (hrec : (σ.server s).Receive p srv out) :
    LogStep h a s (σ.server s) srv := by
  have hkeep := hrec.keeps
  cases hrec with
  | requestVote _ _ _ => exact .same (hkeep.fullLog (Raft.requestVote_log _ _))
  | requestVoteReply _ _ _ _ => exact .same (hkeep.fullLog (Raft.requestVoteReply_log _ _ _ _))
  | appendEntries dst e hae =>
    have hsent := (hr.packet _ (List.mem_of_getElem? hk)).2
    rcases (appendEntries_fullLog hr.sound (hr.server s).tracks (hr.shaped.server s) hsent hae).1 with
      heq | ⟨hterm, hno, heq⟩
    · exact .same heq
    · rw [← hterm] at hno heq
      refine .accept _ ?_ hno heq
      simp only
      rw [hterm]; exact hsent.le
  | appendEntriesReply _ _ _ _ => exact .same (hkeep.fullLog (Raft.appendEntriesReply_log _ _ _ _))
  | installSnapshot _ _ _ => exact .same (hkeep.fullLog (Raft.installSnapshot_log _ _))
  | installSnapshotReply _ _ _ _ => exact .same (hkeep.fullLog (Raft.installSnapshotReply_log _ _ _ _))
  | lost => exact .same rfl

theorem Rel.log_step (hr : Rel h σ) {a : Action N C} (hstep : σ.step a = some σ') (s : Fin N) :
    LogStep h a s (σ.server s) (σ'.server s) := by
  obtain heq | ⟨l, out, rfl, hact⟩ | ⟨k, p, out, -, hk, hd, hrec⟩ := Cluster.server_cases hstep s
  · rw [heq]; exact .same rfl
  · exact hr.act_log hact
  · exact hr.receive_log hk hd hrec

end

/-! ## Log matching -/

section
variable {N : Nat} {C : Type}

def Raft.logAt {S : Type} (rf : Raft N C S) (i : Nat) : Option (LogEntry C) :=
  if i ≤ rf.lastIncludedIndex then none else rf.log[i - rf.lastIncludedIndex - 1]?

/-- Servers with the same term at an index agree at every smaller index that
both have. -/
def Cluster.LogMatching (σ : Cluster N C) : Prop :=
  ∀ p q i t, (σ.server p).rf.termAt i = some t → (σ.server q).rf.termAt i = some t → ∀ j, j ≤ i →
    (∀ a b, (σ.server p).rf.termAt j = some a → (σ.server q).rf.termAt j = some b → a = b) ∧
    ∀ d e, (σ.server p).rf.logAt j = some d → (σ.server q).rf.logAt j = some e → d.command = e.command

structure Install (N : Nat) (C : Type) where
  server : Server N C
  term : Nat
  index : Nat

def Cluster.accepts (σ : Cluster N C) : Action N C → Option (Install N C)
  | .server s .condInstall =>
    match (σ.server s).service.holding with
    | some (_, t, i) => if (σ.server s).rf.commitIndex < i then some ⟨σ.server s, t, i⟩ else none
    | none => none
  | _ => none

theorem Cluster.accepts_of_holding {σ : Cluster N C} {s : Fin N} {snap : Snapshot C} {t i : Nat}
    (hh : (σ.server s).service.holding = some (snap, t, i)) (hlt : (σ.server s).rf.commitIndex < i) :
    ⟨σ.server s, t, i⟩ ∈ σ.accepts (.server s .condInstall) := by
  simp only [Cluster.accepts, hh, if_pos hlt, Option.mem_def]

/-- A snapshot is accepted only if the log has nothing after it, or has its term. -/
def Cluster.SafeInstall (σ : Cluster N C) (a : Action N C) : Prop :=
  ∀ x ∈ σ.accepts a, x.server.rf.lastLogIndex ≤ x.index ∨ x.server.rf.termAt x.index = some x.term

instance (σ : Cluster N C) (a : Action N C) : Decidable (σ.SafeInstall a) :=
  inferInstanceAs (Decidable (∀ x ∈ σ.accepts a, _ ∨ _))

theorem Raft.termAt_range {S : Type} {rf : Raft N C S} {i t : Nat} (h : rf.termAt i = some t) :
    rf.lastIncludedIndex ≤ i ∧ i ≤ rf.lastLogIndex := by
  unfold Raft.termAt at h
  by_cases heq : i = rf.lastIncludedIndex
  · exact ⟨heq.ge, by unfold Raft.lastLogIndex; omega⟩
  · rw [if_neg heq] at h
    by_cases hlt : i < rf.lastIncludedIndex
    · rw [if_pos hlt] at h; cases h
    · rw [if_neg hlt, Raft.toSliceIndex_eq (by omega)] at h
      simp only at h
      split at h
      · cases h
      · rename_i hout
        exact ⟨by omega, by unfold Raft.lastLogIndex; omega⟩

variable {h : Ledger (Fin N) (LogEntry C)} {σ σ' : Cluster N C}

theorem Rel.valid_step {h' : Ledger (Fin N) (LogEntry C)} (hr : Rel h σ) (hr' : Rel h' σ') (hle : h ≤ h')
    {a : Action N C} (hstep : σ.step a = some σ') (hsafe : σ.SafeInstall a) {s : Fin N}
    (hv : h.Valid LogEntry.term (σ.server s).rf.fullLog) : h'.Valid LogEntry.term (σ'.server s).rf.fullLog := by
  cases hr.log_step hstep s with
  | same heq => rw [heq]; exact Ledger.Le.valid hle hv
  | start e hst heq => rw [(hr'.leader_log hst).2]; exact hr'.sound.log_valid _
  | accept m hm hno heq =>
    rw [heq]
    exact Ledger.Le.valid hle ((hr.sound.log_valid _).sub ( List.take_prefix m _))
  | install snap t i ha hh hlt heq _ =>
    subst ha
    have hsafe : (σ.server s).rf.lastLogIndex ≤ i ∨ (σ.server s).rf.termAt i = some t :=
      hsafe _ (Cluster.accepts_of_holding hh hlt)
    have hsh := hr.shaped.server s
    have hb : (σ.server s).Brings snap t i := Or.inr (Or.inr hh)
    have hsnap := hr.shaped snap t i (Or.inl ⟨s, Or.inr hb⟩)
    have hx := hr.sound.committed_valid ((hr.server s).pending snap t i hb)
    rw [heq]
    apply Ledger.Le.valid hle
    rcases hsafe with hbeyond | hterm
    · rw [List.drop_eq_nil_of_le (by rw [Raft.length_fullLog hsh]; exact hbeyond), List.append_nil]
      exact hx
    · -- the log has the snapshot's last entry, so it already continues the snapshot
      obtain ⟨hge, hil⟩ := Raft.termAt_range hterm
      obtain ⟨k, rfl⟩ : ∃ k, i = k + 1 := ⟨i - 1, by omega⟩
      have hF : k < (σ.server s).rf.fullLog.length := by rw [Raft.length_fullLog hsh]; omega
      have hX : k < snap.entries.length := by rw [hsnap.length]; omega
      have hFk : (σ.server s).rf.fullLog[k]? = some (σ.server s).rf.fullLog[k] := List.getElem?_eq_getElem hF
      have hXk : snap.entries[k]? = some snap.entries[k] := List.getElem?_eq_getElem hX
      rw [Raft.termAt_eq hsh hge hil, lastTerm_take _ hFk, Option.some.injEq] at hterm
      have hlast := hsnap.term
      rw [← List.take_length (l := snap.entries), hsnap.length, lastTerm_take _ hXk] at hlast
      have htake := hv.agree hx hFk hXk (hterm.trans hlast.symm)
      have hall : snap.entries.take (k + 1) = snap.entries := by rw [← hsnap.length, List.take_length]
      rw [hall] at htake
      rw [← htake, List.take_append_drop]
      exact hv

theorem Rel.log_matching (hr : Rel h σ) (hv : ∀ s, h.Valid LogEntry.term (σ.server s).rf.fullLog) :
    σ.LogMatching := by
  intro p q i t hp hq j hj
  have hshp := hr.shaped.server p
  have hshq := hr.shaped.server q
  obtain ⟨hp1, hp2⟩ := Raft.termAt_range hp
  obtain ⟨hq1, hq2⟩ := Raft.termAt_range hq
  have htake : (σ.server p).rf.fullLog.take i = (σ.server q).rf.fullLog.take i := by
    rw [Raft.termAt_eq hshp hp1 hp2, Option.some.injEq] at hp
    rw [Raft.termAt_eq hshq hq1 hq2, Option.some.injEq] at hq
    cases i with
    | zero => rfl
    | succ k =>
      have hP : (σ.server p).rf.fullLog[k]? = some ((σ.server p).rf.fullLog.get ⟨k, by
        rw [Raft.length_fullLog hshp]; omega⟩) := List.getElem?_eq_getElem _
      have hQ : (σ.server q).rf.fullLog[k]? = some ((σ.server q).rf.fullLog.get ⟨k, by
        rw [Raft.length_fullLog hshq]; omega⟩) := List.getElem?_eq_getElem _
      rw [lastTerm_take _ hP] at hp
      rw [lastTerm_take _ hQ] at hq
      exact (hv p).agree (hv q) hP hQ (hp.trans hq.symm)
  have hbelow : (σ.server p).rf.fullLog.take j = (σ.server q).rf.fullLog.take j := by
    rw [← Nat.min_eq_left hj, ← List.take_take, htake, List.take_take]
  constructor
  · intro a b ha hb
    obtain ⟨ha1, ha2⟩ := Raft.termAt_range ha
    obtain ⟨hb1, hb2⟩ := Raft.termAt_range hb
    rw [Raft.termAt_eq hshp ha1 ha2, Option.some.injEq] at ha
    rw [Raft.termAt_eq hshq hb1 hb2, Option.some.injEq] at hb
    rw [← ha, ← hb, hbelow]
  · intro d e hd he
    unfold Raft.logAt at hd he
    split at hd
    · cases hd
    · split at he
      · cases he
      · have hd' : (σ.server p).rf.fullLog[j - 1]? = some d := by
          rw [Raft.getElem_fullLog hshp (by omega), ← hd]; congr 1; omega
        have he' : (σ.server q).rf.fullLog[j - 1]? = some e := by
          rw [Raft.getElem_fullLog hshq (by omega), ← he]; congr 1; omega
        have hsame := congrArg (·[j - 1]?) hbelow
        simp only [List.getElem?_take_of_lt (show j - 1 < j by omega), hd', he', Option.some.injEq] at hsame
        rw [hsame]

/-- In a run that installs snapshots only at the end of the log or where the
terms agree, log matching holds in every state. -/
theorem log_matching_of_safe (r : RaftRun N C) (hc : r.Meets Cluster.SafeInstall) (k : Nat) :
    (r.state k).LogMatching := by
  obtain ⟨g, hg, -⟩ := r.history hc
    (R := fun (h : Ledger (Fin N) (LogEntry C)) σ => Rel h σ ∧ ∀ s, h.Valid LogEntry.term (σ.server s).rf.fullLog)
    ⟨Rel.init, fun s => Ledger.Valid.nil⟩ (by
      intro h σ a σ' hr hsafe hstep
      obtain ⟨h', hle, hr'⟩ := hr.1.step hstep
      exact ⟨h', hle, hr', fun s => hr.1.valid_step hr' hle hstep hsafe (hr.2 s)⟩)
  exact (hg k).1.log_matching (hg k).2

/-- Server 0 leads and compacts its log; server 2, which was never asked
before, gets the snapshot. -/
def catchUpActs : List (Action 3 Nat) :=
  [.server 0 .electionTimeout, .deliver 0, .deliver 1,
   .server 0 (.start 7), .server 0 (.replicate 1), .deliver 1, .deliver 1,
   .server 0 .collect, .server 0 .send, .server 0 .consume, .server 0 .finish, .server 0 (.snapshot 1 [1]),
   .server 0 (.replicate 2), .deliver 1, .deliver 1,
   .server 2 (.sendSnapshot 0), .server 2 .consume, .server 2 .condInstall]

theorem catchUp_exec : (exec Cluster.step (Cluster.init 3 Nat) catchUpActs).isSome = true := by decide +kernel

def catchUp : RaftRun 3 Nat := Run.ofList catchUpActs (Option.some_get catchUp_exec).symm

theorem catchUp_matching :
    ((catchUp.state 18).server 2).rf.lastIncludedIndex = 1 ∧ (catchUp.state 18).LogMatching :=
  ⟨by decide +kernel, log_matching_of_safe catchUp (Run.meets_ofList _ (by decide +kernel)) 18⟩

/-- Servers 0 and 1 hold two entries of term 1 that are never committed. In
term 2 server 3 commits another entry at index 1 and sends its snapshot to
server 0, which keeps its entry at index 2. -/
def staleSuffixActs : List (Action 5 Nat) :=
  [.server 0 .electionTimeout, .deliver 1, .deliver 1, .deliver 2, .deliver 2,
   .server 0 (.start 10), .server 0 (.start 11), .server 0 (.replicate 1), .deliver 2,
   .server 3 .electionTimeout, .deliver 5, .deliver 5, .deliver 5, .deliver 5,
   .server 3 (.start 20), .server 3 (.replicate 2), .deliver 5, .deliver 5,
   .server 3 (.replicate 4), .deliver 5, .deliver 5,
   .server 3 .collect, .server 3 .send, .server 3 .consume, .server 3 .finish, .server 3 (.snapshot 1 [1]),
   .server 3 (.replicate 0), .deliver 5,
   .server 0 (.sendSnapshot 0), .server 0 .consume, .server 0 .condInstall]

theorem staleSuffix_exec : (exec Cluster.step (Cluster.init 5 Nat) staleSuffixActs).isSome = true := by
  decide +kernel

def staleSuffix : RaftRun 5 Nat := Run.ofList staleSuffixActs (Option.some_get staleSuffix_exec).symm

theorem log_matching_fails : ¬ (staleSuffix.state 31).LogMatching := by
  intro hm
  have h1 : (2 : Nat) = 1 :=
    (hm 0 1 2 1 (by decide +kernel) (by decide +kernel) 1 (by decide)).1 2 1 (by decide +kernel) (by decide +kernel)
  cases h1

end

end DistLab
