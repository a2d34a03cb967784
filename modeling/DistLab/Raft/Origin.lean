import DistLab.Raft.Order

/-!
# Where entries come from

An entry travels from a leader's log through `AppendEntries` into other logs,
into the entries that a snapshot stands for, and with the snapshot to further
servers. `Cluster.Holds` lists these places. One step moves entries between
them; only `Start` adds one. So every entry of a run goes back to one call of
`Start`, the one that returned its index and its term.
-/

namespace DistLab

section
variable {N : Nat} {C : Type}

/-! ## One step -/

/-- The entry of index `k + 1` is in some log, on its way to one, or part of a
snapshot. -/
def Cluster.Holds (σ : Cluster N C) (k : Nat) (e : LogEntry C) : Prop :=
  (∃ s, (σ.server s).rf.fullLog[k]? = some e) ∨
  (∃ dst epoch args n, .appendEntries dst epoch args ∈ σ.net ∧ args.entries[n]? = some e ∧
    k = args.prevLogIndex + n) ∨
  ∃ snap t i, σ.Carries snap t i ∧ snap.entries[k]? = some e

theorem Raft.getElem_splice {log : List (LogEntry C)} {k : Nat} {e : LogEntry C} :
    ∀ (es : List (LogEntry C)) {p : Nat}, p ≤ log.length → (splice log p es)[k]? = some e →
      log[k]? = some e ∨ ∃ n, es[n]? = some e ∧ k = p + n
  | [], p, _, h => Or.inl h
  | d :: es, p, hp, h => by
    -- the loop stopped here, and the rest of the request replaces what follows
    have cut : (log.take p ++ d :: es)[k]? = some e → log[k]? = some e ∨ ∃ n, (d :: es)[n]? = some e ∧ k = p + n := by
      intro h
      by_cases hk : k < p
      · rw [List.getElem?_append_left (by simp; omega), List.getElem?_take_of_lt hk] at h
        exact Or.inl h
      · rw [List.getElem?_append_right (by simp; omega), List.length_take, Nat.min_eq_left hp] at h
        exact Or.inr ⟨k - p, h, by omega⟩
    unfold splice at h
    cases hl : log[p]? with
    | none =>
      simp only [hl] at h
      have hpe : log.take p = log := List.take_of_length_le (List.getElem?_eq_none_iff.mp hl)
      exact cut (by rwa [hpe])
    | some old =>
      simp only [hl] at h
      split at h
      · exact cut h
      · have hlt : p + 1 ≤ log.length := (List.getElem?_eq_some_iff.mp hl).1
        rcases getElem_splice es hlt h with h | ⟨n, hn, hk⟩
        · exact Or.inl h
        · exact Or.inr ⟨n + 1, hn, by omega⟩

theorem Raft.getElem_appendEntries {rf rf' : Raft N C (Snapshot C)} {args : AppendEntriesArgs N C}
    {reply : AppendEntriesReply} (hsh : rf.Shaped) (h : rf.appendEntries args = some (rf', reply)) {k : Nat}
    {e : LogEntry C} (he : rf'.fullLog[k]? = some e) :
    rf.fullLog[k]? = some e ∨ ∃ n, args.entries[n]? = some e ∧ k = args.prevLogIndex + n := by
  rcases appendEntries_cases h with ⟨-, rfl, -, -⟩ | ⟨-, rfl, -, -⟩ | ⟨-, hp1, hp2, -, hacc, -⟩
  · exact Or.inl he
  · rw [(keeps_newTerm rf _).fullLog (newTerm_log _)] at he
    exact Or.inl he
  · have hk := keeps_newTerm rf args.term
    have hfull₁ : (rf.newTerm args.term).fullLog = rf.fullLog := hk.fullLog (newTerm_log _)
    have heq := acceptEntries_eq (by simpa using hp1) hacc
    simp only at heq
    have hfull : rf'.fullLog = splice rf.fullLog args.prevLogIndex args.entries := by
      have happ := splice_append (rf.newTerm args.term).persister.snapshot.entries (rf.newTerm args.term).log
        args.entries (args.prevLogIndex - rf.lastIncludedIndex)
      rw [hk.snapshot, hsh.length, Nat.add_sub_cancel' hp1, ← hk.snapshot] at happ
      rw [← hfull₁, heq, newTerm_lastIncludedIndex]
      split <;> exact happ.symm
    rw [hfull] at he
    exact getElem_splice args.entries (by rw [length_fullLog hsh]; exact hp2) he

variable {h : Ledger (Fin N) (LogEntry C)} {σ σ' : Cluster N C}

theorem Rel.act_entry (hr : Rel h σ) {s : Fin N} {l : Local N C} {srv : Server N C} {out : List (Packet N C)}
    (hact : (σ.server s).Act l srv out) {k : Nat} {e : LogEntry C} (he : srv.rf.fullLog[k]? = some e) :
    σ.Holds k e ∨ l = .start e.command ∧ ((σ.server s).rf.start e.command).2 = some (k + 1, e.term) := by
  have hsh := hr.shaped.server s
  have same : srv.rf.fullLog = (σ.server s).rf.fullLog → σ.Holds k e ∨
      l = .start e.command ∧ ((σ.server s).rf.start e.command).2 = some (k + 1, e.term) :=
    fun heq => Or.inl (Or.inl ⟨s, heq ▸ he⟩)
  cases hact with
  | start c =>
    by_cases hst : (σ.server s).rf.state ≠ .leader
    · exact same (by simp only [Raft.start, if_pos hst])
    · have hfull : ((σ.server s).rf.start c).1.fullLog =
          (σ.server s).rf.fullLog ++ [⟨(σ.server s).rf.currentTerm, c⟩] := by
        simp only [Raft.start, if_neg hst]
        exact (List.append_assoc _ _ _).symm
      simp only [hfull] at he
      by_cases hk : k < (σ.server s).rf.fullLog.length
      · rw [List.getElem?_append_left hk] at he
        exact Or.inl (Or.inl ⟨s, he⟩)
      · rw [List.getElem?_append_right (by omega), List.getElem?_singleton] at he
        split at he
        · rename_i hk0
          cases he
          refine Or.inr ⟨rfl, ?_⟩
          have hlen := Raft.length_fullLog hsh
          have hk1 : k + 1 = (σ.server s).rf.lastIncludedIndex + ((σ.server s).rf.log.length + 1) := by
            unfold Raft.lastLogIndex at hlen
            omega
          simp only [Raft.start, if_neg hst]
          rw [hk1]
          simp [Raft.persist, Raft.lastLogIndex]
        · cases he
  | finish _ _ => exact same ((Raft.keeps_applied _ _).fullLog (Raft.applied_log _ _))
  | @installed snap t i rf hh hc =>
    obtain ⟨-, -, hok⟩ | ⟨log, hlt, -, hlog, rfl⟩ := Raft.condInstallSnapshot_cases hc
    · cases hok
    have hcarry : σ.Carries snap t i := Or.inl ⟨s, Or.inr (Or.inr (Or.inr hh))⟩
    have hc := (hr.server s).tracks.core
    have hge := hc.commit_ge
    have hdrop : log = (σ.server s).rf.fullLog.drop i := by
      rw [condInstall_log (hr.server s).tracks hlt hlog, Raft.drop_fullLog hsh (by omega), hc.log, List.drop_drop,
        Nat.add_sub_cancel' (by omega)]
    have he : (snap.entries ++ log)[k]? = some e := he
    by_cases hk : k < snap.entries.length
    · rw [List.getElem?_append_left hk] at he
      exact Or.inl (Or.inr (Or.inr ⟨snap, t, i, hcarry, he⟩))
    · have hlen := (hr.shaped snap t i hcarry).length
      rw [List.getElem?_append_right (by omega), hdrop, List.getElem?_drop, hlen, Nat.add_sub_cancel' (by omega)] at he
      exact Or.inl (Or.inl ⟨s, he⟩)
  | refused _ hc =>
    obtain ⟨-, rfl, -⟩ | ⟨log, -, hok, -⟩ := Raft.condInstallSnapshot_cases hc
    · exact same rfl
    · cases hok
  | snapshot _ hsn => exact same (fullLog_snapshot hsh hsn)
  | restart => exact same (fullLog_make (hr.saved s) _)
  | _ => exact same rfl

theorem Rel.receive_entry (hr : Rel h σ) {s : Fin N} {p : Packet N C} {srv : Server N C} {out : List (Packet N C)}
    (hp : p ∈ σ.net) (hrec : (σ.server s).Receive p srv out) {k : Nat} {e : LogEntry C}
    (he : srv.rf.fullLog[k]? = some e) : σ.Holds k e := by
  have same : srv.rf.fullLog = (σ.server s).rf.fullLog → σ.Holds k e := fun heq => Or.inl ⟨s, heq ▸ he⟩
  have hkeep := hrec.keeps
  cases hrec with
  | requestVote _ _ _ => exact same (hkeep.fullLog (Raft.requestVote_log _ _))
  | requestVoteReply _ _ _ _ => exact same (hkeep.fullLog (Raft.requestVoteReply_log _ _ _ _))
  | @appendEntries dst epoch args rf reply hae =>
    rcases Raft.getElem_appendEntries (hr.shaped.server s) hae he with he | ⟨n, hn, hk⟩
    · exact Or.inl ⟨s, he⟩
    · exact Or.inr (Or.inl ⟨dst, epoch, args, n, hp, hn, hk⟩)
  | appendEntriesReply _ _ _ _ => exact same (hkeep.fullLog (Raft.appendEntriesReply_log _ _ _ _))
  | installSnapshot _ _ _ => exact same (hkeep.fullLog (Raft.installSnapshot_log _ _))
  | installSnapshotReply _ _ _ _ => exact same (hkeep.fullLog (Raft.installSnapshotReply_log _ _ _ _))
  | lost => exact same rfl

theorem Rel.act_sends (hr : Rel h σ) {s : Fin N} {l : Local N C} {srv : Server N C} {out : List (Packet N C)}
    (hact : (σ.server s).Act l srv out) {dst : Fin N} {epoch : Nat} {args : AppendEntriesArgs N C}
    (hp : .appendEntries dst epoch args ∈ out) {n : Nat} {e : LogEntry C} (hn : args.entries[n]? = some e) :
    (σ.server s).rf.fullLog[args.prevLogIndex + n]? = some e := by
  cases hact with
  | electionTimeout _ =>
    obtain ⟨peer, -, heq⟩ := List.mem_map.mp hp
    cases heq
  | append _ hrep =>
    cases List.mem_singleton.mp hp
    obtain ⟨-, hlt, rfl⟩ := Raft.replicateTo_append hrep
    simp only [List.getElem?_drop] at hn
    rw [Raft.getElem_fullLog (hr.shaped.server s) (by simp only; omega), ← hn]
    congr 1
    simp only
    omega
  | install _ _ => cases List.mem_singleton.mp hp
  | _ => cases hp

theorem Server.Receive.no_entries {srv srv' : Server N C} {p : Packet N C} {out : List (Packet N C)}
    (h : srv.Receive p srv' out) {dst : Fin N} {epoch : Nat} {args : AppendEntriesArgs N C} :
    .appendEntries dst epoch args ∉ out := by
  cases h <;> simp

/-- Only `Start` adds an entry, with the index and the term that it returns. -/
theorem Rel.holds_step (hr : Rel h σ) {a : Action N C} (hstep : σ.step a = some σ') {k : Nat} {e : LogEntry C}
    (hh : σ'.Holds k e) :
    σ.Holds k e ∨ ∃ s, a = .server s (.start e.command) ∧
      ((σ.server s).rf.start e.command).2 = some (k + 1, e.term) := by
  rcases hh with ⟨s, he⟩ | ⟨dst, epoch, args, n, hp, hn, rfl⟩ | ⟨snap, t, i, hc, he⟩
  · obtain heq | ⟨l, out, rfl, hact⟩ | ⟨j, p, out, -, hj, -, hrec⟩ := Cluster.server_cases hstep s
    · exact Or.inl (Or.inl ⟨s, heq ▸ he⟩)
    · rcases hr.act_entry hact he with hh | ⟨rfl, hst⟩
      · exact Or.inl hh
      · exact Or.inr ⟨s, rfl, hst⟩
    · exact Or.inl (hr.receive_entry (List.mem_of_getElem? hj) hrec he)
  · obtain hin | ⟨s, l, out, hact, hin⟩ | ⟨s, q, out, -, -, hrec, hin⟩ := Cluster.packet_cases hstep hp
    · exact Or.inl (Or.inr (Or.inl ⟨dst, epoch, args, n, hin, hn, rfl⟩))
    · exact Or.inl (Or.inl ⟨s, hr.act_sends hact hin hn⟩)
    · exact absurd hin hrec.no_entries
  · rcases Cluster.carries_step hr.saved hstep hc with hc | ⟨s, data, entry, -, rfl, -⟩
    · exact Or.inl (Or.inr (Or.inr ⟨snap, t, i, hc, he⟩))
    · rw [List.getElem?_take] at he
      split at he
      · exact Or.inl (Or.inl ⟨s, he⟩)
      · cases he

theorem Cluster.not_holds_init {k : Nat} {e : LogEntry C} : ¬ (Cluster.init N C).Holds k e := by
  rintro (⟨s, he⟩ | ⟨dst, epoch, args, n, hp, -⟩ | ⟨snap, t, i, hc, he⟩)
  · cases he
  · cases hp
  · obtain ⟨rfl, -⟩ := Cluster.carries_init hc
    cases he

/-! ## Runs -/

/-- At position `j` a call of `Start` appends the command and returns the index
and the term. -/
def RaftRun.Starts (r : RaftRun N C) (j i t : Nat) (c : C) : Prop :=
  ∃ p, r.act j = some (.server p (.start c)) ∧ (((r.state j).server p).rf.start c).2 = some (i, t)

theorem RaftRun.holds_started (r : RaftRun N C) {g : Nat → Ledger (Fin N) (LogEntry C)}
    (hg : ∀ k, Rel (g k) (r.state k)) : ∀ (k : Nat) {i : Nat} {e : LogEntry C}, (r.state k).Holds i e →
      ∃ j < k, r.Starts j (i + 1) e.term e.command
  | 0, i, e, hh => by
    rw [r.start] at hh
    exact absurd hh Cluster.not_holds_init
  | k + 1, i, e, hh => by
    have earlier : (r.state k).Holds i e → ∃ j < k + 1, r.Starts j (i + 1) e.term e.command := by
      intro hh
      obtain ⟨j, hj, hst⟩ := r.holds_started hg k hh
      exact ⟨j, Nat.lt_succ_of_lt hj, hst⟩
    rcases r.next_cases k with ⟨-, heq⟩ | ⟨a, ha, hstep⟩
    · exact earlier (heq ▸ hh)
    · rcases (hg k).holds_step hstep hh with hh | ⟨s, rfl, hst⟩
      · exact earlier hh
      · exact ⟨k, Nat.lt_succ_self k, s, ha, hst⟩

/-- The leader of a term never gives out an index of that term twice. -/
theorem RaftRun.starts_lt (r : RaftRun N C) {g : Nat → Ledger (Fin N) (LogEntry C)}
    (hg : ∀ k, Rel (g k) (r.state k)) (hmono : Monotone g) {j k i i' t : Nat} {c c' : C} (hjk : j < k)
    (hj : r.Starts j i t c) (hk : r.Starts k i' t c') : i < i' := by
  obtain ⟨p, hp, hst⟩ := hj
  obtain ⟨q, hq, hst'⟩ := hk
  have hrf : ((r.state (j + 1)).server p).rf = (((r.state j).server p).rf.start c).1 := by
    obtain ⟨out, hact⟩ := r.act_step hp
    generalize (r.state (j + 1)).server p = srv at hact ⊢
    cases hact
    rfl
  -- what the first call appended is in the log of the term when the second one comes
  have hnew := (hg (j + 1)).started ((hg j).shaped.server p) hst hrf
  have hold := prefix_getElem ((hmono (show j + 1 ≤ k from hjk)).log t) hnew
  have hlead : ((r.state k).server q).rf.state = .leader := by
    by_contra hne
    simp only [Raft.start, if_pos hne] at hst'
    cases hst'
  have hnl : ¬ ((r.state k).server q).rf.state ≠ .leader := fun hne => hne hlead
  simp only [Raft.start, if_neg hnl, Option.some.injEq, Prod.mk.injEq] at hst'
  obtain ⟨hi', rfl⟩ := hst'
  obtain ⟨-, hlog⟩ := (hg k).leader_log hlead
  have hlen := Raft.length_fullLog ((hg k).shaped.server q)
  have hlt : i - 1 < ((r.state k).server q).rf.fullLog.length := by
    rw [hlog]
    exact (List.getElem?_eq_some_iff.mp hold).1
  simp only [Raft.lastLogIndex, Raft.persist, List.length_append, List.length_singleton] at hi' hlen
  omega

/-- Every entry of every log goes back to exactly one call of `Start`, the one
that returned its index and its term; and every command that a server delivers
is the one of its entry at that index. -/
theorem entry_started_once (r : RaftRun N C) :
    (∀ k s i e, ((r.state k).server s).rf.fullLog[i]? = some e →
      ∃! j, j < k ∧ r.Starts j (i + 1) e.term e.command) ∧
    ∀ k s c i, r.Sends k s c i → ∃ e, ((r.state k).server s).rf.entryAt i = some e ∧ e.command = c ∧
      ∃! j, j < k ∧ r.Starts j i e.term c := by
  obtain ⟨g, hg, hmono⟩ := r.applying
  have hrel := fun k => (hg k).1
  have once : ∀ k s i e, ((r.state k).server s).rf.fullLog[i]? = some e →
      ∃! j, j < k ∧ r.Starts j (i + 1) e.term e.command := by
    intro k s i e he
    obtain ⟨j, hj, hst⟩ := r.holds_started hrel k (Or.inl ⟨s, he⟩)
    refine ⟨j, ⟨hj, hst⟩, fun j' hj' => ?_⟩
    rcases Nat.lt_trichotomy j j' with hlt | heq | hlt
    · exact absurd (r.starts_lt hrel hmono hlt hst hj'.2) (lt_irrefl _)
    · exact heq.symm
    · exact absurd (r.starts_lt hrel hmono hlt hj'.2 hst) (lt_irrefl _)
  refine ⟨once, fun k s c i hs => ?_⟩
  obtain ⟨b, e, rest, hb, he, rfl, rfl⟩ := hs.batch
  have hok := ((hg k).2 s).batch b hb
  have hpos : 0 < b.next := Nat.zero_lt_of_lt hok.fresh
  have hentry := hok.entries 0 e (by rw [he]; rfl)
  refine ⟨e, (Raft.entryAt_eq ((hrel k).shaped.server s) hpos).trans hentry, rfl, ?_⟩
  have := once k s _ e hentry
  rwa [Nat.add_zero, Nat.sub_add_cancel hpos] at this

end

end DistLab
