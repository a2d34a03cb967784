import DistLab.Lib.Ledger
import DistLab.Raft.Cluster

/-!
# What the functions of a server do

`Raft` addresses its log by global indices and holds only the part after its
snapshot. The lemmas here read each function on the whole log `fullLog`, and
say once for each critical section what it can do.
-/

namespace DistLab

/-! ## Slices in range -/

section
variable {α : Type*} {l : List α}

theorem goIndex_natCast (k : Nat) : goIndex l k = l[k]? := by simp [goIndex]

theorem goFrom_natCast {k : Nat} (hk : k ≤ l.length) : goFrom l k = some (l.drop k) := by
  simp [goFrom, hk]

theorem goTo_natCast {k : Nat} (hk : k ≤ l.length) : goTo l k = some (l.take k) := by
  simp [goTo, hk]

end

structure Snapshot.Shaped {C : Type} (snap : Snapshot C) (t i : Nat) : Prop where
  index : snap.index = i
  length : snap.entries.length = i
  term : lastTerm LogEntry.term snap.entries = t

def Ascending {C : Type} (l : List (LogEntry C)) : Prop := l.Pairwise fun a b => a.term ≤ b.term

namespace Raft

def Shaped {N : Nat} {C : Type} (rf : Raft N C (Snapshot C)) : Prop :=
  rf.persister.snapshot.Shaped rf.lastIncludedTerm rf.lastIncludedIndex

section
variable {N : Nat} {C S : Type} {rf : Raft N C S}

theorem toSliceIndex_eq {i : Nat} (hi : rf.lastIncludedIndex < i) :
    rf.toSliceIndex i = (i - rf.lastIncludedIndex - 1 : Nat) := by
  unfold toSliceIndex; omega

theorem toSliceIndex_succ {i : Nat} (hi : rf.lastIncludedIndex ≤ i) :
    rf.toSliceIndex i + 1 = (i - rf.lastIncludedIndex : Nat) := by
  unfold toSliceIndex; omega

end

/-! ## Reading the log -/

/-- The log is what is left of `l` when the entries up to `lastIncludedIndex` are cut
off. -/
structure Compacts {N : Nat} {C S : Type} (rf : Raft N C S) (l : List (LogEntry C)) : Prop where
  index_le : rf.lastIncludedIndex ≤ l.length
  log : rf.log = l.drop rf.lastIncludedIndex
  term : rf.lastIncludedTerm = lastTerm LogEntry.term (l.take rf.lastIncludedIndex)

section
variable {N : Nat} {C S : Type} {rf : Raft N C S} {l : List (LogEntry C)} (hc : rf.Compacts l)
include hc

theorem Compacts.lastLogIndex : rf.lastLogIndex = l.length := by
  have := hc.index_le
  rw [Raft.lastLogIndex, hc.log, List.length_drop]
  omega

theorem Compacts.termAt {i : Nat} (h1 : rf.lastIncludedIndex ≤ i) (h2 : i ≤ l.length) :
    rf.termAt i = some (lastTerm LogEntry.term (l.take i)) := by
  unfold Raft.termAt
  by_cases hi : i = rf.lastIncludedIndex
  · rw [if_pos hi, hc.term, hi]
  · obtain ⟨j, rfl⟩ : ∃ j, i = j + 1 := ⟨i - 1, by omega⟩
    have hlen : rf.log.length = l.length - rf.lastIncludedIndex := by rw [hc.log, List.length_drop]
    have hj : l[j]? = some l[j] := List.getElem?_eq_getElem h2
    rw [if_neg hi, if_neg (by omega), toSliceIndex_eq (by omega)]
    have hback : rf.lastIncludedIndex + (j + 1 - rf.lastIncludedIndex - 1) = j := by omega
    simp only [goIndex_natCast]
    rw [if_neg (by omega), hc.log, List.getElem?_drop, hback, hj, lastTerm_take LogEntry.term hj]
    rfl

end

section
variable {N : Nat} {C : Type} {rf : Raft N C (Snapshot C)} (hs : rf.Shaped)
include hs

theorem length_fullLog : rf.fullLog.length = rf.lastLogIndex := by
  simp [fullLog, lastLogIndex, hs.length]

theorem take_fullLog : rf.fullLog.take rf.lastIncludedIndex = rf.persister.snapshot.entries := by
  rw [fullLog, ← hs.length, List.take_left]

theorem drop_fullLog {k : Nat} (hk : rf.lastIncludedIndex ≤ k) :
    rf.fullLog.drop k = rf.log.drop (k - rf.lastIncludedIndex) := by
  rw [fullLog, List.drop_append, hs.length, List.drop_of_length_le (by rw [hs.length]; exact hk), List.nil_append]

theorem getElem_fullLog {k : Nat} (hk : rf.lastIncludedIndex ≤ k) :
    rf.fullLog[k]? = rf.log[k - rf.lastIncludedIndex]? := by
  rw [fullLog, List.getElem?_append_right (by rw [hs.length]; exact hk), hs.length]

theorem lastLogTerm_eq : rf.lastLogTerm = lastTerm LogEntry.term rf.fullLog := by
  unfold lastLogTerm
  cases hl : rf.log.getLast? with
  | none =>
    have : rf.log = [] := List.getLast?_eq_none_iff.mp hl
    simp only [fullLog, this, List.append_nil, hs.term]
  | some e =>
    have hne : rf.log ≠ [] := by rintro h; rw [h] at hl; cases hl
    rw [fullLog, lastTerm_append _ _ hne]
    simp [lastTerm, hl]

theorem Shaped.compacts : rf.Compacts rf.fullLog where
  index_le := by rw [length_fullLog hs]; exact Nat.le_add_right _ _
  log := by rw [drop_fullLog hs le_rfl, Nat.sub_self, List.drop_zero]
  term := by rw [take_fullLog hs, hs.term]

theorem termAt_eq {i : Nat} (h1 : rf.lastIncludedIndex ≤ i) (h2 : i ≤ rf.lastLogIndex) :
    rf.termAt i = some (lastTerm LogEntry.term (rf.fullLog.take i)) := by
  rw [← length_fullLog hs] at h2
  exact hs.compacts.termAt h1 h2

theorem isMoreUpToDate_iff (l : List (LogEntry C)) :
    rf.isMoreUpToDate l.length (lastTerm LogEntry.term l) = true ↔ UpToDate LogEntry.term l rf.fullLog := by
  unfold isMoreUpToDate UpToDate
  rw [lastLogTerm_eq hs, ← length_fullLog hs]
  split
  · rename_i h
    simp only [decide_eq_true_eq]
    omega
  · rename_i h
    simp only [decide_eq_true_eq]
    omega

end

/-! ## The append loop -/

/-- The loop of `AppendEntries` on a whole log, from position `k` on. -/
def splice {C : Type} (log : List (LogEntry C)) : Nat → List (LogEntry C) → List (LogEntry C)
  | _, [] => log
  | k, e :: es =>
    match log[k]? with
    | none => log ++ e :: es
    | some old => if old.term ≠ e.term then log.take k ++ e :: es else splice log (k + 1) es

theorem splice_append {C : Type} (front log : List (LogEntry C)) : ∀ (es : List (LogEntry C)) (k : Nat),
    splice (front ++ log) (front.length + k) es = front ++ splice log k es
  | [], k => rfl
  | e :: es, k => by
    unfold splice
    rw [List.getElem?_append_right (Nat.le_add_right _ _), Nat.add_sub_cancel_left]
    cases log[k]? with
    | none => simp
    | some old =>
      simp only
      split
      · rw [List.take_length_add_append, List.append_assoc]
      · exact splice_append front log es (k + 1)

section
variable {N : Nat} {C S : Type} {rf : Raft N C S}

theorem appendLoop_eq : ∀ (es : List (LogEntry C)) (g : Nat), rf.lastIncludedIndex < g →
    rf.appendLoop g es = some (splice rf.log (g - rf.lastIncludedIndex - 1) es)
  | [], g, _ => rfl
  | e :: es, g, hg => by
    have ih := appendLoop_eq es (g + 1) (Nat.lt_succ_of_lt hg)
    have hk : g + 1 - rf.lastIncludedIndex - 1 = g - rf.lastIncludedIndex - 1 + 1 := by omega
    unfold appendLoop splice
    rw [if_neg (by omega), toSliceIndex_eq hg]
    simp only [Int.ofNat_lt, goIndex_natCast]
    by_cases hlt : g - rf.lastIncludedIndex - 1 < rf.log.length
    · rw [if_pos hlt, List.getElem?_eq_getElem hlt]
      simp only [Option.bind_eq_bind, Option.bind_some]
      split
      · rw [goTo_natCast hlt.le]; rfl
      · rw [ih, hk]
    · rw [if_neg hlt, List.getElem?_eq_none (Nat.le_of_not_lt hlt)]

end

/-- Splicing a leader's entries into a log that agrees with the leader where
their terms agree: the log already holds them, or becomes the leader's. -/
theorem splice_spec {C : Type} {log lead : List (LogEntry C)} : ∀ (es : List (LogEntry C)) {p : Nat},
    p ≤ log.length → log.take p = lead.take p → p + es.length ≤ lead.length →
    lead.take (p + es.length) = lead.take p ++ es →
    (∀ k a b, p ≤ k → log[k]? = some a → lead[k]? = some b → a.term = b.term →
      log.take (k + 1) = lead.take (k + 1)) →
    lead.take (p + es.length) <+: log ∧ splice log p es = log ∨
      ¬ lead.take (p + es.length) <+: log ∧ splice log p es = lead.take (p + es.length)
  | [], p, _, hag, _, _, _ => by
    left
    refine ⟨?_, rfl⟩
    rw [List.length_nil, Nat.add_zero, ← hag]
    exact List.take_prefix p log
  | e :: es, p, hp, hag, hlen, hes, hmatch => by
    rw [List.length_cons] at hlen hes ⊢
    have hpl : p < lead.length := by omega
    have he : lead[p]? = some e := by
      rw [← List.getElem?_take_of_lt (show p < p + (es.length + 1) by omega), hes,
        List.getElem?_append_right (by rw [List.length_take]; omega), List.length_take,
        Nat.min_eq_left hpl.le, Nat.sub_self]
      rfl
    unfold splice
    cases hl : log[p]? with
    | none =>
      right
      have hpe : p = log.length := le_antisymm hp (List.getElem?_eq_none_iff.mp hl)
      refine ⟨fun hpre => ?_, ?_⟩
      · have := hpre.length_le
        rw [List.length_take] at this
        omega
      · simp only
        rw [hes, ← hag, hpe, List.take_length]
    | some old =>
      have hpo : p < log.length := (List.getElem?_eq_some_iff.mp hl).1
      simp only
      by_cases hterm : old.term ≠ e.term
      · right
        refine ⟨fun hpre => hterm ?_, ?_⟩
        · have := (prefix_take_iff hlen).mp hpre
          have hpe : log[p]? = lead[p]? := by
            rw [← List.getElem?_take_of_lt (show p < p + (es.length + 1) by omega), this.2,
              List.getElem?_take_of_lt (by omega)]
          rw [hl, he] at hpe
          rw [Option.some.inj hpe]
        · rw [if_pos hterm, hes, hag]
      · rw [if_neg hterm]
        push Not at hterm
        have hnext := hmatch p old e le_rfl hl he hterm
        have hstep : lead.take (p + 1) = lead.take p ++ [e] := by rw [List.take_add_one, he]; rfl
        have hsum : p + (es.length + 1) = p + 1 + es.length := by omega
        rw [hsum] at hlen hes ⊢
        exact splice_spec es hpo hnext hlen (by rw [hes, hstep, List.append_assoc]; rfl)
          (fun k a b hk => hmatch k a b (by omega))

/-! ## AppendEntries, case by case -/

section
variable {N : Nat} {C S : Type} {rf rf' : Raft N C S}

@[simp] theorem newTerm_log (t : Nat) : (rf.newTerm t).log = rf.log := by
  unfold newTerm; simp only; split <;> rfl

@[simp] theorem newTerm_lastIncludedIndex (t : Nat) : (rf.newTerm t).lastIncludedIndex = rf.lastIncludedIndex := by
  unfold newTerm; simp only; split <;> rfl

@[simp] theorem newTerm_commitIndex (t : Nat) : (rf.newTerm t).commitIndex = rf.commitIndex := by
  unfold newTerm; simp only; split <;> rfl

@[simp] theorem newTerm_lastApplied (t : Nat) : (rf.newTerm t).lastApplied = rf.lastApplied := by
  unfold newTerm; simp only; split <;> rfl

@[simp] theorem newTerm_lastLogIndex (t : Nat) : (rf.newTerm t).lastLogIndex = rf.lastLogIndex := by
  simp [lastLogIndex]

@[simp] theorem newTerm_lastIncludedTerm (t : Nat) : (rf.newTerm t).lastIncludedTerm = rf.lastIncludedTerm := by
  unfold newTerm; simp only; split <;> rfl

theorem newTerm_currentTerm {t : Nat} (h : rf.currentTerm ≤ t) : (rf.newTerm t).currentTerm = t := by
  unfold newTerm
  by_cases hlt : rf.currentTerm < t
  · simp only [if_pos hlt]
    rfl
  · simp only [if_neg hlt]
    omega

theorem firstOfTerm_le (conflictTerm : Option Nat) : ∀ idx, rf.firstOfTerm conflictTerm idx ≤ idx
  | 0 => le_rfl
  | idx + 1 => by
    unfold firstOfTerm
    split
    · exact Nat.le_succ_of_le (firstOfTerm_le conflictTerm idx)
    · exact le_rfl

/-- `AppendEntries` refuses an old term, or meets the term and reports a
conflict, or passes the consistency check. -/
theorem appendEntries_cases {args : AppendEntriesArgs N C} {reply : AppendEntriesReply}
    (h : rf.appendEntries args = some (rf', reply)) :
    (args.term < rf.currentTerm ∧ rf' = rf ∧ reply.success = false ∧ reply.term = rf.currentTerm) ∨
    (rf.currentTerm ≤ args.term ∧ rf' = rf.newTerm args.term ∧ reply.success = false ∧
      (reply.conflictIndex = rf.lastIncludedIndex + 1 ∨ reply.conflictIndex ≤ args.prevLogIndex)) ∨
    (rf.currentTerm ≤ args.term ∧ rf.lastIncludedIndex ≤ args.prevLogIndex ∧
      args.prevLogIndex ≤ rf.lastLogIndex ∧ (rf.newTerm args.term).termAt args.prevLogIndex = args.prevLogTerm ∧
      (rf.newTerm args.term).acceptEntries args = some rf' ∧ reply.success = true) := by
  unfold appendEntries at h
  by_cases h0 : args.term < rf.currentTerm
  · left
    simp only [if_pos h0, Option.some.injEq, Prod.mk.injEq] at h
    obtain ⟨rfl, rfl⟩ := h
    exact ⟨h0, rfl, rfl, rfl⟩
  · right
    have ht := Nat.le_of_not_lt h0
    simp only [if_neg h0, newTerm_lastIncludedIndex, newTerm_lastLogIndex] at h
    by_cases h1 : args.prevLogIndex < rf.lastIncludedIndex
    · left
      simp only [if_pos h1, Option.some.injEq, Prod.mk.injEq] at h
      obtain ⟨rfl, rfl⟩ := h
      exact ⟨ht, rfl, rfl, Or.inl rfl⟩
    · rw [if_neg h1] at h
      by_cases h2 : rf.lastLogIndex < args.prevLogIndex
      · left
        simp only [if_pos h2, Option.some.injEq, Prod.mk.injEq] at h
        obtain ⟨rfl, rfl⟩ := h
        exact ⟨ht, rfl, rfl, Or.inr h2⟩
      · rw [if_neg h2] at h
        by_cases h3 : (rf.newTerm args.term).termAt args.prevLogIndex ≠ args.prevLogTerm
        · left
          simp only [if_pos h3, Option.some.injEq, Prod.mk.injEq] at h
          obtain ⟨rfl, rfl⟩ := h
          exact ⟨ht, rfl, rfl, Or.inr (firstOfTerm_le _ _)⟩
        · right
          rw [if_neg h3] at h
          cases ha : (rf.newTerm args.term).acceptEntries args with
          | none => simp [ha] at h
          | some rf₂ =>
            simp only [ha, Option.bind_eq_bind, Option.bind_some, Option.some.injEq, Prod.mk.injEq] at h
            obtain ⟨rfl, rfl⟩ := h
            exact ⟨ht, Nat.le_of_not_lt h1, Nat.le_of_not_lt h2, Decidable.not_not.mp h3, rfl, rfl⟩

theorem acceptEntries_eq {args : AppendEntriesArgs N C} (hp : rf.lastIncludedIndex ≤ args.prevLogIndex)
    (h : rf.acceptEntries args = some rf') :
    let rf₁ := { rf with log := splice rf.log (args.prevLogIndex - rf.lastIncludedIndex) args.entries }.persist
    rf' = if rf.commitIndex < args.leaderCommit then
        { rf₁ with commitIndex := if rf₁.lastLogIndex < args.leaderCommit then rf₁.lastLogIndex else args.leaderCommit }
      else rf₁ := by
  have hk : args.prevLogIndex + 1 - rf.lastIncludedIndex - 1 = args.prevLogIndex - rf.lastIncludedIndex := by omega
  unfold acceptEntries at h
  rw [appendLoop_eq _ _ (Nat.lt_succ_of_le hp), hk] at h
  simp only [Option.bind_eq_bind, Option.bind_some, Option.some.injEq] at h
  exact h.symm

theorem start_state (command : C) : (rf.start command).1.state = rf.state := by
  unfold start; split <;> rfl

theorem start_currentTerm (command : C) : (rf.start command).1.currentTerm = rf.currentTerm := by
  unfold start; split <;> rfl

theorem applied_state (commitIndex : Nat) : (rf.applied commitIndex).state = rf.state := by
  unfold applied; split <;> rfl

theorem applied_currentTerm (commitIndex : Nat) : (rf.applied commitIndex).currentTerm = rf.currentTerm := by
  unfold applied; split <;> rfl

end

/-! ## The commit loop -/

section
variable {N : Nat} {C S : Type} {rf : Raft N C S}

def counted (rf : Raft N C S) (n : Nat) : List (Fin N) :=
  (List.finRange N).filter fun peer => peer ≠ rf.me ∧ n ≤ rf.matchIndex peer

theorem tryCommitFrom_cases (rf : Raft N C S) : ∀ n, rf.tryCommitFrom n = rf ∨
    ∃ m, rf.commitIndex < m ∧ m ≤ n ∧ rf.termAt m = some rf.currentTerm ∧ N / 2 < 1 + (rf.counted m).length ∧
      rf.tryCommitFrom n = { rf with commitIndex := m }
  | 0 => Or.inl rfl
  | n + 1 => by
    have lower : rf.tryCommitFrom n = rf ∨
        ∃ m, rf.commitIndex < m ∧ m ≤ n + 1 ∧ rf.termAt m = some rf.currentTerm ∧
          N / 2 < 1 + (rf.counted m).length ∧ rf.tryCommitFrom n = { rf with commitIndex := m } := by
      rcases tryCommitFrom_cases rf n with h | ⟨m, h1, h2, h3⟩
      · exact Or.inl h
      · exact Or.inr ⟨m, h1, Nat.le_succ_of_le h2, h3⟩
    unfold tryCommitFrom
    by_cases hc : rf.commitIndex < n + 1
    · rw [if_pos hc]
      by_cases ht : rf.termAt (n + 1) ≠ some rf.currentTerm
      · rw [if_pos ht]; exact lower
      · rw [if_neg ht]
        simp only
        split
        · rename_i hm
          exact Or.inr ⟨n + 1, hc, le_rfl, Decidable.not_not.mp ht, hm, rfl⟩
        · exact lower
    · rw [if_neg hc]; exact Or.inl rfl

theorem backUp_le {conflictTerm : Option Nat} {conflictIndex bound : Nat} (hc : conflictIndex ≤ bound) :
    ∀ i, (∀ j, rf.lastIncludedIndex < j → j ≤ i → rf.termAt j = conflictTerm → j < bound) →
      rf.backUp conflictTerm conflictIndex i ≤ bound
  | 0, _ => hc
  | i + 1, hi => by
    unfold backUp
    split
    · rename_i hlt
      split
      · rename_i ht
        exact hi (i + 1) hlt le_rfl ht
      · exact backUp_le hc i fun j h1 h2 => hi j h1 (by omega)
    · exact hc

/-! ## Replies -/

theorem setMatchIndex_same (rf : Raft N C S) (peer : Fin N) : rf.setMatchIndex peer (rf.matchIndex peer) = rf := by
  have h : (fun p => if p = peer then rf.matchIndex peer else rf.matchIndex p) = rf.matchIndex := by
    funext p
    split
    · rename_i hp
      rw [hp]
    · rfl
  rw [setMatchIndex, h]

theorem setNextIndex_same (rf : Raft N C S) (peer : Fin N) : rf.setNextIndex peer (rf.nextIndex peer) = rf := by
  have h : (fun p => if p = peer then rf.nextIndex peer else rf.nextIndex p) = rf.nextIndex := by
    funext p
    split
    · rename_i hp
      rw [hp]
    · rfl
  rw [setNextIndex, h]

/-- The reply is of a later term, comes too late, or tells a success or a refusal. -/
theorem appendEntriesReply_cases (rf : Raft N C S) (peer : Fin N) (args : AppendEntriesArgs N C)
    (reply : AppendEntriesReply) :
    (rf.currentTerm < reply.term ∧ rf.appendEntriesReply peer args reply = rf.stepDown reply.term) ∨
    ((rf.state ≠ .leader ∨ rf.currentTerm ≠ args.term) ∧ rf.appendEntriesReply peer args reply = rf) ∨
    (rf.state = .leader ∧ rf.currentTerm = args.term ∧ reply.term ≤ rf.currentTerm ∧
      (reply.success = true ∧ (∃ m, m = max (rf.matchIndex peer) (args.prevLogIndex + args.entries.length) ∧
          rf.appendEntriesReply peer args reply = ((rf.setMatchIndex peer m).setNextIndex peer (m + 1)).tryCommit) ∨
        reply.success = false ∧ rf.appendEntriesReply peer args reply = rf.setNextIndex peer (max 1
          (if reply.conflictTerm = none then reply.conflictIndex
            else rf.backUp reply.conflictTerm reply.conflictIndex rf.lastLogIndex)))) := by
  unfold appendEntriesReply
  by_cases hlt : rf.currentTerm < reply.term
  · exact Or.inl ⟨hlt, if_pos hlt⟩
  · rw [if_neg hlt]
    right
    by_cases hlate : rf.state ≠ .leader ∨ rf.currentTerm ≠ args.term
    · exact Or.inl ⟨hlate, if_pos hlate⟩
    · rw [if_neg hlate]
      push Not at hlate
      refine Or.inr ⟨hlate.1, hlate.2, Nat.le_of_not_lt hlt, ?_⟩
      cases reply.success with
      | true =>
        refine Or.inl ⟨rfl, _, rfl, ?_⟩
        simp only [if_true]
        by_cases hm : rf.matchIndex peer < args.prevLogIndex + args.entries.length
        · rw [if_pos hm, max_eq_right hm.le]
          simp [setMatchIndex]
        · rw [if_neg hm, max_eq_left (Nat.le_of_not_lt hm), setMatchIndex_same]
      | false =>
        refine Or.inr ⟨rfl, ?_⟩
        simp only [Bool.false_eq_true, if_false]
        congr 1
        split_ifs <;> omega

theorem installSnapshotReply_cases (rf : Raft N C S) (peer : Fin N) (args : InstallSnapshotArgs N S)
    (reply : InstallSnapshotReply) :
    (rf.currentTerm < reply.term ∧ rf.installSnapshotReply peer args reply = rf.stepDown reply.term) ∨
    ((rf.state ≠ .leader ∨ rf.currentTerm ≠ args.term) ∧ rf.installSnapshotReply peer args reply = rf) ∨
    (rf.state = .leader ∧ rf.currentTerm = args.term ∧ rf.installSnapshotReply peer args reply =
      (rf.setNextIndex peer (max (rf.nextIndex peer) (args.lastIncludedIndex + 1))).setMatchIndex peer
        (max (rf.matchIndex peer) args.lastIncludedIndex)) := by
  unfold installSnapshotReply
  by_cases hlt : rf.currentTerm < reply.term
  · exact Or.inl ⟨hlt, if_pos hlt⟩
  · rw [if_neg hlt]
    right
    by_cases hlate : rf.state ≠ .leader ∨ rf.currentTerm ≠ args.term
    · exact Or.inl ⟨hlate, if_pos hlate⟩
    · rw [if_neg hlate]
      push Not at hlate
      refine Or.inr ⟨hlate.1, hlate.2, ?_⟩
      have hnext : (if rf.nextIndex peer < args.lastIncludedIndex + 1 then
            rf.setNextIndex peer (args.lastIncludedIndex + 1) else rf) =
          rf.setNextIndex peer (max (rf.nextIndex peer) (args.lastIncludedIndex + 1)) := by
        split
        · rename_i hn
          rw [max_eq_right hn.le]
        · rename_i hn
          rw [max_eq_left (Nat.le_of_not_lt hn), setNextIndex_same]
      simp only [hnext]
      generalize hrf : rf.setNextIndex peer (max (rf.nextIndex peer) (args.lastIncludedIndex + 1)) = rf₁
      have hm : rf₁.matchIndex = rf.matchIndex := by rw [← hrf]; rfl
      rw [← hm]
      split
      · rename_i hlt
        rw [max_eq_right hlt.le]
      · rename_i hge
        rw [max_eq_left (Nat.le_of_not_lt hge), setMatchIndex_same]

end

/-! ## The requests of a leader -/

section
variable {N : Nat} {C S : Type} {rf : Raft N C S} {peer : Fin N}

theorem replicateTo_eq (hl : rf.state = .leader) :
    rf.replicateTo peer = some (some (if rf.nextIndex peer ≤ rf.lastIncludedIndex then
      .install ⟨rf.currentTerm, rf.me, rf.lastIncludedIndex, rf.lastIncludedTerm, rf.persister.snapshot⟩
    else
      .append ⟨rf.currentTerm, rf.me, rf.nextIndex peer - 1, rf.termAt (rf.nextIndex peer - 1),
        rf.log.drop (rf.nextIndex peer - rf.lastIncludedIndex - 1), rf.commitIndex⟩)) := by
  unfold replicateTo
  simp only [hl, ne_eq, not_true_eq_false, if_false]
  by_cases hn : rf.nextIndex peer ≤ rf.lastIncludedIndex
  · rw [if_pos hn, if_pos hn]
  · rw [if_neg hn, if_neg hn]
    by_cases hle : rf.nextIndex peer ≤ rf.lastLogIndex
    · have hk : rf.nextIndex peer - rf.lastIncludedIndex - 1 ≤ rf.log.length := by
        unfold lastLogIndex at hle; omega
      rw [if_pos hle, toSliceIndex_eq (Nat.lt_of_not_le hn), goFrom_natCast hk]
      rfl
    · have hk : rf.log.length ≤ rf.nextIndex peer - rf.lastIncludedIndex - 1 := by
        unfold lastLogIndex at hle; omega
      rw [if_neg hle, List.drop_eq_nil_of_le hk]
      rfl

theorem replicateTo_leader {call : Call N C S} (h : rf.replicateTo peer = some (some call)) : rf.state = .leader := by
  by_contra hl
  simp [replicateTo, hl] at h

theorem replicateTo_append {args : AppendEntriesArgs N C} (h : rf.replicateTo peer = some (some (.append args))) :
    rf.state = .leader ∧ rf.lastIncludedIndex < rf.nextIndex peer ∧
      args = ⟨rf.currentTerm, rf.me, rf.nextIndex peer - 1, rf.termAt (rf.nextIndex peer - 1),
        rf.log.drop (rf.nextIndex peer - rf.lastIncludedIndex - 1), rf.commitIndex⟩ := by
  have hl := replicateTo_leader h
  rw [replicateTo_eq hl] at h
  split at h
  · simp at h
  · rename_i hn
    simp only [Option.some.injEq, Call.append.injEq] at h
    exact ⟨hl, Nat.lt_of_not_le hn, h.symm⟩

theorem replicateTo_install {args : InstallSnapshotArgs N S} (h : rf.replicateTo peer = some (some (.install args))) :
    rf.state = .leader ∧ rf.nextIndex peer ≤ rf.lastIncludedIndex ∧
      args = ⟨rf.currentTerm, rf.me, rf.lastIncludedIndex, rf.lastIncludedTerm, rf.persister.snapshot⟩ := by
  have hl := replicateTo_leader h
  rw [replicateTo_eq hl] at h
  split at h
  · rename_i hn
    simp only [Option.some.injEq, Call.install.injEq] at h
    exact ⟨hl, hn, h.symm⟩
  · simp at h

end

end Raft

/-! ## The steps of a server, case by case -/

section
variable {N : Nat} {C : Type}

inductive Server.Act (srv : Server N C) : Local N C → Server N C → List (Packet N C) → Prop
  | electionTimeout : srv.rf.state ≠ .leader →
      Act srv .electionTimeout
        { srv with
          rf := srv.rf.startElection.1
          votes := fun t => if t = srv.rf.startElection.2.term then 1 else srv.votes t }
        (((List.finRange N).filter (· ≠ srv.rf.me)).map fun peer =>
          .requestVote peer srv.epoch srv.rf.startElection.2)
  | append {peer : Fin N} {args : AppendEntriesArgs N C} : peer ≠ srv.rf.me →
      srv.rf.replicateTo peer = some (some (.append args)) →
      Act srv (.replicate peer) srv [.appendEntries peer srv.epoch args]
  | install {peer : Fin N} {args : InstallSnapshotArgs N (Snapshot C)} : peer ≠ srv.rf.me →
      srv.rf.replicateTo peer = some (some (.install args)) →
      Act srv (.replicate peer) srv [.installSnapshot peer srv.epoch args]
  | start (command : C) : Act srv (.start command) { srv with rf := (srv.rf.start command).1 } []
  | collect {b : Raft.Batch C} : srv.applier = none → srv.rf.collect = some b →
      Act srv .collect { srv with applier := some b } []
  | skip {b : Raft.Batch C} {e : LogEntry C} {rest : List (LogEntry C)} : srv.applier = some b →
      b.entries = e :: rest → b.next ≤ b.lastIncludedIndex →
      Act srv .send { srv with applier := some { b with next := b.next + 1, entries := rest } } []
  | send {b : Raft.Batch C} {e : LogEntry C} {rest : List (LogEntry C)} : srv.applier = some b →
      b.entries = e :: rest → b.lastIncludedIndex < b.next →
      Act srv .send
        { srv with
          applier := some { b with next := b.next + 1, entries := rest }
          applyCh := srv.applyCh ++ [.command e.command b.next]
          sent := srv.sent ++ [b.next] } []
  | finish {b : Raft.Batch C} : srv.applier = some b → b.entries = [] →
      Act srv .finish { srv with rf := srv.rf.applied b.commitIndex, applier := none } []
  | sendSnapshot {k : Nat} {m : Msg C} : srv.senders[k]? = some m →
      Act srv (.sendSnapshot k)
        { srv with senders := srv.senders.eraseIdx k, applyCh := srv.applyCh ++ [m] } []
  | command {c : C} {i : Nat} {rest : List (Msg C)} : srv.service.holding = none →
      srv.applyCh = .command c i :: rest →
      Act srv .consume
        { srv with
          applyCh := rest
          service := { srv.service with lastApplied := i, commands := srv.service.commands ++ [i] } } []
  | hold {snap : Snapshot C} {t i : Nat} {rest : List (Msg C)} : srv.service.holding = none →
      srv.applyCh = .snapshot snap t i :: rest →
      Act srv .consume
        { srv with applyCh := rest, service := { srv.service with holding := some (snap, t, i) } } []
  | installed {snap : Snapshot C} {t i : Nat} {rf : Raft N C (Snapshot C)} :
      srv.service.holding = some (snap, t, i) → srv.rf.condInstallSnapshot t i snap = some (rf, true) →
      Act srv .condInstall
        { srv with
          rf
          service := { srv.service with
            lastApplied := i
            installed := srv.service.installed ++ [i]
            holding := none } } []
  | refused {snap : Snapshot C} {t i : Nat} {rf : Raft N C (Snapshot C)} :
      srv.service.holding = some (snap, t, i) → srv.rf.condInstallSnapshot t i snap = some (rf, false) →
      Act srv .condInstall { srv with rf, service := { srv.service with holding := none } } []
  | snapshot {i : Nat} {data : List UInt8} {rf : Raft N C (Snapshot C)} : i ∈ srv.service.commands →
      srv.rf.snapshot i ⟨data, i, srv.rf.fullLog.take i⟩ = some rf →
      Act srv (.snapshot i data) { srv with rf } []
  | restart : Act srv .restart (Server.boot srv.rf.me srv.rf.persister (srv.epoch + 1)) []

theorem Server.act_cases {srv srv' : Server N C} {l : Local N C} {out : List (Packet N C)}
    (h : srv.act l = some (srv', out)) : srv.Act l srv' out := by
  cases l with
  | electionTimeout =>
    simp only [Server.act] at h
    split at h
    · cases h
    · rename_i hs
      cases h; exact .electionTimeout hs
  | replicate peer =>
    simp only [Server.act] at h
    split at h
    · cases h
    · rename_i hp
      cases hr : srv.rf.replicateTo peer with
      | none => simp [hr] at h
      | some c =>
        cases c with
        | none => simp [hr] at h
        | some c =>
          cases c with
          | append args => simp only [hr] at h; cases h; exact .append hp hr
          | install args => simp only [hr] at h; cases h; exact .install hp hr
  | start c => simp only [Server.act] at h; cases h; exact .start c
  | collect =>
    simp only [Server.act] at h
    split at h
    · rename_i h1 h2
      cases h; exact .collect h1 h2
    · cases h
  | send =>
    simp only [Server.act] at h
    cases ha : srv.applier with
    | none => simp [ha] at h
    | some b =>
      cases he : b.entries with
      | nil => simp [ha, Raft.Batch.send, he] at h
      | cons e rest =>
        by_cases hn : b.next ≤ b.lastIncludedIndex
        · simp only [ha, Raft.Batch.send, he, if_pos hn] at h
          cases h; exact .skip ha he hn
        · simp only [ha, Raft.Batch.send, he, if_neg hn] at h
          cases h; exact .send ha he (Nat.lt_of_not_le hn)
  | finish =>
    simp only [Server.act] at h
    cases ha : srv.applier with
    | none => simp [ha] at h
    | some b =>
      cases he : b.entries with
      | nil => simp only [ha, he] at h; cases h; exact .finish ha he
      | cons e rest => simp [ha, he] at h
  | sendSnapshot k =>
    simp only [Server.act] at h
    cases hm : srv.senders[k]? with
    | none => simp [hm] at h
    | some m => simp only [hm] at h; cases h; exact .sendSnapshot hm
  | consume =>
    simp only [Server.act] at h
    split at h
    · rename_i h1 h2
      cases h; exact .command h1 h2
    · rename_i h1 h2
      cases h; exact .hold h1 h2
    · cases h
  | condInstall =>
    simp only [Server.act] at h
    cases hh : srv.service.holding with
    | none => simp [hh] at h
    | some m =>
      obtain ⟨snap, t, i⟩ := m
      cases hc : srv.rf.condInstallSnapshot t i snap with
      | none => simp [hh, hc] at h
      | some r =>
        obtain ⟨rf, ok⟩ := r
        cases ok with
        | true => simp only [hh, hc] at h; cases h; exact .installed hh hc
        | false => simp only [hh, hc] at h; cases h; exact .refused hh hc
  | snapshot i data =>
    simp only [Server.act] at h
    split at h
    · rename_i hi
      cases hr : srv.rf.snapshot i ⟨data, i, srv.rf.fullLog.take i⟩ with
      | none => simp [hr] at h
      | some rf => simp only [hr] at h; cases h; exact .snapshot hi hr
    · cases h
  | restart => simp only [Server.act] at h; cases h; exact .restart

inductive Server.Receive (srv : Server N C) : Packet N C → Server N C → List (Packet N C) → Prop
  | requestVote (dst : Fin N) (epoch : Nat) (args : RequestVoteArgs N) :
      Receive srv (.requestVote dst epoch args) { srv with rf := (srv.rf.requestVote args).1 }
        [.requestVoteReply args.candidateId dst epoch args (srv.rf.requestVote args).2]
  | requestVoteReply (dst src : Fin N) (args : RequestVoteArgs N) (reply : RequestVoteReply) :
      Receive srv (.requestVoteReply dst src srv.epoch args reply)
        { srv with
          rf := (srv.rf.requestVoteReply (srv.votes args.term) args reply).1
          votes := fun t =>
            if t = args.term then (srv.rf.requestVoteReply (srv.votes args.term) args reply).2 else srv.votes t }
        []
  | appendEntries (dst : Fin N) (epoch : Nat) {args : AppendEntriesArgs N C} {rf : Raft N C (Snapshot C)}
      {reply : AppendEntriesReply} : srv.rf.appendEntries args = some (rf, reply) →
      Receive srv (.appendEntries dst epoch args) { srv with rf }
        [.appendEntriesReply args.leaderId dst epoch args reply]
  | appendEntriesReply (dst src : Fin N) (args : AppendEntriesArgs N C) (reply : AppendEntriesReply) :
      Receive srv (.appendEntriesReply dst src srv.epoch args reply)
        { srv with rf := srv.rf.appendEntriesReply src args reply } []
  | installSnapshot (dst : Fin N) (epoch : Nat) (args : InstallSnapshotArgs N (Snapshot C)) :
      Receive srv (.installSnapshot dst epoch args)
        { srv with
          rf := (srv.rf.installSnapshot args).1
          senders := srv.senders ++ (srv.rf.installSnapshot args).2.2.toList }
        [.installSnapshotReply args.leaderId dst epoch args (srv.rf.installSnapshot args).2.1]
  | installSnapshotReply (dst src : Fin N) (args : InstallSnapshotArgs N (Snapshot C))
      (reply : InstallSnapshotReply) :
      Receive srv (.installSnapshotReply dst src srv.epoch args reply)
        { srv with rf := srv.rf.installSnapshotReply src args reply } []
  | lost {p : Packet N C} : Receive srv p srv []

theorem Server.receive_cases {srv srv' : Server N C} {p : Packet N C} {out : List (Packet N C)}
    (h : srv.receive p = some (srv', out)) : srv.Receive p srv' out := by
  cases p with
  | requestVote dst epoch args => simp only [Server.receive] at h; cases h; exact .requestVote dst epoch args
  | requestVoteReply dst src epoch args reply =>
    simp only [Server.receive] at h
    by_cases he : epoch ≠ srv.epoch
    · rw [if_pos he] at h; cases h; exact .lost
    · rw [if_neg he] at h
      have he' : epoch = srv.epoch := Decidable.not_not.mp he
      subst he'
      cases h; exact .requestVoteReply dst src args reply
  | appendEntries dst epoch args =>
    simp only [Server.receive] at h
    cases hr : srv.rf.appendEntries args with
    | none => simp [hr] at h
    | some r => simp only [hr] at h; cases h; exact .appendEntries dst epoch hr
  | appendEntriesReply dst src epoch args reply =>
    simp only [Server.receive] at h
    by_cases he : epoch ≠ srv.epoch
    · rw [if_pos he] at h; cases h; exact .lost
    · rw [if_neg he] at h
      have he' : epoch = srv.epoch := Decidable.not_not.mp he
      subst he'
      cases h; exact .appendEntriesReply dst src args reply
  | installSnapshot dst epoch args =>
    simp only [Server.receive] at h; cases h; exact .installSnapshot dst epoch args
  | installSnapshotReply dst src epoch args reply =>
    simp only [Server.receive] at h
    by_cases he : epoch ≠ srv.epoch
    · rw [if_pos he] at h; cases h; exact .lost
    · rw [if_neg he] at h
      have he' : epoch = srv.epoch := Decidable.not_not.mp he
      subst he'
      cases h; exact .installSnapshotReply dst src args reply

/-- A step of the cluster leaves a server alone, or is a local step of it, or
delivers a packet to it. -/
theorem Cluster.server_cases {σ σ' : Cluster N C} {a : Action N C} (h : σ.step a = some σ') (s : Fin N) :
    σ'.server s = σ.server s ∨
    (∃ l out, a = .server s l ∧ (σ.server s).Act l (σ'.server s) out) ∨
    ∃ k p out, a = .deliver k ∧ σ.net[k]? = some p ∧ p.dst = s ∧
      (σ.server s).Receive p (σ'.server s) out := by
  obtain ⟨q, l, srv, out, rfl, hl, rfl⟩ | ⟨k, p, srv, out, rfl, hk, hr, rfl⟩ | ⟨k, rfl, -, rfl⟩ :=
    Cluster.step_cases h
  · by_cases hsq : s = q
    · subst hsq
      right; left
      rw [put_self]
      exact ⟨l, out, rfl, Server.act_cases hl⟩
    · exact Or.inl (put_ne _ _ _ hsq)
  · by_cases hsq : s = p.dst
    · subst hsq
      right; right
      rw [put_self]
      exact ⟨k, p, out, rfl, hk, rfl, Server.receive_cases hr⟩
    · exact Or.inl (put_ne _ _ _ hsq)
  · exact Or.inl rfl

theorem Cluster.packet_cases {σ σ' : Cluster N C} {a : Action N C} (h : σ.step a = some σ') {p : Packet N C}
    (hp : p ∈ σ'.net) :
    p ∈ σ.net ∨
    (∃ s l out, (σ.server s).Act l (σ'.server s) out ∧ p ∈ out) ∨
    ∃ s q out, q ∈ σ.net ∧ q.dst = s ∧ (σ.server s).Receive q (σ'.server s) out ∧ p ∈ out := by
  obtain ⟨s, l, srv, out, rfl, hl, rfl⟩ | ⟨k, q, srv, out, rfl, hk, hr, rfl⟩ | ⟨k, rfl, -, rfl⟩ :=
    Cluster.step_cases h
  · rcases List.mem_append.mp hp with hp | hp
    · exact Or.inl hp
    · refine Or.inr (Or.inl ⟨s, l, out, ?_, hp⟩)
      rw [put_self]
      exact Server.act_cases hl
  · rcases List.mem_append.mp hp with hp | hp
    · exact Or.inl (List.mem_of_mem_eraseIdx hp)
    · refine Or.inr (Or.inr ⟨q.dst, q, out, List.mem_of_getElem? hk, rfl, ?_, hp⟩)
      rw [put_self]
      exact Server.receive_cases hr
  · exact Or.inl (List.mem_of_mem_eraseIdx hp)

end

end DistLab
