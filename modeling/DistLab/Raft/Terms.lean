import DistLab.Raft.LogMatching
import Mathlib.Data.List.Pairwise

/-!
# Terms along a log

A leader's log has its terms in order, and so have the logs that are copied from
it. `CondInstallSnapshot` puts a snapshot in front of what the log has behind its
index, whatever the terms; the order is kept as long as the snapshot's term is not
above that of the entry behind it. No term in a log is above `currentTerm`, order
or not.
-/

namespace DistLab

section
variable {N : Nat} {C : Type}

/-- `lastIncludedTerm`, then the terms of `rf.log`. -/
def Raft.terms {S : Type} (rf : Raft N C S) : List Nat := rf.lastIncludedTerm :: rf.log.map LogEntry.term

theorem Raft.getLast?_terms {S : Type} (rf : Raft N C S) : rf.terms.getLast? = some rf.lastLogTerm := by
  unfold Raft.terms Raft.lastLogTerm
  cases hl : rf.log.getLast? with
  | none => simp [List.getLast?_eq_none_iff.mp hl]
  | some e => simp [List.getLast?_cons, hl]

/-- A snapshot is accepted only if the entry behind it, if there is one, has its
term or a later one. -/
def Cluster.OrderedInstall (σ : Cluster N C) (a : Action N C) : Prop :=
  ∀ x ∈ σ.accepts a, ∀ e ∈ x.server.rf.logAt (x.index + 1), x.term ≤ e.term

instance (σ : Cluster N C) (a : Action N C) : Decidable (σ.OrderedInstall a) :=
  inferInstanceAs (Decidable (∀ x ∈ σ.accepts a, ∀ e ∈ _, _))

variable {h h' : Ledger (Fin N) (LogEntry C)} {σ σ' : Cluster N C} {s : Fin N}

theorem Ascending.le_lastTerm {l : List (LogEntry C)} (hl : Ascending l) {e : LogEntry C} (he : e ∈ l) :
    e.term ≤ lastTerm LogEntry.term l := by
  have hne : l ≠ [] := List.ne_nil_of_mem he
  rw [lastTerm, List.getLast?_eq_some_getLast hne]
  exact hl.rel_getLast_of_rel_getLast_getLast he le_rfl

theorem Rel.ascending_step (hr : Rel h σ) (hr' : Rel h' σ') {a : Action N C} (hstep : σ.step a = some σ')
    (hord : σ.OrderedInstall a) (hasc : Ascending (σ.server s).rf.fullLog) : Ascending (σ'.server s).rf.fullLog := by
  cases hr.log_step hstep s with
  | same heq => rwa [heq]
  | start e hst heq =>
    rw [(hr'.leader_log hst).2]
    exact hr'.sound.pairwise (hr'.sound.log_valid _)
  | accept m hm hno heq =>
    rw [heq]
    exact (hr.sound.pairwise (hr.sound.log_valid _)).sublist (List.take_sublist m _)
  | install snap t i ha hh hlt heq _ =>
    subst ha
    have hord := hord _ (Cluster.accepts_of_holding hh hlt)
    have hb : (σ.server s).Brings snap t i := Or.inr (Or.inr hh)
    have hsnap := hr.shaped snap t i (Or.inl ⟨s, Or.inr hb⟩)
    have hx := hr.sound.pairwise (hr.sound.committed_valid ((hr.server s).pending snap t i hb))
    rw [heq]
    refine List.pairwise_append.mpr ⟨hx, hasc.sublist (List.drop_sublist i _), fun d hd b hbm => ?_⟩
    have hge := (hr.server s).tracks.core.commit_ge
    obtain ⟨e, hmem, hle⟩ : ∃ e ∈ (σ.server s).rf.logAt (i + 1), e.term ≤ b.term := by
      cases hdrop : (σ.server s).rf.fullLog.drop i with
      | nil =>
        rw [hdrop] at hbm
        cases hbm
      | cons e rest =>
        have hat : (σ.server s).rf.logAt (i + 1) = (σ.server s).rf.fullLog[i]? := by
          rw [Raft.getElem_fullLog (hr.shaped.server s) (by omega), Raft.logAt, if_neg (by omega)]
          congr 1
          omega
        refine ⟨e, ?_, ?_⟩
        · rw [hat, Option.mem_def, ← List.head?_drop, hdrop]
          rfl
        · have hsort : (e :: rest).Pairwise fun a b => a.term ≤ b.term := hdrop ▸ hasc.sublist (List.drop_sublist i _)
          rw [hdrop] at hbm
          rcases List.mem_cons.mp hbm with rfl | hbm
          · exact le_rfl
          · exact List.rel_of_pairwise_cons hsort hbm
    calc d.term
      _ ≤ lastTerm LogEntry.term snap.entries := Ascending.le_lastTerm hx hd
      _ = t := hsnap.term
      _ ≤ e.term := hord e hmem
      _ ≤ b.term := hle

/-! ## currentTerm -/

theorem Rel.term_le (hr : Rel h σ) (s : Fin N) :
    ∀ e ∈ (σ.server s).rf.fullLog, e.term ≤ (σ.server s).rf.currentTerm := by
  have hc := (hr.server s).tracks.core
  intro e he
  rcases List.mem_append.mp he with he | he
  · exact hr.sound.committed_le (hc.folded_committed (hr.shaped.server s)) e he
  · rw [hc.log] at he
    rw [← hc.term]
    exact hr.sound.branch_le e (List.mem_of_mem_drop he)

/-! ## Runs -/

theorem Raft.Shaped.terms {rf : Raft N C (Snapshot C)} (hsh : rf.Shaped) (hasc : Ascending rf.fullLog) :
    rf.terms.Pairwise (· ≤ ·) := by
  have hparts := List.pairwise_append.mp hasc
  refine List.pairwise_cons.mpr ⟨fun t ht => ?_, List.pairwise_map.mpr hparts.2.1⟩
  obtain ⟨e, he, rfl⟩ := List.mem_map.mp ht
  rw [← hsh.term]
  by_cases hnil : rf.persister.snapshot.entries = []
  · rw [hnil]
    exact Nat.zero_le _
  · obtain ⟨d, hd, hlast⟩ := lastTerm_mem LogEntry.term hnil
    rw [← hlast]
    exact hparts.2.2 d hd e he

theorem Raft.mem_terms {rf : Raft N C (Snapshot C)} (hsh : rf.Shaped) {t : Nat} (ht : t ∈ rf.terms) :
    t = 0 ∨ ∃ e ∈ rf.fullLog, e.term = t := by
  rcases List.mem_cons.mp ht with rfl | ht
  · rw [← hsh.term]
    by_cases hnil : rf.persister.snapshot.entries = []
    · rw [hnil]
      exact Or.inl rfl
    · obtain ⟨d, hd, hlast⟩ := lastTerm_mem LogEntry.term hnil
      exact Or.inr ⟨d, List.mem_append_left _ hd, hlast⟩
  · obtain ⟨e, he, rfl⟩ := List.mem_map.mp ht
    exact Or.inr ⟨e, List.mem_append_right _ he, rfl⟩

/-- In a run that puts no snapshot in front of an entry of an earlier term, the
terms of every server are in order, and `lastLogTerm` is the largest. -/
theorem terms_ascend (r : RaftRun N C) (hc : r.Meets Cluster.OrderedInstall) (k : Nat) (s : Fin N) :
    ((r.state k).server s).rf.terms.Pairwise (· ≤ ·) ∧ ∀ t ∈ ((r.state k).server s).rf.terms,
      t ≤ ((r.state k).server s).rf.lastLogTerm ∧ t ≤ ((r.state k).server s).rf.currentTerm := by
  obtain ⟨g, hg, -⟩ := r.history hc
    (R := fun (h : Ledger (Fin N) (LogEntry C)) σ => Rel h σ ∧ ∀ s, Ascending (σ.server s).rf.fullLog)
    ⟨Rel.init, fun s => List.Pairwise.nil⟩ (by
      intro h σ a σ' hr hord hstep
      obtain ⟨h', hle, hr'⟩ := hr.1.step hstep
      exact ⟨h', hle, hr', fun s => hr.1.ascending_step hr' hstep hord (hr.2 s)⟩)
  obtain ⟨hr, hasc⟩ := hg k
  have hsh := hr.shaped.server s
  have hterms := hsh.terms (hasc s)
  refine ⟨hterms, fun t ht => ⟨?_, ?_⟩⟩
  · have hne := List.ne_nil_of_mem ht
    have hlast := ((r.state k).server s).rf.getLast?_terms
    rw [List.getLast?_eq_some_getLast hne, Option.some.injEq] at hlast
    rw [← hlast]
    exact hterms.rel_getLast ht
  · rcases Raft.mem_terms hsh ht with rfl | ⟨e, he, rfl⟩
    · exact Nat.zero_le _
    · exact hr.term_le s e he

theorem catchUp_terms : ((catchUp.state 18).server 2).rf.lastIncludedTerm = 1 ∧
    ((catchUp.state 18).server 2).rf.terms.Pairwise (· ≤ ·) ∧
    ∀ t ∈ ((catchUp.state 18).server 2).rf.terms, t ≤ ((catchUp.state 18).server 2).rf.lastLogTerm ∧
      t ≤ ((catchUp.state 18).server 2).rf.currentTerm :=
  ⟨by decide +kernel, terms_ascend catchUp (Run.meets_ofList _ (by decide +kernel)) 18 2⟩

/-- The snapshot of term 2 is put in front of an entry of term 1, and `lastLogTerm`
is 1. -/
theorem staleSuffix_terms : ((staleSuffix.state 31).server 0).rf.terms = [2, 1] ∧
    ((staleSuffix.state 31).server 0).rf.lastLogTerm = 1 := by
  decide +kernel

end

end DistLab
