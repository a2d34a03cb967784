import DistLab.Lib.Ledger

/-!
# Soundness of ledgers

Every move of a member extends the history and keeps it sound. The cases that
carry weight are winning an election, where the votes of a majority give the
new leader all that was committed, and copying a leader's log, where nothing
committed is cut off.
-/

namespace DistLab

namespace Ledger

/-! ## Every move extends the history -/

section
variable {ι ε : Type*} [Fintype ι] [DecidableEq ι] {tm : ε → ℕ} {h h' : Ledger ι ε} {s : ι}

theorem Step.le (hs : Sound tm h) (st : Step tm s h h') : Le h h' := by
  cases st with
  | advance t ht =>
    refine { Le.refl (h := h) with term := fun r => ?_ }
    by_cases hr : r = s
    · subst hr; simpa [Ledger.advance] using ht
    · simp [Ledger.advance, hr]
  | stand =>
    refine { Le.refl (h := h) with term := fun r => ?_, voted := fun r t p hv => ?_, stood := fun t p ht => ?_ }
    · by_cases hr : r = s
      · subst hr; simp [Ledger.stand]
      · simp [Ledger.stand, hr]
    · have := hs.voted_le hv
      have hn : ¬ (r = s ∧ t = h.term s + 1) := by rintro ⟨rfl, rfl⟩; omega
      simpa [Ledger.stand, hn] using hv
    · have hn : ¬ (p = s ∧ t = h.term s + 1) := by rintro ⟨rfl, rfl⟩; omega
      simp [Ledger.stand, hn]
  | vote p _ hnone _ _ =>
    refine { Le.refl (h := h) with voted := fun r t q hv => ?_ }
    have hn : ¬ (r = s ∧ t = h.term s) := by rintro ⟨rfl, rfl⟩; rw [hnone] at hv; cases hv
    simpa [Ledger.vote, hn] using hv
  | win Q hnone _ _ _ =>
    refine { Le.refl (h := h) with
      leader := fun t p hl => ?_
      log := fun t => ?_
      acked := fun r t => ?_
      frozen := fun r t ht => ?_ }
    · have hn : t ≠ h.term s := by rintro rfl; rw [hnone] at hl; cases hl
      simpa [Ledger.win, hn] using hl
    · by_cases ht : t = h.term s
      · rw [ht, hs.log_none hnone]; exact List.nil_prefix
      · simp [Ledger.win, ht]
    · by_cases hr : r = s ∧ t = h.term s
      · have := hs.acked_le r t
        rw [hr.2, hs.log_none hnone] at this
        simp only [Ledger.win, hr, and_self, ite_true]
        rw [hr.1] at this
        simp at this; omega
      · simp [Ledger.win, hr]
    · have hn : ¬ (r = s ∧ t = h.term s) := by rintro ⟨rfl, rfl⟩; omega
      simp [Ledger.win, hn]
  | append e _ _ =>
    refine { Le.refl (h := h) with log := fun t => ?_, acked := fun r t => ?_, frozen := fun r t ht => ?_ }
    · by_cases ht : t = h.term s
      · simp [Ledger.append, ht]
      · simp [Ledger.append, ht]
    · by_cases hr : r = s ∧ t = h.term s
      · obtain ⟨rfl, rfl⟩ := hr; simp [Ledger.append]
      · simp [Ledger.append, hr]
    · have hn : ¬ (r = s ∧ t = h.term s) := by rintro ⟨rfl, rfl⟩; omega
      simp [Ledger.append, hn]
  | accept p m _ _ _ =>
    refine { Le.refl (h := h) with acked := fun r t => ?_, frozen := fun r t ht => ?_ }
    · by_cases hr : r = s ∧ t = h.term s
      · obtain ⟨rfl, rfl⟩ := hr; simp [Ledger.accept]
      · simp [Ledger.accept, hr]
    · have hn : ¬ (r = s ∧ t = h.term s) := by rintro ⟨rfl, rfl⟩; omega
      simp [Ledger.accept, hn]
  | install x _ _ => exact { Le.refl (h := h) with }
  | commit n Q _ _ _ _ => exact { Le.refl (h := h) with committed := fun t k hk => Or.inr hk }

theorem Step.frame (st : Step tm s h h') : Frame s h h' := by
  cases st with
  | advance t _ => exact { Frame.refl (s := s) (h := h) with term := fun r hr => by simp [Ledger.advance, hr] }
  | stand =>
    exact { Frame.refl (s := s) (h := h) with
      term := fun r hr => by simp [Ledger.stand, hr]
      voted := fun r hr => by simp [Ledger.stand, hr]
      stood := fun t r hr => by simp [Ledger.stand, hr] }
  | vote p _ _ _ _ => exact { Frame.refl (s := s) (h := h) with voted := fun r hr => by simp [Ledger.vote, hr] }
  | win Q hnone _ _ _ =>
    refine { Frame.refl (s := s) (h := h) with leader := fun t r hr hl => ?_, log := fun t r hr hl => ?_ }
    · by_cases ht : t = h.term s
      · simp only [Ledger.win, ht, ite_true, Option.some.injEq] at hl; exact absurd hl.symm hr
      · simpa [Ledger.win, ht] using hl
    · have hn : t ≠ h.term s := by rintro rfl; rw [hnone] at hl; cases hl
      simp [Ledger.win, hn]
  | append e hlead _ =>
    refine { Frame.refl (s := s) (h := h) with
      log := fun t r hr hl => ?_
      branch := fun r hr => by simp [Ledger.append, hr] }
    have hn : t ≠ h.term s := by rintro rfl; rw [hlead] at hl; exact hr (Option.some.inj hl).symm
    simp [Ledger.append, hn]
  | accept p m _ _ _ =>
    exact { Frame.refl (s := s) (h := h) with branch := fun r hr => by simp [Ledger.accept, hr] }
  | install x _ _ =>
    exact { Frame.refl (s := s) (h := h) with branch := fun r hr => by simp [Ledger.install, hr] }
  | commit n Q hlead _ _ _ =>
    refine { Frame.refl (s := s) (h := h) with committed := fun t r k hr hl hk => ?_ }
    rcases hk with ⟨rfl, -⟩ | hk
    · rw [hlead] at hl; exact absurd (Option.some.inj hl).symm hr
    · exact hk

end

/-! ## Every move keeps a ledger sound -/

section
variable {ι ε : Type*} [Fintype ι] {tm : ε → ℕ} {h h' : Ledger ι ε} (hs : Sound tm h) (hle : Le h h')
include hs hle

theorem Sound.vote_newer_mono {r p : ι} {t t' m : ℕ} (hv : h.voted r t' = some p) (ht : t < t')
    (hm : m ≤ h'.acked r t) (he : h'.Ends tm t m) (hb : ¬ h'.Blocked t m) :
    t < lastTerm tm (h'.stood t' p) ∨ t = lastTerm tm (h'.stood t' p) ∧ m ≤ (h'.stood t' p).length := by
  rw [hle.frozen r t (ht.trans_le (hs.voted_le hv))] at hm
  rw [hle.stood t' p (hs.voted_le (hs.voted_stood hv))]
  exact hs.vote_newer hv ht hm (hle.ends_of (hm.trans (hs.acked_le r t)) he) fun hb' => hb (hle.blocked hb')

/-- An old leader holds what can still be committed: entries that were appended
to an older term since then are blocked by its own voters. -/
theorem Sound.complete_mono {p : ι} {t t' m : ℕ} (hp : h.leader t' = some p) (ht : t < t')
    (he : h'.Ends tm t m) (hb : ¬ h'.Blocked t m) : (h'.log t).take m <+: h'.stood t' p := by
  rw [hle.stood t' p (hs.leader_le hp)]
  rcases Nat.lt_or_ge (h.log t).length m with hm | hm
  · exfalso
    obtain ⟨Q, hQ, hv⟩ := hs.votes hp
    refine hb ⟨Q, hQ, fun r hr => ?_⟩
    have htr := ht.trans_le (hs.voted_le (hv r hr))
    refine ⟨htr.trans_le (hle.term r), ?_⟩
    rw [hle.frozen r t htr]
    exact (hs.acked_le r t).trans_lt hm
  · rw [hle.take_log hm]
    exact hs.complete hp ht (hle.ends_of hm he) fun hb' => hb (hle.blocked hb')

theorem Sound.quorum_mono {t n : ℕ} (hc : h.committed t n) :
    h'.Ends tm t n ∧ ∃ Q : Finset ι, Majority Q ∧ ∀ r ∈ Q, n ≤ h'.acked r t := by
  obtain ⟨he, Q, hQ, ha⟩ := hs.quorum hc
  exact ⟨hle.ends he, Q, hQ, fun r hr => (ha r hr).trans (hle.acked r t)⟩

theorem Sound.votes_mono {t : ℕ} {p : ι} (hl : h.leader t = some p) :
    ∃ Q : Finset ι, Majority Q ∧ ∀ r ∈ Q, h'.voted r t = some p := by
  obtain ⟨Q, hQ, hv⟩ := hs.votes hl
  exact ⟨Q, hQ, fun r hr => hle.voted _ _ _ (hv r hr)⟩

/-- A member whose branch and acknowledgements did not change keeps what it
acknowledged. -/
theorem Sound.acked_branch_mono {r : ι} {t m : ℕ} (hbr : h'.branch r = h.branch r)
    (hac : h'.acked r t = h.acked r t) (hm : m ≤ h'.acked r t)
    (hor : t = h'.term r ∨ h'.Ends tm t m ∧ ¬ h'.Blocked t m) : (h'.log t).take m <+: h'.branch r := by
  rw [hac] at hm
  have hml := hm.trans (hs.acked_le r t)
  rw [hbr, hle.take_log hml]
  rcases Nat.eq_zero_or_pos m with rfl | h0
  · exact List.nil_prefix
  apply hs.acked_branch hm
  rcases hor with ht | ⟨he, hb⟩
  · -- an acknowledgement in the new term cannot be older than the move to it
    have h1 := hs.acked_term (h0.trans_le hm).ne'
    have h2 := hle.term r
    left; omega
  · exact Or.inr ⟨hle.ends_of hml he, fun hb' => hb (hle.blocked hb')⟩

variable {s : ι} (hac : ∀ {r t}, ¬ (r = s ∧ t = h.term s) → h'.acked r t = h.acked r t)
include hac

theorem Sound.acked_le_mono (hown : h'.acked s (h.term s) ≤ (h'.log (h.term s)).length) (r : ι) (t : ℕ) :
    h'.acked r t ≤ (h'.log t).length := by
  by_cases hr : r = s ∧ t = h.term s
  · obtain ⟨rfl, rfl⟩ := hr
    exact hown
  · rw [hac hr]
    exact (hs.acked_le r t).trans (hle.length_log t)

theorem Sound.acked_term_mono {r : ι} {t : ℕ} (ha : h'.acked r t ≠ 0) : t ≤ h'.term r := by
  by_cases hr : r = s ∧ t = h.term s
  · obtain ⟨rfl, rfl⟩ := hr
    exact hle.term r
  · rw [hac hr] at ha
    exact (hs.acked_term ha).trans (hle.term r)

end

section
variable {ι ε : Type*} [Fintype ι] [DecidableEq ι] {tm : ε → ℕ} {h : Ledger ι ε} {s : ι} (hs : Sound tm h)
include hs

theorem Sound.advance {t : ℕ} (ht : h.term s ≤ t) : Sound tm (h.advance s t) := by
  have hle : Le h (h.advance s t) := Step.le hs (.advance t ht)
  have hterm : ∀ r, r ≠ s → (h.advance s t).term r = h.term r := fun r hr => by simp [Ledger.advance, hr]
  have hterms : (h.advance s t).term s = t := by simp [Ledger.advance]
  exact {
    voted_le := fun hv => (hs.voted_le hv).trans (hle.term _)
    voted_stood := hs.voted_stood
    votes := hs.votes
    log_none := hs.log_none
    stood_log := hs.stood_log
    log_new := hs.log_new
    stood_lt := hs.stood_lt
    stood_valid := hs.stood_valid
    branch_valid := hs.branch_valid
    branch_le := fun e he => (hs.branch_le e he).trans (hle.term _)
    leader_le := fun hl => (hs.leader_le hl).trans (hle.term _)
    leader_own := by
      intro p hl
      by_cases hp : p = s
      · subst hp
        rw [hterms] at hl ⊢
        have : t = h.term p := le_antisymm (hs.leader_le hl) ht
        subst this; exact hs.leader_own hl
      · rw [hterm p hp] at hl ⊢; exact hs.leader_own hl
    acked_le := hs.acked_le
    acked_term := fun ha => (hs.acked_term ha).trans (hle.term _)
    acked_branch := hs.acked_branch_mono hle rfl rfl
    vote_newer := hs.vote_newer_mono hle
    complete := hs.complete_mono hle
    quorum := hs.quorum_mono hle }

theorem Sound.stand : Sound tm (h.stand s) := by
  have hle : Le h (h.stand s) := Step.le hs .stand
  have hterm : ∀ r, r ≠ s → (h.stand s).term r = h.term r := fun r hr => by simp [Ledger.stand, hr]
  have hterms : (h.stand s).term s = h.term s + 1 := by simp [Ledger.stand]
  have hstood : ∀ t p, ¬ (p = s ∧ t = h.term s + 1) → (h.stand s).stood t p = h.stood t p :=
    fun t p hn => by simp [Ledger.stand, hn]
  have hstoods : (h.stand s).stood (h.term s + 1) s = h.branch s := by simp [Ledger.stand]
  have hvoted : ∀ {r t p}, (h.stand s).voted r t = some p →
      h.voted r t = some p ∨ r = s ∧ t = h.term s + 1 ∧ p = s := by
    intro r t p hv
    by_cases hn : r = s ∧ t = h.term s + 1
    · simp only [Ledger.stand, hn, and_self, ite_true, Option.some.injEq] at hv
      exact Or.inr ⟨hn.1, hn.2, hv.symm⟩
    · left; simpa [Ledger.stand, hn] using hv
  -- nobody leads the new term with the fresh candidate's vote
  have hnolead : ∀ {t p}, h.leader t = some p → ¬ (p = s ∧ t = h.term s + 1) := by
    rintro t p hl ⟨rfl, rfl⟩
    have := hs.leader_le hl
    omega
  exact {
    voted_le := by
      intro r t p hv
      rcases hvoted hv with hv | ⟨rfl, rfl, -⟩
      · exact (hs.voted_le hv).trans (hle.term _)
      · exact hterms.ge
    voted_stood := by
      intro r t p hv
      rcases hvoted hv with hv | ⟨rfl, rfl, rfl⟩
      · exact hle.voted _ _ _ (hs.voted_stood hv)
      · exact hv
    votes := hs.votes_mono hle
    log_none := hs.log_none
    stood_log := by intro t p hl; rw [hstood t p (hnolead hl)]; exact hs.stood_log hl
    log_new := by intro t p hl; rw [hstood t p (hnolead hl)]; exact hs.log_new hl
    stood_lt := by
      intro t p
      by_cases hn : p = s ∧ t = h.term s + 1
      · obtain ⟨rfl, rfl⟩ := hn
        rw [hstoods]
        exact fun e he => Nat.lt_succ_of_le (hs.branch_le e he)
      · rw [hstood t p hn]; exact hs.stood_lt
    stood_valid := by
      intro t p
      by_cases hn : p = s ∧ t = h.term s + 1
      · obtain ⟨rfl, rfl⟩ := hn
        rw [hstoods]; exact hs.branch_valid p
      · rw [hstood t p hn]; exact hs.stood_valid t p
    branch_valid := hs.branch_valid
    branch_le := fun e he => (hs.branch_le e he).trans (hle.term _)
    leader_le := fun hl => (hs.leader_le hl).trans (hle.term _)
    leader_own := by
      intro p hl
      by_cases hp : p = s
      · rw [hp, hterms] at hl
        exact absurd ⟨rfl, rfl⟩ (hnolead hl)
      · rw [hterm p hp] at hl ⊢; exact hs.leader_own hl
    acked_le := hs.acked_le
    acked_term := fun ha => (hs.acked_term ha).trans (hle.term _)
    acked_branch := hs.acked_branch_mono hle rfl rfl
    vote_newer := by
      intro r t' p t m hv ht hm he hb
      rcases hvoted hv with hv | ⟨rfl, rfl, rfl⟩
      · exact hs.vote_newer_mono hle hv ht hm he hb
      · -- the candidate's own log holds what it acknowledged
        have hm' : m ≤ h.acked p t := hm
        have he' := hle.ends_of (hm'.trans (hs.acked_le p t)) he
        have hpre := hs.acked_branch hm' (Or.inr ⟨he', fun hb' => hb (hle.blocked hb')⟩)
        rw [hstoods]
        exact hs.prefix_newer (hs.branch_valid p) he' hpre
    complete := hs.complete_mono hle
    quorum := hs.quorum_mono hle }

theorem Sound.vote {p : ι} (hps : p ≠ s) (hnone : h.voted s (h.term s) = none)
    (hp : h.voted p (h.term s) = some p) (hup : UpToDate tm (h.stood (h.term s) p) (h.branch s)) :
    Sound tm (h.vote s p) := by
  have hle : Le h (h.vote s p) := Step.le hs (.vote p hps hnone hp hup)
  have hvoted : ∀ {r t q}, (h.vote s p).voted r t = some q →
      h.voted r t = some q ∨ r = s ∧ t = h.term s ∧ q = p := by
    intro r t q hv
    by_cases hn : r = s ∧ t = h.term s
    · simp only [Ledger.vote, hn, and_self, ite_true, Option.some.injEq] at hv
      exact Or.inr ⟨hn.1, hn.2, hv.symm⟩
    · left; simpa [Ledger.vote, hn] using hv
  exact {
    voted_le := by
      intro r t q hv
      rcases hvoted hv with hv | ⟨rfl, rfl, -⟩
      · exact hs.voted_le hv
      · exact le_rfl
    voted_stood := by
      intro r t q hv
      rcases hvoted hv with hv | ⟨rfl, rfl, rfl⟩
      · exact hle.voted _ _ _ (hs.voted_stood hv)
      · exact hle.voted _ _ _ hp
    votes := hs.votes_mono hle
    log_none := hs.log_none
    stood_log := hs.stood_log
    log_new := hs.log_new
    stood_lt := hs.stood_lt
    stood_valid := hs.stood_valid
    branch_valid := hs.branch_valid
    branch_le := hs.branch_le
    leader_le := hs.leader_le
    leader_own := hs.leader_own
    acked_le := hs.acked_le
    acked_term := hs.acked_term
    acked_branch := hs.acked_branch
    vote_newer := by
      intro r t' q t m hv ht hm he hb
      rcases hvoted hv with hv | ⟨rfl, rfl, rfl⟩
      · exact hs.vote_newer_mono hle hv ht hm he hb
      · have hpre := hs.acked_branch hm (Or.inr ⟨he, hb⟩)
        have hnew := hs.prefix_newer (hs.branch_valid r) he hpre
        unfold UpToDate at hup
        show t < lastTerm tm (h.stood (h.term r) q) ∨
          t = lastTerm tm (h.stood (h.term r) q) ∧ m ≤ (h.stood (h.term r) q).length
        omega
    complete := hs.complete
    quorum := hs.quorum }

theorem Sound.win {Q : Finset ι} (hnone : h.leader (h.term s) = none) (hQ : Majority Q)
    (hv : ∀ r ∈ Q, h.voted r (h.term s) = some s) (hbr : h.branch s = h.stood (h.term s) s) :
    Sound tm (h.win s) := by
  have hle : Le h (h.win s) := Step.le hs (.win Q hnone hQ hv hbr)
  have hlead : ∀ {t p}, (h.win s).leader t = some p →
      h.leader t = some p ∧ t ≠ h.term s ∨ t = h.term s ∧ p = s := by
    intro t p hl
    by_cases ht : t = h.term s
    · simp only [Ledger.win, ht, ite_true, Option.some.injEq] at hl
      exact Or.inr ⟨ht, hl.symm⟩
    · left; exact ⟨by simpa [Ledger.win, ht] using hl, ht⟩
  have hlog : ∀ {t}, t ≠ h.term s → (h.win s).log t = h.log t := fun ht => by simp [Ledger.win, ht]
  have hlogs : (h.win s).log (h.term s) = h.branch s := by simp [Ledger.win]
  have hackr : ∀ {r t}, ¬ (r = s ∧ t = h.term s) → (h.win s).acked r t = h.acked r t :=
    fun hr => by simp [Ledger.win, hr]
  exact {
    voted_le := hs.voted_le
    voted_stood := hs.voted_stood
    votes := by
      intro t p hl
      rcases hlead hl with ⟨hl, -⟩ | ⟨rfl, rfl⟩
      · exact hs.votes hl
      · exact ⟨Q, hQ, hv⟩
    log_none := by
      intro t hl
      have ht : t ≠ h.term s := by rintro rfl; simp [Ledger.win] at hl
      rw [hlog ht]
      exact hs.log_none (by simpa [Ledger.win, ht] using hl)
    stood_log := by
      intro t p hl
      rcases hlead hl with ⟨hl, ht⟩ | ⟨rfl, rfl⟩
      · rw [hlog ht]; exact hs.stood_log hl
      · rw [hlogs, hbr]; exact List.prefix_rfl
    log_new := by
      intro t p hl e he
      rcases hlead hl with ⟨hl, ht⟩ | ⟨rfl, rfl⟩
      · rw [hlog ht] at he; exact hs.log_new hl e he
      · rw [hlogs, hbr] at he
        simp [Ledger.win] at he
    stood_lt := hs.stood_lt
    stood_valid := fun t p => hle.valid (hs.stood_valid t p)
    branch_valid := fun r => hle.valid (hs.branch_valid r)
    branch_le := hs.branch_le
    leader_le := by
      intro t p hl
      rcases hlead hl with ⟨hl, -⟩ | ⟨rfl, rfl⟩
      · exact hs.leader_le hl
      · exact le_rfl
    leader_own := by
      intro p hl
      rcases hlead hl with ⟨hl, ht⟩ | ⟨-, rfl⟩
      · have ht' : h.term p ≠ h.term s := ht
        simpa [Ledger.win, ht'] using hs.leader_own hl
      · simp [Ledger.win]
    acked_le := hs.acked_le_mono hle hackr (by simp [Ledger.win])
    acked_term := hs.acked_term_mono hle hackr
    acked_branch := by
      intro r t m hm hor
      by_cases hr : r = s ∧ t = h.term s
      · obtain ⟨rfl, rfl⟩ := hr
        rw [hlogs]; exact List.take_prefix m _
      · exact hs.acked_branch_mono hle rfl (hackr hr) hm hor
    vote_newer := hs.vote_newer_mono hle
    complete := by
      intro t' p t m hl ht he hb
      rcases hlead hl with ⟨hl, -⟩ | ⟨rfl, rfl⟩
      · exact hs.complete_mono hle hl ht he hb
      · have hlt := hlog (t := t) (by omega)
        rw [hlt]
        refine hs.electable hQ hv ht (hle.ends_of ?_ he) fun hb' => hb (hle.blocked hb')
        have := he.2.1
        rwa [hlt] at this
    quorum := hs.quorum_mono hle }

theorem Sound.append {e : ε} (hl : h.leader (h.term s) = some s) (htm : tm e = h.term s) :
    Sound tm (h.append s e) := by
  have hle : Le h (h.append s e) := Step.le hs (.append e hl htm)
  obtain ⟨hbr, hack⟩ := hs.leader_own hl
  have hlog : ∀ {t}, t ≠ h.term s → (h.append s e).log t = h.log t := fun ht => by simp [Ledger.append, ht]
  have hlogs : (h.append s e).log (h.term s) = h.log (h.term s) ++ [e] := by simp [Ledger.append]
  have hbrs : (h.append s e).branch s = h.branch s ++ [e] := by simp [Ledger.append]
  have hbrr : ∀ {r}, r ≠ s → (h.append s e).branch r = h.branch r := fun hr => by simp [Ledger.append, hr]
  have hackr : ∀ {r t}, ¬ (r = s ∧ t = h.term s) → (h.append s e).acked r t = h.acked r t :=
    fun hr => by simp [Ledger.append, hr]
  have hacks : (h.append s e).acked s (h.term s) = (h.log (h.term s)).length + 1 := by
    simp [Ledger.append, hack]
  exact {
    voted_le := hs.voted_le
    voted_stood := hs.voted_stood
    votes := hs.votes
    log_none := by
      intro t hl'
      have ht : t ≠ h.term s := by rintro rfl; exact absurd (hl.symm.trans hl') (by simp)
      rw [hlog ht]; exact hs.log_none hl'
    stood_log := fun hl' => (hs.stood_log hl').trans (hle.log _)
    log_new := by
      intro t p hl' a ha
      by_cases ht : t = h.term s
      · subst ht
        have hp : p = s := Option.some.inj (hl'.symm.trans hl)
        subst hp
        have hst : (h.append p e).stood = h.stood := rfl
        rw [hst, hlogs, List.drop_append_of_le_length (hs.stood_log hl').length_le] at ha
        rcases List.mem_append.mp ha with ha | ha
        · exact hs.log_new hl' a ha
        · rw [List.mem_singleton.mp ha, htm]
      · rw [hlog ht] at ha; exact hs.log_new hl' a ha
    stood_lt := hs.stood_lt
    stood_valid := fun t p => hle.valid (hs.stood_valid t p)
    branch_valid := by
      intro r
      by_cases hr : r = s
      · subst hr
        intro k h0 hk
        rw [hbrs] at hk ⊢
        rcases Nat.lt_or_ge (h.branch r).length k with hlt | hge
        · have hk' : k = (h.branch r ++ [e]).length := by simp at hk ⊢; omega
          rw [hk', List.take_length, lastTerm_concat, htm, hlogs, hbr]
        · rw [List.take_append_of_le_length hge]
          exact hle.valid (hs.branch_valid r) k h0 hge
      · rw [hbrr hr]; exact hle.valid (hs.branch_valid r)
    branch_le := by
      intro r a ha
      by_cases hr : r = s
      · subst hr
        rw [hbrs] at ha
        rcases List.mem_append.mp ha with ha | ha
        · exact hs.branch_le a ha
        · rw [List.mem_singleton.mp ha, htm]; exact le_rfl
      · rw [hbrr hr] at ha; exact hs.branch_le a ha
    leader_le := hs.leader_le
    leader_own := by
      intro p hp
      by_cases hps : p = s
      · subst hps
        refine ⟨?_, ?_⟩
        · show (h.append p e).branch p = (h.append p e).log (h.term p)
          rw [hbrs, hlogs, hbr]
        · show (h.append p e).acked p (h.term p) = ((h.append p e).log (h.term p)).length
          rw [hacks, hlogs]; simp
      · have ht : h.term p ≠ h.term s := by
          intro ht
          have hp' : h.leader (h.term p) = some p := hp
          rw [ht, hl] at hp'
          exact hps (Option.some.inj hp').symm
        simpa [Ledger.append, hps, ht] using hs.leader_own hp
    acked_le := hs.acked_le_mono hle hackr (by rw [hacks, hlogs]; simp)
    acked_term := hs.acked_term_mono hle hackr
    acked_branch := by
      intro r t m hm hor
      by_cases hr : r = s
      · subst hr
        by_cases ht : t = h.term r
        · subst ht
          rw [hlogs, hbrs, hbr]; exact List.take_prefix m _
        · have hn : ¬ (r = r ∧ t = h.term r) := fun hn => ht hn.2
          rw [hackr hn] at hm
          have hml := hm.trans (hs.acked_le r t)
          rcases hor with ht' | ⟨he, hb⟩
          · exact absurd ht' ht
          · rw [hle.take_log hml, hbrs]
            exact (hs.acked_branch hm (Or.inr ⟨hle.ends_of hml he, fun hb' => hb (hle.blocked hb')⟩)).trans
              (List.prefix_append _ _)
      · exact hs.acked_branch_mono hle (hbrr hr) (hackr fun hn => hr hn.1) hm hor
    vote_newer := hs.vote_newer_mono hle
    complete := hs.complete_mono hle
    quorum := hs.quorum_mono hle }

theorem Sound.accept {p : ι} {m : ℕ} (hps : p ≠ s) (hl : h.leader (h.term s) = some p)
    (hm : m ≤ (h.log (h.term s)).length) : Sound tm (h.accept s m) := by
  have hle : Le h (h.accept s m) := Step.le hs (.accept p m hps hl hm)
  have hbrr : ∀ {r}, r ≠ s → (h.accept s m).branch r = h.branch r := fun hr => by simp [Ledger.accept, hr]
  have hbrs : (h.log (h.term s)).take m <+: h.branch s ∧ (h.accept s m).branch s = h.branch s ∨
      ¬ (h.log (h.term s)).take m <+: h.branch s ∧ (h.accept s m).branch s = (h.log (h.term s)).take m := by
    by_cases hpre : (h.log (h.term s)).take m <+: h.branch s
    · exact Or.inl ⟨hpre, accept_branch_old hpre⟩
    · exact Or.inr ⟨hpre, accept_branch_new hpre⟩
  have hackr : ∀ {r t}, ¬ (r = s ∧ t = h.term s) → (h.accept s m).acked r t = h.acked r t :=
    fun hr => by simp [Ledger.accept, hr]
  have hacks : (h.accept s m).acked s (h.term s) = max (h.acked s (h.term s)) m := by simp [Ledger.accept]
  -- whatever stands both in the old branch and in the leader's log survives the copy
  have hkeep : ∀ {x : List ε}, x <+: h.branch s → x <+: h.log (h.term s) → x <+: (h.accept s m).branch s := by
    intro x h1 h2
    rcases hbrs with ⟨-, hb⟩ | ⟨hn, hb⟩
    · rw [hb]; exact h1
    · rw [hb]
      have hml : ((h.log (h.term s)).take m).length = m := by rw [List.length_take, Nat.min_eq_left hm]
      rcases le_total x.length m with hx | hx
      · exact List.prefix_of_prefix_length_le h2 ( List.take_prefix m _) (hx.trans hml.ge)
      · exact absurd ((List.prefix_of_prefix_length_le ( List.take_prefix m _) h2 (hml.le.trans hx)).trans h1) hn
  exact {
    voted_le := hs.voted_le
    voted_stood := hs.voted_stood
    votes := hs.votes
    log_none := hs.log_none
    stood_log := hs.stood_log
    log_new := hs.log_new
    stood_lt := hs.stood_lt
    stood_valid := hs.stood_valid
    branch_valid := by
      intro r
      by_cases hr : r = s
      · subst hr
        rcases hbrs with ⟨-, hb⟩ | ⟨-, hb⟩
        · rw [hb]; exact hs.branch_valid r
        · rw [hb]; exact (hs.log_valid _).sub ( List.take_prefix m _)
      · rw [hbrr hr]; exact hs.branch_valid r
    branch_le := by
      intro r a ha
      by_cases hr : r = s
      · subst hr
        rcases hbrs with ⟨-, hb⟩ | ⟨-, hb⟩
        · rw [hb] at ha; exact hs.branch_le a ha
        · rw [hb] at ha; exact hs.log_le a (List.mem_of_mem_take ha)
      · rw [hbrr hr] at ha; exact hs.branch_le a ha
    leader_le := hs.leader_le
    leader_own := by
      intro q hq
      have hqs : q ≠ s := by
        rintro rfl
        exact hps (Option.some.inj (hl.symm.trans hq))
      have := hs.leader_own (p := q) hq
      refine ⟨?_, ?_⟩
      · rw [hbrr hqs]; exact this.1
      · rw [hackr fun hn => hqs hn.1]; exact this.2
    acked_le := hs.acked_le_mono hle hackr (by rw [hacks]; exact max_le (hs.acked_le s _) hm)
    acked_term := hs.acked_term_mono hle hackr
    acked_branch := by
      intro r t k hk hor
      by_cases hr : r = s
      · subst hr
        by_cases ht : t = h.term r
        · subst ht
          rw [hacks] at hk
          rcases le_max_iff.mp hk with hk | hk
          · exact hkeep (hs.acked_branch hk (Or.inl rfl)) ( List.take_prefix k _)
          · have hkm : (h.log (h.term r)).take k <+: (h.log (h.term r)).take m :=
              List.take_prefix_take_left hk
            rcases hbrs with ⟨hpre, hb⟩ | ⟨-, hb⟩
            · rw [hb]; exact hkm.trans hpre
            · rw [hb]; exact hkm
        · have hn : ¬ (r = r ∧ t = h.term r) := fun hn => ht hn.2
          rw [hackr hn] at hk
          rcases hor with ht' | ⟨he, hb⟩
          · exact absurd ht' ht
          · have hb' : ¬ h.Blocked t k := fun hb' => hb (hle.blocked hb')
            have hlt : t < h.term r := lt_of_le_of_ne (hs.acked_term (he.1.trans_le hk).ne') ht
            exact hkeep (hs.acked_branch hk (Or.inr ⟨he, hb'⟩))
              ((hs.complete hl hlt he hb').trans (hs.stood_log hl))
      · exact hs.acked_branch_mono hle (hbrr hr) (hackr fun hn => hr hn.1) hk hor
    vote_newer := hs.vote_newer_mono hle
    complete := hs.complete_mono hle
    quorum := hs.quorum_mono hle }

theorem Sound.install {x : List ε} (hc : h.Committed (h.term s) x) (hx : (h.branch s).length ≤ x.length) :
    Sound tm (h.install s x) := by
  have hle : Le h (h.install s x) := Step.le hs (.install x hc hx)
  have hbrr : ∀ {r}, r ≠ s → (h.install s x).branch r = h.branch r := fun hr => by simp [Ledger.install, hr]
  have hbrs : (h.install s x).branch s = x := by simp [Ledger.install]
  exact { hs with
    branch_valid := by
      intro r
      by_cases hr : r = s
      · subst hr; rw [hbrs]; exact hs.committed_valid hc
      · rw [hbrr hr]; exact hs.branch_valid r
    branch_le := by
      intro r a ha
      by_cases hr : r = s
      · subst hr
        rw [hbrs] at ha
        rcases hc with rfl | ⟨u, n, hu, -, hxu⟩
        · cases ha
        · exact (hs.log_le a (List.mem_of_mem_take (hxu.subset ha))).trans hu
      · rw [hbrr hr] at ha; exact hs.branch_le a ha
    leader_own := by
      intro p hp
      by_cases hps : p = s
      · subst hps
        obtain ⟨hb, ha⟩ := hs.leader_own hp
        refine ⟨?_, ha⟩
        rw [hbrs]
        rw [hb] at hx
        exact (hs.committed_log hp hc le_rfl).eq_of_length_le hx
      · rw [hbrr hps]; exact hs.leader_own hp
    acked_branch := by
      intro r t m hm hor
      by_cases hr : r = s
      · subst hr
        rw [hbrs]
        have hm' : m ≤ h.acked r t := hm
        have hold : (h.log t).take m <+: h.branch r := hs.acked_branch hm hor
        rcases hor with ht | ⟨he, hb⟩
        · rcases Nat.eq_zero_or_pos m with rfl | h0
          · exact List.nil_prefix
          obtain ⟨p, hp⟩ := hs.leader_of_log (t := t)
            (List.length_pos_iff.mp (h0.trans_le (hm'.trans (hs.acked_le r t))))
          exact List.prefix_of_prefix_length_le ( List.take_prefix m _)
            (hs.committed_log hp hc (by rw [ht]; exact le_rfl)) (hold.length_le.trans hx)
        · obtain ⟨z, h1, h2⟩ := hs.open_compat he hb hc
          exact List.prefix_of_prefix_length_le h1 h2 (hold.length_le.trans hx)
      · rw [hbrr hr]; exact hs.acked_branch hm hor }

omit [DecidableEq ι] in
theorem Sound.commit {n : ℕ} {Q : Finset ι} (he : h.Ends tm (h.term s) n) (hQ : Majority Q)
    (ha : ∀ r ∈ Q, n ≤ h.acked r (h.term s)) : Sound tm (h.commit s n) :=
  { hs with
    quorum := by
      intro t k hk
      rcases hk with ⟨rfl, rfl⟩ | hk
      · exact ⟨he, Q, hQ, ha⟩
      · exact hs.quorum hk }

theorem Sound.step {h' : Ledger ι ε} (st : Step tm s h h') : Sound tm h' := by
  cases st with
  | advance t ht => exact hs.advance ht
  | stand => exact hs.stand
  | vote p hps hnone hp hup => exact hs.vote hps hnone hp hup
  | win Q hnone hQ hv hbr => exact hs.win hnone hQ hv hbr
  | append e hl htm => exact hs.append hl htm
  | accept p m hps hl hm => exact hs.accept hps hl hm
  | install x hc hx => exact hs.install hc hx
  | commit n Q _ he hQ ha => exact hs.commit he hQ ha

end

theorem Sound.start {ι ε : Type*} [Fintype ι] (tm : ε → ℕ) : Sound tm (start ι ε) where
  voted_le hv := by cases hv
  voted_stood hv := by cases hv
  votes hl := by cases hl
  log_none _ := rfl
  stood_log hl := by cases hl
  log_new hl := by cases hl
  stood_lt e he := by cases he
  stood_valid _ _ := Valid.nil
  branch_valid _ := Valid.nil
  branch_le e he := by cases he
  leader_le hl := by cases hl
  leader_own hl := by cases hl
  acked_le _ _ := Nat.zero_le _
  acked_term ha := absurd rfl ha
  acked_branch _ _ := by
    show List.take _ [] <+: []
    simp
  vote_newer hv := by cases hv
  complete hl := by cases hl
  quorum hc := hc.elim

end Ledger

end DistLab
