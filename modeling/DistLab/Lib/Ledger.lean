import Mathlib.Data.Fintype.Card
import Mathlib.Data.Finset.Card
import Mathlib.Data.List.Infix
import Mathlib.Tactic.Common

/-!
# Ledgers: the history of a log replicated under numbered terms

Members of a group vote in numbered terms, the winner of a term extends its
own log, the others copy it, and what a majority has copied within the term is
committed. A ledger records what ever happened: who voted for whom, which log
a candidate stood with, the log of each term's leader, how much of it each
member acknowledged, and what was committed. `Ledger.Step` lists the moves of
one member; `Sound` is kept by every move and yields that committed entries
are never lost (`Sound.committed_stood`) and never differ
(`Sound.committed_compat`).
-/

namespace DistLab

/-! ## Majorities -/

section
variable {ι : Type*} [Fintype ι]

def Majority (Q : Finset ι) : Prop := Fintype.card ι < 2 * Q.card

theorem Majority.meet {Q₁ Q₂ : Finset ι} (h₁ : Majority Q₁) (h₂ : Majority Q₂) :
    ∃ r, r ∈ Q₁ ∧ r ∈ Q₂ := by
  classical
  unfold Majority at h₁ h₂
  have hu : (Q₁ ∪ Q₂).card ≤ Fintype.card ι := Finset.card_le_univ _
  have hi := Finset.card_union_add_card_inter Q₁ Q₂
  have hpos : 0 < (Q₁ ∩ Q₂).card := by omega
  obtain ⟨r, hr⟩ := Finset.card_pos.mp hpos
  exact ⟨r, Finset.mem_inter.mp hr⟩

end

/-! ## Logs and their last terms -/

theorem prefix_take_iff {ε : Type*} {l m : List ε} {k : ℕ} (hk : k ≤ l.length) :
    l.take k <+: m ↔ k ≤ m.length ∧ m.take k = l.take k := by
  constructor
  · intro h
    have hl := h.length_le
    rw [List.length_take, Nat.min_eq_left hk] at hl
    refine ⟨hl, ?_⟩
    have := List.prefix_iff_eq_take.mp h
    rw [List.length_take, Nat.min_eq_left hk] at this
    exact this.symm
  · rintro ⟨-, h⟩
    rw [← h]; exact List.take_prefix k m

theorem prefix_take_eq {ε : Type*} {l m : List ε} (h : l <+: m) {k : ℕ} (hk : k ≤ l.length) :
    m.take k = l.take k := by
  obtain ⟨t, rfl⟩ := h
  rw [List.take_append_of_le_length hk]

section
variable {ε : Type*} (tm : ε → ℕ)

def lastTerm (l : List ε) : ℕ := (l.getLast?.map tm).getD 0

def UpToDate (l m : List ε) : Prop :=
  lastTerm tm m < lastTerm tm l ∨ lastTerm tm m = lastTerm tm l ∧ m.length ≤ l.length

@[simp] theorem lastTerm_concat (l : List ε) (e : ε) : lastTerm tm (l ++ [e]) = tm e := by
  simp [lastTerm]

theorem lastTerm_append (l : List ε) {m : List ε} (hm : m ≠ []) :
    lastTerm tm (l ++ m) = lastTerm tm m := by
  simp only [lastTerm, List.getLast?_append_of_ne_nil l hm]

theorem lastTerm_mem {l : List ε} (hl : l ≠ []) : ∃ e ∈ l, tm e = lastTerm tm l := by
  refine ⟨l.getLast hl, List.getLast_mem hl, ?_⟩
  simp [lastTerm, List.getLast?_eq_some_getLast hl]

theorem lastTerm_take {l : List ε} {k : ℕ} {e : ε} (h : l[k]? = some e) :
    lastTerm tm (l.take (k + 1)) = tm e := by
  rw [List.take_add_one, h, Option.toList_some, lastTerm_concat]

end

/-! ## Ledgers -/

structure Ledger (ι ε : Type*) where
  term : ι → ℕ
  voted : ι → ℕ → Option ι
  /-- the log a candidate of the term stood with -/
  stood : ℕ → ι → List ε
  leader : ℕ → Option ι
  /-- the log of the term's leader, as far as it got within the term -/
  log : ℕ → List ε
  branch : ι → List ε
  acked : ι → ℕ → ℕ
  committed : ℕ → ℕ → Prop

namespace Ledger

section
variable {ι ε : Type*}

def start (ι ε : Type*) : Ledger ι ε where
  term _ := 0
  voted _ _ := none
  stood _ _ := []
  leader _ := none
  log _ := []
  branch _ := []
  acked _ _ := 0
  committed _ _ := False

/-- `h'` is a later history than `h`: terms and logs grow, what was voted,
stood with and acknowledged in a left term stays. -/
structure Le (h h' : Ledger ι ε) : Prop where
  term : ∀ r, h.term r ≤ h'.term r
  voted : ∀ r t p, h.voted r t = some p → h'.voted r t = some p
  stood : ∀ t p, t ≤ h.term p → h'.stood t p = h.stood t p
  leader : ∀ t p, h.leader t = some p → h'.leader t = some p
  log : ∀ t, h.log t <+: h'.log t
  acked : ∀ r t, h.acked r t ≤ h'.acked r t
  frozen : ∀ r t, t < h.term r → h'.acked r t = h.acked r t
  committed : ∀ t n, h.committed t n → h'.committed t n

theorem Le.refl {h : Ledger ι ε} : Le h h where
  term _ := le_refl _
  voted _ _ _ hv := hv
  stood _ _ _ := rfl
  leader _ _ hl := hl
  log _ := List.prefix_rfl
  acked _ _ := le_refl _
  frozen _ _ _ := rfl
  committed _ _ hc := hc

theorem Le.trans {a b c : Ledger ι ε} (h : Le a b) (h' : Le b c) : Le a c where
  term r := (h.term r).trans (h'.term r)
  voted r t p hv := h'.voted r t p (h.voted r t p hv)
  stood t p ht := (h'.stood t p (ht.trans (h.term p))).trans (h.stood t p ht)
  leader t p hl := h'.leader t p (h.leader t p hl)
  log t := (h.log t).trans (h'.log t)
  acked r t := (h.acked r t).trans (h'.acked r t)
  frozen r t ht := (h'.frozen r t (ht.trans_le (h.term r))).trans (h.frozen r t ht)
  committed t n hc := h'.committed t n (h.committed t n hc)

instance : Preorder (Ledger ι ε) where
  le := Le
  le_refl _ := Le.refl
  le_trans _ _ _ := Le.trans

structure Frame (s : ι) (h h' : Ledger ι ε) : Prop where
  term : ∀ r, r ≠ s → h'.term r = h.term r
  voted : ∀ r, r ≠ s → h'.voted r = h.voted r
  stood : ∀ t r, r ≠ s → h'.stood t r = h.stood t r
  leader : ∀ t r, r ≠ s → h'.leader t = some r → h.leader t = some r
  log : ∀ t r, r ≠ s → h.leader t = some r → h'.log t = h.log t
  branch : ∀ r, r ≠ s → h'.branch r = h.branch r
  committed : ∀ t r n, r ≠ s → h.leader t = some r → h'.committed t n → h.committed t n

theorem Frame.refl {s : ι} {h : Ledger ι ε} : Frame s h h where
  term _ _ := rfl
  voted _ _ := rfl
  stood _ _ _ := rfl
  leader _ _ _ hl := hl
  log _ _ _ _ := rfl
  branch _ _ := rfl
  committed _ _ _ _ _ hc := hc

theorem Frame.trans {s : ι} {a b c : Ledger ι ε} (hl : Le a b) (h : Frame s a b) (h' : Frame s b c) :
    Frame s a c where
  term r hr := (h'.term r hr).trans (h.term r hr)
  voted r hr := (h'.voted r hr).trans (h.voted r hr)
  stood t r hr := (h'.stood t r hr).trans (h.stood t r hr)
  leader t r hr hc := h.leader t r hr (h'.leader t r hr hc)
  log t r hr ha := (h'.log t r hr (hl.leader t r ha)).trans (h.log t r hr ha)
  branch r hr := (h'.branch r hr).trans (h.branch r hr)
  committed t r n hr ha hc := h.committed t r n hr ha (h'.committed t r n hr (hl.leader t r ha) hc)

end

/-! ## The moves of one member -/

section
variable {ι ε : Type*} [DecidableEq ι] (h : Ledger ι ε) (s : ι)

def advance (t : ℕ) : Ledger ι ε :=
  { h with term := fun r => if r = s then t else h.term r }

def stand : Ledger ι ε :=
  { h with
    term := fun r => if r = s then h.term s + 1 else h.term r
    voted := fun r t => if r = s ∧ t = h.term s + 1 then some s else h.voted r t
    stood := fun t r => if r = s ∧ t = h.term s + 1 then h.branch s else h.stood t r }

def vote (p : ι) : Ledger ι ε :=
  { h with voted := fun r t => if r = s ∧ t = h.term s then some p else h.voted r t }

def win : Ledger ι ε :=
  { h with
    leader := fun t => if t = h.term s then some s else h.leader t
    log := fun t => if t = h.term s then h.branch s else h.log t
    acked := fun r t => if r = s ∧ t = h.term s then (h.branch s).length else h.acked r t }

def append (e : ε) : Ledger ι ε :=
  { h with
    log := fun t => if t = h.term s then h.log t ++ [e] else h.log t
    branch := fun r => if r = s then h.branch s ++ [e] else h.branch r
    acked := fun r t => if r = s ∧ t = h.term s then h.acked s t + 1 else h.acked r t }

/-- Copy the first `m` entries of the term's leader, unless they are there. -/
noncomputable def accept (m : ℕ) : Ledger ι ε :=
  open Classical in
  { h with
    branch := fun r =>
      if r = s ∧ ¬ (h.log (h.term s)).take m <+: h.branch s then (h.log (h.term s)).take m else h.branch r
    acked := fun r t => if r = s ∧ t = h.term s then max (h.acked s t) m else h.acked r t }

def install (x : List ε) : Ledger ι ε :=
  { h with branch := fun r => if r = s then x else h.branch r }

def commit (n : ℕ) : Ledger ι ε :=
  { h with committed := fun t k => t = h.term s ∧ k = n ∨ h.committed t k }

variable {h s} in
theorem accept_branch_old {m : ℕ} (hp : (h.log (h.term s)).take m <+: h.branch s) :
    (h.accept s m).branch s = h.branch s :=
  if_neg fun hn => hn.2 hp

variable {h s} in
theorem accept_branch_new {m : ℕ} (hp : ¬ (h.log (h.term s)).take m <+: h.branch s) :
    (h.accept s m).branch s = (h.log (h.term s)).take m :=
  if_pos ⟨rfl, hp⟩

theorem accept_acked (m : ℕ) : m ≤ (h.accept s m).acked s (h.term s) := by
  simp [accept]

def Committed (t : ℕ) (x : List ε) : Prop :=
  x = [] ∨ ∃ u n, u ≤ t ∧ h.committed u n ∧ x <+: (h.log u).take n

end

section
variable {ι ε : Type*} [Fintype ι] (tm : ε → ℕ)

def Ends (h : Ledger ι ε) (t m : ℕ) : Prop :=
  0 < m ∧ m ≤ (h.log t).length ∧ lastTerm tm ((h.log t).take m) = t

inductive Step [DecidableEq ι] (s : ι) (h : Ledger ι ε) : Ledger ι ε → Prop
  | advance (t : ℕ) : h.term s ≤ t → Step s h (h.advance s t)
  | stand : Step s h (h.stand s)
  | vote (p : ι) : p ≠ s → h.voted s (h.term s) = none → h.voted p (h.term s) = some p →
      UpToDate tm (h.stood (h.term s) p) (h.branch s) → Step s h (h.vote s p)
  | win (Q : Finset ι) : h.leader (h.term s) = none → Majority Q → (∀ r ∈ Q, h.voted r (h.term s) = some s) →
      h.branch s = h.stood (h.term s) s → Step s h (h.win s)
  | append (e : ε) : h.leader (h.term s) = some s → tm e = h.term s → Step s h (h.append s e)
  | accept (p : ι) (m : ℕ) : p ≠ s → h.leader (h.term s) = some p → m ≤ (h.log (h.term s)).length →
      Step s h (h.accept s m)
  | install (x : List ε) : h.Committed (h.term s) x → (h.branch s).length ≤ x.length → Step s h (h.install s x)
  | commit (n : ℕ) (Q : Finset ι) : h.leader (h.term s) = some s → h.Ends tm (h.term s) n → Majority Q →
      (∀ r ∈ Q, n ≤ h.acked r (h.term s)) → Step s h (h.commit s n)

/-- A majority has left term `t` without acknowledging index `m`, so `m` can
no longer be committed in `t`. -/
def Blocked (h : Ledger ι ε) (t m : ℕ) : Prop :=
  ∃ Q : Finset ι, Majority Q ∧ ∀ r ∈ Q, t < h.term r ∧ h.acked r t < m

/-- Each entry of `l` was created by the leader of its term, after the entries
before it. -/
def Valid (h : Ledger ι ε) (l : List ε) : Prop :=
  ∀ k, 0 < k → k ≤ l.length → l.take k <+: h.log (lastTerm tm (l.take k))

structure Sound (h : Ledger ι ε) : Prop where
  voted_le : ∀ {r t p}, h.voted r t = some p → t ≤ h.term r
  voted_stood : ∀ {r t p}, h.voted r t = some p → h.voted p t = some p
  votes : ∀ {t p}, h.leader t = some p → ∃ Q : Finset ι, Majority Q ∧ ∀ r ∈ Q, h.voted r t = some p
  log_none : ∀ {t}, h.leader t = none → h.log t = []
  stood_log : ∀ {t p}, h.leader t = some p → h.stood t p <+: h.log t
  log_new : ∀ {t p}, h.leader t = some p → ∀ e ∈ (h.log t).drop (h.stood t p).length, tm e = t
  stood_lt : ∀ {t p}, ∀ e ∈ h.stood t p, tm e < t
  stood_valid : ∀ t p, h.Valid tm (h.stood t p)
  branch_valid : ∀ r, h.Valid tm (h.branch r)
  branch_le : ∀ {r}, ∀ e ∈ h.branch r, tm e ≤ h.term r
  leader_le : ∀ {t p}, h.leader t = some p → t ≤ h.term p
  leader_own : ∀ {p}, h.leader (h.term p) = some p →
    h.branch p = h.log (h.term p) ∧ h.acked p (h.term p) = (h.log (h.term p)).length
  acked_le : ∀ r t, h.acked r t ≤ (h.log t).length
  acked_term : ∀ {r t}, h.acked r t ≠ 0 → t ≤ h.term r
  acked_branch : ∀ {r t m}, m ≤ h.acked r t → t = h.term r ∨ h.Ends tm t m ∧ ¬ h.Blocked t m →
    (h.log t).take m <+: h.branch r
  vote_newer : ∀ {r t' p t m}, h.voted r t' = some p → t < t' → m ≤ h.acked r t → h.Ends tm t m →
    ¬ h.Blocked t m → t < lastTerm tm (h.stood t' p) ∨
      t = lastTerm tm (h.stood t' p) ∧ m ≤ (h.stood t' p).length
  complete : ∀ {t' p t m}, h.leader t' = some p → t < t' → h.Ends tm t m → ¬ h.Blocked t m →
    (h.log t).take m <+: h.stood t' p
  quorum : ∀ {t n}, h.committed t n →
    h.Ends tm t n ∧ ∃ Q : Finset ι, Majority Q ∧ ∀ r ∈ Q, n ≤ h.acked r t

end

/-! ## What a later history keeps -/

section
variable {ι ε : Type*} {tm : ε → ℕ} {h h' : Ledger ι ε} (hle : Le h h')
include hle

theorem Le.take_log {t k : ℕ} (hk : k ≤ (h.log t).length) : (h'.log t).take k = (h.log t).take k :=
  prefix_take_eq (hle.log t) hk

theorem Le.length_log (t : ℕ) : (h.log t).length ≤ (h'.log t).length := (hle.log t).length_le

theorem Le.ends {t m : ℕ} (he : h.Ends tm t m) : h'.Ends tm t m := by
  obtain ⟨h0, hm, hl⟩ := he
  exact ⟨h0, hm.trans (hle.length_log t), by rw [hle.take_log hm]; exact hl⟩

theorem Le.ends_of {t m : ℕ} (hm : m ≤ (h.log t).length) (he : h'.Ends tm t m) : h.Ends tm t m := by
  obtain ⟨h0, -, hl⟩ := he
  exact ⟨h0, hm, by rw [← hle.take_log hm]; exact hl⟩

theorem Le.blocked [Fintype ι] {t m : ℕ} (hb : h.Blocked t m) : h'.Blocked t m := by
  obtain ⟨Q, hQ, hr⟩ := hb
  refine ⟨Q, hQ, fun r hrQ => ⟨(hr r hrQ).1.trans_le (hle.term r), ?_⟩⟩
  rw [hle.frozen r t (hr r hrQ).1]
  exact (hr r hrQ).2

theorem Le.valid {l : List ε} (hv : h.Valid tm l) : h'.Valid tm l :=
  fun k h0 hk => (hv k h0 hk).trans (hle.log _)

theorem Le.of_committed {t : ℕ} {x : List ε} (hc : h.Committed t x) : h'.Committed t x := by
  rcases hc with rfl | ⟨u, n, hu, hn, hx⟩
  · exact Or.inl rfl
  · exact Or.inr ⟨u, n, hu, hle.committed u n hn, hx.trans ((hle.log u).take n)⟩

end

/-! ## Consequences of soundness -/

section
variable {ι ε : Type*} {tm : ε → ℕ} {h : Ledger ι ε}

theorem Committed.mono {t t' : ℕ} {x : List ε} (hc : h.Committed t x) (ht : t ≤ t') : h.Committed t' x := by
  rcases hc with rfl | ⟨u, n, hu, hn, hx⟩
  · exact Or.inl rfl
  · exact Or.inr ⟨u, n, hu.trans ht, hn, hx⟩

theorem Committed.sub {t : ℕ} {x y : List ε} (hc : h.Committed t x) (hy : y <+: x) : h.Committed t y := by
  rcases hc with rfl | ⟨u, n, hu, hn, hx⟩
  · exact Or.inl (List.prefix_nil.mp hy)
  · exact Or.inr ⟨u, n, hu, hn, hy.trans hx⟩

theorem Valid.nil : h.Valid tm [] := fun k h0 hk => by simp at hk; omega

theorem Valid.sub {l m : List ε} (hv : h.Valid tm l) (hm : m <+: l) : h.Valid tm m := by
  intro k h0 hk
  have := hv k h0 (hk.trans hm.length_le)
  rwa [prefix_take_eq hm hk] at this

theorem Valid.self {l : List ε} (hv : h.Valid tm l) (hl : l ≠ []) : l <+: h.log (lastTerm tm l) := by
  have := hv l.length (List.length_pos_iff.mpr hl) le_rfl
  rwa [List.take_length] at this

/-- Two valid logs with the same term at an index agree up to that index. -/
theorem Valid.agree {l m : List ε} (hl : h.Valid tm l) (hm : h.Valid tm m) {k : ℕ} {a b : ε}
    (ha : l[k]? = some a) (hb : m[k]? = some b) (hab : tm a = tm b) :
    l.take (k + 1) = m.take (k + 1) := by
  have hkl : k + 1 ≤ l.length := (List.getElem?_eq_some_iff.mp ha).1
  have hkm : k + 1 ≤ m.length := (List.getElem?_eq_some_iff.mp hb).1
  have h1 := hl (k + 1) (Nat.succ_pos k) hkl
  have h2 := hm (k + 1) (Nat.succ_pos k) hkm
  rw [lastTerm_take tm ha, hab] at h1
  rw [lastTerm_take tm hb] at h2
  have hlen : (l.take (k + 1)).length = (m.take (k + 1)).length := by
    rw [List.length_take, List.length_take, Nat.min_eq_left hkl, Nat.min_eq_left hkm]
  exact (List.prefix_of_prefix_length_le h1 h2 hlen.le).eq_of_length hlen

theorem Valid.origin {l : List ε} (hv : h.Valid tm l) {k : ℕ} {e : ε} (he : l[k]? = some e) :
    (h.log (tm e))[k]? = some e := by
  have hk : k + 1 ≤ l.length := (List.getElem?_eq_some_iff.mp he).1
  have := hv (k + 1) (Nat.succ_pos k) hk
  rw [lastTerm_take tm he] at this
  obtain ⟨t, ht⟩ := this
  rw [← ht, List.getElem?_append_left (by rw [List.length_take]; omega), List.getElem?_take_of_lt (Nat.lt_succ_self k)]
  exact he

end

section
variable {ι ε : Type*} [Fintype ι] {tm : ε → ℕ} {h : Ledger ι ε} (hs : Sound tm h)
include hs

theorem Sound.log_le {t : ℕ} : ∀ e ∈ h.log t, tm e ≤ t := by
  intro e he
  cases hl : h.leader t with
  | none => rw [hs.log_none hl] at he; cases he
  | some p =>
    obtain ⟨v, hv⟩ := hs.stood_log hl
    rw [← hv] at he
    rcases List.mem_append.mp he with he | he
    · exact (hs.stood_lt e he).le
    · have : e ∈ (h.log t).drop (h.stood t p).length := by rw [← hv, List.drop_left]; exact he
      exact (hs.log_new hl e this).le

theorem Sound.leader_of_log {t : ℕ} (hne : h.log t ≠ []) : ∃ p, h.leader t = some p := by
  cases hl : h.leader t with
  | none => exact absurd (hs.log_none hl) hne
  | some p => exact ⟨p, rfl⟩

theorem Sound.log_valid (t : ℕ) : h.Valid tm (h.log t) := by
  cases hl : h.leader t with
  | none => rw [hs.log_none hl]; exact Valid.nil
  | some p =>
    intro k h0 hk
    have hp := hs.stood_log hl
    by_cases hks : k ≤ (h.stood t p).length
    · rw [prefix_take_eq hp hks]
      exact hs.stood_valid t p k h0 hks
    · -- the entry at `k` was appended in term `t` itself
      have hlast : lastTerm tm ((h.log t).take k) = t := by
        obtain ⟨j, rfl⟩ : ∃ j, k = j + 1 := ⟨k - 1, by omega⟩
        have hj : (h.log t)[j]? = some (h.log t)[j] := List.getElem?_eq_getElem (by omega)
        rw [lastTerm_take tm hj]
        refine hs.log_new hl _ (List.mem_iff_getElem?.mpr ⟨j - (h.stood t p).length, ?_⟩)
        rw [List.getElem?_drop, ← hj]
        congr 1; omega
      rw [hlast]
      exact List.take_prefix k _

theorem Sound.pairwise {l : List ε} (hv : h.Valid tm l) : l.Pairwise fun a b => tm a ≤ tm b := by
  rw [List.pairwise_iff_getElem]
  intro i j hi hj hij
  have hpre := hv (j + 1) (Nat.succ_pos j) hj
  rw [lastTerm_take tm (List.getElem?_eq_getElem hj)] at hpre
  refine hs.log_le _ (hpre.subset (List.mem_iff_getElem?.mpr ⟨i, ?_⟩))
  rw [List.getElem?_take_of_lt (by omega), List.getElem?_eq_getElem hi]

theorem Sound.committed_le {t : ℕ} {x : List ε} (hc : h.Committed t x) : ∀ e ∈ x, tm e ≤ t := by
  intro e he
  rcases hc with rfl | ⟨u, n, hu, -, hx⟩
  · cases he
  · exact (hs.log_le e (List.mem_of_mem_take (hx.subset he))).trans hu

theorem Sound.not_blocked {t n : ℕ} (hc : h.committed t n) : ¬ h.Blocked t n := by
  rintro ⟨Q, hQ, hb⟩
  obtain ⟨-, Q', hQ', ha⟩ := hs.quorum hc
  obtain ⟨r, h1, h2⟩ := hQ.meet hQ'
  have := (hb r h1).2
  have := ha r h2
  omega

theorem Sound.prefix_newer {l : List ε} (hv : h.Valid tm l) {t m : ℕ} (he : h.Ends tm t m)
    (hp : (h.log t).take m <+: l) : t < lastTerm tm l ∨ t = lastTerm tm l ∧ m ≤ l.length := by
  obtain ⟨h0, hm, hlast⟩ := he
  obtain ⟨hml, htake⟩ := (prefix_take_iff hm).mp hp
  have hne : (h.log t).take m ≠ [] := by
    intro hnil
    have := congrArg List.length hnil
    rw [List.length_take, Nat.min_eq_left hm] at this
    simp at this; omega
  obtain ⟨e, hemem, hetm⟩ := lastTerm_mem tm hne
  have hself := hv.self (l := l) (by rintro rfl; exact hne (List.prefix_nil.mp hp))
  have := hs.log_le e (hself.subset (hp.subset hemem))
  rw [hetm, hlast] at this
  omega

/-- A majority voting in a later term passes on whatever can still be committed. -/
theorem Sound.electable {Q : Finset ι} {t' : ℕ} {p : ι} (hQ : Majority Q) (hv : ∀ r ∈ Q, h.voted r t' = some p)
    {t m : ℕ} (ht : t < t') (he : h.Ends tm t m) (hb : ¬ h.Blocked t m) :
    (h.log t).take m <+: h.stood t' p := by
  have hacked : ∃ r ∈ Q, m ≤ h.acked r t := by
    by_contra hno
    push Not at hno
    exact hb ⟨Q, hQ, fun r hr => ⟨ht.trans_le (hs.voted_le (hv r hr)), hno r hr⟩⟩
  obtain ⟨r, hrQ, hm⟩ := hacked
  have hnewer := hs.vote_newer (hv r hrQ) ht hm he hb
  have hne : h.stood t' p ≠ [] := by
    intro hnil
    rw [hnil] at hnewer
    rcases hnewer with hlt | ⟨-, hlen⟩
    · exact Nat.not_lt_zero _ hlt
    · exact absurd he.1 (Nat.not_lt.mpr hlen)
  have hself := (hs.stood_valid t' p).self hne
  obtain ⟨e, hemem, hetm⟩ := lastTerm_mem tm hne
  rcases hnewer with hlt | ⟨heq, hlen⟩
  · -- the last entry comes from a leader between `t` and `t'`, which held the entries already
    have hut' : lastTerm tm (h.stood t' p) < t' := by rw [← hetm]; exact hs.stood_lt e hemem
    obtain ⟨q, hq⟩ := hs.leader_of_log (t := lastTerm tm (h.stood t' p)) (by
      intro hnil; rw [hnil] at hself; exact hne (List.prefix_nil.mp hself))
    have hlog := (hs.complete hq hlt he hb).trans (hs.stood_log hq)
    rcases le_total ((h.log t).take m).length (h.stood t' p).length with hle | hle
    · exact List.prefix_of_prefix_length_le hlog hself hle
    · have hpre := List.prefix_of_prefix_length_le hself hlog hle
      have := hs.log_le e (List.mem_of_mem_take (hpre.subset hemem))
      omega
  · rw [← heq] at hself
    rw [prefix_take_eq hself hlen]
    exact List.take_prefix m _

theorem Sound.committed_of_votes {Q : Finset ι} {t' : ℕ} {p : ι} (hQ : Majority Q)
    (hv : ∀ r ∈ Q, h.voted r t' = some p) {t : ℕ} {x : List ε} (hc : h.Committed t x) (ht : t < t') :
    x <+: h.stood t' p := by
  rcases hc with rfl | ⟨u, n, hu, hn, hx⟩
  · exact List.nil_prefix
  · exact hx.trans (hs.electable hQ hv (hu.trans_lt ht) (hs.quorum hn).1 (hs.not_blocked hn))

/-- Whoever leads a later term stood with every committed entry. -/
theorem Sound.committed_stood {t' : ℕ} {p : ι} (hp : h.leader t' = some p) {t : ℕ} {x : List ε}
    (hc : h.Committed t x) (ht : t < t') : x <+: h.stood t' p := by
  obtain ⟨Q, hQ, hv⟩ := hs.votes hp
  exact hs.committed_of_votes hQ hv hc ht

theorem Sound.committed_log {t' : ℕ} {p : ι} (hp : h.leader t' = some p) {t : ℕ} {x : List ε}
    (hc : h.Committed t x) (ht : t ≤ t') : x <+: h.log t' := by
  rcases hc with rfl | ⟨u, n, hu, hn, hx⟩
  · exact List.nil_prefix
  · rcases Nat.lt_or_ge u t' with hlt | hge
    · exact (hs.committed_stood hp (Or.inr ⟨u, n, le_rfl, hn, hx⟩) hlt).trans (hs.stood_log hp)
    · have : u = t' := by omega
      subst this
      exact hx.trans ( List.take_prefix n _)

theorem Sound.committed_valid {t : ℕ} {x : List ε} (hc : h.Committed t x) : h.Valid tm x := by
  rcases hc with rfl | ⟨u, n, -, -, hx⟩
  · exact Valid.nil
  · exact (hs.log_valid u).sub (hx.trans ( List.take_prefix n _))

theorem Sound.committed_compat {t t' : ℕ} {x y : List ε} (hx : h.Committed t x) (hy : h.Committed t' y) :
    x <+: y ∨ y <+: x := by
  have both : ∀ {z : List ε}, x <+: z → y <+: z → x <+: y ∨ y <+: x := by
    intro z h1 h2
    rcases le_total x.length y.length with hle | hle
    · exact Or.inl (List.prefix_of_prefix_length_le h1 h2 hle)
    · exact Or.inr (List.prefix_of_prefix_length_le h2 h1 hle)
  rcases hx with rfl | ⟨u, n, -, hn, hxn⟩
  · exact Or.inl List.nil_prefix
  rcases hy with rfl | ⟨v, k, -, hk, hyk⟩
  · exact Or.inr List.nil_prefix
  have lead : ∀ {w j : ℕ}, h.committed w j → ∃ p, h.leader w = some p := by
    intro w j hw
    obtain ⟨⟨h0, hj, -⟩, -⟩ := hs.quorum hw
    exact hs.leader_of_log (List.length_pos_iff.mp (h0.trans_le hj))
  rcases le_total u v with huv | huv
  · obtain ⟨p, hp⟩ := lead hk
    exact both (hs.committed_log hp (Or.inr ⟨u, n, le_rfl, hn, hxn⟩) huv)
      (hyk.trans ( List.take_prefix k _))
  · obtain ⟨p, hp⟩ := lead hn
    exact both (hxn.trans ( List.take_prefix n _))
      (hs.committed_log hp (Or.inr ⟨v, k, le_rfl, hk, hyk⟩) huv)

/-- A log that can still be committed and a committed one lie on one line. -/
theorem Sound.open_compat {t m T : ℕ} {x : List ε} (he : h.Ends tm t m) (hb : ¬ h.Blocked t m)
    (hc : h.Committed T x) : ∃ z, (h.log t).take m <+: z ∧ x <+: z := by
  rcases hc with rfl | ⟨u, n, -, hn, hx⟩
  · exact ⟨_, List.prefix_rfl, List.nil_prefix⟩
  have hlead : ∃ p, h.leader t = some p := hs.leader_of_log (List.length_pos_iff.mp (he.1.trans_le he.2.1))
  obtain ⟨hen, -⟩ := hs.quorum hn
  rcases Nat.lt_or_ge t u with htu | hut
  · obtain ⟨q, hq⟩ := hs.leader_of_log (t := u) (List.length_pos_iff.mp (hen.1.trans_le hen.2.1))
    exact ⟨h.log u, (hs.complete hq htu he hb).trans (hs.stood_log hq), hx.trans ( List.take_prefix n _)⟩
  · obtain ⟨q, hq⟩ := hlead
    exact ⟨h.log t, List.take_prefix m _, hs.committed_log hq (Or.inr ⟨u, n, le_rfl, hn, hx⟩) hut⟩

end

end Ledger

end DistLab
