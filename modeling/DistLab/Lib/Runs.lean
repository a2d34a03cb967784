import Mathlib.Order.Monotone.Basic
import Mathlib.Tactic.Common

/-!
# Runs of a transition system

A system is a partial step function and a start state. A run is an infinite
sequence of states in which every position either takes one labelled step or
stands still, so finite executions are runs too. Two rules prove facts about
all positions of a run: `Run.invariant`, and `Run.history`, which carries a
history that only grows along with the state. `Reaches` composes finite
executions, `Reaches.exists_run` makes runs of them, and `Reaches.of_measure`
shows that a goal is in reach.
-/

namespace DistLab

section
variable {σ α : Type*} (step : σ → α → Option σ) (init : σ)

structure Run where
  state : ℕ → σ
  act : ℕ → Option α
  start : state 0 = init
  next : ∀ k, match act k with
    | none => state (k + 1) = state k
    | some a => step (state k) a = some (state (k + 1))

def Run.Meets {step : σ → α → Option σ} {init : σ} (r : Run step init) (cond : σ → α → Prop) : Prop :=
  ∀ k a, r.act k = some a → cond (r.state k) a

def exec : σ → List α → Option σ
  | s, [] => some s
  | s, a :: as =>
    match step s a with
    | some t => exec t as
    | none => none

end

section
variable {σ α : Type*} {step : σ → α → Option σ} {init : σ} (r : Run step init)

theorem Run.next_some {k : ℕ} {a : α} (h : r.act k = some a) :
    step (r.state k) a = some (r.state (k + 1)) := by
  have := r.next k
  rwa [h] at this

theorem Run.next_cases (k : ℕ) :
    (r.act k = none ∧ r.state (k + 1) = r.state k) ∨
      ∃ a, r.act k = some a ∧ step (r.state k) a = some (r.state (k + 1)) := by
  cases h : r.act k with
  | none =>
    have := r.next k
    rw [h] at this
    exact Or.inl ⟨rfl, this⟩
  | some a => exact Or.inr ⟨a, rfl, r.next_some h⟩

theorem Run.meets_true : r.Meets fun _ _ => True := fun _ _ _ => trivial

def Run.transfer {step' : σ → α → Option σ} {cond : σ → α → Prop} (hc : r.Meets cond)
    (h : ∀ s a t, cond s a → step s a = some t → step' s a = some t) : Run step' init where
  state := r.state
  act := r.act
  start := r.start
  next k := by
    rcases r.next_cases k with ⟨ha, heq⟩ | ⟨a, ha, hs⟩
    · rw [ha]
      exact heq
    · rw [ha]
      exact h _ _ _ (hc k a ha) hs

/-- Induction along the run, between two positions. What is proved may speak of the
position. -/
theorem Run.induction_from {P : ℕ → σ → Prop} {m n : ℕ} (hmn : m ≤ n) (hm : P m (r.state m))
    (hrest : ∀ k, m ≤ k → k < n → r.act k = none → P k (r.state k) → P (k + 1) (r.state k))
    (hstep : ∀ k a, m ≤ k → k < n → r.act k = some a → P k (r.state k) →
      step (r.state k) a = some (r.state (k + 1)) → P (k + 1) (r.state (k + 1))) : P n (r.state n) := by
  induction n, hmn using Nat.le_induction with
  | base => exact hm
  | succ n hmn ih =>
    have hn := ih (fun k hk hkn => hrest k hk (Nat.lt_succ_of_lt hkn))
      (fun k a hk hkn => hstep k a hk (Nat.lt_succ_of_lt hkn))
    rcases r.next_cases n with ⟨ha, he⟩ | ⟨a, ha, hs⟩
    · rw [he]
      exact hrest n hmn (Nat.lt_succ_self n) ha hn
    · exact hstep n a hmn (Nat.lt_succ_self n) ha hn hs

theorem Run.induction {P : ℕ → σ → Prop} (h0 : P 0 init)
    (hrest : ∀ k, r.act k = none → P k (r.state k) → P (k + 1) (r.state k))
    (hstep : ∀ k a, r.act k = some a → P k (r.state k) →
      step (r.state k) a = some (r.state (k + 1)) → P (k + 1) (r.state (k + 1))) (k : ℕ) : P k (r.state k) :=
  r.induction_from (Nat.zero_le k) (r.start.symm ▸ h0) (fun k _ _ => hrest k) fun k a _ _ => hstep k a

/-- What holds at the start and is kept by every step the run may take holds
at every position. -/
theorem Run.invariant {cond : σ → α → Prop} (hc : r.Meets cond) {P : σ → Prop} (h0 : P init)
    (hs : ∀ s a t, P s → cond s a → step s a = some t → P t) : ∀ k, P (r.state k) :=
  r.induction (P := fun _ => P) h0 (fun _ _ h => h) fun k a ha h => hs _ a _ h (hc k a ha)

/-- A relation between histories and states that every step keeps, for some
later history, gives one history along the whole run. -/
theorem Run.history_rel {γ : Type*} {L : γ → γ → Prop} (hrefl : ∀ g, L g g)
    (htrans : ∀ f g h, L f g → L g h → L f h) {cond : σ → α → Prop} (hc : r.Meets cond)
    {R : γ → σ → Prop} {g₀ : γ} (h0 : R g₀ init)
    (hs : ∀ g s a t, R g s → cond s a → step s a = some t → ∃ g', L g g' ∧ R g' t) :
    ∃ g : ℕ → γ, (∀ k, R (g k) (r.state k)) ∧ ∀ j k, j ≤ k → L (g j) (g k) := by
  have next : ∀ k, ∀ g : { g : γ // R g (r.state k) }, ∃ g' : γ, L g.1 g' ∧ R g' (r.state (k + 1)) := by
    intro k g
    rcases r.next_cases k with ⟨-, he⟩ | ⟨a, ha, hk⟩
    · exact ⟨g.1, hrefl _, by rw [he]; exact g.2⟩
    · exact hs g.1 _ a _ g.2 (hc k a ha) hk
  choose f hle hR using next
  let g : ∀ k, { g : γ // R g (r.state k) } := fun k =>
    Nat.rec ⟨g₀, by rw [r.start]; exact h0⟩ (fun k g => ⟨f k g, hR k g⟩) k
  refine ⟨fun k => (g k).1, fun k => (g k).2, fun j k hjk => ?_⟩
  induction hjk with
  | refl => exact hrefl _
  | step _ ih => exact htrans _ _ _ ih (hle _ (g _))

theorem Run.history {γ : Type*} [Preorder γ] {cond : σ → α → Prop} (hc : r.Meets cond)
    {R : γ → σ → Prop} {g₀ : γ} (h0 : R g₀ init)
    (hs : ∀ g s a t, R g s → cond s a → step s a = some t → ∃ g', g ≤ g' ∧ R g' t) :
    ∃ g : ℕ → γ, (∀ k, R (g k) (r.state k)) ∧ Monotone g :=
  r.history_rel le_refl (fun _ _ _ => le_trans) hc h0 hs

end

/-! ## Runs from finite executions -/

section
variable {σ α : Type*} {step : σ → α → Option σ}

theorem exec_append : ∀ (as bs : List α) (s : σ),
    exec step s (as ++ bs) = (exec step s as).bind fun t => exec step t bs
  | [], bs, s => rfl
  | a :: as, bs, s => by
    simp only [List.cons_append, exec]
    cases step s a with
    | none => rfl
    | some t => exact exec_append as bs t

theorem exec_take_isSome {s t : σ} {as : List α} (h : exec step s as = some t) (k : ℕ) :
    ∃ u, exec step s (as.take k) = some u := by
  rw [← List.take_append_drop k as, exec_append] at h
  cases hu : exec step s (as.take k) with
  | none => rw [hu] at h; cases h
  | some u => exact ⟨u, rfl⟩

theorem exec_snoc {s t : σ} {as : List α} {k : ℕ} {a : α} (ha : as[k]? = some a)
    (h : exec step s (as.take k) = some t) :
    exec step s (as.take (k + 1)) = (step t a).bind some := by
  rw [List.take_add_one, ha, Option.toList_some, exec_append, h]
  simp only [Option.bind_some, exec]
  cases step t a <;> rfl

/-- The run that executes `as` and then stands still. -/
def Run.ofList {s t : σ} (as : List α) (h : exec step s as = some t) : Run step s where
  state k := (exec step s (as.take k)).getD s
  act k := as[k]?
  start := rfl
  next k := by
    cases ha : as[k]? with
    | none =>
      have hk : as.length ≤ k := List.getElem?_eq_none_iff.mp ha
      simp only [List.take_of_length_le hk, List.take_of_length_le (Nat.le_succ_of_le hk)]
    | some a =>
      obtain ⟨u, hu⟩ := exec_take_isSome h k
      obtain ⟨v, hv⟩ := exec_take_isSome h (k + 1)
      have := exec_snoc ha hu
      rw [hv] at this
      cases hs : step u a with
      | none => rw [hs] at this; cases this
      | some w =>
        rw [hs] at this
        simp only [hu, hv, Option.getD_some, hs]
        exact this.symm

theorem Run.ofList_state {s t : σ} {as : List α} (h : exec step s as = some t) (k : ℕ) :
    (Run.ofList as h).state k = (exec step s (as.take k)).getD s := rfl

theorem Run.meets_ofList {cond : σ → α → Prop} {s t : σ} {as : List α} (h : exec step s as = some t)
    (hc : ∀ k : Fin as.length, cond ((exec step s (as.take k)).getD s) (as.get k)) :
    (Run.ofList as h).Meets cond := by
  intro k a ha
  obtain ⟨hk, rfl⟩ := List.getElem?_eq_some_iff.mp (show as[k]? = some a from ha)
  exact hc ⟨k, hk⟩

/-! ## Reachable states -/

variable (step) in
def Reaches (s t : σ) : Prop :=
  ∃ as, exec step s as = some t

theorem Reaches.refl (s : σ) : Reaches step s s :=
  ⟨[], rfl⟩

theorem Reaches.trans {s t u : σ} (h : Reaches step s t) (h' : Reaches step t u) : Reaches step s u := by
  obtain ⟨as, has⟩ := h
  obtain ⟨bs, hbs⟩ := h'
  exact ⟨as ++ bs, by simp [exec_append, has, hbs]⟩

theorem Reaches.of_step {s t : σ} {a : α} (h : step s a = some t) : Reaches step s t :=
  ⟨[a], by simp [exec, h]⟩

theorem Reaches.cons {s t u : σ} {a : α} (h : step s a = some t) (h' : Reaches step t u) : Reaches step s u :=
  (Reaches.of_step h).trans h'

theorem Reaches.invariant {P : σ → Prop} (hs : ∀ s a t, P s → step s a = some t → P t) {s t : σ}
    (h : Reaches step s t) (hP : P s) : P t := by
  obtain ⟨as, has⟩ := h
  induction as generalizing s with
  | nil =>
    cases has
    exact hP
  | cons a as ih =>
    rw [exec] at has
    split at has
    · exact ih (hs _ a _ hP ‹_›) has
    · cases has

/-- A goal is in reach when from every state that has not got there some execution
makes a measure smaller. -/
theorem Reaches.of_measure {P Q : σ → Prop} (m : σ → ℕ)
    (hs : ∀ s, P s → ¬ Q s → ∃ t, Reaches step s t ∧ P t ∧ (Q t ∨ m t < m s)) {s : σ} (hP : P s) :
    ∃ t, Reaches step s t ∧ P t ∧ Q t := by
  induction hm : m s using Nat.strong_induction_on generalizing s with
  | _ n ih =>
    by_cases hQ : Q s
    · exact ⟨s, Reaches.refl s, hP, hQ⟩
    · obtain ⟨t, ht, hPt, hQt | hlt⟩ := hs s hP hQ
      · exact ⟨t, ht, hPt, hQt⟩
      · obtain ⟨u, hu, hPu, hQu⟩ := ih (m t) (hm ▸ hlt) hPt rfl
        exact ⟨u, ht.trans hu, hPu, hQu⟩

/-- A step that a reachable state can take is a step of some run. -/
theorem Reaches.exists_run {s t u : σ} {a : α} (h : Reaches step s t) (ha : step t a = some u) :
    ∃ (r : Run step s) (k : ℕ), r.state k = t ∧ r.act k = some a ∧ r.state (k + 1) = u := by
  obtain ⟨as, has⟩ := h
  have hexec : exec step s (as ++ [a]) = some u := by simp [exec_append, has, exec, ha]
  refine ⟨Run.ofList (as ++ [a]) hexec, as.length, ?_, ?_, ?_⟩
  · simp [Run.ofList_state, has]
  · simp [Run.ofList]
  · simp [Run.ofList_state, hexec, List.take_of_length_le]

end

end DistLab
