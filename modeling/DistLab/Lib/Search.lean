import Mathlib.Order.Nat
import Mathlib.Tactic.Common

/-!
# Depth-first search with a memory

A search over a tree of configurations that keeps the configurations it has
entered and does not enter one again. The memory may identify configurations that
have the same future. Every move leads to a smaller rank, so a configuration that
is met again is not one the search is still in: it has been searched in vain.
-/

namespace DistLab

structure Tree (γ μ : Type*) where
  moves : γ → List μ
  follow : γ → μ → Option γ
  goal : γ → Bool

/-- The stack has the configurations from the current one down to the first, each
with the moves that are left to try. -/
structure Search (γ μ : Type*) where
  stack : List (γ × List μ)
  seen : List γ

section
variable {γ μ : Type*} (T : Tree γ μ) (same : γ → γ → Bool)

/-- One iteration. The search ends with `true` at a goal, and with `false` when
the first configuration has no moves left. -/
def Search.step (σ : Search γ μ) : Search γ μ ⊕ Bool :=
  match σ.stack with
  | [] => .inr false
  | (c, todo) :: rest =>
    if T.goal c then .inr true
    else
      match todo with
      | [] =>
        match rest with
        | [] => .inr false
        | _ => .inl { σ with stack := rest }
      | m :: todo =>
        match T.follow c m with
        | none => .inl { σ with stack := (c, todo) :: rest }
        | some d =>
          if σ.seen.any (same d) then .inl { σ with stack := (c, todo) :: rest }
          else .inl ⟨(d, T.moves d) :: (c, todo) :: rest, d :: σ.seen⟩

def Search.run : Nat → Search γ μ → Search γ μ ⊕ Bool
  | 0, σ => .inl σ
  | n + 1, σ =>
    match σ.step T same with
    | .inl σ => Search.run n σ
    | .inr b => .inr b

inductive Tree.Wins : γ → Prop
  | goal {c : γ} : T.goal c = true → Wins c
  | move {c d : γ} {m : μ} : m ∈ T.moves c → T.follow c m = some d → Wins d → Wins c

def Tree.WinsVia (c : γ) (todo : List μ) : Prop := ∃ m ∈ todo, ∃ d, T.follow c m = some d ∧ T.Wins d

end

section
variable {γ μ : Type*} {T : Tree γ μ} {same : γ → γ → Bool} {c d : γ} {m : μ} {todo : List μ}

theorem Tree.wins_iff : T.Wins c ↔ T.goal c = true ∨ T.WinsVia c (T.moves c) := by
  constructor
  · intro h
    cases h with
    | goal h => exact Or.inl h
    | @move _ d m hm hd h => exact Or.inr ⟨m, hm, d, hd, h⟩
  · rintro (h | ⟨m, hm, d, hd, h⟩)
    · exact .goal h
    · exact .move hm hd h

theorem Tree.winsVia_cons : T.WinsVia c (m :: todo) ↔ (∃ d, T.follow c m = some d ∧ T.Wins d) ∨ T.WinsVia c todo := by
  simp only [WinsVia, List.mem_cons, exists_eq_or_imp]

theorem Search.run_succ_left {σ σ' : Search γ μ} (h : σ.step T same = .inl σ') (n : Nat) :
    σ.run T same (n + 1) = σ'.run T same n := by
  simp only [run, h]

theorem Search.run_add {σ σ' : Search γ μ} {j : Nat} (h : σ.run T same j = .inl σ') (k : Nat) :
    σ.run T same (j + k) = σ'.run T same k := by
  induction j generalizing σ with
  | zero =>
    cases h
    rw [Nat.zero_add]
  | succ j ih =>
    rw [Nat.succ_add]
    simp only [run] at h ⊢
    split at h
    · exact ih h
    · cases h

/-- What the search does with the moves of its current configuration: it finds a
goal, or it tries them all and remembers only what it has searched in vain. -/
inductive Search.Explores (T : Tree γ μ) (same : γ → γ → Bool) (rank : γ → Nat) (c : γ) (todo : List μ)
    (rest : List (γ × List μ)) (seen : List γ) : Prop
  | found (k : Nat) : T.goal c = true ∨ T.WinsVia c todo →
      Search.run T same k ⟨(c, todo) :: rest, seen⟩ = .inr true → Explores T same rank c todo rest seen
  | failed (k : Nat) (seen' : List γ) : T.goal c = false → ¬ T.WinsVia c todo →
      Search.run T same k ⟨(c, todo) :: rest, seen⟩ = .inl ⟨(c, []) :: rest, seen'⟩ →
      (∀ e ∈ seen', e ∈ seen ∨ rank e < rank c ∧ ¬ T.Wins e) → Explores T same rank c todo rest seen

section
variable {rank : γ → Nat} {rest : List (γ × List μ)} {seen : List γ}

theorem Search.Explores.skip (hgoal : T.goal c = false) (hdead : ∀ d, T.follow c m = some d → ¬ T.Wins d)
    (hstep : Search.step T same ⟨(c, m :: todo) :: rest, seen⟩ = .inl ⟨(c, todo) :: rest, seen⟩)
    (h : Explores T same rank c todo rest seen) : Explores T same rank c (m :: todo) rest seen := by
  have hvia : T.WinsVia c (m :: todo) ↔ T.WinsVia c todo := by
    rw [Tree.winsVia_cons, or_iff_right]
    rintro ⟨d, hd, hw⟩
    exact hdead d hd hw
  cases h with
  | found k hw hk => exact .found (k + 1) (hw.imp_right hvia.mpr) ((run_succ_left hstep k).trans hk)
  | failed k seen' _ hw hk hseen =>
    exact .failed (k + 1) seen' hgoal (fun h => hw (hvia.mp h)) ((run_succ_left hstep k).trans hk) hseen

variable (hrank : ∀ c d, ∀ m ∈ T.moves c, T.follow c m = some d → rank d < rank c)
  (hsame : ∀ d e, same d e = true → rank d = rank e ∧ (T.Wins d → T.Wins e))
include hrank hsame

theorem Search.explores (n : Nat) (c : γ) (hn : rank c < n) (todo : List μ) (rest : List (γ × List μ)) (seen : List γ)
    (htodo : todo ⊆ T.moves c) (hseen : ∀ e ∈ seen, rank e < rank c → ¬ T.Wins e) :
    Explores T same rank c todo rest seen := by
  -- on the rank, and for one configuration on the moves that are left
  induction n generalizing c todo rest seen with
  | zero => omega
  | succ n ihn =>
    cases hgoal : T.goal c with
    | true => exact .found 1 (Or.inl hgoal) (by simp only [run, step, hgoal, if_true])
    | false =>
      induction todo generalizing seen with
      | nil => exact .failed 0 seen hgoal (fun ⟨m, hm, _⟩ => by cases hm) rfl fun e he => Or.inl he
      | cons m todo ih =>
        obtain ⟨hm, htodo⟩ := List.cons_subset.mp htodo
        have hstep : Search.step T same ⟨(c, m :: todo) :: rest, seen⟩ =
            match T.follow c m with
            | none => .inl ⟨(c, todo) :: rest, seen⟩
            | some d =>
              if seen.any (same d) then .inl ⟨(c, todo) :: rest, seen⟩
              else .inl ⟨(d, T.moves d) :: (c, todo) :: rest, d :: seen⟩ := by
          simp only [step, hgoal, Bool.false_eq_true, if_false]
        cases hd : T.follow c m with
        | none =>
          rw [hd] at hstep
          exact (ih seen htodo hseen).skip hgoal (fun d hd' => by rw [hd] at hd'; cases hd') hstep
        | some d =>
          have hlt := hrank c d m hm hd
          simp only [hd] at hstep
          split at hstep
          · rename_i hany
            obtain ⟨e, he, hde⟩ := List.any_eq_true.mp hany
            obtain ⟨hr, hw⟩ := hsame d e hde
            refine (ih seen htodo hseen).skip hgoal (fun d' hd' hwin => ?_) hstep
            rw [hd] at hd'
            cases hd'
            exact hseen e he (by omega) (hw hwin)
          · have hseen' : ∀ e ∈ d :: seen, rank e < rank d → ¬ T.Wins e := by
              intro e he hr
              rcases List.mem_cons.mp he with rfl | he
              · omega
              · exact hseen e he (by omega)
            cases ihn d (by omega) (T.moves d) ((c, todo) :: rest) (d :: seen) (List.Subset.refl _) hseen' with
            | found k hw hk =>
              refine .found (k + 1) (Or.inr (Tree.winsVia_cons.mpr (Or.inl ⟨d, hd, Tree.wins_iff.mpr hw⟩))) ?_
              exact (run_succ_left hstep k).trans hk
            | failed k seen' hgd hw hk hnew =>
              have hlost : ¬ T.Wins d := by
                rw [Tree.wins_iff, hgd]
                simpa using hw
              -- the configuration is left and the next move tried
              have hback : Search.run T same (k + 1 + 1) ⟨(c, m :: todo) :: rest, seen⟩ =
                  .inl ⟨(c, todo) :: rest, seen'⟩ := by
                rw [run_succ_left hstep, run_add hk]
                simp only [run, step, hgd, Bool.false_eq_true, if_false]
              have hdead : ∀ e ∈ seen', e ∈ seen ∨ rank e < rank c ∧ ¬ T.Wins e := by
                intro e he
                rcases hnew e he with he | ⟨hr, hl⟩
                · rcases List.mem_cons.mp he with rfl | he
                  · exact Or.inr ⟨hlt, hlost⟩
                  · exact Or.inl he
                · exact Or.inr ⟨hr.trans hlt, hl⟩
              have hvia : T.WinsVia c (m :: todo) ↔ T.WinsVia c todo := by
                rw [Tree.winsVia_cons, or_iff_right]
                rintro ⟨d', hd', hwin⟩
                rw [hd] at hd'
                cases hd'
                exact hlost hwin
              cases ih seen' htodo fun e he hr => (hdead e he).elim (fun he => hseen e he hr) fun h => h.2 with
              | found j hw hj => exact .found (k + 1 + 1 + j) (hw.imp_right hvia.mpr) ((run_add hback j).trans hj)
              | failed j seen'' _ hw hj hnew' =>
                refine .failed (k + 1 + 1 + j) seen'' hgoal (fun h => hw (hvia.mp h)) ((run_add hback j).trans hj) ?_
                intro e he
                rcases hnew' e he with he | he
                · exact hdead e he
                · exact Or.inr he

/-- The search ends, and finds a goal if there is one. -/
theorem Search.decides (c : γ) : ∃ k b, Search.run T same k ⟨[(c, T.moves c)], []⟩ = .inr b ∧ (b = true ↔ T.Wins c) := by
  have hexp := Search.explores hrank hsame (rank c + 1) c (Nat.lt_succ_self _) (T.moves c) [] []
    (List.Subset.refl _) fun e he => by cases he
  cases hexp with
  | found k hw hk => exact ⟨k, true, hk, by simpa using Tree.wins_iff.mpr hw⟩
  | failed k seen' hgoal hw hk _ =>
    refine ⟨k + 1, false, ?_, ?_⟩
    · rw [run_add hk]
      simp only [run, step, hgoal, Bool.false_eq_true, if_false]
    · rw [Tree.wins_iff, hgoal]
      simpa using hw

end

end

end DistLab
