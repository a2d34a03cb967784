import DistLab.Lib.Linear
import DistLab.Lib.Runs

/-!
# What a run shows

Some steps of a system show an event, the others show nothing. A system that
does for every step of another one some steps of its own, and shows the same by
them, shows in its runs all that the other one shows, although not at the same
positions. Whether a history is linearizable depends on the list of its events
only.
-/

namespace DistLab

/-! ## Lists of events -/

section
variable {ε : Type*} {ev : ℕ → Option ε} {K : ℕ}

def shown (ev : ℕ → Option ε) (K : ℕ) : List ε := (List.range K).filterMap ev

theorem shown_succ (ev : ℕ → Option ε) (K : ℕ) : shown ev (K + 1) = shown ev K ++ (ev K).toList := by
  rw [shown, List.range_succ, List.filterMap_append]
  cases h : ev K <;> simp [shown, h]

theorem shown_congr {ev' : ℕ → Option ε} (h : ∀ k < K, ev k = ev' k) : shown ev K = shown ev' K :=
  List.filterMap_congr fun k hk => h k (List.mem_range.mp hk)

theorem mem_shown {e : ε} : e ∈ shown ev K ↔ ∃ k < K, ev k = some e := by
  simp [shown, List.mem_filterMap]

theorem pair_shown {a b : ε} :
    [a, b].Sublist (shown ev K) ↔ ∃ j k, j < k ∧ k < K ∧ ev j = some a ∧ ev k = some b := by
  induction K with
  | zero => simp [shown]
  | succ K ih =>
    rw [shown_succ]
    constructor
    · intro h
      obtain ⟨l, l', hl, h1, h2⟩ := List.sublist_append_iff.mp h
      cases hK : ev K with
      | none =>
        rw [hK] at h
        obtain ⟨j, k, hjk, hk, ha, hb⟩ := ih.mp (by simpa using h)
        exact ⟨j, k, hjk, Nat.lt_succ_of_lt hk, ha, hb⟩
      | some e =>
        rw [hK] at h2
        rcases List.sublist_singleton.mp h2 with rfl | rfl
        · obtain ⟨j, k, hjk, hk, ha, hb⟩ := ih.mp (by rw [hl, List.append_nil]; exact h1)
          exact ⟨j, k, hjk, Nat.lt_succ_of_lt hk, ha, hb⟩
        · obtain ⟨rfl, rfl⟩ : l = [a] ∧ e = b := by
            have := List.append_inj' (show [a] ++ [b] = l ++ [e] from hl) rfl
            exact ⟨this.1.symm, (List.singleton_inj.mp this.2).symm⟩
          obtain ⟨j, hj, ha⟩ := mem_shown.mp (List.singleton_sublist.mp h1)
          exact ⟨j, K, hj, Nat.lt_succ_self K, ha, hK⟩
    · rintro ⟨j, k, hjk, hk, ha, hb⟩
      rcases Nat.lt_succ_iff_lt_or_eq.mp hk with hk | rfl
      · exact (ih.mpr ⟨j, k, hjk, hk, ha, hb⟩).trans (List.sublist_append_left _ _)
      · rw [hb]
        exact (List.singleton_sublist.mpr (mem_shown.mpr ⟨j, hjk, ha⟩)).append (List.Sublist.refl [b])

end

/-- A linearization says nothing about the positions of the events. -/
theorem Linearization.of_shown {Id In Out St : Type*} {O : Object St In Out} {ev ev' : ℕ → Option (Event Id In Out)}
    {K K' : ℕ} {l : List (Done Id In Out)} (hl : Linearization O ev K l) (h : shown ev K = shown ev' K') :
    Linearization O ev' K' l where
  nodup := hl.nodup
  invoked d hd := by
    rw [← mem_shown, ← h, mem_shown]
    exact hl.invoked d hd
  complete k hk id y hret := by
    obtain ⟨j, hj, hret⟩ := mem_shown.mp (h.symm ▸ mem_shown.mpr ⟨k, hk, hret⟩)
    exact hl.complete j hj id y hret
  legal := hl.legal
  realtime j k hjk hk a y b x hret hinv := by
    obtain ⟨j, k, hjk, hk, hret, hinv⟩ := pair_shown.mp (h.symm ▸ pair_shown.mpr ⟨j, k, hjk, hk, hret, hinv⟩)
    exact hl.realtime j k hjk hk a y b x hret hinv

/-! ## Runs that show the same -/

section
variable {σ α ε : Type*} {step : σ → α → Option σ} {init : σ} {ev : σ → α → Option ε}

def Run.shows (r : Run step init) (ev : σ → α → Option ε) (K : ℕ) : List ε :=
  shown (fun k => (r.act k).bind (ev (r.state k))) K

inductive Shows (step : σ → α → Option σ) (ev : σ → α → Option ε) (s : σ) : List ε → σ → Prop
  | refl : Shows step ev s [] s
  | snoc {l : List ε} {a : α} {t u : σ} : Shows step ev s l t → step t a = some u →
      Shows step ev s (l ++ (ev t a).toList) u

theorem Shows.of_step {s t : σ} {a : α} (h : step s a = some t) : Shows step ev s (ev s a).toList t := Shows.refl.snoc h

theorem Shows.trans {s t u : σ} {l l' : List ε} (h : Shows step ev s l t) (h' : Shows step ev t l' u) :
    Shows step ev s (l ++ l') u := by
  induction h' with
  | refl => rwa [List.append_nil]
  | snoc _ hs ih =>
    rw [← List.append_assoc]
    exact ih.snoc hs

def Run.extend (r : Run step init) (K : ℕ) {a : α} {u : σ} (h : step (r.state K) a = some u) : Run step init where
  state k := if k ≤ K then r.state k else u
  act k := if k < K then r.act k else if k = K then some a else none
  start := by rw [if_pos (Nat.zero_le K), r.start]
  next k := by
    rcases Nat.lt_trichotomy k K with hk | rfl | hk
    · simp only [if_pos hk, if_pos hk.le, if_pos (Nat.succ_le_of_lt hk)]
      exact r.next k
    · simp only [Nat.lt_irrefl, if_false, if_true, le_refl, if_neg (Nat.not_succ_le_self k), h]
    · simp [Nat.not_le.mpr hk, Nat.not_lt.mpr hk.le, hk.ne', Nat.not_le.mpr (Nat.lt_succ_of_lt hk)]

theorem Run.shows_extend (r : Run step init) (K : ℕ) {a : α} {u : σ} (h : step (r.state K) a = some u) :
    (r.extend K h).shows ev (K + 1) = r.shows ev K ++ (ev (r.state K) a).toList := by
  rw [shows, shown_succ]
  congr 1
  · refine shown_congr fun k hk => ?_
    simp only [extend, if_pos hk, if_pos hk.le]
  · simp [extend]

theorem Shows.exists_run {l : List ε} {t : σ} (h : Shows step ev init l t) :
    ∃ (r : Run step init) (K : ℕ), r.state K = t ∧ r.shows ev K = l := by
  induction h with
  | refl => exact ⟨Run.ofList [] rfl, 0, rfl, rfl⟩
  | snoc _ hs ih =>
    obtain ⟨r, K, rfl, rfl⟩ := ih
    exact ⟨r.extend K hs, K + 1, by simp [Run.extend], r.shows_extend K hs⟩

/-- What a run shows is shown by a run of a system that can follow every step. -/
theorem Run.simulated {τ β : Type*} {step' : τ → β → Option τ} {init' : τ} {ev' : τ → β → Option ε}
    (r : Run step init) {cond : σ → α → Prop} (hc : r.Meets cond) {R : σ → τ → Prop} (h0 : R init init')
    (hs : ∀ s a s' t, R s t → cond s a → step s a = some s' →
      ∃ t', Shows step' ev' t (ev s a).toList t' ∧ R s' t') (K : ℕ) :
    ∃ (r' : Run step' init') (K' : ℕ), R (r.state K) (r'.state K') ∧ r'.shows ev' K' = r.shows ev K := by
  have hreach : ∃ t, Shows step' ev' init' (r.shows ev K) t ∧ R (r.state K) t := by
    induction K with
    | zero => exact ⟨init', .refl, r.start.symm ▸ h0⟩
    | succ K ih =>
      obtain ⟨t, ht, hR⟩ := ih
      rw [shows, shown_succ]
      rcases r.next_cases K with ⟨ha, he⟩ | ⟨a, ha, hk⟩
      · rw [he, ha]
        exact ⟨t, by simpa [shows] using ht, hR⟩
      · obtain ⟨t', ht', hR'⟩ := hs _ a _ t hR (hc K a ha) hk
        rw [ha]
        exact ⟨t', ht.trans ht', hR'⟩
  obtain ⟨t, ht, hR⟩ := hreach
  obtain ⟨r', K', rfl, hl⟩ := ht.exists_run
  exact ⟨r', K', hR, hl⟩

end

end DistLab
