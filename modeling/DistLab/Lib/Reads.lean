import DistLab.Lib.Linear

/-!
# Reads that are not executed in order

The rule `Serves.linearization` is for objects whose log holds the writes only.
A read gets its answer in some state that the log went through between the
invocation and the return, not necessarily the last one. Such reads are put
back between the writes: all reads that saw the first `p` writes stand before
the write at position `p`, in the order of their returns.
-/

namespace DistLab

/-! ## Buckets -/

section
variable {α : Type*}

theorem sublist_flatMap_of_lt {B : ℕ → List α} {i j n : ℕ} {a b : α} (hij : i < j) (hj : j < n) (ha : a ∈ B i)
    (hb : b ∈ B j) : [a, b].Sublist ((List.range n).flatMap B) := by
  induction n with
  | zero => omega
  | succ n ih =>
    rw [List.range_succ, List.flatMap_append, List.flatMap_singleton]
    rcases Nat.lt_or_ge j n with hlt | hge
    · exact (ih hlt).trans (List.sublist_append_left _ _)
    · obtain rfl : j = n := by omega
      have hin : a ∈ (List.range j).flatMap B := List.mem_flatMap.mpr ⟨i, List.mem_range.mpr hij, ha⟩
      exact (List.singleton_sublist.mpr hin).append (List.singleton_sublist.mpr hb)

theorem sublist_flatMap_of_mem {B : ℕ → List α} {i n : ℕ} {l : List α} (hi : i < n) (hl : l.Sublist (B i)) :
    l.Sublist ((List.range n).flatMap B) := by
  induction n with
  | zero => omega
  | succ n ih =>
    rw [List.range_succ, List.flatMap_append, List.flatMap_singleton]
    rcases Nat.lt_or_ge i n with hlt | hge
    · exact (ih hlt).trans (List.sublist_append_left _ _)
    · obtain rfl : i = n := by omega
      exact hl.trans (List.sublist_append_right _ _)

theorem sublist_filterMap_range {f : ℕ → Option α} {i j n : ℕ} {a b : α} (hij : i < j) (hj : j < n)
    (ha : f i = some a) (hb : f j = some b) : [a, b].Sublist ((List.range n).filterMap f) := by
  have heq : (List.range n).filterMap f = (List.range n).flatMap fun k => (f k).toList := by
    simp [List.filterMap_eq_flatMap_toList]
  rw [heq]
  exact sublist_flatMap_of_lt hij hj (by simp [ha]) (by simp [hb])

end

/-! ## The rule -/

section
variable {Id In Out St : Type*} {O : Object St In Out}

/-- `log k` holds the writes that were executed before position `k`. -/
structure Serves (O : Object St In Out) (read : In → Prop) (ev : ℕ → Option (Event Id In Out))
    (log : ℕ → List (Done Id In Out)) : Prop where
  reads : ∀ x, read x → O.Reads x
  grow : ∀ k, log k <+: log (k + 1)
  legal : ∀ k, O.Legal O.init (log k)
  invoked : ∀ k, ∀ d ∈ log k, ∃ j < k, ev j = some (.invoke d.id d.input)
  writes : ∀ k, ∀ d ∈ log k, ¬ read d.input
  once : ∀ k, ((log k).map Done.id).Nodup
  invokes : ∀ j k id x y, ev j = some (.invoke id x) → ev k = some (.invoke id y) → j = k
  returns : ∀ j k id y z, ev j = some (.ret id y) → ev k = some (.ret id z) → j = k
  answered : ∀ k id y, ev k = some (.ret id y) → (∃ d ∈ log k, d.id = id ∧ d.output = y) ∨
    ∃ j x p, j < k ∧ ev j = some (.invoke id x) ∧ read x ∧ (log j).length ≤ p ∧ p ≤ (log k).length ∧
      (O.step (O.run O.init ((log k).take p)) x).2 = y

def ReadAt (O : Object St In Out) (read : In → Prop) (ev : ℕ → Option (Event Id In Out))
    (log : ℕ → List (Done Id In Out)) (k p : ℕ) (d : Done Id In Out) : Prop :=
  ev k = some (.ret d.id d.output) ∧ read d.input ∧
    ∃ j < k, ev j = some (.invoke d.id d.input) ∧ (log j).length ≤ p ∧ p ≤ (log k).length ∧
      (O.step (O.run O.init ((log k).take p)) d.input).2 = d.output

noncomputable def readAt (O : Object St In Out) (read : In → Prop) (ev : ℕ → Option (Event Id In Out))
    (log : ℕ → List (Done Id In Out)) (k : ℕ) : Option (ℕ × Done Id In Out) :=
  open Classical in
  if h : ∃ p : ℕ × Done Id In Out, ReadAt O read ev log k p.1 p.2 then some h.choose else none

/-- Bucket `2 * p` has the reads that saw the first `p` writes, bucket
`2 * p + 1` the write at position `p`. -/
noncomputable def bucket (O : Object St In Out) (read : In → Prop) (ev : ℕ → Option (Event Id In Out))
    (log : ℕ → List (Done Id In Out)) (K i : ℕ) : List (Done Id In Out) :=
  if i % 2 = 0 then
    (List.range K).filterMap fun k =>
      match readAt O read ev log k with
      | some (p, d) => if p = i / 2 then some d else none
      | none => none
  else ((log K)[i / 2]?).toList

namespace Serves

variable {read : In → Prop} {ev : ℕ → Option (Event Id In Out)} {log : ℕ → List (Done Id In Out)}

theorem readAt_spec {k p : ℕ} {d : Done Id In Out} (h : readAt O read ev log k = some (p, d)) :
    ReadAt O read ev log k p d := by
  unfold readAt at h
  split at h
  · rename_i hex
    have hspec := hex.choose_spec
    rw [Option.some.inj h] at hspec
    exact hspec
  · cases h

theorem mem_bucket_even {K p : ℕ} {d : Done Id In Out} :
    d ∈ bucket O read ev log K (2 * p) ↔ ∃ k < K, readAt O read ev log k = some (p, d) := by
  unfold bucket
  rw [if_pos (by omega), List.mem_filterMap, show 2 * p / 2 = p by omega]
  constructor
  · rintro ⟨k, hk, h⟩
    split at h
    · rename_i q e heq
      split at h
      · rename_i hq
        cases h
        exact ⟨k, List.mem_range.mp hk, hq ▸ heq⟩
      · cases h
    · cases h
  · rintro ⟨k, hk, h⟩
    exact ⟨k, List.mem_range.mpr hk, by simp [h]⟩

theorem bucket_odd (K p : ℕ) : bucket O read ev log K (2 * p + 1) = ((log K)[p]?).toList := by
  unfold bucket
  rw [if_neg (by omega), show (2 * p + 1) / 2 = p by omega]

theorem mem_bucket {K i : ℕ} {d : Done Id In Out} (h : d ∈ bucket O read ev log K i) :
    (∃ p k, i = 2 * p ∧ k < K ∧ readAt O read ev log k = some (p, d)) ∨ ∃ p, i = 2 * p + 1 ∧ (log K)[p]? = some d := by
  obtain ⟨p, rfl | rfl⟩ : ∃ p, i = 2 * p ∨ i = 2 * p + 1 := ⟨i / 2, by omega⟩
  · obtain ⟨k, hk, hr⟩ := mem_bucket_even.mp h
    exact Or.inl ⟨p, k, rfl, hk, hr⟩
  · rw [bucket_odd, Option.mem_toList] at h
    exact Or.inr ⟨p, rfl, h⟩

variable (h : Serves O read ev log)
include h

theorem mono {j k : ℕ} (hjk : j ≤ k) : log j <+: log k := by
  induction k, hjk using Nat.le_induction with
  | base => exact List.prefix_rfl
  | succ k _ ih => exact ih.trans (h.grow k)

/-- A read that a state of an earlier log answers is answered by the same state
of a later one. -/
theorem take_eq {k K p : ℕ} (hk : k ≤ K) (hp : p ≤ (log k).length) : (log K).take p = (log k).take p := by
  obtain ⟨rest, hrest⟩ := h.mono hk
  rw [← hrest, List.take_append_of_le_length hp]

theorem legal_buckets (K : ℕ) : ∀ p, p ≤ (log K).length →
    O.Legal O.init ((List.range (2 * p + 1)).flatMap (bucket O read ev log K)) ∧
      O.run O.init ((List.range (2 * p + 1)).flatMap (bucket O read ev log K)) = O.run O.init ((log K).take p) := by
  -- the reads of one bucket, in the state that they saw
  have hreads : ∀ p, ∀ l ⊆ bucket O read ev log K (2 * p), ∀ s, s = O.run O.init ((log K).take p) →
      O.Legal s l ∧ O.run s l = s := by
    intro p l
    induction l with
    | nil => exact fun _ s _ => ⟨trivial, rfl⟩
    | cons d l ih =>
      intro hsub s hs
      obtain ⟨k, hk, hr⟩ := mem_bucket_even.mp (hsub List.mem_cons_self)
      obtain ⟨-, hread, j, -, -, -, hle, hout⟩ := readAt_spec hr
      have hstay := h.reads _ hread s
      obtain ⟨h1, h2⟩ := ih (fun e he => hsub (List.mem_cons_of_mem _ he)) s hs
      refine ⟨⟨?_, ?_⟩, ?_⟩
      · rw [hs, h.take_eq hk.le hle]
        exact hout
      · rw [hstay]
        exact h1
      · show O.run (O.step s d.input).1 l = s
        rw [hstay]
        exact h2
  intro p
  induction p with
  | zero =>
    intro _
    obtain ⟨h1, h2⟩ := hreads 0 _ (List.Subset.refl _) O.init rfl
    have hone : (List.range (2 * 0 + 1)).flatMap (bucket O read ev log K) = bucket O read ev log K (2 * 0) := by
      simp [List.range_succ]
    rw [hone]
    exact ⟨h1, h2⟩
  | succ p ih =>
    intro hp
    obtain ⟨ih1, ih2⟩ := ih (by omega)
    obtain ⟨d, hd⟩ : ∃ d, (log K)[p]? = some d := ⟨_, List.getElem?_eq_getElem (by omega)⟩
    have hsplit : (List.range (2 * (p + 1) + 1)).flatMap (bucket O read ev log K) =
        (List.range (2 * p + 1)).flatMap (bucket O read ev log K) ++ ([d] ++ bucket O read ev log K (2 * (p + 1))) := by
      rw [show 2 * (p + 1) + 1 = 2 * p + 1 + 1 + 1 by omega, List.range_succ, List.range_succ]
      simp only [List.flatMap_append, List.flatMap_singleton, bucket_odd, hd, Option.toList_some, List.append_assoc]
      rfl
    have htake : (log K).take (p + 1) = (log K).take p ++ [d] := by rw [List.take_add_one, hd]; rfl
    have hwrite : O.Legal (O.run O.init ((log K).take p)) [d] := by
      have hle := h.legal K
      rw [← List.take_append_drop (p + 1) (log K), htake, Object.legal_append, Object.legal_append] at hle
      exact hle.1.2
    have hafter : O.run (O.run O.init ((log K).take p)) [d] = O.run O.init ((log K).take (p + 1)) := by
      rw [htake, Object.run_append]
    obtain ⟨h1, h2⟩ := hreads (p + 1) _ (List.Subset.refl _) _ rfl
    rw [hsplit, Object.legal_append, Object.legal_append, Object.run_append, Object.run_append, ih2, hafter]
    exact ⟨⟨ih1, hwrite, h1⟩, h2⟩

theorem bucket_ids_ne {K i j : ℕ} (hij : i < j) {d e : Done Id In Out} (hd : d ∈ bucket O read ev log K i)
    (he : e ∈ bucket O read ev log K j) : d.id ≠ e.id := by
  intro hid
  -- an operation is a read or a write by its argument
  have mixed : ∀ {q p k : ℕ} {w r : Done Id In Out}, (log K)[q]? = some w →
      readAt O read ev log k = some (p, r) → w.id ≠ r.id := by
    intro q p k w r hw hr heq
    obtain ⟨-, hread, i, -, hi, -⟩ := readAt_spec hr
    have hmem := List.mem_of_getElem? hw
    obtain ⟨i', -, hi'⟩ := h.invoked K w hmem
    rw [heq] at hi'
    rw [h.invokes _ _ _ _ _ hi' hi, hi, Option.some.injEq, Event.invoke.injEq] at hi'
    exact h.writes K w hmem (hi'.2 ▸ hread)
  rcases mem_bucket hd with ⟨p, k, rfl, -, hr⟩ | ⟨p, rfl, hw⟩
  · rcases mem_bucket he with ⟨q, k', rfl, -, hr'⟩ | ⟨q, rfl, hw'⟩
    · have hret := (readAt_spec hr).1
      have hret' := (readAt_spec hr').1
      rw [← hid] at hret'
      rw [h.returns _ _ _ _ _ hret hret', hr'] at hr
      cases hr
      omega
    · exact mixed hw' hr hid.symm
  · rcases mem_bucket he with ⟨q, k', rfl, -, hr'⟩ | ⟨q, rfl, hw'⟩
    · exact mixed hw hr' hid
    · have hpw := List.pairwise_map.mp (h.once K)
      obtain ⟨hp, rfl⟩ := List.getElem?_eq_some_iff.mp hw
      obtain ⟨hq, rfl⟩ := List.getElem?_eq_some_iff.mp hw'
      exact List.pairwise_iff_getElem.mp hpw p q hp hq (by omega) hid

theorem nodup_bucket (K i : ℕ) : (bucket O read ev log K i).Pairwise fun d e => d.id ≠ e.id := by
  obtain ⟨p, rfl | rfl⟩ : ∃ p, i = 2 * p ∨ i = 2 * p + 1 := ⟨i / 2, by omega⟩
  · unfold bucket
    rw [if_pos (by omega), List.pairwise_filterMap]
    refine List.pairwise_lt_range.imp fun {j k} hjk d hd e he hid => ?_
    have read_of : ∀ {n : ℕ} {x : Done Id In Out}, (match readAt O read ev log n with
        | some (q, d) => if q = 2 * p / 2 then some d else none
        | none => none) = some x → ev n = some (.ret x.id x.output) := by
      intro n x hx
      split at hx
      · rename_i q y hq
        split at hx
        · cases hx
          exact (readAt_spec hq).1
        · cases hx
      · cases hx
    have h1 := read_of hd
    have h2 := read_of he
    rw [hid] at h1
    have := h.returns _ _ _ _ _ h1 h2
    omega
  · rw [bucket_odd]
    cases (log K)[p]? <;> simp

theorem exists_bucket {K k : ℕ} {id : Id} {y : Out} (hk : k < K) (hret : ev k = some (.ret id y)) :
    ∃ i d, d ∈ bucket O read ev log K i ∧ d.id = id ∧ d.output = y ∧ i < 2 * (log K).length + 1 ∧
      ((∃ p, i = 2 * p + 1 ∧ p < (log k).length) ∨ ∃ p, i = 2 * p ∧ p ≤ (log k).length ∧
        readAt O read ev log k = some (p, d)) := by
  have hlen := (h.mono hk.le).length_le
  rcases h.answered k id y hret with ⟨d, hd, hid, hy⟩ | ⟨j, x, p, hj, hinv, hread, hp, hpk, hout⟩
  · obtain ⟨p, hp, rfl⟩ := List.getElem_of_mem hd
    have hK := List.prefix_iff_getElem?.mp (h.mono hk.le) p hp
    exact ⟨2 * p + 1, _, by rw [bucket_odd, hK]; exact List.mem_singleton_self _, hid, hy, by omega,
      Or.inl ⟨p, rfl, hp⟩⟩
  · have hex : ∃ p : ℕ × Done Id In Out, ReadAt O read ev log k p.1 p.2 :=
      ⟨(p, ⟨id, x, y⟩), hret, hread, j, hj, hinv, hp, hpk, hout⟩
    obtain ⟨⟨q, d⟩, hchoice⟩ : ∃ c, readAt O read ev log k = some c := ⟨hex.choose, by rw [readAt, dif_pos hex]⟩
    obtain ⟨hret', -, -, -, -, -, hq, -⟩ := readAt_spec hchoice
    rw [hret, Option.some.injEq, Event.ret.injEq] at hret'
    exact ⟨2 * q, d, mem_bucket_even.mpr ⟨k, hk, hchoice⟩, hret'.1.symm, hret'.2.symm, by omega,
      Or.inr ⟨q, rfl, hq, hchoice⟩⟩

theorem linearization (K : ℕ) : ∃ l, Linearization O ev K l := by
  refine ⟨(List.range (2 * (log K).length + 1)).flatMap (bucket O read ev log K), ?_, fun d hd => ?_,
    fun k hk id y hret => ?_, (h.legal_buckets K _ le_rfl).1, fun j k hjk hk a y b x hj hb e he heb => ?_⟩
  · refine List.pairwise_map.mpr (List.pairwise_flatMap.mpr ⟨fun i _ => h.nodup_bucket K i, ?_⟩)
    exact List.pairwise_lt_range.imp fun hij d hd e he => h.bucket_ids_ne hij hd he
  · obtain ⟨i, -, hd⟩ := List.mem_flatMap.mp hd
    rcases mem_bucket hd with ⟨p, k, -, hk, hr⟩ | ⟨p, -, hw⟩
    · obtain ⟨-, -, j, hj, hinv, -⟩ := readAt_spec hr
      exact ⟨j, hj.trans hk, hinv⟩
    · exact h.invoked K d (List.mem_of_getElem? hw)
  · obtain ⟨i, d, hd, hid, hy, hi, -⟩ := h.exists_bucket hk hret
    exact ⟨d, List.mem_flatMap.mpr ⟨i, List.mem_range.mpr hi, hd⟩, hid, hy⟩
  · obtain ⟨i, d, hd, hid, -, hi, hplace⟩ := h.exists_bucket (hjk.trans hk) hj
    obtain ⟨i', hi', he⟩ := List.mem_flatMap.mp he
    refine ⟨d, List.mem_flatMap.mpr ⟨i, List.mem_range.mpr hi, hd⟩, hid, ?_⟩
    have hlen := (h.mono hjk.le).length_le
    have later : i < i' → [d, e].Sublist ((List.range (2 * (log K).length + 1)).flatMap (bucket O read ev log K)) :=
      fun hlt => sublist_flatMap_of_lt hlt (List.mem_range.mp hi') hd he
    rcases mem_bucket he with ⟨q, k', rfl, hk', hr⟩ | ⟨q, rfl, hw⟩
    · -- the later operation is a read: it saw at least the writes before its invocation
      obtain ⟨hret, -, j', hj', hinv, hq, -⟩ := readAt_spec hr
      rw [heb] at hinv
      have hjk' := h.invokes _ _ _ _ _ hinv hb
      subst hjk'
      rcases hplace with ⟨p, rfl, hp⟩ | ⟨p, rfl, hp, hr'⟩
      · exact later (by omega)
      · rcases Nat.lt_or_ge p q with hlt | hge
        · exact later (by omega)
        · obtain rfl : p = q := by omega
          refine sublist_flatMap_of_mem (List.mem_range.mp hi') ?_
          unfold bucket
          rw [if_pos (by omega), show 2 * p / 2 = p by omega]
          exact sublist_filterMap_range (hjk.trans hj') hk' (by simp [hr']) (by simp [hr])
    · -- the later operation is a write: it was executed after its invocation
      have hq : (log k).length ≤ q := by
        by_contra hlt
        have hin := List.prefix_iff_getElem?.mp (h.mono hk.le) q (by omega)
        rw [hw] at hin
        obtain ⟨i, hik, hinv⟩ := h.invoked k e (by rw [Option.some.inj hin]; exact List.getElem_mem _)
        rw [heb] at hinv
        have := h.invokes _ _ _ _ _ hinv hb
        omega
      rcases hplace with ⟨p, rfl, hp⟩ | ⟨p, rfl, hp, -⟩
      · exact later (by omega)
      · exact later (by omega)

end Serves

end

end DistLab
