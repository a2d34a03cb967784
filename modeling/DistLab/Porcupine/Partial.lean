import DistLab.Porcupine.CheckSound
import DistLab.Porcupine.Keys

/-!
# Partial linearizations

With `computePartial` the checker keeps for every operation the longest sequence
of `calls` that it was part of when the search turned back. Each of them is the
beginning of an order: the model accepts it, and nothing that is left out had to
come before.
-/

namespace DistLab

section
variable {St In Out : Type} {M : CheckModel St In Out} {ops : List (Operation In Out)} {entries : List (Entry In Out)}
  {callAt retAt : Nat → Nat}

def CheckModel.after (M : CheckModel St In Out) (s : St) (l : List (Operation In Out)) : St :=
  l.foldl (fun s op => (M.step s op.input op.output).2) s

theorem CheckModel.accepts_snoc {s : St} {l : List (Operation In Out)} {op : Operation In Out} :
    M.Accepts s (l ++ [op]) ↔ M.Accepts s l ∧ (M.step (M.after s l) op.input op.output).1 = true := by
  induction l generalizing s with
  | nil => simp [Accepts, after]
  | cons a l ih =>
    rw [List.cons_append]
    simp only [Accepts, ih, after, List.foldl_cons, and_assoc]

theorem CheckModel.after_snoc (s : St) (l : List (Operation In Out)) (op : Operation In Out) :
    M.after s (l ++ [op]) = (M.step (M.after s l) op.input op.output).2 := List.foldl_append

structure Begins (M : CheckModel St In Out) (ops : List (Operation In Out)) (seq : List Nat) : Prop where
  nodup : seq.Nodup
  lt : ∀ i ∈ seq, i < ops.length
  accepts : M.Accepts M.init (seq.filterMap fun i => ops[i]?)
  realtime : seq.Pairwise fun i j => ∀ a b, ops[i]? = some a → ops[j]? = some b → a.call ≤ b.ret
  first : ∀ i ∈ seq, ∀ j, j ∉ seq → ∀ a b, ops[i]? = some a → ops[j]? = some b → a.call ≤ b.ret

/-! ## The sequence of the current calls -/

structure LeadsTo (M : CheckModel St In Out) (ops : List (Operation In Out)) (callAt retAt : Nat → Nat)
    (c : Bitset × St) (seq : List Nat) : Prop where
  nodup : seq.Nodup
  mem : ∀ i, i ∈ seq ↔ i < ops.length ∧ c.1.has i = true
  accepts : M.Accepts M.init (seq.filterMap fun i => ops[i]?)
  state : M.after M.init (seq.filterMap fun i => ops[i]?) = c.2
  realtime : seq.Pairwise fun i j => callAt i < retAt j
  first : ∀ i ∈ seq, ∀ j < ops.length, j ∉ seq → callAt i < retAt j

theorem LeadsTo.start : LeadsTo M ops callAt retAt (Bitset.newBitset ops.length, M.init) [] := by
  refine ⟨List.nodup_nil, fun i => ?_, trivial, rfl, List.Pairwise.nil, fun i hi => by cases hi⟩
  rw [Bitset.has_newBitset]
  simp

theorem LeadsTo.snoc {c d : Bitset × St} {seq : List Nat} (hs : LeadsTo M ops callAt retAt c seq) {i : Nat}
    {op : Operation In Out} (hop : ops[i]? = some op) (hok : (M.step c.2 op.input op.output).1 = true)
    (hset : c.1.set i = some d.1) (hst : d.2 = (M.step c.2 op.input op.output).2) (hleft : c.1.has i = false)
    (hfirst : ∀ j < ops.length, c.1.has j = false → callAt i < retAt j) :
    LeadsTo M ops callAt retAt d (seq ++ [i]) := by
  have hi := (List.getElem?_eq_some_iff.mp hop).1
  have hnot : i ∉ seq := fun hm => by
    have := ((hs.mem i).mp hm).2
    rw [hleft] at this
    cases this
  have hmap : ((seq ++ [i]).filterMap fun i => ops[i]?) = (seq.filterMap fun i => ops[i]?) ++ [op] := by
    rw [List.filterMap_append, List.filterMap_cons_some hop, List.filterMap_nil]
  refine ⟨?_, fun j => ?_, ?_, ?_, ?_, fun j hj k hk hks => ?_⟩
  · rw [List.nodup_append]
    refine ⟨hs.nodup, List.nodup_singleton i, fun a ha b hb hab => ?_⟩
    rw [List.mem_singleton.mp hb] at hab
    exact hnot (hab ▸ ha)
  · rw [List.mem_append, List.mem_singleton, hs.mem, Bitset.has_set hset, Bool.or_eq_true, decide_eq_true_eq]
    constructor
    · rintro (⟨hj, hh⟩ | rfl)
      · exact ⟨hj, Or.inr hh⟩
      · exact ⟨hi, Or.inl rfl⟩
    · rintro ⟨hj, rfl | hh⟩
      · exact Or.inr rfl
      · exact Or.inl ⟨hj, hh⟩
  · rw [hmap, CheckModel.accepts_snoc, hs.state]
    exact ⟨hs.accepts, hok⟩
  · rw [hmap, CheckModel.after_snoc, hs.state, hst]
  · rw [List.pairwise_append]
    refine ⟨hs.realtime, List.pairwise_singleton _ _, fun j hj k hk => ?_⟩
    rw [List.mem_singleton.mp hk]
    exact hs.first j hj i hi hnot
  · rw [List.mem_append, List.mem_singleton] at hj
    have hk' : k ∉ seq := fun hm => hks (List.mem_append_left _ hm)
    rcases hj with hj | rfl
    · exact hs.first j hj k hk hk'
    · refine hfirst k hk ?_
      by_contra hh
      exact hk' ((hs.mem k).mpr ⟨hk, by simpa using hh⟩)

section
variable (h : Paired ops entries callAt retAt)
include h

theorem CheckStands.leadsTo {calls : List (Nat × St)} {L : Links Nat} {c : Bitset × St} {entry : Option Nat}
    {stack : List ((Bitset × St) × List Nat)} (hs : CheckStands M ops entries callAt retAt calls L c entry stack) :
    LeadsTo M ops callAt retAt c
      (calls.map fun v => ((makeLinkedEntries entries).node v.1).id.toNat).reverse := by
  induction hs with
  | bottom _ => exact .start
  | @push calls _ _ c c₀ _ _ _ i _ hi hm hf _ _ ih =>
    obtain ⟨op, hop, hok, hset, hst⟩ := (follow_callAt h hi).mp hf
    obtain ⟨j, hj, hjl, hleft, hfirst⟩ := (mem_moves h).mp hm
    obtain rfl : i = j := by
      have hid := (h.callAt_spec hi).2.1
      rw [hj, (h.callAt_spec hjl).2.1] at hid
      exact hid.symm
    rw [List.map_cons, List.reverse_cons, h.node_call hop]
    exact ih.snoc hop hok hset hst hleft hfirst

theorem Simulates.leadsTo {k : Checker St In Out} {σ : Search (Bitset × St) Nat}
    (hs : Simulates M ops entries callAt retAt k σ) : LeadsTo M ops callAt retAt (k.linearized, k.state) k.seq := by
  have hl := hs.stands.leadsTo h
  rw [← hs.node] at hl
  exact hl

end

variable (hord : ∀ i j op op', ops[i]? = some op → ops[j]? = some op' → (callAt i < retAt j ↔ op.call ≤ op'.ret))
include hord

theorem LeadsTo.begins {c : Bitset × St} {seq : List Nat} (hs : LeadsTo M ops callAt retAt c seq) :
    Begins M ops seq where
  nodup := hs.nodup
  lt i hi := ((hs.mem i).mp hi).1
  accepts := hs.accepts
  realtime := hs.realtime.imp fun {i j} hij a b ha hb => (hord i j a b ha hb).mp hij
  first i hi j hj a b ha hb := (hord i j a b ha hb).mp (hs.first i hi j (List.getElem?_eq_some_iff.mp hb).1 hj)

end

/-! ## What is recorded -/

section
variable {St In Out : Type} {M : CheckModel St In Out} {ops : List (Operation In Out)}

/-- Every sequence that is kept for an operation contains it and is the beginning
of an order. -/
def Longest.Good (M : CheckModel St In Out) (ops : List (Operation In Out)) (longest : Longest) : Prop :=
  ∀ i s, longest i = some s → i ∈ s ∧ Begins M ops s

theorem Longest.Good.update {longest : Longest} (h : longest.Good M ops) {i : Nat} {s : List Nat} (hi : i ∈ s)
    (hs : Begins M ops s) : Longest.Good M ops (Function.update longest i (some s)) := by
  intro j t ht
  by_cases hj : j = i
  · subst hj
    rw [Function.update_self] at ht
    cases ht
    exact ⟨hi, hs⟩
  · rw [Function.update_of_ne hj] at ht
    exact h j t ht

/-- A turn keeps what is recorded, or adds the current sequence to it. -/
theorem Checker.longest_next {k k' : Checker St In Out} {computePartial kill : Bool}
    (hn : k.next M computePartial kill = some (.inl k')) : k'.longest = k.longest ∨ k'.longest = k.record := by
  have htry : ∀ entry matching, k.tryCall M entry matching = some k' → k'.longest = k.longest := by
    intro entry matching ht
    unfold tryCall at ht
    split at ht
    · dsimp only at ht
      split at ht
      · simp only [Option.bind_eq_bind, Option.bind_eq_some_iff] at ht
        obtain ⟨lin, -, ht⟩ := ht
        split at ht
        · cases ht; rfl
        · simp only [Option.bind_eq_some_iff] at ht
          obtain ⟨L, -, ht⟩ := ht
          cases ht; rfl
      · cases ht; rfl
    · cases ht
  unfold next at hn
  split at hn
  · cases hn
  · split at hn
    · cases hn
    · split at hn
      · cases hn
      · split at hn
        · obtain ⟨k'', hk, he⟩ := Option.map_eq_some_iff.mp hn
          cases he
          exact Or.inl (htry _ _ hk)
        · split at hn
          · cases hn
          · obtain ⟨k'', hk, he⟩ := Option.map_eq_some_iff.mp hn
            cases he
            simp only [backtrack, Option.bind_eq_bind, Option.bind_eq_some_iff] at hk
            obtain ⟨lin, -, L, -, hk⟩ := hk
            cases hk
            cases computePartial
            · exact Or.inl rfl
            · exact Or.inr rfl

/-- The loop ends with `true` when the list is empty, and with `false` otherwise. -/
theorem Checker.results_next {k : Checker St In Out} {computePartial kill b : Bool} {longest : Longest}
    (hn : k.next M computePartial kill = some (.inr (b, longest))) :
    (k.links.next k.headEntry = none ∧ b = true ∧ longest = fun i => if i < k.n then some k.seq else k.longest i) ∨
      b = false ∧ longest = k.longest := by
  unfold next at hn
  split at hn
  · rename_i hnil
    cases hn
    exact Or.inl ⟨hnil, rfl, rfl⟩
  · split at hn
    · cases hn
      exact Or.inr ⟨rfl, rfl⟩
    · split at hn
      · cases hn
      · split at hn
        · obtain ⟨k'', -, he⟩ := Option.map_eq_some_iff.mp hn
          cases he
        · split at hn
          · cases hn
            exact Or.inr ⟨rfl, rfl⟩
          · obtain ⟨k'', -, he⟩ := Option.map_eq_some_iff.mp hn
            cases he

theorem Checker.record_good {k : Checker St In Out} (h : k.longest.Good M ops) (hs : Begins M ops k.seq) :
    k.record.Good M ops := by
  have fold : ∀ (l : List Nat) (longest : Longest), l ⊆ k.seq → longest.Good M ops →
      Longest.Good M ops (l.foldl k.keep longest) := by
    intro l
    induction l with
    | nil => exact fun longest _ hl => hl
    | cons i l ih =>
      intro longest hsub hl
      obtain ⟨hi, hsub⟩ := List.cons_subset.mp hsub
      refine ih _ hsub ?_
      unfold keep
      split
      · exact hl.update hi hs
      · split
        · exact hl.update hi hs
        · exact hl
  exact fold k.seq k.longest (List.Subset.refl _) h

variable {entries : List (Entry In Out)} {callAt retAt : Nat → Nat} (h : Paired ops entries callAt retAt)
  (hord : ∀ i j op op', ops[i]? = some op → ops[j]? = some op' → (callAt i < retAt j ↔ op.call ≤ op'.ret))
include h hord

theorem Simulates.good_inl {k k' : Checker St In Out} {σ : Search (Bitset × St) Nat}
    (hs : Simulates M ops entries callAt retAt k σ) (hg : k.longest.Good M ops) {computePartial kill : Bool}
    (hn : k.next M computePartial kill = some (.inl k')) : k'.longest.Good M ops := by
  rcases Checker.longest_next hn with hl | hl
  · rw [hl]; exact hg
  · rw [hl]; exact Checker.record_good hg ((hs.leadsTo h).begins hord)

/-- The results. If there is an order of all operations, it is kept for each of
them. -/
theorem Simulates.good_inr {k : Checker St In Out} {σ : Search (Bitset × St) Nat}
    (hs : Simulates M ops entries callAt retAt k σ) (hg : k.longest.Good M ops) {computePartial kill b : Bool}
    {longest : Longest} (hn : k.next M computePartial kill = some (.inr (b, longest))) :
    longest.Good M ops ∧ (b = true → ∀ i < ops.length, ∃ s, longest i = some s ∧ s.length = ops.length) := by
  rcases Checker.results_next hn with ⟨hnil, rfl, rfl⟩ | ⟨rfl, rfl⟩
  · have hlead := hs.leadsTo h
    obtain ⟨todo, below, -, hc⟩ := hs.stands.top
    have hseg := hc.seg
    rw [← hs.headEntry] at hseg
    have hrem : remaining entries k.linearized = [] := by
      cases hr : remaining entries k.linearized with
      | nil => rfl
      | cons a l =>
        rw [hr] at hseg
        rw [hseg.1] at hnil
        cases hnil
    have hall := (goal_iff h (M := M) (c := (k.linearized, k.state))).mp (by simp [checkTree, hrem])
    have hmem : ∀ i, i ∈ k.seq ↔ i < ops.length := fun i =>
      (hlead.mem i).trans (and_iff_left_of_imp fun hi => hall i hi)
    have hlen : k.seq.length = ops.length := by
      have hperm : k.seq.Perm (List.range ops.length) :=
        (List.perm_ext_iff_of_nodup hlead.nodup List.nodup_range).mpr fun i => by rw [hmem, List.mem_range]
      rw [hperm.length_eq, List.length_range]
    rw [hs.n]
    refine ⟨fun i s his => ?_, fun _ i hi => ⟨k.seq, if_pos hi, hlen⟩⟩
    dsimp only at his
    split at his
    · rename_i hi
      cases his
      exact ⟨(hmem i).mpr hi, hlead.begins hord⟩
    · exact hg i s his
  · exact ⟨hg, fun hb => by cases hb⟩

theorem Simulates.run_good {k : Checker St In Out} {σ : Search (Bitset × St) Nat}
    (hs : Simulates M ops entries callAt retAt k σ) (hg : k.longest.Good M ops) {computePartial b : Bool} {n : Nat}
    {longest : Longest} (hrun : k.run M computePartial n = some (.inr (b, longest))) :
    longest.Good M ops ∧ (b = true → ∀ i < ops.length, ∃ s, longest i = some s ∧ s.length = ops.length) := by
  induction n generalizing k σ with
  | zero => cases hrun
  | succ n ih =>
    rcases hs.next h computePartial with ⟨k', σ', hk, -, hs'⟩ | ⟨b', longest', hk, -⟩
    · simp only [Checker.run, hk] at hrun
      exact ih hs' (hs.good_inl h hord hg hk) hrun
    · simp only [Checker.run, hk] at hrun
      cases hrun
      exact hs.good_inr h hord hg hk

omit h hord in
/-- Whatever `checkSingle` reports for an operation is the beginning of an order
that contains it, and a whole order if the history is linearizable. -/
theorem checkSingle_longest {history : List (Operation In Out)} (hmake : MakesEntries history entries)
    (hcr : ∀ op ∈ history, op.call ≤ op.ret) {computePartial b : Bool} {fuel : Nat} {longest : Longest}
    (hrun : checkSingle M entries computePartial fuel = some (.inr (b, longest))) :
    (∀ i s, longest i = some s → i ∈ s ∧ Begins M history s) ∧
      (b = true → ∀ i < history.length, ∃ s, longest i = some s ∧ s.length = history.length) := by
  obtain ⟨callAt, retAt, hpair, hord⟩ := hmake.paired hcr
  have hstart : Simulates M history entries callAt retAt (Checker.start M entries) _ := Simulates.start hmake.length
  exact hstart.run_good hpair hord (fun i s hi => by cases hi) hrun

omit h hord in
/-- `checkSingle` ends without a panic. It says whether the history is
linearizable, and what it reports for an operation is the beginning of an order
that contains it, the whole order if there is one. -/
theorem checkSingle_spec (hM : M.Lawful) {history : List (Operation In Out)} (hmake : MakesEntries history entries)
    (hcr : ∀ op ∈ history, op.call ≤ op.ret) (computePartial : Bool) :
    ∃ fuel b longest, (∀ n, fuel ≤ n → checkSingle M entries computePartial n = some (.inr (b, longest))) ∧
      (b = true ↔ M.Linearizable history) ∧ (∀ i s, longest i = some s → i ∈ s ∧ Begins M history s) ∧
      (b = true → ∀ i < history.length, ∃ s, longest i = some s ∧ s.length = history.length) := by
  obtain ⟨fuel, b, longest, hrun, hb⟩ := checkSingle_decides hM hmake hcr computePartial
  obtain ⟨hgood, hwhole⟩ := checkSingle_longest hmake hcr (hrun fuel (Nat.le_refl fuel))
  exact ⟨fuel, b, longest, hrun, hb, hgood, hwhole⟩

end

/-- A `Get` that misses the `Put` that returned before it. -/
def staleRead : List (Operation KvInput GoString) :=
  [⟨⟨.put, [1], [7]⟩, 0, [], 1⟩, ⟨⟨.get, [1], []⟩, 2, [], 3⟩]

theorem staleRead_checked : ∃ fuel b longest,
    (∀ n, fuel ≤ n → checkSingle kvCheckModel (makeEntries staleRead) true n = some (.inr (b, longest))) ∧
      (b = true ↔ kvCheckModel.Linearizable staleRead) ∧
      (∀ i s, longest i = some s → i ∈ s ∧ Begins kvCheckModel staleRead s) ∧
      (b = true → ∀ i < staleRead.length, ∃ s, longest i = some s ∧ s.length = staleRead.length) :=
  checkSingle_spec kvCheckModel_lawful (makeEntries_makes staleRead) (by decide) true

end DistLab
