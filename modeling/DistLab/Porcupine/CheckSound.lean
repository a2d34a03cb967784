import DistLab.Porcupine.Histories
import DistLab.Porcupine.Linked

/-!
# The checker is right

`checkSingle` is the search over the tree of choices, turn by turn: the linked
list is the list of the remaining entries, `calls` is the way to the current
configuration, and the buckets of the cache hold the configurations entered so
far. So the checker never follows a nil pointer, it ends, and it says whether the
history is linearizable.
-/

namespace DistLab

section
variable {St In Out : Type} {M : CheckModel St In Out} {ops : List (Operation In Out)} {entries : List (Entry In Out)}
  {callAt retAt : Nat → Nat}

/-! ## The cursor and the stack -/

/-- The list has the remaining entries, and the cursor has passed calls only. -/
structure Cursor (ops : List (Operation In Out)) (entries : List (Entry In Out)) (L : Links Nat) (c : Bitset × St)
    (entry : Option Nat) (todo : List Nat) : Prop where
  seg : L.Seg entries.length (remaining entries c.1) none
  size : ∀ i < ops.length, i / 64 < c.1.length
  place : ∃ before after, remaining entries c.1 = before ++ after ∧ entry = after.head? ∧
    todo = after.takeWhile (isCallAt entries) ∧ ∀ b ∈ before, isCallAt entries b = true

inductive CheckStands (M : CheckModel St In Out) (ops : List (Operation In Out)) (entries : List (Entry In Out))
    (callAt retAt : Nat → Nat) :
    List (Nat × St) → Links Nat → Bitset × St → Option Nat → List ((Bitset × St) × List Nat) → Prop
  | bottom {L : Links Nat} {entry : Option Nat} {todo : List Nat} :
      Cursor ops entries L (Bitset.newBitset ops.length, M.init) entry todo →
      CheckStands M ops entries callAt retAt [] L (Bitset.newBitset ops.length, M.init) entry
        [((Bitset.newBitset ops.length, M.init), todo)]
  | push {calls : List (Nat × St)} {L L₀ : Links Nat} {c c₀ : Bitset × St} {entry : Option Nat} {todo : List Nat}
      {stack : List ((Bitset × St) × List Nat)} {i : Nat} :
      Cursor ops entries L c entry todo → i < ops.length → callAt i ∈ (checkTree entries M ops).moves c₀ →
      (checkTree entries M ops).follow c₀ (callAt i) = some c → unlift L (callAt i) (retAt i) = some L₀ →
      CheckStands M ops entries callAt retAt calls L₀ c₀ (L₀.next (callAt i)) stack →
      CheckStands M ops entries callAt retAt ((callAt i, c₀.2) :: calls) L c entry ((c, todo) :: stack)

structure Simulates (M : CheckModel St In Out) (ops : List (Operation In Out)) (entries : List (Entry In Out))
    (callAt retAt : Nat → Nat) (k : Checker St In Out) (σ : Search (Bitset × St) Nat) : Prop where
  node : k.node = (makeLinkedEntries entries).node
  headEntry : k.headEntry = entries.length
  n : k.n = ops.length
  stands : CheckStands M ops entries callAt retAt k.calls k.links (k.linearized, k.state) k.entry σ.stack
  cache : ∀ hash, k.cache hash = σ.seen.reverse.filter fun d => d.1.hash = hash

variable {L : Links Nat} {c : Bitset × St} {entry : Option Nat} {todo : List Nat} {calls : List (Nat × St)}
  {stack : List ((Bitset × St) × List Nat)}

theorem CheckStands.top (h : CheckStands M ops entries callAt retAt calls L c entry stack) :
    ∃ todo below, stack = (c, todo) :: below ∧ Cursor ops entries L c entry todo := by
  cases h with
  | bottom hc => exact ⟨_, _, rfl, hc⟩
  | push hc => exact ⟨_, _, rfl, hc⟩

theorem CheckStands.below_nil {x : (Bitset × St) × List Nat}
    (h : CheckStands M ops entries callAt retAt [] L c entry (x :: stack)) : stack = [] := by
  cases h
  rfl

theorem CheckStands.move (h : CheckStands M ops entries callAt retAt calls L c entry ((c, todo) :: stack)) {entry' : Option Nat}
    {todo' : List Nat} (hc : Cursor ops entries L c entry' todo') :
    CheckStands M ops entries callAt retAt calls L c entry' ((c, todo') :: stack) := by
  cases h with
  | bottom _ => exact .bottom hc
  | push _ hi hm hf hu hs => exact .push hc hi hm hf hu hs

theorem Cursor.subset_moves (hc : Cursor ops entries L c entry todo) : todo ⊆ (checkTree entries M ops).moves c := by
  obtain ⟨-, -, before, after, hrem, -, rfl, hbefore⟩ := hc
  intro a ha
  show a ∈ (remaining entries c.1).takeWhile (isCallAt entries)
  rw [hrem, List.takeWhile_append_of_pos hbefore]
  exact List.mem_append_right _ ha

theorem Cursor.skip {a : Nat} (hc : Cursor ops entries L c (some a) (a :: todo)) :
    Cursor ops entries L c (L.next a) todo := by
  obtain ⟨hseg, hsize, before, after, hrem, hentry, htodo, hbefore⟩ := hc
  cases after with
  | nil => cases hentry
  | cons b after =>
    cases hentry
    rw [List.takeWhile_cons] at htodo
    split at htodo
    · rename_i hcall
      obtain ⟨-, rfl⟩ := List.cons.inj htodo
      rw [hrem] at hseg
      refine ⟨by rw [hrem]; exact hseg, hsize, before ++ [a], after, by rw [hrem]; simp, hseg.next_eq, rfl, ?_⟩
      intro b hb
      rcases List.mem_append.mp hb with hb | hb
      · exact hbefore b hb
      · rw [List.mem_singleton.mp hb]; exact hcall
    · cases htodo

section
variable (h : Paired ops entries callAt retAt)
include h

omit h in
theorem nodup_head (entries : List (Entry In Out)) (lin : Bitset) : (entries.length :: remaining entries lin).Nodup := by
  refine List.nodup_cons.mpr ⟨fun hm => ?_, (remaining_sorted lin).imp Nat.ne_of_lt⟩
  exact Nat.lt_irrefl _ (mem_remaining.mp hm).1

theorem Cursor.entry_some (hc : Cursor ops entries L c entry todo) (hne : remaining entries c.1 ≠ []) :
    ∃ a after, entry = some a ∧ a ∈ remaining entries c.1 ∧ todo = (a :: after).takeWhile (isCallAt entries) := by
  obtain ⟨hseg, hsize, before, after, hrem, hentry, htodo, hbefore⟩ := hc
  cases after with
  | cons a after =>
    exact ⟨a, after, hentry, by rw [hrem]; exact List.mem_append_right _ List.mem_cons_self, htodo⟩
  | nil =>
    -- with a call its return is left, which the cursor does not pass
    rw [List.append_nil] at hrem
    obtain ⟨a, ha⟩ := List.exists_mem_of_ne_nil _ hne
    obtain ⟨hlt, hleft⟩ := mem_remaining.mp ha
    obtain ⟨hid, -⟩ := h.cases hlt
    obtain ⟨hr, hrid, hrc⟩ := h.retAt_spec hid
    have hmem : retAt (idAt entries a) ∈ remaining entries c.1 := mem_remaining.mpr ⟨hr, by rw [hrid]; exact hleft⟩
    rw [hrem] at hmem
    have := hbefore _ hmem
    rw [hrc] at this
    cases this

theorem remaining_set {lin lin' : Bitset} {i : Nat} (hi : i < ops.length) (hleft : lin.has i = false)
    (hset : lin.set i = some lin') : ∃ l₁ l₂ l₃, remaining entries lin = l₁ ++ callAt i :: (l₂ ++ retAt i :: l₃) ∧
      remaining entries lin' = l₁ ++ (l₂ ++ l₃) := by
  obtain ⟨hcl, hcid, -⟩ := h.callAt_spec hi
  obtain ⟨hrl, hrid, -⟩ := h.retAt_spec hi
  have hlt := h.lt i hi
  obtain ⟨l₁, l', hsplit⟩ := List.append_of_mem (mem_remaining.mpr ⟨hcl, by rw [hcid]; exact hleft⟩ :
    callAt i ∈ remaining entries lin)
  have hsorted : (remaining entries lin).Pairwise (· < ·) := remaining_sorted lin
  rw [hsplit] at hsorted
  obtain ⟨-, hs2, hs3⟩ := List.pairwise_append.mp hsorted
  have hret : retAt i ∈ l' := by
    have hm : retAt i ∈ remaining entries lin := mem_remaining.mpr ⟨hrl, by rw [hrid]; exact hleft⟩
    rw [hsplit] at hm
    rcases List.mem_append.mp hm with hm | hm
    · have := hs3 _ hm _ List.mem_cons_self
      omega
    · rcases List.mem_cons.mp hm with hm | hm
      · omega
      · exact hm
  obtain ⟨l₂, l₃, rfl⟩ := List.append_of_mem hret
  refine ⟨l₁, l₂, l₃, hsplit, ?_⟩
  have hnd := (List.nodup_cons.mp (nodup_head entries lin)).2
  have hrem : remaining entries lin' = ((remaining entries lin).erase (callAt i)).erase (retAt i) := by
    rw [hnd.erase_eq_filter, (hnd.filter _).erase_eq_filter, remaining, remaining, List.filter_filter,
      List.filter_filter]
    refine List.filter_congr fun a ha => ?_
    have hid : a ≠ callAt i ∧ a ≠ retAt i ↔ idAt entries a ≠ i := by
      constructor
      · rintro ⟨hac, har⟩ rfl
        obtain ⟨-, ⟨-, hat⟩ | ⟨-, hat⟩⟩ := h.cases (List.mem_range.mp ha)
        · exact hac hat
        · exact har hat
      · intro hne
        exact ⟨fun he => hne (by rw [he, hcid]), fun he => hne (by rw [he, hrid])⟩
    rw [Bitset.has_set hset, Bool.eq_iff_iff]
    simp only [Bool.not_or, Bool.and_eq_true, Bool.not_eq_true', decide_eq_false_iff_not, bne_iff_ne, ne_eq] at hid ⊢
    tauto
  rw [hsplit] at hnd
  obtain ⟨-, hnd2, hnd3⟩ := List.nodup_append.mp hnd
  obtain ⟨-, -, hnd5⟩ := List.nodup_append.mp (List.nodup_cons.mp hnd2).2
  have hc₁ : callAt i ∉ l₁ := fun hm => hnd3 _ hm _ List.mem_cons_self rfl
  have hr₁ : retAt i ∉ l₁ := fun hm =>
    hnd3 _ hm _ (List.mem_cons_of_mem _ (List.mem_append_right _ List.mem_cons_self)) rfl
  have hr₂ : retAt i ∉ l₂ := fun hm => hnd5 _ hm _ List.mem_cons_self rfl
  rw [hrem, hsplit, List.erase_append_right _ hc₁, List.erase_cons_head, List.erase_append_right _ hr₁,
    List.erase_append_right _ hr₂, List.erase_cons_head]

/-! ## One turn of the loop -/

/-- The moves of the tree are the turns at a call. -/
theorem follow_of_call {a i : Nat} (hi : i < ops.length) (ha : a = callAt i) (c : Bitset × St) {op : Operation In Out}
    (hop : ops[i]? = some op) : (checkTree entries M ops).follow c a =
      if (M.step c.2 op.input op.output).1 then
        (c.1.set i).map fun lin => (lin, (M.step c.2 op.input op.output).2) else none := by
  simp only [checkTree, ha, (h.callAt_spec hi).2.1, hop]

omit h in
theorem Cursor.start {L : Links Nat} {c : Bitset × St} (hseg : L.Seg entries.length (remaining entries c.1) none)
    (hsize : ∀ i < ops.length, i / 64 < c.1.length) :
    Cursor ops entries L c (L.next entries.length) ((checkTree entries M ops).moves c) := by
  refine ⟨hseg, hsize, [], remaining entries c.1, rfl, ?_, rfl, fun b hb => by cases hb⟩
  cases hrem : remaining entries c.1 with
  | nil => rw [hrem] at hseg; exact hseg
  | cons a l => rw [hrem] at hseg; exact hseg.1

/-- Lifting an operation is a move of the tree. -/
theorem CheckStands.lift {c d : Bitset × St} {i : Nat} (hs : CheckStands M ops entries callAt retAt calls L c (some (callAt i))
    ((c, callAt i :: todo) :: stack)) (hi : i < ops.length)
    (hm : callAt i ∈ (checkTree entries M ops).moves c) (hd : (checkTree entries M ops).follow c (callAt i) = some d) :
    ∃ L', DistLab.lift L (callAt i) (retAt i) = some L' ∧
      CheckStands M ops entries callAt retAt ((callAt i, c.2) :: calls) L' d (L'.next entries.length)
        ((d, (checkTree entries M ops).moves d) :: (c, todo) :: stack) := by
  obtain ⟨todo', below, heq, hc⟩ := hs.top
  cases heq
  obtain ⟨j, hj, hjl, hleft, -⟩ := (mem_moves h).mp hm
  obtain rfl : i = j := by
    have hid := (h.callAt_spec hi).2.1
    rw [hj, (h.callAt_spec hjl).2.1] at hid
    exact hid.symm
  obtain ⟨op, hop, hok, hset, hst⟩ := (follow_callAt h hi).mp hd
  obtain ⟨l₁, l₂, l₃, hrem, hrem'⟩ := remaining_set h hi hleft hset
  have hseg := hc.seg
  have hnd := nodup_head entries c.1
  rw [hrem] at hseg hnd
  obtain ⟨L', hlift, hseg', hunlift⟩ := hseg.lift hnd
  refine ⟨L', hlift, .push (Cursor.start (by rw [hrem']; exact hseg') ?_) hi hm hd hunlift ?_⟩
  · exact fun j hj => by rw [Bitset.length_set hset]; exact hc.size j hj
  · exact hs.move hc.skip

omit h in
theorem cacheContains_iff {k : Checker St In Out} {σ : Search (Bitset × St) Nat}
    (hs : Simulates M ops entries callAt retAt k σ) (d : Bitset × St) :
    cacheContains M k.cache d = σ.seen.any (checkSame M d) := by
  rw [cacheContains, hs.cache, Bool.eq_iff_iff]
  simp only [List.any_eq_true, List.mem_filter, List.mem_reverse, checkSame, decide_eq_true_eq, Bool.and_eq_true,
    Bitset.equals_iff]
  constructor
  · rintro ⟨e, ⟨he, -⟩, h1, h2⟩
    exact ⟨e, he, h1, h2⟩
  · rintro ⟨e, he, h1, h2⟩
    exact ⟨e, ⟨he, by rw [h1]⟩, h1, h2⟩

theorem Simulates.tryCall {k : Checker St In Out} {σ : Search (Bitset × St) Nat}
    (hs : Simulates M ops entries callAt retAt k σ) {i : Nat} (hi : i < ops.length) {todo : List Nat}
    {below : List ((Bitset × St) × List Nat)} (hentry : k.entry = some (callAt i))
    (hstack : σ.stack = ((k.linearized, k.state), callAt i :: todo) :: below)
    (hgoal : (checkTree entries M ops).goal (k.linearized, k.state) = false) :
    ∃ k' σ', k.tryCall M (callAt i) (retAt i) = some k' ∧ σ.step (checkTree entries M ops) (checkSame M) = .inl σ' ∧
      Simulates M ops entries callAt retAt k' σ' := by
  obtain ⟨op, hop⟩ := exists_op hi
  have hstands := hs.stands
  rw [hstack, hentry] at hstands
  obtain ⟨todo', below', heq, hc⟩ := hstands.top
  cases heq
  have hmoves : callAt i ∈ (checkTree entries M ops).moves (k.linearized, k.state) := hc.subset_moves List.mem_cons_self
  have hfollow := follow_of_call h hi rfl (M := M) (k.linearized, k.state) hop
  obtain ⟨lin', hset⟩ : ∃ lin', k.linearized.set i = some lin' := ⟨_, Bitset.set_of_lt (hc.size i hi)⟩
  -- the cursor moves on
  have skip : Simulates M ops entries callAt retAt { k with entry := k.links.next (callAt i) }
      { σ with stack := ((k.linearized, k.state), todo) :: below } :=
    ⟨hs.node, hs.headEntry, hs.n, hstands.move hc.skip, hs.cache⟩
  have hcall := h.node_call hop
  have hret := h.node_ret hop
  rw [← hs.node] at hcall hret
  simp only [Checker.tryCall, hcall, hret, Int.toNat_natCast]
  simp only [Search.step, hstack, hgoal, Bool.false_eq_true, if_false]
  cases hok : (M.step k.state op.input op.output).1 with
  | false =>
    simp only [hok, Bool.false_eq_true, if_false] at hfollow ⊢
    rw [hfollow]
    exact ⟨_, _, rfl, rfl, skip⟩
  | true =>
    simp only [hok, if_true, hset, Option.map_some, Option.bind_eq_bind, Option.bind_some] at hfollow ⊢
    rw [hfollow, cacheContains_iff hs]
    cases hseen : σ.seen.any (checkSame M (lin', (M.step k.state op.input op.output).2)) with
    | true =>
      simp only [hseen, if_true]
      exact ⟨_, _, rfl, rfl, skip⟩
    | false =>
      simp only [hseen, Bool.false_eq_true, if_false]
      obtain ⟨L', hlift, hstands'⟩ := hstands.lift h hi hmoves hfollow
      rw [hlift]
      refine ⟨_, _, rfl, rfl, hs.node, hs.headEntry, hs.n, ?_, fun hash => ?_⟩
      · rw [hs.headEntry]
        exact hstands'
      · show Function.update k.cache lin'.hash _ hash = _
        rw [List.reverse_cons, List.filter_append, ← hs.cache hash]
        by_cases hh : hash = lin'.hash
        · subst hh
          rw [Function.update_self]
          simp
        · rw [Function.update_of_ne hh]
          simp [Ne.symm hh]

theorem Simulates.backtrack {k : Checker St In Out} {σ : Search (Bitset × St) Nat}
    (hs : Simulates M ops entries callAt retAt k σ) {top : Nat} {state : St} {calls : List (Nat × St)}
    (hcalls : k.calls = (top, state) :: calls) {below : List ((Bitset × St) × List Nat)}
    (hstack : σ.stack = ((k.linearized, k.state), []) :: below)
    (hgoal : (checkTree entries M ops).goal (k.linearized, k.state) = false) (computePartial : Bool) :
    ∃ k' σ', k.backtrack computePartial top state calls = some k' ∧
      σ.step (checkTree entries M ops) (checkSame M) = .inl σ' ∧ Simulates M ops entries callAt retAt k' σ' := by
  have hstands := hs.stands
  rw [hstack, hcalls] at hstands
  generalize hc : (k.linearized, k.state) = c at hstands
  cases hstands with
  | @push _ _ L₀ _ c₀ _ _ stack i hcur hi hm hf hu hst =>
    obtain ⟨op, hop⟩ := exists_op hi
    obtain ⟨-, -, -, hset, -⟩ := (follow_callAt h hi).mp hf
    obtain ⟨j, hj, hjl, hleft, -⟩ := (mem_moves h).mp hm
    obtain rfl : i = j := by
      have hid := (h.callAt_spec hi).2.1
      rw [hj, (h.callAt_spec hjl).2.1] at hid
      exact hid.symm
    rw [← hc] at hset
    have hclear : k.linearized.clear i = some c₀.1 := Bitset.clear_set hset hleft
    have hcall := h.node_call hop
    rw [← hs.node] at hcall
    simp only [Checker.backtrack, hcall, Int.toNat_natCast, hclear, hu, Option.bind_eq_bind, Option.bind_some]
    refine ⟨_, { σ with stack := below }, rfl, ?_, hs.node, hs.headEntry, hs.n, hst, hs.cache⟩
    obtain ⟨todo, rest, rfl, -⟩ := hst.top
    simp only [Search.step, hstack, hgoal, Bool.false_eq_true, if_false]

theorem Simulates.next {k : Checker St In Out} {σ : Search (Bitset × St) Nat}
    (hs : Simulates M ops entries callAt retAt k σ) (computePartial : Bool) :
    (∃ k' σ', k.next M computePartial false = some (.inl k') ∧ σ.step (checkTree entries M ops) (checkSame M) = .inl σ' ∧
      Simulates M ops entries callAt retAt k' σ') ∨
    ∃ b longest, k.next M computePartial false = some (.inr (b, longest)) ∧
      σ.step (checkTree entries M ops) (checkSame M) = .inr b := by
  obtain ⟨todo, below, hstack, hc⟩ := hs.stands.top
  have hseg := hc.seg
  rw [← hs.headEntry] at hseg
  cases hgoal : (checkTree entries M ops).goal (k.linearized, k.state) with
  | true =>
    have hnil : remaining entries k.linearized = [] := List.isEmpty_iff.mp hgoal
    rw [hnil] at hseg
    refine Or.inr ⟨true, _, by rw [Checker.next, show k.links.next k.headEntry = none from hseg], ?_⟩
    simp only [Search.step, hstack, hgoal, if_true]
  | false =>
    have hne : remaining entries k.linearized ≠ [] := fun hnil => by
      rw [show (checkTree entries M ops).goal (k.linearized, k.state) = (remaining entries k.linearized).isEmpty from rfl,
        hnil] at hgoal
      cases hgoal
    obtain ⟨first, hfirst⟩ : ∃ first, k.links.next k.headEntry = some first := by
      cases hrem : remaining entries k.linearized with
      | nil => exact absurd hrem hne
      | cons a l => rw [hrem] at hseg; exact ⟨a, hseg.1⟩
    obtain ⟨a, after, hentry, ha, htodo⟩ := hc.entry_some h hne
    obtain ⟨hid, ⟨hcall, hat⟩ | ⟨hret, hat⟩⟩ := h.cases (mem_remaining.mp ha).1
    · left
      obtain ⟨op, hop⟩ := exists_op hid
      rw [List.takeWhile_cons_of_pos hcall] at htodo
      rw [hat] at hentry
      rw [htodo, hat] at hstack
      obtain ⟨k', σ', hk, hσ, hs'⟩ := hs.tryCall h hid hentry hstack hgoal
      refine ⟨k', σ', ?_, hσ, hs'⟩
      have hnode := h.node_call hop
      rw [← hs.node] at hnode
      simp only [Checker.next, hfirst, hentry, hnode, hk, Bool.false_eq_true, if_false, Option.map_some]
    · rw [List.takeWhile_cons_of_neg (by rw [hret]; exact Bool.false_ne_true)] at htodo
      rw [htodo] at hstack
      obtain ⟨op, hop⟩ := exists_op hid
      have hnode := h.node_ret hop
      rw [← hs.node, ← hat] at hnode
      cases hcalls : k.calls with
      | nil =>
        have hstands := hs.stands
        rw [hstack, hcalls] at hstands
        rw [hstands.below_nil] at hstack
        refine Or.inr ⟨false, k.longest, ?_, ?_⟩
        · simp only [Checker.next, hfirst, hentry, hnode, hcalls, Bool.false_eq_true, if_false]
        · simp only [Search.step, hstack, hgoal, Bool.false_eq_true, if_false]
      | cons v calls =>
        left
        obtain ⟨top, state⟩ := v
        obtain ⟨k', σ', hk, hσ, hs'⟩ := hs.backtrack h hcalls hstack hgoal computePartial
        refine ⟨k', σ', ?_, hσ, hs'⟩
        simp only [Checker.next, hfirst, hentry, hnode, hcalls, hk, Bool.false_eq_true, if_false, Option.map_some]

theorem Simulates.run {k : Checker St In Out} {σ : Search (Bitset × St) Nat}
    (hs : Simulates M ops entries callAt retAt k σ) (computePartial : Bool) {n : Nat} {b : Bool}
    (hrun : σ.run (checkTree entries M ops) (checkSame M) n = .inr b) :
    ∃ longest, k.run M computePartial n = some (.inr (b, longest)) := by
  induction n generalizing k σ with
  | zero => cases hrun
  | succ n ih =>
    rcases hs.next h computePartial with ⟨k', σ', hk, hσ, hs'⟩ | ⟨b', longest, hk, hσ⟩
    · simp only [Search.run, hσ] at hrun
      obtain ⟨longest, hl⟩ := ih hs' hrun
      exact ⟨longest, by simp only [Checker.run, hk, hl]⟩
    · simp only [Search.run, hσ] at hrun
      cases hrun
      exact ⟨longest, by simp only [Checker.run, hk]⟩

/-! ## The whole search -/

omit h in
theorem remaining_newBitset (n : Nat) : remaining entries (Bitset.newBitset n) = List.range entries.length := by
  refine List.filter_eq_self.mpr fun a _ => ?_
  rw [Bitset.has_newBitset]
  rfl

omit h in
theorem Simulates.start (hlen : entries.length = 2 * ops.length) :
    Simulates M ops entries callAt retAt (Checker.start M entries)
      ⟨[((Bitset.newBitset ops.length, M.init),
        (checkTree entries M ops).moves (Bitset.newBitset ops.length, M.init))], []⟩ := by
  obtain ⟨hseg, hroot, hlength⟩ := makeLinkedEntries_links entries
  have hn : (makeLinkedEntries entries).links.length entries.length (makeLinkedEntries entries).root / 2 = ops.length := by
    rw [hlength, hlen]
    omega
  refine ⟨rfl, rfl, hn, ?_, fun _ => rfl⟩
  rw [← remaining_newBitset ops.length] at hseg hroot
  simp only [Checker.start, hn]
  refine .bottom ⟨hseg, fun i hi => Bitset.lt_length_newBitset hi, [], _, rfl, hroot, rfl, fun b hb => by cases hb⟩

theorem checkRank_lt (c d : Bitset × St) (a : Nat) (ha : a ∈ (checkTree entries M ops).moves c)
    (hd : (checkTree entries M ops).follow c a = some d) :
    (remaining entries d.1).length < (remaining entries c.1).length := by
  obtain ⟨i, rfl, hi, hleft, -⟩ := (mem_moves h).mp ha
  obtain ⟨-, -, -, hset, -⟩ := (follow_callAt h hi).mp hd
  obtain ⟨l₁, l₂, l₃, hrem, hrem'⟩ := remaining_set h hi hleft hset
  rw [hrem, hrem']
  simp only [List.length_append, List.length_cons]
  omega

/-- Configurations that the cache takes for the same have the same future. -/
theorem wins_of_same (hM : M.Lawful) {c : Bitset × St} (hw : (checkTree entries M ops).Wins c) {s : St}
    (hs : M.equal c.2 s = true) : (checkTree entries M ops).Wins (c.1, s) := by
  induction hw generalizing s with
  | goal hg => exact .goal hg
  | @move c d a ha hd _ ih =>
    obtain ⟨i, rfl, hi, -⟩ := (mem_moves h).mp ha
    obtain ⟨op, hop, hok, hset, hst⟩ := (follow_callAt h hi).mp hd
    obtain ⟨hstep, hnext⟩ := hM _ _ hs op.input op.output
    rw [← hst] at hnext
    have hfollow : (checkTree entries M ops).follow (c.1, s) (callAt i) =
        some (d.1, (M.step s op.input op.output).2) :=
      (follow_callAt h hi).mpr ⟨op, hop, by rw [← hstep]; exact hok, hset, rfl⟩
    exact .move ha hfollow (ih hnext)

theorem search_decides (hM : M.Lawful) : ∃ n b, Search.run (checkTree entries M ops) (checkSame M) n
    ⟨[((Bitset.newBitset ops.length, M.init),
      (checkTree entries M ops).moves (Bitset.newBitset ops.length, M.init))], []⟩ = .inr b ∧
    (b = true ↔ ∃ l, Completes M ops callAt retAt (Bitset.newBitset ops.length) M.init l) := by
  have hsame : ∀ d e : Bitset × St, checkSame M d e = true →
      (remaining entries d.1).length = (remaining entries e.1).length ∧
        ((checkTree entries M ops).Wins d → (checkTree entries M ops).Wins e) := by
    rintro ⟨lin, s⟩ ⟨lin', t⟩ hde
    obtain ⟨hlin, hst⟩ := Bool.and_eq_true_iff.mp hde
    obtain rfl : lin = lin' := Bitset.equals_iff.mp hlin
    exact ⟨rfl, fun hw => wins_of_same h hM hw hst⟩
  obtain ⟨n, b, hn, hb⟩ := Search.decides (checkRank_lt h) hsame (Bitset.newBitset ops.length, M.init)
  exact ⟨n, b, hn, hb.trans (wins_iff_completes h fun i hi => Bitset.lt_length_newBitset hi)⟩

end

theorem Checker.run_mono {k : Checker St In Out} {computePartial : Bool} {n : Nat} {res : Bool × Longest}
    (h : k.run M computePartial n = some (.inr res)) {m : Nat} (hm : n ≤ m) :
    k.run M computePartial m = some (.inr res) := by
  induction n generalizing k m with
  | zero => cases h
  | succ n ih =>
    obtain ⟨m, rfl⟩ := Nat.exists_eq_add_one_of_ne_zero (Nat.ne_of_gt (Nat.lt_of_lt_of_le (Nat.succ_pos n) hm))
    unfold run at h ⊢
    split at h
    · exact ih h (Nat.le_of_succ_le_succ hm)
    · exact h

/-- `checkSingle` ends without a panic, and says whether the history is
linearizable. -/
theorem checkSingle_decides (hM : M.Lawful) {history : List (Operation In Out)} (hmake : MakesEntries history entries)
    (hcr : ∀ op ∈ history, op.call ≤ op.ret) (computePartial : Bool) :
    ∃ fuel b longest, (∀ n, fuel ≤ n → checkSingle M entries computePartial n = some (.inr (b, longest))) ∧
      (b = true ↔ M.Linearizable history) := by
  obtain ⟨callAt, retAt, hpair, hord⟩ := hmake.paired hcr
  obtain ⟨fuel, b, hrun, hb⟩ := search_decides hpair hM
  obtain ⟨longest, hl⟩ := (Simulates.start hmake.length).run hpair computePartial hrun
  exact ⟨fuel, b, longest, fun n hn => Checker.run_mono hl hn, hb.trans (linearizable_iff hord _).symm⟩

end

end DistLab
