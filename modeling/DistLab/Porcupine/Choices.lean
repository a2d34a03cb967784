import DistLab.Lib.Search
import DistLab.Porcupine.Checker
import Mathlib.Data.List.TakeWhile

/-!
# What the checker searches

The checker walks a tree: in a configuration some operations are in the order and
the model is in some state, and the calls in front of the first return that is
left are the operations that can come next. A goal of this tree is an order of
all operations, and every order that respects real time is a way to a goal.
-/

namespace DistLab

/-! ## Entries come in pairs -/

section
variable {St In Out : Type}

structure Paired (ops : List (Operation In Out)) (entries : List (Entry In Out)) (callAt retAt : Nat → Nat) : Prop where
  call : ∀ i op, ops[i]? = some op → entries[callAt i]? = some ⟨.call op.input, i, op.call⟩
  ret : ∀ i op, ops[i]? = some op → entries[retAt i]? = some ⟨.ret op.output, i, op.ret⟩
  lt : ∀ i < ops.length, callAt i < retAt i
  all : ∀ (a : Nat) e, entries[a]? = some e → e.id < ops.length ∧ (a = callAt e.id ∨ a = retAt e.id)

def idAt (entries : List (Entry In Out)) (a : Nat) : Nat := (entries[a]?).elim 0 Entry.id

def isCallAt (entries : List (Entry In Out)) (a : Nat) : Bool := (entries[a]?).elim false Entry.isCall

theorem exists_op {ops : List (Operation In Out)} {i : Nat} (hi : i < ops.length) : ∃ op, ops[i]? = some op :=
  ⟨_, List.getElem?_eq_getElem hi⟩

namespace Paired

variable {ops : List (Operation In Out)} {entries : List (Entry In Out)} {callAt retAt : Nat → Nat}
  (h : Paired ops entries callAt retAt)
include h

theorem callAt_spec {i : Nat} (hi : i < ops.length) :
    callAt i < entries.length ∧ idAt entries (callAt i) = i ∧ isCallAt entries (callAt i) = true := by
  obtain ⟨op, hop⟩ := exists_op hi
  have hc := h.call i op hop
  exact ⟨(List.getElem?_eq_some_iff.mp hc).1, by rw [idAt, hc]; rfl, by rw [isCallAt, hc]; rfl⟩

theorem retAt_spec {i : Nat} (hi : i < ops.length) :
    retAt i < entries.length ∧ idAt entries (retAt i) = i ∧ isCallAt entries (retAt i) = false := by
  obtain ⟨op, hop⟩ := exists_op hi
  have hr := h.ret i op hop
  exact ⟨(List.getElem?_eq_some_iff.mp hr).1, by rw [idAt, hr]; rfl, by rw [isCallAt, hr]; rfl⟩

theorem cases {a : Nat} (ha : a < entries.length) : idAt entries a < ops.length ∧
    (isCallAt entries a = true ∧ a = callAt (idAt entries a) ∨ isCallAt entries a = false ∧ a = retAt (idAt entries a)) := by
  have he := List.getElem?_eq_getElem ha
  obtain ⟨hlt, hat⟩ := h.all a _ he
  have hid : idAt entries a = (entries[a]).id := by rw [idAt, he]; rfl
  rw [hid]
  refine ⟨hlt, hat.imp (fun hat => ⟨?_, hat⟩) fun hat => ⟨?_, hat⟩⟩
  · rw [hat]; exact (h.callAt_spec hlt).2.2
  · rw [hat]; exact (h.retAt_spec hlt).2.2

end Paired

/-! ## The tree -/

variable (entries : List (Entry In Out))

def remaining (linearized : Bitset) : List Nat :=
  (List.range entries.length).filter fun a => !linearized.has (idAt entries a)

def checkTree (M : CheckModel St In Out) (ops : List (Operation In Out)) : Tree (Bitset × St) Nat where
  moves c := (remaining entries c.1).takeWhile (isCallAt entries)
  follow c a :=
    match ops[idAt entries a]? with
    | some op =>
      if (M.step c.2 op.input op.output).1 then
        (c.1.set (idAt entries a)).map fun linearized => (linearized, (M.step c.2 op.input op.output).2)
      else none
    | none => none
  goal c := (remaining entries c.1).isEmpty

def checkSame (M : CheckModel St In Out) (c d : Bitset × St) : Bool := c.1.equals d.1 && M.equal c.2 d.2

variable {entries} {ops : List (Operation In Out)} {callAt retAt : Nat → Nat} {M : CheckModel St In Out}

theorem mem_remaining {linearized : Bitset} {a : Nat} :
    a ∈ remaining entries linearized ↔ a < entries.length ∧ linearized.has (idAt entries a) = false := by
  simp [remaining]

theorem remaining_sorted (linearized : Bitset) : (remaining entries linearized).Pairwise (· < ·) :=
  List.pairwise_lt_range.filter _

/-- In a sorted list, an element is in front of the first one without `p` if no
smaller one lacks it. -/
theorem mem_takeWhile_sorted {p : Nat → Bool} {l : List Nat} (h : l.Pairwise (· < ·)) {a : Nat} :
    a ∈ l.takeWhile p ↔ a ∈ l ∧ p a = true ∧ ∀ b ∈ l, b < a → p b = true := by
  induction l with
  | nil => simp
  | cons c l ih =>
    obtain ⟨hc, hl⟩ := List.pairwise_cons.mp h
    rw [List.takeWhile_cons]
    cases hp : p c with
    | false =>
      simp only [Bool.false_eq_true, if_false, List.not_mem_nil, false_iff, not_and]
      rintro ha hpa hall
      rcases List.mem_cons.mp ha with rfl | ha
      · rw [hp] at hpa; cases hpa
      · have := hall c List.mem_cons_self (hc a ha)
        rw [hp] at this; cases this
    | true =>
      simp only [if_true, List.mem_cons, ih hl]
      constructor
      · rintro (rfl | ⟨ha, hpa, hall⟩)
        · refine ⟨Or.inl rfl, hp, fun b hb hlt => ?_⟩
          rcases hb with rfl | hb
          · exact hp
          · have := hc b hb
            omega
        · exact ⟨Or.inr ha, hpa, fun b hb hlt => hb.elim (fun hb => hb ▸ hp) fun hb => hall b hb hlt⟩
      · rintro ⟨ha, hpa, hall⟩
        exact ha.imp_right fun ha => ⟨ha, hpa, fun b hb => hall b (Or.inr hb)⟩

/-! ## Orders -/

/-- The order `l` puts the operations that are left behind those that are in. -/
structure Completes (M : CheckModel St In Out) (ops : List (Operation In Out)) (callAt retAt : Nat → Nat)
    (linearized : Bitset) (s : St) (l : List Nat) : Prop where
  nodup : l.Nodup
  mem : ∀ i, i ∈ l ↔ i < ops.length ∧ linearized.has i = false
  accepts : M.Accepts s (l.filterMap fun i => ops[i]?)
  realtime : l.Pairwise fun i j => callAt i < retAt j

section
variable (h : Paired ops entries callAt retAt)
include h

/-- An operation can come next if it was called before any of those left returned. -/
theorem mem_moves {c : Bitset × St} {a : Nat} : a ∈ (checkTree entries M ops).moves c ↔
    ∃ i, a = callAt i ∧ i < ops.length ∧ c.1.has i = false ∧
      ∀ j < ops.length, c.1.has j = false → callAt i < retAt j := by
  simp only [checkTree, mem_takeWhile_sorted (remaining_sorted c.1), mem_remaining]
  constructor
  · rintro ⟨⟨ha, hleft⟩, hcall, hall⟩
    obtain ⟨hid, ⟨-, hat⟩ | ⟨hret, -⟩⟩ := h.cases ha
    · refine ⟨_, hat, hid, hleft, fun j hj hjl => ?_⟩
      obtain ⟨hlen, hjid, hjr⟩ := h.retAt_spec hj
      by_contra hge
      have hlt : retAt j < a := by
        rcases Nat.lt_or_ge (retAt j) a with hlt | hge'
        · exact hlt
        · have heq : a = retAt j := by omega
          rw [heq, hjr] at hcall
          cases hcall
      have := hall (retAt j) ⟨hlen, by rw [hjid]; exact hjl⟩ hlt
      rw [hjr] at this
      cases this
    · rw [hret] at hcall
      cases hcall
  · rintro ⟨i, rfl, hi, hleft, hall⟩
    obtain ⟨hlen, hid, hcall⟩ := h.callAt_spec hi
    refine ⟨⟨hlen, by rw [hid]; exact hleft⟩, hcall, fun b ⟨hb, hbl⟩ hlt => ?_⟩
    obtain ⟨hbid, ⟨hc, -⟩ | ⟨-, hat⟩⟩ := h.cases hb
    · exact hc
    · have := hall _ hbid hbl
      rw [← hat] at this
      omega

theorem follow_callAt {c d : Bitset × St} {i : Nat} (hi : i < ops.length) :
    (checkTree entries M ops).follow c (callAt i) = some d ↔ ∃ op, ops[i]? = some op ∧
      (M.step c.2 op.input op.output).1 = true ∧ c.1.set i = some d.1 ∧ d.2 = (M.step c.2 op.input op.output).2 := by
  obtain ⟨op, hop⟩ := exists_op hi
  simp only [checkTree, (h.callAt_spec hi).2.1, hop]
  constructor
  · intro hd
    split at hd
    · rename_i hok
      obtain ⟨lin, hlin, rfl⟩ := Option.map_eq_some_iff.mp hd
      exact ⟨op, rfl, hok, hlin, rfl⟩
    · cases hd
  · rintro ⟨op', he, hok, hset, hst⟩
    cases he
    rw [if_pos hok, hset, ← hst]
    rfl

theorem goal_iff {c : Bitset × St} : (checkTree entries M ops).goal c = true ↔ ∀ i < ops.length, c.1.has i = true := by
  simp only [checkTree, List.isEmpty_iff, List.eq_nil_iff_forall_not_mem, mem_remaining, not_and, Bool.not_eq_false]
  constructor
  · intro hall i hi
    obtain ⟨hlen, hid, -⟩ := h.callAt_spec hi
    have := hall (callAt i) hlen
    rwa [hid] at this
  · exact fun hall a ha => hall _ (h.cases ha).1

/-- A way to a goal is an order of what is left. -/
theorem wins_iff_completes {c : Bitset × St} (hlen : ∀ i < ops.length, i / 64 < c.1.length) :
    (checkTree entries M ops).Wins c ↔ ∃ l, Completes M ops callAt retAt c.1 c.2 l := by
  constructor
  · intro hw
    induction hw with
    | @goal c hg =>
      have hall := (goal_iff h).mp hg
      refine ⟨[], List.nodup_nil, fun i => ?_, trivial, List.Pairwise.nil⟩
      simp only [List.not_mem_nil, false_iff, not_and, Bool.not_eq_false]
      exact hall i
    | @move c d m hm hd _ ih =>
      obtain ⟨i, rfl, hi, hleft, hfirst⟩ := (mem_moves h).mp hm
      obtain ⟨op, hop, hok, hset, hst⟩ := (follow_callAt h hi).mp hd
      obtain ⟨l, hl⟩ := ih fun j hj => by rw [Bitset.length_set hset]; exact hlen j hj
      have hmem : ∀ j, j ∈ l ↔ j < ops.length ∧ j ≠ i ∧ c.1.has j = false := by
        intro j
        rw [hl.mem, Bitset.has_set hset]
        simp
      refine ⟨i :: l, List.nodup_cons.mpr ⟨fun hil => ((hmem i).mp hil).2.1 rfl, hl.nodup⟩, fun j => ?_, ?_, ?_⟩
      · rw [List.mem_cons, hmem]
        constructor
        · rintro (rfl | ⟨hj, -, hjl⟩)
          · exact ⟨hi, hleft⟩
          · exact ⟨hj, hjl⟩
        · rintro ⟨hj, hjl⟩
          by_cases hji : j = i
          · exact Or.inl hji
          · exact Or.inr ⟨hj, hji, hjl⟩
      · rw [List.filterMap_cons_some hop]
        exact ⟨hok, by rw [← hst]; exact hl.accepts⟩
      · refine List.pairwise_cons.mpr ⟨fun j hj => ?_, hl.realtime⟩
        obtain ⟨hj, -, hjl⟩ := (hmem j).mp hj
        exact hfirst j hj hjl
  · rintro ⟨l, hl⟩
    obtain ⟨lin, s⟩ := c
    induction l generalizing lin s with
    | nil =>
      refine .goal ((goal_iff h).mpr fun i hi => ?_)
      by_contra hn
      have := (hl.mem i).mpr ⟨hi, by simpa using hn⟩
      cases this
    | cons i l ih =>
      obtain ⟨hi, hleft⟩ := (hl.mem i).mp List.mem_cons_self
      obtain ⟨hil, hnd⟩ := List.nodup_cons.mp hl.nodup
      obtain ⟨hfirst, hrt⟩ := List.pairwise_cons.mp hl.realtime
      obtain ⟨op, hop⟩ := exists_op hi
      have hacc := hl.accepts
      rw [List.filterMap_cons_some hop] at hacc
      obtain ⟨lin', hset⟩ : ∃ lin', lin.set i = some lin' := ⟨_, Bitset.set_of_lt (hlen i hi)⟩
      refine .move ((mem_moves h).mpr ⟨i, rfl, hi, hleft, fun j hj hjl => ?_⟩)
        ((follow_callAt h (d := (lin', _)) hi).mpr ⟨op, hop, hacc.1, hset, rfl⟩) (ih lin' _ ?_ ?_)
      · rcases List.mem_cons.mp ((hl.mem j).mpr ⟨hj, hjl⟩) with rfl | hjm
        · exact h.lt j hj
        · exact hfirst j hjm
      · exact fun j hj => by rw [Bitset.length_set hset]; exact hlen j hj
      · refine ⟨hnd, fun j => ?_, hacc.2, hrt⟩
        have hmem := hl.mem j
        rw [List.mem_cons] at hmem
        rw [Bitset.has_set hset]
        by_cases hji : j = i
        · subst hji
          simp [hil]
        · simpa [hji] using hmem

end

end

end DistLab
