import Mathlib.Data.List.Basic
import Mathlib.Order.Nat
import Mathlib.Data.Nat.Find
import Mathlib.Logic.Function.Basic
import Mathlib.Tactic.Common

/-!
# Linearizability

A sequential object is a step function on a state. A history tells which
position of a run invokes or returns which operation, so real time is the order
of positions. `Executes.linearization` is the rule for objects that execute
operations one after another in a growing list: reads may be executed several
times, everything else once, and an operation returns what one of its
executions gave.
-/

namespace DistLab

/-! ## Picking positions of a list -/

section
variable {α : Type*}

open Classical in
noncomputable def pick (keep : ℕ → Prop) : List α → List α
  | [] => []
  | a :: l => if keep 0 then a :: pick (fun p => keep (p + 1)) l else pick (fun p => keep (p + 1)) l

theorem pick_sublist : ∀ (keep : ℕ → Prop) (l : List α), (pick keep l).Sublist l
  | _, [] => List.Sublist.refl _
  | keep, a :: l => by
    unfold pick
    split
    · exact (pick_sublist _ l).cons_cons a
    · exact (pick_sublist _ l).cons a

theorem mem_pick {a : α} : ∀ {keep : ℕ → Prop} {l : List α}, a ∈ pick keep l ↔ ∃ p, keep p ∧ l[p]? = some a
  | keep, [] => by simp [pick]
  | keep, b :: l => by
    have ih : a ∈ pick (fun p => keep (p + 1)) l ↔ ∃ p, keep (p + 1) ∧ l[p]? = some a := mem_pick
    unfold pick
    constructor
    · intro h
      split at h
      · rename_i h0
        rcases List.mem_cons.mp h with rfl | h
        · exact ⟨0, h0, rfl⟩
        · obtain ⟨p, hp, hl⟩ := ih.mp h
          exact ⟨p + 1, hp, hl⟩
      · obtain ⟨p, hp, hl⟩ := ih.mp h
        exact ⟨p + 1, hp, hl⟩
    · rintro ⟨p, hp, hl⟩
      cases p with
      | zero =>
        cases hl
        rw [if_pos hp]
        exact List.mem_cons_self
      | succ p =>
        have hm := ih.mpr ⟨p, hp, hl⟩
        split
        · exact List.mem_cons_of_mem _ hm
        · exact hm

theorem pick_before : ∀ {keep : ℕ → Prop} {l : List α} {p q : ℕ} {a b : α}, p < q → keep p → keep q →
    l[p]? = some a → l[q]? = some b → [a, b].Sublist (pick keep l)
  | keep, [], p, q, a, b, _, _, _, ha, _ => by cases ha
  | keep, c :: l, p, q, a, b, hpq, hp, hq, ha, hb => by
    obtain ⟨q, rfl⟩ : ∃ n, q = n + 1 := ⟨q - 1, by omega⟩
    unfold pick
    cases p with
    | zero =>
      cases ha
      rw [if_pos hp]
      exact (List.singleton_sublist.mpr (mem_pick.mpr ⟨q, hq, hb⟩)).cons_cons _
    | succ p =>
      have ih : [a, b].Sublist (pick (fun p => keep (p + 1)) l) :=
        pick_before (Nat.lt_of_succ_lt_succ hpq) hp hq ha hb
      split
      · exact ih.cons _
      · exact ih

theorem pairwise_pick {R : α → α → Prop} : ∀ {keep : ℕ → Prop} {l : List α},
    (∀ p q a b, p < q → keep p → keep q → l[p]? = some a → l[q]? = some b → R a b) → (pick keep l).Pairwise R
  | keep, [], _ => List.Pairwise.nil
  | keep, c :: l, h => by
    have ih : (pick (fun p => keep (p + 1)) l).Pairwise R := pairwise_pick fun p q a b hpq hp hq ha hb =>
      h (p + 1) (q + 1) a b (Nat.succ_lt_succ hpq) hp hq ha hb
    unfold pick
    split
    · rename_i h0
      refine List.pairwise_cons.mpr ⟨fun b hb => ?_, ih⟩
      obtain ⟨q, hq, hl⟩ := mem_pick.mp hb
      exact h 0 (q + 1) c b (Nat.succ_pos q) h0 hq rfl hl
    · exact ih

end

/-! ## Objects and histories -/

structure Object (St In Out : Type*) where
  init : St
  step : St → In → St × Out

structure Done (Id In Out : Type*) where
  id : Id
  input : In
  output : Out
deriving DecidableEq

inductive Event (Id In Out : Type*)
  | invoke (id : Id) (input : In)
  | ret (id : Id) (output : Out)
deriving DecidableEq

section
variable {Id In Out St : Type*} (O : Object St In Out)

def Object.run (s : St) (l : List (Done Id In Out)) : St := l.foldl (fun s d => (O.step s d.input).1) s

def Object.Legal : St → List (Done Id In Out) → Prop
  | _, [] => True
  | s, d :: l => (O.step s d.input).2 = d.output ∧ Legal (O.step s d.input).1 l

def Object.Reads (x : In) : Prop := ∀ s, (O.step s x).1 = s

/-- The list is a linearization of the first `K` positions of a history: it
holds every operation at most once, every operation that returned is in it with
the answer it returned, and an operation that returned before another one was
invoked stands before it. -/
structure Linearization (ev : ℕ → Option (Event Id In Out)) (K : ℕ) (l : List (Done Id In Out)) : Prop where
  nodup : (l.map Done.id).Nodup
  invoked : ∀ d ∈ l, ∃ k < K, ev k = some (.invoke d.id d.input)
  complete : ∀ k < K, ∀ id y, ev k = some (.ret id y) → ∃ d ∈ l, d.id = id ∧ d.output = y
  legal : O.Legal O.init l
  realtime : ∀ j k, j < k → k < K → ∀ a y b x, ev j = some (.ret a y) → ev k = some (.invoke b x) →
    ∀ e ∈ l, e.id = b → ∃ d ∈ l, d.id = a ∧ [d, e].Sublist l

/-- `log k` is what was executed before position `k`; `read` marks the
operations that may be executed several times. -/
structure Executes (read : In → Prop) (ev : ℕ → Option (Event Id In Out)) (log : ℕ → List (Done Id In Out)) :
    Prop where
  reads : ∀ x, read x → O.Reads x
  grow : ∀ k, log k <+: log (k + 1)
  legal : ∀ k, O.Legal O.init (log k)
  invoked : ∀ k, ∀ d ∈ log k, ∃ j < k, ev j = some (.invoke d.id d.input)
  fresh : ∀ k id x, ev k = some (.invoke id x) → ∀ d ∈ log k, d.id ≠ id
  once : ∀ k, (log k).Pairwise fun d e => d.id = e.id → read d.input ∧ read e.input
  answered : ∀ k id y, ev k = some (.ret id y) → ∃ d ∈ log k, d.id = id ∧ d.output = y
  returns : ∀ j k id y z, ev j = some (.ret id y) → ev k = some (.ret id z) → j = k

variable {O}

theorem Object.run_append (s : St) (l l' : List (Done Id In Out)) : O.run s (l ++ l') = O.run (O.run s l) l' := by
  simp [run]

theorem Object.legal_append {s : St} {l l' : List (Done Id In Out)} :
    O.Legal s (l ++ l') ↔ O.Legal s l ∧ O.Legal (O.run s l) l' := by
  induction l generalizing s with
  | nil => simp [Legal, run]
  | cons d l ih => simp only [List.cons_append, Legal, ih, run, List.foldl_cons, and_assoc]

/-- Leaving out reads changes no answer. -/
theorem Object.Legal.pick {s : St} : ∀ {keep : ℕ → Prop} {l : List (Done Id In Out)}, O.Legal s l →
    (∀ p d, l[p]? = some d → ¬ keep p → O.Reads d.input) → O.Legal s (pick keep l) := by
  intro keep l
  induction l generalizing s keep with
  | nil => exact fun _ _ => trivial
  | cons d l ih =>
    intro h hr
    have htail : O.Legal (O.step s d.input).1 (DistLab.pick (fun p => keep (p + 1)) l) :=
      ih h.2 fun p e hp hk => hr (p + 1) e hp hk
    unfold DistLab.pick
    split
    · exact ⟨h.1, htail⟩
    · rename_i h0
      rwa [hr 0 d rfl h0 s] at htail

namespace Executes

variable {read : In → Prop} {ev : ℕ → Option (Event Id In Out)} {log : ℕ → List (Done Id In Out)}
  (h : Executes O read ev log)

include h

theorem mono {j k : ℕ} (hjk : j ≤ k) : log j <+: log k := by
  induction k with
  | zero =>
    obtain rfl : j = 0 := Nat.le_zero.mp hjk
    exact List.prefix_refl _
  | succ k ih =>
    rcases Nat.lt_or_ge k j with hlt | hle
    · obtain rfl : j = k + 1 := by omega
      exact List.prefix_refl _
    · exact (ih hle).trans (h.grow k)

omit h in
/-- The executions that go into the linearization: all but reads, and the first
one of a read that gave the answer it returned. -/
def Keeps (read : In → Prop) (ev : ℕ → Option (Event Id In Out)) (log : ℕ → List (Done Id In Out)) (K p : ℕ) :
    Prop :=
  ∀ d, (log K)[p]? = some d → read d.input →
    (∃ k < K, ev k = some (.ret d.id d.output)) ∧
    ∀ q < p, ∀ e, (log K)[q]? = some e → ¬ (e.id = d.id ∧ e.output = d.output)

theorem exists_kept {K k : ℕ} {id : Id} {y : Out} (hk : k < K) (hret : ev k = some (.ret id y)) :
    ∃ p d, p < (log k).length ∧ (log K)[p]? = some d ∧ d.id = id ∧ d.output = y ∧ Keeps read ev log K p := by
  obtain ⟨d, hd, hid, hy⟩ := h.answered k id y hret
  obtain ⟨n, hn, hdn⟩ := List.getElem_of_mem hd
  have hex : ∃ p : ℕ, ∃ d : Done Id In Out, (log K)[p]? = some d ∧ d.id = id ∧ d.output = y := by
    refine ⟨n, d, ?_, hid, hy⟩
    rw [← hdn]
    exact List.prefix_iff_getElem?.mp (h.mono hk.le) n hn
  classical
  obtain ⟨e, he, heid, hey⟩ := Nat.find_spec hex
  refine ⟨Nat.find hex, e, ?_, he, heid, hey, fun d' hd' _ => ?_⟩
  · refine lt_of_le_of_lt (Nat.find_min' hex ⟨d, ?_, hid, hy⟩) hn
    rw [← hdn]
    exact List.prefix_iff_getElem?.mp (h.mono hk.le) n hn
  · rw [he] at hd'
    cases hd'
    refine ⟨⟨k, hk, by rw [heid, hey]; exact hret⟩, fun q hq e' he' hsame => ?_⟩
    exact Nat.find_min hex hq ⟨e', he', hsame.1.trans heid, hsame.2.trans hey⟩

theorem kept_unique {K p q : ℕ} {d e : Done Id In Out} (hpq : p < q) (hp : Keeps read ev log K p)
    (hq : Keeps read ev log K q) (hd : (log K)[p]? = some d) (he : (log K)[q]? = some e) : d.id ≠ e.id := by
  intro hid
  have hr : read d.input ∧ read e.input := by
    obtain ⟨hpl, hpd⟩ := List.getElem?_eq_some_iff.mp hd
    obtain ⟨hql, hqe⟩ := List.getElem?_eq_some_iff.mp he
    have := List.pairwise_iff_getElem.mp (h.once K) p q hpl hql hpq
    rw [hpd, hqe] at this
    exact this hid
  obtain ⟨⟨j, -, hj⟩, -⟩ := hp d hd hr.1
  obtain ⟨⟨k, -, hk⟩, hfirst⟩ := hq e he hr.2
  have hjk := h.returns j k e.id d.output e.output (by rw [← hid]; exact hj) hk
  rw [hjk, hk, Option.some.injEq, Event.ret.injEq] at hj
  exact hfirst p hpq d hd ⟨hid, hj.2.symm⟩

theorem linearization (K : ℕ) : ∃ l, l.Sublist (log K) ∧ (∀ d ∈ log K, ¬ read d.input → d ∈ l) ∧
    Linearization O ev K l := by
  refine ⟨pick (Keeps read ev log K) (log K), pick_sublist _ _, fun d hd hr => ?_, ?_⟩
  · obtain ⟨p, hp, hpd⟩ := List.getElem_of_mem hd
    refine mem_pick.mpr ⟨p, fun e he hre => ?_, by rw [← hpd]; exact List.getElem?_eq_getElem hp⟩
    rw [List.getElem?_eq_getElem hp, hpd] at he
    cases he
    exact absurd hre hr
  · refine ⟨?_, fun d hd => ?_, fun k hk id y hret => ?_, ?_, fun j k hjk hk a y b x hj hb e he heb => ?_⟩
    · exact List.pairwise_map.mpr (pairwise_pick fun p q d e hpq hp hq hd he => h.kept_unique hpq hp hq hd he)
    · exact h.invoked K d ((pick_sublist _ _).subset hd)
    · obtain ⟨p, d, -, hd, hid, hy, hkeep⟩ := h.exists_kept hk hret
      exact ⟨d, mem_pick.mpr ⟨p, hkeep, hd⟩, hid, hy⟩
    · refine (h.legal K).pick fun p d hd hkeep => ?_
      by_contra hr
      refine hkeep fun e he hre => absurd (h.reads _ ?_) hr
      rw [hd] at he
      cases he
      exact hre
    · -- what `b` executed comes after its invocation, and `a` was executed before
      obtain ⟨p, d, hp, hd, hid, -, hkeep⟩ := h.exists_kept (Nat.lt_trans hjk hk) hj
      obtain ⟨q, hkq, hq⟩ := mem_pick.mp he
      refine ⟨d, mem_pick.mpr ⟨p, hkeep, hd⟩, hid, pick_before ?_ hkeep hkq hd hq⟩
      have hlen := (h.mono hjk.le).length_le
      by_contra hqp
      have hql : q < (log k).length := by omega
      have hqk : (log k)[q] = e := by
        have := List.prefix_iff_getElem?.mp (h.mono hk.le) q hql
        rw [hq] at this
        exact (Option.some.inj this).symm
      exact h.fresh k b x hb e (by rw [← hqk]; exact List.getElem_mem hql) heb

end Executes

end

/-! ## Clients that number their operations -/

def InvokedBefore {Id In Out : Type*} (ev : ℕ → Option (Event Id In Out)) (k : ℕ) (id : Id) (x : In) : Prop :=
  ∃ j < k, ev j = some (.invoke id x)

theorem InvokedBefore.mono {Id In Out : Type*} {ev : ℕ → Option (Event Id In Out)} {j k : ℕ} (hjk : j ≤ k) {id : Id}
    {x : In} (h : InvokedBefore ev j id x) : InvokedBefore ev k id x := by
  obtain ⟨i, hi, he⟩ := h
  exact ⟨i, hi.trans_le hjk, he⟩

section
variable {Client In Out : Type*} [DecidableEq Client]

/-- Every client has one operation at a time, `cur`, and gives each new one the
next number; `seq` is the last number it gave. -/
structure Numbered (ev : ℕ → Option (Event (Client × ℕ) In Out)) (seq : ℕ → Client → ℕ)
    (cur : ℕ → Client → Option In) : Prop where
  start : ∀ c, cur 0 c = none
  idle : ∀ k, ev k = none → seq (k + 1) = seq k ∧ cur (k + 1) = cur k
  invoke : ∀ k c n x, ev k = some (.invoke (c, n) x) → n = seq k c + 1 ∧ cur k c = none ∧
    seq (k + 1) = Function.update (seq k) c n ∧ cur (k + 1) = Function.update (cur k) c (some x)
  ret : ∀ k c n y, ev k = some (.ret (c, n) y) → n = seq k c ∧ cur k c ≠ none ∧
    seq (k + 1) = seq k ∧ cur (k + 1) = Function.update (cur k) c none

namespace Numbered

variable {ev : ℕ → Option (Event (Client × ℕ) In Out)} {seq : ℕ → Client → ℕ} {cur : ℕ → Client → Option In}
  (h : Numbered ev seq cur)

include h

theorem seq_succ (k : ℕ) (c : Client) : seq k c ≤ seq (k + 1) c := by
  cases he : ev k with
  | none => rw [(h.idle k he).1]
  | some e =>
    cases e with
    | invoke id x =>
      obtain ⟨hn, -, hseq, -⟩ := h.invoke k id.1 id.2 x he
      rw [hseq]
      by_cases hc : c = id.1
      · rw [hc, Function.update_self]; omega
      · rw [Function.update_of_ne hc]
    | ret id y =>
      obtain ⟨-, -, hseq, -⟩ := h.ret k id.1 id.2 y he
      rw [hseq]

theorem seq_mono {j k : ℕ} (hjk : j ≤ k) (c : Client) : seq j c ≤ seq k c := by
  induction k with
  | zero => rw [Nat.le_zero.mp hjk]
  | succ k ih =>
    rcases Nat.lt_or_ge k j with hlt | hle
    · rw [show j = k + 1 by omega]
    · exact (ih hle).trans (h.seq_succ k c)

theorem invoked_le {k n : ℕ} {c : Client} {x : In} (hi : InvokedBefore ev k (c, n) x) : n ≤ seq k c := by
  obtain ⟨j, hj, he⟩ := hi
  obtain ⟨-, -, hseq, -⟩ := h.invoke j c n x he
  have := h.seq_mono hj c
  rwa [hseq, Function.update_self] at this

theorem fresh {k : ℕ} {id : Client × ℕ} {x x' : In} (he : ev k = some (.invoke id x)) :
    ¬ InvokedBefore ev k id x' := by
  intro hi
  have hle := h.invoked_le hi
  obtain ⟨hn, -⟩ := h.invoke k id.1 id.2 x he
  omega

theorem invoke_unique {j k : ℕ} {id : Client × ℕ} {x x' : In} (hj : ev j = some (.invoke id x))
    (hk : ev k = some (.invoke id x')) : j = k := by
  rcases Nat.lt_trichotomy j k with hlt | heq | hlt
  · exact absurd ⟨j, hlt, hj⟩ (h.fresh hk)
  · exact heq
  · exact absurd ⟨k, hlt, hk⟩ (h.fresh hj)

theorem unique {k : ℕ} {id : Client × ℕ} {x x' : In} (hi : InvokedBefore ev k id x)
    (hi' : InvokedBefore ev k id x') : x = x' := by
  obtain ⟨i, -, he⟩ := hi
  obtain ⟨j, -, he'⟩ := hi'
  rw [h.invoke_unique he he', he'] at he
  cases he
  rfl

theorem current {k : ℕ} {c : Client} {x : In} (hc : cur k c = some x) : InvokedBefore ev k (c, seq k c) x := by
  induction k generalizing x with
  | zero => rw [h.start c] at hc; cases hc
  | succ k ih =>
    cases he : ev k with
    | none =>
      obtain ⟨hseq, hcur⟩ := h.idle k he
      rw [hcur] at hc
      rw [hseq]
      exact (ih hc).mono (Nat.le_succ k)
    | some e =>
      cases e with
      | invoke id y =>
        obtain ⟨hn, -, hseq, hcur⟩ := h.invoke k id.1 id.2 y he
        rw [hcur] at hc
        rw [hseq]
        by_cases hcid : c = id.1
        · subst hcid
          rw [Function.update_self] at hc ⊢
          cases hc
          exact ⟨k, Nat.lt_succ_self k, he⟩
        · rw [Function.update_of_ne hcid] at hc ⊢
          exact (ih hc).mono (Nat.le_succ k)
      | ret id y =>
        obtain ⟨-, -, hseq, hcur⟩ := h.ret k id.1 id.2 y he
        rw [hcur] at hc
        rw [hseq]
        by_cases hcid : c = id.1
        · rw [hcid, Function.update_self] at hc; cases hc
        · rw [Function.update_of_ne hcid] at hc
          exact (ih hc).mono (Nat.le_succ k)

theorem returned_lt {j k n : ℕ} {c : Client} {y : Out} (he : ev j = some (.ret (c, n) y)) (hjk : j < k)
    (hc : cur k c ≠ none) : n < seq k c := by
  induction k with
  | zero => omega
  | succ k ih =>
    have hle := h.seq_succ k c
    cases hek : ev k with
    | none =>
      obtain ⟨-, hcur⟩ := h.idle k hek
      rw [hcur] at hc
      rcases Nat.lt_or_ge j k with hlt | hge
      · exact (ih hlt hc).trans_le hle
      · rw [show j = k by omega, hek] at he; cases he
    | some e =>
      cases e with
      | invoke id x =>
        obtain ⟨hn, -, hseq, hcur⟩ := h.invoke k id.1 id.2 x hek
        have hjk' : j < k := by
          rcases Nat.lt_or_ge j k with hlt | hge
          · exact hlt
          · rw [show j = k by omega, hek] at he; cases he
        by_cases hcid : c = id.1
        · have hret := (h.ret j c n y he).1
          have := h.seq_mono hjk'.le c
          rw [hseq, hcid, Function.update_self]
          rw [hcid] at this hret
          omega
        · rw [hcur, Function.update_of_ne hcid] at hc
          exact (ih hjk' hc).trans_le hle
      | ret id z =>
        obtain ⟨-, -, -, hcur⟩ := h.ret k id.1 id.2 z hek
        rw [hcur] at hc
        by_cases hcid : c = id.1
        · rw [hcid, Function.update_self] at hc; exact absurd rfl hc
        · rw [Function.update_of_ne hcid] at hc
          rcases Nat.lt_or_ge j k with hlt | hge
          · exact (ih hlt hc).trans_le hle
          · rw [show j = k by omega, hek] at he
            cases he
            exact absurd rfl hcid

theorem returns {j k : ℕ} {id : Client × ℕ} {y z : Out} (hj : ev j = some (.ret id y))
    (hk : ev k = some (.ret id z)) : j = k := by
  have key : ∀ {i l : ℕ} {u v : Out}, ev i = some (.ret id u) → ev l = some (.ret id v) → ¬ i < l := by
    intro i l u v hi hl hil
    obtain ⟨hn, hc, -⟩ := h.ret l id.1 id.2 v hl
    have := h.returned_lt hi hil hc
    omega
  have := key hj hk
  have := key hk hj
  omega

end Numbered

end

end DistLab
