import DistLab.Lib.Reads
import DistLab.Service.Late

/-!
# Machines with a table of last replies

`kvraft` and `shardctrler` execute a write once for every number of a client and
keep the last reply of each client; reads change nothing. `Front` is what a
service shows its clients, and `Dedup` says that a machine implements an object
in this way. Then the committed log determines a list of executed writes, and
every answer that a clerk accepts comes from it: the answer of a write is the
one of its execution, the answer of a read is the one of some state between two
executions.
-/

namespace DistLab

structure Stamped (In : Type) where
  input : In
  clientId : Nat
  seqId : Nat

def Stamped.id {In : Type} (x : Stamped In) : Nat × Nat := (x.clientId, x.seqId)

structure Front (Op Res In Out : Type) where
  /-- the operation that a handler passes to `Start` -/
  op : Stamped In → Op
  parse : Op → Option (Stamped In)
  parse_op : ∀ x, parse (op x) = some x
  /-- what of a result is in the reply -/
  answer : In → Res → Res
  /-- what the clerk returns for a reply, `none` if it tries again -/
  returns : In → Res → Option Out
  returns_answer : ∀ x r, returns x (answer x r) = returns x r
  /-- the server that the clerk asks next, after a reply or a call that failed -/
  next : (servers leaderId : Nat) → Option Res → Nat

section
variable {Op Id St Res In Out S : Type}

/-- The machine executes the object, writes once and reads at any time. What it
does in states that are not `ok` does not matter. -/
structure Dedup (M : Machine Op Id St Res) (F : Front Op Res In Out) (O : Object S In Out) where
  read : In → Prop
  ok : St → Prop
  store : St → S
  table : St → Nat → Option (Nat × Res)
  ident_inj : ∀ x y, M.ident (F.op x) = M.ident (F.op y) → x.id = y.id
  ok_init : ok M.init
  store_init : store M.init = O.init
  table_init : ∀ c, table M.init c = none
  reads : ∀ x, read x → O.Reads x
  ok_apply : ∀ s x, ok s → ok (M.apply s (F.op x)).1
  apply_read : ∀ s x, ok s → read x.input → (M.apply s (F.op x)).1 = s
  answer_read : ∀ s x y, ok s → read x.input → (∀ n r, table s x.clientId = some (n, r) → n < x.seqId) →
    F.returns x.input (M.apply s (F.op x)).2 = some y → y = (O.step (store s) x.input).2
  apply_old : ∀ s x n r, ok s → ¬ read x.input → table s x.clientId = some (n, r) → x.seqId ≤ n →
    M.apply s (F.op x) = (s, r)
  store_new : ∀ s x, ok s → ¬ read x.input → (∀ n r, table s x.clientId = some (n, r) → n < x.seqId) →
    store (M.apply s (F.op x)).1 = (O.step (store s) x.input).1
  table_new : ∀ s x, ok s → ¬ read x.input → (∀ n r, table s x.clientId = some (n, r) → n < x.seqId) →
    table (M.apply s (F.op x)).1 = Function.update (table s) x.clientId (some (x.seqId, (M.apply s (F.op x)).2))
  answer_new : ∀ s x y, ok s → ¬ read x.input → (∀ n r, table s x.clientId = some (n, r) → n < x.seqId) →
    F.returns x.input (M.apply s (F.op x)).2 = some y → y = (O.step (store s) x.input).2
  wrongLeader : ∀ x, F.returns x M.wrongLeader = none
  timeout : ∀ x, F.returns x M.timeout = none

namespace Dedup

variable {M : Machine Op Id St Res} {F : Front Op Res In Out} {O : Object S In Out} (D : Dedup M F O)

/-! ## The executed writes -/

def Fresh (s : St) (x : Stamped In) : Prop := ∀ n r, D.table s x.clientId = some (n, r) → n < x.seqId

/-- The execution of a command, if it is a write that the table does not have. -/
noncomputable def writes (s : St) (op : Op) : Option (Done (Nat × Nat) In Out) :=
  open Classical in
  match F.parse op with
  | some x =>
    if ¬ D.read x.input ∧ D.Fresh s x then some ⟨x.id, x.input, (O.step (D.store s) x.input).2⟩ else none
  | none => none

noncomputable def done (log : List Op) : List (Done (Nat × Nat) In Out) := M.trace D.writes log

theorem writes_old {s : St} {x : Stamped In} (h : D.read x.input ∨ ¬ D.Fresh s x) : D.writes s (F.op x) = none := by
  simp only [writes, F.parse_op]
  rw [if_neg]
  tauto

theorem writes_new {s : St} {x : Stamped In} (hw : ¬ D.read x.input) (hf : D.Fresh s x) :
    D.writes s (F.op x) = some ⟨x.id, x.input, (O.step (D.store s) x.input).2⟩ := by
  simp only [writes, F.parse_op]
  rw [if_pos ⟨hw, hf⟩]

theorem done_snoc (log : List Op) (op : Op) : D.done (log ++ [op]) = D.done log ++ (D.writes (M.replay log) op).toList :=
  M.trace_snoc D.writes log op

theorem done_le {log log' : List Op} (h : log <+: log') : D.done log <+: D.done log' := by
  obtain ⟨rest, rfl⟩ := h
  induction rest using List.reverseRecOn with
  | nil => simp only [List.append_nil, List.prefix_rfl]
  | append_singleton rest op ih =>
    rw [← List.append_assoc, done_snoc]
    exact ih.trans (List.prefix_append _ _)

/-- A command is a read, or a write that the table has, or a new write. -/
theorem cases (s : St) (x : Stamped In) : D.read x.input ∨
    (¬ D.read x.input ∧ ∃ n r, D.table s x.clientId = some (n, r) ∧ x.seqId ≤ n) ∨ ¬ D.read x.input ∧ D.Fresh s x := by
  by_cases hr : D.read x.input
  · exact Or.inl hr
  · by_cases hf : D.Fresh s x
    · exact Or.inr (Or.inr ⟨hr, hf⟩)
    · refine Or.inr (Or.inl ⟨hr, ?_⟩)
      simp only [Fresh, not_forall, not_lt] at hf
      obtain ⟨n, r, ht, hle⟩ := hf
      exact ⟨n, r, ht, hle⟩

structure Recorded (log : List Op) : Prop where
  ok : D.ok (M.replay log)
  store : D.store (M.replay log) = O.run O.init (D.done log)
  legal : O.Legal O.init (D.done log)
  logged : ∀ d ∈ D.done log, ¬ D.read d.input ∧ ∃ x, F.op x ∈ log ∧ x.id = d.id ∧ x.input = d.input
  entry : ∀ c n r, D.table (M.replay log) c = some (n, r) →
    ∃ d ∈ D.done log, d.id = (c, n) ∧ ∀ y, F.returns d.input r = some y → y = d.output
  covers : ∀ x, F.op x ∈ log → ¬ D.read x.input → ∃ n r, D.table (M.replay log) x.clientId = some (n, r) ∧ x.seqId ≤ n
  nodup : ((D.done log).map Done.id).Nodup

variable {D}

theorem Recorded.idle {log : List Op} (h : D.Recorded log) {x : Stamped In}
    (hst : (M.apply (M.replay log) (F.op x)).1 = M.replay log) (hw : D.writes (M.replay log) (F.op x) = none)
    (hcov : ¬ D.read x.input → ∃ n r, D.table (M.replay log) x.clientId = some (n, r) ∧ x.seqId ≤ n) :
    D.Recorded (log ++ [F.op x]) := by
  have hdone : D.done (log ++ [F.op x]) = D.done log := by
    rw [done_snoc, hw, Option.toList_none, List.append_nil]
  refine ⟨?_, ?_, ?_, fun d hd => ?_, fun c n r ht => ?_, fun y hy hr => ?_, ?_⟩
  · rw [M.replay_snoc, hst]
    exact h.ok
  · rw [M.replay_snoc, hst, hdone]
    exact h.store
  · rw [hdone]
    exact h.legal
  · rw [hdone] at hd
    obtain ⟨hr, y, hy, hid, hin⟩ := h.logged d hd
    exact ⟨hr, y, List.mem_append_left _ hy, hid, hin⟩
  · rw [M.replay_snoc, hst] at ht
    rw [hdone]
    exact h.entry c n r ht
  · rw [M.replay_snoc, hst]
    rcases List.mem_append.mp hy with hy | hy
    · exact h.covers y hy hr
    · have heq := F.parse_op y
      rw [List.mem_singleton.mp hy, F.parse_op] at heq
      cases heq
      exact hcov hr
  · rw [hdone]
    exact h.nodup

theorem Recorded.write {log : List Op} (h : D.Recorded log) {x : Stamped In} (hr : ¬ D.read x.input)
    (hf : D.Fresh (M.replay log) x) : D.Recorded (log ++ [F.op x]) := by
  have hdone : D.done (log ++ [F.op x]) =
      D.done log ++ [⟨x.id, x.input, (O.step (D.store (M.replay log)) x.input).2⟩] := by
    rw [done_snoc, D.writes_new hr hf, Option.toList_some]
  have htable := D.table_new _ x h.ok hr hf
  refine ⟨?_, ?_, ?_, fun d hd => ?_, fun c n r ht => ?_, fun y hy hry => ?_, ?_⟩
  · rw [M.replay_snoc]
    exact D.ok_apply _ x h.ok
  · rw [M.replay_snoc, D.store_new _ x h.ok hr hf, hdone, Object.run_append, ← h.store]
    rfl
  · rw [hdone, Object.legal_append, ← h.store]
    exact ⟨h.legal, rfl, trivial⟩
  · rw [hdone] at hd
    rcases List.mem_append.mp hd with hd | hd
    · obtain ⟨hrd, y, hy, hid, hin⟩ := h.logged d hd
      exact ⟨hrd, y, List.mem_append_left _ hy, hid, hin⟩
    · rw [List.mem_singleton.mp hd]
      exact ⟨hr, x, List.mem_append_right _ (List.mem_singleton_self _), rfl, rfl⟩
  · rw [M.replay_snoc, htable] at ht
    rw [hdone]
    by_cases hc : c = x.clientId
    · subst hc
      rw [Function.update_self] at ht
      cases ht
      exact ⟨_, List.mem_append_right _ (List.mem_singleton_self _), rfl, fun y => D.answer_new _ x y h.ok hr hf⟩
    · rw [Function.update_of_ne hc] at ht
      obtain ⟨d, hd, hid⟩ := h.entry c n r ht
      exact ⟨d, List.mem_append_left _ hd, hid⟩
  · rw [M.replay_snoc, htable]
    rcases List.mem_append.mp hy with hy | hy
    · obtain ⟨n, r, ht, hle⟩ := h.covers y hy hry
      by_cases hc : y.clientId = x.clientId
      · rw [hc, Function.update_self]
        rw [hc] at ht
        exact ⟨_, _, rfl, hle.trans (hf n r ht).le⟩
      · rw [Function.update_of_ne hc]
        exact ⟨n, r, ht, hle⟩
    · have heq := F.parse_op y
      rw [List.mem_singleton.mp hy, F.parse_op] at heq
      cases heq
      rw [Function.update_self]
      exact ⟨_, _, rfl, le_rfl⟩
  · -- an execution with this identity would have left its number in the table
    rw [hdone, List.map_append, List.map_singleton, List.nodup_append]
    refine ⟨h.nodup, List.pairwise_singleton _ _, fun a ha b hb hab => ?_⟩
    obtain ⟨d, hd, rfl⟩ := List.mem_map.mp ha
    rw [List.mem_singleton.mp hb] at hab
    obtain ⟨hrd, y, hy, hid, hin⟩ := h.logged d hd
    obtain ⟨n, r, ht, hle⟩ := h.covers y hy (by rw [hin]; exact hrd)
    obtain ⟨hc, hs⟩ := Prod.mk.inj (hid.trans hab)
    rw [hc] at ht
    have := hf n r ht
    omega

variable (D)

theorem recorded {log : List Op} (hlog : ∀ op ∈ log, ∃ x, op = F.op x) : D.Recorded log := by
  induction log using List.reverseRecOn with
  | nil =>
    refine ⟨D.ok_init, D.store_init, trivial, fun d hd => ?_, fun c n r ht => ?_, fun x hx => ?_, List.nodup_nil⟩
    · cases hd
    · rw [show M.replay [] = M.init from rfl, D.table_init] at ht
      cases ht
    · cases hx
  | append_singleton log op ih =>
    have ih := ih fun o ho => hlog o (List.mem_append_left _ ho)
    obtain ⟨x, rfl⟩ := hlog op (List.mem_append_right _ (List.mem_singleton_self _))
    rcases D.cases (M.replay log) x with hr | ⟨hr, n, r, ht, hle⟩ | ⟨hr, hf⟩
    · exact ih.idle (D.apply_read _ x ih.ok hr) (D.writes_old (Or.inl hr)) fun hn => absurd hr hn
    · refine ih.idle (by rw [D.apply_old _ x n r ih.ok hr ht hle]) (D.writes_old (Or.inr fun hf => ?_))
        fun _ => ⟨n, r, ht, hle⟩
      have := hf n r ht
      omega
    · exact ih.write hr hf

/-! ## Overtaken commands -/

include D in
/-- A command of the log changes nothing when it is executed again later. -/
theorem apply_again {log log' : List Op} {x : Stamped In} (hlog : ∀ op ∈ log', ∃ x, op = F.op x) (hx : F.op x ∈ log)
    (hle : log <+: log') : (M.apply (M.replay log') (F.op x)).1 = M.replay log' := by
  have hrec := D.recorded hlog
  by_cases hr : D.read x.input
  · exact D.apply_read _ x hrec.ok hr
  · obtain ⟨n, r, ht, hn⟩ := hrec.covers x (hle.subset hx) hr
    rw [D.apply_old _ x n r hrec.ok hr ht hn]

include D in
theorem harmless {Tok : Type} {g : Group Op Id St Res Tok} (hfed : g.Fed M true) (hlog : ∀ op ∈ g.log, ∃ x, op = F.op x)
    (a : Inner) : g.Harmless M a := by
  intro r snap j q op _ hq hop hle
  have hpos : 0 < j := (hfed.replica r).feeds.mem_pos (hq ▸ List.mem_cons_self)
  rw [(hfed.replica r).state]
  obtain ⟨x, rfl⟩ := hlog op (List.mem_of_getElem? hop)
  have hx : F.op x ∈ g.log.take j :=
    List.mem_of_getElem? (i := j - 1) (by rw [List.getElem?_take_of_lt (by omega)]; exact hop)
  exact D.apply_again (fun o ho => hlog o ((List.take_prefix _ _).subset ho)) hx (List.take_prefix_take_left hle)

/-! ## Answers -/

/-- An answer that the clerk accepts for its last operation is the one of an
execution, or for a read the one of a state that the log passed through. -/
theorem accepted {log : List Op} (hlog : ∀ op ∈ log, ∃ x, op = F.op x) {p q : Nat} {x : Stamped In} {y : Out}
    (hp : log[p]? = some (F.op x)) (hpq : p ≤ q) (hq : q ≤ log.length)
    (hlast : ∀ z, F.op z ∈ log → z.clientId = x.clientId → z.seqId ≤ x.seqId)
    (hsame : ∀ z, F.op z ∈ log → z.id = x.id → z.input = x.input)
    (hy : F.returns x.input (M.apply (M.replay (log.take q)) (F.op x)).2 = some y) :
    (∃ d ∈ D.done log, d.id = x.id ∧ d.output = y) ∨
      D.read x.input ∧ (O.step (O.run O.init (D.done (log.take q))) x.input).2 = y := by
  have htake : ∀ o ∈ log.take q, o ∈ log := fun o ho => (List.take_prefix _ _).subset ho
  have hrec := D.recorded fun o ho => hlog o (htake o ho)
  have hin : ∀ d ∈ D.done (log.take q), d ∈ D.done log := fun d hd => (D.done_le (List.take_prefix _ _)).subset hd
  -- what the table has of this client is this operation
  have entry : ∀ n r, D.table (M.replay (log.take q)) x.clientId = some (n, r) → x.seqId ≤ n →
      ∃ d ∈ D.done log, d.id = x.id ∧ ¬ D.read x.input ∧ ∀ y, F.returns x.input r = some y → y = d.output := by
    intro n r ht hn
    obtain ⟨d, hd, hid, hout⟩ := hrec.entry _ n r ht
    obtain ⟨hrd, z, hz, hzid, hzin⟩ := hrec.logged d hd
    have hzc := Prod.mk.inj (hzid.trans hid)
    have hle := hlast z (htake _ hz) hzc.1
    have heq : z.id = x.id := by
      unfold Stamped.id
      rw [hzc.1, show z.seqId = x.seqId by omega]
    rw [← hzin, hsame z (htake _ hz) heq] at hout hrd
    exact ⟨d, hin d hd, hzid.symm.trans heq, hrd, hout⟩
  rcases D.cases (M.replay (log.take q)) x with hr | ⟨hr, n, r, ht, hle⟩ | ⟨hr, hf⟩
  · right
    refine ⟨hr, ?_⟩
    rw [← hrec.store]
    refine (D.answer_read _ x y hrec.ok hr (fun n r ht => ?_) hy).symm
    by_contra hn
    obtain ⟨d, -, -, hnr, -⟩ := entry n r ht (by omega)
    exact hnr hr
  · left
    rw [D.apply_old _ x n r hrec.ok hr ht hle] at hy
    obtain ⟨d, hd, hid, -, hout⟩ := entry n r ht hle
    exact ⟨d, hd, hid, (hout y hy).symm⟩
  · left
    -- a new write is executed at its own place
    have hpq : p = q := by
      by_contra hne
      have hmem : F.op x ∈ log.take q :=
        List.mem_of_getElem? (i := p) (by rw [List.getElem?_take_of_lt (by omega)]; exact hp)
      obtain ⟨n, r, ht, hle⟩ := hrec.covers x hmem hr
      have := hf n r ht
      omega
    subst hpq
    refine ⟨⟨x.id, x.input, (O.step (D.store (M.replay (log.take p))) x.input).2⟩, ?_, rfl,
      (D.answer_new _ x y hrec.ok hr hf hy).symm⟩
    refine (D.done_le (List.take_prefix (p + 1) log)).subset ?_
    rw [List.take_add_one, hp, Option.toList_some, D.done_snoc, D.writes_new hr hf]
    exact List.mem_append_right _ (List.mem_singleton_self _)

end Dedup

end

end DistLab
