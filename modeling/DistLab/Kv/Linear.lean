import DistLab.Kv.Replay
import Mathlib.Data.List.Induction

/-!
# kvraft is linearizable

The committed log, without the commands that `dupTable` answers, is a list of
executions of the map. A clerk gives an operation a number larger than all its
earlier ones and never two operations at a time, so a command that is answered
from the table while its call is open is a write whose own execution stands
before; and what a clerk gets is the answer of one execution of its operation.
-/

namespace DistLab

/-! ## Executions -/

namespace KvServer

def run (kv : KvServer) (ops : List KvOp) : KvServer := ops.foldl (fun kv op => (kv.apply op).1) kv

def outcome (kv : KvServer) (op : KvOp) : Done (Nat × Nat) KvInput GoString :=
  ⟨op.ident, op.toKvInput, (kvModel.step kv.kvStore.read op.toKvInput).2⟩

def executed : KvServer → List KvOp → List (Done (Nat × Nat) KvInput GoString)
  | _, [] => []
  | kv, op :: ops =>
    match kv.duplicate op with
    | some _ => executed (kv.apply op).1 ops
    | none => kv.outcome op :: executed (kv.apply op).1 ops

theorem executed_append (kv : KvServer) (l l' : List KvOp) :
    kv.executed (l ++ l') = kv.executed l ++ (kv.run l).executed l' := by
  induction l generalizing kv with
  | nil => rfl
  | cons op l ih =>
    simp only [List.cons_append, executed, ih, run, List.foldl_cons]
    cases kv.duplicate op <;> rfl

theorem apply_of_duplicate {kv : KvServer} {op : KvOp} {r : KvReply} (h : kv.duplicate op = some r) :
    kv.apply op = (kv, r) := by
  simp only [apply, h]

theorem apply_of_fresh {kv : KvServer} {op : KvOp} (h : kv.duplicate op = none) : kv.apply op = kv.execute op := by
  simp only [apply, h]

theorem mem_executed {kv : KvServer} {log : List KvOp} {p : Nat} {op : KvOp} (hp : log[p]? = some op)
    (hdup : (kv.run (log.take p)).duplicate op = none) : (kv.run (log.take p)).outcome op ∈ kv.executed log := by
  obtain ⟨hlt, he⟩ := List.getElem?_eq_some_iff.mp hp
  have hsplit : kv.executed log = kv.executed (log.take p) ++ (kv.run (log.take p)).executed (op :: log.drop (p + 1)) := by
    rw [← executed_append, ← he, ← List.drop_eq_getElem_cons hlt, List.take_append_drop]
  rw [hsplit]
  simp only [executed, hdup]
  exact List.mem_append_right _ List.mem_cons_self

theorem executed_take {kv : KvServer} {log : List KvOp} {p : Nat} {d : Done (Nat × Nat) KvInput GoString}
    (h : d ∈ kv.executed (log.take p)) : d ∈ kv.executed log := by
  rw [← List.take_append_drop p log, executed_append]
  exact List.mem_append_left _ h

theorem executed_write {kv : KvServer} {log : List KvOp} {d : Done (Nat × Nat) KvInput GoString}
    (h : d ∈ kv.executed log) (hw : d.input.opType ≠ .get) : d.output = [] := by
  induction log generalizing kv with
  | nil => cases h
  | cons op log ih =>
    unfold executed at h
    split at h
    · exact ih h
    · rcases List.mem_cons.mp h with rfl | h
      · exact kvModel_write hw _
      · exact ih h

theorem legal_executed (kv : KvServer) (ops : List KvOp) : kvModel.Legal kv.kvStore.read (kv.executed ops) := by
  induction ops generalizing kv with
  | nil => exact trivial
  | cons op ops ih =>
    unfold executed
    cases h : kv.duplicate op with
    | some r =>
      have := ih (kv.apply op).1
      rwa [apply_of_duplicate h] at this ⊢
    | none =>
      refine ⟨rfl, ?_⟩
      have := ih (kv.apply op).1
      rwa [apply_of_fresh h, show (kv.execute op).1.kvStore = (kv.kvStore.applyOp op.toKvInput).1 from rfl,
        Store.read_applyOp, ← apply_of_fresh h] at this

/-- What the table knows of the executions: the last number of every client,
taken from one of its writes. -/
structure Recorded (kv : KvServer) (log : List KvOp) (done : List (Done (Nat × Nat) KvInput GoString)) : Prop where
  logged : ∀ d ∈ done, ∃ op ∈ log, d.id = op.ident ∧ d.input = op.toKvInput
  covers : ∀ d ∈ done, d.input.opType ≠ .get → kv.Covers d.id.1 d.id.2
  origin : ∀ c last, kv.dupTable c = some last → ∃ d ∈ done, d.id = (c, last.seqId) ∧ d.input.opType ≠ .get

theorem Recorded.snoc {kv : KvServer} {log : List KvOp} {done : List (Done (Nat × Nat) KvInput GoString)}
    (h : Recorded kv log done) (op : KvOp) : Recorded (kv.apply op).1 (log ++ [op]) (done ++ kv.executed [op]) := by
  have hlog : ∀ d ∈ done, ∃ o ∈ log ++ [op], d.id = o.ident ∧ d.input = o.toKvInput := by
    intro d hd
    obtain ⟨o, ho, he⟩ := h.logged d hd
    exact ⟨o, List.mem_append_left _ ho, he⟩
  unfold executed
  cases hdup : kv.duplicate op with
  | some r =>
    simp only [executed, List.append_nil]
    rw [apply_of_duplicate hdup]
    exact ⟨hlog, h.covers, h.origin⟩
  | none =>
    refine ⟨fun d hd => ?_, fun d hd hw => ?_, fun c last hl => ?_⟩
    · rcases List.mem_append.mp hd with hd | hd
      · exact hlog d hd
      · rw [List.mem_singleton.mp hd]
        exact ⟨op, List.mem_append_right _ (List.mem_singleton_self _), rfl, rfl⟩
    · rcases List.mem_append.mp hd with hd | hd
      · exact (h.covers d hd hw).apply op
      · rw [List.mem_singleton.mp hd] at hw ⊢
        exact covers_apply_self hw
    · rcases dupTable_apply hl with hl | ⟨rfl, hs, hw⟩
      · obtain ⟨d, hd, he⟩ := h.origin c last hl
        exact ⟨d, List.mem_append_left _ hd, he⟩
      · rw [hs]
        exact ⟨_, List.mem_append_right _ (List.mem_singleton_self _), rfl, hw⟩

theorem recorded (log : List KvOp) : Recorded (init.run log) log (init.executed log) := by
  induction log using List.reverseRecOn with
  | nil =>
    refine ⟨fun d hd => ?_, fun d hd => ?_, fun c last hl => ?_⟩
    · cases hd
    · cases hd
    · cases hl
  | append_singleton log op ih =>
    have := ih.snoc op
    rwa [show ((init.run log).apply op).1 = init.run (log ++ [op]) by simp [run], ← executed_append] at this

/-- A write is executed once: the table answers every later copy. -/
theorem pairwise_executed {log : List KvOp}
    (hsame : ∀ a ∈ log, ∀ b ∈ log, a.ident = b.ident → a.toKvInput = b.toKvInput) :
    (init.executed log).Pairwise fun d e => d.id = e.id → d.input.opType = .get ∧ e.input.opType = .get := by
  induction log using List.reverseRecOn with
  | nil => exact List.Pairwise.nil
  | append_singleton log op ih =>
    rw [executed_append]
    have ih := ih fun a ha b hb => hsame a (List.mem_append_left _ ha) b (List.mem_append_left _ hb)
    cases hdup : (init.run log).duplicate op with
    | some r => simpa only [executed, hdup, List.append_nil] using ih
    | none =>
      simp only [executed, hdup]
      refine List.pairwise_append.mpr ⟨ih, List.pairwise_singleton _ _, fun d hd e he hid => ?_⟩
      rw [List.mem_singleton.mp he] at hid ⊢
      obtain ⟨o, ho, hdo, hdi⟩ := (recorded log).logged d hd
      have hin : d.input = op.toKvInput := by
        rw [hdi]
        exact hsame o (List.mem_append_left _ ho) op (List.mem_append_right _ (List.mem_singleton_self _))
          (hdo.symm.trans hid)
      have hget : d.input.opType = .get := by
        by_contra hw
        have hcov := (recorded log).covers d hd hw
        rw [hid] at hcov
        exact duplicate_eq_none.mp hdup hcov
      exact ⟨hget, by rw [← hget, hin]; rfl⟩

end KvServer

theorem KvRequest.returns_answer (req : KvRequest) (r : KvReply) :
    req.op.toKvInput.returns r = req.op.toKvInput.returns (req.answer r) := by
  unfold answer
  split
  · rfl
  · rename_i hop
    exact (KvInput.returns_of_err hop r).symm

/-! ## Steps of the system -/

namespace KvSystem

inductive Act (servers : Nat) (σ : KvSystem) : KvAct → KvSystem → Prop
  | invoke {c : Nat} {op : KvInput} : (σ.clerk c).current = none →
      Act servers σ (.invoke c op) (σ.setClerk c ((σ.clerk c).begin op))
  | send {c : Nat} {op : KvInput} : (σ.clerk c).current = some op → (σ.clerk c).calling = false →
      Act servers σ (.send c)
        { σ.setClerk c { σ.clerk c with calling := true, call := (σ.clerk c).call + 1 } with
          requests := σ.requests ++ [⟨⟨op, c, (σ.clerk c).seqId⟩, (σ.clerk c).call + 1, (σ.clerk c).leaderId⟩] }
  | accept {k index : Nat} {req : KvRequest} : req ∈ σ.requests →
      Act servers σ (.accept k index) { σ with group := σ.group.submit req.server req req.op index }
  | refuse {k : Nat} {req : KvRequest} : req ∈ σ.requests →
      Act servers σ (.refuse k) { σ with replies := σ.replies ++ [(req, req.answer kvMachine.wrongLeader)] }
  | inner {a : Inner} {group : Group KvOp (Nat × Nat) KvServer KvReply KvRequest} :
      σ.group.Act kvMachine false a group none → Act servers σ (.inner a) { σ with group }
  | answer {a : Inner} {group : Group KvOp (Nat × Nat) KvServer KvReply KvRequest} {req : KvRequest} {r : KvReply} :
      σ.group.Act kvMachine false a group (some (req, r)) →
      Act servers σ (.inner a) { σ with group, replies := σ.replies ++ [(req, req.answer r)] }
  | receive {k : Nat} {req : KvRequest} {reply : KvReply} {op : KvInput} : σ.replies[k]? = some (req, reply) →
      σ.listens req = some op →
      Act servers σ (.receive k)
        (σ.setClerk req.op.clientId ((σ.clerk req.op.clientId).receive servers op reply))
  | fail {c : Nat} : Act servers σ (.fail c) (σ.setClerk c ((σ.clerk c).fail servers))

variable {servers : Nat} {σ σ' : KvSystem}

theorem act_cases {a : KvAct} (h : σ.step servers a = some σ') : Act servers σ a σ' := by
  cases a with
  | invoke c op =>
    simp only [step] at h
    split at h
    · rename_i hc
      cases h
      exact .invoke hc
    · cases h
  | send c =>
    simp only [step] at h
    split at h
    · rename_i op hc hcall
      cases h
      exact .send hc hcall
    · cases h
  | accept k index =>
    simp only [step] at h
    split at h
    · rename_i req hk
      cases h
      exact .accept (List.mem_of_getElem? hk)
    · cases h
  | refuse k =>
    simp only [step] at h
    split at h
    · rename_i req hk
      cases h
      exact .refuse (List.mem_of_getElem? hk)
    · cases h
  | inner a =>
    simp only [step] at h
    split at h
    · rename_i group hg
      cases h
      exact .inner (Group.act_cases hg)
    · rename_i group req r hg
      cases h
      exact .answer (Group.act_cases hg)
    · cases h
  | receive k =>
    simp only [step] at h
    split at h
    · rename_i req reply hk
      split at h
      · rename_i op hl
        cases h
        exact .receive hk hl
      · cases h
    · cases h
  | fail c =>
    simp only [step] at h
    split at h
    · cases h; exact .fail
    · cases h

theorem Act.log_le {a : KvAct} (h : Act servers σ a σ') : σ.group.log <+: σ'.group.log := by
  cases h with
  | inner hg => exact hg.log_le
  | answer hg => exact hg.log_le
  | _ => exact List.prefix_refl _

theorem listens_eq {req : KvRequest} {op : KvInput} (h : σ.listens req = some op) :
    (σ.clerk req.op.clientId).calling = true ∧ req.call = (σ.clerk req.op.clientId).call ∧
      (σ.clerk req.op.clientId).current = some op := by
  simp only [listens] at h
  split at h
  · rename_i hc
    exact ⟨hc.1, hc.2, h⟩
  · cases h

theorem setClerk_self (c : Nat) (ck : Clerk) : (σ.setClerk c ck).clerk c = ck :=
  Function.update_self ..

theorem setClerk_of_ne {c c' : Nat} (h : c ≠ c') (ck : Clerk) : (σ.setClerk c' ck).clerk c = σ.clerk c :=
  Function.update_of_ne h ..

theorem seqId_setClerk (c : Nat) (ck : Clerk) :
    Clerk.seqId ∘ (σ.setClerk c ck).clerk = Function.update (Clerk.seqId ∘ σ.clerk) c ck.seqId :=
  Function.comp_update ..

theorem current_setClerk (c : Nat) (ck : Clerk) :
    Clerk.current ∘ (σ.setClerk c ck).clerk = Function.update (Clerk.current ∘ σ.clerk) c ck.current :=
  Function.comp_update ..

theorem quiet_setClerk {c : Nat} {ck : Clerk} (hs : ck.seqId = (σ.clerk c).seqId)
    (hc : ck.current = (σ.clerk c).current) :
    Clerk.seqId ∘ (σ.setClerk c ck).clerk = Clerk.seqId ∘ σ.clerk ∧
      Clerk.current ∘ (σ.setClerk c ck).clerk = Clerk.current ∘ σ.clerk := by
  rw [seqId_setClerk, current_setClerk, hs, hc]
  exact ⟨Function.update_eq_self c _, Function.update_eq_self c _⟩

theorem receive_quiet {ck : Clerk} {op : KvInput} {reply : KvReply} (h : op.returns reply = none) :
    (ck.receive servers op reply).seqId = ck.seqId ∧ (ck.receive servers op reply).current = ck.current := by
  simp only [Clerk.receive, h]
  split <;> exact ⟨rfl, rfl⟩

theorem receive_returns {ck : Clerk} {op : KvInput} {reply : KvReply} {y : GoString}
    (h : op.returns reply = some y) :
    (ck.receive servers op reply).seqId = ck.seqId ∧ (ck.receive servers op reply).current = none := by
  unfold Clerk.receive
  rw [h]
  exact ⟨rfl, rfl⟩

theorem Act.idle {a : KvAct} (h : Act servers σ a σ') (he : σ.event a = none) :
    Clerk.seqId ∘ σ'.clerk = Clerk.seqId ∘ σ.clerk ∧ Clerk.current ∘ σ'.clerk = Clerk.current ∘ σ.clerk := by
  cases h with
  | invoke _ => cases he
  | send _ _ => exact quiet_setClerk rfl rfl
  | receive hk hl =>
    simp only [event, hk, hl, Option.map_eq_none_iff] at he
    exact quiet_setClerk (receive_quiet he).1 (receive_quiet he).2
  | fail => exact quiet_setClerk rfl rfl
  | _ => exact ⟨rfl, rfl⟩

theorem Act.invokes {a : KvAct} (h : Act servers σ a σ') {c n : Nat} {x : KvInput}
    (he : σ.event a = some (.invoke (c, n) x)) :
    n = (σ.clerk c).seqId + 1 ∧ (σ.clerk c).current = none ∧
      Clerk.seqId ∘ σ'.clerk = Function.update (Clerk.seqId ∘ σ.clerk) c n ∧
      Clerk.current ∘ σ'.clerk = Function.update (Clerk.current ∘ σ.clerk) c (some x) := by
  cases h with
  | invoke hc =>
    cases he
    exact ⟨rfl, hc, seqId_setClerk .., current_setClerk ..⟩
  | receive hk hl =>
    simp only [event, hk, hl, Option.map_eq_some_iff] at he
    obtain ⟨y, -, he⟩ := he
    cases he
  | _ => cases he

theorem Act.returns {a : KvAct} (h : Act servers σ a σ') {c n : Nat} {y : GoString}
    (he : σ.event a = some (.ret (c, n) y)) :
    ∃ k req reply op, a = .receive k ∧ σ.replies[k]? = some (req, reply) ∧ σ.listens req = some op ∧
      op.returns reply = some y ∧ req.op.clientId = c ∧ n = (σ.clerk c).seqId ∧
      Clerk.seqId ∘ σ'.clerk = Clerk.seqId ∘ σ.clerk ∧
      Clerk.current ∘ σ'.clerk = Function.update (Clerk.current ∘ σ.clerk) c none := by
  cases h with
  | invoke _ => cases he
  | @receive k req reply op hk hl =>
    simp only [event, hk, hl, Option.map_eq_some_iff] at he
    obtain ⟨y', hy, he⟩ := he
    cases he
    refine ⟨k, req, reply, op, rfl, hk, hl, hy, rfl, rfl, ?_, ?_⟩
    · rw [seqId_setClerk, (receive_returns hy).1]
      exact Function.update_eq_self _ _
    · rw [current_setClerk, (receive_returns hy).2]
  | _ => cases he

end KvSystem

/-! ## Clerks number their operations -/

namespace KvRun

variable {servers : Nat} (r : KvRun servers)

theorem event_some {k : Nat} {e : Event (Nat × Nat) KvInput GoString} (h : r.event k = some e) :
    ∃ a, r.act k = some a ∧ (r.state k).event a = some e := by
  unfold event at h
  cases ha : r.act k with
  | none => rw [ha] at h; cases h
  | some a => rw [ha] at h; exact ⟨a, rfl, h⟩

theorem numbered : Numbered r.event (fun k => Clerk.seqId ∘ (r.state k).clerk)
    (fun k => Clerk.current ∘ (r.state k).clerk) where
  start c := by
    simp only [r.start]
    rfl
  idle k he := by
    rcases r.next_cases k with ⟨-, heq⟩ | ⟨a, ha, hstep⟩
    · rw [heq]; exact ⟨rfl, rfl⟩
    · refine (KvSystem.act_cases hstep).idle ?_
      unfold event at he
      rwa [ha] at he
  invoke k c n x he := by
    obtain ⟨a, ha, hev⟩ := r.event_some he
    exact (KvSystem.act_cases (r.next_some ha)).invokes hev
  ret k c n y he := by
    obtain ⟨a, ha, hev⟩ := r.event_some he
    obtain ⟨_, req, _, op, -, -, hl, -, hc, hn, hseq, hcur⟩ := (KvSystem.act_cases (r.next_some ha)).returns hev
    refine ⟨hn, ?_, hseq, hcur⟩
    have := (KvSystem.listens_eq hl).2.2
    rw [hc] at this
    show ((r.state k).clerk c).current ≠ none
    rw [this]
    exact Option.some_ne_none op

end KvRun

/-! ## Where answers come from -/

/-- Requests carry operations that were invoked, commands and handlers carry
operations of requests, and replies carry answers of the log. -/
structure KvSystem.Inv (inv : Nat × Nat → KvInput → Prop) (σ : KvSystem) : Prop where
  fed : σ.group.Fed kvMachine false
  told : σ.group.Tells kvMachine kvMachine.Answered
  busy : ∀ c, (σ.clerk c).calling = true → (σ.clerk c).current ≠ none
  invoked : ∀ req ∈ σ.requests, inv req.op.ident req.op.toKvInput
  call_le : ∀ req ∈ σ.requests, req.call ≤ (σ.clerk req.op.clientId).call
  latest : ∀ req ∈ σ.requests, (σ.clerk req.op.clientId).calling = true →
    req.call = (σ.clerk req.op.clientId).call → req.op.seqId = (σ.clerk req.op.clientId).seqId
  proposed : ∀ p ∈ σ.group.proposed, ∃ req ∈ σ.requests, req.op = p.2
  calls : ∀ r ch c, (σ.group.replica r).calls ch = some c → c.tok ∈ σ.requests ∧ c.op = c.tok.op
  replies : ∀ p ∈ σ.replies, p.1 ∈ σ.requests ∧ ∃ r, p.2 = p.1.answer r ∧
    (r = kvMachine.wrongLeader ∨ r = kvMachine.timeout ∨ kvMachine.Answered σ.group.log p.1.op.ident r)

namespace KvSystem.Inv

variable {servers : Nat} {σ σ' : KvSystem} {inv inv' : Nat × Nat → KvInput → Prop}

theorem init : Inv inv KvSystem.init where
  fed := Group.fed_init
  told := Group.tells_init
  busy c h := by cases h
  invoked req h := by cases h
  call_le req h := by cases h
  latest req h := by cases h
  proposed p h := by cases h
  calls r ch c h := by cases h
  replies p h := by cases h

theorem mono (h : σ.Inv inv) (hle : ∀ id x, inv id x → inv' id x) : σ.Inv inv' :=
  { h with invoked := fun req hreq => hle _ _ (h.invoked req hreq) }

theorem setClerk (h : σ.Inv inv) {c : Nat} {ck : Clerk} (hcall : ck.call = (σ.clerk c).call)
    (hck : ck.calling = true → (σ.clerk c).calling = true ∧ ck.seqId = (σ.clerk c).seqId ∧ ck.current ≠ none) :
    (σ.setClerk c ck).Inv inv where
  fed := h.fed
  told := h.told
  busy d hd := by
    by_cases hdc : d = c
    · subst hdc
      rw [setClerk_self] at hd ⊢
      exact (hck hd).2.2
    · rw [setClerk_of_ne hdc] at hd ⊢
      exact h.busy d hd
  invoked := h.invoked
  call_le req hreq := by
    have hle := h.call_le req hreq
    by_cases hdc : req.op.clientId = c
    · rw [hdc, setClerk_self, hcall, ← hdc]; exact hle
    · rw [setClerk_of_ne hdc]; exact hle
  latest req hreq hcl heq := by
    by_cases hdc : req.op.clientId = c
    · rw [hdc, setClerk_self] at hcl heq ⊢
      obtain ⟨h1, h2, -⟩ := hck hcl
      rw [h2, ← hdc]
      exact h.latest req hreq (by rw [hdc]; exact h1) (by rw [hdc, heq, hcall])
    · rw [setClerk_of_ne hdc] at hcl heq ⊢
      exact h.latest req hreq hcl heq
  proposed := h.proposed
  calls := h.calls
  replies := h.replies

theorem send (h : σ.Inv inv) {c : Nat} {op : KvInput} (hc : (σ.clerk c).current = some op)
    (hinv : inv (c, (σ.clerk c).seqId) op) :
    ({ σ.setClerk c { σ.clerk c with calling := true, call := (σ.clerk c).call + 1 } with
      requests := σ.requests ++
        [⟨⟨op, c, (σ.clerk c).seqId⟩, (σ.clerk c).call + 1, (σ.clerk c).leaderId⟩] } : KvSystem).Inv inv where
  fed := h.fed
  told := h.told
  busy d hd := by
    simp only [KvSystem.setClerk] at hd ⊢
    by_cases hdc : d = c
    · subst hdc
      rw [Function.update_self]
      show (σ.clerk d).current ≠ none
      rw [hc]
      exact Option.some_ne_none op
    · rw [Function.update_of_ne hdc] at hd ⊢
      exact h.busy d hd
  invoked := forall_mem_snoc h.invoked hinv
  call_le := by
    refine forall_mem_snoc (fun req hreq => ?_) ?_
    · have hle := h.call_le req hreq
      simp only [KvSystem.setClerk]
      by_cases hdc : req.op.clientId = c
      · rw [hdc] at hle ⊢
        rw [Function.update_self]
        exact Nat.le_succ_of_le hle
      · rw [Function.update_of_ne hdc]; exact hle
    · simp only [KvSystem.setClerk, Function.update_self, le_refl]
  latest := by
    refine forall_mem_snoc (fun req hreq hcl heq => ?_) fun _ _ => ?_
    · simp only [KvSystem.setClerk] at hcl heq ⊢
      by_cases hdc : req.op.clientId = c
      · -- the call has a number that no earlier request has
        have hle := h.call_le req hreq
        rw [hdc] at hle
        rw [hdc, Function.update_self] at heq
        exact absurd (heq ▸ hle) (Nat.not_succ_le_self _)
      · rw [Function.update_of_ne hdc] at hcl heq ⊢
        exact h.latest req hreq hcl heq
    · simp only [KvSystem.setClerk, Function.update_self]
  proposed p hp := by
    obtain ⟨req, hreq, he⟩ := h.proposed p hp
    exact ⟨req, List.mem_append_left _ hreq, he⟩
  calls r ch c hc := by
    obtain ⟨ht, ho⟩ := h.calls r ch c hc
    exact ⟨List.mem_append_left _ ht, ho⟩
  replies p hp := by
    obtain ⟨hreq, hr⟩ := h.replies p hp
    exact ⟨List.mem_append_left _ hreq, hr⟩

theorem accept (h : σ.Inv inv) {req : KvRequest} (hreq : req ∈ σ.requests) (index : Nat) :
    ({ σ with group := σ.group.submit req.server req req.op index } : KvSystem).Inv inv where
  fed := h.fed.submit ..
  told := h.told.submit req.server req req.op index
  busy := h.busy
  invoked := h.invoked
  call_le := h.call_le
  latest := h.latest
  proposed := forall_mem_snoc h.proposed ⟨req, hreq, rfl⟩
  calls r ch c hc := by
    rcases Group.submit_calls hc with hc | rfl
    · exact h.calls r ch c hc
    · exact ⟨hreq, rfl⟩
  replies := h.replies

theorem inner (h : σ.Inv inv) {a : Inner} {group : Group KvOp (Nat × Nat) KvServer KvReply KvRequest}
    {ans : Option (KvRequest × KvReply)} (hact : σ.group.Act kvMachine false a group ans) :
    ({ σ with group } : KvSystem).Inv inv where
  fed := h.fed.act hact (h.fed.harmless a)
  told := h.told.answered h.fed hact
  busy := h.busy
  invoked := h.invoked
  call_le := h.call_le
  latest := h.latest
  proposed := by rw [hact.proposed]; exact h.proposed
  calls r ch c hc := by
    obtain ⟨c₀, hc₀, ht, ho⟩ := hact.calls hc
    rw [← ht, ← ho]
    exact h.calls r ch c₀ hc₀
  replies p hp := by
    obtain ⟨hreq, r, hans, hr⟩ := h.replies p hp
    refine ⟨hreq, r, hans, hr.imp_right fun hr => hr.imp_right fun hr => hr.mono hact.log_le⟩

theorem addReply (h : σ.Inv inv) {req : KvRequest} (hreq : req ∈ σ.requests) {r : KvReply}
    (hr : r = kvMachine.wrongLeader ∨ r = kvMachine.timeout ∨ kvMachine.Answered σ.group.log req.op.ident r) :
    ({ σ with replies := σ.replies ++ [(req, req.answer r)] } : KvSystem).Inv inv :=
  { h with replies := forall_mem_snoc h.replies ⟨hreq, r, rfl, hr⟩ }

theorem act (h : σ.Inv inv) {a : KvAct} (hact : KvSystem.Act servers σ a σ')
    (hcur : ∀ c op, (σ.clerk c).current = some op → inv (c, (σ.clerk c).seqId) op) : σ'.Inv inv := by
  cases hact with
  | @invoke c op hc =>
    refine h.setClerk rfl fun hcl => ?_
    exact absurd hc (h.busy c hcl)
  | send hc _ => exact h.send hc (hcur _ _ hc)
  | accept hreq => exact h.accept hreq _
  | refuse hreq => exact h.addReply hreq (Or.inl rfl)
  | inner hg => exact h.inner hg
  | answer hg =>
    obtain ⟨r, ch, c, hc, rfl, hst⟩ := hg.answer
    obtain ⟨ht, ho⟩ := h.calls r ch c hc
    refine (h.inner hg).addReply ht ?_
    have := (h.told r).returning ch c _ hc hst
    rw [ho] at this
    exact this.imp_right fun hr => hr.imp_right fun hr => hr.mono hg.log_le
  | @receive k req reply op hk hl =>
    refine h.setClerk ?_ fun hcl => ?_
    · unfold Clerk.receive
      cases op.returns reply with
      | some y => rfl
      | none => dsimp only; split <;> rfl
    · exfalso
      unfold Clerk.receive at hcl
      cases hy : op.returns reply with
      | some y => rw [hy] at hcl; cases hcl
      | none =>
        rw [hy] at hcl
        dsimp only at hcl
        split at hcl <;> cases hcl
  | fail => exact h.setClerk rfl fun hcl => by cases hcl

end KvSystem.Inv

namespace KvRun

variable {servers : Nat} (r : KvRun servers)

theorem inv (k : Nat) : (r.state k).Inv (InvokedBefore r.event k) := by
  have hle : ∀ k id x, InvokedBefore r.event k id x → InvokedBefore r.event (k + 1) id x :=
    fun k id x h => h.mono (Nat.le_succ k)
  refine Run.induction r (P := fun k σ => σ.Inv (InvokedBefore r.event k)) .init (fun k _ h => h.mono (hle k)) ?_ k
  intro k a _ h hstep
  exact (h.act (KvSystem.act_cases hstep) fun c op hc => r.numbered.current hc).mono (hle k)

def executed (k : Nat) : List (Done (Nat × Nat) KvInput GoString) :=
  KvServer.init.executed (r.state k).group.log

theorem log_le (k : Nat) : (r.state k).group.log <+: (r.state (k + 1)).group.log := by
  rcases r.next_cases k with ⟨-, heq⟩ | ⟨a, ha, hstep⟩
  · simp only [heq, List.prefix_refl]
  · exact (KvSystem.act_cases hstep).log_le

theorem logged_invoked {k : Nat} {op : KvOp} (h : op ∈ (r.state k).group.log) :
    InvokedBefore r.event k op.ident op.toKvInput := by
  have hinv := r.inv k
  obtain ⟨p, hp, he⟩ := List.getElem_of_mem h
  have hlog := hinv.fed.logged p op (by rw [← he]; exact List.getElem?_eq_getElem hp)
  obtain ⟨req, hreq, rfl⟩ : ∃ req ∈ (r.state k).requests, req.op = op := hinv.proposed _ hlog
  exact hinv.invoked req hreq

theorem executed_invoked {k : Nat} {d : Done (Nat × Nat) KvInput GoString} (h : d ∈ r.executed k) :
    InvokedBefore r.event k d.id d.input := by
  obtain ⟨op, hop, hid, hin⟩ := (KvServer.recorded _).logged d h
  rw [hid, hin]
  exact r.logged_invoked hop

/-- What the log gives to a command of the open call, if the clerk returns it, is
the answer of an execution. -/
theorem replied_executed {k p : Nat} {op : KvOp} {y : GoString} (hp : (r.state k).group.log[p]? = some op)
    (hn : op.seqId = ((r.state k).clerk op.clientId).seqId)
    (hret : op.toKvInput.returns ((KvServer.init.run ((r.state k).group.log.take p)).apply op).2 = some y) :
    ∃ d ∈ r.executed k, d.id = op.ident ∧ d.output = y := by
  cases hdup : (KvServer.init.run ((r.state k).group.log.take p)).duplicate op with
  | none =>
    rw [KvServer.apply_of_fresh hdup] at hret
    exact ⟨_, KvServer.mem_executed hp hdup, rfl, (Store.returns_applyOp hret).symm⟩
  | some reply =>
    -- the table has a write of this client with this number: a later one it has not invoked
    obtain ⟨last, hlast, hle⟩ := KvServer.duplicate_eq_some hdup
    obtain ⟨d, hd, hdid, hdw⟩ := (KvServer.recorded _).origin _ _ hlast
    have hd' : d ∈ r.executed k := KvServer.executed_take hd
    have hdi := r.executed_invoked hd'
    rw [hdid] at hdi
    have hmax : last.seqId ≤ ((r.state k).clerk op.clientId).seqId := r.numbered.invoked_le hdi
    have hid : d.id = op.ident := by
      rw [hdid]
      exact Prod.ext rfl (show last.seqId = op.seqId by omega)
    rw [← hdid, hid] at hdi
    have hdx : d.input = op.toKvInput := r.numbered.unique hdi (r.logged_invoked (List.mem_of_getElem? hp))
    exact ⟨d, hd', hid, by rw [KvServer.executed_write hd' hdw, KvInput.returns_write (hdx ▸ hdw) hret]⟩

theorem answered {k : Nat} {id : Nat × Nat} {y : GoString} (he : r.event k = some (.ret id y)) :
    ∃ d ∈ r.executed k, d.id = id ∧ d.output = y := by
  obtain ⟨a, ha, hev⟩ := r.event_some he
  obtain ⟨i, req, reply, x, -, hreply, hl, hy, hc, hn, -, -⟩ :=
    (KvSystem.act_cases (r.next_some ha)).returns (c := id.1) (n := id.2) hev
  have hinv := r.inv k
  obtain ⟨hcalling, hcall, hcur⟩ := KvSystem.listens_eq hl
  obtain ⟨hreq, res, hans, hres⟩ : req ∈ (r.state k).requests ∧ ∃ res, reply = req.answer res ∧
      (res = kvMachine.wrongLeader ∨ res = kvMachine.timeout ∨
        kvMachine.Answered (r.state k).group.log req.op.ident res) :=
    hinv.replies _ (List.mem_of_getElem? hreply)
  -- the reply answers the open call
  have hid : req.op.ident = id := by
    have := hinv.latest req hreq hcalling hcall
    rw [hc] at this
    exact Prod.ext hc (this.trans hn.symm)
  have hx : req.op.toKvInput = x := by
    refine r.numbered.unique (hinv.invoked req hreq) ?_
    have := r.numbered.current (k := k) (c := req.op.clientId) (x := x) hcur
    rwa [show (req.op.clientId, (Clerk.seqId ∘ (r.state k).clerk) req.op.clientId) = req.op.ident from
      Prod.ext rfl (hinv.latest req hreq hcalling hcall).symm] at this
  have hret : x.returns res = some y := by rw [← hy, hans, ← hx]; exact req.returns_answer res
  rcases hres with rfl | rfl | ⟨p, op, hp, hop, rfl⟩
  · rcases KvInput.returns_err hret with h | h <;> cases h
  · rcases KvInput.returns_err hret with h | h <;> cases h
  have hop' : op.ident = id := hop.trans hid
  have hin : op.toKvInput = x := by
    rw [← hx]
    have hinvoked := r.logged_invoked (List.mem_of_getElem? hp)
    rw [hop', ← hid] at hinvoked
    exact r.numbered.unique hinvoked (hinv.invoked req hreq)
  rw [← hin] at hret
  rw [← hop']
  refine r.replied_executed hp ?_ hret
  rw [show op.seqId = id.2 from congrArg Prod.snd hop', show op.clientId = id.1 from congrArg Prod.fst hop', hn]

theorem executes : Executes kvModel (fun x => x.opType = .get) r.event r.executed where
  reads _ := kvModel_reads
  grow k := by
    obtain ⟨rest, hrest⟩ := r.log_le k
    unfold executed
    rw [← hrest, KvServer.executed_append]
    exact List.prefix_append _ _
  legal k := KvServer.legal_executed KvServer.init _
  invoked k d hd := r.executed_invoked hd
  fresh k id x he d hd hid := r.numbered.fresh he (hid ▸ r.executed_invoked hd)
  once k := KvServer.pairwise_executed fun a ha b hb hab =>
    r.numbered.unique (r.logged_invoked ha) (hab ▸ r.logged_invoked hb)
  answered k id y he := r.answered he
  returns j k id y z hj hk := r.numbered.returns hj hk

end KvRun

/-- Every call of a clerk has a number of its own, and the history of the calls
is linearizable: there is one order, taken from the executions in the log, in
which every operation stands at most once. -/
theorem kvraft_linearizable {servers : Nat} (r : KvRun servers) (K : Nat) :
    (∀ j k id x y, r.event j = some (.invoke id x) → r.event k = some (.invoke id y) → j = k) ∧
      ∃ l, Linearization kvModel r.event K l := by
  obtain ⟨l, -, -, hl⟩ := r.executes.linearization K
  exact ⟨fun j k id x y hj hk => r.numbered.invoke_unique hj hk, l, hl⟩

/-- Client 7 appends to a key. Its first call is lost after server 0 has started
the command, the second one goes to server 1; both copies are committed, and
the handler of the second one gets its answer from the table. A `Get` follows. -/
def retriedAppendActs (key value : GoString) : List KvAct :=
  [.invoke 7 ⟨.append, key, value⟩, .send 7, .accept 0 1, .fail 7, .send 7, .accept 1 2,
   .inner (.register 1 0), .inner (.commit 0), .inner (.commit 1), .inner (.collect 1 2),
   .inner (.apply 1 false), .inner (.apply 1 true), .inner (.notify 1), .inner (.receive 1 0),
   .inner (.finish 1 0), .receive 0,
   .invoke 7 ⟨.get, key, []⟩, .send 7, .accept 2 3, .inner (.register 1 1), .inner (.commit 2),
   .inner (.collect 1 3), .inner (.apply 1 false), .inner (.notify 1), .inner (.receive 1 1),
   .inner (.finish 1 1), .receive 1]

theorem retriedAppend_exec :
    (exec (KvSystem.step 3) KvSystem.init (retriedAppendActs [107] [120])).isSome = true := by decide +kernel

def retriedAppend : KvRun 3 := Run.ofList (retriedAppendActs [107] [120]) (Option.some_get retriedAppend_exec).symm

theorem retriedAppend_linearizable :
    retriedAppend.event 15 = some (.ret (7, 1) []) ∧ retriedAppend.event 26 = some (.ret (7, 2) [120]) ∧
      ∃ l, Linearization kvModel retriedAppend.event 27 l :=
  ⟨by decide +kernel, by decide +kernel, (kvraft_linearizable retriedAppend 27).2⟩

end DistLab
