import DistLab.Shard.Answers

/-!
# What clerks get

A clerk has one operation at a time and gives each its own number. A request
carries an operation that was invoked, and a reply that is not a refusal carries
what the log of the asked group gave to the command of the request.
-/

namespace DistLab

def ShardClerk.Calling (ck : ShardClerk) : Prop :=
  match ck.stage with
  | .calling _ _ _ _ => True
  | _ => False

theorem ShardRequest.returns_answer (req : ShardRequest) (r : KvReply) :
    req.op.returns r = req.op.returns (req.answer r) := by
  unfold answer
  split
  · rfl
  · rename_i hop
    exact (KvInput.returns_of_err hop r).symm

namespace ShardSystem

variable {configs : Nat → Config Nat} {overtakes : Bool} {σ σ' : ShardSystem}

theorem listens_eq {req : ShardRequest} {gid : Int} {servers : List Nat} {si i : Nat} {op : KvInput}
    (h : σ.listens req = some (gid, servers, si, i, op)) : (σ.clerk req.clientId).Calling ∧
      req.call = (σ.clerk req.clientId).call ∧ (σ.clerk req.clientId).current = some op := by
  simp only [listens] at h
  split at h
  · rename_i hst hc
    split at h
    · rename_i hcall
      cases h
      exact ⟨by rw [ShardClerk.Calling, hst]; trivial, hcall, hc⟩
    · cases h
  · cases h

/-! ## Clerks number their operations -/

theorem setClerk_self (c : Nat) (ck : ShardClerk) : (σ.setClerk c ck).clerk c = ck :=
  Function.update_self ..

theorem setClerk_of_ne {c c' : Nat} (h : c ≠ c') (ck : ShardClerk) : (σ.setClerk c' ck).clerk c = σ.clerk c :=
  Function.update_of_ne h ..

theorem seqId_setClerk (c : Nat) (ck : ShardClerk) :
    ShardClerk.seqId ∘ (σ.setClerk c ck).clerk = Function.update (ShardClerk.seqId ∘ σ.clerk) c ck.seqId :=
  Function.comp_update ..

theorem current_setClerk (c : Nat) (ck : ShardClerk) :
    ShardClerk.current ∘ (σ.setClerk c ck).clerk = Function.update (ShardClerk.current ∘ σ.clerk) c ck.current :=
  Function.comp_update ..

theorem quiet_setClerk {c : Nat} {ck : ShardClerk} (hs : ck.seqId = (σ.clerk c).seqId)
    (hc : ck.current = (σ.clerk c).current) :
    ShardClerk.seqId ∘ (σ.setClerk c ck).clerk = ShardClerk.seqId ∘ σ.clerk ∧
      ShardClerk.current ∘ (σ.setClerk c ck).clerk = ShardClerk.current ∘ σ.clerk := by
  rw [seqId_setClerk, current_setClerk, hs, hc]
  exact ⟨Function.update_eq_self c _, Function.update_eq_self c _⟩

@[simp] theorem reply_clerk (tok : ShardTok) (r : KvReply) : (σ.reply tok r).clerk = σ.clerk := by
  cases tok with
  | client req => rfl
  | gc req =>
    simp only [reply]
    split <;> rfl

section
variable {ck : ShardClerk} {gid : Int} {servers : List Nat} {si i : Nat} {op : KvInput} {answer : KvReply}

theorem lookup_quiet : (ck.lookup op).seqId = ck.seqId ∧ (ck.lookup op).current = ck.current ∧
    (ck.lookup op).call = ck.call ∧ ¬ (ck.lookup op).Calling := by
  simp only [ShardClerk.lookup]
  split <;> exact ⟨rfl, rfl, rfl, fun h => h⟩

theorem receive_seqId : (ck.receive gid servers si i op answer).seqId = ck.seqId ∧
    (ck.receive gid servers si i op answer).call = ck.call ∧ ¬ (ck.receive gid servers si i op answer).Calling := by
  simp only [ShardClerk.receive]
  split
  · exact ⟨rfl, rfl, fun h => h⟩
  · split <;> exact ⟨rfl, rfl, fun h => h⟩

theorem receive_quiet (h : op.returns answer = none) :
    (ck.receive gid servers si i op answer).current = ck.current := by
  simp only [ShardClerk.receive, h]
  split <;> rfl

theorem receive_returns {y : GoString} (h : op.returns answer = some y) :
    (ck.receive gid servers si i op answer).current = none := by
  simp only [ShardClerk.receive, h]

end

theorem Act.idle {a : ShardAct} (h : Act configs overtakes σ a σ') (he : σ.event a = none) :
    ShardClerk.seqId ∘ σ'.clerk = ShardClerk.seqId ∘ σ.clerk ∧
      ShardClerk.current ∘ σ'.clerk = ShardClerk.current ∘ σ.clerk := by
  cases h with
  | invoke _ => cases he
  | lookup _ _ => exact quiet_setClerk lookup_quiet.1 lookup_quiet.2.1
  | call _ _ => exact quiet_setClerk rfl rfl
  | exhausted => exact quiet_setClerk rfl rfl
  | receive hk hl =>
    simp only [event, hk, hl, Option.map_eq_none_iff] at he
    exact quiet_setClerk receive_seqId.1 (receive_quiet he)
  | fail => exact quiet_setClerk rfl rfl
  | query => exact quiet_setClerk rfl rfl
  | answer _ => rw [reply_clerk]; exact ⟨rfl, rfl⟩
  | _ => exact ⟨rfl, rfl⟩

theorem Act.invokes {a : ShardAct} (h : Act configs overtakes σ a σ') {c n : Nat} {x : KvInput}
    (he : σ.event a = some (.invoke (c, n) x)) :
    n = (σ.clerk c).seqId + 1 ∧ (σ.clerk c).current = none ∧
      ShardClerk.seqId ∘ σ'.clerk = Function.update (ShardClerk.seqId ∘ σ.clerk) c n ∧
      ShardClerk.current ∘ σ'.clerk = Function.update (ShardClerk.current ∘ σ.clerk) c (some x) := by
  cases h with
  | invoke hc =>
    cases he
    exact ⟨rfl, hc, seqId_setClerk .., current_setClerk ..⟩
  | receive hk hl =>
    simp only [event, hk, hl, Option.map_eq_some_iff] at he
    obtain ⟨y, -, he⟩ := he
    cases he
  | _ => cases he

theorem Act.returns {a : ShardAct} (h : Act configs overtakes σ a σ') {c n : Nat} {y : GoString}
    (he : σ.event a = some (.ret (c, n) y)) :
    ∃ k req reply gid servers si i op, a = .receive k ∧ σ.replies[k]? = some (req, reply) ∧
      σ.listens req = some (gid, servers, si, i, op) ∧ op.returns reply = some y ∧ req.clientId = c ∧
      n = (σ.clerk c).seqId ∧ ShardClerk.seqId ∘ σ'.clerk = ShardClerk.seqId ∘ σ.clerk ∧
      ShardClerk.current ∘ σ'.clerk = Function.update (ShardClerk.current ∘ σ.clerk) c none := by
  cases h with
  | invoke _ => cases he
  | @receive k req reply gid servers si i op hk hl =>
    simp only [event, hk, hl, Option.map_eq_some_iff] at he
    obtain ⟨y', hy, he⟩ := he
    cases he
    refine ⟨k, req, reply, gid, servers, si, i, op, rfl, hk, hl, hy, rfl, rfl, ?_, ?_⟩
    · rw [seqId_setClerk, receive_seqId.1]
      exact Function.update_eq_self _ _
    · rw [current_setClerk, receive_returns hy]
  | _ => cases he

/-! ## Where replies come from -/

def Sound (σ : ShardSystem) (req : ShardRequest) (r : KvReply) : Prop :=
  r.err = .errWrongLeader ∨ r.err = .errTimeout ∨
    Replied req.gid (σ.logs req.gid) (.kv req.clientId req.seqId req.op) r

structure Clerks (inv : Nat × Nat → KvInput → Prop) (σ : ShardSystem) : Prop where
  invoked : ∀ req ∈ σ.requests, inv (req.clientId, req.seqId) req.op
  call_le : ∀ req ∈ σ.requests, req.call ≤ (σ.clerk req.clientId).call
  latest : ∀ req ∈ σ.requests, (σ.clerk req.clientId).Calling → req.call = (σ.clerk req.clientId).call →
    req.seqId = (σ.clerk req.clientId).seqId
  proposed : ∀ gid, ∀ p ∈ (σ.group gid).proposed, ∀ c s op, p.2.cmd = .kv c s op → inv (c, s) op
  calls : ∀ gid r ch c req, ((σ.group gid).replica r).calls ch = some c → c.tok = .client req → req ∈ σ.requests
  replies : ∀ p ∈ σ.replies, p.1 ∈ σ.requests ∧ ∃ r, p.2 = p.1.answer r ∧ σ.Sound p.1 r

namespace Clerks

variable {inv inv' : Nat × Nat → KvInput → Prop}

theorem init : ShardSystem.init.Clerks inv where
  invoked _ h := by cases h
  call_le _ h := by cases h
  latest _ h := by cases h
  proposed _ _ h := by cases h
  calls _ _ _ _ _ h := by cases h
  replies _ h := by cases h

theorem mono (h : σ.Clerks inv) (hle : ∀ id x, inv id x → inv' id x) : σ.Clerks inv' :=
  { h with
    invoked := fun req hreq => hle _ _ (h.invoked req hreq)
    proposed := fun gid p hp c s op hcmd => hle _ _ (h.proposed gid p hp c s op hcmd) }

theorem setClerk (h : σ.Clerks inv) {c : Nat} {ck : ShardClerk} (hcall : ck.call = (σ.clerk c).call)
    (hck : ¬ ck.Calling) : (σ.setClerk c ck).Clerks inv :=
  { h with
    call_le := fun req hreq => by
      have hle := h.call_le req hreq
      by_cases hc : req.clientId = c
      · rw [hc, setClerk_self, hcall, ← hc]; exact hle
      · rw [setClerk_of_ne hc]; exact hle
    latest := fun req hreq hcl heq => by
      by_cases hc : req.clientId = c
      · rw [hc, setClerk_self] at hcl
        exact absurd hcl hck
      · rw [setClerk_of_ne hc] at hcl heq ⊢
        exact h.latest req hreq hcl heq }

theorem call (h : σ.Clerks inv) {c : Nat} {op : KvInput} {gid : Int} {servers : List Nat} {si i server : Nat}
    (hinv : inv (c, (σ.clerk c).seqId) op) :
    ({ σ.setClerk c { σ.clerk c with stage := .calling gid servers si i, call := (σ.clerk c).call + 1 } with
      requests := σ.requests ++ [⟨gid, server, c, (σ.clerk c).seqId, op, (σ.clerk c).call + 1⟩] } :
        ShardSystem).Clerks inv where
  invoked := forall_mem_snoc h.invoked hinv
  call_le := by
    refine forall_mem_snoc (fun req hreq => ?_) ?_
    · have hle := h.call_le req hreq
      simp only [ShardSystem.setClerk]
      by_cases hc : req.clientId = c
      · rw [hc] at hle ⊢
        rw [Function.update_self]
        exact Nat.le_succ_of_le hle
      · rw [Function.update_of_ne hc]; exact hle
    · simp only [ShardSystem.setClerk, Function.update_self, le_refl]
  latest := by
    refine forall_mem_snoc (fun req hreq hcl heq => ?_) fun _ _ => ?_
    · simp only [ShardSystem.setClerk] at hcl heq ⊢
      by_cases hc : req.clientId = c
      · -- the call has a number that no earlier request has
        have hle := h.call_le req hreq
        rw [hc] at hle
        rw [hc, Function.update_self] at heq
        exact absurd (heq ▸ hle) (Nat.not_succ_le_self _)
      · rw [Function.update_of_ne hc] at hcl heq ⊢
        exact h.latest req hreq hcl heq
    · simp only [ShardSystem.setClerk, Function.update_self]
  proposed := h.proposed
  calls gid r ch c req hc ht := List.mem_append_left _ (h.calls gid r ch c req hc ht)
  replies p hp := ⟨List.mem_append_left _ (h.replies p hp).1, (h.replies p hp).2⟩

theorem setGroup (h : σ.Clerks inv) {gid : Int} {g : ShardGroup} (hlog : σ.logs gid <+: g.log)
    (hp : ∀ p ∈ g.proposed, ∀ c s op, p.2.cmd = .kv c s op → inv (c, s) op)
    (hc : ∀ r ch c req, (g.replica r).calls ch = some c → c.tok = .client req → req ∈ σ.requests) (nextId : Nat) :
    ({ σ.setGroup gid g with nextId } : ShardSystem).Clerks inv :=
  { h with
    proposed := forall_setGroup (P := fun _ G => ∀ p ∈ G.proposed, ∀ c s op, p.2.cmd = .kv c s op → inv (c, s) op)
      h.proposed hp
    calls := forall_setGroup (P := fun _ G => ∀ r ch c req, (G.replica r).calls ch = some c → c.tok = .client req →
      req ∈ σ.requests) h.calls hc
    replies := fun p hp => by
      obtain ⟨hreq, r, hans, hr⟩ := h.replies p hp
      exact ⟨hreq, r, hans, hr.imp_right fun hr => hr.imp_right fun hr => hr.mono (logs_le_setGroup hlog _)⟩ }

theorem start (h : σ.Clerks inv) (gid : Int) {cmd : ShardCmd} (index : Nat)
    (hcmd : ∀ c s op, cmd = .kv c s op → inv (c, s) op) : (σ.start gid cmd index).Clerks inv :=
  h.setGroup (g := (σ.group gid).propose ⟨σ.nextId, cmd⟩ index) List.prefix_rfl
    (forall_mem_snoc (h.proposed gid) hcmd) (h.calls gid) _

theorem submitOp (h : σ.Clerks inv) (gid : Int) {r index : Nat} {tok : ShardTok} {cmd : ShardCmd}
    (hcmd : ∀ c s op, cmd = .kv c s op → inv (c, s) op) (htok : ∀ req, tok = .client req → req ∈ σ.requests) :
    (σ.submitOp gid r tok cmd index).Clerks inv := by
  refine h.setGroup (g := (σ.group gid).submit r tok ⟨σ.nextId, cmd⟩ index) List.prefix_rfl
    (forall_mem_snoc (h.proposed gid) hcmd) (fun q ch c req hc ht => ?_) _
  rcases Group.submit_calls hc with hc | rfl
  · exact h.calls gid q ch c req hc ht
  · exact htok req ht

theorem inner (h : σ.Clerks inv) {gid : Int} {a : Inner} {g : ShardGroup} {ans : Option (ShardTok × KvReply)}
    (hact : (σ.group gid).Act (shardMachine gid) overtakes a g ans) : (σ.setGroup gid g).Clerks inv := by
  refine h.setGroup hact.log_le (by rw [hact.proposed]; exact h.proposed gid) (fun r ch c req hc ht => ?_) σ.nextId
  obtain ⟨c₀, hc₀, ht₀, -⟩ := hact.calls hc
  exact h.calls gid r ch c₀ req hc₀ (ht₀.trans ht)

theorem reply (h : σ.Clerks inv) {tok : ShardTok} {r : KvReply}
    (htok : ∀ req, tok = .client req → req ∈ σ.requests ∧ σ.Sound req r) : (σ.reply tok r).Clerks inv := by
  cases tok with
  | client req =>
    exact { h with replies := forall_mem_snoc h.replies ⟨(htok req rfl).1, r, rfl, (htok req rfl).2⟩ }
  | gc req =>
    simp only [ShardSystem.reply]
    split
    · exact { h with }
    · exact h

theorem act (h : σ.Clerks inv) (hans : σ.AnswersInPlace) (hfed : ∀ gid, (σ.group gid).Fed (shardMachine gid) false)
    {a : ShardAct} (hact : Act configs false σ a σ')
    (hcur : ∀ c op, (σ.clerk c).current = some op → inv (c, (σ.clerk c).seqId) op) : σ'.Clerks inv := by
  cases hact with
  | invoke _ => exact h.setClerk rfl fun h => h
  | lookup _ _ => exact h.setClerk lookup_quiet.2.2.1 lookup_quiet.2.2.2
  | call hc _ => exact h.call (hcur _ _ hc)
  | exhausted => exact h.setClerk rfl fun h => h
  | receive _ _ => exact h.setClerk receive_seqId.2.1 receive_seqId.2.2
  | fail => exact h.setClerk rfl fun h => h
  | query => exact h.setClerk rfl fun h => h
  | accept hreq _ =>
    refine h.submitOp _ (fun c s op hcmd => ?_) fun req ht => ?_
    · cases hcmd
      exact h.invoked _ hreq
    · cases ht
      exact hreq
  | refuse hreq =>
    refine h.reply fun req ht => ?_
    cases ht
    exact ⟨hreq, Or.inl rfl⟩
  | inner hg => exact h.inner hg
  | @answer gid _ g tok r hg =>
    refine (h.inner hg).reply fun req ht => ?_
    obtain ⟨q, ch, c, hc, rfl, -⟩ := hg.answer
    obtain ⟨hgid, hr⟩ := hans.answer hfed hg
    rw [ht] at hgid hr
    obtain rfl : req.gid = gid := hgid
    exact ⟨h.calls _ q ch c req hc ht,
      hr.imp_right fun hr => hr.imp_right fun hr => hr.mono (logs_le_setGroup hg.log_le _)⟩
  | startConfig _ => exact h.start _ _ fun c s op hcmd => by cases hcmd
  | startInstall _ => exact h.start _ _ fun c s op hcmd => by cases hcmd
  | gcSubmit _ => exact h.submitOp _ (fun c s op hcmd => by cases hcmd) fun req ht => by cases ht
  | startGC _ => exact h.start _ _ fun c s op hcmd => by cases hcmd
  | _ => exact { h with }

end Clerks

end ShardSystem

end DistLab
