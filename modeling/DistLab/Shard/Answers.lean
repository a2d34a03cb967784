import DistLab.Shard.Epoch
import DistLab.Shard.Spec

/-!
# What a handler answers

Every command has an identity of its own. So a handler that does not give up
was told of the very command it had started: that it is in the log, and when
nothing overtakes, what the log gave to it.
-/

namespace DistLab

def ShardTok.gid : ShardTok → Int
  | .client req => req.gid
  | .gc req => req.src

def ShardTok.cmd : ShardTok → ShardCmd
  | .client req => .kv req.clientId req.seqId req.op
  | .gc req => .gc req.configNum req.shardIds

def Replied (gid : Int) (log : List ShardOp) (cmd : ShardCmd) (r : KvReply) : Prop :=
  (shardMachine gid).Took log fun op kv => op.cmd = cmd ∧ (kv.apply gid op).2 = r

theorem Replied.mono {gid : Int} {log log' : List ShardOp} {cmd : ShardCmd} {r : KvReply}
    (h : Replied gid log cmd r) (hle : log <+: log') : Replied gid log' cmd r := Machine.Took.mono hle h

namespace ShardSystem

/-- `A` says of every log which answers it gives. -/
structure Answers (A : Int → List ShardOp → Nat → KvReply → Prop) (σ : ShardSystem) : Prop where
  tells : ∀ gid, (σ.group gid).Tells (shardMachine gid) (A gid)
  fresh : ∀ gid, ∀ p ∈ (σ.group gid).proposed, p.2.internalId < σ.nextId
  unique : ∀ gid, ∀ p ∈ (σ.group gid).proposed, ∀ q ∈ (σ.group gid).proposed,
    p.2.internalId = q.2.internalId → p.2 = q.2
  calls : ∀ gid r ch c, ((σ.group gid).replica r).calls ch = some c →
    c.tok.gid = gid ∧ c.op.cmd = c.tok.cmd ∧ ∃ n, (n, c.op) ∈ (σ.group gid).proposed

namespace Answers

variable {configs : Nat → Config Nat} {overtakes : Bool} {σ σ' : ShardSystem}
  {A : Int → List ShardOp → Nat → KvReply → Prop}

theorem init : ShardSystem.init.Answers A where
  tells _ := Group.tells_init
  fresh _ _ h := by cases h
  unique _ _ h := by cases h
  calls _ _ _ _ h := by cases h

theorem frame (h : σ.Answers A) (hg : σ'.group = σ.group) (hn : σ'.nextId = σ.nextId) : σ'.Answers A :=
  ⟨by rw [hg]; exact h.tells, by rw [hg, hn]; exact h.fresh, by rw [hg]; exact h.unique, by rw [hg]; exact h.calls⟩

theorem propose (h : σ.Answers A) {gid : Int} {g : ShardGroup} {cmd : ShardCmd} {index : Nat}
    (hp : g.proposed = (σ.group gid).proposed ++ [(index, ⟨σ.nextId, cmd⟩)]) (htells : g.Tells (shardMachine gid) (A gid))
    (hcalls : ∀ r ch c, (g.replica r).calls ch = some c →
      c.tok.gid = gid ∧ c.op.cmd = c.tok.cmd ∧ ∃ n, (n, c.op) ∈ g.proposed) :
    ({ σ.setGroup gid g with nextId := σ.nextId + 1 } : ShardSystem).Answers A where
  tells := forall_setGroup h.tells htells
  fresh := by
    refine forall_setGroup (P := fun _ G => ∀ p ∈ G.proposed, p.2.internalId < σ.nextId + 1)
      (fun gid p hp => Nat.lt_succ_of_lt (h.fresh gid p hp)) ?_
    intro p hmem
    rw [hp] at hmem
    rcases List.mem_append.mp hmem with hmem | hmem
    · exact Nat.lt_succ_of_lt (h.fresh gid p hmem)
    · rw [List.mem_singleton.mp hmem]; exact Nat.lt_succ_self _
  unique := by
    refine forall_setGroup (P := fun _ G => ∀ p ∈ G.proposed, ∀ q ∈ G.proposed,
      p.2.internalId = q.2.internalId → p.2 = q.2) h.unique ?_
    intro p hmem q hmem' heq
    rw [hp] at hmem hmem'
    rcases List.mem_append.mp hmem with hmem | hmem <;> rcases List.mem_append.mp hmem' with hmem' | hmem'
    · exact h.unique gid p hmem q hmem' heq
    · have := h.fresh gid p hmem
      rw [heq, List.mem_singleton.mp hmem'] at this
      exact absurd this (Nat.lt_irrefl _)
    · have := h.fresh gid q hmem'
      rw [← heq, List.mem_singleton.mp hmem] at this
      exact absurd this (Nat.lt_irrefl _)
    · rw [List.mem_singleton.mp hmem, List.mem_singleton.mp hmem']
  calls := forall_setGroup (P := fun gid G => ∀ r ch c, (G.replica r).calls ch = some c →
    c.tok.gid = gid ∧ c.op.cmd = c.tok.cmd ∧ ∃ n, (n, c.op) ∈ G.proposed) h.calls hcalls

theorem start (h : σ.Answers A) (gid : Int) (cmd : ShardCmd) (index : Nat) : (σ.start gid cmd index).Answers A := by
  refine h.propose (g := (σ.group gid).propose ⟨σ.nextId, cmd⟩ index) rfl (h.tells gid) fun r ch c hc => ?_
  obtain ⟨hgid, hcmd, n, hn⟩ := h.calls gid r ch c hc
  exact ⟨hgid, hcmd, n, List.mem_append_left _ hn⟩

theorem submitOp (h : σ.Answers A) (tok : ShardTok) (r index : Nat) :
    (σ.submitOp tok.gid r tok tok.cmd index).Answers A := by
  refine h.propose (g := (σ.group tok.gid).submit r tok ⟨σ.nextId, tok.cmd⟩ index) rfl
    ((h.tells _).submit r tok _ index) fun q ch c hc => ?_
  rcases Group.submit_calls hc with hc | rfl
  · obtain ⟨hgid, hcmd, n, hn⟩ := h.calls tok.gid q ch c hc
    exact ⟨hgid, hcmd, n, List.mem_append_left _ hn⟩
  · exact ⟨rfl, rfl, index, List.mem_append_right _ (List.mem_singleton_self _)⟩

theorem inner (h : σ.Answers A)
    (hmono : ∀ {gid log log' id r}, log <+: log' → A gid log id r → A gid log' id r) {gid : Int} {a : Inner}
    {g : ShardGroup} {ans : Option (ShardTok × KvReply)} (hact : (σ.group gid).Act (shardMachine gid) overtakes a g ans)
    (hnew : ∀ r j q op, ((σ.group gid).replica r).queue = j :: q → (σ.group gid).log[j - 1]? = some op →
      A gid (σ.group gid).log op.internalId ((σ.replica gid r).apply gid op).2) : (σ.setGroup gid g).Answers A where
  tells := forall_setGroup h.tells ((h.tells gid).act hmono hact hnew)
  fresh := forall_setGroup (P := fun _ G => ∀ p ∈ G.proposed, p.2.internalId < σ.nextId) h.fresh
    (by rw [hact.proposed]; exact h.fresh gid)
  unique := forall_setGroup (P := fun _ G => ∀ p ∈ G.proposed, ∀ q ∈ G.proposed,
    p.2.internalId = q.2.internalId → p.2 = q.2) h.unique (by rw [hact.proposed]; exact h.unique gid)
  calls := by
    refine forall_setGroup (P := fun gid G => ∀ r ch c, (G.replica r).calls ch = some c →
      c.tok.gid = gid ∧ c.op.cmd = c.tok.cmd ∧ ∃ n, (n, c.op) ∈ G.proposed) h.calls fun r ch c hc => ?_
    obtain ⟨c₀, hc₀, ht, ho⟩ := hact.calls hc
    rw [← ht, ← ho, hact.proposed]
    exact h.calls gid r ch c₀ hc₀

theorem answer (h : σ.Answers A) {gid : Int} {a : Inner} {g : ShardGroup} {tok : ShardTok} {r : KvReply}
    (hact : (σ.group gid).Act (shardMachine gid) overtakes a g (some (tok, r))) :
    tok.gid = gid ∧ (r.err = .errWrongLeader ∨ r.err = .errTimeout ∨
      ∃ n op, (n, op) ∈ (σ.group gid).proposed ∧ op.cmd = tok.cmd ∧ A gid (σ.logs gid) op.internalId r) := by
  obtain ⟨q, ch, c, hc, rfl, hst⟩ := hact.answer
  obtain ⟨hgid, hcmd, n, hn⟩ := h.calls gid q ch c hc
  refine ⟨hgid, ?_⟩
  rcases (h.tells gid q).returning ch c r hc hst with rfl | rfl | hA
  · exact Or.inl rfl
  · exact Or.inr (Or.inl rfl)
  · exact Or.inr (Or.inr ⟨n, c.op, hn, hcmd, hA⟩)

theorem reply (h : σ.Answers A) (tok : ShardTok) (r : KvReply) : (σ.reply tok r).Answers A := by
  cases tok with
  | client req => exact h.frame rfl rfl
  | gc req =>
    simp only [ShardSystem.reply]
    split
    · exact h.frame rfl rfl
    · exact h

theorem act (h : σ.Answers A)
    (hmono : ∀ {gid log log' id r}, log <+: log' → A gid log id r → A gid log' id r) {a : ShardAct}
    (hact : Act configs overtakes σ a σ')
    (hnew : ∀ gid r j q op, ((σ.group gid).replica r).queue = j :: q → (σ.group gid).log[j - 1]? = some op →
      A gid (σ.group gid).log op.internalId ((σ.replica gid r).apply gid op).2) : σ'.Answers A := by
  cases hact with
  | @accept _ index req _ _ => exact h.submitOp (.client req) req.server index
  | refuse _ => exact h.reply _ _
  | inner hg => exact h.inner hmono hg (hnew _)
  | answer hg => exact (h.inner hmono hg (hnew _)).reply _ _
  | startConfig _ => exact h.start _ _ _
  | startInstall _ => exact h.start _ _ _
  | @gcSubmit _ index r req _ => exact h.submitOp (.gc req) r index
  | startGC _ => exact h.start _ _ _
  | _ => exact h.frame rfl rfl

end Answers

/-! ## When nothing overtakes -/

abbrev AnswersInPlace (σ : ShardSystem) : Prop := σ.Answers fun gid => (shardMachine gid).Answered

section
variable {configs : Nat → Config Nat} {σ σ' : ShardSystem}

theorem AnswersInPlace.act (h : σ.AnswersInPlace) (hfed : ∀ gid, (σ.group gid).Fed (shardMachine gid) false)
    {a : ShardAct} (hact : Act configs false σ a σ') : σ'.AnswersInPlace :=
  Answers.act h (fun hle => Machine.Answered.mono hle) hact fun gid _ _ _ _ hq hop => (hfed gid).answered hq hop

theorem AnswersInPlace.answer (h : σ.AnswersInPlace) (hfed : ∀ gid, (σ.group gid).Fed (shardMachine gid) false)
    {gid : Int} {a : Inner} {g : ShardGroup} {tok : ShardTok} {r : KvReply}
    (hact : (σ.group gid).Act (shardMachine gid) false a g (some (tok, r))) :
    tok.gid = gid ∧ (r.err = .errWrongLeader ∨ r.err = .errTimeout ∨ Replied gid (σ.logs gid) tok.cmd r) := by
  refine (Answers.answer h hact).imp_right (Or.imp_right (Or.imp_right ?_))
  rintro ⟨n, op, hn, hcmd, p, op', hp, hid, hres⟩
  have : op' = op := h.unique gid _ ((hfed gid).logged p op' hp) _ hn hid
  exact ⟨p, op', hp, by rw [this, hcmd], hres⟩

end

/-! ## In any case -/

abbrev AnswersLogged (σ : ShardSystem) : Prop := σ.Answers fun _ log id _ => ∃ op ∈ log, op.internalId = id

section
variable {configs : Nat → Config Nat} {overtakes : Bool} {σ σ' : ShardSystem}

theorem AnswersLogged.act (h : σ.AnswersLogged) {a : ShardAct} (hact : Act configs overtakes σ a σ') :
    σ'.AnswersLogged :=
  Answers.act h (fun hle ⟨op, hop, hid⟩ => ⟨op, hle.subset hop, hid⟩) hact
    fun _ _ _ _ op _ hop => ⟨op, List.mem_of_getElem? hop, rfl⟩

theorem AnswersLogged.answer (h : σ.AnswersLogged)
    (hlogged : ∀ gid p op, (σ.logs gid)[p]? = some op → (p + 1, op) ∈ (σ.group gid).proposed) {gid : Int} {a : Inner}
    {g : ShardGroup} {tok : ShardTok} {r : KvReply}
    (hact : (σ.group gid).Act (shardMachine gid) overtakes a g (some (tok, r))) :
    tok.gid = gid ∧ (r.err = .errWrongLeader ∨ r.err = .errTimeout ∨ ∃ op ∈ σ.logs gid, op.cmd = tok.cmd) := by
  refine (Answers.answer h hact).imp_right (Or.imp_right (Or.imp_right ?_))
  rintro ⟨n, op, hn, hcmd, op', hop', hid⟩
  obtain ⟨p, hp⟩ := List.getElem?_of_mem hop'
  have : op' = op := h.unique gid _ (hlogged gid p op' hp) _ hn hid
  exact ⟨op', hop', by rw [this, hcmd]⟩

end

end ShardSystem

end DistLab
