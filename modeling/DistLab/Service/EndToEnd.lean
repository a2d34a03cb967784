import DistLab.Service.Clients

/-!
# Services over Raft are linearizable

Every run of a service, from the clerks down to Raft's packets, gives a history
that is linearizable with respect to the object that its machine implements. The
servers are the replicas of a group by `Sim`; the writes are ordered by the
group's log, and every read by the state that answered it. A snapshot may
overtake commands that wait on `applyCh`: the machine executes them again, and
the table of last replies answers.
-/

namespace DistLab

/-! ## What the group has in hand -/

section
variable {Op Id St Res In Out : Type} {M : Machine Op Id St Res} {F : Front Op Res In Out}

structure Group.Serving (M : Machine Op Id St Res) (F : Front Op Res In Out) (requests : List (Request In))
    (g : Group Op Id St Res (Request In)) : Prop where
  fed : g.Fed M true
  tells : g.Tells M M.Served
  proposed : ∀ p ∈ g.proposed, ∃ req ∈ requests, F.op req.toStamped = p.2
  calls : ∀ s ch d, (g.replica s).calls ch = some d → d.tok ∈ requests ∧ d.op = F.op d.tok.toStamped

variable (M F) in
def Request.Answer (log : List Op) (req : Request In) (res : Res) : Prop :=
  res = M.wrongLeader ∨ res = M.timeout ∨ M.Served log (M.ident (F.op req.toStamped)) res

theorem Request.Answer.mono {log log' : List Op} (hle : log <+: log') {req : Request In} {res : Res}
    (h : req.Answer M F log res) : req.Answer M F log' res :=
  h.imp_right fun h => h.imp_right fun h => h.mono hle

variable {requests : List (Request In)} {g g' : Group Op Id St Res (Request In)}

namespace Group.Serving

theorem init : (Group.init M).Serving M F requests where
  fed := Group.fed_init
  tells := Group.tells_init
  proposed p hp := by cases hp
  calls s ch d hd := by cases hd

theorem more (h : g.Serving M F requests) (req : Request In) : g.Serving M F (requests ++ [req]) where
  fed := h.fed
  tells := h.tells
  proposed p hp := by
    obtain ⟨req, hreq, he⟩ := h.proposed p hp
    exact ⟨req, List.mem_append_left _ hreq, he⟩
  calls s ch d hd := (h.calls s ch d hd).imp_left (List.mem_append_left _)

theorem submit (h : g.Serving M F requests) {req : Request In} (hreq : req ∈ requests) (s index : Nat) :
    (g.submit s req (F.op req.toStamped) index).Serving M F requests where
  fed := h.fed.submit ..
  tells := h.tells.submit s req (F.op req.toStamped) index
  proposed := forall_mem_snoc h.proposed ⟨req, hreq, rfl⟩
  calls r ch d hd := by
    rcases Group.submit_calls hd with hd | rfl
    · exact h.calls r ch d hd
    · exact ⟨hreq, rfl⟩

theorem logged (h : g.Serving M F requests) {op : Op} (hop : op ∈ g.log) :
    ∃ req ∈ requests, F.op req.toStamped = op := by
  obtain ⟨p, hp, he⟩ := List.getElem_of_mem hop
  exact h.proposed _ (h.fed.logged p op (by rw [← he]; exact List.getElem?_eq_getElem hp))

theorem stamped (h : g.Serving M F requests) : ∀ op ∈ g.log, ∃ x, op = F.op x := by
  intro op hop
  obtain ⟨req, -, he⟩ := h.logged hop
  exact ⟨req.toStamped, he.symm⟩

variable [DecidableEq Id] {S : Type} {O : Object S In Out}

theorem act (h : g.Serving M F requests) (D : Dedup M F O) {a : Inner} {ans : Option (Request In × Res)}
    (hact : g.Act M true a g' ans) : g'.Serving M F requests where
  fed := h.fed.act hact (D.harmless h.fed h.stamped a)
  tells := h.tells.served h.fed hact
  proposed := by rw [hact.proposed]; exact h.proposed
  calls s ch d hd := by
    obtain ⟨d₀, hd₀, htok, hop⟩ := hact.calls hd
    rw [← htok, ← hop]
    exact h.calls s ch d₀ hd₀

theorem answer (h : g.Serving M F requests) {a : Inner} {req : Request In} {res : Res}
    (hact : g.Act M true a g' (some (req, res))) : req ∈ requests ∧ req.Answer M F g'.log res := by
  obtain ⟨s, ch, d, hd, rfl, hst⟩ := hact.answer
  obtain ⟨hreq, hop⟩ := h.calls s ch d hd
  have hres := (h.tells s).returning ch d res hd hst
  rw [hop] at hres
  exact ⟨hreq, Request.Answer.mono hact.log_le hres⟩

theorem acts (h : g.Serving M F requests) (D : Dedup M F O) {l : List (Request In × Res)} (hacts : g.Acts M true l g') :
    g'.Serving M F requests ∧ g.log <+: g'.log ∧ ∀ p ∈ l, p.1 ∈ requests ∧ p.1.Answer M F g'.log p.2 := by
  induction hacts with
  | refl => exact ⟨h, List.prefix_rfl, fun p hp => by cases hp⟩
  | @snoc l a ans g₁ g₂ _ ha ih =>
    obtain ⟨h₁, hle, hl⟩ := ih
    have hact := Group.act_cases ha
    refine ⟨h₁.act D hact, hle.trans hact.log_le, fun p hp => ?_⟩
    rcases List.mem_append.mp hp with hp | hp
    · exact (hl p hp).imp_right (Request.Answer.mono hact.log_le)
    · rw [Option.mem_toList] at hp
      subst hp
      exact h₁.answer hact

end Group.Serving

end

/-! ## The servers and the group -/

section
variable {N : Nat} {Op Id St Res In Out S : Type} [DecidableEq Id] {M : Machine Op Id St Res} {c : Codec M fun _ => True}
  {F : Front Op Res In Out} {O : Object S In Out} {σ σ' : Deployment N Op Id St Res In}
  {g : Group Op Id St Res (Request In)}

structure Deployment.Runs (c : Codec M fun _ => True) (F : Front Op Res In Out) (σ : Deployment N Op Id St Res In)
    (g : Group Op Id St Res (Request In)) : Prop where
  sim : Sim c σ.servers g
  serving : g.Serving M F σ.requests
  replies : ∀ p ∈ σ.replies, p.1 ∈ σ.requests ∧ ∃ res, p.2 = F.answer p.1.input res ∧ p.1.Answer M F g.log res

omit [DecidableEq Id] in
theorem Deployment.Runs.init : (Deployment.init N In M).Runs c F (Group.init M) where
  sim := Sim.init
  serving := Group.Serving.init
  replies p hp := by cases hp

theorem Deployment.Runs.act (h : σ.Runs c F g) (D : Dedup M F O) {a : DeploymentAct N Op In} (hact : σ.Act c F a σ') :
    ∃ g', g.log <+: g'.log ∧ σ'.Runs c F g' := by
  cases hact with
  | invoke _ => exact ⟨g, List.prefix_rfl, h.sim, h.serving, h.replies⟩
  | send _ _ =>
    exact ⟨g, List.prefix_rfl, h.sim, h.serving.more _, fun p hp => (h.replies p hp).imp_left (List.mem_append_left _)⟩
  | accept hreq hsub =>
    exact ⟨g.submit _ _ _ _, List.prefix_rfl, h.sim.submit hsub, h.serving.submit hreq _ _, h.replies⟩
  | refuse hreq =>
    exact ⟨g, List.prefix_rfl, h.sim, h.serving, forall_mem_snoc h.replies ⟨hreq, _, rfl, Or.inl rfl⟩⟩
  | inner hs =>
    obtain ⟨g', hacts, hsim⟩ := h.sim.act (fun _ _ => trivial) hs (Or.inl rfl)
    obtain ⟨hserving, hle, hans⟩ := h.serving.acts D hacts
    refine ⟨g', hle, hsim, hserving, fun p hp => ?_⟩
    rcases List.mem_append.mp hp with hp | hp
    · obtain ⟨hreq, res, he, hres⟩ := h.replies p hp
      exact ⟨hreq, res, he, hres.mono hle⟩
    · obtain ⟨q, hq, rfl⟩ := List.mem_map.mp hp
      exact ⟨(hans q hq).1, q.2, rfl, (hans q hq).2⟩
  | receive _ _ => exact ⟨g, List.prefix_rfl, h.sim, h.serving, h.replies⟩
  | fail => exact ⟨g, List.prefix_rfl, h.sim, h.serving, h.replies⟩

/-- The group that the servers of a run are, position by position. -/
theorem DeploymentRun.group (r : DeploymentRun N c F) (D : Dedup M F O) :
    ∃ g : Nat → Group Op Id St Res (Request In), (∀ k, (r.state k).Runs c F (g k)) ∧
      ∀ j k, j ≤ k → (g j).log <+: (g k).log := by
  have hmeets : r.Meets fun _ _ => True := fun _ _ _ => trivial
  exact r.history_rel (L := fun g g' => g.log <+: g'.log) (fun _ => List.prefix_rfl) (fun _ _ _ => List.IsPrefix.trans)
    hmeets (R := fun g σ => σ.Runs c F g) .init fun g σ a σ' hg _ hstep => hg.act D (Deployment.act_cases hstep)

/-! ## The open call of a clerk -/

/-- Requests carry operations that were invoked, and the request of the open
call carries the last one. -/
structure Deployment.Calls (inv : Nat × Nat → In → Prop) (σ : Deployment N Op Id St Res In) : Prop where
  busy : ∀ i, (σ.caller i).calling = true → (σ.caller i).current ≠ none
  invoked : ∀ req ∈ σ.requests, inv req.id req.input
  call_le : ∀ req ∈ σ.requests, req.call ≤ (σ.caller req.clientId).call
  latest : ∀ req ∈ σ.requests, (σ.caller req.clientId).calling = true →
    req.call = (σ.caller req.clientId).call → req.seqId = (σ.caller req.clientId).seqId

namespace Deployment.Calls

variable {inv inv' : Nat × Nat → In → Prop}

omit [DecidableEq Id] in
theorem init : (Deployment.init N In M).Calls inv where
  busy i h := by cases h
  invoked req h := by cases h
  call_le req h := by cases h
  latest req h := by cases h

omit [DecidableEq Id] in
theorem mono (h : σ.Calls inv) (hle : ∀ id x, inv id x → inv' id x) : σ.Calls inv' :=
  { h with invoked := fun req hreq => hle _ _ (h.invoked req hreq) }

omit [DecidableEq Id] in
theorem setCaller (h : σ.Calls inv) {i : Nat} {ck : Caller In} (hcall : ck.call = (σ.caller i).call)
    (hck : ck.calling = true → (σ.caller i).calling = true ∧ ck.seqId = (σ.caller i).seqId ∧ ck.current ≠ none) :
    (σ.setCaller i ck).Calls inv where
  busy d hd := by
    by_cases hdi : d = i
    · subst hdi
      rw [setCaller_self] at hd ⊢
      exact (hck hd).2.2
    · rw [setCaller_of_ne hdi] at hd ⊢
      exact h.busy d hd
  invoked := h.invoked
  call_le req hreq := by
    have hle := h.call_le req hreq
    by_cases hdi : req.clientId = i
    · rw [hdi, setCaller_self, hcall, ← hdi]; exact hle
    · rw [setCaller_of_ne hdi]; exact hle
  latest req hreq hcl heq := by
    by_cases hdi : req.clientId = i
    · rw [hdi, setCaller_self] at hcl heq ⊢
      obtain ⟨h1, h2, -⟩ := hck hcl
      rw [h2, ← hdi]
      exact h.latest req hreq (by rw [hdi]; exact h1) (by rw [hdi, heq, hcall])
    · rw [setCaller_of_ne hdi] at hcl heq ⊢
      exact h.latest req hreq hcl heq

omit [DecidableEq Id] in
theorem send (h : σ.Calls inv) {i : Nat} {x : In} (hc : (σ.caller i).current = some x)
    (hinv : inv (i, (σ.caller i).seqId) x) :
    ({ σ.setCaller i { σ.caller i with calling := true, call := (σ.caller i).call + 1 } with
      requests := σ.requests ++ [⟨⟨x, i, (σ.caller i).seqId⟩, (σ.caller i).call + 1, (σ.caller i).leaderId⟩] } :
        Deployment N Op Id St Res In).Calls inv where
  busy d hd := by
    simp only [Deployment.setCaller] at hd ⊢
    by_cases hdi : d = i
    · subst hdi
      rw [Function.update_self]
      show (σ.caller d).current ≠ none
      rw [hc]
      exact Option.some_ne_none x
    · rw [Function.update_of_ne hdi] at hd ⊢
      exact h.busy d hd
  invoked := forall_mem_snoc h.invoked hinv
  call_le := by
    refine forall_mem_snoc (fun req hreq => ?_) ?_
    · have hle := h.call_le req hreq
      simp only [Deployment.setCaller]
      by_cases hdi : req.clientId = i
      · rw [hdi] at hle ⊢
        rw [Function.update_self]
        exact Nat.le_succ_of_le hle
      · rw [Function.update_of_ne hdi]; exact hle
    · simp only [Deployment.setCaller, Function.update_self, le_refl]
  latest := by
    refine forall_mem_snoc (fun req hreq hcl heq => ?_) fun _ _ => ?_
    · simp only [Deployment.setCaller] at hcl heq ⊢
      by_cases hdi : req.clientId = i
      · -- the call has a number that no earlier request has
        have hle := h.call_le req hreq
        rw [hdi] at hle
        rw [hdi, Function.update_self] at heq
        exact absurd (heq ▸ hle) (Nat.not_succ_le_self _)
      · rw [Function.update_of_ne hdi] at hcl heq ⊢
        exact h.latest req hreq hcl heq
    · simp only [Deployment.setCaller, Function.update_self]

theorem act (h : σ.Calls inv) {a : DeploymentAct N Op In} (hact : σ.Act c F a σ')
    (hcur : ∀ i x, (σ.caller i).current = some x → inv (i, (σ.caller i).seqId) x) : σ'.Calls inv := by
  cases hact with
  | @invoke i x hc => exact h.setCaller rfl fun hcl => absurd hc (h.busy i hcl)
  | send hc _ => exact h.send hc (hcur _ _ hc)
  | receive _ _ =>
    refine h.setCaller receive_call.1 fun hcl => ?_
    rw [receive_call.2] at hcl
    cases hcl
  | fail => exact h.setCaller rfl fun hcl => by cases hcl
  | accept _ _ => exact ⟨h.busy, h.invoked, h.call_le, h.latest⟩
  | refuse _ => exact ⟨h.busy, h.invoked, h.call_le, h.latest⟩
  | inner _ => exact ⟨h.busy, h.invoked, h.call_le, h.latest⟩

end Deployment.Calls

/-! ## Histories -/

namespace DeploymentRun

variable (r : DeploymentRun N c F)

theorem calls (k : Nat) : (r.state k).Calls (InvokedBefore r.event k) := by
  have hle : ∀ k id x, InvokedBefore r.event k id x → InvokedBefore r.event (k + 1) id x :=
    fun k id x h => h.mono (Nat.le_succ k)
  refine Run.induction r (P := fun k σ => σ.Calls (InvokedBefore r.event k)) .init (fun k _ h => h.mono (hle k)) ?_ k
  intro k a _ h hstep
  exact (h.act (Deployment.act_cases hstep) fun i x hc => r.numbered.current hc).mono (hle k)

variable {r} {g : Nat → Group Op Id St Res (Request In)} (hg : ∀ k, (r.state k).Runs c F (g k))
include hg

theorem logged_invoked {k : Nat} {x : Stamped In} (h : F.op x ∈ (g k).log) : InvokedBefore r.event k x.id x.input := by
  obtain ⟨req, hreq, he⟩ := (hg k).serving.logged h
  have heq := F.parse_op x
  rw [← he, F.parse_op] at heq
  cases heq
  exact (r.calls k).invoked req hreq

theorem returned {k : Nat} {id : Nat × Nat} {y : Out} (D : Dedup M F O) (he : r.event k = some (.ret id y)) :
    ∃ x : Stamped In, x.id = id ∧ InvokedBefore r.event k id x.input ∧ x.seqId = ((r.state k).caller x.clientId).seqId ∧
      ∃ p q, (g k).log[p]? = some (F.op x) ∧ p ≤ q ∧ q ≤ (g k).log.length ∧
        F.returns x.input (M.apply (M.replay ((g k).log.take q)) (F.op x)).2 = some y := by
  obtain ⟨a, ha, hev⟩ := r.event_some he
  obtain ⟨i, req, reply, x, -, hreply, hl, hy, hc, hn, -, -⟩ :=
    (Deployment.act_cases (r.next_some ha)).returns (i := id.1) (n := id.2) hev
  have hcalls := r.calls k
  obtain ⟨hcalling, hcall, hcur⟩ := Deployment.listens_eq hl
  obtain ⟨hreq, res, hans, hres⟩ : req ∈ (r.state k).requests ∧ ∃ res, reply = F.answer req.input res ∧
      req.Answer M F (g k).log res := (hg k).replies _ (List.mem_of_getElem? hreply)
  -- the reply answers the open call
  have hseq : req.seqId = ((r.state k).caller req.clientId).seqId := hcalls.latest req hreq hcalling hcall
  have hid : req.id = id := by
    refine Prod.ext hc ?_
    show req.seqId = id.2
    rw [hseq, hc, hn]
  have hinvoked := hcalls.invoked req hreq
  have hx : req.input = x := by
    refine r.numbered.unique hinvoked ?_
    have hcurrent := r.numbered.current (k := k) (c := req.clientId) (x := x) hcur
    rwa [show (req.clientId, (Caller.seqId ∘ (r.state k).caller) req.clientId) = req.id from
      Prod.ext rfl hseq.symm] at hcurrent
  have hret : F.returns req.input res = some y := by rw [← hy, hans, ← hx, F.returns_answer]
  rcases hres with rfl | rfl | ⟨p, q, op, hp, hop, hpq, hq, rfl⟩
  · rw [D.wrongLeader] at hret; cases hret
  · rw [D.timeout] at hret; cases hret
  obtain ⟨z, rfl⟩ := (hg k).serving.stamped op (List.mem_of_getElem? hp)
  have hz : z = req.toStamped := by
    have hzid := D.ident_inj _ _ hop
    have hzin := logged_invoked hg (List.mem_of_getElem? hp)
    rw [hzid] at hzin
    obtain ⟨h1, h2⟩ := Prod.mk.inj hzid
    have h3 := r.numbered.unique hzin hinvoked
    cases z
    cases h1
    cases h2
    cases h3
    rfl
  subst hz
  rw [hid] at hinvoked
  exact ⟨req.toStamped, hid, hinvoked, hseq, p, q, hp, hpq, hq, hret⟩

/-- The answer of a read comes from a state after its invocation. -/
theorem read_late {j k p : Nat} {x : Stamped In} (hmono : ∀ j k, j ≤ k → (g j).log <+: (g k).log) (hjk : j ≤ k)
    (hinv : r.event j = some (.invoke x.id x.input)) (hp : (g k).log[p]? = some (F.op x)) : (g j).log.length ≤ p := by
  by_contra hlt
  have hin := List.prefix_iff_getElem?.mp (hmono j k hjk) p (by omega)
  rw [hp] at hin
  have hmem : F.op x ∈ (g j).log := by
    rw [Option.some.inj hin]
    exact List.getElem_mem _
  exact r.numbered.fresh hinv (logged_invoked hg hmem)

theorem serves (D : Dedup M F O) (hmono : ∀ j k, j ≤ k → (g j).log <+: (g k).log) :
    Serves O D.read r.event fun k => D.done (g k).log where
  reads := D.reads
  grow k := D.done_le (hmono k (k + 1) (Nat.le_succ k))
  legal k := (D.recorded (hg k).serving.stamped).legal
  invoked k d hd := by
    obtain ⟨-, x, hx, hid, hin⟩ := (D.recorded (hg k).serving.stamped).logged d hd
    rw [← hid, ← hin]
    exact logged_invoked hg hx
  writes k d hd := ((D.recorded (hg k).serving.stamped).logged d hd).1
  once k := (D.recorded (hg k).serving.stamped).nodup
  invokes j k id x y hj hk := r.numbered.invoke_unique hj hk
  returns j k id y z hj hk := r.numbered.returns hj hk
  answered k id y he := by
    obtain ⟨x, rfl, hinv, hseq, p, q, hp, hpq, hq, hret⟩ := returned hg D he
    have hlast : ∀ z, F.op z ∈ (g k).log → z.clientId = x.clientId → z.seqId ≤ x.seqId := by
      intro z hz hc
      have hle := r.numbered.invoked_le (logged_invoked hg hz)
      rw [hc] at hle
      rw [hseq]
      exact hle
    have hsame : ∀ z, F.op z ∈ (g k).log → z.id = x.id → z.input = x.input := by
      intro z hz hid
      have hzin := logged_invoked hg hz
      rw [hid] at hzin
      exact r.numbered.unique hzin hinv
    rcases D.accepted (hg k).serving.stamped hp hpq hq hlast hsame hret with hw | ⟨hread, hout⟩
    · exact Or.inl hw
    · right
      obtain ⟨j, hj, hinvoke⟩ := hinv
      have hle := hmono j k hj.le
      have hlen := read_late hg hmono hj.le hinvoke hp
      have hpre : (g j).log <+: (g k).log.take q :=
        List.prefix_take_iff.mpr ⟨hle, hlen.trans hpq⟩
      have hdone := D.done_le (List.take_prefix q (g k).log)
      refine ⟨j, x.input, (D.done ((g k).log.take q)).length, hj, hinvoke, hread, (D.done_le hpre).length_le,
        hdone.length_le, ?_⟩
      rw [← List.prefix_iff_eq_take.mp hdone]
      exact hout

end DeploymentRun

/-- Operations have numbers of their own, and the history of the clerks' calls
is linearizable. -/
theorem Dedup.linearizable (D : Dedup M F O) (r : DeploymentRun N c F) (K : Nat) :
    (∀ j k id x y, r.event j = some (.invoke id x) → r.event k = some (.invoke id y) → j = k) ∧
      ∃ l, Linearization O r.event K l := by
  obtain ⟨g, hg, hmono⟩ := r.group D
  exact ⟨fun j k id x y hj hk => r.numbered.invoke_unique hj hk, (DeploymentRun.serves hg D hmono).linearization K⟩

end

end DistLab
