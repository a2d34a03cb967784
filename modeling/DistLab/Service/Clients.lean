import DistLab.Service.Dedup
import DistLab.Service.Refine

/-!
# Clerks, handlers and Raft servers

A whole service: the clerks, the requests and replies between them and the
servers, and the servers with Raft and its network. A request or a reply may be
lost, late or handled more than once; a clerk only listens to the reply of the
call it is in.
-/

namespace DistLab

/-! ## The clerk -/

structure Caller (In : Type) where
  seqId : Nat
  leaderId : Nat
  /-- the operation it is busy with -/
  current : Option In
  /-- whether it is inside `Call`, and the number of that call -/
  calling : Bool
  call : Nat

/-- A request on the way to a server, for the call with this number. -/
structure Request (In : Type) extends Stamped In where
  call : Nat
  server : Nat

namespace Caller

variable {Op Res In Out : Type}

def init : Caller In := ⟨0, 0, none, false, 0⟩

def begin (ck : Caller In) (x : In) : Caller In := { ck with seqId := ck.seqId + 1, current := some x }

def receive (ck : Caller In) (F : Front Op Res In Out) (servers : Nat) (x : In) (reply : Res) : Caller In :=
  match F.returns x reply with
  | some _ => { ck with calling := false, current := none }
  | none => { ck with calling := false, leaderId := F.next servers ck.leaderId (some reply) }

def fail (ck : Caller In) (F : Front Op Res In Out) (servers : Nat) : Caller In :=
  { ck with calling := false, leaderId := F.next servers ck.leaderId none }

end Caller

/-! ## The system -/

structure Deployment (N : Nat) (Op Id St Res In : Type) where
  servers : Stack N Op Id St Res (Request In)
  /-- by client id -/
  caller : Nat → Caller In
  requests : List (Request In)
  replies : List (Request In × Res)

inductive DeploymentAct (N : Nat) (Op In : Type)
  | invoke (c : Nat) (x : In)
  | send (c : Nat)
  | accept (k : Nat)
  | refuse (k : Nat)
  | inner (a : StackAct N Op)
  | receive (k : Nat)
  | fail (c : Nat)

namespace Deployment

variable {N : Nat} {Op Id St Res In Out : Type}

def init (N : Nat) (In : Type) (M : Machine Op Id St Res) : Deployment N Op Id St Res In where
  servers := Stack.init N M
  caller _ := Caller.init
  requests := []
  replies := []

def setCaller (σ : Deployment N Op Id St Res In) (c : Nat) (ck : Caller In) : Deployment N Op Id St Res In :=
  { σ with caller := Function.update σ.caller c ck }

def listens (σ : Deployment N Op Id St Res In) (req : Request In) : Option In :=
  let ck := σ.caller req.clientId
  if ck.calling ∧ req.call = ck.call then ck.current else none

section
variable [DecidableEq Id] {M : Machine Op Id St Res} (c : Codec M fun _ => True) (F : Front Op Res In Out)

def step (σ : Deployment N Op Id St Res In) : DeploymentAct N Op In → Option (Deployment N Op Id St Res In)
  | .invoke c x =>
    match (σ.caller c).current with
    | none => some (σ.setCaller c ((σ.caller c).begin x))
    | some _ => none
  | .send c =>
    let ck := σ.caller c
    match ck.current, ck.calling with
    | some x, false =>
      some { σ.setCaller c { ck with calling := true, call := ck.call + 1 } with
        requests := σ.requests ++ [⟨⟨x, c, ck.seqId⟩, ck.call + 1, ck.leaderId⟩] }
    | _, _ => none
  | .accept k =>
    match σ.requests[k]? with
    | some req =>
      if h : req.server < N then
        (σ.servers.submit ⟨req.server, h⟩ req (F.op req.toStamped)).map fun p => { σ with servers := p.1 }
      else none
    | none => none
  | .refuse k =>
    match σ.requests[k]? with
    | some req =>
      if h : req.server < N then
        match ((σ.servers.raft.server ⟨req.server, h⟩).rf.start (F.op req.toStamped)).2 with
        | none => some { σ with replies := σ.replies ++ [(req, F.answer req.input M.wrongLeader)] }
        | some _ => none
      else none
    | none => none
  | .inner a =>
    match σ.servers.act M c a with
    | some (servers, none) => some { σ with servers }
    | some (servers, some (req, r)) =>
      some { σ with servers, replies := σ.replies ++ [(req, F.answer req.input r)] }
    | none => none
  | .receive k =>
    match σ.replies[k]? with
    | some (req, reply) =>
      match σ.listens req with
      | some x => some (σ.setCaller req.clientId ((σ.caller req.clientId).receive F N x reply))
      | none => none
    | none => none
  | .fail c => if (σ.caller c).calling then some (σ.setCaller c ((σ.caller c).fail F N)) else none

end

def event (F : Front Op Res In Out) (σ : Deployment N Op Id St Res In) :
    DeploymentAct N Op In → Option (Event (Nat × Nat) In Out)
  | .invoke c x => some (.invoke (c, (σ.caller c).seqId + 1) x)
  | .receive k =>
    match σ.replies[k]? with
    | some (req, reply) =>
      match σ.listens req with
      | some x => (F.returns x reply).map fun y => .ret (req.clientId, (σ.caller req.clientId).seqId) y
      | none => none
    | none => none
  | _ => none

end Deployment

section
variable {N : Nat} {Op Id St Res In Out : Type} [DecidableEq Id] {M : Machine Op Id St Res}

abbrev DeploymentRun (N : Nat) (c : Codec M fun _ => True) (F : Front Op Res In Out) :=
  Run (Deployment.step (N := N) c F) (Deployment.init N In M)

def DeploymentRun.event {c : Codec M fun _ => True} {F : Front Op Res In Out} (r : DeploymentRun N c F) (k : Nat) :
    Option (Event (Nat × Nat) In Out) :=
  (r.act k).bind ((r.state k).event F)

end

/-! ## Steps of the system -/

namespace Deployment

section
variable {N : Nat} {Op Id St Res In Out : Type} [DecidableEq Id] {M : Machine Op Id St Res} {c : Codec M fun _ => True}
  {F : Front Op Res In Out} {σ σ' : Deployment N Op Id St Res In}

inductive Act (c : Codec M fun _ => True) (F : Front Op Res In Out) (σ : Deployment N Op Id St Res In) :
    DeploymentAct N Op In → Deployment N Op Id St Res In → Prop
  | invoke {i : Nat} {x : In} : (σ.caller i).current = none →
      Act c F σ (.invoke i x) (σ.setCaller i ((σ.caller i).begin x))
  | send {i : Nat} {x : In} : (σ.caller i).current = some x → (σ.caller i).calling = false →
      Act c F σ (.send i)
        { σ.setCaller i { σ.caller i with calling := true, call := (σ.caller i).call + 1 } with
          requests := σ.requests ++ [⟨⟨x, i, (σ.caller i).seqId⟩, (σ.caller i).call + 1, (σ.caller i).leaderId⟩] }
  | accept {k index : Nat} {req : Request In} {s : Fin N} {servers : Stack N Op Id St Res (Request In)} :
      req ∈ σ.requests → σ.servers.submit s req (F.op req.toStamped) = some (servers, index) →
      Act c F σ (.accept k) { σ with servers }
  | refuse {k : Nat} {req : Request In} : req ∈ σ.requests →
      Act c F σ (.refuse k) { σ with replies := σ.replies ++ [(req, F.answer req.input M.wrongLeader)] }
  | inner {a : StackAct N Op} {ans : Option (Request In × Res)} {servers : Stack N Op Id St Res (Request In)} :
      σ.servers.act M c a = some (servers, ans) →
      Act c F σ (.inner a)
        { σ with servers, replies := σ.replies ++ ans.toList.map fun p => (p.1, F.answer p.1.input p.2) }
  | receive {k : Nat} {req : Request In} {reply : Res} {x : In} : σ.replies[k]? = some (req, reply) →
      σ.listens req = some x →
      Act c F σ (.receive k) (σ.setCaller req.clientId ((σ.caller req.clientId).receive F N x reply))
  | fail {i : Nat} : Act c F σ (.fail i) (σ.setCaller i ((σ.caller i).fail F N))

theorem act_cases {a : DeploymentAct N Op In} (h : σ.step c F a = some σ') : σ.Act c F a σ' := by
  cases a with
  | invoke i x =>
    simp only [step] at h
    split at h
    · rename_i hc
      cases h
      exact .invoke hc
    · cases h
  | send i =>
    simp only [step] at h
    split at h
    · rename_i x hc hcall
      cases h
      exact .send hc hcall
    · cases h
  | accept k =>
    simp only [step] at h
    split at h
    · rename_i req hk
      split at h
      · rw [Option.map_eq_some_iff] at h
        obtain ⟨⟨servers, index⟩, hsub, rfl⟩ := h
        exact .accept (List.mem_of_getElem? hk) hsub
      · cases h
    · cases h
  | refuse k =>
    simp only [step] at h
    split at h
    · rename_i req hk
      split at h
      · split at h
        · cases h
          exact .refuse (List.mem_of_getElem? hk)
        · cases h
      · cases h
    · cases h
  | inner a =>
    simp only [step] at h
    split at h
    · rename_i servers hs
      cases h
      have hact := Act.inner (F := F) hs
      simpa using hact
    · rename_i servers req r hs
      cases h
      exact .inner hs
    · cases h
  | receive k =>
    simp only [step] at h
    split at h
    · rename_i req reply hk
      split at h
      · rename_i x hl
        cases h
        exact .receive hk hl
      · cases h
    · cases h
  | fail i =>
    simp only [step] at h
    split at h
    · cases h; exact .fail
    · cases h

end

section
variable {N : Nat} {Op Id St Res In Out : Type} {σ : Deployment N Op Id St Res In}

theorem listens_eq {req : Request In} {x : In} (h : σ.listens req = some x) :
    (σ.caller req.clientId).calling = true ∧ req.call = (σ.caller req.clientId).call ∧
      (σ.caller req.clientId).current = some x := by
  simp only [listens] at h
  split at h
  · rename_i hc
    exact ⟨hc.1, hc.2, h⟩
  · cases h

theorem setCaller_self (i : Nat) (ck : Caller In) : (σ.setCaller i ck).caller i = ck := Function.update_self ..

theorem setCaller_of_ne {i j : Nat} (h : i ≠ j) (ck : Caller In) : (σ.setCaller j ck).caller i = σ.caller i :=
  Function.update_of_ne h ..

theorem seqId_setCaller (i : Nat) (ck : Caller In) :
    Caller.seqId ∘ (σ.setCaller i ck).caller = Function.update (Caller.seqId ∘ σ.caller) i ck.seqId :=
  Function.comp_update ..

theorem current_setCaller (i : Nat) (ck : Caller In) :
    Caller.current ∘ (σ.setCaller i ck).caller = Function.update (Caller.current ∘ σ.caller) i ck.current :=
  Function.comp_update ..

theorem quiet_setCaller {i : Nat} {ck : Caller In} (hs : ck.seqId = (σ.caller i).seqId)
    (hc : ck.current = (σ.caller i).current) :
    Caller.seqId ∘ (σ.setCaller i ck).caller = Caller.seqId ∘ σ.caller ∧
      Caller.current ∘ (σ.setCaller i ck).caller = Caller.current ∘ σ.caller := by
  rw [seqId_setCaller, current_setCaller, hs, hc]
  exact ⟨Function.update_eq_self i _, Function.update_eq_self i _⟩

variable {F : Front Op Res In Out} {ck : Caller In} {x : In} {reply : Res}

theorem receive_quiet (h : F.returns x reply = none) :
    (ck.receive F N x reply).seqId = ck.seqId ∧ (ck.receive F N x reply).current = ck.current := by
  simp only [Caller.receive, h, and_self]

theorem receive_returns {y : Out} (h : F.returns x reply = some y) :
    (ck.receive F N x reply).seqId = ck.seqId ∧ (ck.receive F N x reply).current = none := by
  simp only [Caller.receive, h, and_self]

theorem receive_call : (ck.receive F N x reply).call = ck.call ∧ (ck.receive F N x reply).calling = false := by
  cases h : F.returns x reply with
  | none => simp only [Caller.receive, h, and_self]
  | some y => simp only [Caller.receive, h, and_self]

end

section
variable {N : Nat} {Op Id St Res In Out : Type} [DecidableEq Id] {M : Machine Op Id St Res} {c : Codec M fun _ => True}
  {F : Front Op Res In Out} {σ σ' : Deployment N Op Id St Res In}

theorem Act.idle {a : DeploymentAct N Op In} (h : σ.Act c F a σ') (he : σ.event F a = none) :
    Caller.seqId ∘ σ'.caller = Caller.seqId ∘ σ.caller ∧ Caller.current ∘ σ'.caller = Caller.current ∘ σ.caller := by
  cases h with
  | invoke _ => cases he
  | send _ _ => exact quiet_setCaller rfl rfl
  | receive hk hl =>
    simp only [event, hk, hl, Option.map_eq_none_iff] at he
    exact quiet_setCaller (receive_quiet he).1 (receive_quiet he).2
  | fail => exact quiet_setCaller rfl rfl
  | _ => exact ⟨rfl, rfl⟩

theorem Act.invokes {a : DeploymentAct N Op In} (h : σ.Act c F a σ') {i n : Nat} {x : In}
    (he : σ.event F a = some (.invoke (i, n) x)) :
    n = (σ.caller i).seqId + 1 ∧ (σ.caller i).current = none ∧
      Caller.seqId ∘ σ'.caller = Function.update (Caller.seqId ∘ σ.caller) i n ∧
      Caller.current ∘ σ'.caller = Function.update (Caller.current ∘ σ.caller) i (some x) := by
  cases h with
  | invoke hc =>
    cases he
    exact ⟨rfl, hc, seqId_setCaller .., current_setCaller ..⟩
  | receive hk hl =>
    simp only [event, hk, hl, Option.map_eq_some_iff] at he
    obtain ⟨y, -, he⟩ := he
    cases he
  | _ => cases he

theorem Act.returns {a : DeploymentAct N Op In} (h : σ.Act c F a σ') {i n : Nat} {y : Out}
    (he : σ.event F a = some (.ret (i, n) y)) :
    ∃ k req reply x, a = .receive k ∧ σ.replies[k]? = some (req, reply) ∧ σ.listens req = some x ∧
      F.returns x reply = some y ∧ req.clientId = i ∧ n = (σ.caller i).seqId ∧
      Caller.seqId ∘ σ'.caller = Caller.seqId ∘ σ.caller ∧
      Caller.current ∘ σ'.caller = Function.update (Caller.current ∘ σ.caller) i none := by
  cases h with
  | invoke _ => cases he
  | @receive k req reply x hk hl =>
    simp only [event, hk, hl, Option.map_eq_some_iff] at he
    obtain ⟨y', hy, he⟩ := he
    cases he
    refine ⟨k, req, reply, x, rfl, hk, hl, hy, rfl, rfl, ?_, ?_⟩
    · rw [seqId_setCaller, (receive_returns hy).1]
      exact Function.update_eq_self _ _
    · rw [current_setCaller, (receive_returns hy).2]
  | _ => cases he

end

end Deployment

/-! ## Clerks number their operations -/

namespace DeploymentRun

variable {N : Nat} {Op Id St Res In Out : Type} [DecidableEq Id] {M : Machine Op Id St Res} {c : Codec M fun _ => True}
  {F : Front Op Res In Out} (r : DeploymentRun N c F)

theorem event_some {k : Nat} {e : Event (Nat × Nat) In Out} (h : r.event k = some e) :
    ∃ a, r.act k = some a ∧ (r.state k).event F a = some e := Option.bind_eq_some_iff.mp h

theorem numbered : Numbered r.event (fun k => Caller.seqId ∘ (r.state k).caller)
    (fun k => Caller.current ∘ (r.state k).caller) where
  start i := by
    simp only [r.start]
    rfl
  idle k he := by
    rcases r.next_cases k with ⟨-, heq⟩ | ⟨a, ha, hstep⟩
    · rw [heq]; exact ⟨rfl, rfl⟩
    · refine (Deployment.act_cases hstep).idle ?_
      unfold event at he
      rwa [ha] at he
  invoke k i n x he := by
    obtain ⟨a, ha, hev⟩ := r.event_some he
    exact (Deployment.act_cases (r.next_some ha)).invokes hev
  ret k i n y he := by
    obtain ⟨a, ha, hev⟩ := r.event_some he
    obtain ⟨_, req, _, x, -, -, hl, -, hc, hn, hseq, hcur⟩ := (Deployment.act_cases (r.next_some ha)).returns hev
    refine ⟨hn, ?_, hseq, hcur⟩
    have hcurrent := (Deployment.listens_eq hl).2.2
    rw [hc] at hcurrent
    show ((r.state k).caller i).current ≠ none
    rw [hcurrent]
    exact Option.some_ne_none x

end DeploymentRun

end DistLab
