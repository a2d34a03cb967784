import DistLab.Lib.Runs
import Mathlib.Logic.Function.Basic

/-!
# The simulated network

`labrpc` carries every call between clients and servers in the tests. A request is
handled by a goroutine of its own, which looks up the server, may drop the request
or the reply, runs the handler in another goroutine, and looks again at the end
whether the server is still the same. A server is deleted and replaced by a new
one when it crashes and restarts. What a handler does and answers is left open,
and so is the time that anything takes.
-/

namespace DistLab

/-- `replyMsg`; `none` is `replyMsg{false, nil}`. -/
abbrev ReplyMsg (Reply : Type) := Option Reply

structure EndInfo (Name Ptr : Type) where
  servername : Name
  server : Ptr
  reliable : Bool
deriving DecidableEq

/-- The goroutine that runs the handler; it keeps the server it was made for. -/
inductive HandlerState (Ptr Reply : Type)
  | starting (server : Ptr)
  | running
  | returned (reply : Reply)
  | gone
deriving DecidableEq

/-- Where a call is: at `e.ch <- req`; at the start of `processReq`; with the
server looked up; in the loop that waits for the handler; after the loop, with the
reply of the handler or without; at `req.replyCh <-`; back at the caller. -/
inductive CallPhase (Name Ptr Reply : Type)
  | sending
  | accepted
  | found (info : EndInfo Name Ptr)
  | waiting (info : EndInfo Name Ptr)
  | left (info : EndInfo Name Ptr) (reply : ReplyMsg Reply)
  | replying (msg : ReplyMsg Reply)
  | returned (msg : ReplyMsg Reply)
deriving DecidableEq

structure RpcCall (End Name Ptr Reply : Type) where
  endname : End
  phase : CallPhase Name Ptr Reply
  handler : Option (HandlerState Ptr Reply)
deriving DecidableEq

structure RpcNetwork (End Name Ptr Reply : Type) where
  reliable : Bool
  ends : End → Bool
  enabled : End → Bool
  servers : Name → Option Ptr
  connections : End → Option Name
  closed : Bool
  stopped : Bool
  count : Nat
  serverCount : Ptr → Nat
  calls : List (RpcCall End Name Ptr Reply)

inductive CallStep (Reply : Type)
  | destroyed
  | accept
  | read
  | dropRequest
  | launch
  | dispatch
  | finish (reply : Reply)
  | take
  | poll
  | decide (drop : Bool)
  | reply
deriving DecidableEq

inductive RpcAct (End Name Ptr Reply : Type)
  | reliable (yes : Bool)
  | makeEnd (endname : End)
  | addServer (servername : Name) (rs : Ptr)
  | deleteServer (servername : Name)
  | connect (endname : End) (servername : Name)
  | enable (endname : End) (enabled : Bool)
  | cleanup
  | stop
  | call (endname : End)
  | step (i : Nat) (st : CallStep Reply)

section
variable {End Name Ptr Reply : Type} [DecidableEq End] [DecidableEq Name] [DecidableEq Ptr]

def RpcNetwork.init : RpcNetwork End Name Ptr Reply where
  reliable := true
  ends _ := false
  enabled _ := false
  servers _ := none
  connections _ := none
  closed := false
  stopped := false
  count := 0
  serverCount _ := 0
  calls := []

def RpcNetwork.readEndnameInfo (rn : RpcNetwork End Name Ptr Reply) (endname : End) : Option (EndInfo Name Ptr) :=
  if rn.enabled endname then
    (rn.connections endname).bind fun servername =>
      (rn.servers servername).map fun server => ⟨servername, server, rn.reliable⟩
  else none

def RpcNetwork.isServerDead (rn : RpcNetwork End Name Ptr Reply) (endname : End) (info : EndInfo Name Ptr) : Bool :=
  !rn.enabled endname || rn.servers info.servername != some info.server

namespace RpcCall

/-- The end of `processReq`. Under `longReordering` the reply is late, but it is
this one. -/
def answer (rn : RpcNetwork End Name Ptr Reply) (c : RpcCall End Name Ptr Reply) (info : EndInfo Name Ptr)
    (reply : ReplyMsg Reply) (drop : Bool) : ReplyMsg Reply :=
  if rn.isServerDead c.endname info then none else if !info.reliable && drop then none else reply

/-- The receive from `ech`, by the loop or, if it gave up, by the goroutine that
drains the channel. -/
def take (c : RpcCall End Name Ptr Reply) (reply : Reply) : RpcCall End Name Ptr Reply :=
  match c.phase with
  | .waiting info => { c with phase := .left info (some reply), handler := some .gone }
  | _ => { c with handler := some .gone }

def step (rn : RpcNetwork End Name Ptr Reply) (c : RpcCall End Name Ptr Reply) :
    CallStep Reply → Option (RpcCall End Name Ptr Reply)
  | .destroyed =>
    match c.phase, rn.closed with
    | .sending, true => some { c with phase := .returned none }
    | _, _ => none
  | .accept =>
    match c.phase, rn.stopped with
    | .sending, false => some { c with phase := .accepted }
    | _, _ => none
  | .read =>
    match c.phase with
    | .accepted =>
      match rn.readEndnameInfo c.endname with
      | some info => some { c with phase := .found info }
      | none => some { c with phase := .replying none }
    | _ => none
  | .dropRequest =>
    match c.phase with
    | .found info => if info.reliable then none else some { c with phase := .replying none }
    | _ => none
  | .launch =>
    match c.phase with
    | .found info => some { c with phase := .waiting info, handler := some (.starting info.server) }
    | _ => none
  | .dispatch =>
    match c.handler with
    | some (.starting _) => some { c with handler := some .running }
    | _ => none
  | .finish reply =>
    match c.handler with
    | some .running => some { c with handler := some (.returned reply) }
    | _ => none
  | .take =>
    match c.handler with
    | some (.returned reply) => some (c.take reply)
    | _ => none
  | .poll =>
    match c.phase with
    | .waiting info => some (if rn.isServerDead c.endname info then { c with phase := .left info none } else c)
    | _ => none
  | .decide drop =>
    match c.phase with
    | .left info reply => some { c with phase := .replying (c.answer rn info reply drop) }
    | _ => none
  | .reply =>
    match c.phase with
    | .replying msg => some { c with phase := .returned msg }
    | _ => none

end RpcCall

namespace RpcNetwork

def tally (rn : RpcNetwork End Name Ptr Reply) (c : RpcCall End Name Ptr Reply) (st : CallStep Reply) :
    RpcNetwork End Name Ptr Reply :=
  match st, c.handler with
  | .accept, _ => { rn with count := rn.count + 1 }
  | .dispatch, some (.starting p) => { rn with serverCount := Function.update rn.serverCount p (rn.serverCount p + 1) }
  | _, _ => rn

/-- A second `MakeEnd` of one name ends the process, and `Cleanup` is called once. -/
def step (rn : RpcNetwork End Name Ptr Reply) : RpcAct End Name Ptr Reply → Option (RpcNetwork End Name Ptr Reply)
  | .reliable yes => some { rn with reliable := yes }
  | .makeEnd endname =>
    if rn.ends endname then none
    else some { rn with
      ends := Function.update rn.ends endname true
      enabled := Function.update rn.enabled endname false
      connections := Function.update rn.connections endname none }
  | .addServer servername rs => some { rn with servers := Function.update rn.servers servername (some rs) }
  | .deleteServer servername => some { rn with servers := Function.update rn.servers servername none }
  | .connect endname servername => some { rn with connections := Function.update rn.connections endname (some servername) }
  | .enable endname enabled => some { rn with enabled := Function.update rn.enabled endname enabled }
  | .cleanup => if rn.closed then none else some { rn with closed := true }
  | .stop => if rn.closed && !rn.stopped then some { rn with stopped := true } else none
  | .call endname =>
    if rn.ends endname then some { rn with calls := rn.calls ++ [⟨endname, .sending, none⟩] } else none
  | .step i st =>
    match rn.calls[i]? with
    | some c => (c.step rn st).map fun c' => { rn.tally c st with calls := rn.calls.set i c' }
    | none => none

end RpcNetwork

abbrev RpcRun (End Name Ptr Reply : Type) [DecidableEq End] [DecidableEq Name] [DecidableEq Ptr] :=
  Run (RpcNetwork.step : RpcNetwork End Name Ptr Reply → RpcAct End Name Ptr Reply → _) RpcNetwork.init

/-! ## What a step can do -/

variable {rn rn' : RpcNetwork End Name Ptr Reply}

omit [DecidableEq End] [DecidableEq Name] in
@[simp] theorem RpcNetwork.tally_servers (rn : RpcNetwork End Name Ptr Reply) (c : RpcCall End Name Ptr Reply)
    (st : CallStep Reply) : (rn.tally c st).servers = rn.servers := by
  unfold tally
  split <;> rfl

/-- A call takes a step, a call begins, or the calls stay as they are. -/
theorem RpcNetwork.step_cases {a : RpcAct End Name Ptr Reply} (h : rn.step a = some rn') :
    (∃ i st c c', a = .step i st ∧ rn.calls[i]? = some c ∧ c.step rn st = some c' ∧
        rn'.calls = rn.calls.set i c' ∧ rn'.servers = rn.servers) ∨
      (∃ endname, a = .call endname ∧ rn'.calls = rn.calls ++ [⟨endname, .sending, none⟩] ∧
        rn'.servers = rn.servers) ∨
      ((∀ i st, a ≠ .step i st) ∧ rn'.calls = rn.calls ∧
        ((∃ n p, a = .addServer n p ∧ rn'.servers = Function.update rn.servers n (some p)) ∨
          (∃ n, a = .deleteServer n ∧ rn'.servers = Function.update rn.servers n none) ∨
          rn'.servers = rn.servers)) := by
  cases a with
  | step i st =>
    simp only [step] at h
    split at h
    · rename_i c hc
      obtain ⟨c', hc', rfl⟩ := Option.map_eq_some_iff.mp h
      exact Or.inl ⟨i, st, c, c', rfl, hc, hc', rfl, by simp⟩
    · cases h
  | call endname =>
    simp only [step] at h
    split at h
    · cases h
      exact Or.inr (Or.inl ⟨endname, rfl, rfl, rfl⟩)
    · cases h
  | addServer n p =>
    cases h
    exact Or.inr (Or.inr ⟨by simp, rfl, Or.inl ⟨n, p, rfl, rfl⟩⟩)
  | deleteServer n =>
    cases h
    exact Or.inr (Or.inr ⟨by simp, rfl, Or.inr (Or.inl ⟨n, rfl, rfl⟩)⟩)
  | _ =>
    refine Or.inr (Or.inr ⟨by simp, ?_⟩)
    simp only [step] at h
    first
      | (cases h; exact ⟨rfl, Or.inr (Or.inr rfl)⟩)
      | (split at h <;> cases h; exact ⟨rfl, Or.inr (Or.inr rfl)⟩)

theorem RpcNetwork.step_at {a : RpcAct End Name Ptr Reply} (h : rn.step a = some rn') {i : Nat}
    {c : RpcCall End Name Ptr Reply} (hc : rn.calls[i]? = some c) :
    (rn'.calls[i]? = some c ∧ ∀ st, a ≠ .step i st) ∨
      ∃ st c', a = .step i st ∧ c.step rn st = some c' ∧ rn'.calls[i]? = some c' := by
  have hi : i < rn.calls.length := (List.getElem?_eq_some_iff.mp hc).1
  rcases step_cases h with ⟨j, st, d, d', rfl, hd, hstep, hcalls, -⟩ | ⟨e, rfl, hcalls, -⟩ | ⟨hne, hcalls, -⟩
  · by_cases hij : j = i
    · subst hij
      obtain rfl : c = d := Option.some.inj (hc.symm.trans hd)
      exact Or.inr ⟨st, d', rfl, hstep, by rw [hcalls, List.getElem?_set_self hi]⟩
    · refine Or.inl ⟨by rw [hcalls, List.getElem?_set_ne hij, hc], fun st' he => ?_⟩
      cases he
      exact hij rfl
  · exact Or.inl ⟨by rw [hcalls, List.getElem?_append_left hi, hc], by simp⟩
  · exact Or.inl ⟨by rw [hcalls, hc], fun st => hne i st⟩

theorem RpcNetwork.step_new {a : RpcAct End Name Ptr Reply} (h : rn.step a = some rn') {i : Nat}
    {c : RpcCall End Name Ptr Reply} (hnone : rn.calls[i]? = none) (hc : rn'.calls[i]? = some c) :
    c.phase = .sending ∧ c.handler = none := by
  have hi : rn.calls.length ≤ i := List.getElem?_eq_none_iff.mp hnone
  rcases step_cases h with ⟨j, st, d, d', -, -, -, hcalls, -⟩ | ⟨e, -, hcalls, -⟩ | ⟨-, hcalls, -⟩
  · have hlt := (List.getElem?_eq_some_iff.mp hc).1
    rw [hcalls, List.length_set] at hlt
    omega
  · rw [hcalls, List.getElem?_append_right hi] at hc
    obtain rfl := List.mem_singleton.mp (List.mem_of_getElem? hc)
    exact ⟨rfl, rfl⟩
  · rw [hcalls, hnone] at hc
    cases hc

theorem RpcNetwork.step_servers {a : RpcAct End Name Ptr Reply} (h : rn.step a = some rn') {n : Name} {p : Ptr}
    (hn : rn.servers n ≠ some p) (ha : a ≠ .addServer n p) : rn'.servers n ≠ some p := by
  rcases step_cases h with ⟨-, -, -, -, -, -, -, -, hs⟩ | ⟨-, -, -, hs⟩ | ⟨-, -, ⟨m, q, rfl, hs⟩ | ⟨m, -, hs⟩ | hs⟩
  · rwa [hs]
  · rwa [hs]
  · rw [hs]
    by_cases hm : n = m
    · subst hm
      rw [Function.update_self]
      intro he
      cases he
      exact ha rfl
    · rwa [Function.update_of_ne hm]
  · rw [hs]
    by_cases hm : n = m
    · subst hm
      simp
    · rwa [Function.update_of_ne hm]
  · rwa [hs]

end

end DistLab
