import Mathlib.Data.List.Induction
import Mathlib.Logic.Function.Basic
import Mathlib.Order.Nat
import Mathlib.Tactic.Common

/-!
# A replicated service

`kvraft`, `shardctrler` and `shardkv` share their outer code. A handler starts
an operation in Raft, registers a channel under the index that `Start`
returned, and waits; the applier executes the committed operations one after
another and tells the handler registered for the index. A `Machine` is what
differs between the three.

Raft appears as what it gives to a service: one list of committed commands,
each proposed for its index by some call of `Start`, handed to every replica in
order, and snapshots that other replicas install. `overtakes` says whether a
snapshot may be installed while earlier commands wait on `applyCh`.
-/

namespace DistLab

/-- `ident` is what the applier compares before it tells a handler, `noId` the
value it has in `applyResult{Err: ErrWrongLeader}`. -/
structure Machine (Op Id St Res : Type) where
  init : St
  apply : St → Op → St × Res
  ident : Op → Id
  noId : Id
  wrongLeader : Res
  timeout : Res

/-! ## State -/

/-- `notifyEntry`; `ch` is the number of the call that made the channel. -/
structure Waiter (Id : Type) where
  id : Id
  ch : Nat
deriving DecidableEq, Repr

inductive Stage (Res : Type)
  | started
  | waiting
  | returning (res : Res)
  | done
deriving DecidableEq, Repr

/-- A call of `submitAndWait` after `Start` returned `index`; `tok` is what the
answer goes to and `ch` the buffer of its channel. -/
structure Submission (Op Id Res Tok : Type) where
  tok : Tok
  op : Op
  index : Nat
  stage : Stage Res
  ch : Option (Id × Res)
deriving DecidableEq

structure Replica (Op Id St Res Tok : Type) where
  state : St
  /-- the largest index executed or installed -/
  applied : Nat
  /-- the largest index Raft has collected or installed -/
  fetched : Nat
  /-- the indices of the commands on `applyCh` and in the batch of Raft's applier -/
  queue : List Nat
  /-- what the persister holds -/
  snapshot : Nat × St
  notifyChans : Nat → Option (Waiter Id)
  calls : Nat → Option (Submission Op Id Res Tok)
  nextCall : Nat
  /-- the applier after it unlocked, before its send on a handler's channel -/
  sending : Option (Nat × Id × Res)

structure Group (Op Id St Res Tok : Type) where
  /-- the committed commands; the command at position `p` has index `p + 1` -/
  log : List Op
  /-- the commands that calls of `Start` have appended, with their indices -/
  proposed : List (Nat × Op)
  snapshots : List (Nat × St)
  replica : Nat → Replica Op Id St Res Tok

inductive Inner
  | commit (k : Nat)
  | register (r ch : Nat)
  | receive (r ch : Nat)
  | timeout (r ch : Nat)
  | finish (r ch : Nat)
  | collect (r n : Nat)
  | apply (r : Nat) (snap : Bool)
  | notify (r : Nat)
  | install (r k : Nat)
  | restart (r : Nat)
deriving DecidableEq, Repr

section
variable {Op Id St Res Tok : Type}

def Replica.boot (snapshot : Nat × St) (nextCall : Nat) : Replica Op Id St Res Tok where
  state := snapshot.2
  applied := snapshot.1
  fetched := snapshot.1
  queue := []
  snapshot := snapshot
  notifyChans _ := none
  calls _ := none
  nextCall := nextCall
  sending := none

def Group.init (M : Machine Op Id St Res) : Group Op Id St Res Tok where
  log := []
  proposed := []
  snapshots := []
  replica _ := Replica.boot (0, M.init) 0

def Group.put (g : Group Op Id St Res Tok) (r : Nat) (rep : Replica Op Id St Res Tok) : Group Op Id St Res Tok :=
  { g with replica := Function.update g.replica r rep }

def Replica.setCall (rep : Replica Op Id St Res Tok) (ch : Nat) (c : Submission Op Id Res Tok) :
    Replica Op Id St Res Tok :=
  { rep with calls := Function.update rep.calls ch (some c) }

/-! ## Start -/

def Group.propose (g : Group Op Id St Res Tok) (op : Op) (index : Nat) : Group Op Id St Res Tok :=
  { g with proposed := g.proposed ++ [(index, op)] }

/-- `submitAndWait` at a replica that takes itself for the leader. -/
def Group.submit (g : Group Op Id St Res Tok) (r : Nat) (tok : Tok) (op : Op) (index : Nat) :
    Group Op Id St Res Tok :=
  let rep := g.replica r
  (g.propose op index).put r
    { rep.setCall rep.nextCall ⟨tok, op, index, .started, none⟩ with nextCall := rep.nextCall + 1 }

/-! ## The handler -/

section
variable [DecidableEq Id] (M : Machine Op Id St Res)

/-- Under the lock: the handler found at the index is told to give up. The send
blocks while the buffer is full. -/
def Replica.register (rep : Replica Op Id St Res Tok) (ch : Nat) : Option (Replica Op Id St Res Tok) :=
  match rep.calls ch with
  | some c =>
    match c.stage with
    | .started =>
      let displaced : Option (Replica Op Id St Res Tok) :=
        match rep.notifyChans c.index with
        | none => some rep
        | some old =>
          match rep.calls old.ch with
          | none => some rep
          | some o =>
            match o.ch with
            | some _ => none
            | none => some (rep.setCall old.ch { o with ch := some (M.noId, M.wrongLeader) })
      displaced.map fun rep =>
        { rep.setCall ch { c with stage := .waiting } with
          notifyChans := Function.update rep.notifyChans c.index (some ⟨M.ident c.op, ch⟩) }
    | _ => none
  | none => none

def Replica.receive (rep : Replica Op Id St Res Tok) (ch : Nat) : Option (Replica Op Id St Res Tok) :=
  match rep.calls ch with
  | some c =>
    match c.stage, c.ch with
    | .waiting, some (id, res) =>
      some (rep.setCall ch
        { c with stage := .returning (if id ≠ M.ident c.op then M.wrongLeader else res), ch := none })
    | _, _ => none
  | none => none

def Replica.timeout (rep : Replica Op Id St Res Tok) (ch : Nat) : Option (Replica Op Id St Res Tok) :=
  match rep.calls ch with
  | some c =>
    match c.stage with
    | .waiting => some (rep.setCall ch { c with stage := .returning M.timeout })
    | _ => none
  | none => none

def Replica.finish (rep : Replica Op Id St Res Tok) (ch : Nat) : Option (Replica Op Id St Res Tok × Tok × Res) :=
  match rep.calls ch with
  | some c =>
    match c.stage with
    | .returning res =>
      let notifyChans :=
        match rep.notifyChans c.index with
        | some e => if e.id = M.ident c.op then Function.update rep.notifyChans c.index none else rep.notifyChans
        | none => rep.notifyChans
      some ({ rep.setCall ch { c with stage := .done } with notifyChans }, c.tok, res)
    | _ => none
  | none => none

/-! ## The applier -/

def Replica.applyCommand (rep : Replica Op Id St Res Tok) (index : Nat) (op : Op) : Replica Op Id St Res Tok :=
  let (state, res) := M.apply rep.state op
  { rep with
    state
    applied := max rep.applied index
    sending :=
      match rep.notifyChans index with
      | some e => if e.id = M.ident op then some (e.ch, M.ident op, res) else none
      | none => none }

/-- `doSnapshot`; Raft ignores an index that its snapshot covers. -/
def Group.doSnapshot (g : Group Op Id St Res Tok) (r index : Nat) : Group Op Id St Res Tok :=
  let rep := g.replica r
  if index ≤ rep.snapshot.1 then g
  else { g.put r { rep with snapshot := (index, rep.state) } with snapshots := g.snapshots ++ [(index, rep.state)] }

def Replica.notify (rep : Replica Op Id St Res Tok) : Option (Replica Op Id St Res Tok) :=
  match rep.sending with
  | some (ch, id, res) =>
    match rep.calls ch with
    | some c =>
      match c.ch with
      | some _ => none
      | none => some { rep.setCall ch { c with ch := some (id, res) } with sending := none }
    | none => some { rep with sending := none }
  | none => none

/-- Raft's applier: it copies what was committed since its last turn. -/
def Replica.collect (rep : Replica Op Id St Res Tok) (n : Nat) : Replica Op Id St Res Tok :=
  { rep with queue := rep.queue ++ List.range' (rep.fetched + 1) (n - rep.fetched), fetched := n }

def Replica.install (rep : Replica Op Id St Res Tok) (snapshot : Nat × St) : Replica Op Id St Res Tok :=
  { rep with state := snapshot.2, applied := snapshot.1, fetched := snapshot.1, snapshot }

/-! ## Steps -/

variable (overtakes : Bool)

def Group.act (g : Group Op Id St Res Tok) : Inner → Option (Group Op Id St Res Tok × Option (Tok × Res))
  | .commit k =>
    match g.proposed[k]? with
    | some (index, op) => if index = g.log.length + 1 then some ({ g with log := g.log ++ [op] }, none) else none
    | none => none
  | .register r ch => ((g.replica r).register M ch).map fun rep => (g.put r rep, none)
  | .receive r ch => ((g.replica r).receive M ch).map fun rep => (g.put r rep, none)
  | .timeout r ch => ((g.replica r).timeout M ch).map fun rep => (g.put r rep, none)
  | .finish r ch => ((g.replica r).finish M ch).map fun (rep, answer) => (g.put r rep, some answer)
  | .collect r n =>
    if (g.replica r).fetched < n ∧ n ≤ g.log.length then some (g.put r ((g.replica r).collect n), none) else none
  | .apply r snap =>
    match (g.replica r).sending, (g.replica r).queue with
    | none, index :: queue =>
      match g.log[index - 1]? with
      | some op =>
        let g := g.put r ({ g.replica r with queue }.applyCommand M index op)
        some (if snap then g.doSnapshot r index else g, none)
      | none => none
    | _, _ => none
  | .notify r => (g.replica r).notify.map fun rep => (g.put r rep, none)
  | .install r k =>
    match g.snapshots[k]? with
    | some snapshot =>
      if (g.replica r).sending.isNone ∧ (g.replica r).fetched < snapshot.1 ∧
          (overtakes ∨ (g.replica r).queue = []) then
        some (g.put r ((g.replica r).install snapshot), none)
      else none
    | none => none
  | .restart r => some (g.put r (Replica.boot (g.replica r).snapshot (g.replica r).nextCall), none)

end

/-! ## The servers on their own -/

inductive ServiceAct (Op : Type)
  | submit (r : Nat) (op : Op) (index : Nat)
  | inner (a : Inner)
deriving DecidableEq, Repr

/-- Any operation may reach any replica, any number of times. -/
def Group.step [DecidableEq Id] (M : Machine Op Id St Res) (overtakes : Bool) (g : Group Op Id St Res Unit) :
    ServiceAct Op → Option (Group Op Id St Res Unit)
  | .submit r op index => some (g.submit r () op index)
  | .inner a => (g.act M overtakes a).map Prod.fst

/-! ## What the log says -/

section
variable (M : Machine Op Id St Res)

def Machine.replay (log : List Op) : St := log.foldl (fun s op => (M.apply s op).1) M.init

/-- The answer is the one that the command with this identity gets at its place
in the log. -/
def Machine.Answered (log : List Op) (id : Id) (res : Res) : Prop :=
  ∃ p op, log[p]? = some op ∧ M.ident op = id ∧ (M.apply (M.replay (log.take p)) op).2 = res

theorem Machine.replay_snoc (log : List Op) (op : Op) : M.replay (log ++ [op]) = (M.apply (M.replay log) op).1 := by
  simp [replay]

theorem Machine.replay_succ {log : List Op} {p : Nat} {op : Op} (h : log[p]? = some op) :
    M.replay (log.take (p + 1)) = (M.apply (M.replay (log.take p)) op).1 := by
  rw [List.take_add_one, h, Option.toList_some, M.replay_snoc]

theorem Machine.Answered.mono {M : Machine Op Id St Res} {log log' : List Op} (hle : log <+: log') {id : Id} {res : Res}
    (h : M.Answered log id res) : M.Answered log' id res := by
  obtain ⟨p, op, hp, hid, hres⟩ := h
  obtain ⟨hlt, -⟩ := List.getElem?_eq_some_iff.mp hp
  obtain ⟨rest, rfl⟩ := hle
  refine ⟨p, op, by rwa [List.getElem?_append_left hlt], hid, ?_⟩
  rwa [List.take_append_of_le_length hlt.le]

/-- Some command of the log, in the state that it was executed in, satisfies `P`. -/
def Machine.Took (log : List Op) (P : Op → St → Prop) : Prop := ∃ p op, log[p]? = some op ∧ P op (M.replay (log.take p))

theorem Machine.Took.mono {M : Machine Op Id St Res} {log log' : List Op} (hle : log <+: log') {P : Op → St → Prop}
    (h : M.Took log P) : M.Took log' P := by
  obtain ⟨p, op, hp, hP⟩ := h
  obtain ⟨hlt, -⟩ := List.getElem?_eq_some_iff.mp hp
  obtain ⟨rest, rfl⟩ := hle
  refine ⟨p, op, by rwa [List.getElem?_append_left hlt], ?_⟩
  rwa [List.take_append_of_le_length hlt.le]

@[simp] theorem Machine.not_took_nil {P : Op → St → Prop} : ¬ M.Took [] P := by
  rintro ⟨p, op, hp, -⟩
  cases hp

theorem getElem?_snoc_cases {α : Type*} {l : List α} {a b : α} {k : Nat} (h : (l ++ [a])[k]? = some b) :
    (k < l.length ∧ l[k]? = some b) ∨ (k = l.length ∧ b = a) := by
  by_cases hlt : k < l.length
  · rw [List.getElem?_append_left hlt] at h
    exact Or.inl ⟨hlt, h⟩
  · rw [List.getElem?_append_right (Nat.le_of_not_lt hlt), List.getElem?_singleton] at h
    split at h
    · cases h
      exact Or.inr ⟨by omega, rfl⟩
    · cases h

theorem Machine.took_snoc {log : List Op} {op : Op} {P : Op → St → Prop} :
    M.Took (log ++ [op]) P ↔ M.Took log P ∨ P op (M.replay log) := by
  constructor
  · rintro ⟨p, o, hp, hP⟩
    rcases getElem?_snoc_cases hp with ⟨hlt, hp⟩ | ⟨rfl, rfl⟩
    · rw [List.take_append_of_le_length hlt.le] at hP
      exact Or.inl ⟨p, o, hp, hP⟩
    · rw [List.take_left] at hP
      exact Or.inr hP
  · rintro (h | h)
    · exact h.mono (List.prefix_append _ _)
    · exact ⟨log.length, op, by simp, by rwa [List.take_left]⟩

/-- What every command keeps stays true when the log grows. -/
theorem Machine.replay_keep {P : St → Prop} (hP : ∀ s op, P s → P (M.apply s op).1) {log log' : List Op}
    (hle : log <+: log') (h : P (M.replay log)) : P (M.replay log') := by
  obtain ⟨rest, rfl⟩ := hle
  induction rest generalizing log with
  | nil => rwa [List.append_nil]
  | cons op rest ih =>
    rw [← List.singleton_append, ← List.append_assoc]
    refine ih ?_
    rw [M.replay_snoc]
    exact hP _ op h

def Machine.traceFrom {α : Type*} (f : St → Op → Option α) : St → List Op → List α
  | _, [] => []
  | s, op :: ops => (f s op).toList ++ traceFrom f (M.apply s op).1 ops

def Machine.trace {α : Type*} (f : St → Op → Option α) (log : List Op) : List α := M.traceFrom f M.init log

theorem Machine.traceFrom_append {α : Type*} (f : St → Op → Option α) (s : St) (ops ops' : List Op) :
    M.traceFrom f s (ops ++ ops') =
      M.traceFrom f s ops ++ M.traceFrom f (ops.foldl (fun s op => (M.apply s op).1) s) ops' := by
  induction ops generalizing s with
  | nil => rfl
  | cons op ops ih => simp only [List.cons_append, traceFrom, ih, List.foldl_cons, List.append_assoc]

theorem Machine.trace_snoc {α : Type*} (f : St → Op → Option α) (log : List Op) (op : Op) :
    M.trace f (log ++ [op]) = M.trace f log ++ (f (M.replay log) op).toList := by
  rw [trace, M.traceFrom_append]
  simp only [traceFrom, List.append_nil]
  rfl

theorem Machine.mem_trace {α : Type*} {f : St → Op → Option α} {log : List Op} {a : α} :
    a ∈ M.trace f log ↔ M.Took log fun op s => f s op = some a := by
  induction log using List.reverseRecOn with
  | nil => simp [trace, traceFrom]
  | append_singleton log op ih => rw [M.trace_snoc, M.took_snoc, List.mem_append, ih, Option.mem_toList]

end

end

end DistLab
