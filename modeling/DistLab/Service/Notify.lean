import DistLab.Kv.Server
import DistLab.Service.GroupSound

/-!
# Channels of one value

A handler waits on a channel with room for one value. Two senders may use it: the
applier, after it has released `kv.mu`, and another handler that got the same
index from `Start`, while it holds `kv.mu`. If nobody displaces a handler whose
index has already been executed, at most one of them does, and no send waits. But
a handler may be held up between `Start` and its registration until the index,
given out again after the log was cut, has been executed for the other one; its
send may then wait for good with `kv.mu` held, and the server stands still.
-/

namespace DistLab

section
variable {Op Id St Res : Type}

/-! ## The servers with their lock -/

structure Desk (Op Id St Res : Type) where
  group : Group Op Id St Res Unit
  /-- the call that holds `kv.mu` of the replica while it waits in its send -/
  holder : Nat → Option Nat

inductive DeskAct (Op : Type)
  | submit (r : Nat) (op : Op) (index : Nat)
  | inner (a : Inner)
  /-- the call locks `kv.mu` to register, and its send to the older handler waits -/
  | block (r ch : Nat)
deriving DecidableEq, Repr

def Inner.locks : Inner → Option Nat
  | .register r _ => some r
  | .finish r _ => some r
  | .apply r _ => some r
  | .install r _ => some r
  | _ => none

def Replica.finds (rep : Replica Op Id St Res Unit) (ch : Nat) : Option (Nat × Nat) :=
  match rep.calls ch with
  | some c =>
    match c.stage with
    | .started => (rep.notifyChans c.index).map fun e => (c.index, e.ch)
    | _ => none
  | none => none

def Replica.full (rep : Replica Op Id St Res Unit) (ch : Nat) : Bool :=
  match rep.calls ch with
  | some c => c.ch.isSome
  | none => false

def Replica.blocks (rep : Replica Op Id St Res Unit) (ch : Nat) : Bool :=
  match rep.finds ch with
  | some (_, old) => rep.full old
  | none => false

namespace Desk

def init (M : Machine Op Id St Res) : Desk Op Id St Res := ⟨Group.init M, fun _ => none⟩

variable (σ : Desk Op Id St Res)

/-- Whoever holds `kv.mu` goes on first. -/
def admits (a : Inner) : Bool :=
  match a.locks with
  | some r =>
    match σ.holder r with
    | some ch => a = .register r ch
    | none => true
  | none => true

def release : Inner → Nat → Option Nat
  | .register r _ => Function.update σ.holder r none
  | .restart r => Function.update σ.holder r none
  | _ => σ.holder

def step [DecidableEq Id] (M : Machine Op Id St Res) (overtakes : Bool) : DeskAct Op → Option (Desk Op Id St Res)
  | .submit r op index => some { σ with group := σ.group.submit r () op index }
  | .inner a => if σ.admits a then (σ.group.act M overtakes a).map fun p => ⟨p.1, σ.release a⟩ else none
  | .block r ch =>
    if σ.holder r = none ∧ (σ.group.replica r).blocks ch then
      some { σ with holder := Function.update σ.holder r (some ch) }
    else none

def sendsOn : DeskAct Op → Option (Nat × Nat)
  | .inner (.register r ch) => ((σ.group.replica r).finds ch).map fun p => (r, p.2)
  | .inner (.notify r) => (σ.group.replica r).sending.map fun s => (r, s.1)
  | _ => none

def displaces : DeskAct Op → Option (Nat × Nat)
  | .inner (.register r ch) => ((σ.group.replica r).finds ch).map fun p => (r, p.1)
  | .block r ch => ((σ.group.replica r).finds ch).map fun p => (r, p.1)
  | _ => none

end Desk

def Replica.Awaits (rep : Replica Op Id St Res Unit) (i : Nat) : Prop := i ∈ rep.queue ∨ rep.fetched < i

instance (rep : Replica Op Id St Res Unit) (i : Nat) : Decidable (rep.Awaits i) := inferInstanceAs (Decidable (_ ∨ _))

/-- A call that finds an older handler does so before its index is executed. -/
def Desk.Timely (σ : Desk Op Id St Res) (a : DeskAct Op) : Prop :=
  ∀ p ∈ σ.displaces a, (σ.group.replica p.1).Awaits p.2

instance (σ : Desk Op Id St Res) (a : DeskAct Op) : Decidable (σ.Timely a) :=
  inferInstanceAs (Decidable (∀ p ∈ σ.displaces a, _))

/-! ## Counting -/

def tally (n : Nat → Nat → Nat) : Option (Nat × Nat) → Nat → Nat → Nat
  | some (r, ch) => Function.update n r (Function.update (n r) ch (n r ch + 1))
  | none => n

def sentOn [DecidableEq Id] {M : Machine Op Id St Res} {overtakes : Bool}
    (r : Run (Desk.step · M overtakes) (Desk.init M)) : Nat → Nat → Nat → Nat
  | 0 => fun _ _ => 0
  | k + 1 => tally (sentOn r k) ((r.act k).bind (r.state k).sendsOn)

/-! ## One replica -/

/-- What a replica knows of its channels, `n` being how many values were sent on
each. -/
structure Replica.Quiet (n : Nat → Nat) (rep : Replica Op Id St Res Unit) : Prop where
  nodup : rep.queue.Nodup
  queue : ∀ j ∈ rep.queue, j ≤ rep.fetched
  unused : ∀ ch, rep.nextCall ≤ ch → rep.calls ch = none ∧ n ch = 0
  entry : ∀ i e, rep.notifyChans i = some e → ∃ c, rep.calls e.ch = some c ∧ c.index = i ∧ c.stage ≠ .started
  unsent : ∀ i e, rep.notifyChans i = some e → rep.Awaits i → n e.ch = 0
  started : ∀ ch c, rep.calls ch = some c → c.stage = .started → n ch = 0
  sending : ∀ s, rep.sending = some s → n s.1 = 0 ∧
    ∃ c, rep.calls s.1 = some c ∧ ¬ rep.Awaits c.index ∧ c.stage ≠ .started
  full : ∀ ch c, rep.calls ch = some c → c.ch ≠ none → n ch ≠ 0
  once : ∀ ch, n ch ≤ 1

variable {n : Nat → Nat} {rep : Replica Op Id St Res Unit}

theorem Replica.finds_eq_some {ch i old : Nat} (h : rep.finds ch = some (i, old)) :
    ∃ c e, rep.calls ch = some c ∧ c.stage = .started ∧ c.index = i ∧ rep.notifyChans i = some e ∧ e.ch = old := by
  unfold finds at h
  split at h
  · rename_i c hc
    split at h
    · rename_i hst
      obtain ⟨e, he, heq⟩ := Option.map_eq_some_iff.mp h
      cases heq
      exact ⟨c, e, hc, hst, rfl, he, rfl⟩
    · cases h
  · cases h

theorem Replica.finds_of_started {ch : Nat} {c : Submission Op Id Res Unit} (hc : rep.calls ch = some c)
    (hst : c.stage = .started) : rep.finds ch = (rep.notifyChans c.index).map fun e => (c.index, e.ch) := by
  simp only [finds, hc, hst]

theorem Replica.Quiet.ne_of_unused (h : rep.Quiet n) {x ch : Nat} {c : Submission Op Id Res Unit}
    (hx : rep.nextCall ≤ x) (hc : rep.calls ch = some c) : x ≠ ch := by
  rintro rfl
  rw [(h.unused x hx).1] at hc
  cases hc

/-- What is known of a call stays known when another call changes, or this one in
a way that does not matter. -/
theorem Replica.exists_setCall {P : Submission Op Id Res Unit → Prop} {x ch : Nat} {d : Submission Op Id Res Unit}
    (h : ∃ c, rep.calls x = some c ∧ P c) (hd : ∀ c, x = ch → rep.calls ch = some c → P c → P d) :
    ∃ c, (rep.setCall ch d).calls x = some c ∧ P c := by
  obtain ⟨c, hc, hP⟩ := h
  by_cases hx : x = ch
  · subst hx
    exact ⟨d, by simp only [Replica.setCall, Function.update_self], hd c rfl hc hP⟩
  · exact ⟨c, by simp only [Replica.setCall, Function.update_of_ne hx, hc], hP⟩

theorem Replica.Quiet.setCall (h : rep.Quiet n) {ch : Nat} {c d : Submission Op Id Res Unit}
    (hc : rep.calls ch = some c) (hi : d.index = c.index) (hst : d.stage ≠ .started) (hb : d.ch ≠ none → c.ch ≠ none) :
    (rep.setCall ch d).Quiet n where
  nodup := h.nodup
  queue := h.queue
  unused x hx := by
    simp only [Replica.setCall, Function.update_of_ne (h.ne_of_unused hx hc)]
    exact h.unused x hx
  entry i e he := by
    refine Replica.exists_setCall (h.entry i e he) ?_
    intro c' _ hc' hknown
    rw [hc, Option.some.injEq] at hc'
    exact ⟨by rw [hi, hc', hknown.1], hst⟩
  unsent := h.unsent
  started x c' hc' hs' := by
    rcases Replica.setCall_cases hc' with ⟨-, rfl⟩ | hc'
    · exact absurd hs' hst
    · exact h.started x c' hc' hs'
  sending s hs := by
    refine ⟨(h.sending s hs).1, Replica.exists_setCall (h.sending s hs).2 ?_⟩
    intro c' _ hc' hknown
    rw [hc, Option.some.injEq] at hc'
    exact ⟨by rw [hi, hc']; exact hknown.1, hst⟩
  full x c' hc' hb' := by
    rcases Replica.setCall_cases hc' with ⟨rfl, rfl⟩ | hc'
    · exact h.full x c hc (hb hb')
    · exact h.full x c' hc' hb'
  once := h.once

theorem Replica.Quiet.weaken {rep' : Replica Op Id St Res Unit} (h : rep.Quiet n) (hcalls : rep'.calls = rep.calls)
    (hnext : rep'.nextCall = rep.nextCall) (hsend : rep'.sending = rep.sending)
    (hentries : ∀ i e, rep'.notifyChans i = some e → rep.notifyChans i = some e)
    (hnd : rep'.queue.Nodup) (hq : ∀ j ∈ rep'.queue, j ≤ rep'.fetched) (haw : ∀ i, rep'.Awaits i → rep.Awaits i) :
    rep'.Quiet n where
  nodup := hnd
  queue := hq
  unused := by rw [hnext, hcalls]; exact h.unused
  entry i e he := by rw [hcalls]; exact h.entry i e (hentries i e he)
  unsent i e he ha := h.unsent i e (hentries i e he) (haw i ha)
  started := by rw [hcalls]; exact h.started
  sending s hs := by
    rw [hsend] at hs
    obtain ⟨hn, c, hc, ha, hst⟩ := h.sending s hs
    exact ⟨hn, c, by rw [hcalls]; exact hc, fun ha' => ha (haw _ ha'), hst⟩
  full := by rw [hcalls]; exact h.full
  once := h.once

theorem Replica.Quiet.submit (h : rep.Quiet n) (op : Op) (index : Nat) :
    { rep.setCall rep.nextCall ⟨(), op, index, .started, none⟩ with nextCall := rep.nextCall + 1 }.Quiet n := by
  have hnew := h.unused rep.nextCall le_rfl
  -- no entry and no send is for the new call
  have hold : ∀ {x c}, rep.calls x = some c → Function.update rep.calls rep.nextCall
      (some ⟨(), op, index, .started, none⟩) x = some c := by
    intro x c hc
    rw [Function.update_of_ne (h.ne_of_unused le_rfl hc).symm, hc]
  refine ⟨h.nodup, h.queue, fun x hx => ?_, fun i e he => ?_, h.unsent, fun x c hc hst => ?_, fun s hs => ?_,
    fun x c hc hb => ?_, h.once⟩
  · have hx : rep.nextCall + 1 ≤ x := hx
    refine ⟨?_, (h.unused x (by omega)).2⟩
    simp only [Replica.setCall, Function.update_of_ne (show x ≠ rep.nextCall by omega), (h.unused x (by omega)).1]
  · obtain ⟨c, hc, hi, hst⟩ := h.entry i e he
    exact ⟨c, hold hc, hi, hst⟩
  · rcases Replica.setCall_cases hc with ⟨rfl, -⟩ | hc
    · exact hnew.2
    · exact h.started x c hc hst
  · obtain ⟨hn, c, hc, ha, hst⟩ := h.sending s hs
    exact ⟨hn, c, hold hc, ha, hst⟩
  · rcases Replica.setCall_cases hc with ⟨-, rfl⟩ | hc
    · exact absurd rfl hb
    · exact h.full x c hc hb

theorem Replica.Quiet.send (h : rep.Quiet n) {ch : Nat} {c : Submission Op Id Res Unit} (v : Id × Res)
    (hc : rep.calls ch = some c) (hst : c.stage ≠ .started) (hn : n ch = 0)
    (hentry : ∀ i e, rep.notifyChans i = some e → rep.Awaits i → e.ch ≠ ch)
    (hsend : ∀ s, rep.sending = some s → s.1 ≠ ch) :
    (rep.setCall ch { c with ch := some v }).Quiet (Function.update n ch (n ch + 1)) := by
  refine ⟨h.nodup, h.queue, fun x hx => ?_, fun i e he => ?_, fun i e he ha => ?_, fun x d hd hs => ?_, fun s hs => ?_,
    fun x d hd hb => ?_, fun x => ?_⟩
  · simp only [Replica.setCall, Function.update_of_ne (h.ne_of_unused hx hc)]
    exact h.unused x hx
  · refine Replica.exists_setCall (h.entry i e he) ?_
    intro d _ hd hknown
    rw [hc, Option.some.injEq] at hd
    exact ⟨by rw [← hknown.1, ← hd], hst⟩
  · rw [Function.update_of_ne (hentry i e he ha)]
    exact h.unsent i e he ha
  · rcases Replica.setCall_cases hd with ⟨-, rfl⟩ | hd'
    · exact absurd hs hst
    · have hne : x ≠ ch := by
        rintro rfl
        rw [hc] at hd'
        cases hd'
        exact hst hs
      rw [Function.update_of_ne hne]
      exact h.started x d hd' hs
  · have hne := hsend s hs
    obtain ⟨hn, d, hd, ha, hs⟩ := h.sending s hs
    rw [Function.update_of_ne hne]
    exact ⟨hn, d, by simp only [Replica.setCall, Function.update_of_ne hne, hd], ha, hs⟩
  · by_cases hx : x = ch
    · rw [hx, Function.update_self]
      exact Nat.succ_ne_zero _
    · rw [Function.update_of_ne hx]
      simp only [Replica.setCall, Function.update_of_ne hx] at hd
      exact h.full x d hd hb
  · by_cases hx : x = ch
    · rw [hx, Function.update_self, hn]
    · rw [Function.update_of_ne hx]
      exact h.once x

theorem Replica.Quiet.enroll (h : rep.Quiet n) {ch : Nat} {c : Submission Op Id Res Unit} (w : Waiter Id)
    (hc : rep.calls ch = some c) (hst : c.stage = .started) (hw : w.ch = ch) :
    { rep.setCall ch { c with stage := .waiting } with
      notifyChans := Function.update rep.notifyChans c.index (some w) }.Quiet n := by
  have hn := h.started ch c hc hst
  -- whoever is registered or about to be told is another call
  have hother : ∀ {x d}, rep.calls x = some d → d.stage ≠ .started → x ≠ ch := by
    rintro x d hd hs rfl
    rw [hc] at hd
    cases hd
    exact hs hst
  refine ⟨h.nodup, h.queue, fun x hx => ?_, fun i e he => ?_, fun i e he ha => ?_, fun x d hd hs => ?_, fun s hs => ?_,
    fun x d hd hb => ?_, h.once⟩
  · simp only [Replica.setCall, Function.update_of_ne (h.ne_of_unused hx hc)]
    exact h.unused x hx
  · by_cases hi : i = c.index
    · subst hi
      simp only [Function.update_self, Option.some.injEq] at he
      subst he
      exact ⟨{ c with stage := .waiting }, by simp only [Replica.setCall, hw, Function.update_self], rfl,
        fun hst => by cases hst⟩
    · simp only [Function.update_of_ne hi] at he
      obtain ⟨d, hd, hdi, hs⟩ := h.entry i e he
      exact ⟨d, by simp only [Replica.setCall, Function.update_of_ne (hother hd hs), hd], hdi, hs⟩
  · by_cases hi : i = c.index
    · subst hi
      simp only [Function.update_self, Option.some.injEq] at he
      subst he
      rw [hw]
      exact hn
    · simp only [Function.update_of_ne hi] at he
      exact h.unsent i e he ha
  · rcases Replica.setCall_cases hd with ⟨-, rfl⟩ | hd
    · cases hs
    · exact h.started x d hd hs
  · obtain ⟨hn, d, hd, ha, hs⟩ := h.sending s hs
    exact ⟨hn, d, by simp only [Replica.setCall, Function.update_of_ne (hother hd hs), hd], ha, hs⟩
  · rcases Replica.setCall_cases hd with ⟨rfl, rfl⟩ | hd
    · exact h.full x c hc hb
    · exact h.full x d hd hb

variable {M : Machine Op Id St Res}

/-- When the older handler's index is still to be executed, it has got nothing,
and the call that finds it does not wait. -/
theorem Replica.Quiet.register (h : rep.Quiet n) {ch : Nat} {rep' : Replica Op Id St Res Unit}
    (hreg : rep.register M ch = some rep') (ht : ∀ p ∈ rep.finds ch, rep.Awaits p.1) :
    rep'.Quiet (match rep.finds ch with
      | some p => Function.update n p.2 (n p.2 + 1)
      | none => n) := by
  unfold Replica.register at hreg
  split at hreg
  · rename_i c hc
    split at hreg
    · rename_i hst
      obtain ⟨rep₁, h₁, rfl⟩ := Option.map_eq_some_iff.mp hreg
      rw [finds_of_started hc hst] at ht ⊢
      split at h₁
      · rename_i hnone
        cases h₁
        simp only [hnone, Option.map_none]
        exact h.enroll _ hc hst rfl
      · rename_i old hold
        obtain ⟨o, ho, hoi, hos⟩ := h.entry _ _ hold
        have ha : rep.Awaits c.index := ht (c.index, old.ch) (by simp [hold])
        have hn := h.unsent _ _ hold ha
        have hne : old.ch ≠ ch := by
          intro heq
          rw [heq, hc] at ho
          cases ho
          exact hos hst
        simp only [hold, Option.map_some, ho] at h₁ ⊢
        split at h₁
        · cases h₁
        · cases h₁
          -- first the entry goes to the new call; then nobody else is told on the old channel
          have hswap : Function.update (Function.update rep.calls old.ch
              (some { o with ch := some (M.noId, M.wrongLeader) })) ch (some { c with stage := .waiting }) =
              Function.update (Function.update rep.calls ch (some { c with stage := .waiting })) old.ch
                (some { o with ch := some (M.noId, M.wrongLeader) }) :=
            Function.update_comm hne _ _ _
          have hsent := (h.enroll ⟨M.ident c.op, ch⟩ hc hst rfl).send (c := o) (M.noId, M.wrongLeader)
            (by simp only [Replica.setCall, Function.update_of_ne hne, ho]) hos hn
            (fun i e he _ heq => ?_) fun s hs heq => ?_
          · simp only [Replica.setCall] at hsent ⊢
            rw [hswap]
            exact hsent
          · by_cases hi : i = c.index
            · subst hi
              simp only [Function.update_self, Option.some.injEq] at he
              subst he
              exact hne heq.symm
            · simp only [Function.update_of_ne hi] at he
              obtain ⟨d, hd, hdi, -⟩ := h.entry i e he
              rw [heq, ho] at hd
              cases hd
              exact hi (hdi.symm.trans hoi)
          · obtain ⟨-, d, hd, hna, -⟩ := h.sending s hs
            rw [heq, ho] at hd
            cases hd
            rw [hoi] at hna
            exact hna ha
    · cases hreg
  · cases hreg

theorem Replica.Quiet.timeout (h : rep.Quiet n) {ch : Nat} {rep' : Replica Op Id St Res Unit}
    (hto : rep.timeout M ch = some rep') : rep'.Quiet n := by
  unfold Replica.timeout at hto
  split at hto
  · rename_i c hc
    split at hto
    · cases hto
      exact h.setCall hc rfl (fun hst => by cases hst) fun hb => hb
    · cases hto
  · cases hto

theorem Replica.Quiet.collect (h : rep.Quiet n) {m : Nat} (hlt : rep.fetched < m) : (rep.collect m).Quiet n := by
  refine h.weaken rfl rfl rfl (fun i e he => he) ?_ (fun j hj => ?_) fun i ha => ?_
  · refine List.nodup_append.mpr ⟨h.nodup, List.nodup_range', fun a ha b hb => ?_⟩
    rw [List.mem_range'_1] at hb
    have := h.queue a ha
    omega
  · show j ≤ m
    rcases List.mem_append.mp hj with hj | hj
    · exact (h.queue j hj).trans hlt.le
    · rw [List.mem_range'_1] at hj
      omega
  · rcases ha with ha | ha
    · rcases List.mem_append.mp ha with ha | ha
      · exact Or.inl ha
      · rw [List.mem_range'_1] at ha
        exact Or.inr (by omega)
    · have ha : m < i := ha
      exact Or.inr (by omega)

theorem Replica.Quiet.install (h : rep.Quiet n) {s : Nat × St} (hlt : rep.fetched < s.1) : (rep.install s).Quiet n := by
  refine h.weaken rfl rfl rfl (fun i e he => he) h.nodup (fun j hj => (h.queue j hj).trans hlt.le) fun i ha => ?_
  rcases ha with ha | ha
  · exact Or.inl ha
  · exact Or.inr (lt_trans hlt ha)

theorem Replica.Quiet.boot (h : rep.Quiet n) :
    (Replica.boot rep.snapshot rep.nextCall : Replica Op Id St Res Unit).Quiet n where
  nodup := List.nodup_nil
  queue j hj := by cases hj
  unused ch hch := ⟨rfl, (h.unused ch hch).2⟩
  entry i e he := by cases he
  unsent i e he := by cases he
  started ch c hc := by cases hc
  sending s hs := by cases hs
  full ch c hc := by cases hc
  once := h.once

theorem Replica.Quiet.notify (h : rep.Quiet n) {s : Nat × Id × Res} (hs : rep.sending = some s) :
    ∃ rep', rep.notify = some rep' ∧ rep'.Quiet (Function.update n s.1 (n s.1 + 1)) := by
  obtain ⟨hn, c, hc, ha, hst⟩ := h.sending s hs
  obtain ⟨ch, id, res⟩ := s
  have hempty : c.ch = none := by
    by_contra hb
    exact h.full ch c hc hb hn
  -- after the send the applier has nobody to tell
  have hfree : { rep with sending := none }.Quiet n :=
    ⟨h.nodup, h.queue, h.unused, h.entry, h.unsent, h.started, (fun s hs => by cases hs), h.full,
      h.once⟩
  refine ⟨{ rep.setCall ch { c with ch := some (id, res) } with sending := none }, ?_, ?_⟩
  · simp only [Replica.notify, hs, hc, hempty]
  · refine hfree.send (id, res) hc hst hn (fun i e he hai heq => ?_) fun s hs => by cases hs
    obtain ⟨d, hd, hdi, -⟩ := h.entry i e he
    rw [heq, hc] at hd
    cases hd
    rw [hdi] at ha
    exact ha hai

section
variable [DecidableEq Id]

theorem Replica.Quiet.receive (h : rep.Quiet n) {ch : Nat} {rep' : Replica Op Id St Res Unit}
    (hrec : rep.receive M ch = some rep') : rep'.Quiet n := by
  unfold Replica.receive at hrec
  split at hrec
  · rename_i c hc
    split at hrec
    · cases hrec
      exact h.setCall hc rfl (fun hst => by cases hst) fun hb => absurd rfl hb
    · cases hrec
  · cases hrec

theorem Replica.Quiet.finish (h : rep.Quiet n) {ch : Nat} {rep' : Replica Op Id St Res Unit} {ans : Unit × Res}
    (hfin : rep.finish M ch = some (rep', ans)) : rep'.Quiet n := by
  unfold Replica.finish at hfin
  split at hfin
  · rename_i c hc
    split at hfin
    · cases hfin
      have hdone : (rep.setCall ch { c with stage := .done }).Quiet n :=
        h.setCall hc rfl (fun hst => by cases hst) fun hb => hb
      refine hdone.weaken rfl rfl rfl (fun i e he => ?_) h.nodup h.queue fun i ha => ha
      simp only at he
      split at he
      · split at he
        · by_cases hi : i = c.index
          · rw [hi, Function.update_self] at he
            cases he
          · rw [Function.update_of_ne hi] at he
            exact he
        · exact he
      · exact he
    · cases hfin
  · cases hfin

theorem Replica.Quiet.applyCommand (h : rep.Quiet n) {j : Nat} {queue : List Nat} {op : Op}
    (hq : rep.queue = j :: queue) (snapshot : Nat × St) :
    { { rep with queue }.applyCommand M j op with snapshot }.Quiet n := by
  have hnd := h.nodup
  rw [hq, List.nodup_cons] at hnd
  have hle : ∀ i ∈ queue, i ≤ rep.fetched := fun i hi => h.queue i (by rw [hq]; exact List.mem_cons_of_mem _ hi)
  have haw : ∀ i, i ∈ queue ∨ rep.fetched < i → rep.Awaits i := fun i hi =>
    hi.imp_left fun hi => by rw [hq]; exact List.mem_cons_of_mem _ hi
  refine ⟨hnd.2, hle, h.unused, h.entry, fun i e he ha => h.unsent i e he (haw i ha), h.started, fun s hs => ?_, h.full,
    h.once⟩
  simp only [Replica.applyCommand] at hs
  split at hs
  · rename_i e he
    split at hs
    · cases hs
      obtain ⟨c, hc, hci, hst⟩ := h.entry j e he
      refine ⟨h.unsent j e he (Or.inl (by rw [hq]; exact List.mem_cons_self)), c, hc, ?_, hst⟩
      rintro (hmem | hlt)
      · rw [hci] at hmem
        exact hnd.1 hmem
      · have := h.queue j (by rw [hq]; exact List.mem_cons_self)
        have hlt : rep.fetched < c.index := hlt
        omega
    · cases hs
  · cases hs

/-! ## All replicas -/

structure Desk.Quiet (n : Nat → Nat → Nat) (σ : Desk Op Id St Res) : Prop where
  replica : ∀ r, (σ.group.replica r).Quiet (n r)
  free : ∀ r, σ.holder r = none

variable {n : Nat → Nat → Nat} {σ σ' : Desk Op Id St Res} {overtakes : Bool}

omit [DecidableEq Id] in
theorem Desk.quiet_init : (Desk.init M).Quiet fun _ _ => 0 where
  replica r := by
    constructor
    · exact List.nodup_nil
    · intro j hj
      cases hj
    · intro ch _
      exact ⟨rfl, rfl⟩
    · intro i e he
      cases he
    · intro i e he
      cases he
    · intro ch c hc
      cases hc
    · intro s hs
      cases hs
    · intro ch c hc
      cases hc
    · intro ch
      exact Nat.zero_le 1
  free _ := rfl

omit [DecidableEq Id] in
theorem Desk.Quiet.put (h : σ.Quiet n) {r : Nat} {rep : Replica Op Id St Res Unit} {m : Nat → Nat} (hrep : rep.Quiet m)
    {g : Group Op Id St Res Unit} (hg : g.replica = (σ.group.put r rep).replica) {holder : Nat → Option Nat}
    (hfree : ∀ q, holder q = none) : Desk.Quiet (Function.update n r m) ⟨g, holder⟩ where
  replica q := by
    show (g.replica q).Quiet _
    rw [hg]
    by_cases hq : q = r
    · subst hq
      rw [Group.put_self, Function.update_self]
      exact hrep
    · rw [Group.put_ne _ _ hq, Function.update_of_ne hq]
      exact h.replica q
  free := hfree

omit [DecidableEq Id] in
theorem Desk.Quiet.put_same (h : σ.Quiet n) {r : Nat} {rep : Replica Op Id St Res Unit} (hrep : rep.Quiet (n r))
    {g : Group Op Id St Res Unit} (hg : g.replica = (σ.group.put r rep).replica) {holder : Nat → Option Nat}
    (hfree : ∀ q, holder q = none) : Desk.Quiet n ⟨g, holder⟩ := by
  have := h.put hrep hg hfree
  rwa [Function.update_eq_self] at this

omit [DecidableEq Id] in
theorem Desk.Quiet.release (h : σ.Quiet n) (a : Inner) (q : Nat) : σ.release a q = none := by
  have hupd : ∀ r, Function.update σ.holder r none q = none := by
    intro r
    by_cases hq : q = r
    · rw [hq, Function.update_self]
    · rw [Function.update_of_ne hq]
      exact h.free q
  cases a with
  | register r ch => exact hupd r
  | restart r => exact hupd r
  | _ => exact h.free q

omit [DecidableEq Id] in
theorem Desk.Quiet.not_blocks (h : σ.Quiet n) {r ch : Nat} (ht : σ.Timely (.block r ch)) :
    (σ.group.replica r).blocks ch = false := by
  cases hf : (σ.group.replica r).finds ch with
  | none => simp only [Replica.blocks, hf]
  | some p =>
    obtain ⟨i, old⟩ := p
    have ha : (σ.group.replica r).Awaits i := ht (r, i) (by simp [Desk.displaces, hf])
    obtain ⟨c, e, -, -, -, he, rfl⟩ := Replica.finds_eq_some hf
    obtain ⟨o, ho, -, -⟩ := (h.replica r).entry i e he
    have hempty : o.ch = none := by
      by_contra hb
      exact (h.replica r).full _ o ho hb ((h.replica r).unsent i e he ha)
    simp only [Replica.blocks, hf, Replica.full, ho, hempty, Option.isSome_none]

theorem Desk.Quiet.inner (h : σ.Quiet n) {a : Inner} (ht : σ.Timely (.inner a)) {g : Group Op Id St Res Unit}
    {ans : Option (Unit × Res)} (hact : σ.group.act M overtakes a = some (g, ans)) :
    Desk.Quiet (tally n (σ.sendsOn (.inner a))) ⟨g, σ.release a⟩ := by
  have hfree := h.release a
  cases a with
  | commit k =>
    simp only [Group.act] at hact
    split at hact
    · split at hact
      · cases hact
        exact ⟨h.replica, hfree⟩
      · cases hact
    · cases hact
  | register r ch =>
    simp only [Group.act, Option.map_eq_some_iff, Prod.mk.injEq] at hact
    obtain ⟨rep, hrep, rfl, -⟩ := hact
    have hreg := (h.replica r).register hrep fun p hp => ht (r, p.1) (by
      simp only [Desk.displaces, Option.mem_def] at hp ⊢
      rw [hp, Option.map_some])
    simp only [Desk.sendsOn]
    cases hf : (σ.group.replica r).finds ch with
    | none =>
      rw [hf] at hreg
      exact h.put_same hreg rfl hfree
    | some p =>
      rw [hf] at hreg
      exact h.put hreg rfl hfree
  | receive r ch =>
    simp only [Group.act, Option.map_eq_some_iff, Prod.mk.injEq] at hact
    obtain ⟨rep, hrep, rfl, -⟩ := hact
    exact h.put_same ((h.replica r).receive hrep) rfl hfree
  | timeout r ch =>
    simp only [Group.act, Option.map_eq_some_iff, Prod.mk.injEq] at hact
    obtain ⟨rep, hrep, rfl, -⟩ := hact
    exact h.put_same ((h.replica r).timeout hrep) rfl hfree
  | finish r ch =>
    simp only [Group.act, Option.map_eq_some_iff, Prod.mk.injEq] at hact
    obtain ⟨⟨rep, answer⟩, hrep, rfl, -⟩ := hact
    exact h.put_same ((h.replica r).finish hrep) rfl hfree
  | collect r m =>
    simp only [Group.act] at hact
    split at hact
    · rename_i hm
      cases hact
      exact h.put_same ((h.replica r).collect hm.1) rfl hfree
    · cases hact
  | apply r snap =>
    simp only [Group.act] at hact
    split at hact
    · rename_i hq
      split at hact
      · rename_i op hop
        cases hact
        split
        · obtain ⟨snapshot, hput⟩ := σ.group.doSnapshot_put r
            ({ σ.group.replica r with queue := _ }.applyCommand M _ op) _
          exact h.put_same ((h.replica r).applyCommand hq snapshot) hput hfree
        · exact h.put_same ((h.replica r).applyCommand hq (σ.group.replica r).snapshot) rfl hfree
      · cases hact
    · cases hact
  | notify r =>
    simp only [Group.act, Option.map_eq_some_iff, Prod.mk.injEq] at hact
    obtain ⟨rep, hrep, rfl, -⟩ := hact
    cases hs : (σ.group.replica r).sending with
    | none => simp [Replica.notify, hs] at hrep
    | some s =>
      obtain ⟨rep', hrep', hq⟩ := (h.replica r).notify hs
      rw [hrep'] at hrep
      cases hrep
      simp only [Desk.sendsOn, hs]
      exact h.put hq rfl hfree
  | install r k =>
    simp only [Group.act] at hact
    split at hact
    · split at hact
      · rename_i hm
        cases hact
        exact h.put_same ((h.replica r).install hm.2.1) rfl hfree
      · cases hact
    · cases hact
  | restart r =>
    cases hact
    exact h.put_same (h.replica r).boot rfl hfree

/-- One step sends at most the first value on a channel. -/
theorem Desk.Quiet.step (h : σ.Quiet n) {a : DeskAct Op} (ht : σ.Timely a) (hs : σ.step M overtakes a = some σ') :
    σ'.Quiet (tally n (σ.sendsOn a)) := by
  cases a with
  | submit r op index =>
    cases hs
    exact h.put_same (g := σ.group.submit r () op index) ((h.replica r).submit op index) rfl h.free
  | inner a =>
    simp only [Desk.step] at hs
    split at hs
    · obtain ⟨⟨g, ans⟩, hact, rfl⟩ := Option.map_eq_some_iff.mp hs
      exact h.inner ht hact
    · cases hs
  | block r ch =>
    simp only [Desk.step, h.not_blocks ht] at hs
    simp at hs

/-! ## Runs -/

/-- When a call that finds an older handler does so before its index is executed,
at most one value is ever sent on a channel, no call waits while it holds `kv.mu`,
and the applier's send does not wait. -/
theorem notify_never_blocks (r : Run (Desk.step · M overtakes) (Desk.init M)) (hr : r.Meets Desk.Timely) (k q : Nat) :
    (∀ ch, sentOn r k q ch ≤ 1) ∧ (r.state k).holder q = none ∧
      (∀ ch, (r.state k).Timely (.block q ch) → ((r.state k).group.replica q).blocks ch = false) ∧
      (((r.state k).group.replica q).sending ≠ none →
        ((r.state k).step M overtakes (.inner (.notify q))).isSome = true) := by
  have hquiet : (r.state k).Quiet (sentOn r k) := by
    refine r.induction (P := fun k σ => σ.Quiet (sentOn r k)) Desk.quiet_init ?_ ?_ k
    · intro k ha h
      rw [sentOn, ha]
      exact h
    · intro k a ha h hstep
      rw [sentOn, ha]
      exact h.step (hr k a ha) hstep
  refine ⟨(hquiet.replica q).once, hquiet.free q, fun ch ht => hquiet.not_blocks ht, fun hne => ?_⟩
  obtain ⟨s, hs⟩ := Option.ne_none_iff_exists'.mp hne
  obtain ⟨rep', hrep', -⟩ := (hquiet.replica q).notify hs
  simp only [Desk.step, Desk.admits, Inner.locks, if_true, Group.act, hrep', Option.map_some, Option.isSome_some]

/-! ## A server that stands still -/

/-- The call holds `kv.mu` and sends to a handler that no longer listens and has
not taken its first value. -/
structure Replica.Jammed (rep : Replica Op Id St Res Unit) (b : Nat) (e : Waiter Id) : Prop where
  call : ∃ c, rep.calls b = some c ∧ c.stage = .started ∧ rep.notifyChans c.index = some e
  old : ∃ o res v, rep.calls e.ch = some o ∧ o.stage = .returning res ∧ o.ch = some v
  bound : b < rep.nextCall ∧ e.ch < rep.nextCall

omit [DecidableEq Id] in
theorem Replica.Jammed.setCall {rep : Replica Op Id St Res Unit} {b : Nat} {e : Waiter Id} (h : rep.Jammed b e)
    {x : Nat} {d : Submission Op Id Res Unit} (hx : x ≠ e.ch)
    (hb : ∀ c, x = b → rep.calls b = some c → d.stage = c.stage ∧ d.index = c.index) :
    (rep.setCall x d).Jammed b e where
  call := by
    refine Replica.exists_setCall h.call ?_
    intro c hxb hc hknown
    obtain ⟨hs, hi⟩ := hb c hxb.symm (hxb ▸ hc)
    exact ⟨hs.trans hknown.1, by rw [hi]; exact hknown.2⟩
  old := by
    obtain ⟨o, res, v, ho, hst, hv⟩ := h.old
    exact ⟨o, res, v, by simp only [Replica.setCall, Function.update_of_ne (Ne.symm hx), ho], hst, hv⟩
  bound := h.bound

omit [DecidableEq Id] in
theorem Replica.Jammed.ne_of_empty {rep : Replica Op Id St Res Unit} {b : Nat} {e : Waiter Id} (h : rep.Jammed b e)
    {x : Nat} {c : Submission Op Id Res Unit} (hc : rep.calls x = some c) (hch : c.ch = none) : x ≠ e.ch := by
  rintro rfl
  obtain ⟨o, res, v, ho, -, hv⟩ := h.old
  rw [hc, Option.some.injEq] at ho
  rw [← ho, hch] at hv
  cases hv

omit [DecidableEq Id] in
theorem Replica.Jammed.setCall_waiting {rep : Replica Op Id St Res Unit} {b : Nat} {e : Waiter Id} (h : rep.Jammed b e)
    {x : Nat} {c : Submission Op Id Res Unit} (d : Submission Op Id Res Unit) (hc : rep.calls x = some c)
    (hw : c.stage = .waiting) : (rep.setCall x d).Jammed b e := by
  refine h.setCall ?_ ?_
  · rintro rfl
    obtain ⟨o, res, v, ho, hst, -⟩ := h.old
    rw [hc, Option.some.injEq] at ho
    rw [← ho, hw] at hst
    cases hst
  · rintro c' rfl -
    obtain ⟨o, ho, hst, -⟩ := h.call
    rw [hc, Option.some.injEq] at ho
    rw [← ho, hw] at hst
    cases hst

omit [DecidableEq Id] in
theorem Replica.Jammed.fill {rep : Replica Op Id St Res Unit} {b : Nat} {e : Waiter Id} (h : rep.Jammed b e)
    {x : Nat} {c : Submission Op Id Res Unit} (hc : rep.calls x = some c) (hch : c.ch = none) {v : Id × Res}
    {sending : Option (Nat × Id × Res)} :
    { rep.setCall x { c with ch := some v } with sending }.Jammed b e := by
  have hset := h.setCall (d := { c with ch := some v }) (h.ne_of_empty hc hch) (by
    intro c' heq hc'
    rw [← heq, hc, Option.some.injEq] at hc'
    rw [← hc']
    exact ⟨rfl, rfl⟩)
  exact ⟨hset.call, hset.old, hset.bound⟩

omit [DecidableEq Id] in
theorem Replica.Jammed.register_none {rep : Replica Op Id St Res Unit} {b : Nat} {e : Waiter Id} (h : rep.Jammed b e) :
    rep.register M b = none := by
  obtain ⟨c, hc, hst, he⟩ := h.call
  obtain ⟨o, res, v, ho, -, hv⟩ := h.old
  simp only [Replica.register, hc, hst, he, ho, hv, Option.map_none]

def Desk.Stuck (σ : Desk Op Id St Res) (q : Nat) : Prop := ∃ b e, σ.holder q = some b ∧ (σ.group.replica q).Jammed b e

theorem Desk.Stuck.locked {q : Nat} (h : σ.Stuck q) {a : Inner} (ha : a.locks = some q) :
    σ.step M overtakes (.inner a) = none := by
  obtain ⟨b, e, hb, hj⟩ := h
  simp only [Desk.step, Desk.admits, ha, hb, decide_eq_true_eq]
  split
  · rename_i heq
    subst heq
    simp only [Group.act, hj.register_none, Option.map_none]
  · rfl

omit [DecidableEq Id] in
theorem Desk.Stuck.put {q : Nat} (h : σ.Stuck q) {r : Nat} {rep : Replica Op Id St Res Unit}
    {g : Group Op Id St Res Unit} (hg : g.replica = (σ.group.put r rep).replica) {holder : Nat → Option Nat}
    (hh : holder q = σ.holder q)
    (hrep : ∀ b e, r = q → (σ.group.replica q).Jammed b e → rep.Jammed b e) : Desk.Stuck ⟨g, holder⟩ q := by
  obtain ⟨b, e, hb, hj⟩ := h
  refine ⟨b, e, hh.trans hb, ?_⟩
  show (g.replica q).Jammed b e
  rw [hg]
  by_cases hq : q = r
  · subst hq
    rw [Group.put_self]
    exact hrep b e rfl hj
  · rw [Group.put_ne _ _ hq]
    exact hj

omit [DecidableEq Id] in
theorem Desk.Stuck.put_other {q : Nat} (h : σ.Stuck q) {r : Nat} {rep : Replica Op Id St Res Unit}
    {g : Group Op Id St Res Unit} (hg : g.replica = (σ.group.put r rep).replica) {holder : Nat → Option Nat}
    (hh : holder q = σ.holder q) (hne : r ≠ q) : Desk.Stuck ⟨g, holder⟩ q :=
  h.put hg hh fun _ _ heq => absurd heq hne

theorem Desk.Stuck.inner {q : Nat} (h : σ.Stuck q) {a : Inner} (ha : a.locks ≠ some q) (hr : a ≠ .restart q)
    {g : Group Op Id St Res Unit} {ans : Option (Unit × Res)} (hact : σ.group.act M overtakes a = some (g, ans)) :
    Desk.Stuck ⟨g, σ.release a⟩ q := by
  -- a step that takes the lock is one of another server
  have other : ∀ {r}, a.locks = some r → r ≠ q := fun hl heq => ha (heq ▸ hl)
  cases Group.act_cases hact with
  | commit => exact h
  | register => exact h.put_other rfl (Function.update_of_ne (other rfl).symm ..) (other rfl)
  | displace => exact h.put_other rfl (Function.update_of_ne (other rfl).symm ..) (other rfl)
  | receive hc hst => exact h.put rfl rfl fun b e heq hj => by subst heq; exact hj.setCall_waiting _ hc hst
  | timeout hc hst => exact h.put rfl rfl fun b e heq hj => by subst heq; exact hj.setCall_waiting _ hc hst
  | finish => exact h.put_other rfl rfl (other rfl)
  | collect => exact h.put rfl rfl fun b e heq hj => by subst heq; exact ⟨hj.call, hj.old, hj.bound⟩
  | apply => exact h.put_other rfl rfl (other rfl)
  | applySnapshot => exact h.put_other rfl rfl (other rfl)
  | notify _ hc hch => exact h.put rfl rfl fun b e heq hj => by subst heq; exact hj.fill hc hch
  | unheard => exact h.put rfl rfl fun b e heq hj => by subst heq; exact ⟨hj.call, hj.old, hj.bound⟩
  | install => exact h.put_other rfl rfl (other rfl)
  | @restart r =>
    have hne : r ≠ q := fun heq => hr (by rw [heq])
    exact h.put_other rfl (Function.update_of_ne hne.symm ..) hne

/-- Only a restart of the server ends it. -/
theorem Desk.Stuck.step {q : Nat} (h : σ.Stuck q) {a : DeskAct Op} {σ' : Desk Op Id St Res}
    (hs : σ.step M overtakes a = some σ') (hr : a ≠ .inner (.restart q)) : σ'.Stuck q := by
  cases a with
  | submit r op index =>
    cases hs
    refine h.put rfl rfl fun b e heq hj => ?_
    subst heq
    have hne : ∀ {x}, x < (σ.group.replica r).nextCall → x ≠ (σ.group.replica r).nextCall := Nat.ne_of_lt
    obtain ⟨hcall, hold, hbound⟩ := hj.setCall (d := ⟨(), op, index, .started, none⟩) (hne hj.bound.2).symm
      fun _ heq => absurd heq.symm (hne hj.bound.1)
    exact ⟨hcall, hold, Nat.lt_succ_of_lt hbound.1, Nat.lt_succ_of_lt hbound.2⟩
  | inner a =>
    have hlock : a.locks ≠ some q := by
      intro ha
      rw [h.locked ha] at hs
      cases hs
    simp only [Desk.step] at hs
    split at hs
    · obtain ⟨⟨g, ans⟩, hact, rfl⟩ := Option.map_eq_some_iff.mp hs
      exact h.inner hlock (fun heq => hr (by rw [heq])) hact
    · cases hs
  | block r ch =>
    simp only [Desk.step] at hs
    split at hs
    · rename_i hfree
      cases hs
      obtain ⟨b, e, hb, hj⟩ := h
      have hne : q ≠ r := by
        rintro rfl
        rw [hfree.1] at hb
        cases hb
      exact ⟨b, e, by simp only [Function.update_of_ne hne, hb], hj⟩
    · cases hs

/-- No handler of the server registers or returns any more and its applier
executes nothing, until it is started again. -/
theorem Run.stuck (r : Run (Desk.step · M overtakes) (Desk.init M)) {q m n : Nat} (hm : (r.state m).Stuck q)
    (hmn : m ≤ n) (hup : ∀ k, m ≤ k → k < n → r.act k ≠ some (.inner (.restart q))) : (r.state n).Stuck q := by
  refine r.induction_from (P := fun _ σ => σ.Stuck q) hmn hm (fun _ _ _ _ h => h) ?_
  intro k a hk hkn ha h hstep
  refine h.step hstep ?_
  intro heq
  exact hup k hk hkn (heq ▸ ha)

end

/-! ## Two servers take turns as leader -/

/-- Server 0 leads, and its call at index 1 gives up; then server 1, whose log
cuts off what server 0 started at indices 1 and 2; then server 0 again, which
starts another command at index 2. The first call at index 2 is late: `early` are
the steps it takes before the second registers. -/
def leaderTurns (early late : List (DeskAct KvOp)) (key value : GoString) : List (DeskAct KvOp) :=
  [.submit 0 ⟨⟨.put, key, value⟩, 6, 1⟩ 1, .inner (.register 0 0), .inner (.timeout 0 0), .inner (.finish 0 0),
   .submit 0 ⟨⟨.put, key, value⟩, 7, 1⟩ 2] ++ early ++
  [.submit 1 ⟨⟨.put, key, value⟩, 8, 1⟩ 1, .inner (.commit 2), .submit 0 ⟨⟨.append, key, value⟩, 9, 1⟩ 2,
   .inner (.register 0 2), .inner (.commit 3), .inner (.collect 0 2), .inner (.apply 0 false),
   .inner (.apply 0 false)] ++ late

theorem displaced_exec : (exec (Desk.step · kvMachine false) (Desk.init kvMachine)
    (leaderTurns [.inner (.register 0 1)] [.inner (.notify 0)] [107] [120])).isSome = true := by decide +kernel

/-- The second call finds the first and sends it the empty reply. -/
def displaced : Run (Desk.step · kvMachine false) (Desk.init kvMachine) :=
  Run.ofList (leaderTurns [.inner (.register 0 1)] [.inner (.notify 0)] [107] [120])
    (Option.some_get displaced_exec).symm

theorem displaced_never_blocks : sentOn displaced 15 0 1 = 1 ∧ sentOn displaced 15 0 2 = 1 ∧
    (∀ ch, sentOn displaced 15 0 ch ≤ 1) ∧ (displaced.state 15).holder 0 = none :=
  ⟨by decide +kernel, by decide +kernel,
    (notify_never_blocks displaced (Run.meets_ofList _ (by decide +kernel)) 15 0).1,
    (notify_never_blocks displaced (Run.meets_ofList _ (by decide +kernel)) 15 0).2.1⟩

theorem heldUp_exec : (exec (Desk.step · kvMachine false) (Desk.init kvMachine)
    (leaderTurns [] [.inner (.timeout 0 2), .inner (.notify 0), .block 0 1] [107] [120])).isSome = true := by
  decide +kernel

/-- The first call at index 2 is held up between `Start` and its registration. The
second gives up waiting just before the applier tells it, and the first then
finds it. -/
def heldUp : Run (Desk.step · kvMachine false) (Desk.init kvMachine) :=
  Run.ofList (leaderTurns [] [.inner (.timeout 0 2), .inner (.notify 0), .block 0 1] [107] [120])
    (Option.some_get heldUp_exec).symm

theorem heldUp_stuck : (heldUp.state 16).Stuck 0 := by
  refine ⟨1, ⟨(9, 1), 2⟩, by decide +kernel, ⟨?_, ?_, by decide +kernel⟩⟩
  · exact ⟨⟨(), ⟨⟨.put, [107], [120]⟩, 7, 1⟩, 2, .started, none⟩, by decide +kernel, rfl, by decide +kernel⟩
  · exact ⟨⟨(), ⟨⟨.append, [107], [120]⟩, 9, 1⟩, 2, .returning ⟨.errTimeout, []⟩, some ((9, 1), ⟨.ok, []⟩)⟩,
      ⟨.errTimeout, []⟩, ((9, 1), ⟨.ok, []⟩), by decide +kernel, rfl, rfl⟩

/-- The call holds the server's lock and waits, and goes on waiting whatever
happens, unless the server is started again. -/
theorem heldUp_blocks : (heldUp.state 16).holder 0 = some 1 ∧ ((heldUp.state 16).group.replica 0).blocks 1 = true ∧
    ∀ (r : Run (Desk.step · kvMachine false) (Desk.init kvMachine)) (m n : Nat), r.state m = heldUp.state 16 → m ≤ n →
      (∀ k, m ≤ k → k < n → r.act k ≠ some (.inner (.restart 0))) → (r.state n).Stuck 0 :=
  ⟨by decide +kernel, by decide +kernel, fun r _ _ hm hmn hup => r.stuck (hm ▸ heldUp_stuck) hmn hup⟩

end

end DistLab
