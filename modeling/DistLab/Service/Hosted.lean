import DistLab.Service.OverRaft

/-!
# A host and its Raft server are a replica

The view of one server as a replica of `Group`: its host gives the state
machine and the handlers, its Raft server gives what was fetched, what waits and
what the persister holds. `Hosted` is this view together with what is known of
the commands on their way; the steps of either side keep it.
-/

namespace DistLab

/-! ## What Raft feeds -/

section
variable {N : Nat} {C : Type}

/-- The largest index that the applier of Raft has copied or a snapshot covers. -/
def Server.fetched (srv : Server N C) : Nat :=
  match srv.applier with
  | none => srv.rf.lastApplied
  | some b => max srv.rf.lastApplied b.commitIndex

def Server.waiting (srv : Server N C) : List Nat :=
  srv.queued ++
    match srv.applier with
    | none => []
    | some b => List.range' b.next b.entries.length

structure Server.SameFeed (srv srv' : Server N C) : Prop where
  fetched : srv'.fetched = srv.fetched
  waiting : srv'.waiting = srv.waiting
  index : srv'.rf.lastIncludedIndex = srv.rf.lastIncludedIndex
  snapshot : srv'.rf.persister.snapshot = srv.rf.persister.snapshot

theorem Server.SameFeed.refl (srv : Server N C) : srv.SameFeed srv := ⟨rfl, rfl, rfl, rfl⟩

theorem Server.SameFeed.of_keeps {srv srv' : Server N C} (hk : Raft.Keeps srv.rf srv'.rf)
    (hla : srv'.rf.lastApplied = srv.rf.lastApplied) (hap : srv'.applier = srv.applier)
    (hq : srv'.queued = srv.queued) : srv.SameFeed srv' where
  fetched := by unfold Server.fetched; rw [hap, hla]
  waiting := by unfold Server.waiting; rw [hq, hap]
  index := hk.index
  snapshot := hk.snapshot

theorem Server.Receive.sameFeed {srv srv' : Server N C} {p : Packet N C} {out : List (Packet N C)}
    (h : srv.Receive p srv' out) : srv.SameFeed srv' := by
  obtain ⟨hap, hch, -, -⟩ := h.rest
  exact .of_keeps h.keeps h.lastApplied hap (by unfold Server.queued; rw [hch])

theorem Server.fetched_le {srv : Server N C} (ha : Applying srv) : srv.fetched ≤ srv.rf.commitIndex := by
  have happ := ha.applied
  unfold Server.fetched
  split
  · exact happ
  · rename_i b hb
    have := (ha.batch b hb).commit
    omega

theorem Server.queued_snoc (srv : Server N C) {srv' : Server N C} {c : C} {i : Nat}
    (h : srv'.applyCh = srv.applyCh ++ [.command c i]) : srv'.queued = srv.queued ++ [i] := by
  simp [Server.queued, h]

theorem Server.Act.sameFeed {srv srv' : Server N C} {l : Local N C} {out : List (Packet N C)} (h : srv.Act l srv' out)
    (ha : Applying srv) (hsend : ∀ c i, .command c i ∉ srv.senders) {s : Fin N}
    (hl : (Action.server s l).internal = true) (hc : l ≠ .collect) : srv.SameFeed srv' := by
  cases h with
  | electionTimeout _ => exact .of_keeps (Raft.keeps_startElection srv.rf) rfl rfl rfl
  | append _ _ => exact .refl srv
  | install _ _ => exact .refl srv
  | collect _ _ => exact absurd rfl hc
  | skip hb _ hle => exact absurd (ha.batch _ hb).fresh (Nat.not_lt.mpr hle)
  | @send b e rest hb he _ =>
    refine ⟨?_, ?_, rfl, rfl⟩
    · simp only [fetched, hb]
    · simp only [waiting, hb, he, List.length_cons, List.range'_succ]
      rw [srv.queued_snoc rfl, List.append_assoc, List.singleton_append]
  | @finish b hb he =>
    have hk := Raft.keeps_applied srv.rf b.commitIndex
    refine ⟨?_, ?_, hk.index, hk.snapshot⟩
    · simp only [fetched, hb, Raft.applied_lastApplied]
    · simp only [waiting, hb, he, List.length_nil, List.range'_zero]
      rfl
  | @sendSnapshot k m hm =>
    refine ⟨rfl, ?_, rfl, rfl⟩
    cases m with
    | command c i => exact absurd (List.mem_of_getElem? hm) (hsend c i)
    | snapshot snap t i => simp [waiting, queued]
  | _ => cases hl

end

/-! ## A host is a replica -/

section
variable {N : Nat} {Op Id St Res Tok : Type} {M : Machine Op Id St Res} {good : Op → Prop}

def Server.feed (srv : Server N Op) (c : Codec M good) (hand : Option (Op × Nat)) (applied : Nat) : Feed St where
  applied := applied
  fetched := srv.fetched
  queue := (hand.map Prod.snd).toList ++ srv.waiting
  snapshot := (srv.rf.lastIncludedIndex, c.installSnapshot M.init srv.rf.persister.snapshot.data)

theorem Server.SameFeed.feed {srv srv' : Server N Op} (h : srv.SameFeed srv') (c : Codec M good)
    (hand : Option (Op × Nat)) (applied : Nat) : srv'.feed c hand applied = srv.feed c hand applied := by
  simp only [Server.feed, h.fetched, h.waiting, h.index, h.snapshot]

/-- The host and its Raft server are the replica, and all commands on their way
to the state machine are those of the committed list. -/
structure Hosted (c : Codec M good) (log : List Op) (srv : Server N Op) (x : Host Op Id St Res Tok)
    (rep : Replica Op Id St Res Tok) : Prop where
  replica : ∃ applied, rep = x.replica (srv.feed c x.hand applied)
  state : ∃ l, x.state = M.replay l ∧ ∀ op ∈ l, good op
  fetched : srv.fetched ≤ log.length
  queued : ∀ op i, .command op i ∈ srv.applyCh → 0 < i ∧ log[i - 1]? = some op
  batch : ∀ b, srv.applier = some b → ∀ n e, b.entries[n]? = some e → log[b.next - 1 + n]? = some e.command
  hand : ∀ op i, x.hand = some (op, i) → log[i - 1]? = some op ∧ i ∈ srv.service.commands ∧ x.sending = none
  holding : ∀ m, srv.service.holding = some m → x.hand = none ∧ x.sending = none

section
variable {c : Codec M good} {log log' : List Op} {srv srv' : Server N Op} {x : Host Op Id St Res Tok}
  {rep : Replica Op Id St Res Tok}

theorem Hosted.mono (h : Hosted c log srv x rep) (hle : log <+: log') : Hosted c log' srv x rep where
  replica := h.replica
  state := h.state
  fetched := h.fetched.trans hle.length_le
  queued op i hi := ⟨(h.queued op i hi).1, prefix_getElem hle (h.queued op i hi).2⟩
  batch b hb n e hn := prefix_getElem hle (h.batch b hb n e hn)
  hand op i hi := ⟨prefix_getElem hle (h.hand op i hi).1, (h.hand op i hi).2⟩
  holding := h.holding

theorem Hosted.moved (h : Hosted c log srv x rep) (hf : srv.SameFeed srv') (hs : srv'.service = srv.service)
    (hq : ∀ op i, .command op i ∈ srv'.applyCh → 0 < i ∧ log[i - 1]? = some op)
    (hb : ∀ b, srv'.applier = some b → ∀ n e, b.entries[n]? = some e → log[b.next - 1 + n]? = some e.command) :
    Hosted c log srv' x rep where
  replica := by
    obtain ⟨applied, ha⟩ := h.replica
    exact ⟨applied, by rw [hf.feed, ha]⟩
  state := h.state
  fetched := by rw [hf.fetched]; exact h.fetched
  queued := hq
  batch := hb
  hand := by rw [hs]; exact h.hand
  holding := by rw [hs]; exact h.holding

theorem Hosted.receive (h : Hosted c log srv x rep) {p : Packet N Op} {out : List (Packet N Op)}
    (hrec : srv.Receive p srv' out) : Hosted c log srv' x rep := by
  obtain ⟨hap, hch, -, hsv⟩ := hrec.rest
  exact h.moved hrec.sameFeed hsv (by rw [hch]; exact h.queued) (by rw [hap]; exact h.batch)

theorem Hosted.internal (h : Hosted c log srv x rep) {l : Local N Op} {out : List (Packet N Op)}
    (hact : srv.Act l srv' out) (ha : Applying srv) (hsend : ∀ c i, .command c i ∉ srv.senders) {s : Fin N}
    (hl : (Action.server s l).internal = true) (hc : l ≠ .collect) : Hosted c log srv' x rep := by
  have hf := hact.sameFeed ha hsend hl hc
  cases hact with
  | electionTimeout _ => exact h.moved hf rfl h.queued h.batch
  | append _ _ => exact h
  | install _ _ => exact h
  | collect _ _ => exact absurd rfl hc
  | skip hb _ hle => exact absurd (ha.batch _ hb).fresh (Nat.not_lt.mpr hle)
  | @send b e rest hb he hlt =>
    refine h.moved hf rfl (fun op i hi => ?_) fun b' hb' n d hn => ?_
    · rcases List.mem_append.mp hi with hi | hi
      · exact h.queued op i hi
      · cases List.mem_singleton.mp hi
        exact ⟨by omega, h.batch b hb 0 e (by rw [he]; rfl)⟩
    · cases hb'
      rw [← h.batch b hb (n + 1) d (by rw [he]; exact hn)]
      congr 1
      simp only
      omega
  | finish hb he => exact h.moved hf rfl h.queued fun b' hb' => by cases hb'
  | @sendSnapshot k m hm =>
    refine h.moved hf rfl (fun op i hi => ?_) h.batch
    rcases List.mem_append.mp hi with hi | hi
    · exact h.queued op i hi
    · cases List.mem_singleton.mp hi
      exact absurd (List.mem_of_getElem? hm) (hsend op i)
  | _ => cases hl

theorem Hosted.served (h : Hosted c log srv x rep) {y : Host Op Id St Res Tok} {rep' : Replica Op Id St Res Tok}
    (hrep : ∀ f, rep = x.replica f → rep' = y.replica f) (hst : y.state = x.state) (hh : y.hand = x.hand)
    (hs : x.sending = none → y.sending = none) : Hosted c log srv y rep' where
  replica := by
    obtain ⟨applied, ha⟩ := h.replica
    exact ⟨applied, by rw [hh]; exact hrep _ ha⟩
  state := by rw [hst]; exact h.state
  fetched := h.fetched
  queued := h.queued
  batch := h.batch
  hand op i hi := by
    rw [hh] at hi
    obtain ⟨h1, h2, h3⟩ := h.hand op i hi
    exact ⟨h1, h2, hs h3⟩
  holding m hm := by
    rw [hh]
    exact ⟨(h.holding m hm).1, hs (h.holding m hm).2⟩

end

end

/-! ## The handlers and the applier do not read the feed -/

section
variable {Op Id St Res Tok : Type} [DecidableEq Id] {M : Machine Op Id St Res}

omit [DecidableEq Id] in
theorem Host.register_replica (x : Host Op Id St Res Tok) (f : Feed St) (ch : Nat) :
    (x.replica f).register M ch = (x.alone.register M ch).map fun rep => (x.update rep).replica f := by
  simp only [Replica.register, Host.alone, Host.replica]
  cases x.calls ch with
  | none => rfl
  | some c =>
    cases hst : c.stage with
    | started =>
      simp only [hst]
      cases x.notifyChans c.index with
      | none => rfl
      | some old =>
        simp only
        cases x.calls old.ch with
        | none => rfl
        | some o => cases hch : o.ch <;> simp only [hch] <;> rfl
    | _ => simp only [hst]; rfl

theorem Host.receive_replica (x : Host Op Id St Res Tok) (f : Feed St) (ch : Nat) :
    (x.replica f).receive M ch = (x.alone.receive M ch).map fun rep => (x.update rep).replica f := by
  simp only [Replica.receive, Host.alone, Host.replica]
  cases x.calls ch with
  | none => rfl
  | some c => cases hst : c.stage <;> cases hch : c.ch <;> simp only [hst, hch] <;> rfl

omit [DecidableEq Id] in
theorem Host.timeout_replica (x : Host Op Id St Res Tok) (f : Feed St) (ch : Nat) :
    (x.replica f).timeout M ch = (x.alone.timeout M ch).map fun rep => (x.update rep).replica f := by
  simp only [Replica.timeout, Host.alone, Host.replica]
  cases x.calls ch with
  | none => rfl
  | some c => cases hst : c.stage <;> simp only [hst] <;> rfl

theorem Host.finish_replica (x : Host Op Id St Res Tok) (f : Feed St) (ch : Nat) :
    (x.replica f).finish M ch =
      (x.alone.finish M ch).map fun (rep, answer) => ((x.update rep).replica f, answer) := by
  simp only [Replica.finish, Host.alone, Host.replica]
  cases x.calls ch with
  | none => rfl
  | some c => cases hst : c.stage <;> simp only [hst] <;> rfl

omit [DecidableEq Id] in
theorem Host.notify_replica (x : Host Op Id St Res Tok) (f : Feed St) :
    (x.replica f).notify = x.alone.notify.map fun rep => (x.update rep).replica f := by
  simp only [Replica.notify, Host.alone, Host.replica]
  cases x.sending with
  | none => rfl
  | some p =>
    simp only
    cases x.calls p.1 with
    | none => rfl
    | some c => cases hch : c.ch <;> simp only [hch] <;> rfl

theorem Host.applyCommand_replica (x : Host Op Id St Res Tok) (f : Feed St) (index : Nat) (op : Op) :
    (x.replica f).applyCommand M index op =
      (Stack.executed M x op index).replica { f with applied := max f.applied index } := rfl
end

/-! ## What the handlers leave alone -/

section
variable {Op Id St Res Tok : Type} {M : Machine Op Id St Res} {rep rep' : Replica Op Id St Res Tok} {ch : Nat}

theorem Replica.register_keeps (h : rep.register M ch = some rep') :
    rep'.state = rep.state ∧ rep'.sending = rep.sending := by
  simp only [register] at h
  split at h
  · split at h
    · rw [Option.map_eq_some_iff] at h
      obtain ⟨rep₁, hd, rfl⟩ := h
      split at hd
      · cases hd; exact ⟨rfl, rfl⟩
      · split at hd
        · cases hd; exact ⟨rfl, rfl⟩
        · split at hd
          · cases hd
          · cases hd; exact ⟨rfl, rfl⟩
    · cases h
  · cases h

theorem Replica.timeout_keeps (h : rep.timeout M ch = some rep') :
    rep'.state = rep.state ∧ rep'.sending = rep.sending := by
  simp only [timeout] at h
  split at h
  · split at h
    · cases h; exact ⟨rfl, rfl⟩
    · cases h
  · cases h

theorem Replica.notify_keeps (h : rep.notify = some rep') : rep'.state = rep.state ∧ rep'.sending = none := by
  simp only [notify] at h
  split at h
  · split at h
    · split at h
      · cases h
      · cases h; exact ⟨rfl, rfl⟩
    · cases h; exact ⟨rfl, rfl⟩
  · cases h

variable [DecidableEq Id]

theorem Replica.receive_keeps (h : rep.receive M ch = some rep') :
    rep'.state = rep.state ∧ rep'.sending = rep.sending := by
  simp only [receive] at h
  split at h
  · split at h
    · cases h; exact ⟨rfl, rfl⟩
    · cases h
  · cases h

theorem Replica.finish_keeps {tok : Tok} {res : Res} (h : rep.finish M ch = some (rep', tok, res)) :
    rep'.state = rep.state ∧ rep'.sending = rep.sending := by
  simp only [finish] at h
  split at h
  · split at h
    · cases h; exact ⟨rfl, rfl⟩
    · cases h
  · cases h

end

end DistLab
