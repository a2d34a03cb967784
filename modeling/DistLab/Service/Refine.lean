import DistLab.Service.GroupSound
import DistLab.Service.Hosted

/-!
# The Raft servers are a group

A service over Raft servers does nothing that the group of `Group` cannot do.
The committed list of the group is made lazily: it is extended when an applier
of Raft copies entries that no other one has copied before. By then they are
committed in the ledger of the cluster, so all such copies are parts of one
list, and each entry was proposed for its index by a call of `Start`.
-/

namespace DistLab

/-! ## Steps of the group -/

section
variable {Op Id St Res Tok : Type} [DecidableEq Id] {M : Machine Op Id St Res} {overtakes : Bool}
  {g g' g'' : Group Op Id St Res Tok}

inductive Group.Acts (M : Machine Op Id St Res) (overtakes : Bool) (g : Group Op Id St Res Tok) :
    List (Tok × Res) → Group Op Id St Res Tok → Prop
  | refl : Acts M overtakes g [] g
  | snoc {l : List (Tok × Res)} {a : Inner} {ans : Option (Tok × Res)} {g' g'' : Group Op Id St Res Tok} :
      Acts M overtakes g l g' → g'.act M overtakes a = some (g'', ans) → Acts M overtakes g (l ++ ans.toList) g''

theorem Group.Acts.silent (h : g.Acts M overtakes [] g') {a : Inner} (ha : g'.act M overtakes a = some (g'', none)) :
    g.Acts M overtakes [] g'' := h.snoc ha

/-- Commands that were proposed for the next indices can be committed. -/
theorem Group.acts_commit (extra : List Op)
    (h : ∀ n op, extra[n]? = some op → (g.log.length + n + 1, op) ∈ g.proposed) :
    g.Acts M overtakes [] { g with log := g.log ++ extra } := by
  induction extra using List.reverseRecOn with
  | nil => simpa using Group.Acts.refl
  | append_singleton extra op ih =>
    have hprev : g.Acts M overtakes [] { g with log := g.log ++ extra } := by
      refine ih fun n o hn => h n o ?_
      rw [List.getElem?_append_left (List.getElem?_eq_some_iff.mp hn).1]
      exact hn
    obtain ⟨k, hk⟩ := List.mem_iff_getElem?.mp (h extra.length op (by simp))
    refine hprev.silent (a := .commit k) ?_
    simp [Group.act, hk]

structure Group.Has (good : Op → Prop) (g : Group Op Id St Res Tok) : Prop where
  proposed : ∀ p ∈ g.proposed, good p.2
  log : ∀ op ∈ g.log, good op

omit [DecidableEq Id] in
theorem Group.Has.init {good : Op → Prop} : (Group.init M : Group Op Id St Res Tok).Has good where
  proposed p hp := by cases hp
  log op hop := by cases hop

omit [DecidableEq Id] in
theorem Group.Has.propose {good : Op → Prop} (h : g.Has good) {op : Op} (hop : good op) (index : Nat) :
    (g.propose op index).Has good := ⟨forall_mem_snoc h.proposed hop, h.log⟩

omit [DecidableEq Id] in
theorem Group.Has.submit {good : Op → Prop} (h : g.Has good) {op : Op} (hop : good op) (r : Nat) (tok : Tok)
    (index : Nat) : (g.submit r tok op index).Has good := ⟨(h.propose hop index).proposed, h.log⟩

theorem Group.Has.acts {good : Op → Prop} (h : g.Has good) {l : List (Tok × Res)} (hacts : g.Acts M overtakes l g') :
    g'.Has good := by
  induction hacts with
  | refl => exact h
  | snoc _ ha ih =>
    have hact := Group.act_cases ha
    refine ⟨by rw [hact.proposed]; exact ih.proposed, ?_⟩
    rcases hact.log with heq | ⟨k, op, -, hk, heq⟩
    · rw [heq]
      exact ih.log
    · rw [heq]
      exact forall_mem_snoc ih.log (ih.proposed _ (List.mem_of_getElem? hk))

end

/-! ## The simulation -/

section
variable {N : Nat} {Op Id St Res Tok : Type} {M : Machine Op Id St Res} {good : Op → Prop}
  {c : Codec M good}
  {h : Ledger (Fin N) (LogEntry Op)} {τ τ' : Cluster N Op} {g g' : Group Op Id St Res Tok}

/-- The log of the group is committed in the cluster, and all entries and
snapshots of the cluster are known to the group. -/
structure Grounded (c : Codec M good) (h : Ledger (Fin N) (LogEntry Op)) (τ : Cluster N Op) (g : Group Op Id St Res Tok) :
    Prop where
  rel : Rel h τ
  applying : ∀ s, Applying (τ.server s)
  log : ∃ t l, h.Committed t l ∧ g.log = l.map LogEntry.command
  proposed : ∀ k e, τ.Holds k e → (k + 1, e.command) ∈ g.proposed
  snapshots : ∀ snap t i, τ.Carries snap t i → i = 0 ∧ snap.data = [] ∨
    ∃ l, snap.data = c.encode (M.replay l) ∧ (∀ op ∈ l, good op) ∧ (i, M.replay l) ∈ g.snapshots ∧ i ≤ g.log.length

theorem Grounded.step (hb : Grounded c h τ g) {a : Action N Op} (hstep : τ.step a = some τ') (hlog : g'.log = g.log)
    (hprop : g.proposed ⊆ g'.proposed) (hsnap : g.snapshots ⊆ g'.snapshots)
    (hstart : ∀ s op i t, a = .server s (.start op) → ((τ.server s).rf.start op).2 = some (i, t) →
      (i, op) ∈ g'.proposed)
    (hmade : ∀ s i data, a = .server s (.snapshot i data) → (τ.server s).rf.lastIncludedIndex < i →
      ∃ l, data = c.encode (M.replay l) ∧ (∀ op ∈ l, good op) ∧ (i, M.replay l) ∈ g'.snapshots ∧
        i ≤ g'.log.length) :
    ∃ h', Grounded c h' τ' g' := by
  obtain ⟨h', hle, hr'⟩ := hb.rel.step hstep
  refine ⟨h', hr', fun s => (hb.applying s).step hb.rel hr' hle hstep, ?_, fun k e hh => ?_, fun snap t i hc => ?_⟩
  · obtain ⟨t, l, hc, heq⟩ := hb.log
    exact ⟨t, l, Ledger.Le.of_committed hle hc, hlog.trans heq⟩
  · rcases hb.rel.holds_step hstep hh with hh | ⟨s, ha, hst⟩
    · exact hprop (hb.proposed k e hh)
    · exact hstart s _ _ _ ha hst
  · rcases Cluster.carries_step hb.rel.saved hstep hc with hc | ⟨s, data, entry, ha, rfl, hlt, -⟩
    · rcases hb.snapshots snap t i hc with h0 | ⟨l, hl, hgood, hin, hle⟩
      · exact Or.inl h0
      · exact Or.inr ⟨l, hl, hgood, hsnap hin, by rw [hlog]; exact hle⟩
    · exact Or.inr (hmade s i data ha hlt)

theorem Grounded.plain (hb : Grounded c h τ g) {a : Action N Op} (hstep : τ.step a = some τ')
    (hstart : ∀ s op, a ≠ .server s (.start op)) (hmade : ∀ s i data, a ≠ .server s (.snapshot i data)) :
    ∃ h', Grounded c h' τ' g :=
  hb.step hstep rfl (List.Subset.refl _) (List.Subset.refl _) (fun s op _ _ ha => absurd ha (hstart s op))
    fun s i data ha => absurd ha (hmade s i data)

theorem Grounded.put (hb : Grounded c h τ g) (r : Nat) (rep : Replica Op Id St Res Tok) : Grounded c h τ (g.put r rep) where
  rel := hb.rel
  applying := hb.applying
  log := hb.log
  proposed := hb.proposed
  snapshots := hb.snapshots

theorem Grounded.init : Grounded c (Ledger.start (Fin N) (LogEntry Op)) (Cluster.init N Op)
    (Group.init M : Group Op Id St Res Tok) where
  rel := Rel.init
  applying := Applying.init
  log := ⟨0, [], Or.inl rfl, rfl⟩
  proposed k e hh := absurd hh Cluster.not_holds_init
  snapshots snap t i hc := by
    obtain ⟨rfl, -, rfl⟩ := Cluster.carries_init hc
    exact Or.inl ⟨rfl, rfl⟩

/-- Once a server has committed its entries up to an index, the group can have
them in its log. -/
theorem Grounded.commit [DecidableEq Id] (hb : Grounded c h τ g) (overtakes : Bool) (s : Fin N) :
    ∃ g', g.Acts M overtakes [] g' ∧ g.log <+: g'.log ∧ g'.replica = g.replica ∧ Grounded c h τ g' ∧
      (τ.server s).rf.commitIndex ≤ g'.log.length ∧
      ∀ k e, k < (τ.server s).rf.commitIndex → (τ.server s).rf.fullLog[k]? = some e →
        g'.log[k]? = some e.command := by
  obtain ⟨t, l, hl, hlog⟩ := hb.log
  have hlen := hb.rel.length_commit s
  have hcom := hb.rel.committed s
  have hread : ∀ {m : List (LogEntry Op)}, (τ.server s).rf.fullLog.take (τ.server s).rf.commitIndex <+: m →
      ∀ k e, k < (τ.server s).rf.commitIndex → (τ.server s).rf.fullLog[k]? = some e →
        (m.map LogEntry.command)[k]? = some e.command := by
    intro m hpre k e hk he
    rw [List.getElem?_map, prefix_getElem hpre (by rw [List.getElem?_take_of_lt hk]; exact he)]
    rfl
  rcases hb.rel.sound.committed_compat hl hcom with hpre | hpre
  · -- the server is ahead: the group commits the rest of its entries
    obtain ⟨rest, hrest⟩ := hpre
    have hmap : g.log ++ rest.map LogEntry.command =
        ((τ.server s).rf.fullLog.take (τ.server s).rf.commitIndex).map LogEntry.command := by
      rw [hlog, ← List.map_append, hrest]
    refine ⟨{ g with log := g.log ++ rest.map LogEntry.command }, Group.acts_commit _ fun n op hn => ?_,
      List.prefix_append _ _, rfl, ⟨hb.rel, hb.applying, ⟨_, _, hcom, hmap⟩, hb.proposed, fun snap t i hc => ?_⟩, ?_, ?_⟩
    · rw [List.getElem?_map, Option.map_eq_some_iff] at hn
      obtain ⟨e, he, rfl⟩ := hn
      have hin : (l ++ rest)[g.log.length + n]? = some e := by
        rw [hlog, List.length_map, List.getElem?_append_right (by omega), Nat.add_sub_cancel_left]
        exact he
      rw [hrest] at hin
      exact hb.proposed _ e (Or.inl ⟨s, prefix_getElem (List.take_prefix _ _) hin⟩)
    · refine (hb.snapshots snap t i hc).imp_right fun ⟨l, hl, hgood, hin, hle⟩ => ⟨l, hl, hgood, hin, hle.trans ?_⟩
      exact (List.prefix_append _ _).length_le
    · simp only [hmap, List.length_map]
      exact hlen.ge
    · simp only [hmap]
      exact hread List.prefix_rfl
  · refine ⟨g, .refl, List.prefix_rfl, rfl, hb, ?_, ?_⟩
    · rw [hlog, List.length_map, ← hlen]
      exact hpre.length_le
    · rw [hlog]
      exact hread hpre

structure Sim (c : Codec M good) (σ : Stack N Op Id St Res Tok) (g : Group Op Id St Res Tok) : Prop where
  raft : ∃ h, Grounded c h σ.raft g
  host : ∀ s : Fin N, Hosted c g.log (σ.raft.server s) (σ.host s) (g.replica s)

theorem Sim.init : Sim c (Stack.init N M : Stack N Op Id St Res Tok) (Group.init M) where
  raft := ⟨_, Grounded.init⟩
  host s := by
    refine ⟨⟨0, ?_⟩, ⟨[], rfl, fun op hop => by cases hop⟩, le_rfl, fun op i hi => ?_, fun b hb => ?_,
      fun op i hi => ?_, fun m hm => ?_⟩
    · simp only [Group.init, Replica.boot, Stack.init, Host.boot, Host.replica, Server.feed]
      rw [show ((Cluster.init N Op).server s).rf.persister.snapshot.data = [] from rfl, c.installSnapshot_nil]
      rfl
    · cases hi
    · cases hb
    · cases hi
    · cases hm

/-! ## Step by step -/

variable {σ σ' : Stack N Op Id St Res Tok} {s : Fin N}

theorem Stack.setHost_self (σ : Stack N Op Id St Res Tok) (s : Fin N) (x : Host Op Id St Res Tok) :
    (σ.setHost s x).host s = x := Function.update_self ..

theorem Stack.setHost_of_ne (σ : Stack N Op Id St Res Tok) {s r : Fin N} (x : Host Op Id St Res Tok) (hr : r ≠ s) :
    (σ.setHost s x).host r = σ.host r := Function.update_of_ne hr ..

theorem Group.put_fin_ne (g : Group Op Id St Res Tok) {s r : Fin N} (rep : Replica Op Id St Res Tok) (hr : r ≠ s) :
    (g.put s rep).replica r = g.replica r := g.put_ne rep fun he => hr (Fin.ext he)

theorem Sim.both (hs : Sim c σ g) {l : Local N Op} {x : Host Op Id St Res Tok} (hstep : σ.both s l x = some σ')
    (hbase : ∀ τ', σ.raft.step (.server s l) = some τ' → ∃ h, Grounded c h τ' g') (hlog : g.log <+: g'.log)
    (hrest : ∀ r : Fin N, r ≠ s → g'.replica r = g.replica r)
    (hhost : ∀ srv out, (σ.raft.server s).Act l srv out → Hosted c g'.log srv x (g'.replica s)) : Sim c σ' g' := by
  simp only [Stack.both, Option.map_eq_some_iff] at hstep
  obtain ⟨τ', hτ, rfl⟩ := hstep
  refine ⟨hbase τ' hτ, fun r => ?_⟩
  obtain ⟨q, l', srv, out, ha, hl, hτ'⟩ | ⟨_, _, _, _, ha, -⟩ | ⟨_, ha, -⟩ := Cluster.step_cases hτ
  · cases ha
    by_cases hr : r = s
    · subst hr
      rw [Stack.setHost_self]
      simp only [Stack.setHost, hτ', Cluster.put_self]
      exact hhost srv out (Server.act_cases hl)
    · rw [Stack.setHost_of_ne _ _ hr]
      simp only [Stack.setHost, hτ', Cluster.put_ne _ _ _ hr, hrest r hr]
      exact (hs.host r).mono hlog
  · cases ha
  · cases ha

theorem Sim.alone (hs : Sim c σ g) {y : Host Op Id St Res Tok} {rep : Replica Op Id St Res Tok}
    (hhost : Hosted c g.log (σ.raft.server s) y rep) : Sim c (σ.setHost s y) (g.put s rep) where
  raft := by
    obtain ⟨h, hb⟩ := hs.raft
    exact ⟨h, hb.put s rep⟩
  host r := by
    by_cases hr : r = s
    · subst hr
      rw [Stack.setHost_self, Group.put_self]
      exact hhost
    · rw [Stack.setHost_of_ne _ _ hr, Group.put_fin_ne _ _ hr]
      exact hs.host r

theorem Sim.internal (hs : Sim c σ g) {a : Action N Op} (ha : a.internal = true) (hc : ∀ s, a ≠ .server s .collect)
    (hstep : σ.raft.step a = some τ') : Sim c { σ with raft := τ' } g := by
  obtain ⟨h, hb⟩ := hs.raft
  refine ⟨hb.plain hstep (fun s op he => ?_) (fun s i data he => ?_), fun r => ?_⟩
  · rw [he] at ha; cases ha
  · rw [he] at ha; cases ha
  · obtain heq | ⟨l, out, rfl, hact⟩ | ⟨k, p, out, -, -, -, hrec⟩ := Cluster.server_cases hstep r
    · simp only [heq]; exact hs.host r
    · exact (hs.host r).internal hact (hb.applying r) (hb.rel.server r).bounded.senders ha fun he => hc r (he ▸ rfl)
    · exact (hs.host r).receive hrec

section
variable [DecidableEq Id] {overtakes : Bool}

/-- The applier of Raft copies: the group commits what is new to it and collects. -/
theorem Sim.collect (hs : Sim c σ g) (hstep : σ.raft.step (.server s .collect) = some τ') :
    ∃ g', g.Acts M overtakes [] g' ∧ Sim c { σ with raft := τ' } g' := by
  obtain ⟨h, hb⟩ := hs.raft
  obtain ⟨g₁, hacts, hle, hrep, hb₁, hlen, hread⟩ := hb.commit overtakes s
  obtain ⟨h', hb'⟩ := hb₁.plain hstep (fun _ _ he => by cases he) (fun _ _ _ he => by cases he)
  obtain ⟨q, l, srv, out, ha, hl, rfl⟩ | ⟨_, _, _, _, ha, -⟩ | ⟨_, ha, -⟩ := Cluster.step_cases hstep
  · cases ha
    have hact := Server.act_cases hl
    cases hact with
    | @collect b hnone hcol =>
    have hidx := (hb.applying s).index
    rw [Server.reach_none hnone] at hidx
    obtain ⟨hok, hnext, hbc⟩ := batchOk_collect (hb.rel.shaped.server s)
      (hb.rel.server s).tracks.core.commit_le hidx hcol
    have hlt : (σ.raft.server s).rf.lastApplied < (σ.raft.server s).rf.commitIndex := by
      unfold Raft.collect at hcol
      split at hcol
      · cases hcol
      · omega
    have hhost := (hs.host s).mono hle
    obtain ⟨applied, hview⟩ := hhost.replica
    have hfet : (g₁.replica s).fetched = (σ.raft.server s).rf.lastApplied := by
      rw [hrep, hview]
      simp only [Host.replica, Server.feed, Server.fetched, hnone]
    refine ⟨g₁.put s ((g₁.replica s).collect (σ.raft.server s).rf.commitIndex),
      hacts.silent (a := .collect s (σ.raft.server s).rf.commitIndex) ?_, ⟨h', hb'.put _ _⟩,
      fun r => ?_⟩
    · simp [Group.act, hfet, hlt, hlen]
    by_cases hr : r = s
    · subst hr
      rw [Group.put_self, Cluster.put_self]
      have hsum := hok.sum
      refine ⟨⟨applied, ?_⟩, hhost.state, ?_, hhost.queued, fun b' hb' n e hn => ?_, hhost.hand, hhost.holding⟩
      · rw [hrep, hview]
        simp only [Replica.collect, Host.replica, Server.feed, Server.fetched, Server.waiting, hnone, hnext, hbc]
        rw [show b.entries.length = (σ.raft.server r).rf.commitIndex - (σ.raft.server r).rf.lastApplied by omega,
          Nat.max_eq_right hlt.le, List.append_nil, List.append_assoc]
        rfl
      · simp only [Server.fetched, hbc]
        exact (Nat.max_le.mpr ⟨hlt.le, le_rfl⟩).trans hlen
      · cases hb'
        have hlt' : n < b.entries.length := (List.getElem?_eq_some_iff.mp hn).1
        exact hread _ e (by omega) (hok.entries n e hn)
    · rw [Group.put_fin_ne _ _ hr, Cluster.put_ne _ _ _ hr, hrep]
      exact (hs.host r).mono hle
  · cases ha
  · cases ha

theorem Sim.raft_step (hs : Sim c σ g) {a : Action N Op} (ha : a.internal = true)
    (hstep : σ.raft.step a = some τ') : ∃ g', g.Acts M overtakes [] g' ∧ Sim c { σ with raft := τ' } g' := by
  by_cases hc : ∃ s, a = .server s .collect
  · obtain ⟨s, rfl⟩ := hc
    exact hs.collect hstep
  · exact ⟨g, .refl, hs.internal ha (fun s he => hc ⟨s, he⟩) hstep⟩

theorem Sim.handler (hs : Sim c σ g) {f : Replica Op Id St Res Tok → Option (Replica Op Id St Res Tok)} {a : Inner}
    (hact : g.act M overtakes a = (f (g.replica s)).map fun rep => (g.put s rep, none))
    (hframe : ∀ (x : Host Op Id St Res Tok) φ, f (x.replica φ) = (f x.alone).map fun rep => (x.update rep).replica φ)
    (hkeep : ∀ rep rep', f rep = some rep' → rep'.state = rep.state ∧ (rep.sending = none → rep'.sending = none))
    {ans : Option (Tok × Res)}
    (h : ((f (σ.host s).alone).map fun rep => (σ.setHost s ((σ.host s).update rep), none)) = some (σ', ans)) :
    ∃ g', g.Acts M overtakes ans.toList g' ∧ Sim c σ' g' := by
  rw [Option.map_eq_some_iff] at h
  obtain ⟨rep, hrep, heq⟩ := h
  cases heq
  obtain ⟨applied, hview⟩ := (hs.host s).replica
  obtain ⟨hst, hsend⟩ := hkeep _ _ hrep
  have hstep := hframe (σ.host s) ((σ.raft.server s).feed c (σ.host s).hand applied)
  rw [← hview, hrep, Option.map_some] at hstep
  rw [hstep, Option.map_some] at hact
  refine ⟨_, .silent .refl hact, hs.alone ((hs.host s).served (fun φ hφ => ?_) hst rfl hsend)⟩
  have hsame := hframe (σ.host s) φ
  rw [← hφ, hrep, Option.map_some, hstep, Option.some.injEq] at hsame
  exact hsame

theorem Sim.finish (hs : Sim c σ g) {ch : Nat} {rep : Replica Op Id St Res Tok} {answer : Tok × Res}
    (hrep : (σ.host s).alone.finish M ch = some (rep, answer)) (hst : rep.state = (σ.host s).state)
    (hsend : (σ.host s).sending = none → rep.sending = none) :
    ∃ g', g.Acts M overtakes [answer] g' ∧ Sim c (σ.setHost s ((σ.host s).update rep)) g' := by
  obtain ⟨applied, hview⟩ := (hs.host s).replica
  have hfin : (g.replica s).finish M ch =
      some (((σ.host s).update rep).replica ((σ.raft.server s).feed c (σ.host s).hand applied), answer) := by
    rw [hview, Host.finish_replica, hrep]
    rfl
  have hact : g.act M overtakes (.finish s ch) = some (g.put s (((σ.host s).update rep).replica
      ((σ.raft.server s).feed c (σ.host s).hand applied)), some answer) := by
    simp only [Group.act, hfin, Option.map_some]
  refine ⟨_, Group.Acts.refl.snoc hact, hs.alone ((hs.host s).served (fun φ hφ => ?_) hst rfl hsend)⟩
  have hsame := (σ.host s).finish_replica (M := M) φ ch
  rw [← hφ, hfin, hrep] at hsame
  exact (Prod.mk.inj (Option.some.inj hsame)).1

end

end

/-! ## The service and its Raft server -/

section
variable {N : Nat} {Op Id St Res Tok : Type} [DecidableEq Id] {M : Machine Op Id St Res} {good : Op → Prop}
  {c : Codec M good}
  {overtakes : Bool} {σ σ' : Stack N Op Id St Res Tok} {g : Group Op Id St Res Tok} {s : Fin N}

omit [DecidableEq Id] in
/-- `Start` appends to the log of Raft, and the handlers may note it. -/
theorem Sim.start (hs : Sim c σ g) {op : Op} {index t : Nat} {y : Host Op Id St Res Tok} {rep : Replica Op Id St Res Tok}
    (hst : ((σ.raft.server s).rf.start op).2 = some (index, t)) (hboth : σ.both s (.start op) y = some σ')
    (hrep : ∀ f, g.replica s = (σ.host s).replica f → rep = y.replica f) (hstate : y.state = (σ.host s).state)
    (hhand : y.hand = (σ.host s).hand) (hsend : y.sending = (σ.host s).sending) :
    Sim c σ' ((g.propose op index).put s rep) := by
  obtain ⟨h, hb⟩ := hs.raft
  refine hs.both hboth (fun τ' hτ => hb.step hτ rfl ?_ (List.Subset.refl _) (fun q o j u ha hj => ?_)
    fun q j data ha => by cases ha) List.prefix_rfl (fun r hr => ?_) fun srv out hact => ?_
  · exact List.subset_append_left _ _
  · cases ha
    rw [hst] at hj
    cases hj
    exact List.mem_append_right _ (List.mem_singleton_self _)
  · exact Group.put_fin_ne _ _ hr
  · cases hact with
    | start _ =>
    have hk := Raft.keeps_start (σ.raft.server s).rf op
    have hla : ((σ.raft.server s).rf.start op).1.lastApplied = (σ.raft.server s).rf.lastApplied := by
      unfold Raft.start; split <;> rfl
    have hf : (σ.raft.server s).SameFeed { σ.raft.server s with rf := ((σ.raft.server s).rf.start op).1 } :=
      .of_keeps hk hla rfl rfl
    have hmoved := (hs.host s).moved hf rfl (hs.host s).queued (hs.host s).batch
    rw [Group.put_self]
    exact hmoved.served hrep hstate hhand hsend.trans

omit [DecidableEq Id] in
theorem Sim.submit (hs : Sim c σ g) {tok : Tok} {op : Op} {index : Nat} (h : σ.submit s tok op = some (σ', index)) :
    Sim c σ' (g.submit s tok op index) := by
  simp only [Stack.submit] at h
  split at h
  · cases h
  · rename_i i t hst
    rw [Option.map_eq_some_iff] at h
    obtain ⟨σ₁, hboth, heq⟩ := h
    cases heq
    refine hs.start hst hboth (fun f hf => ?_) rfl rfl rfl
    rw [hf]
    rfl

omit [DecidableEq Id] in
theorem Sim.propose (hs : Sim c σ g) {op : Op} {index : Nat} (h : σ.propose s op = some (σ', index)) :
    Sim c σ' (g.propose op index) := by
  simp only [Stack.propose] at h
  split at h
  · cases h
  · rename_i i t hst
    rw [Option.map_eq_some_iff] at h
    obtain ⟨σ₁, hboth, heq⟩ := h
    cases heq
    have hself : (g.propose op index).put s (g.replica s) = g.propose op index := by
      simp only [Group.put, Group.propose, Function.update_eq_self]
    rw [← hself]
    exact hs.start hst hboth (fun f hf => hf) rfl rfl rfl

omit [DecidableEq Id] in
theorem Sim.take (hs : Sim c σ g) {y : Host Op Id St Res Tok} (hnone : (σ.host s).hand = none)
    (hsend : (σ.host s).sending = none) (hstep : σ.both s .consume y = some σ')
    (hy : (∃ op i rest, (σ.raft.server s).applyCh = .command op i :: rest ∧ y = { σ.host s with hand := some (op, i) }) ∨
      ∃ snap t i rest, (σ.raft.server s).applyCh = .snapshot snap t i :: rest ∧ y = σ.host s) : Sim c σ' g := by
  obtain ⟨h, hb⟩ := hs.raft
  have hhost := hs.host s
  obtain ⟨applied, hview⟩ := hhost.replica
  refine hs.both hstep (fun τ' hτ => hb.plain hτ (fun _ _ he => by cases he) fun _ _ _ he => by cases he)
    List.prefix_rfl (fun _ _ => rfl) fun srv out hact => ?_
  cases hact with
  | @command op i rest hh hq =>
    obtain ⟨op', i', rest', hq', rfl⟩ | ⟨_, _, _, _, hq', -⟩ := hy
    · rw [hq'] at hq
      cases hq
      obtain ⟨hpos, hlog⟩ := hhost.queued op i (by rw [hq']; exact List.mem_cons_self)
      refine ⟨⟨applied, ?_⟩, hhost.state, hhost.fetched, fun o j hj => ?_, hhost.batch, fun o j hj => ?_, fun m hm => ?_⟩
      · rw [hview, hnone]
        simp [Host.replica, Server.feed, Server.fetched, Server.waiting, Server.queued, hq']
      · exact hhost.queued o j (by rw [hq']; exact List.mem_cons_of_mem _ hj)
      · cases hj
        exact ⟨hlog, List.mem_append_right _ (List.mem_singleton_self _), hsend⟩
      · rw [hh] at hm
        cases hm
    · rw [hq'] at hq
      cases hq
  | @hold snap t i rest hh hq =>
    obtain ⟨_, _, _, hq', -⟩ | ⟨_, _, _, _, hq', rfl⟩ := hy
    · rw [hq'] at hq
      cases hq
    · refine ⟨⟨applied, ?_⟩, hhost.state, hhost.fetched, fun o j hj => ?_, hhost.batch, fun o j hj => ?_,
        fun _ _ => ⟨hnone, hsend⟩⟩
      · rw [hview]
        simp [Host.replica, Server.feed, Server.fetched, Server.waiting, Server.queued, hq]
      · exact hhost.queued o j (by rw [hq]; exact List.mem_cons_of_mem _ hj)
      · rw [hnone] at hj
        cases hj

theorem Hosted.executed {log : List Op} {srv : Server N Op} {x : Host Op Id St Res Tok} {rep : Replica Op Id St Res Tok}
    (h : Hosted c log srv x rep) (hgood : ∀ op ∈ log, good op) {op : Op} {i : Nat} (hh : x.hand = some (op, i)) :
    ∃ q, rep.queue = i :: q ∧ Hosted c log srv (Stack.executed M x op i) ({ rep with queue := q }.applyCommand M i op) := by
  obtain ⟨applied, hview⟩ := h.replica
  obtain ⟨l, hl, hlgood⟩ := h.state
  have hop := hgood op (List.mem_of_getElem? (h.hand op i hh).1)
  refine ⟨srv.waiting, ?_, ⟨max applied i, ?_⟩, ⟨l ++ [op], ?_, forall_mem_snoc hlgood hop⟩, h.fetched, h.queued, h.batch,
    fun o j hj => (by cases hj), fun m hm => ?_⟩
  · rw [hview, hh]
    rfl
  · rw [hview]
    exact x.applyCommand_replica { srv.feed c x.hand applied with queue := srv.waiting } i op
  · rw [M.replay_snoc, ← hl]
    rfl
  · rw [(h.holding m hm).1] at hh
    cases hh

theorem Sim.execute (hs : Sim c σ g) (hgood : ∀ op ∈ g.log, good op) {op : Op} {i : Nat}
    (hh : (σ.host s).hand = some (op, i)) :
    ∃ g', g.Acts M overtakes [] g' ∧ Sim c (σ.setHost s (Stack.executed M (σ.host s) op i)) g' := by
  obtain ⟨q, hq, hhost⟩ := (hs.host s).executed hgood hh
  obtain ⟨hlog, -, hsend⟩ := (hs.host s).hand op i hh
  obtain ⟨applied, hview⟩ := (hs.host s).replica
  have hsend : (g.replica s).sending = none := by rw [hview]; exact hsend
  refine ⟨_, .silent .refl (a := .apply s false) ?_, hs.alone hhost⟩
  simp [Group.act, hsend, hq, hlog]

theorem Sim.execute_snapshot (hs : Sim c σ g) (hgood : ∀ op ∈ g.log, good op) {op : Op} {i : Nat}
    (hh : (σ.host s).hand = some (op, i))
    (hstep : σ.both s (.snapshot i (c.encode (Stack.executed M (σ.host s) op i).state))
      (Stack.executed M (σ.host s) op i) = some σ') : ∃ g', g.Acts M overtakes [] g' ∧ Sim c σ' g' := by
  obtain ⟨q, hq, hhost⟩ := (hs.host s).executed hgood hh
  obtain ⟨hlog, -, hsend⟩ := (hs.host s).hand op i hh
  obtain ⟨applied, hview⟩ := (hs.host s).replica
  have hsnap : (g.replica s).snapshot.1 = (σ.raft.server s).rf.lastIncludedIndex := by rw [hview]; rfl
  have hsend : (g.replica s).sending = none := by rw [hview]; exact hsend
  have hi : i ≤ g.log.length := by have := (List.getElem?_eq_some_iff.mp hlog).1; omega
  obtain ⟨l, hl, hlgood⟩ := hhost.state
  obtain ⟨h, hb⟩ := hs.raft
  refine ⟨(g.put s ({ g.replica s with queue := q }.applyCommand M i op)).doSnapshot s i,
    .silent .refl (a := .apply s true) ?_, ?_⟩
  · simp [Group.act, hsend, hq, hlog]
  have hdo : (g.put s ({ g.replica s with queue := q }.applyCommand M i op)).doSnapshot s i =
      if i ≤ (σ.raft.server s).rf.lastIncludedIndex then g.put s ({ g.replica s with queue := q }.applyCommand M i op)
      else { g.put s { { g.replica s with queue := q }.applyCommand M i op with snapshot := (i, M.replay l) } with
        snapshots := g.snapshots ++ [(i, M.replay l)] } := by
    have hst : ({ g.replica s with queue := q }.applyCommand M i op).state = M.replay l := by
      rw [← hl, hview]
      rfl
    have hsn : ({ g.replica s with queue := q }.applyCommand M i op).snapshot.1 =
        (σ.raft.server s).rf.lastIncludedIndex := hsnap
    simp only [Group.doSnapshot, Group.put_self, Group.put_put, hst, hsn]
    rfl
  rw [hdo]
  by_cases hle : i ≤ (σ.raft.server s).rf.lastIncludedIndex
  · rw [if_pos hle]
    refine hs.both hstep (fun τ' hτ => ?_) List.prefix_rfl (fun r hr => Group.put_fin_ne _ _ hr) fun srv out hact => ?_
    · exact (hb.put s _).step hτ rfl (List.Subset.refl _) (List.Subset.refl _) (fun _ _ _ _ ha => by cases ha)
        fun q j data ha hlt => by cases ha; omega
    · rw [Group.put_self]
      cases hact with
      | snapshot _ hr =>
      obtain ⟨-, rfl⟩ | ⟨_, hlt, -⟩ := Raft.snapshot_cases hr
      · exact hhost
      · omega
  · rw [if_neg hle]
    refine hs.both hstep (fun τ' hτ => ?_) List.prefix_rfl (fun r hr => Group.put_fin_ne _ _ hr) fun srv out hact => ?_
    · refine hb.step hτ rfl (List.Subset.refl _) (List.subset_append_left _ _) (fun _ _ _ _ ha => by cases ha)
        fun q j data ha _ => ?_
      cases ha
      exact ⟨l, by rw [hl], hlgood, List.mem_append_right _ (List.mem_singleton_self _), hi⟩
    · simp only [Group.put_self]
      cases hact with
      | snapshot _ hr =>
      obtain ⟨hge, -⟩ | ⟨entry, hlt, -, rfl⟩ := Raft.snapshot_cases hr
      · omega
      · obtain ⟨applied', hview'⟩ := hhost.replica
        refine ⟨⟨applied', ?_⟩, hhost.state, hhost.fetched, hhost.queued, hhost.batch, hhost.hand, hhost.holding⟩
        rw [hview']
        simp only [Host.replica, Server.feed, Raft.persistWithSnapshot, Persister.saveStateAndSnapshot, hl,
          c.installSnapshot_encode _ hlgood]
        rfl

theorem Sim.install (hs : Sim c σ g) {snap : Snapshot Op} {t i : Nat} {rf : Raft N Op (Snapshot Op)}
    (hh : (σ.raft.server s).service.holding = some (snap, t, i))
    (hc : (σ.raft.server s).rf.condInstallSnapshot t i snap = some (rf, true))
    (hq : overtakes = true ∨ (σ.raft.server s).waiting = [])
    (hstep : σ.both s .condInstall { σ.host s with state := c.installSnapshot (σ.host s).state snap.data } = some σ') :
    ∃ g', g.Acts M overtakes [] g' ∧ Sim c σ' g' := by
  obtain ⟨h, hb⟩ := hs.raft
  have hhost := hs.host s
  obtain ⟨applied, hview⟩ := hhost.replica
  obtain ⟨hhand, hsend⟩ := hhost.holding _ hh
  have hlt : (σ.raft.server s).rf.commitIndex < i := by
    obtain ⟨-, -, hok⟩ | ⟨_, hlt, -⟩ := Raft.condInstallSnapshot_cases hc
    · cases hok
    · exact hlt
  obtain ⟨h0, -⟩ | ⟨l, hdata, hlgood, hin, hi⟩ := hb.snapshots snap t i (Or.inl ⟨s, Or.inr (Or.inr (Or.inr hh))⟩)
  · omega
  have hfet := Server.fetched_le (hb.applying s)
  obtain ⟨k, hk⟩ := List.mem_iff_getElem?.mp hin
  refine ⟨g.put s ((g.replica s).install (i, M.replay l)), .silent .refl (a := .install s k) ?_, ?_⟩
  · have h1 : (g.replica s).sending = none := by rw [hview]; exact hsend
    have h2 : (g.replica s).fetched < i := by rw [hview]; exact hfet.trans_lt hlt
    have h3 : overtakes = true ∨ (g.replica s).queue = [] := by
      refine hq.imp_right fun hw => ?_
      rw [hview]
      simp [Host.replica, Server.feed, hhand, hw]
    simp [Group.act, hk, h1, h2, h3]
  refine hs.both hstep (fun τ' hτ => ?_) List.prefix_rfl (fun r hr => Group.put_fin_ne _ _ hr) fun srv out hact => ?_
  · obtain ⟨h', hb'⟩ := hb.plain hτ (fun _ _ he => by cases he) (fun _ _ _ he => by cases he)
    exact ⟨h', hb'.put _ _⟩
  rw [Group.put_self, hdata, c.installSnapshot_encode _ hlgood]
  cases hact with
  | @installed snap' t' i' rf' hh' hc' =>
    rw [hh] at hh'
    cases hh'
    obtain ⟨-, -, hok⟩ | ⟨log, -, -, -, rfl⟩ := Raft.condInstallSnapshot_cases hc'
    · cases hok
    have hmax : ∀ b, (σ.raft.server s).applier = some b → max i b.commitIndex = i := by
      intro b hb'
      have := ((hb.applying s).batch b hb').commit
      omega
    have hreach : ({ σ.raft.server s with
        rf := Raft.persistWithSnapshot { (σ.raft.server s).rf with
          log, lastIncludedIndex := i, lastIncludedTerm := t, commitIndex := i, lastApplied := i } snap
        service := { (σ.raft.server s).service with
          lastApplied := i, installed := (σ.raft.server s).service.installed ++ [i], holding := none } } :
        Server N Op).fetched = i := by
      unfold Server.fetched
      split
      · rfl
      · rename_i b hb'
        exact hmax b hb'
    refine ⟨⟨i, ?_⟩, ⟨l, rfl, hlgood⟩, ?_, hhost.queued, hhost.batch, fun o j hj => ?_, fun m hm => (by cases hm)⟩
    · rw [hview]
      simp only [Replica.install, Host.replica, Server.feed, hreach]
      rw [← c.installSnapshot_encode M.init hlgood, ← hdata]
      rfl
    · rw [hreach]
      exact hi
    · rw [hhand] at hj
      cases hj
  | refused hh' hc' =>
    rw [hh] at hh'
    cases hh'
    rw [hc] at hc'
    cases hc'

omit [DecidableEq Id] in
theorem Sim.refuse (hs : Sim c σ g) {snap : Snapshot Op} {t i : Nat} {rf : Raft N Op (Snapshot Op)}
    (hh : (σ.raft.server s).service.holding = some (snap, t, i))
    (hc : (σ.raft.server s).rf.condInstallSnapshot t i snap = some (rf, false))
    (hstep : σ.both s .condInstall (σ.host s) = some σ') : Sim c σ' g := by
  obtain ⟨h, hb⟩ := hs.raft
  have hhost := hs.host s
  refine hs.both hstep (fun τ' hτ => hb.plain hτ (fun _ _ he => by cases he) fun _ _ _ he => by cases he)
    List.prefix_rfl (fun _ _ => rfl) fun srv out hact => ?_
  cases hact with
  | installed hh' hc' =>
    rw [hh] at hh'
    cases hh'
    rw [hc] at hc'
    cases hc'
  | refused hh' hc' =>
    obtain ⟨-, rfl, -⟩ | ⟨log, -, hok, -⟩ := Raft.condInstallSnapshot_cases hc'
    · exact ⟨hhost.replica, hhost.state, hhost.fetched, hhost.queued, hhost.batch, hhost.hand, fun m hm => (by cases hm)⟩
    · cases hok

theorem Sim.restart (hs : Sim c σ g)
    (hstep : σ.both s .restart (Host.boot (c.installSnapshot M.init (σ.raft.server s).rf.persister.snapshot.data)
      (σ.host s).nextCall) = some σ') : ∃ g', g.Acts M overtakes [] g' ∧ Sim c σ' g' := by
  obtain ⟨h, hb⟩ := hs.raft
  have hhost := hs.host s
  obtain ⟨applied, hview⟩ := hhost.replica
  refine ⟨_, .silent .refl (a := .restart s) rfl, hs.both hstep (fun τ' hτ => ?_) List.prefix_rfl
    (fun r hr => Group.put_fin_ne _ _ hr) fun srv out hact => ?_⟩
  · obtain ⟨h', hb'⟩ := hb.plain hτ (fun _ _ he => by cases he) (fun _ _ _ he => by cases he)
    exact ⟨h', hb'.put _ _⟩
  cases hact with
  | restart =>
  rw [Group.put_self]
  obtain ⟨hhard, -, hla⟩ := Raft.make_of_saved (hb.rel.saved s) (σ.raft.server s).rf.me
  have hfet : (Server.boot (σ.raft.server s).rf.me (σ.raft.server s).rf.persister
      ((σ.raft.server s).epoch + 1) : Server N Op).fetched = (σ.raft.server s).rf.lastIncludedIndex := hla
  have hidx : (Raft.make (σ.raft.server s).rf.me (σ.raft.server s).rf.persister :
      Raft N Op (Snapshot Op)).lastIncludedIndex = (σ.raft.server s).rf.lastIncludedIndex :=
    congrArg HardState.lastIncludedIndex hhard
  have hstored : σ.raft.Carries (σ.raft.server s).rf.persister.snapshot (σ.raft.server s).rf.lastIncludedTerm
    (σ.raft.server s).rf.lastIncludedIndex := Or.inl ⟨s, Or.inl ⟨rfl, rfl, rfl⟩⟩
  refine ⟨⟨(σ.raft.server s).rf.lastIncludedIndex, ?_⟩, ?_, ?_, fun o j hj => (by cases hj), fun b hb => (by cases hb),
    fun o j hj => (by cases hj), fun m hm => (by cases hm)⟩
  · rw [hview]
    simp only [Replica.boot, Host.replica, Host.boot, Server.feed, hfet]
    simp only [Server.boot, hidx, Raft.make_persister]
    rfl
  · rcases hb.snapshots _ _ _ hstored with ⟨-, hnil⟩ | ⟨l, hl, hlgood, -, -⟩
    · exact ⟨[], by rw [Host.boot, hnil, c.installSnapshot_nil]; rfl, fun op hop => by cases hop⟩
    · exact ⟨l, by rw [Host.boot, hl, c.installSnapshot_encode _ hlgood], hlgood⟩
  · rw [hfet]
    rcases hb.snapshots _ _ _ hstored with ⟨h0, -⟩ | ⟨-, -, -, -, hle⟩
    · rw [h0]; exact Nat.zero_le _
    · exact hle

/-- A snapshot is accepted only when no command is on its way to the service. -/
def Stack.QuietInstall (σ : Stack N Op Id St Res Tok) : StackAct N Op → Prop
  | .condInstall s => ∀ snap t i, (σ.raft.server s).service.holding = some (snap, t, i) →
    (σ.raft.server s).rf.commitIndex < i → (σ.raft.server s).waiting = []
  | _ => True

/-- Every step on the servers is some steps of the group with the same answer. -/
theorem Sim.act (hs : Sim c σ g) (hgood : ∀ op ∈ g.log, good op) {a : StackAct N Op} {ans : Option (Tok × Res)}
    (h : σ.act M c a = some (σ', ans)) (hq : overtakes = true ∨ σ.QuietInstall a) :
    ∃ g', g.Acts M overtakes ans.toList g' ∧ Sim c σ' g' := by
  cases a with
  | raft a =>
    simp only [Stack.act] at h
    split at h
    · rename_i ha
      rw [Option.map_eq_some_iff] at h
      obtain ⟨τ', hτ, heq⟩ := h
      cases heq
      exact hs.raft_step ha hτ
    · cases h
  | register s ch =>
    refine hs.handler (f := fun rep => rep.register M ch) (a := .register s ch) rfl (fun x φ => x.register_replica φ ch)
      (fun rep rep' hr => ?_) h
    exact ⟨(Replica.register_keeps hr).1, (Replica.register_keeps hr).2.trans⟩
  | receive s ch =>
    refine hs.handler (f := fun rep => rep.receive M ch) (a := .receive s ch) rfl (fun x φ => x.receive_replica φ ch)
      (fun rep rep' hr => ?_) h
    exact ⟨(Replica.receive_keeps hr).1, (Replica.receive_keeps hr).2.trans⟩
  | timeout s ch =>
    refine hs.handler (f := fun rep => rep.timeout M ch) (a := .timeout s ch) rfl (fun x φ => x.timeout_replica φ ch)
      (fun rep rep' hr => ?_) h
    exact ⟨(Replica.timeout_keeps hr).1, (Replica.timeout_keeps hr).2.trans⟩
  | finish s ch =>
    simp only [Stack.act, Option.map_eq_some_iff] at h
    obtain ⟨⟨rep, tok, res⟩, hrep, heq⟩ := h
    cases heq
    exact hs.finish hrep (Replica.finish_keeps hrep).1 (Replica.finish_keeps hrep).2.trans
  | take s =>
    simp only [Stack.act] at h
    split at h
    · rename_i op i rest h1 h2 h3
      rw [Option.map_eq_some_iff] at h
      obtain ⟨σ₁, hboth, heq⟩ := h
      cases heq
      exact ⟨g, .refl, hs.take h1 h2 hboth (Or.inl ⟨op, i, rest, h3, rfl⟩)⟩
    · rename_i snap t i rest h1 h2 h3
      rw [Option.map_eq_some_iff] at h
      obtain ⟨σ₁, hboth, heq⟩ := h
      cases heq
      exact ⟨g, .refl, hs.take h1 h2 hboth (Or.inr ⟨snap, t, i, rest, h3, rfl⟩)⟩
    · cases h
  | execute s snap =>
    simp only [Stack.act] at h
    split at h
    · cases h
    · rename_i op i hh
      split at h
      · rw [Option.map_eq_some_iff] at h
        obtain ⟨σ₁, hboth, heq⟩ := h
        cases heq
        exact hs.execute_snapshot hgood hh hboth
      · cases h
        exact hs.execute hgood hh
  | notify s =>
    refine hs.handler (f := fun rep => rep.notify) (a := .notify s) rfl (fun x φ => x.notify_replica φ)
      (fun rep rep' hr => ?_) h
    exact ⟨(Replica.notify_keeps hr).1, fun _ => (Replica.notify_keeps hr).2⟩
  | condInstall s =>
    simp only [Stack.act] at h
    split at h
    · cases h
    · rename_i snap t i hh
      split at h
      · cases h
      · rename_i rf hc
        rw [Option.map_eq_some_iff] at h
        obtain ⟨σ₁, hboth, heq⟩ := h
        cases heq
        refine hs.install hh hc (hq.imp_right fun hq => hq snap t i hh ?_) hboth
        obtain ⟨-, -, hok⟩ | ⟨_, hlt, -⟩ := Raft.condInstallSnapshot_cases hc
        · cases hok
        · exact hlt
      · rename_i rf hc
        rw [Option.map_eq_some_iff] at h
        obtain ⟨σ₁, hboth, heq⟩ := h
        cases heq
        exact ⟨g, .refl, hs.refuse hh hc hboth⟩
  | restart s =>
    simp only [Stack.act, Option.map_eq_some_iff] at h
    obtain ⟨σ₁, hboth, heq⟩ := h
    cases heq
    exact hs.restart hboth

end

/-! ## Runs -/

section
variable {N : Nat} {Op Id St Res : Type} [DecidableEq Id] {M : Machine Op Id St Res}
  {c : Codec M fun _ => True} {overtakes : Bool}

abbrev StackRun (N : Nat) (M : Machine Op Id St Res) (c : Codec M fun _ => True) :=
  Run (Stack.step (N := N) M c) (Stack.init N M)

theorem Group.Acts.reaches {g g' : Group Op Id St Res Unit} {l : List (Unit × Res)} (h : g.Acts M overtakes l g') :
    Reaches (Group.step M overtakes) g g' := by
  induction h with
  | refl => exact Reaches.refl g
  | @snoc l a ans g₁ g₂ _ ha ih =>
    refine ih.trans (Reaches.of_step (a := .inner a) ?_)
    simp only [Group.step, ha, Option.map_some]

theorem Sim.step {σ σ' : Stack N Op Id St Res Unit} {g : Group Op Id St Res Unit} (hs : Sim c σ g)
    {a : StackStep N Op} (h : σ.step M c a = some σ')
    (hq : overtakes = true ∨ ∀ b, a = .act b → σ.QuietInstall b) :
    ∃ g', Reaches (Group.step M overtakes) g g' ∧ Sim c σ' g' := by
  cases a with
  | submit s op =>
    simp only [Stack.step, Option.map_eq_some_iff] at h
    obtain ⟨⟨σ₁, index⟩, hsub, rfl⟩ := h
    exact ⟨_, Reaches.of_step (a := .submit s op index) rfl, hs.submit hsub⟩
  | act b =>
    simp only [Stack.step, Option.map_eq_some_iff] at h
    obtain ⟨⟨σ₁, ans⟩, hact, rfl⟩ := h
    obtain ⟨g', hacts, hs'⟩ := hs.act (fun _ _ => trivial) hact (hq.imp_right fun hq => hq b rfl)
    exact ⟨g', hacts.reaches, hs'⟩

theorem StackRun.sim (r : StackRun N M c)
    (hq : overtakes = true ∨ r.Meets fun σ a => ∀ b, a = .act b → σ.QuietInstall b) :
    ∃ g : Nat → Group Op Id St Res Unit,
      (∀ k, Sim c (r.state k) (g k) ∧ Reaches (Group.step M overtakes) (Group.init M) (g k)) ∧
      ∀ j k, j ≤ k → Reaches (Group.step M overtakes) (g j) (g k) := by
  have hmeets : r.Meets fun σ a => overtakes = true ∨ ∀ b, a = .act b → σ.QuietInstall b :=
    fun k a ha => hq.imp_right fun hq => hq k a ha
  refine r.history_rel Reaches.refl (fun _ _ _ => Reaches.trans) hmeets
    (R := fun g σ => Sim c σ g ∧ Reaches (Group.step M overtakes) (Group.init M) g) ⟨Sim.init, Reaches.refl _⟩ ?_
  intro g σ a σ' hg hcond hstep
  obtain ⟨g', hreach, hs'⟩ := hg.1.step hstep hcond
  exact ⟨g', hreach, hs', hg.2.trans hreach⟩

/-- Whatever the servers of a service do over Raft, with elections, crashes,
lost packets and snapshots, one run of the group does it too: at every moment
every server is the replica of the group, with the same state, the same calls
and the same handlers waiting. -/
theorem servers_refine_group (r : StackRun N M c) :
    ∃ g : Nat → Group Op Id St Res Unit,
      (∀ k, Reaches (Group.step M true) (Group.init M) (g k)) ∧
      (∀ j k, j ≤ k → Reaches (Group.step M true) (g j) (g k)) ∧
      ∀ (k : Nat) (s : Fin N), ∃ applied, (g k).replica s =
        ((r.state k).host s).replica (((r.state k).raft.server s).feed c ((r.state k).host s).hand applied) := by
  obtain ⟨g, hg, hmono⟩ := r.sim (Or.inl rfl)
  exact ⟨g, fun k => (hg k).2, hmono, fun k s => ((hg k).1.host s).replica⟩

end

end DistLab
