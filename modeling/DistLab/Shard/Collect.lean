import DistLab.Shard.Answers
import DistLab.Shard.Safety

/-!
# When the new owner is finished

The new owner leaves `GCing` when `GCShard` has answered `OK`. `PullShard` and
`GCShard` are answered by one replica from its own state, but only `PullShard`
checks that this state has reached the configuration. Where that is so, the old
owner is done with the shard whenever the new owner is; a replica that lags
behind answers `OK` for a shard that it does not know to be lost.
-/

namespace DistLab

/-- The old owner has deleted the shard, or is past the configuration. -/
def Released (configs : Nat → Config Nat) (L : Int → List ShardOp) (c : Nat) (i : ShardId) : Prop :=
  Collected (owner configs (c - 1) i) (L (owner configs (c - 1) i)) c i ∨
    c < (replayed (owner configs (c - 1) i) (L (owner configs (c - 1) i))).config.num

section
variable {configs : Nat → Config Nat} {L L' : Int → List ShardOp} {g : Int} {log : List ShardOp} {op : ShardOp} {c : Nat}
  {i : ShardId}

theorem Released.mono (h : Released configs L c i) (hle : ∀ g, L g <+: L' g) : Released configs L' c i :=
  h.imp (·.mono (hle _)) fun hlt => hlt.trans_le (num_mono (hle _))

theorem Placed.released (h : Placed configs g log) (hl : Loses configs g c i)
    (hc : c ≤ (replayed g log).config.num) (hst : ((replayed g log).shards i).state = .bePulling →
      (replayed g log).config.num ≠ c) : Collected g log c i ∨ c < (replayed g log).config.num := by
  rcases h.lost hl hc with hcol | ⟨hnum, hbe, -⟩
  · exact Or.inl hcol
  · exact absurd hnum (hst hbe)

theorem Legal.released (h : Legal configs g log) {p : Nat} {ids : List ShardId} (hp : log[p]? = some op)
    (hcmd : op.cmd = .gc c ids) (hi : i ∈ ids) (hl : Loses configs g c i) :
    Collected g log c i ∨ c < (replayed g log).config.num := by
  have hlegit := h p op hp
  rw [hcmd] at hlegit
  rcases (h.take p).placed.lost hl hlegit.1 with hcol | ⟨hnum, hbe, -⟩
  · exact Or.inl (hcol.mono ( List.take_prefix p log))
  · exact Or.inl ⟨p, op, hp, ids, hcmd, hi, hnum, hbe⟩

end

namespace ShardSystem

def gcAsked (σ : ShardSystem) : ShardAct → Option (MoveRequest × Nat)
  | .gcShard k r => σ.gcs[k]?.map fun req => (req, r)
  | _ => none

/-- A replica that answers `GCShard` with `OK` at once has reached the
configuration. -/
def CaughtUp (σ : ShardSystem) (a : ShardAct) : Prop :=
  ∀ p ∈ σ.gcAsked a, (σ.replica p.1.src p.2).alreadyGCed p.1.configNum p.1.shardIds = true →
    p.1.configNum ≤ (σ.replica p.1.src p.2).config.num

instance (σ : ShardSystem) (a : ShardAct) : Decidable (σ.CaughtUp a) :=
  inferInstanceAs (Decidable (∀ p ∈ σ.gcAsked a, _))

structure Cleared (configs : Nat → Config Nat) (σ : ShardSystem) : Prop where
  gced : ∀ req ∈ σ.gced, ∀ i ∈ req.shardIds, Released configs σ.logs req.configNum i
  proposed : ∀ gid, ∀ p ∈ (σ.group gid).proposed, ∀ c ids, p.2.cmd = .gc c ids → ∀ i ∈ ids,
    Gains configs gid c i → Released configs σ.logs c i
  finished : ∀ gid c i, Finished gid (σ.logs gid) c i → Released configs σ.logs c i

variable {configs : Nat → Config Nat} {overtakes : Bool} {σ σ' : ShardSystem}

theorem Moves.alreadyGCed (h : σ.Steady configs overtakes) {req : MoveRequest} (hreq : req.Owns configs σ.logs) {r : Nat}
    (hup : req.configNum ≤ (σ.replica req.src r).config.num)
    (hgc : (σ.replica req.src r).alreadyGCed req.configNum req.shardIds = true) {i : ShardId} (hi : i ∈ req.shardIds) :
    Released configs σ.logs req.configNum i := by
  obtain ⟨log, hlog, ⟨halike, -⟩, hp⟩ := h.replica_log (migrates_lawful configs) req.src r
  unfold Released
  rw [hreq.src_eq i hi]
  simp only [ShardKv.alreadyGCed, halike.config, halike.state, List.all_eq_true, decide_eq_true_eq] at hup hgc
  refine (hp.released (hreq.loses hi) hup fun hbe hnum => ?_).imp (·.mono hlog) fun hlt => hlt.trans_le (num_mono hlog)
  rcases hgc with hlt | hall
  · omega
  · exact absurd hbe (hall i hi)

theorem Moves.logged_gc (h : σ.Steady configs overtakes) {req : MoveRequest} (hreq : req.Owns configs σ.logs)
    (hlog : ∃ op ∈ σ.logs req.src, op.cmd = .gc req.configNum req.shardIds) {i : ShardId} (hi : i ∈ req.shardIds) :
    Released configs σ.logs req.configNum i := by
  obtain ⟨op, hop, hcmd⟩ := hlog
  obtain ⟨p, hp⟩ := List.getElem?_of_mem hop
  unfold Released
  rw [hreq.src_eq i hi]
  exact (h.logs.legal req.src).released hp hcmd hi (hreq.loses hi)

namespace Cleared

theorem init : ShardSystem.init.Cleared configs where
  gced _ h := by cases h
  proposed _ _ h := by cases h
  finished g _ _ h := absurd h (shardMachine g).not_took_nil

theorem frame (h : σ.Cleared configs) (hg : σ'.group = σ.group) (hgced : σ'.gced = σ.gced) : σ'.Cleared configs := by
  have hlogs : σ'.logs = σ.logs := by unfold logs; rw [hg]
  exact ⟨by rw [hgced, hlogs]; exact h.gced, by rw [hg, hlogs]; exact h.proposed, by rw [hlogs]; exact h.finished⟩

theorem propose (h : σ.Cleared configs) {gid : Int} {g : ShardGroup} {cmd : ShardCmd} {index : Nat}
    (hp : g.proposed = (σ.group gid).proposed ++ [(index, ⟨σ.nextId, cmd⟩)]) (hlog : g.log = (σ.group gid).log)
    (hcmd : ∀ c ids, cmd = .gc c ids → ∀ i ∈ ids, Gains configs gid c i → Released configs σ.logs c i) :
    ({ σ.setGroup gid g with nextId := σ.nextId + 1 } : ShardSystem).Cleared configs := by
  have hlogs : (σ.setGroup gid g).logs = σ.logs := by
    rw [logs_setGroup, hlog]
    exact Function.update_eq_self gid σ.logs
  refine ⟨?_, ?_, ?_⟩
  · show ∀ req ∈ σ.gced, ∀ i ∈ req.shardIds, Released configs (σ.setGroup gid g).logs req.configNum i
    rw [hlogs]; exact h.gced
  · refine forall_setGroup (P := fun gid' G => ∀ p ∈ G.proposed, ∀ c ids, p.2.cmd = .gc c ids → ∀ i ∈ ids,
      Gains configs gid' c i → Released configs (σ.setGroup gid g).logs c i) (by rw [hlogs]; exact h.proposed) ?_
    rw [hp, hlogs]
    exact forall_mem_snoc (h.proposed gid) hcmd
  · show ∀ gid' c i, Finished gid' ((σ.setGroup gid g).logs gid') c i → Released configs (σ.setGroup gid g).logs c i
    rw [hlogs]; exact h.finished

theorem inner (h : σ.Cleared configs) (hm : σ.Steady configs overtakes) {gid : Int} {a : Inner} {g : ShardGroup}
    {ans : Option (ShardTok × KvReply)} (hact : (σ.group gid).Act (shardMachine gid) overtakes a g ans) :
    (σ.setGroup gid g).Cleared configs := by
  have hle := logs_le_setGroup (σ := σ) hact.log_le
  refine ⟨fun req hr i hi => (h.gced req hr i hi).mono hle, ?_, fun gid' c i hf => ?_⟩
  · refine forall_setGroup (P := fun gid' G => ∀ p ∈ G.proposed, ∀ c ids, p.2.cmd = .gc c ids → ∀ i ∈ ids,
      Gains configs gid' c i → Released configs (σ.setGroup gid g).logs c i)
      (fun gid' p hp c ids hc i hi hg => (h.proposed gid' p hp c ids hc i hi hg).mono hle) ?_
    rw [hact.proposed]
    exact fun p hp c ids hc i hi hg => (h.proposed gid p hp c ids hc i hi hg).mono hle
  · refine Released.mono ?_ hle
    rcases logs_inner hact with hlogs | ⟨op, hop, hlogs⟩
    · rw [hlogs] at hf
      exact h.finished gid' c i hf
    · rw [hlogs] at hf
      rcases took_push hf with hf | ⟨rfl, ids, hcmd, hi, rfl, hst⟩
      · exact h.finished gid' c i hf
      · exact h.proposed gid' _ hop.mem _ ids hcmd i hi ((hm.logs.placed gid').standing hst).1

theorem act (h : σ.Cleared configs) (hm : σ.Steady configs overtakes) (ha : σ.AnswersLogged) {a : ShardAct}
    (hact : Act configs overtakes σ a σ') (hup : σ.CaughtUp a) : σ'.Cleared configs := by
  cases hact with
  | accept _ _ => exact h.propose (g := (σ.group _).submit _ _ ⟨σ.nextId, _⟩ _) rfl rfl fun _ _ hc => by cases hc
  | refuse _ => exact h.frame rfl rfl
  | inner hg => exact h.inner hm hg
  | @answer gid b g tok r hg =>
    have hin := h.inner hm hg
    cases tok with
    | client req => exact hin.frame rfl rfl
    | gc req =>
      simp only [reply]
      split
      · rename_i hok
        refine { hin with gced := forall_mem_snoc hin.gced fun i hi => ?_ }
        obtain ⟨q, ch, c, hc, htok, -⟩ := hg.answer
        have howns := hm.heard.calls _ q ch c req hc htok
        obtain ⟨rfl, herr | herr | hlog⟩ := ha.answer (fun gid => (hm.follows gid).logged) hg
        · rw [hok] at herr; cases herr
        · rw [hok] at herr; cases herr
        · exact (hm.logged_gc howns hlog hi).mono (logs_le_setGroup hg.log_le)
      · exact hin
  | startConfig _ => exact h.propose (g := (σ.group _).propose ⟨σ.nextId, _⟩ _) rfl rfl fun _ _ hc => by cases hc
  | startInstall _ => exact h.propose (g := (σ.group _).propose ⟨σ.nextId, _⟩ _) rfl rfl fun _ _ hc => by cases hc
  | @gcShard k r req hk hgc =>
    refine { h with gced := forall_mem_snoc h.gced fun i hi => ?_ }
    have hup := hup (req, r) (by simp only [gcAsked, hk, Option.map_some, Option.mem_def]) hgc
    exact hm.alreadyGCed (hm.heard.gcs req (List.mem_of_getElem? hk)) hup hgc hi
  | @gcSubmit k index r req hk =>
    refine h.propose (g := (σ.group _).submit _ _ ⟨σ.nextId, _⟩ _) rfl rfl fun c ids hc i hi hg => ?_
    -- the old owner does not gain what it gives away
    cases hc
    have hreq := hm.heard.checked _ hk
    exact absurd hg.1 (hreq.loses hi).1
  | startGC hk =>
    refine h.propose (g := (σ.group _).propose ⟨σ.nextId, _⟩ _) rfl rfl fun c ids hc i hi _ => ?_
    cases hc
    exact h.gced _ hk i hi
  | _ => exact h.frame rfl rfl

end Cleared

end ShardSystem

namespace ShardRun

variable {configs : Nat → Config Nat} {overtakes : Bool} (r : ShardRun configs overtakes)

theorem answersLogged (k : Nat) : (r.state k).AnswersLogged :=
  r.invariant r.meets_true (P := fun σ => σ.AnswersLogged) ShardSystem.Answers.init
    (fun _ _ _ h _ hs => ShardSystem.AnswersLogged.act h (ShardSystem.act_cases hs)) k

theorem cleared (hr : r.Meets ShardSystem.CaughtUp) (k : Nat) : (r.state k).Cleared configs := by
  refine Run.induction r (P := fun _ σ => σ.Cleared configs) .init (fun _ _ h => h) ?_ k
  intro k a ha h hstep
  exact h.act (run_lawful r k) (r.answersLogged k) (ShardSystem.act_cases hstep) (hr k a ha)

end ShardRun

/-- When no replica answers `GCShard` with `OK` before it has reached the
configuration, a new owner finishes with a shard after the old owner has deleted
it or moved on, and the old owner is never left with it. -/
theorem finish_after_collect {configs : Nat → Config Nat} {overtakes : Bool} (r : ShardRun configs overtakes)
    (hr : r.Meets ShardSystem.CaughtUp) (k : Nat) :
    (∀ g c i, Finished g ((r.state (k + 1)).logs g) c i → Released configs (r.state k).logs c i) ∧
      ∀ g c i, Finished g ((r.state k).logs g) c i →
        ¬ (((r.state k).kv (owner configs (c - 1) i)).config.num = c ∧
          (((r.state k).kv (owner configs (c - 1) i)).shards i).state = .bePulling) := by
  have hcl := r.cleared hr k
  refine ⟨fun g c i hf => ?_, fun g c i hf ⟨hnum, hst⟩ => ?_⟩
  · rcases r.logs_cases k with heq | ⟨_, gid, op, -, hop, heq⟩
    · rw [heq] at hf
      exact hcl.finished g c i hf
    · rw [heq] at hf
      rcases took_push hf with hf | ⟨rfl, ids, hcmd, hi, rfl, hst⟩
      · exact hcl.finished g c i hf
      · exact hcl.proposed g _ hop.mem _ ids hcmd i hi (((r.lawful k).placed g).standing hst).1
  · have hstand := ((r.lawful k).placed _).standing hst
    rw [show (replayed _ ((r.state k).logs (owner configs (c - 1) i))).config.num = c from hnum] at hstand
    rcases hcl.finished g c i hf with hcol | hlt
    · exact hstand.2.1 hcol
    · exact absurd hnum (Nat.ne_of_gt hlt)

theorem handOver_caughtUp : handOver.Meets ShardSystem.CaughtUp := Run.meets_ofList _ (by decide +kernel)

theorem handOver_finishes : Finished 2 ((handOver.state 46).logs 2) 2 (key2shard [107]) ∧
    Released handOverConfigs (handOver.state 45).logs 2 (key2shard [107]) := by
  have h : Finished 2 ((handOver.state 46).logs 2) 2 (key2shard [107]) :=
    ⟨3, _, rfl, List.finRange nShards, rfl, List.mem_finRange _, rfl, rfl⟩
  exact ⟨h, (finish_after_collect handOver handOver_caughtUp 45).1 2 2 _ h⟩

/-- As `handOverActs`, but `GCShard` is answered by replica 1 of group 1, which
has only applied configuration 1. -/
def laggingActs (key value : GoString) : List ShardAct :=
  (handOverActs key value).take 35 ++
    [.inner 1 (.collect 1 1), .inner 1 (.apply 1 false), .gcShard 0 1, .startGC 0 4, .inner 2 (.commit 3)]

theorem lagging_exec :
    (exec (ShardSystem.step · handOverConfigs false) ShardSystem.init (laggingActs [107] [120])).isSome = true := by
  decide +kernel

def lagging : ShardRun handOverConfigs false := Run.ofList (laggingActs [107] [120]) (Option.some_get lagging_exec).symm

/-- Group 2 is finished with the shard, and group 1 still waits for it to be
collected. -/
theorem lagging_left_behind : Finished 2 ((lagging.state 40).logs 2) 2 (key2shard [107]) ∧
    ¬ Released handOverConfigs (lagging.state 40).logs 2 (key2shard [107]) ∧
    ((lagging.state 40).kv 1).config.num = 2 ∧
    (((lagging.state 40).kv 1).shards (key2shard [107])).state = .bePulling := by
  have hst : (((lagging.state 40).kv 1).shards (key2shard [107])).state = .bePulling := rfl
  have hstand := ((lagging.lawful 40).placed 1).standing hst
  refine ⟨⟨3, _, rfl, List.finRange nShards, rfl, List.mem_finRange _, rfl, rfl⟩, ?_, rfl, hst⟩
  rintro (hcol | hlt)
  · exact hstand.2.1 hcol
  · exact absurd hlt (by decide +kernel)

end DistLab
