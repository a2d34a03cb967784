import DistLab.Shard.Control
import DistLab.Shard.Orderly
import DistLab.Shard.Spec

/-!
# Shards move in order

Whatever the goroutines and handlers have in hand was read from a replica at
some prefix of its log, so it stays true of the longer log; and what they start
in Raft is justified by it. So the logs are orderly as long as every replica is
what its log says.
-/

namespace DistLab

/-! ## What is in hand -/

section
variable (configs : Nat → Config Nat) (L : Int → List ShardOp)

structure MoveRequest.Asks (req : MoveRequest) : Prop where
  gid_ne : req.gid ≠ 0
  ids_ne : req.shardIds ≠ []
  num_le : req.configNum ≤ (replayed req.gid (L req.gid)).config.num
  gains : ∀ i ∈ req.shardIds, Gains configs req.gid req.configNum i
  src_eq : ∀ i ∈ req.shardIds, owner configs (req.configNum - 1) i = req.src

structure MoveRequest.Owns (req : MoveRequest) : Prop extends req.Asks configs L where
  installed : ∀ i ∈ req.shardIds, Installed req.gid (L req.gid) req.configNum i

/-- What is in hand is justified by the logs; `B` says what else backs a command. -/
structure ShardSystem.Heard (B : Int → ShardCmd → Prop) (σ : ShardSystem) : Prop where
  proposed : ∀ g, ∀ p ∈ (σ.group g).proposed, g ≠ 0 ∧ Legit configs g (L g) p.2.cmd ∧ B g p.2.cmd
  calls : ∀ g r ch c req, ((σ.group g).replica r).calls ch = some c → c.tok = .gc req → req.Owns configs L
  polled : ∀ p ∈ σ.polled, p.1 ≠ 0 ∧ Legit configs p.1 (L p.1) (.config p.2)
  pulls : ∀ req ∈ σ.pulls, req.Asks configs L
  pulled : ∀ reply ∈ σ.pulled, reply.req.Asks configs L ∧
    (∀ i m, reply.shards i = some m → i ∈ reply.req.shardIds) ∧
    B reply.req.gid (.install reply.req.configNum reply.shards reply.dupTable)
  gcs : ∀ req ∈ σ.gcs, req.Owns configs L
  checked : ∀ p ∈ σ.checked, p.1.Owns configs L
  gced : ∀ req ∈ σ.gced, req.Owns configs L

end

section
variable {configs : Nat → Config Nat} {L L' : Int → List ShardOp} (hle : ∀ g, L g <+: L' g)
include hle

theorem MoveRequest.Asks.mono {req : MoveRequest} (h : req.Asks configs L) : req.Asks configs L' :=
  { h with num_le := h.num_le.trans (num_mono (hle _)) }

theorem MoveRequest.Owns.mono {req : MoveRequest} (h : req.Owns configs L) : req.Owns configs L' :=
  ⟨h.toAsks.mono hle, fun i hi => (h.installed i hi).mono (hle _)⟩

theorem ShardSystem.Heard.mono {B B' : Int → ShardCmd → Prop} (hB : ∀ g cmd, B g cmd → B' g cmd) {σ : ShardSystem}
    (h : σ.Heard configs L B) : σ.Heard configs L' B' where
  proposed g p hp := ⟨(h.proposed g p hp).1, (h.proposed g p hp).2.1.mono (hle g), hB _ _ (h.proposed g p hp).2.2⟩
  calls g r ch c req hc ht := (h.calls g r ch c req hc ht).mono hle
  polled p hp := ⟨(h.polled p hp).1, (h.polled p hp).2.mono (hle _)⟩
  pulls req hr := (h.pulls req hr).mono hle
  pulled reply hr := ⟨(h.pulled reply hr).1.mono hle, (h.pulled reply hr).2.1, hB _ _ (h.pulled reply hr).2.2⟩
  gcs req hr := (h.gcs req hr).mono hle
  checked p hp := (h.checked p hp).mono hle
  gced req hr := (h.gced req hr).mono hle

end

section
variable {configs : Nat → Config Nat} {L : Int → List ShardOp}

theorem MoveRequest.Asks.loses {req : MoveRequest} (h : req.Asks configs L) {i : ShardId} (hi : i ∈ req.shardIds) :
    Loses configs req.src req.configNum i := by
  rw [← h.src_eq i hi]
  exact ⟨by rw [(h.gains i hi).1]; exact Ne.symm (h.gains i hi).2.1, rfl⟩

theorem MoveRequest.Asks.src_ne {req : MoveRequest} (h : req.Asks configs L) : req.src ≠ 0 := by
  obtain ⟨i, hi⟩ := List.exists_mem_of_ne_nil _ h.ids_ne
  rw [← h.src_eq i hi]
  exact (h.gains i hi).2.2

/-- The old owner's `OpGC`, from `GCShard`. -/
theorem MoveRequest.Owns.backed_old {req : MoveRequest} (h : req.Owns configs L) :
    Backed configs L req.src (.gc req.configNum req.shardIds) := by
  intro i hi _
  unfold Arrived
  rw [(h.gains i hi).1]
  exact h.installed i hi

/-- The new owner's `OpGC`, from `gcHandler`. -/
theorem MoveRequest.Owns.backed_new {req : MoveRequest} (h : req.Owns configs L) :
    Backed configs L req.gid (.gc req.configNum req.shardIds) :=
  fun i hi hl => absurd (h.gains i hi).1 hl.1

theorem MoveRequest.Owns.legit_new {req : MoveRequest} (h : req.Owns configs L) :
    Legit configs req.gid (L req.gid) (.gc req.configNum req.shardIds) :=
  ⟨h.num_le, fun i hi => Or.inl ⟨h.gains i hi, h.installed i hi⟩⟩

theorem mem_fromOwner {kv : ShardKv} {state : ShardState} {src : Int} {i : ShardId} :
    i ∈ kv.fromOwner state src ↔ (kv.shards i).state = state ∧ kv.lastConfig.shards i = src := by
  simp [ShardKv.fromOwner]

theorem mem_of_pullShard {kv : ShardKv} {c : Nat} {ids : List ShardId} {shards : ShardId → Option Store}
    {dup : DupTable} (hp : kv.pullShard c ids = some (shards, dup)) {i : ShardId} {m : Store}
    (hm : shards i = some m) : i ∈ ids := by
  simp only [ShardKv.pullShard] at hp
  split at hp
  · cases hp
  · cases hp
    by_contra hi
    simp [hi] at hm

end

/-! ## What every version of the invariant rests on -/

/-- `R` says how a replica stands to its log, `B` what backs a command, and `O`
what holds of the logs. The goroutines only rely on configurations and states. -/
structure Migrates (configs : Nat → Config Nat) (R : Int → ShardKv → List ShardOp → Prop)
    (B : (Int → List ShardOp) → Int → ShardCmd → Prop) (O : (Int → List ShardOp) → Prop) : Prop where
  init : ∀ g, R g ShardKv.init []
  alike : ∀ {g kv log}, R g kv log → kv.Alike (replayed g log)
  nil : O fun _ => []
  legal : ∀ {L}, O L → ∀ g, Legal configs g (L g)
  push : ∀ {L g op}, O L → Legit configs g (L g) op.cmd → B L g op.cmd → O (push L g op)
  reached : ∀ {L g c i}, O L → Installed g (L g) c i →
    c ≤ (replayed (owner configs (c - 1) i) (L (owner configs (c - 1) i))).config.num
  mono : ∀ {L L' g cmd}, (∀ g, L g <+: L' g) → B L g cmd → B L' g cmd
  client : ∀ {L g c s op}, B L g (.kv c s op)
  config : ∀ {L g cfg}, B L g (.config cfg)
  install : ∀ {L kv log shards dup} {req : MoveRequest}, O L → req.Asks configs L → log <+: L req.src →
    R req.src kv log → kv.pullShard req.configNum req.shardIds = some (shards, dup) →
    B L req.gid (.install req.configNum shards dup)
  gcOld : ∀ {L} {req : MoveRequest}, req.Owns configs L → B L req.src (.gc req.configNum req.shardIds)
  gcNew : ∀ {L} {req : MoveRequest}, req.Owns configs L → B L req.gid (.gc req.configNum req.shardIds)

namespace ShardSystem

variable {configs : Nat → Config Nat} {overtakes : Bool} {σ σ' : ShardSystem}

theorem logs_inner {gid : Int} {a : Inner} {g : ShardGroup} {ans : Option (ShardTok × KvReply)}
    (hact : (σ.group gid).Act (shardMachine gid) overtakes a g ans) :
    (σ.setGroup gid g).logs = σ.logs ∨ ∃ op, σ.Commits (.inner gid a) gid op ∧
      (σ.setGroup gid g).logs = push σ.logs gid op := by
  rw [logs_setGroup]
  rcases hact.log with hlog | ⟨k, op, rfl, hk, hlog⟩
  · left
    rw [hlog]
    exact Function.update_eq_self gid σ.logs
  · right
    exact ⟨op, ⟨k, rfl, hk⟩, by rw [hlog]; rfl⟩

structure Moves (configs : Nat → Config Nat) (R : Int → ShardKv → List ShardOp → Prop)
    (B : (Int → List ShardOp) → Int → ShardCmd → Prop) (O : (Int → List ShardOp) → Prop) (overtakes : Bool)
    (σ : ShardSystem) : Prop where
  follows : ∀ g, (σ.group g).Follows (R g) overtakes
  logs : O σ.logs
  heard : σ.Heard configs σ.logs (B σ.logs)

namespace Moves

variable {R : Int → ShardKv → List ShardOp → Prop} {B : (Int → List ShardOp) → Int → ShardCmd → Prop}
  {O : (Int → List ShardOp) → Prop}

theorem frame (h : σ.Moves configs R B O overtakes) (hg : σ'.group = σ.group) (hpolled : σ'.polled = σ.polled)
    (hpulls : σ'.pulls = σ.pulls) (hpulled : σ'.pulled = σ.pulled) (hgcs : σ'.gcs = σ.gcs)
    (hchecked : σ'.checked = σ.checked) (hgced : σ'.gced = σ.gced) : σ'.Moves configs R B O overtakes := by
  have hlogs : σ'.logs = σ.logs := by unfold ShardSystem.logs; rw [hg]
  refine ⟨by rw [hg]; exact h.follows, by rw [hlogs]; exact h.logs, ?_⟩
  rw [hlogs]
  exact ⟨by rw [hg]; exact h.heard.proposed, by rw [hg]; exact h.heard.calls, by rw [hpolled]; exact h.heard.polled,
    by rw [hpulls]; exact h.heard.pulls, by rw [hpulled]; exact h.heard.pulled, by rw [hgcs]; exact h.heard.gcs,
    by rw [hchecked]; exact h.heard.checked, by rw [hgced]; exact h.heard.gced⟩

theorem nobody (h : σ.Moves configs R B O overtakes) : σ.logs 0 = [] := by
  rw [List.eq_nil_iff_forall_not_mem]
  intro op hop
  obtain ⟨p, hp⟩ := List.getElem?_of_mem hop
  exact (h.heard.proposed 0 _ ((h.follows 0).logged p op hp)).1 rfl

theorem start (h : σ.Moves configs R B O overtakes) {gid : Int} {cmd : ShardCmd} (index : Nat) (hne : gid ≠ 0)
    (hl : Legit configs gid (σ.logs gid) cmd) (hb : B σ.logs gid cmd) :
    (σ.start gid cmd index).Moves configs R B O overtakes where
  follows := forall_setGroup h.follows ((h.follows gid).propose _ index)
  logs := by rw [logs_start]; exact h.logs
  heard := by
    rw [logs_start]
    exact { h.heard with
      proposed := forall_setGroup (P := fun g G => ∀ p ∈ G.proposed, g ≠ 0 ∧ Legit configs g (σ.logs g) p.2.cmd ∧
          B σ.logs g p.2.cmd) h.heard.proposed
        (forall_mem_snoc (h.heard.proposed gid) ⟨hne, hl, hb⟩)
      calls := forall_setGroup (P := fun _ G => ∀ r ch c req, (G.replica r).calls ch = some c → c.tok = .gc req →
          req.Owns configs σ.logs) h.heard.calls (h.heard.calls gid) }

theorem submitOp (h : σ.Moves configs R B O overtakes) {gid : Int} {tok : ShardTok} {cmd : ShardCmd} (r index : Nat)
    (hne : gid ≠ 0) (hl : Legit configs gid (σ.logs gid) cmd) (hb : B σ.logs gid cmd)
    (htok : ∀ req, tok = .gc req → req.Owns configs σ.logs) :
    (σ.submitOp gid r tok cmd index).Moves configs R B O overtakes where
  follows := forall_setGroup h.follows ((h.follows gid).submit r tok _ index)
  logs := by rw [logs_submitOp]; exact h.logs
  heard := by
    rw [logs_submitOp]
    exact { h.heard with
      proposed := forall_setGroup (P := fun g G => ∀ p ∈ G.proposed, g ≠ 0 ∧ Legit configs g (σ.logs g) p.2.cmd ∧
          B σ.logs g p.2.cmd) h.heard.proposed
        (forall_mem_snoc (h.heard.proposed gid) ⟨hne, hl, hb⟩)
      calls := forall_setGroup (P := fun _ G => ∀ r ch c req, (G.replica r).calls ch = some c → c.tok = .gc req →
          req.Owns configs σ.logs) h.heard.calls fun q ch c req hc ht => by
        rcases Group.submit_calls hc with hc | rfl
        · exact h.heard.calls gid q ch c req hc ht
        · exact htok req ht }

theorem reply (h : σ.Moves configs R B O overtakes) {tok : ShardTok} (r : KvReply)
    (htok : ∀ req, tok = .gc req → req.Owns configs σ.logs) : (σ.reply tok r).Moves configs R B O overtakes := by
  cases tok with
  | client req => exact h.frame rfl rfl rfl rfl rfl rfl rfl
  | gc req =>
    simp only [ShardSystem.reply]
    split
    · exact ⟨h.follows, h.logs, { h.heard with gced := forall_mem_snoc h.heard.gced (htok req rfl) }⟩
    · exact h

section
variable (hI : Migrates configs R B O)
include hI

theorem init : ShardSystem.init.Moves configs R B O overtakes where
  follows g := Group.follows_init (hI.init g)
  logs := hI.nil
  heard := by constructor <;> intros <;> contradiction

theorem replica_log (h : σ.Moves configs R B O overtakes) (gid : Int) (r : Nat) :
    ∃ log, log <+: σ.logs gid ∧ R gid (σ.replica gid r) log ∧ Placed configs gid log :=
  ⟨(σ.logs gid).take ((σ.group gid).replica r).applied, List.take_prefix _ _, ((h.follows gid).replica r).state,
    ((hI.legal h.logs gid).take _).placed⟩

theorem inner (h : σ.Moves configs R B O overtakes) {gid : Int} {a : Inner} {g : ShardGroup}
    {ans : Option (ShardTok × KvReply)} (hact : (σ.group gid).Act (shardMachine gid) overtakes a g ans)
    (hadv : (σ.group gid).Advances (shardMachine gid) (R gid) a) :
    (σ.setGroup gid g).Moves configs R B O overtakes := by
  have hlogs : O (σ.setGroup gid g).logs := by
    rcases logs_inner hact with hlogs | ⟨op, hop, hlogs⟩
    · rw [hlogs]; exact h.logs
    · obtain ⟨-, hl, hb⟩ := h.heard.proposed gid _ hop.mem
      rw [hlogs]; exact hI.push h.logs hl hb
  have hle := logs_le_setGroup (σ := σ) hact.log_le
  have hheard := h.heard.mono hle fun _ _ => hI.mono hle
  refine ⟨forall_setGroup h.follows ((h.follows gid).act hact hadv), hlogs,
    { hheard with proposed := ?_, calls := ?_ }⟩
  · refine forall_setGroup (P := fun g' G => ∀ p ∈ G.proposed, g' ≠ 0 ∧ Legit configs g' _ p.2.cmd ∧
      B _ g' p.2.cmd) hheard.proposed ?_
    rw [hact.proposed]
    exact hheard.proposed gid
  · refine forall_setGroup (P := fun _ G => ∀ r ch c req, (G.replica r).calls ch = some c → c.tok = .gc req →
      req.Owns configs _) hheard.calls fun r ch c req hc ht => ?_
    obtain ⟨c₀, hc₀, ht₀, -⟩ := hact.calls hc
    exact hheard.calls gid r ch c₀ req hc₀ (ht₀.trans ht)

/-! ## The goroutines -/

theorem gid_ne (h : σ.Moves configs R B O overtakes) {gid : Int} {r : Nat} {i : ShardId}
    (hst : ((σ.replica gid r).shards i).state ≠ .serving) : gid ≠ 0 := by
  rintro rfl
  obtain ⟨log, hlog, hrep, -⟩ := h.replica_log hI 0 r
  rw [h.nobody, List.prefix_nil] at hlog
  rw [(hI.alike hrep).state, hlog] at hst
  exact hst rfl

/-- `configPoller` -/
theorem poll (h : σ.Moves configs R B O overtakes) {gid : Int} {r : Nat} (hstable : (σ.replica gid r).allStable = true)
    (hnum : (configs ((σ.replica gid r).config.num + 1)).num = (σ.replica gid r).config.num + 1) :
    Legit configs gid (σ.logs gid) (.config (configs ((σ.replica gid r).config.num + 1))) := by
  obtain ⟨log, hlog, hrep, hp⟩ := h.replica_log hI gid r
  have ha := hI.alike hrep
  refine Legit.mono ?_ hlog
  rw [ha.allStable] at hstable
  rw [ha.config] at hnum ⊢
  refine ⟨_, rfl, hnum, le_rfl, fun i => hp.settled ?_ le_rfl⟩
  simpa using (List.all_eq_true.mp hstable) i (List.mem_finRange i)

/-- `migrationPuller` -/
theorem asks (h : σ.Moves configs R B O overtakes) {gid src : Int} {r : Nat} {state : ShardState} (servers : List Nat)
    (hids : (σ.replica gid r).fromOwner state src ≠ []) (hstate : state = .pulling ∨ state = .gcing) :
    MoveRequest.Asks configs σ.logs
      ⟨gid, src, servers, (σ.replica gid r).config.num, (σ.replica gid r).fromOwner state src⟩ := by
  have hgid : gid ≠ 0 := by
    obtain ⟨i, hi⟩ := List.exists_mem_of_ne_nil _ hids
    refine h.gid_ne hI (r := r) (i := i) ?_
    rw [(mem_fromOwner.mp hi).1]
    rcases hstate with rfl | rfl <;> decide
  obtain ⟨log, hlog, hrep, hp⟩ := h.replica_log hI gid r
  have ha := hI.alike hrep
  rw [ha.fromOwner] at hids
  rw [ha.config, ha.fromOwner]
  refine ⟨hgid, hids, num_mono hlog, fun i hi => ?_, fun i hi => ?_⟩
  · rcases hstate with rfl | rfl
    · exact (hp.standing (mem_fromOwner.mp hi).1).1
    · exact (hp.standing (mem_fromOwner.mp hi).1).1
  · rw [← hp.lastOwner_eq]
    exact (mem_fromOwner.mp hi).2

/-- `gcHandler` -/
theorem owns (h : σ.Moves configs R B O overtakes) {gid src : Int} {r : Nat} (servers : List Nat)
    (hids : (σ.replica gid r).fromOwner .gcing src ≠ []) :
    MoveRequest.Owns configs σ.logs
      ⟨gid, src, servers, (σ.replica gid r).config.num, (σ.replica gid r).fromOwner .gcing src⟩ := by
  refine ⟨h.asks hI servers hids (Or.inr rfl), fun i hi => ?_⟩
  obtain ⟨log, hlog, hrep, hp⟩ := h.replica_log hI gid r
  have ha := hI.alike hrep
  simp only [ha.config, ha.fromOwner] at hi ⊢
  exact (hp.standing (mem_fromOwner.mp hi).1).2.1.mono hlog

/-- `GCShard` -/
theorem legit_old (h : σ.Moves configs R B O overtakes) {req : MoveRequest} (hreq : req.Owns configs σ.logs) :
    Legit configs req.src (σ.logs req.src) (.gc req.configNum req.shardIds) := by
  refine ⟨?_, fun i hi => Or.inr (hreq.loses hi)⟩
  obtain ⟨i, hi⟩ := List.exists_mem_of_ne_nil _ hreq.ids_ne
  have := hI.reached h.logs (hreq.installed i hi)
  rwa [hreq.src_eq i hi] at this

theorem act (h : σ.Moves configs R B O overtakes) {a : ShardAct} (hact : Act configs overtakes σ a σ')
    (hadv : ∀ gid b, a = .inner gid b → (σ.group gid).Advances (shardMachine gid) (R gid) b) :
    σ'.Moves configs R B O overtakes := by
  cases hact with
  | accept _ hne => exact h.submitOp _ _ hne trivial hI.client fun _ ht => by cases ht
  | refuse _ => exact h.frame rfl rfl rfl rfl rfl rfl rfl
  | inner hg => exact h.inner hI hg (hadv _ _ rfl)
  | answer hg =>
    refine (h.inner hI hg (hadv _ _ rfl)).reply _ fun req ht => ?_
    obtain ⟨r, ch, c, hc, htok, -⟩ := hg.answer
    exact (h.heard.calls _ r ch c req hc (htok.trans ht)).mono (logs_le_setGroup hg.log_le)
  | poll hne hst hnum => exact ⟨h.follows, h.logs, { h.heard with
      polled := forall_mem_snoc h.heard.polled ⟨hne, h.poll hI hst hnum⟩ }⟩
  | startConfig hk =>
    obtain ⟨hne, hl⟩ := h.heard.polled _ hk
    exact h.start _ hne hl hI.config
  | pull hids => exact ⟨h.follows, h.logs, { h.heard with
      pulls := forall_mem_snoc h.heard.pulls (h.asks hI _ hids (Or.inl rfl)) }⟩
  | @pullShard k r req shards dup hk hp =>
    have hasks := h.heard.pulls _ hk
    obtain ⟨log, hlog, hrep, -⟩ := h.replica_log hI req.src r
    exact ⟨h.follows, h.logs, { h.heard with
      pulled := forall_mem_snoc h.heard.pulled
        ⟨hasks, fun _ _ => mem_of_pullShard hp, hI.install h.logs hasks hlog hrep hp⟩ }⟩
  | startInstall hk =>
    obtain ⟨hasks, hasked, hb⟩ := h.heard.pulled _ hk
    exact h.start _ hasks.gid_ne ⟨hasks.num_le, fun i m hm => hasks.gains i (hasked i m hm)⟩ hb
  | gc hids => exact ⟨h.follows, h.logs, { h.heard with
      gcs := forall_mem_snoc h.heard.gcs (h.owns hI _ hids) }⟩
  | gcShard hk _ => exact ⟨h.follows, h.logs, { h.heard with
      gced := forall_mem_snoc h.heard.gced (h.heard.gcs _ (List.mem_of_getElem? hk)) }⟩
  | check hk _ => exact ⟨h.follows, h.logs, { h.heard with
      checked := forall_mem_snoc h.heard.checked (h.heard.gcs _ (List.mem_of_getElem? hk)) }⟩
  | gcSubmit hk =>
    have hreq := h.heard.checked _ hk
    exact h.submitOp _ _ hreq.src_ne (h.legit_old hI hreq) (hI.gcOld hreq) fun _ ht => by cases ht; exact hreq
  | startGC hk =>
    have hreq := h.heard.gced _ hk
    exact h.start _ hreq.gid_ne hreq.legit_new (hI.gcNew hreq)
  | _ => exact h.frame rfl rfl rfl rfl rfl rfl rfl

end

end Moves

/-! ## The invariant, with the data -/

abbrev Migr (configs : Nat → Config Nat) (overtakes : Bool) (σ : ShardSystem) : Prop :=
  σ.Moves configs (fun g kv log => kv = replayed g log) (Backed configs) (Orderly configs) overtakes

/-- `PullShard`: the replica has the shard's map as it was, or the shard has
arrived. -/
theorem backed_install {L : Int → List ShardOp} {log : List ShardOp} {req : MoveRequest}
    {shards : ShardId → Option Store} {dup : DupTable} (h : Orderly configs L) (hreq : req.Asks configs L)
    (hlog : log <+: L req.src)
    (hp : (replayed req.src log).pullShard req.configNum req.shardIds = some (shards, dup)) :
    Backed configs L req.gid (.install req.configNum shards dup) := by
  obtain ⟨rest, hrest⟩ := hlog
  have hplaced : Placed configs req.src log := by
    have := (h.legal req.src).take log.length
    rw [← hrest, List.take_left] at this
    exact this.placed
  have hlog : log <+: L req.src := ⟨rest, hrest⟩
  simp only [ShardKv.pullShard] at hp
  split at hp
  · cases hp
  · rename_i hnum
    cases hp
    refine ⟨req.src, ⟨log, hlog, Nat.le_of_not_lt hnum, rfl⟩, fun i m hm => ?_⟩
    simp only at hm
    split at hm
    · rename_i hi
      cases hm
      have hsrc := hreq.src_eq i hi
      refine ⟨hsrc, ?_⟩
      rcases hplaced.lost (hreq.loses hi) (by omega) with hcol | ⟨-, -, hfinal⟩
      · exact Or.inr (h.collected req.src _ i (hcol.mono hlog))
      · left
        unfold OldMap
        rw [hsrc]
        exact hfinal.mono hlog
    · cases hm

theorem migrates_orderly (configs : Nat → Config Nat) :
    Migrates configs (fun g kv log => kv = replayed g log) (Backed configs) (Orderly configs) where
  init _ := rfl
  alike h := h ▸ .refl _
  nil := Orderly.nil
  legal h := h.legal
  push h hl hb := h.push hl hb
  reached h hi := h.reached _ _ _ hi
  mono hle h := h.mono hle
  client := trivial
  config := trivial
  install := by
    rintro L _ log shards dup req h hreq hlog rfl hp
    exact backed_install h hreq hlog hp
  gcOld h := h.backed_old
  gcNew h := h.backed_new

namespace Migr

theorem init : ShardSystem.init.Migr configs overtakes := Moves.init (migrates_orderly configs)

theorem fed (h : σ.Migr configs overtakes) (g : Int) : (σ.group g).Fed (shardMachine g) overtakes := h.follows g

theorem act (h : σ.Migr configs overtakes) {a : ShardAct} (hact : Act configs overtakes σ a σ')
    (hsafe : ∀ gid b, a = .inner gid b → (σ.group gid).Harmless (shardMachine gid) b) : σ'.Migr configs overtakes :=
  Moves.act (migrates_orderly configs) h hact fun gid b hb => (h.fed gid).advances (hsafe gid b hb)

end Migr

end ShardSystem

end DistLab
