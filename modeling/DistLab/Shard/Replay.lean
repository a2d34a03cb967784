import DistLab.Shard.Migrate

/-!
# Commands that a snapshot has overtaken

The applier does not know which index it has applied. A command that is already
part of an installed snapshot is executed again when it comes out of `applyCh`
later. The commands of the goroutines then change nothing: the configuration has
moved on, or what they would do is done. A `Put` or `Append` changes nothing if
its shard is not accepted now, or if the table has it; but a write that the log
refused at its place may be accepted by the newer state.
-/

namespace DistLab

section
variable {configs : Nat → Config Nat} {gid : Int} {log log' : List ShardOp} {id : Nat} {p : Nat}

/-! ## The commands of the goroutines -/

theorem replay_config {cfg : Config Nat} (h : Legal configs gid log) (hp : log[p]? = some ⟨id, .config cfg⟩)
    (hle : log.take (p + 1) <+: log') : (replayed gid log').applyConfig gid cfg = replayed gid log' := by
  obtain ⟨n, hcfg, hnum, hn, -⟩ : Legit configs gid (log.take p) (.config cfg) := h p _ hp
  have hreached : cfg.num ≤ (replayed gid log').config.num := by
    refine le_trans ?_ (num_mono hle)
    by_cases heq : n = (replayed gid (log.take p)).config.num
    · have henters : Enters cfg.num ⟨id, .config cfg⟩ (replayed gid (log.take p)) := ⟨cfg, rfl, rfl, by omega⟩
      rw [replayed_succ hp, enters_num gid henters]
    · have hstep : log.take p <+: log.take (p + 1) := List.take_prefix_take_left (by omega)
      have : (replayed gid _).config.num ≤ (replayed gid _).config.num := num_mono hstep
      omega
  unfold ShardKv.applyConfig
  rw [if_pos (by omega)]

/-- The table already has what a table that was merged into it had. -/
theorem mergeEntry_of_covers {own other : Option DupEntry}
    (h : ∀ e, other = some e → ∃ e', own = some e' ∧ e.seqId ≤ e'.seqId) : ShardKv.mergeEntry own other = own := by
  cases other with
  | none => rfl
  | some e =>
    obtain ⟨e', rfl, hle⟩ := h e rfl
    simp only [ShardKv.mergeEntry]
    rw [if_neg (by omega)]

theorem same_num {c : Nat} (hle : log.take p <+: log') (hc : c ≤ (replayed gid (log.take p)).config.num)
    (hnum : (replayed gid log').config.num = c) : (replayed gid (log.take p)).config.num = c :=
  Nat.le_antisymm (hnum ▸ num_mono hle) hc

theorem installed_at {c : Nat} {i : ShardId} {m : Store} {shards : ShardId → Option Store} {dup : DupTable}
    (h : Legal configs gid log) (hp : log[p]? = some ⟨id, .install c shards dup⟩) (hm : shards i = some m)
    (hnum : (replayed gid (log.take p)).config.num = c) : Installed gid (log.take (p + 1)) c i := by
  have hpre : log.take p <+: log.take (p + 1) := List.take_prefix_take_left (Nat.le_succ p)
  have hplaced := (h.take p).placed
  obtain ⟨-, hgains⟩ : Legit configs gid (log.take p) (.install c shards dup) := h p _ hp
  have hgain := hgains i m hm
  subst hnum
  cases hold : ((replayed gid (log.take p)).shards i).state with
  | serving => exact (hplaced.finished _ i ((hplaced.standing hold).1 hgain)).mono hpre
  | pulling =>
    rw [List.take_add_one, hp, Option.toList_some]
    exact installed_snoc.mpr (Or.inr ⟨m, dup, shards, rfl, hm, rfl, hold⟩)
  | gcing => exact (hplaced.standing hold).2.1.mono hpre
  | bePulling => exact absurd hgain.1 (hplaced.standing hold).1.1

section
variable {c : Nat} {ids : List ShardId} {i : ShardId} (h : Legal configs gid log)
  (hp : log[p]? = some ⟨id, .gc c ids⟩) (hi : i ∈ ids) (hnum : (replayed gid (log.take p)).config.num = c)
include hp hi hnum

theorem clears_at {st : ShardState} (hst : ((replayed gid (log.take p)).shards i).state = st) :
    (shardMachine gid).Took (log.take (p + 1)) (Clears st c i) := by
  rw [List.take_add_one, hp, Option.toList_some]
  exact (shardMachine gid).took_snoc.mpr (Or.inr ⟨ids, rfl, hi, hnum, hst⟩)

include h

theorem finished_at (hgain : Gains configs gid c i) : Finished gid (log.take (p + 1)) c i := by
  have hpre : log.take p <+: log.take (p + 1) := List.take_prefix_take_left (Nat.le_succ p)
  have hplaced := (h.take p).placed
  obtain ⟨-, hids⟩ : Legit configs gid (log.take p) (.gc c ids) := h p _ hp
  obtain ⟨-, hin⟩ := (hids i hi).resolve_right fun hl => hl.1 hgain.1
  have hclears : ((replayed gid (log.take p)).shards i).state = .gcing → Finished gid (log.take (p + 1)) c i :=
    clears_at hp hi hnum
  subst hnum
  cases hold : ((replayed gid (log.take p)).shards i).state with
  | serving => exact ((hplaced.standing hold).1 hgain).mono hpre
  | pulling => exact absurd hin (hplaced.standing hold).2
  | gcing => exact hclears hold
  | bePulling => exact absurd hgain.1 (hplaced.standing hold).1.1

theorem collected_at (hl : Loses configs gid c i) : Collected gid (log.take (p + 1)) c i := by
  have hpre : log.take p <+: log.take (p + 1) := List.take_prefix_take_left (Nat.le_succ p)
  rcases (h.take p).placed.lost hl hnum.ge with hcol | ⟨-, hbe, -⟩
  · exact hcol.mono hpre
  · exact clears_at hp hi hnum hbe

end

theorem replay_install {c : Nat} {shards : ShardId → Option Store} {dup : DupTable} (h : Legal configs gid log)
    (hp : log[p]? = some ⟨id, .install c shards dup⟩) (h' : Placed configs gid log')
    (hle : log.take (p + 1) <+: log') : (replayed gid log').applyInstall c shards dup = replayed gid log' := by
  obtain ⟨hc, -⟩ : Legit configs gid (log.take p) (.install c shards dup) := h p _ hp
  unfold ShardKv.applyInstall
  split
  · rfl
  · rename_i hnum
    have hnum : (replayed gid log').config.num = c := (not_not.mp hnum).symm
    have hnump := same_num ((List.take_prefix_take_left (Nat.le_succ p)).trans hle) hc hnum
    have hshards : ∀ i, ShardKv.installShard ((replayed gid log').shards i) (shards i) = (replayed gid log').shards i := by
      have hcmd : (⟨id, .install c shards dup⟩ : ShardOp).cmd = .install c shards dup := rfl
      refine fun i => install_same hcmd hnum fun m hin => ?_
      obtain ⟨_, hcmd, hm, -, hst⟩ := hin
      cases hcmd
      have hpull := (h'.standing hst).2
      rw [hnum] at hpull
      exact hpull ((installed_at h hp hm hnump).mono hle)
    have hdup : ∀ client, ShardKv.mergeEntry ((replayed gid log').dupTable client) (dup client) =
        (replayed gid log').dupTable client := by
      intro client
      refine mergeEntry_of_covers fun e he => ?_
      refine (shardMachine gid).replay_keep (P := fun kv => kv.dupTable.Covers client e.seqId)
        (fun kv op h => kv.covers_apply gid op h) hle ?_
      show (replayed gid (log.take (p + 1))).dupTable.Covers client e.seqId
      rw [replayed_succ hp]
      simp only [ShardKv.apply, ShardKv.applyInstall, hnump, ne_eq, not_true_eq_false, if_false]
      exact ShardKv.covers_mergeEntry (Or.inr ⟨e, he, le_rfl⟩)
    simp only [hshards, hdup]

theorem replay_gc {c : Nat} {ids : List ShardId} (h : Legal configs gid log)
    (hp : log[p]? = some ⟨id, .gc c ids⟩) (h' : Placed configs gid log')
    (hle : log.take (p + 1) <+: log') : (replayed gid log').applyGC c ids = replayed gid log' := by
  obtain ⟨hc, -⟩ : Legit configs gid (log.take p) (.gc c ids) := h p _ hp
  rw [ShardKv.applyGC_eq]
  have hshards : ∀ i, (if (replayed gid log').config.num = c ∧ i ∈ ids then
      ShardKv.collectShard ((replayed gid log').shards i) else (replayed gid log').shards i) =
      (replayed gid log').shards i := by
    intro i
    split
    · rename_i hci
      obtain ⟨hnum, hi⟩ := hci
      have hnump := same_num ((List.take_prefix_take_left (Nat.le_succ p)).trans hle) hc hnum
      cases hst : ((replayed gid log').shards i).state with
      | serving => simp only [ShardKv.collectShard, hst]
      | pulling => simp only [ShardKv.collectShard, hst]
      | gcing =>
        have hstand := h'.standing hst
        rw [hnum] at hstand
        exact absurd ((finished_at h hp hi hnump hstand.1).mono hle) hstand.2.2
      | bePulling =>
        have hstand := h'.standing hst
        rw [hnum] at hstand
        exact absurd ((collected_at h hp hi hnump hstand.1).mono hle) hstand.2.1
    · rfl
  simp only [hshards]

/-! ## Client operations -/

/-- A client operation that would leave the state alone. -/
def ShardKv.Ignores (gid : Int) (kv : ShardKv) : ShardCmd → Prop
  | .kv client s op => op.opType = .get ∨ ¬ kv.Accepts gid (key2shard op.key) ∨ (kv.duplicate client s).isSome = true
  | .config _ => True
  | .install _ _ _ => True
  | .gc _ _ => True

instance (gid : Int) (kv : ShardKv) (cmd : ShardCmd) : Decidable (kv.Ignores gid cmd) :=
  match cmd with
  | .kv _ _ _ => inferInstanceAs (Decidable (_ ∨ _ ∨ _))
  | .config _ => isTrue trivial
  | .install _ _ _ => isTrue trivial
  | .gc _ _ => isTrue trivial

theorem replay_client {kv : ShardKv} {client s : Nat} {op : KvInput} (h : kv.Ignores gid (.kv client s op)) :
    (kv.applyClient gid client s op).1 = kv := by
  have hcl := ShardKv.applyClient_cases gid kv client s op
  generalize kv.applyClient gid client s op = q at hcl
  cases hcl with
  | refused _ => rfl
  | repeated _ _ _ => rfl
  | read _ _ => rfl
  | written ha hw hd =>
    rcases h with hg | hn | hs
    · exact absurd hg hw
    · exact absurd ha hn
    · rw [hd] at hs; cases hs

/-- A command that stands before the end of the log changes nothing when it is
executed again. -/
theorem replay_again {op : ShardOp} (h : Legal configs gid log) (hp : log[p]? = some op)
    (h' : Placed configs gid log') (hle : log.take (p + 1) <+: log') (hig : (replayed gid log').Ignores gid op.cmd) :
    ((replayed gid log').apply gid op).1 = replayed gid log' := by
  obtain ⟨id, cmd⟩ := op
  cases cmd with
  | kv client s op => exact replay_client hig
  | config cfg => exact replay_config h hp hle
  | install c shards dup => exact replay_install h hp h' hle
  | gc c ids => exact replay_gc h hp h' hle

end

/-! ## Runs -/

namespace ShardSystem

/-- The command that a replica executes although its state already covers it. -/
def overtaken (σ : ShardSystem) : ShardAct → Option (Int × ShardKv × ShardCmd)
  | .inner gid (.apply r _) =>
    match ((σ.group gid).replica r).queue with
    | j :: _ =>
      if j ≤ ((σ.group gid).replica r).applied then
        ((σ.group gid).log[j - 1]?).map fun op => (gid, σ.replica gid r, op.cmd)
      else none
    | [] => none
  | _ => none

/-- A write that is overtaken is refused now, or answered from the table. -/
def Repeats (σ : ShardSystem) (a : ShardAct) : Prop := ∀ p ∈ σ.overtaken a, p.2.1.Ignores p.1 p.2.2

instance (σ : ShardSystem) (a : ShardAct) : Decidable (σ.Repeats a) :=
  inferInstanceAs (Decidable (∀ p ∈ σ.overtaken a, _))

theorem Migr.harmless {configs : Nat → Config Nat} {overtakes : Bool} {σ : ShardSystem} (h : σ.Migr configs overtakes)
    {gid : Int} {b : Inner} (hb : σ.Repeats (.inner gid b)) : (σ.group gid).Harmless (shardMachine gid) b := by
  rintro r snap j q op rfl hq hop hle
  have hig := hb (gid, σ.replica gid r, op.cmd) (by simp only [overtaken, hq, hle, if_true, hop, Option.map_some,
    Option.mem_def])
  have hpos := ((h.fed gid).replica r).feeds.mem_pos (hq ▸ List.mem_cons_self)
  have hstate : σ.replica gid r = replayed gid ((σ.logs gid).take ((σ.group gid).replica r).applied) :=
    ((h.fed gid).replica r).state
  show ((σ.replica gid r).apply gid op).1 = σ.replica gid r
  rw [hstate] at hig ⊢
  exact replay_again (h.logs.legal gid) hop ((h.logs.legal gid).take _).placed
    (List.take_prefix_take_left (by omega)) hig

end ShardSystem

theorem ShardRun.migr_of_repeats {configs : Nat → Config Nat} (r : ShardRun configs true)
    (hr : r.Meets ShardSystem.Repeats) (k : Nat) : (r.state k).Migr configs true := by
  refine r.invariant hr ShardSystem.Migr.init (fun σ a σ' h hc hs => ?_) k
  refine ShardSystem.Migr.act h (ShardSystem.act_cases hs) ?_
  rintro gid b rfl
  exact ShardSystem.Migr.harmless h hc

/-- When every write that a snapshot has overtaken is refused or answered from
the table, a replica is at all times the committed log, executed once and in
order up to the largest index that was delivered or installed. -/
theorem replica_replays_log {configs : Nat → Config Nat} (r : ShardRun configs true)
    (hr : r.Meets ShardSystem.Repeats) (k : Nat) (gid : Int) (q : Nat) :
    (((r.state k).group gid).replica q).applied ≤ ((r.state k).logs gid).length ∧
      (r.state k).replica gid q =
        (shardMachine gid).replay (((r.state k).logs gid).take (((r.state k).group gid).replica q).applied) := by
  have hinv := r.migr_of_repeats hr k
  exact ⟨((hinv.fed gid).replica q).applied_le, ((hinv.fed gid).replica q).state⟩

def allTo (num : Nat) (gid : Int) : Config Nat := ⟨num, fun _ => gid, (GoMap.empty.insert 1 [0, 1]).insert 2 [0, 1]⟩

/-- Configuration 1 gives all shards to group 1, configuration 2 to group 2. -/
def handOverConfigs : Nat → Config Nat
  | 0 => Config.zero
  | 1 => allTo 1 1
  | _ + 2 => allTo 2 2

/-- Replica 0 snapshots at index 2; replica 1 has collected index 1 when it
installs the snapshot, and then executes the command at index 1. -/
def snapshotActs : List ShardAct :=
  [.inner 1 (.collect 0 2), .inner 1 (.apply 0 false), .inner 1 (.apply 0 true), .inner 1 (.collect 1 1),
   .inner 1 (.install 1 0), .inner 1 (.apply 1 false)]

def clientActs (key value : GoString) (index : Nat) : List ShardAct :=
  [.invoke 7 ⟨.put, key, value⟩, .lookup 7, .query 7 1, .lookup 7, .call 7, .accept 0 index]

def configFirstActs (key value : GoString) : List ShardAct :=
  [.poll 1 0, .startConfig 0 1, .inner 1 (.commit 0)] ++ clientActs key value 2 ++ [.inner 1 (.commit 1)] ++ snapshotActs

theorem configFirst_exec :
    (exec (ShardSystem.step · handOverConfigs true) ShardSystem.init (configFirstActs [107] [120])).isSome = true := by
  decide +kernel

def configFirst : ShardRun handOverConfigs true :=
  Run.ofList (configFirstActs [107] [120]) (Option.some_get configFirst_exec).symm

theorem configFirst_repeats : configFirst.Meets ShardSystem.Repeats := Run.meets_ofList _ (by decide +kernel)

theorem configFirst_replays : (configFirst.state 16).replica 1 1 =
    (shardMachine 1).replay (((configFirst.state 16).logs 1).take (((configFirst.state 16).group 1).replica 1).applied) :=
  (replica_replays_log configFirst configFirst_repeats 16 1 1).2

/-- The `Put` stands at index 1, before the `OpConfig`: the group refuses it. -/
def putFirstActs (key value : GoString) : List ShardAct :=
  clientActs key value 1 ++ [.inner 1 (.commit 0), .poll 1 0, .startConfig 0 2, .inner 1 (.commit 1)] ++ snapshotActs

theorem putFirst_exec :
    (exec (ShardSystem.step · handOverConfigs true) ShardSystem.init (putFirstActs [107] [120])).isSome = true := by
  decide +kernel

def putFirst : ShardRun handOverConfigs true :=
  Run.ofList (putFirstActs [107] [120]) (Option.some_get putFirst_exec).symm

theorem putFirst_diverges : (((putFirst.state 16).group 1).replica 1).applied = 2 ∧
    (((putFirst.state 16).replica 1 1).shards (key2shard [107])).kv [107] = some [120] ∧
    (((shardMachine 1).replay (((putFirst.state 16).logs 1).take 2)).shards (key2shard [107])).kv [107] = none := by
  decide +kernel

end DistLab
