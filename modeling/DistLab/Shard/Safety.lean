import DistLab.Shard.Stable

/-!
# Safety of migration

Two groups never accept operations for the same shard, and no shard is deleted
before it is installed elsewhere. What is installed is what the previous owner
had, as long as the replicas that answer `PullShard` are what their log says; a
replica that has executed a write which a snapshot had overtaken answers with
other data.
-/

namespace DistLab

namespace ShardSystem

variable {configs : Nat → Config Nat} {overtakes : Bool} {σ σ' : ShardSystem}

theorem Act.logs_cases {a : ShardAct} (h : Act configs overtakes σ a σ') :
    σ'.logs = σ.logs ∨ ∃ gid op, σ.Commits a gid op ∧ σ'.logs = push σ.logs gid op := by
  cases h with
  | accept _ _ => left; rw [logs_submitOp]
  | inner hg => exact (logs_inner hg).imp_right fun h => ⟨_, h⟩
  | answer hg =>
    unfold logs
    rw [reply_group]
    exact (logs_inner hg).imp_right fun h => ⟨_, h⟩
  | startConfig _ => left; rw [logs_start]
  | startInstall _ => left; rw [logs_start]
  | gcSubmit _ => left; rw [logs_submitOp]
  | startGC _ => left; rw [logs_start]
  | _ => exact Or.inl rfl

end ShardSystem

namespace ShardRun

variable {configs : Nat → Config Nat} {overtakes : Bool} (r : ShardRun configs overtakes)

theorem lawful (k : Nat) : Lawful configs (r.state k).logs := (run_lawful r k).logs

theorem logs_cases (k : Nat) : (r.state (k + 1)).logs = (r.state k).logs ∨ ∃ a gid op, r.act k = some a ∧
    (r.state k).Commits a gid op ∧ (r.state (k + 1)).logs = push (r.state k).logs gid op := by
  rcases r.next_cases k with ⟨-, heq⟩ | ⟨a, ha, hstep⟩
  · rw [heq]; exact Or.inl rfl
  · exact (ShardSystem.act_cases hstep).logs_cases.imp_right fun ⟨gid, op, h⟩ => ⟨a, gid, op, ha, h⟩

variable {r} in
theorem committed {R : Int → ShardKv → List ShardOp → Prop} {B : (Int → List ShardOp) → Int → ShardCmd → Prop}
    {O : (Int → List ShardOp) → Prop} {k : Nat} (hm : (r.state k).Moves configs R B O overtakes) {g : Int} {op : ShardOp}
    (hlog : (r.state (k + 1)).logs g = (r.state k).logs g ++ [op]) :
    Legit configs g ((r.state k).logs g) op.cmd ∧ B (r.state k).logs g op.cmd := by
  rcases r.logs_cases k with heq | ⟨_, gid, op', -, hp, heq⟩
  · rw [heq] at hlog
    exact absurd (congrArg List.length hlog) (by simp)
  · by_cases hg : g = gid
    · subst hg
      rw [heq, push_self] at hlog
      cases List.append_cancel_left hlog
      exact (hm.heard.proposed g _ hp.mem).2
    · rw [heq, push_of_ne hg] at hlog
      exact absurd (congrArg List.length hlog) (by simp)

end ShardRun

/-! ## Exclusivity -/

/-- When every configuration from the first on assigns every shard to a group,
no two groups accept operations for the same shard. -/
theorem shard_exclusive {configs : Nat → Config Nat} {overtakes : Bool}
    (hreal : ∀ n, 1 ≤ n → (configs n).num = n → ∀ i, (configs n).shards i ≠ 0) (r : ShardRun configs overtakes) (k : Nat)
    (g g' : Int) (hg : g ≠ 0) (hg' : g' ≠ 0) (hne : g ≠ g') (i : ShardId) :
    ¬ (((r.state k).kv g).Accepts g i ∧ ((r.state k).kv g').Accepts g' i) := by
  rintro ⟨ha, ha'⟩
  exact hne ((r.lawful k).exclusive ((r.lawful k).virgin hreal) hg hg' ha ha')

theorem handOverConfigs_ne_zero (n : Nat) (hn : 1 ≤ n) (_ : (handOverConfigs n).num = n) (i : ShardId) :
    (handOverConfigs n).shards i ≠ 0 := by
  match n with
  | 0 => omega
  | 1 => exact (by decide : (1 : Int) ≠ 0)
  | n + 2 => exact (by decide : (2 : Int) ≠ 0)

theorem handOver_exclusive :
    ((handOver.state 46).kv 2).Accepts 2 (key2shard [107]) ∧ ¬ ((handOver.state 46).kv 1).Accepts 1 (key2shard [107]) := by
  have h : ((handOver.state 46).kv 2).Accepts 2 (key2shard [107]) := by decide +kernel
  exact ⟨h, fun h₁ => shard_exclusive handOverConfigs_ne_zero handOver 46 1 2 (by decide) (by decide) (by decide) _
    ⟨h₁, h⟩⟩

theorem handOver_repeats : handOver.Meets ShardSystem.Repeats := Run.meets_ofList _ (by decide +kernel)

/-- Replica 0 of group 1 has collected client 7's `Put`, which its log refuses at
its place, when it installs the snapshot that replica 1 made after client 8's. So
it executes the `Put` in a state that has the shard, and answers `OK`. Then it
gives the shards to group 2. -/
def forkedActs (key value other : GoString) : List ShardAct :=
  [.invoke 7 ⟨.put, key, value⟩, .lookup 7, .query 7 1, .lookup 7, .call 7, .accept 0 1, .inner 1 (.register 0 0),
   .inner 1 (.commit 0), .poll 1 1, .startConfig 0 2, .inner 1 (.commit 1),
   .invoke 8 ⟨.put, key, other⟩, .lookup 8, .query 8 1, .lookup 8, .call 8, .fail 8, .call 8, .accept 2 3,
   .inner 1 (.commit 2), .inner 1 (.collect 1 3), .inner 1 (.apply 1 false), .inner 1 (.apply 1 false),
   .inner 1 (.apply 1 true), .inner 1 (.collect 0 1), .inner 1 (.install 0 0), .inner 1 (.apply 0 false),
   .inner 1 (.notify 0), .inner 1 (.receive 0 0), .inner 1 (.finish 0 0), .receive 0,
   .poll 1 1, .startConfig 1 4, .inner 1 (.commit 3), .inner 1 (.collect 0 4), .inner 1 (.apply 0 false),
   .inner 1 (.collect 1 4), .inner 1 (.apply 1 false),
   .poll 2 0, .startConfig 2 1, .inner 2 (.commit 0), .inner 2 (.collect 0 1), .inner 2 (.apply 0 false),
   .poll 2 0, .startConfig 3 2, .inner 2 (.commit 1), .inner 2 (.collect 0 2), .inner 2 (.apply 0 false),
   .pull 2 0 1, .pullShard 0 0, .startInstall 0 3, .inner 2 (.commit 2), .inner 2 (.collect 0 3),
   .inner 2 (.apply 0 false), .gc 2 0 1, .gcShard 0 1, .gcSubmit 0 5, .inner 1 (.commit 4)]

theorem forked_exec :
    (exec (ShardSystem.step · handOverConfigs true) ShardSystem.init (forkedActs [107] [120] [121])).isSome = true := by
  decide +kernel

def forked : ShardRun handOverConfigs true :=
  Run.ofList (forkedActs [107] [120] [121]) (Option.some_get forked_exec).symm

/-! ## The data that is carried -/

/-- When every write that a snapshot has overtaken is refused or answered from
the table, an `OpInstall` for configuration `c` that takes effect on a shard
leaves it with the map that the old owner had where its log applied `c`, and the
table with every write which the old owner executed on the shard. -/
theorem install_carries_final_data {configs : Nat → Config Nat} (r : ShardRun configs true)
    (hr : r.Meets ShardSystem.Repeats) {k : Nat} {g : Int} {op : ShardOp} {c : Nat} {i : ShardId} {m : Store}
    {dup : DupTable} (hlog : (r.state (k + 1)).logs g = (r.state k).logs g ++ [op])
    (hop : Installs c i m dup op ((r.state k).kv g)) :
    FinalMap (owner configs (c - 1) i) ((r.state k).logs (owner configs (c - 1) i)) c i m ∧
      ((r.state (k + 1)).kv g).shards i = ⟨.gcing, m⟩ ∧
      ∀ client s, (shardMachine (owner configs (c - 1) i)).Took ((r.state k).logs (owner configs (c - 1) i))
        (Writes (owner configs (c - 1) i) i client s) →
        dup.Covers client s ∧ ((r.state (k + 1)).kv g).dupTable.Covers client s := by
  have hm := r.migr_of_repeats hr k
  obtain ⟨hmap, hdup⟩ := hm.logs.carries (ShardRun.committed hm hlog).2 hop
  have hkv : (r.state (k + 1)).kv g = (((r.state k).kv g).apply g op).1 := by
    show replayed g ((r.state (k + 1)).logs g) = _
    rw [hlog, replayed_snoc]
    rfl
  rw [hkv]
  exact ⟨hmap, (installs_apply hop).2, fun client s hw => ⟨hdup client s hw, installs_covers hop (hdup client s hw)⟩⟩

def handOverInstall : ShardOp := ((handOver.state 32).logs 2).getD 2 ⟨0, .gc 0 []⟩

theorem handOver_carries : ∃ m dup, Installs 2 (key2shard [107]) m dup handOverInstall ((handOver.state 31).kv 2) ∧
    m [107] = some [120] ∧ FinalMap 1 ((handOver.state 31).logs 1) 2 (key2shard [107]) m ∧
    ((handOver.state 32).kv 2).shards (key2shard [107]) = ⟨.gcing, m⟩ ∧
    ((handOver.state 32).kv 2).dupTable.Covers 7 1 := by
  have hlog : (handOver.state 32).logs 2 = (handOver.state 31).logs 2 ++ [handOverInstall] := rfl
  obtain ⟨m, dup, hop, hm⟩ : ∃ m dup, Installs 2 (key2shard [107]) m dup handOverInstall ((handOver.state 31).kv 2) ∧
      m [107] = some [120] := ⟨_, _, ⟨_, rfl, rfl, rfl, rfl⟩, rfl⟩
  obtain ⟨hmap, hshard, hdup⟩ := install_carries_final_data handOver handOver_repeats hlog hop
  refine ⟨m, dup, hop, hm, hmap, hshard, (hdup 7 1 ⟨1, _, rfl, ⟨.put, [107], [120]⟩, rfl, by decide, rfl, ?_, ?_⟩).2⟩
  · exact (by decide +kernel : ShardKv.Accepts 1 (replayed 1 (((handOver.state 31).logs 1).take 1)) (key2shard [107]))
  · exact (by decide +kernel : (replayed 1 (((handOver.state 31).logs 1).take 1)).duplicate 7 1 = none)

def forkedInstall : ShardOp := ((forked.state 52).logs 2).getD 2 ⟨0, .gc 0 []⟩

/-- Group 2 installs client 7's value, and group 1's log had client 8's. -/
theorem forked_installs_other :
    (∀ n, 1 ≤ n → (handOverConfigs n).num = n → ∀ i, (handOverConfigs n).shards i ≠ 0) ∧ ∃ m dup final,
      (forked.state 52).logs 2 = (forked.state 51).logs 2 ++ [forkedInstall] ∧
      Installs 2 (key2shard [107]) m dup forkedInstall ((forked.state 51).kv 2) ∧ m [107] = some [120] ∧
      FinalMap 1 ((forked.state 51).logs 1) 2 (key2shard [107]) final ∧ final [107] = some [121] :=
  ⟨handOverConfigs_ne_zero, _, _, _, rfl, ⟨_, rfl, rfl, rfl, rfl⟩, rfl, ⟨3, _, rfl, ⟨_, rfl, rfl, rfl⟩, rfl⟩, rfl⟩

/-! ## Garbage collection -/

/-- When every write that a snapshot has overtaken is refused or answered from
the table: when an `OpGC` has emptied a shard of an old owner, the new owner had
installed it before; and the map with which a group left a shard is in its
replicated state, or was brought into that of the new owner. -/
theorem collect_after_install {configs : Nat → Config Nat} (r : ShardRun configs true)
    (hr : r.Meets ShardSystem.Repeats) (k : Nat) :
    (∀ g c i, Collected g ((r.state (k + 1)).logs g) c i → Arrived configs (r.state k).logs c i) ∧
      ∀ g c i m, Loses configs g c i → FinalMap g ((r.state k).logs g) c i m →
        (((r.state k).kv g).config.num = c ∧ ((r.state k).kv g).shards i = ⟨.bePulling, m⟩) ∨
        ∃ log, log <+: (r.state k).logs (owner configs c i) ∧ (replayed (owner configs c i) log).config.num = c ∧
          (replayed (owner configs c i) log).shards i = ⟨.gcing, m⟩ := by
  have hinv := r.migr_of_repeats hr k
  have hord := hinv.logs
  refine ⟨fun g c i hcol => ?_, fun g c i m hl hm => ?_⟩
  · rcases r.logs_cases k with heq | ⟨_, gid, op, -, hp, heq⟩
    · rw [heq] at hcol
      exact hord.collected g c i hcol
    · rw [heq] at hcol
      rcases took_push hcol with hcol | ⟨rfl, ids, hcmd, hi, rfl, hst⟩
      · exact hord.collected g c i hcol
      · have hb := (hinv.heard.proposed g _ hp.mem).2.2
        rw [hcmd] at hb
        exact hb i hi ((hord.placed g).standing hst).1
  · by_cases harr : Arrived configs (r.state k).logs c i
    · right
      exact hord.arrived_map hl harr hm
    · left
      obtain ⟨hnum, hst, hfinal⟩ := hord.kept hl hm.num_le harr
      rw [hm.unique hfinal, ← hst]
      exact ⟨hnum, rfl⟩

theorem handOver_collects : Collected 1 ((handOver.state 39).logs 1) 2 (key2shard [107]) ∧
    Arrived handOverConfigs (handOver.state 38).logs 2 (key2shard [107]) := by
  have h : Collected 1 ((handOver.state 39).logs 1) 2 (key2shard [107]) :=
    ⟨3, _, rfl, List.finRange nShards, rfl, List.mem_finRange _, rfl, rfl⟩
  exact ⟨h, (collect_after_install handOver handOver_repeats 38).1 1 2 _ h⟩

/-- What group 1 had when it gave the shard away is in neither replicated state. -/
theorem forked_lost : ∃ final, FinalMap 1 ((forked.state 58).logs 1) 2 (key2shard [107]) final ∧
    final [107] = some [121] ∧ Collected 1 ((forked.state 58).logs 1) 2 (key2shard [107]) ∧
    (((forked.state 58).kv 1).shards (key2shard [107])).kv [107] = none ∧
    (((forked.state 58).kv 2).shards (key2shard [107])).kv [107] = some [120] :=
  ⟨_, ⟨3, _, rfl, ⟨_, rfl, rfl, rfl⟩, rfl⟩, rfl, ⟨4, _, rfl, List.finRange nShards, rfl, List.mem_finRange _, rfl, rfl⟩,
    rfl, rfl⟩

end DistLab
