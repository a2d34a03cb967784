import DistLab.Shard.Epoch

/-!
# Configurations and states, without the data

Which configuration a group is in and which state a shard has does not depend on
the maps or on the table. Two group states that agree on the former keep agreeing
under the same commands, and the goroutines read the same of both.
-/

namespace DistLab

namespace ShardKv

variable {gid : Int} {kv kv' kv'' : ShardKv}

structure Alike (kv kv' : ShardKv) : Prop where
  config : kv.config = kv'.config
  lastConfig : kv.lastConfig = kv'.lastConfig
  state : ∀ i, (kv.shards i).state = (kv'.shards i).state

theorem Alike.refl (kv : ShardKv) : kv.Alike kv := ⟨rfl, rfl, fun _ => rfl⟩

theorem Alike.trans (h : kv.Alike kv') (h' : kv'.Alike kv'') : kv.Alike kv'' :=
  ⟨h.config.trans h'.config, h.lastConfig.trans h'.lastConfig, fun i => (h.state i).trans (h'.state i)⟩

/-! ## What the goroutines read -/

theorem Alike.allStable (h : kv.Alike kv') : kv.allStable = kv'.allStable := by
  simp only [ShardKv.allStable, h.state]

theorem Alike.fromOwner (h : kv.Alike kv') (state : ShardState) (src : Int) :
    kv.fromOwner state src = kv'.fromOwner state src := by
  simp only [ShardKv.fromOwner, h.state, h.lastConfig]

/-! ## What the commands do -/

theorem installShard_state (s : Shard) (data : Option Store) :
    (installShard s data).state = if data.isSome ∧ s.state = .pulling then .gcing else s.state := by
  cases data with
  | none => simp [installShard]
  | some m =>
    by_cases hs : s.state = .pulling
    · simp [installShard, hs]
    · simp [installShard, hs]

theorem collectShard_state (s : Shard) :
    (collectShard s).state = if s.state = .bePulling ∨ s.state = .gcing then .serving else s.state := by
  obtain ⟨state, m⟩ := s
  cases state <;> rfl

theorem reassign_state {last next : Config Nat} {i : ShardId} {s s' : Shard} (h : s.state = s'.state) :
    (reassign gid last next i s).state = (reassign gid last next i s').state := by
  simp only [reassign]
  split
  · split <;> rfl
  · split
    · rfl
    · exact h

theorem applyClient_alike (gid : Int) (kv : ShardKv) (c s : Nat) (op : KvInput) :
    (kv.applyClient gid c s op).1.Alike kv where
  config := applyClient_config ..
  lastConfig := applyClient_lastConfig ..
  state i := by
    rcases kv.applyClient_shards gid c s op i with heq | ⟨-, -, heq⟩
    · rw [heq]
    · rw [heq]

theorem Alike.applyConfig (h : kv.Alike kv') (gid : Int) (cfg : Config Nat) :
    (kv.applyConfig gid cfg).Alike (kv'.applyConfig gid cfg) := by
  unfold ShardKv.applyConfig
  rw [h.config]
  split
  · exact h
  · exact ⟨rfl, rfl, fun i => reassign_state (h.state i)⟩

theorem Alike.applyInstall (h : kv.Alike kv') (c : Nat) (shards : ShardId → Option Store) (dup : DupTable) :
    (kv.applyInstall c shards dup).Alike (kv'.applyInstall c shards dup) := by
  unfold ShardKv.applyInstall
  rw [h.config]
  split
  · exact h
  · refine ⟨rfl, h.lastConfig, fun i => ?_⟩
    simp only [installShard_state, h.state]

theorem Alike.applyGC (h : kv.Alike kv') (c : Nat) (ids : List ShardId) :
    (kv.applyGC c ids).Alike (kv'.applyGC c ids) := by
  refine ⟨by simp only [applyGC_config, h.config], by simp only [applyGC_lastConfig, h.lastConfig], fun i => ?_⟩
  simp only [applyGC_shards, h.config]
  split
  · simp only [collectShard_state, h.state]
  · exact h.state i

theorem Alike.apply (h : kv.Alike kv') (gid : Int) (op : ShardOp) : (kv.apply gid op).1.Alike (kv'.apply gid op).1 := by
  obtain ⟨id, cmd⟩ := op
  cases cmd with
  | kv c s op =>
    have hback := applyClient_alike gid kv' c s op
    refine ((applyClient_alike gid kv c s op).trans h).trans ?_
    exact ⟨hback.config.symm, hback.lastConfig.symm, fun i => (hback.state i).symm⟩
  | config cfg => exact h.applyConfig gid cfg
  | install c shards dup => exact h.applyInstall c shards dup
  | gc c ids => exact h.applyGC c ids

end ShardKv

end DistLab
