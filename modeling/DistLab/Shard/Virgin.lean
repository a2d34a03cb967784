import DistLab.Shard.Safety

/-!
# Shards without a previous owner

A group serves a shard at once when the previous configuration gives it to
nobody. If no other group was assigned the shard before, nobody else serves it
or has a key of it. But the controller gives shards to nobody also when the last
group leaves, and then an earlier owner may still serve them.
-/

namespace DistLab

section
variable {configs : Nat → Config Nat} {L L' : Int → List ShardOp} {g g' : Int} {log : List ShardOp} {op : ShardOp}
  {c : Nat} {i : ShardId}

/-! ## The first owner -/

/-- Whoever gets a shard from nobody is the only group that it was assigned to
so far. -/
def FirstOwner (configs : Nat → Config Nat) (L : Int → List ShardOp) : Prop :=
  ∀ n i, owner configs n i ≠ 0 → owner configs (n - 1) i = 0 →
    n ≤ (replayed (owner configs n i) (L (owner configs n i))).config.num →
    ∀ j < n, owner configs j i = 0 ∨ owner configs j i = owner configs n i

/-- A group that lost a shard to nobody does not move on. -/
theorem Lawful.virgin_of_firstOwner (h : Lawful configs L) (hzero : L 0 = []) (hf : FirstOwner configs L) :
    Virgin configs L := by
  intro n i hne hprev hle
  -- from the last configuration before `n` down
  have down : ∀ d j, j + 1 + d = n → owner configs j i = 0 := by
    intro d
    induction d with
    | zero => rintro j rfl; exact hprev
    | succ d ih =>
      rintro j rfl
      by_contra hj
      have hown := (hf _ i hne hprev hle j (by omega)).resolve_left hj
      have hnext := ih (j + 1) (by omega)
      have hloses : Loses configs (owner configs (j + 1 + (d + 1)) i) (j + 1) i := ⟨by rw [hnext]; exact Ne.symm hne, hown⟩
      obtain ⟨m, dup, harr⟩ := h.collected _ _ _ (((h.placed _).past (j + 1) i (by omega)).2 hloses)
      rw [hnext, hzero] at harr
      exact (shardMachine 0).not_took_nil harr
  exact fun j hj => down (n - j - 1) j (by omega)

end

/-! ## Runs -/

namespace ShardSystem

def configCommitted (σ : ShardSystem) : ShardAct → Option (Int × Config Nat)
  | .inner gid (.commit k) =>
    match (σ.group gid).proposed[k]? with
    | some (_, ⟨_, .config cfg⟩) => some (gid, cfg)
    | _ => none
  | _ => none

/-- The shards that an `OpConfig` gives to a group from nobody were assigned to no
other group before. -/
def GivesVirgin (configs : Nat → Config Nat) (σ : ShardSystem) (a : ShardAct) : Prop :=
  ∀ p ∈ σ.configCommitted a, ∀ i, p.2.shards i = p.1 → owner configs (p.2.num - 1) i = 0 →
    ∀ j < p.2.num, owner configs j i = 0 ∨ owner configs j i = p.1

instance (configs : Nat → Config Nat) (σ : ShardSystem) (a : ShardAct) : Decidable (σ.GivesVirgin configs a) :=
  inferInstanceAs (Decidable (∀ p ∈ σ.configCommitted a, _))

end ShardSystem

theorem num_snoc {g : Int} {log : List ShardOp} {op : ShardOp}
    (h : (replayed g log).config.num < (replayed g (log ++ [op])).config.num) :
    ∃ cfg, op.cmd = .config cfg ∧ cfg.num = (replayed g log).config.num + 1 ∧
      (replayed g (log ++ [op])).config.num = cfg.num := by
  rw [replayed_snoc] at h ⊢
  obtain ⟨id, cmd⟩ := op
  cases cmd with
  | kv client s input => simp [ShardKv.apply] at h
  | config cfg =>
    simp only [ShardKv.apply, ShardKv.applyConfig] at h ⊢
    split at h
    · exact absurd h (Nat.lt_irrefl _)
    · rename_i hnum
      rw [if_neg hnum]
      exact ⟨cfg, rfl, not_not.mp hnum, rfl⟩
  | install n shards dup =>
    simp only [ShardKv.apply, ShardKv.applyInstall] at h
    split at h <;> exact absurd h (Nat.lt_irrefl _)
  | gc n ids => simp [ShardKv.apply] at h

namespace ShardRun

variable {configs : Nat → Config Nat} {overtakes : Bool} (r : ShardRun configs overtakes)

theorem firstOwner (hr : r.Meets (ShardSystem.GivesVirgin configs)) (k : Nat) : FirstOwner configs (r.state k).logs := by
  induction k with
  | zero =>
    intro n i hne hprev hle
    rw [r.start] at hle
    have hle : n ≤ 0 := hle
    exact fun j hj => absurd hj (by omega)
  | succ k ih =>
    rcases r.logs_cases k with heq | ⟨a, gid, op, ha, hop, heq⟩
    · rw [heq]; exact ih
    · intro n i hne hprev hle
      rw [heq] at hle
      by_cases hold : n ≤ (replayed (owner configs n i) ((r.state k).logs (owner configs n i))).config.num
      · exact ih n i hne hprev hold
      · -- the command brings the group to configuration `n`
        by_cases hg : owner configs n i = gid
        · subst hg
          rw [push_self] at hle
          obtain ⟨cfg, hcmd, hnum, hnew⟩ := num_snoc (Nat.lt_of_lt_of_le (Nat.lt_of_not_le hold) hle)
          have hn : cfg.num = n := by omega
          obtain ⟨m, hcfg, hm, -⟩ : Legit configs _ _ (.config cfg) := hcmd ▸ ((run_lawful r k).heard.proposed _ _ hop.mem).2.1
          have hcond := hr k a ha
          obtain ⟨j, rfl, hj⟩ := hop
          obtain ⟨id, cmd⟩ := op
          cases hcmd
          have hcond := hcond (owner configs n i, cfg) (by simp only [ShardSystem.configCommitted, hj, Option.mem_def])
          rw [hn] at hcond
          refine hcond i ?_ hprev
          rw [hcfg, ← hn, hm]
          rfl
        · rw [push_of_ne hg] at hle
          exact absurd hle hold

theorem virgin (hr : r.Meets (ShardSystem.GivesVirgin configs)) (k : Nat) : Virgin configs (r.state k).logs :=
  (r.lawful k).virgin_of_firstOwner (run_lawful r k).nobody (r.firstOwner hr k)

end ShardRun

/-- When a shard that comes from nobody was never assigned to another group, no
other group serves it or has a key of it. -/
theorem direct_serving_virgin {configs : Nat → Config Nat} {overtakes : Bool} (r : ShardRun configs overtakes)
    (hr : r.Meets (ShardSystem.GivesVirgin configs)) {k : Nat} {g : Int} {op : ShardOp} {c : Nat} {i : ShardId}
    (hlog : (r.state (k + 1)).logs g = (r.state k).logs g ++ [op]) (hop : Enters c op ((r.state k).kv g))
    (hown : owner configs c i = g) (hprev : owner configs (c - 1) i = 0) (hg : g ≠ 0) {g' : Int} (hg' : g' ≠ 0)
    (hne : g' ≠ g) : ¬ ((r.state (k + 1)).kv g').Accepts g' i ∧
      (((r.state (k + 1)).kv g').shards i).kv = Store.empty := by
  subst hown
  refine (r.lawful (k + 1)).first_alone (r.virgin hr (k + 1)) hg hprev ?_ hg' hne
  rw [hlog, replayed_snoc]
  exact enters_num _ hop

theorem handOver_virgin : handOver.Meets (ShardSystem.GivesVirgin handOverConfigs) :=
  Run.meets_ofList _ (by decide +kernel)

theorem handOver_direct : ((handOver.state 3).kv 1).Accepts 1 (key2shard [107]) ∧
    ¬ ((handOver.state 3).kv 2).Accepts 2 (key2shard [107]) ∧
    (((handOver.state 3).kv 2).shards (key2shard [107])).kv = Store.empty := by
  have hlog : (handOver.state 3).logs 1 = (handOver.state 2).logs 1 ++ [⟨1, .config (allTo 1 1)⟩] := rfl
  exact ⟨by decide +kernel, direct_serving_virgin handOver handOver_virgin hlog ⟨_, rfl, rfl, rfl⟩ rfl rfl (by decide)
    (by decide) (by decide)⟩

/-- The only group leaves, and another one joins. -/
def rejoinOps (servers : List Nat) : List (CtrlOp Nat) :=
  [.join (GoMap.empty.insert 1 servers), .leave [1], .join (GoMap.empty.insert 2 servers)]

def rejoinConfigs (n : Nat) : Config Nat := queryConfig ((ctrlConfigs (rejoinOps [0])).getD []) n

/-- Client 7 writes at group 1, which stays in configuration 1. Group 2 goes
through all three configurations. -/
def rejoinActs (key value : GoString) : List ShardAct :=
  [.poll 1 0, .startConfig 0 1, .inner 1 (.commit 0),
   .invoke 7 ⟨.put, key, value⟩, .lookup 7, .query 7 1, .lookup 7, .call 7, .accept 0 2, .inner 1 (.commit 1),
   .poll 2 0, .startConfig 1 1, .inner 2 (.commit 0), .inner 2 (.collect 0 1), .inner 2 (.apply 0 false),
   .poll 2 0, .startConfig 2 2, .inner 2 (.commit 1), .inner 2 (.collect 0 2), .inner 2 (.apply 0 false),
   .poll 2 0, .startConfig 3 3, .inner 2 (.commit 2)]

theorem rejoin_exec :
    (exec (ShardSystem.step · rejoinConfigs false) ShardSystem.init (rejoinActs [107] [120])).isSome = true := by
  decide +kernel

def rejoin : ShardRun rejoinConfigs false := Run.ofList (rejoinActs [107] [120]) (Option.some_get rejoin_exec).symm

/-- The controller produced these configurations; with the last one, group 2
serves a shard that group 1 serves, and group 1 has a key of it. -/
theorem rejoin_serves_twice : (ctrlConfigs (rejoinOps [0])).isSome = true ∧
    ((rejoin.state 22).kv 2).config.num = 2 ∧ ((rejoin.state 23).kv 2).config.num = 3 ∧
    owner rejoinConfigs 2 (key2shard [107]) = 0 ∧ ((rejoin.state 23).kv 2).Accepts 2 (key2shard [107]) ∧
    ((rejoin.state 23).kv 1).Accepts 1 (key2shard [107]) ∧
    (((rejoin.state 23).kv 1).shards (key2shard [107])).kv [107] = some [120] := by
  decide +kernel

end DistLab
