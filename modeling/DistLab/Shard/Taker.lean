import DistLab.Ctrler.Staffed
import DistLab.Shard.Stable

/-!
# Whoever gives a shard away finds a taker

A group waits in `BePulling` until the new owner has the shard. There is a new
owner if the controller never takes a shard from a group without giving it to
another one. It does so when the last group leaves, and then the shard stays
`BePulling` for good.
-/

namespace DistLab

section
variable {configs : Nat → Config Nat} {overtakes : Bool}

/-! ## From one configuration to the next -/

theorem Placed.given_away {gid : Int} {log : List ShardOp} {kv : ShardKv} {i : ShardId} (h : Placed configs gid log)
    (ha : kv.Alike (replayed gid log)) (hgid : gid ≠ 0) (hst : (kv.shards i).state = .bePulling) :
    ∃ n, kv.config = configs (n + 2) ∧ (configs (n + 1)).num = n + 1 ∧ (configs (n + 2)).num = n + 2 ∧
      (configs (n + 1)).shards i = gid ∧ (configs (n + 2)).shards i ≠ gid := by
  rw [ha.state] at hst
  obtain ⟨hnow, hwas⟩ := (h.standing hst).1
  have hconfig := h.config
  have hreal := h.real
  rw [← ha.config] at hconfig hreal hnow hwas
  match hnum : kv.config.num with
  | 0 => rw [hnum] at hwas; exact absurd hwas.symm hgid
  | 1 => rw [hnum] at hwas; exact absurd hwas.symm hgid
  | n + 2 =>
    rw [hnum] at hconfig hreal hnow hwas
    exact ⟨n, hconfig, hreal n (by omega), hreal (n + 1) (by omega), hwas, hnow⟩

theorem reassign_pulling {gid : Int} {last next : Config Nat} {i : ShardId} (s : Shard) (hnow : next.shards i = gid)
    (hwas : last.shards i ≠ gid) (hne : last.shards i ≠ 0) : (ShardKv.reassign gid last next i s).state = .pulling := by
  simp only [ShardKv.reassign, hnow, hwas, hne, not_false_eq_true, and_self, if_true, if_false]

theorem Legal.pulling {gid : Int} {log : List ShardOp} {op : ShardOp} {n : Nat} {i : ShardId}
    (h : Legal configs gid (log ++ [op])) (hop : Enters (n + 2) op (replayed gid log))
    (hnow : (configs (n + 2)).shards i = gid) (hwas : (configs (n + 1)).shards i ≠ gid)
    (hne : (configs (n + 1)).shards i ≠ 0) : ((replayed gid (log ++ [op])).shards i).state = .pulling := by
  obtain ⟨hlog, hlegit⟩ := h.init
  obtain ⟨cfg, hcmd, hnum, hc⟩ := hop
  rw [hcmd] at hlegit
  obtain ⟨m, rfl, hm, -⟩ := hlegit
  have hlast : (replayed gid log).config = configs (n + 1) := by
    rw [hlog.placed.config, show (replayed gid log).config.num = n + 1 by omega]
    rfl
  have hnext : m + 1 = n + 2 := by omega
  rw [replayed_snoc]
  simp only [ShardKv.apply, hcmd, ShardKv.applyConfig]
  rw [if_neg (by omega)]
  show (ShardKv.reassign gid (replayed gid log).config _ i _).state = .pulling
  rw [hlast, hnext]
  exact reassign_pulling _ hnow hwas hne

end

/-! ## Runs -/

/-- When the controller never takes a shard without giving it to another group,
every configuration under which a shard is `BePulling` assigns it to one of its
groups; and that group waits for the shard as soon as it enters the
configuration. -/
theorem given_away_has_taker {ops : List (CtrlOp Nat)} {history : List (Config Nat)}
    (hops : ctrlConfigs ops = some history) (hs : Supported ops) {overtakes : Bool}
    (r : ShardRun (queryConfig history) overtakes) {k : Nat} {g : Int} {kv : ShardKv}
    (hkv : kv = (r.state k).kv g ∨ ∃ q, kv = (r.state k).replica g q) {i : ShardId}
    (hst : (kv.shards i).state = .bePulling) :
    kv.config.shards i ≠ 0 ∧ kv.config.shards i ∈ kv.config.groups.keys ∧
      ∀ k' op, (r.state (k' + 1)).logs (kv.config.shards i) = (r.state k').logs (kv.config.shards i) ++ [op] →
        Enters kv.config.num op ((r.state k').kv (kv.config.shards i)) →
        (((r.state (k' + 1)).kv (kv.config.shards i)).shards i).state = .pulling := by
  have hinv := run_lawful r k
  -- both kinds of states stand at a prefix of the log
  obtain ⟨log, hlog, ha⟩ : ∃ log, log <+: (r.state k).logs g ∧ kv.Alike (replayed g log) := by
    rcases hkv with rfl | ⟨q, rfl⟩
    · exact ⟨_, List.prefix_rfl, .refl _⟩
    · exact ⟨_, List.take_prefix _ _, ((hinv.follows g).replica q).state.1⟩
  have hgid : g ≠ 0 := by
    rintro rfl
    rw [hinv.nobody, List.prefix_nil] at hlog
    rw [ha.state, hlog] at hst
    cases hst
  have hplaced : Placed (queryConfig history) g log := by
    obtain ⟨rest, hrest⟩ := hlog
    have hlegal := (hinv.logs.legal g).take log.length
    rw [← hrest, List.take_left] at hlegal
    exact hlegal.placed
  obtain ⟨n, hconfig, hprev, hcur, hwas, hnow⟩ := hplaced.given_away ha hgid hst
  have hne : (queryConfig history (n + 1)).shards i ≠ 0 := by rw [hwas]; exact hgid
  obtain ⟨htaker, hmem⟩ := (continued_ctrlConfigs hs hops).taker (counted_ctrlConfigs hops) hprev hcur hne
  rw [hconfig, hcur]
  refine ⟨htaker, hmem, fun k' op hstep hop => ?_⟩
  have hlegal := (run_lawful r (k' + 1)).logs.legal ((queryConfig history (n + 2)).shards i)
  show ((replayed _ ((r.state (k' + 1)).logs _)).shards i).state = .pulling
  rw [hstep] at hlegal ⊢
  exact hlegal.pulling hop rfl (by rw [hwas]; exact Ne.symm hnow) hne

def joinTwice (servers : List Nat) : List (CtrlOp Nat) :=
  [.join (GoMap.empty.insert 1 servers), .join (GoMap.empty.insert 2 servers)]

def joinTwiceHistory : List (Config Nat) := (ctrlConfigs (joinTwice [0])).getD []

theorem joinTwice_history : ctrlConfigs (joinTwice [0]) = some joinTwiceHistory := rfl

theorem joinTwice_supported : Supported (joinTwice [0]) := by decide +kernel

def enterTwice (gid : Int) (first second : Nat) : List ShardAct :=
  [.poll gid 0, .startConfig first 1, .inner gid (.commit 0), .inner gid (.collect 0 1), .inner gid (.apply 0 false),
   .poll gid 0, .startConfig second 2, .inner gid (.commit 1)]

theorem spread_exec : (exec (ShardSystem.step · (queryConfig joinTwiceHistory) false) ShardSystem.init
    (enterTwice 1 0 1 ++ enterTwice 2 2 3)).isSome = true := by
  decide +kernel

def spread : ShardRun (queryConfig joinTwiceHistory) false :=
  Run.ofList (enterTwice 1 0 1 ++ enterTwice 2 2 3) (Option.some_get spread_exec).symm

theorem spread_taker : (((spread.state 8).kv 1).shards (key2shard [57])).state = .bePulling ∧
    ((spread.state 8).kv 1).config.shards (key2shard [57]) ≠ 0 ∧
    ((spread.state 8).kv 1).config.shards (key2shard [57]) ∈ ((spread.state 8).kv 1).config.groups.keys ∧
    (((spread.state 16).kv (((spread.state 8).kv 1).config.shards (key2shard [57]))).shards (key2shard [57])).state =
      .pulling := by
  have hst : (((spread.state 8).kv 1).shards (key2shard [57])).state = .bePulling := by decide +kernel
  obtain ⟨hne, hmem, hpull⟩ := given_away_has_taker joinTwice_history joinTwice_supported spread (.inl rfl) hst
  exact ⟨hst, hne, hmem, hpull 15 _ rfl ⟨_, rfl, rfl, rfl⟩⟩

/-! ## The last group leaves -/

/-- A shard that a configuration gives to nobody stays `BePulling`, and the group
in that configuration. -/
theorem given_to_nobody {configs : Nat → Config Nat} {overtakes : Bool} (r : ShardRun configs overtakes)
    {g : Int} {c k : Nat} {i : ShardId} (hl : Loses configs g c i) (hnobody : owner configs c i = 0) (hc : c ≤ ((r.state k).kv g).config.num) :
    ((r.state k).kv g).config.num = c ∧ (((r.state k).kv g).shards i).state = .bePulling := by
  have harr : ¬ Arrived configs (r.state k).logs c i := by
    rintro ⟨m, dup, h⟩
    rw [hnobody, (run_lawful r k).nobody] at h
    exact (shardMachine 0).not_took_nil h
  obtain ⟨hnum, hst, -⟩ := (run_lawful r k).logs.kept hl hc harr
  exact ⟨hnum, hst⟩

def lastLeaves (servers : List Nat) : List (CtrlOp Nat) := [.join (GoMap.empty.insert 1 servers), .leave [1]]

def lastLeavesHistory : List (Config Nat) := (ctrlConfigs (lastLeaves [0])).getD []

theorem abandoned_exec : (exec (ShardSystem.step · (queryConfig lastLeavesHistory) false) ShardSystem.init
    (enterTwice 1 0 1)).isSome = true := by
  decide +kernel

def abandoned : ShardRun (queryConfig lastLeavesHistory) false :=
  Run.ofList (enterTwice 1 0 1) (Option.some_get abandoned_exec).symm

theorem abandoned_no_taker : ctrlConfigs (lastLeaves [0]) = some lastLeavesHistory ∧
    (((abandoned.state 8).kv 1).shards (key2shard [57])).state = .bePulling ∧ ((abandoned.state 8).kv 1).config.num = 2 ∧
    ((abandoned.state 8).kv 1).config.shards (key2shard [57]) = 0 ∧ ((abandoned.state 8).kv 1).config.groups.keys = [] := by
  exact ⟨rfl, by decide +kernel, by decide +kernel, by decide +kernel, by decide +kernel⟩

end DistLab
