import DistLab.Shard.Replay

/-!
# One migration at a time

A replica that executes overtaken commands may have other data than the log
says, but it has the same configurations and shard states. So in every run, with
or without overtaken commands, the goroutines start only commands that the log
justifies: an `OpConfig` takes effect only when every shard is `Serving`, and the
state of a shard says who owned it and who owns it now.
-/

namespace DistLab

/-! ## State and ownership -/

namespace ShardKv

/-- A group that neither owns the shard nor has to give it away holds no key of
it, nor does one that still waits for it. -/
def Vacant (gid : Int) (kv : ShardKv) : Prop :=
  ∀ i, kv.config.shards i ≠ gid ∧ (kv.shards i).state ≠ .bePulling ∨ (kv.shards i).state = .pulling →
    (kv.shards i).kv = Store.empty

structure Matches (gid : Int) (kv : ShardKv) : Prop where
  gained : ∀ i, (kv.shards i).state = .pulling ∨ (kv.shards i).state = .gcing →
    kv.config.shards i = gid ∧ kv.lastConfig.shards i ≠ gid ∧ kv.lastConfig.shards i ≠ 0
  lost : ∀ i, (kv.shards i).state = .bePulling → kv.config.shards i ≠ gid ∧ kv.lastConfig.shards i = gid
  vacant : kv.Vacant gid

/-- If the `OpConfig` takes effect, every shard is `Serving` and it is the next
configuration. -/
def StepsStable (gid : Int) (kv : ShardKv) (cfg : Config Nat) : Prop :=
  kv.applyConfig gid cfg ≠ kv →
    (∀ i, (kv.shards i).state = .serving) ∧ (kv.applyConfig gid cfg).config.num = kv.config.num + 1

variable {gid : Int} {kv : ShardKv}

theorem enters_of_applyConfig (id : Nat) {cfg : Config Nat} (h : kv.applyConfig gid cfg ≠ kv) :
    Enters cfg.num ⟨id, .config cfg⟩ kv := by
  refine ⟨cfg, rfl, rfl, ?_⟩
  by_contra hnum
  exact h (if_pos (Ne.symm hnum))

theorem stepsStable_of_enters (id : Nat) {cfg : Config Nat}
    (h : ∀ c, Enters c ⟨id, .config cfg⟩ kv → ∀ i, (kv.shards i).state = .serving) : kv.StepsStable gid cfg := by
  intro hne
  have henters := enters_of_applyConfig id hne
  have hnext : (kv.apply gid ⟨id, .config cfg⟩).1.config.num = cfg.num := enters_num gid henters
  refine ⟨h _ henters, ?_⟩
  obtain ⟨_, -, -, hnum⟩ := henters
  rw [hnum, ← hnext]
  rfl

/-! ## Empty maps -/

theorem Vacant.applyClient (h : kv.Vacant gid) (c s : Nat) (op : KvInput) : (kv.applyClient gid c s op).1.Vacant gid := by
  intro i hi
  have ha := applyClient_alike gid kv c s op
  rw [ha.config, ha.state] at hi
  rcases kv.applyClient_shards gid c s op i with heq | ⟨⟨hown, hst⟩, -, -⟩
  · rw [heq]; exact h i hi
  · -- the group owns the shard, and it is not `Pulling`
    rcases hi with hi | hi
    · exact absurd hown hi.1
    · rw [hi] at hst
      rcases hst with hst | hst <;> cases hst

theorem Vacant.applyConfig (h : kv.Vacant gid) {cfg : Config Nat}
    (hs : cfg.num = kv.config.num + 1 → ∀ i, (kv.shards i).state = .serving) : (kv.applyConfig gid cfg).Vacant gid := by
  unfold ShardKv.applyConfig
  split
  · exact h
  · rename_i hnum
    intro i hi
    have hser := hs (not_not.mp hnum) i
    have hempty : kv.config.shards i ≠ gid → (kv.shards i).kv = Store.empty := by
      intro hne
      exact h i (Or.inl ⟨hne, by rw [hser]; decide⟩)
    show (reassign gid kv.config cfg i (kv.shards i)).kv = Store.empty
    rw [reassign_kv]
    refine hempty fun hwas => ?_
    simp only [reassign, hwas, not_true_eq_false, and_false, and_true, if_false] at hi
    split at hi
    · rename_i hnow
      rcases hi with hi | hi
      · exact hi.2 rfl
      · cases hi
    · rename_i hnow
      rcases hi with hi | hi
      · exact hi.1 (not_not.mp hnow)
      · rw [hser] at hi
        cases hi

theorem Vacant.applyInstall (h : kv.Vacant gid) (hown : ∀ i, (kv.shards i).state = .pulling → kv.config.shards i = gid)
    (c : Nat) (shards : ShardId → Option Store) (dup : DupTable) : (kv.applyInstall c shards dup).Vacant gid := by
  unfold ShardKv.applyInstall
  split
  · exact h
  · intro i hi
    show (installShard (kv.shards i) (shards i)).kv = Store.empty
    simp only [installShard_state] at hi
    by_cases hin : (shards i).isSome ∧ (kv.shards i).state = .pulling
    · rw [if_pos hin] at hi
      rcases hi with hi | hi
      · exact absurd (hown i hin.2) hi.1
      · cases hi
    · rw [if_neg hin] at hi
      rw [← h i hi]
      cases hdata : shards i with
      | none => rfl
      | some m =>
        rw [hdata] at hin
        simp only [installShard, if_neg fun hst => hin ⟨rfl, hst⟩]

theorem Vacant.applyGC (h : kv.Vacant gid) (hown : ∀ i, (kv.shards i).state = .gcing → kv.config.shards i = gid)
    (c : Nat) (ids : List ShardId) : (kv.applyGC c ids).Vacant gid := by
  intro i hi
  rw [applyGC_config, applyGC_shards] at hi
  rw [applyGC_shards]
  split at hi
  · rename_i hci
    rw [if_pos hci]
    cases hst : (kv.shards i).state with
    | bePulling => simp only [collectShard, hst]
    | gcing =>
      simp only [collectShard_state, hst, or_true, if_true, reduceCtorEq, or_false] at hi
      exact absurd (hown i hst) hi.1
    | serving =>
      simp only [collectShard, hst] at hi ⊢
      exact h i (by rw [hst]; exact hi)
    | pulling =>
      simp only [collectShard, hst]
      exact h i (Or.inr hst)
  · rename_i hci
    rw [if_neg hci]
    exact h i hi

theorem Vacant.apply (h : kv.Vacant gid) {op : ShardOp}
    (hown : ∀ i, (kv.shards i).state = .pulling ∨ (kv.shards i).state = .gcing → kv.config.shards i = gid)
    (hs : ∀ c, Enters c op kv → ∀ i, (kv.shards i).state = .serving) : (kv.apply gid op).1.Vacant gid := by
  obtain ⟨id, cmd⟩ := op
  cases cmd with
  | kv c s op => exact h.applyClient c s op
  | config cfg => exact h.applyConfig fun hnum => hs _ ⟨cfg, rfl, hnum, rfl⟩
  | install c shards dup => exact h.applyInstall (fun i hi => hown i (Or.inl hi)) c shards dup
  | gc c ids => exact h.applyGC (fun i hi => hown i (Or.inr hi)) c ids

end ShardKv

/-! ## One group -/

section
variable {configs : Nat → Config Nat} {gid : Int} {log log' : List ShardOp} {op : ShardOp} {kv : ShardKv} {p : Nat}

theorem Placed.gains_of_state (h : Placed configs gid log) (ha : kv.Alike (replayed gid log)) {i : ShardId}
    (hst : (kv.shards i).state = .pulling ∨ (kv.shards i).state = .gcing) :
    Gains configs gid (replayed gid log).config.num i := by
  rw [ha.state] at hst
  rcases hst with hst | hst
  · exact (h.standing hst).1
  · exact (h.standing hst).1

/-- An `OpConfig` of the log takes effect only when every shard is `Serving`. -/
theorem Legal.serving (h : Legal configs gid log) (hop : Legit configs gid log op.cmd)
    (ha : kv.Alike (replayed gid log)) {c : Nat} (henters : Enters c op kv) (i : ShardId) :
    (kv.shards i).state = .serving := by
  obtain ⟨cfg, hcmd, hnum, hc⟩ := henters
  rw [hcmd] at hop
  obtain ⟨n, -, hn, -, hset⟩ := hop
  rw [ha.config] at hc
  rw [ha.state]
  refine h.placed.serving ?_
  rw [show (replayed gid log).config.num = n by omega]
  exact hset i

/-- A command that stands before the end of the log finds the configurations and
states as it leaves them. -/
theorem alike_again (h : Legal configs gid log) (hp : log[p]? = some op) (h' : Placed configs gid log')
    (hle : log.take (p + 1) <+: log') (ha : kv.Alike (replayed gid log')) :
    (kv.apply gid op).1.Alike (replayed gid log') := by
  have happ := ha.apply gid op
  obtain ⟨id, cmd⟩ := op
  cases cmd with
  | kv c s op => exact (ShardKv.applyClient_alike gid kv c s op).trans ha
  | config cfg =>
    rw [← replay_config h hp hle]
    exact happ
  | install c shards dup =>
    rw [← replay_install h hp h' hle]
    exact happ
  | gc c ids =>
    rw [← replay_gc h hp h' hle]
    exact happ

theorem not_enters_again (h : Legal configs gid log) (hp : log[p]? = some op) (hle : log.take (p + 1) <+: log')
    (ha : kv.Alike (replayed gid log')) (c : Nat) : ¬ Enters c op kv := by
  rintro ⟨cfg, hcmd, hnum, hc⟩
  obtain ⟨id, cmd⟩ := op
  cases hcmd
  have heff : Enters c ⟨id, .config cfg⟩ (replayed gid log') := ⟨cfg, rfl, hnum, by rw [← ha.config]; exact hc⟩
  have hsame : ((replayed gid log').apply gid ⟨id, .config cfg⟩).1 = replayed gid log' := replay_config h hp hle
  have hnext := enters_num gid heff
  rw [hsame, ← ha.config] at hnext
  omega

/-- The state has the configurations and shard states that the log says, and no
key where none belongs. -/
def Stands (gid : Int) (kv : ShardKv) (log : List ShardOp) : Prop := kv.Alike (replayed gid log) ∧ kv.Vacant gid

theorem Placed.matches (h : Placed configs gid log) (hs : Stands gid kv log) : kv.Matches gid where
  gained i hst := by
    obtain ⟨hnow, hwas, hne⟩ := h.gains_of_state hs.1 hst
    rw [hs.1.config, hs.1.lastConfig, h.owner_eq, h.lastOwner_eq]
    exact ⟨hnow, hwas, hne⟩
  lost i hst := by
    rw [hs.1.state] at hst
    rw [hs.1.config, hs.1.lastConfig, h.owner_eq, h.lastOwner_eq]
    exact (h.standing hst).1
  vacant := hs.2

theorem Stands.snoc (hs : Stands gid kv log) (h : Legal configs gid log) (hop : Legit configs gid log op.cmd) :
    Stands gid (kv.apply gid op).1 (log ++ [op]) := by
  refine ⟨by rw [replayed_snoc]; exact hs.1.apply gid op, hs.2.apply (fun i hst => ?_) fun c hc => ?_⟩
  · exact ((h.placed.matches hs).gained i hst).1
  · exact h.serving hop hs.1 hc

theorem Stands.again (hs : Stands gid kv log') (h : Legal configs gid log) (hp : log[p]? = some op)
    (h' : Placed configs gid log') (hle : log.take (p + 1) <+: log') : Stands gid (kv.apply gid op).1 log' := by
  refine ⟨alike_again h hp h' hle hs.1, hs.2.apply (fun i hst => ?_) fun c hc => ?_⟩
  · exact ((h'.matches hs).gained i hst).1
  · exact absurd hc (not_enters_again h hp hle hs.1 c)

theorem Legal.stands (h : Legal configs gid log) : Stands gid (replayed gid log) log := by
  induction log using List.reverseRecOn with
  | nil => exact ⟨.refl _, fun _ _ => rfl⟩
  | append_singleton log op ih =>
    obtain ⟨hlog, hop⟩ := h.init
    have := (ih hlog).snoc hlog hop
    rwa [← replayed_snoc] at this

end

/-! ## All groups -/

section
variable {configs : Nat → Config Nat} {L L' : Int → List ShardOp}

theorem migrates_lawful (configs : Nat → Config Nat) :
    Migrates configs Stands (Sourced configs) (Lawful configs) where
  init _ := ⟨.refl _, fun _ _ => rfl⟩
  alike h := h.1
  nil := Lawful.nil
  legal h := h.legal
  push h hl hb := h.push hl hb
  reached h hi := h.reached _ _ _ hi
  mono hle h := h.mono hle
  client := trivial
  config := trivial
  install := by
    intro L kv log shards dup req _ hreq hlog hs hp i m hm
    rw [hreq.src_eq i (mem_of_pullShard hp hm)]
    refine le_trans ?_ (num_mono hlog)
    rw [← hs.1.config]
    unfold ShardKv.pullShard at hp
    split at hp
    · cases hp
    · rename_i hnum
      exact Nat.le_of_not_lt hnum
  gcOld h := h.backed_old.sourced
  gcNew h := h.backed_new.sourced

theorem Group.Follows.advances {overtakes : Bool} {gid : Int} {G : ShardGroup} (h : G.Follows (Stands gid) overtakes)
    (hl : Legal configs gid G.log) (a : Inner) : G.Advances (shardMachine gid) (Stands gid) a := by
  intro r snap j q op _ _ hop hpos hle
  have hs := (h.replica r).state
  by_cases hj : j ≤ (G.replica r).applied
  · rw [max_eq_left hj]
    exact hs.again hl hop (hl.take _).placed (List.take_prefix_take_left (by omega))
  · have hj : j = (G.replica r).applied + 1 := by omega
    subst hj
    rw [Nat.add_sub_cancel] at hop
    rw [max_eq_right (by omega), List.take_add_one, hop, Option.toList_some]
    exact hs.snoc (hl.take _) (hl _ _ hop)

end

abbrev ShardSystem.Steady (configs : Nat → Config Nat) (overtakes : Bool) (σ : ShardSystem) : Prop :=
  σ.Moves configs Stands (Sourced configs) (Lawful configs) overtakes

/-! ## Runs -/

section
variable {configs : Nat → Config Nat} {overtakes : Bool} (r : ShardRun configs overtakes)

theorem run_lawful (k : Nat) : (r.state k).Steady configs overtakes := by
  refine r.invariant r.meets_true (.init (migrates_lawful configs)) (fun σ a σ' h _ hs => ?_) k
  refine h.act (migrates_lawful configs) (ShardSystem.act_cases hs) fun gid b _ => ?_
  exact (h.follows gid).advances (h.logs.legal gid) b

/-- In every replicated state and at every replica, the state of a shard agrees
with who owned it and who owns it, and no key is where none belongs. -/
theorem shard_state_matches_ownership (k : Nat) (g : Int) :
    ((r.state k).kv g).Matches g ∧ ∀ q, ((r.state k).replica g q).Matches g := by
  have hinv := run_lawful r k
  have hlegal := hinv.logs.legal g
  refine ⟨hlegal.placed.matches hlegal.stands, fun q => ?_⟩
  exact (hlegal.take _).placed.matches ((hinv.follows g).replica q).state

/-- An `OpConfig` of a group's log, or one that a replica is about to execute,
takes effect only if every shard is `Serving`, and raises the number by one. -/
theorem config_takes_effect_stable (k : Nat) (g : Int) :
    (∀ p id cfg, ((r.state k).logs g)[p]? = some ⟨id, .config cfg⟩ →
      ((shardMachine g).replay (((r.state k).logs g).take p)).StepsStable g cfg) ∧
    ∀ q j rest id cfg, (((r.state k).group g).replica q).queue = j :: rest →
      ((r.state k).logs g)[j - 1]? = some ⟨id, .config cfg⟩ → ((r.state k).replica g q).StepsStable g cfg := by
  have hinv := run_lawful r k
  have hlegal := hinv.logs.legal g
  constructor
  · intro p id cfg hp
    exact ShardKv.stepsStable_of_enters id fun c hc => (hlegal.take p).serving (hlegal p _ hp) (.refl _) hc
  · intro q j rest id cfg hq hop
    have hfol := (hinv.follows g).replica q
    have hfeeds := hfol.feeds
    rw [hq] at hfeeds
    refine ShardKv.stepsStable_of_enters id fun c hc => ?_
    rcases hfeeds with ⟨-, hpos, -, hle, -⟩ | ⟨hj, -⟩
    · -- overtaken: the number has moved on
      refine absurd hc (not_enters_again hlegal hop ?_ hfol.state.1 c)
      exact List.take_prefix_take_left (by omega)
    · rw [hj, Nat.add_sub_cancel] at hop
      exact (hlegal.take _).serving (hlegal _ _ hop) hfol.state.1 hc

end

/-- Client 7 writes at group 1; then group 2 pulls all shards, and both groups
collect. -/
def handOverActs (key value : GoString) : List ShardAct :=
  [.poll 1 0, .startConfig 0 1, .inner 1 (.commit 0),
   .invoke 7 ⟨.put, key, value⟩, .lookup 7, .query 7 1, .lookup 7, .call 7, .accept 0 2,
   .inner 1 (.commit 1), .inner 1 (.collect 0 2), .inner 1 (.apply 0 false), .inner 1 (.apply 0 false),
   .poll 2 0, .startConfig 1 1, .inner 2 (.commit 0), .inner 2 (.collect 0 1), .inner 2 (.apply 0 false),
   .poll 1 0, .startConfig 2 3, .inner 1 (.commit 2), .inner 1 (.collect 0 3), .inner 1 (.apply 0 false),
   .poll 2 0, .startConfig 3 2, .inner 2 (.commit 1), .inner 2 (.collect 0 2), .inner 2 (.apply 0 false),
   .pull 2 0 1, .pullShard 0 0, .startInstall 0 3, .inner 2 (.commit 2), .inner 2 (.collect 0 3),
   .inner 2 (.apply 0 false), .gc 2 0 1, .gcShard 0 0, .gcSubmit 0 4, .inner 1 (.register 0 1), .inner 1 (.commit 3),
   .inner 1 (.collect 0 4), .inner 1 (.apply 0 true), .inner 1 (.notify 0), .inner 1 (.receive 0 1),
   .inner 1 (.finish 0 1), .startGC 0 4, .inner 2 (.commit 3)]

theorem handOver_exec :
    (exec (ShardSystem.step · handOverConfigs true) ShardSystem.init (handOverActs [107] [120])).isSome = true := by
  decide +kernel

def handOver : ShardRun handOverConfigs true := Run.ofList (handOverActs [107] [120]) (Option.some_get handOver_exec).symm

def beforeHandOver : ShardKv := (shardMachine 1).replay (((handOver.state 46).logs 1).take 2)

theorem handOver_stable : beforeHandOver.applyConfig 1 (allTo 2 2) ≠ beforeHandOver ∧
    (∀ i, (beforeHandOver.shards i).state = .serving) ∧
    (beforeHandOver.applyConfig 1 (allTo 2 2)).config.num = beforeHandOver.config.num + 1 := by
  have hne : beforeHandOver.applyConfig 1 (allTo 2 2) ≠ beforeHandOver := by
    intro h
    have hnum : (beforeHandOver.applyConfig 1 (allTo 2 2)).config.num = beforeHandOver.config.num := by rw [h]
    exact absurd hnum (by decide +kernel)
  exact ⟨hne, (config_takes_effect_stable handOver 46 1).1 2 4 (allTo 2 2) rfl hne⟩

end DistLab
