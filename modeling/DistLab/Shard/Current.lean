import DistLab.Shard.History

/-!
# The owner of a shard is up to date

The map of whoever accepts operations for a shard is what its history leads to,
and its table has every write of the history. A group that has lost the shard
keeps both for the next owner, who takes over the map and merges the table.
-/

namespace DistLab

/-- The shard's map is what the history leads to, and the table has its writes. -/
structure ShardKv.UpToDate (kv : ShardKv) (i : ShardId) (history : List ShardDone) : Prop where
  map : (kv.shards i).kv.read = kvModel.run kvModel.init history
  covers : ∀ d ∈ history, d.input.opType ≠ .get → kv.dupTable.Covers d.id.1 d.id.2

structure Current (configs : Nat → Config Nat) (L : Int → List ShardOp) (N : Nat) : Prop where
  legal : ∀ i, kvModel.Legal kvModel.init (shardHistory configs L N i)
  once : ∀ i, (shardHistory configs L N i).Pairwise fun d e =>
    d.input.opType ≠ .get → e.input.opType ≠ .get → d.id ≠ e.id
  accepts : ∀ g i, g ≠ 0 → (replayed g (L g)).Accepts g i → (replayed g (L g)).UpToDate i (shardHistory configs L N i)
  kept : ∀ g c i log, g ≠ 0 → Loses configs g c i → ¬ Arrived configs L c i → log <+: L g →
    c ≤ (replayed g log).config.num → (replayed g log).UpToDate i (shardHistory configs L N i)
  origin : ∀ g log, log <+: L g → ∀ client e, (replayed g log).dupTable client = some e →
    ∃ i, ∃ d ∈ shardHistory configs L N i, d.id = (client, e.seqId) ∧ d.input.opType ≠ .get

section
variable {configs : Nat → Config Nat} {L : Int → List ShardOp} {g : Int} {op : ShardOp} {N : Nat} {i : ShardId}
  {kv kv' : ShardKv}

theorem ShardKv.UpToDate.keep {history : List ShardDone} (h : kv.UpToDate i history)
    (hmap : (kv'.shards i).kv = (kv.shards i).kv)
    (hdup : ∀ c s, kv.dupTable.Covers c s → kv'.dupTable.Covers c s) : kv'.UpToDate i history :=
  ⟨by rw [hmap]; exact h.map, fun d hd hw => hdup _ _ (h.covers d hd hw)⟩

theorem ShardKv.UpToDate.executed {d : ShardDone} {history : List ShardDone} (h : kv.UpToDate i history)
    (heff : kv.Effect kv' i d) (hdup : ∀ c s, kv.dupTable.Covers c s → kv'.dupTable.Covers c s) :
    kv'.UpToDate i (history ++ [d]) := by
  refine ⟨?_, fun e he hw => ?_⟩
  · rw [heff.map, h.map, Object.run_append]
    rfl
  · rcases List.mem_append.mp he with he | he
    · exact hdup _ _ (h.covers e he hw)
    · rw [List.mem_singleton.mp he] at hw ⊢
      exact heff.covers hw

theorem shardHistory_nil : shardHistory configs (fun _ => []) N i = [] := by
  simp [shardHistory, executedIn, Machine.trace, Machine.traceFrom]

namespace Current

theorem nil : Current configs (fun _ => []) N where
  legal i := by rw [shardHistory_nil]; trivial
  once i := by rw [shardHistory_nil]; exact List.Pairwise.nil
  accepts g i hg ha := absurd ha.1.symm hg
  kept g c i log hg hl _ hlog hc := by
    rw [List.prefix_nil.mp hlog] at hc
    have : c = 0 := Nat.le_zero.mp hc
    subst this
    exact absurd hl.2 hl.1
  origin g log hlog client e he := by
    rw [List.prefix_nil.mp hlog] at he
    cases he

theorem bound (h : Current configs L N) (hN : ∀ g, (replayed g (L g)).config.num ≤ N) {N' : Nat} (hle : N ≤ N') :
    Current configs L N' := by
  have hH : ∀ i, shardHistory configs L N' i = shardHistory configs L N i := fun i => shardHistory_bound hN hle
  exact ⟨by simpa only [hH] using h.legal, by simpa only [hH] using h.once, by simpa only [hH] using h.accepts,
    by simpa only [hH] using h.kept, by simpa only [hH] using h.origin⟩

theorem quiet (h : Current configs L N) (hnone : ∀ n i, (replayed g (L g)).executes g n i op = none)
    (hacc : ∀ i, ((replayed g (L g)).apply g op).1.Accepts g i →
      ((replayed g (L g)).apply g op).1.UpToDate i (shardHistory configs L N i))
    (hkept : ∀ c i, Loses configs g c i → ¬ Arrived configs (push L g op) c i →
      c ≤ ((replayed g (L g)).apply g op).1.config.num →
      ((replayed g (L g)).apply g op).1.UpToDate i (shardHistory configs L N i))
    (horigin : ∀ client e, ((replayed g (L g)).apply g op).1.dupTable client = some e →
      ∃ i, ∃ d ∈ shardHistory configs L N i, d.id = (client, e.seqId) ∧ d.input.opType ≠ .get) :
    Current configs (push L g op) N := by
  have hH : ∀ i, shardHistory configs (push L g op) N i = shardHistory configs L N i := fun i =>
    shardHistory_push_none fun n => hnone n i
  have hlast : replayed g (push L g op g) = ((replayed g (L g)).apply g op).1 := by rw [push_self, replayed_snoc]
  refine ⟨fun i => by rw [hH]; exact h.legal i, fun i => by rw [hH]; exact h.once i, fun g' i hg' ha => ?_,
    fun g' c i log hg' hl harr hlog hc => ?_, fun g' log hlog client e he => ?_⟩
  · rw [hH]
    by_cases hg : g' = g
    · subst hg
      rw [hlast] at ha ⊢
      exact hacc i ha
    · rw [push_of_ne hg] at ha ⊢
      exact h.accepts g' i hg' ha
  · rw [hH]
    have harr' : ¬ Arrived configs L c i := fun ha => harr (ha.mono (le_push L g op))
    rcases of_le_push hlog with hlog | ⟨rfl, rfl⟩
    · exact h.kept g' c i log hg' hl harr' hlog hc
    · rw [replayed_snoc] at hc ⊢
      exact hkept c i hl harr hc
  · simp only [hH]
    rcases of_le_push hlog with hlog | ⟨rfl, rfl⟩
    · exact h.origin g' log hlog client e he
    · rw [replayed_snoc] at he
      exact horigin client e he

theorem idle (h : Current configs L N) (hg : g ≠ 0) (hnone : ∀ n i, (replayed g (L g)).executes g n i op = none)
    (hsame : ((replayed g (L g)).apply g op).1 = replayed g (L g)) : Current configs (push L g op) N := by
  refine h.quiet hnone (fun i ha => ?_) (fun c i hl harr hc => ?_) fun client e he => ?_
  · rw [hsame] at ha ⊢
    exact h.accepts g i hg ha
  · rw [hsame] at hc ⊢
    exact h.kept g c i (L g) hg hl (fun ha => harr (ha.mono (le_push L g op))) List.prefix_rfl hc
  · rw [hsame] at he
    exact h.origin g (L g) List.prefix_rfl client e he

/-! ## The commands of the goroutines -/

theorem executes_of_not_kv (hcmd : ∀ c s input, op.cmd ≠ .kv c s input) (n : Nat) (i : ShardId) :
    kv.executes g n i op = none := by
  cases h : kv.executes g n i op with
  | none => rfl
  | some d => exact absurd (executes_eq_some h).1 (hcmd _ _ _)

theorem history_first (ho : Orderly configs L) (ho' : Orderly configs (push L g op))
    (hv' : Virgin configs (push L g op)) (hzero : L 0 = []) {c : Nat} (hg : g ≠ 0)
    (hnum : (replayed g (L g)).config.num + 1 = c)
    (hnum' : (replayed g (push L g op g)).config.num = c) (hown : owner configs c i = g)
    (hprev : owner configs (c - 1) i = 0) :
    shardHistory configs L N i = [] ∧ ((replayed g (L g)).shards i).kv = Store.empty := by
  subst hown
  -- nobody has held the shard, the group itself included
  have noholder : ∀ g' b, g' ≠ 0 → ¬ Holds configs L g' b i := by
    intro g' b hg' hb
    by_cases hgg : g' = owner configs c i
    · subst hgg
      have hbn : b ≤ (replayed (owner configs c i) (L (owner configs c i))).config.num :=
        hb.2.elim Installed.num_le fun h => h.2
      exact hg (hb.1.symm.trans (hv' c i hg hprev hnum'.ge b (by omega)))
    · exact ho'.not_holds hv' hg hprev hnum' hg' hgg b (hb.mono (le_push L _ op _))
  constructor
  · refine List.eq_nil_iff_forall_not_mem.mpr fun d hd => ?_
    obtain ⟨n, -, hd⟩ := mem_shardHistory.mp hd
    by_cases hz : owner configs n i = 0
    · rw [hz, hzero] at hd
      cases hd
    · obtain ⟨-, b, -, hb, -⟩ := ho.took_tenure hz (took_accepts hd)
      exact noholder _ b hz hb
  · exact ((ho.legal _).held hg i).resolve_right fun ⟨b, hb⟩ => noholder _ b hg hb

theorem push_config (h : Current configs L N) (ho : Orderly configs L) (ho' : Orderly configs (push L g op))
    (hv' : Virgin configs (push L g op)) (hzero : L 0 = []) (hg : g ≠ 0) {cfg : Config Nat}
    (hcmd : op.cmd = .config cfg) (hl : Legit configs g (L g) op.cmd) : Current configs (push L g op) N := by
  have hnone : ∀ n i, (replayed g (L g)).executes g n i op = none := executes_of_not_kv
    fun c s input => by rw [hcmd]; exact fun h => by cases h
  have happ : ((replayed g (L g)).apply g op).1 = (replayed g (L g)).applyConfig g cfg := by
    simp only [ShardKv.apply, hcmd]
  by_cases hnext : cfg.num = (replayed g (L g)).config.num + 1
  · rw [ShardKv.applyConfig, if_neg (not_not.mpr hnext)] at happ
    obtain ⟨m, hcfg, hm, -, hset⟩ : Legit configs g (L g) (.config cfg) := hcmd ▸ hl
    obtain rfl : m = (replayed g (L g)).config.num := by omega
    have hserving : ∀ i, ((replayed g (L g)).shards i).state = .serving := fun i => (ho.placed g).serving (hset i)
    have hown : ∀ i, owner configs cfg.num i = cfg.shards i := fun i => by rw [hm, hcfg]; rfl
    have hlast : ∀ i, owner configs (cfg.num - 1) i = (replayed g (L g)).config.shards i := fun i => by
      rw [hm, Nat.add_sub_cancel, (ho.placed g).owner_eq]
    -- the maps and the table stay
    have same : ∀ {i history}, (replayed g (L g)).UpToDate i history →
        ((replayed g (L g)).apply g op).1.UpToDate i history := fun hup => by
      rw [happ]
      exact hup.keep (ShardKv.reassign_kv ..) fun _ _ h => h
    refine h.quiet hnone (fun i ha => ?_) (fun c i hl harr hc => ?_) fun client e he => ?_
    · refine same ?_
      rw [happ] at ha
      by_cases hwas : (replayed g (L g)).config.shards i = g
      · exact h.accepts g i hg ⟨hwas, Or.inl (hserving i)⟩
      · by_cases hzero' : (replayed g (L g)).config.shards i = 0
        · obtain ⟨hnil, hempty⟩ := history_first (N := N) ho ho' hv' hzero hg hnext.symm
            (by rw [push_self, replayed_snoc, happ]) ((hown i).trans ha.1) ((hlast i).trans hzero')
          rw [hnil]
          exact ⟨by rw [hempty]; rfl, fun d hd => by cases hd⟩
        · have hnow : cfg.shards i = g := ha.1
          have hstate := ha.2
          simp only [ShardKv.reassign, hnow, hwas, hzero', not_false_eq_true, and_self, if_true, if_false] at hstate
          rcases hstate with hs | hs <;> cases hs
    · refine same ?_
      rw [happ] at hc
      have harr' : ¬ Arrived configs L c i := fun ha => harr (ha.mono (le_push L g op))
      rcases Nat.lt_or_eq_of_le (show c ≤ cfg.num from hc) with hlt | rfl
      · -- what was lost before has been collected
        have hsettled := (ho.placed g).settled (hserving i) (show c ≤ (replayed g (L g)).config.num by omega)
        exact absurd (ho.collected g c i (hsettled.2 hl)) harr'
      · exact h.accepts g i hg ⟨(hlast i).symm.trans hl.2, Or.inl (hserving i)⟩
    · rw [happ] at he
      exact h.origin g (L g) List.prefix_rfl client e he
  · refine h.idle hg hnone ?_
    rw [happ, ShardKv.applyConfig, if_pos hnext]

/-- A shard that arrives is as the previous owner had it, and the merged table has
all its writes. -/
theorem installed_upToDate (h : Current configs L N) (ho : Orderly configs L) {c : Nat} {m : Store} {dup : DupTable}
    (hb : Backed configs L g op.cmd) (hin : Installs c i m dup op (replayed g (L g))) :
    ((replayed g (L g)).apply g op).1.UpToDate i (shardHistory configs L N i) := by
  have hmap := (ho.carries hb hin).1
  have hkv : ((replayed g (L g)).apply g op).1.shards i = ⟨.gcing, m⟩ := (installs_apply hin).2
  obtain ⟨shards, hcmd, hm, hnum, hst⟩ := hin
  obtain ⟨hgain, hnot⟩ := (ho.placed g).standing hst
  rw [hnum] at hgain hnot
  have harr : ¬ Arrived configs L c i := by rw [Arrived, hgain.1]; exact hnot
  have hloses : Loses configs (owner configs (c - 1) i) c i := ⟨by rw [hgain.1]; exact Ne.symm hgain.2.1, rfl⟩
  rw [hcmd] at hb
  obtain ⟨src, ⟨log, hlog, hc, hdup⟩, hsrc⟩ := hb
  obtain rfl : owner configs (c - 1) i = src := (hsrc i m hm).1
  have hreached := hc.trans (num_mono hlog)
  refine ⟨?_, fun d hd hw => ?_⟩
  · rw [hkv, hmap.unique (ho.kept hloses hreached harr).2.2]
    exact (h.kept _ c i _ hgain.2.2 hloses harr List.prefix_rfl hreached).map
  · simp only [ShardKv.apply, hcmd, ShardKv.applyInstall, hnum, ne_eq, not_true_eq_false, if_false]
    refine ShardKv.covers_mergeEntry (Or.inr ?_)
    rw [hdup]
    exact (h.kept _ c i log hgain.2.2 hloses harr hlog hc).covers d hd hw

theorem push_install (h : Current configs L N) (ho : Orderly configs L) (hg : g ≠ 0) {c : Nat}
    {shards : ShardId → Option Store} {dup : DupTable} (hcmd : op.cmd = .install c shards dup)
    (hb : Backed configs L g op.cmd) : Current configs (push L g op) N := by
  have hnone : ∀ n i, (replayed g (L g)).executes g n i op = none := executes_of_not_kv
    fun c s input => by rw [hcmd]; exact fun h => by cases h
  have happ : ((replayed g (L g)).apply g op).1 = (replayed g (L g)).applyInstall c shards dup := by
    simp only [ShardKv.apply, hcmd]
  by_cases hnum : c = (replayed g (L g)).config.num
  · rw [ShardKv.applyInstall, if_neg (not_not.mpr hnum)] at happ
    have hshard : ∀ i, ((replayed g (L g)).apply g op).1.shards i =
        ShardKv.installShard ((replayed g (L g)).shards i) (shards i) := fun i => by rw [happ]
    -- a shard on which the command takes no effect keeps its map, and the table grows
    have same : ∀ {i history}, (∀ m, ¬ Installs c i m dup op (replayed g (L g))) →
        (replayed g (L g)).UpToDate i history → ((replayed g (L g)).apply g op).1.UpToDate i history :=
      fun hno hup => hup.keep (by rw [hshard, install_same hcmd hnum.symm hno])
        fun _ _ => (replayed g (L g)).covers_apply g op
    refine h.quiet hnone (fun i ha => ?_) (fun c' i hl harr hc' => ?_) fun client e he => ?_
    · by_cases hin : ∃ m, Installs c i m dup op (replayed g (L g))
      · obtain ⟨m, hin⟩ := hin
        exact h.installed_upToDate ho hb hin
      · have hno := not_exists.mp hin
        rw [ShardKv.Accepts, hshard, install_same hcmd hnum.symm hno, happ] at ha
        exact same hno (h.accepts g i hg ha)
    · have harr' : ¬ Arrived configs L c' i := fun ha => harr (ha.mono (le_push L g op))
      rw [happ] at hc'
      obtain ⟨-, hst, -⟩ := ho.kept hl hc' harr'
      refine same (fun m hin => ?_) (h.kept g c' i (L g) hg hl harr' List.prefix_rfl hc')
      obtain ⟨_, -, -, -, hpull⟩ := hin
      rw [hst] at hpull
      cases hpull
    · rw [happ] at he
      have he : ShardKv.mergeEntry ((replayed g (L g)).dupTable client) (dup client) = some e := he
      rcases ShardKv.mergeEntry_eq_some he with he | he
      · exact h.origin g (L g) List.prefix_rfl client e he
      · rw [hcmd] at hb
        obtain ⟨src, ⟨log, hlog, -, hdup⟩, -⟩ := hb
        rw [hdup] at he
        exact h.origin src log hlog client e he
  · refine h.idle hg hnone ?_
    rw [happ, ShardKv.applyInstall, if_pos hnum]

theorem push_gc (h : Current configs L N) (ho : Orderly configs L) (ho' : Orderly configs (push L g op)) (hg : g ≠ 0)
    {c : Nat} {ids : List ShardId} (hcmd : op.cmd = .gc c ids) : Current configs (push L g op) N := by
  have hnone : ∀ n i, (replayed g (L g)).executes g n i op = none := executes_of_not_kv
    fun c s input => by rw [hcmd]; exact fun h => by cases h
  have happ : ((replayed g (L g)).apply g op).1 = (replayed g (L g)).applyGC c ids := by
    simp only [ShardKv.apply, hcmd]
  -- only a shard that is `BePulling` loses its map
  have same : ∀ {i history}, ((replayed g (L g)).shards i).state ≠ .bePulling ∨
      (((replayed g (L g)).apply g op).1.shards i).state = .bePulling → (replayed g (L g)).UpToDate i history →
      ((replayed g (L g)).apply g op).1.UpToDate i history := fun hst hup => by
    refine hup.keep ?_ fun _ _ => (replayed g (L g)).covers_apply g op
    rw [happ, ShardKv.applyGC_shards]
    split
    · rename_i hci
      rcases hst with hst | hst
      · exact ShardKv.collectShard_kv hst
      · rw [happ, ShardKv.applyGC_shards, if_pos hci] at hst
        exact absurd hst (ShardKv.collectShard_ne _)
    · rfl
  refine h.quiet hnone (fun i ha => ?_) (fun c' i hl harr hc' => ?_) fun client e he => ?_
  · have hown : (replayed g (L g)).config.shards i = g := by
      have := ha.1
      rwa [happ, ShardKv.applyGC_config] at this
    have hbe : ((replayed g (L g)).shards i).state ≠ .bePulling := fun hst =>
      ((ho.placed g).standing hst).1.1 ((ho.placed g).owner_eq.symm.trans hown)
    refine same (Or.inl hbe) (h.accepts g i hg ⟨hown, ?_⟩)
    have hstate := ha.2
    rw [happ, ShardKv.applyGC_shards] at hstate
    split at hstate
    · cases hs : ((replayed g (L g)).shards i).state with
      | bePulling => exact absurd hs hbe
      | serving => exact Or.inl rfl
      | pulling => simp only [ShardKv.collectShard, hs] at hstate; rcases hstate with hs | hs <;> cases hs
      | gcing => exact Or.inr rfl
    · exact hstate
  · have harr' : ¬ Arrived configs L c' i := fun ha => harr (ha.mono (le_push L g op))
    have hkept := (ho'.kept hl (by rw [push_self, replayed_snoc]; exact hc') harr).2.1
    rw [push_self, replayed_snoc] at hkept
    rw [happ, ShardKv.applyGC_config] at hc'
    exact same (Or.inr hkept) (h.kept g c' i (L g) hg hl harr' List.prefix_rfl hc')
  · rw [happ, ShardKv.applyGC_dupTable] at he
    exact h.origin g (L g) List.prefix_rfl client e he

/-! ## Client operations -/

structure Executed (configs : Nat → Config Nat) (L : Int → List ShardOp) (N : Nat) (g : Int) (op : ShardOp)
    (i : ShardId) (d : ShardDone) : Prop where
  accepts : (replayed g (L g)).Accepts g i
  effect : (replayed g (L g)).Effect ((replayed g (L g)).apply g op).1 i d
  history : shardHistory configs (push L g op) N i = shardHistory configs L N i ++ [d]
  other : ∀ j, j ≠ i → shardHistory configs (push L g op) N j = shardHistory configs L N j

theorem executed_of {n : Nat} {d : ShardDone} (ho : Orderly configs L) (hv : Virgin configs L) (hzero : L 0 = [])
    (hg : g ≠ 0) (hN : n ≤ N) (hex : (replayed g (L g)).executes g n i op = some d) :
    Executed configs L N g op i d where
  accepts := (executes_eq_some hex).2.2.2.1
  effect := executes_effect hex
  history := ho.history_push hv hzero hg hex hN
  other j hj := by
    refine shardHistory_push_none fun m => Option.eq_none_iff_forall_ne_some.mpr fun e he => hj ?_
    have hcmd := (executes_eq_some hex).1.symm.trans (executes_eq_some he).1
    rw [← (executes_eq_some hex).2.2.1, ← (executes_eq_some he).2.2.1, (ShardCmd.kv.inj hcmd).2.2]

section
variable {d : ShardDone} (hx : Executed configs L N g op i d)
include hx

/-- The owner's map goes along, and nobody else accepts operations for the shard. -/
theorem executed_accepts (h : Current configs L N) (ho : Orderly configs L) (hv : Virgin configs L) (hg : g ≠ 0)
    {g' : Int} (hg' : g' ≠ 0) {j : ShardId} (ha : (replayed g' (push L g op g')).Accepts g' j) :
    (replayed g' (push L g op g')).UpToDate j (shardHistory configs (push L g op) N j) := by
  by_cases hgg : g' = g
  · subst hgg
    rw [push_self, replayed_snoc] at ha ⊢
    have hwas : (replayed g' (L g')).Accepts g' j := by
      rw [ShardKv.Accepts, ← hx.effect.config, ← hx.effect.state]
      exact ha
    have hdup : ∀ c s, (replayed g' (L g')).dupTable.Covers c s →
        ((replayed g' (L g')).apply g' op).1.dupTable.Covers c s := fun _ _ => (replayed g' (L g')).covers_apply g' op
    by_cases hj : j = i
    · subst hj
      rw [hx.history]
      exact (h.accepts g' j hg hwas).executed hx.effect hdup
    · rw [hx.other j hj]
      exact (h.accepts g' j hg hwas).keep (hx.effect.other j hj) hdup
  · rw [push_of_ne hgg] at ha ⊢
    by_cases hj : j = i
    · subst hj
      exact absurd (ho.exclusive hv hg' hg ha hx.accepts) hgg
    · rw [hx.other j hj]
      exact h.accepts g' j hg' ha

theorem executed_kept (hreal : ∀ n, 1 ≤ n → (configs n).num = n → ∀ i, (configs n).shards i ≠ 0)
    (h : Current configs L N) (ho : Orderly configs L) (hg : g ≠ 0) {g' : Int} (hg' : g' ≠ 0) {c : Nat} {j : ShardId}
    {log : List ShardOp} (hl : Loses configs g' c j) (harr : ¬ Arrived configs L c j) (hlog : log <+: push L g op g')
    (hc : c ≤ (replayed g' log).config.num) :
    (replayed g' log).UpToDate j (shardHistory configs (push L g op) N j) := by
  -- the log before the command has come as far
  have hreached : c ≤ (replayed g' (L g')).config.num := by
    rcases of_le_push hlog with hlog | ⟨rfl, rfl⟩
    · exact hc.trans (num_mono hlog)
    · rwa [replayed_snoc, hx.effect.config] at hc
  by_cases hj : j = i
  · subst hj
    refine absurd (ho.arrived_of_accepts (ho.virgin hreal) hg hx.accepts hg' hl hreached ?_) harr
    cases c with
    | zero => exact absurd hl.2 hl.1
    | succ m => exact hreal (m + 1) (Nat.succ_pos m) ((ho.placed g').real m hreached) j
  · rw [hx.other j hj]
    rcases of_le_push hlog with hlog | ⟨rfl, rfl⟩
    · exact h.kept g' c j log hg' hl harr hlog hc
    · rw [replayed_snoc]
      exact (h.kept g' c j (L g') hg' hl harr List.prefix_rfl hreached).keep (hx.effect.other j hj)
        fun _ _ => (replayed g' (L g')).covers_apply g' op

theorem executed_origin (h : Current configs L N)
    (hle : ∀ j, shardHistory configs L N j <+: shardHistory configs (push L g op) N j) {g' : Int} {log : List ShardOp}
    (hlog : log <+: push L g op g') {client : Nat} {e : DupEntry} (he : (replayed g' log).dupTable client = some e) :
    ∃ j, ∃ d ∈ shardHistory configs (push L g op) N j, d.id = (client, e.seqId) ∧ d.input.opType ≠ .get := by
  have old : (∃ j, ∃ d ∈ shardHistory configs L N j, d.id = (client, e.seqId) ∧ d.input.opType ≠ .get) →
      ∃ j, ∃ d ∈ shardHistory configs (push L g op) N j, d.id = (client, e.seqId) ∧ d.input.opType ≠ .get :=
    fun ⟨j, d, hd, hw⟩ => ⟨j, d, (hle j).subset hd, hw⟩
  rcases of_le_push hlog with hlog | ⟨rfl, rfl⟩
  · exact old (h.origin g' log hlog client e he)
  · rw [replayed_snoc] at he
    rcases hx.effect.origin client e he with he | hw
    · exact old (h.origin g' (L g') List.prefix_rfl client e he)
    · exact ⟨i, d, by rw [hx.history]; exact List.mem_append_right _ (List.mem_singleton_self d), hw⟩

end

section
variable (hreal : ∀ n, 1 ≤ n → (configs n).num = n → ∀ i, (configs n).shards i ≠ 0)
include hreal

theorem push_executed (h : Current configs L N) (ho : Orderly configs L) (hzero : L 0 = []) (hg : g ≠ 0) {n : Nat}
    (hN : n ≤ N) {d : ShardDone} (hex : (replayed g (L g)).executes g n i op = some d) :
    Current configs (push L g op) N := by
  have hv := ho.virgin hreal
  have hx := executed_of ho hv hzero hg hN hex
  have hup := h.accepts g i hg hx.accepts
  obtain ⟨-, hnum, -, -, hfresh, hout⟩ := executes_eq_some hex
  have hle := ho.history_le_push hv hzero hg (hnum.le.trans hN) op
  refine ⟨fun j => ?_, fun j => ?_, fun g' j hg' ha => executed_accepts hx h ho hv hg hg' ha,
    fun g' c j log hg' hl harr hlog hc => executed_kept hx hreal h ho hg hg' hl
      (fun ha => harr (ha.mono (le_push L g op))) hlog hc,
    fun g' log hlog client e he => executed_origin hx h hle hlog he⟩
  · by_cases hj : j = i
    · subst hj
      rw [hx.history]
      exact Object.legal_append.mpr ⟨h.legal j, by rw [hout, hup.map], trivial⟩
    · rw [hx.other j hj]
      exact h.legal j
  · by_cases hj : j = i
    · subst hj
      rw [hx.history]
      refine List.pairwise_append.mpr ⟨h.once j, List.pairwise_singleton _ _, fun e he d' hd' hwe hwd hid => ?_⟩
      rw [List.mem_singleton.mp hd'] at hwd hid
      have hcov := hup.covers e he hwe
      rw [hid] at hcov
      exact ShardKv.duplicate_eq_none.mp (hfresh.resolve_left hwd) hcov
    · rw [hx.other j hj]
      exact h.once j

theorem push_kv (h : Current configs L N) (ho : Orderly configs L) (hzero : L 0 = []) (hg : g ≠ 0)
    (hN : (replayed g (L g)).config.num ≤ N) {c s : Nat} {input : KvInput} (hcmd : op.cmd = .kv c s input) :
    Current configs (push L g op) N := by
  by_cases hex : ∃ i d, (replayed g (L g)).executes g (replayed g (L g)).config.num i op = some d
  · obtain ⟨i, d, hex⟩ := hex
    exact h.push_executed hreal ho hzero hg hN hex
  · have hnone := executes_eq_none fun i d hd => hex ⟨i, d, hd⟩
    exact h.idle hg hnone (apply_of_not_executed hcmd hnone)

theorem push (h : Current configs L N) (ho : Orderly configs L) (hzero : L 0 = []) (hg : g ≠ 0)
    (hN : (replayed g (L g)).config.num ≤ N) (hl : Legit configs g (L g) op.cmd) (hb : Backed configs L g op.cmd) :
    Current configs (push L g op) N := by
  have ho' := ho.push hl hb
  cases hcmd : op.cmd with
  | kv c s input => exact h.push_kv hreal ho hzero hg hN hcmd
  | config cfg => exact h.push_config ho ho' (ho'.virgin hreal) hzero hg hcmd hl
  | install c shards dup => exact h.push_install ho hg hcmd hb
  | gc c ids => exact h.push_gc ho ho' hg hcmd

end

end Current

end

end DistLab
