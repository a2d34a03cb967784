import DistLab.Service.OverRaft
import DistLab.Shard.Epoch
import Mathlib.Data.Set.Countable

/-!
# The tables of a shardkv group are finite

Stores and tables of last replies are Go maps, and the model has them as
functions. Only those with finitely many keys can be written with `labgob`. A
group that starts from empty tables and executes commands whose tables are
finite has finite tables, so what it keeps and what it hands over can be written
and read back.
-/

namespace DistLab

/-! ## Finite maps -/

section
variable {α β : Type*} {f g : α → Option β}

def FiniteMap (f : α → Option β) : Prop := {a | f a ≠ none}.Finite

theorem FiniteMap.empty : FiniteMap (fun _ : α => (none : Option β)) := by simp [FiniteMap]

theorem FiniteMap.update [DecidableEq α] (h : FiniteMap f) (a : α) (b : Option β) :
    FiniteMap (Function.update f a b) := by
  refine (h.insert a).subset fun x hx => ?_
  by_cases hxa : x = a
  · exact Or.inl hxa
  · rw [Set.mem_ofPred_eq, Function.update_of_ne hxa] at hx
    exact Or.inr hx

theorem FiniteMap.union {e : α → Option β} (hf : FiniteMap f) (hg : FiniteMap g)
    (h : ∀ a, f a = none → g a = none → e a = none) : FiniteMap e := by
  refine (Set.Finite.union hf hg).subset fun a ha => ?_
  by_cases hfa : f a = none
  · exact Or.inr fun hga => ha (h a hfa hga)
  · exact Or.inl hfa

/-- A finite map is known by its entries. -/
theorem countable_finiteMap [Countable α] [Countable β] : {f : α → Option β | FiniteMap f}.Countable := by
  let entries (f : α → Option β) : Set (α × β) := {p | f p.1 = some p.2}
  have hfinite : ∀ f, FiniteMap f → (entries f).Finite := by
    intro f hf
    refine Set.Finite.of_finite_image (f := Prod.fst) (hf.subset ?_) ?_
    · rintro _ ⟨p, hp, rfl⟩
      exact fun hnone => Option.some_ne_none _ (hp.symm.trans hnone)
    · rintro ⟨a, b⟩ hp ⟨a', b'⟩ hq rfl
      exact Prod.ext rfl (Option.some.inj (hp.symm.trans hq))
  refine Set.MapsTo.countable_of_injOn (f := entries) (t := {t | t.Finite ∧ t ⊆ Set.univ})
    (fun f hf => ⟨hfinite f hf, Set.subset_univ _⟩) (fun f _ g _ hfg => ?_)
    (Set.countable_ofPred_finite_subset Set.countable_univ)
  funext a
  refine Option.ext fun b => ?_
  exact Set.ext_iff.mp hfg (a, b)

end

/-! ## Commands and states -/

def ShardCmd.Finite : ShardCmd → Prop
  | .install _ shards dupTable => (∀ i m, shards i = some m → FiniteMap m) ∧ FiniteMap dupTable
  | _ => True

def ShardOp.Finite (op : ShardOp) : Prop := op.cmd.Finite

structure ShardKv.Finite (kv : ShardKv) : Prop where
  shards : ∀ i, FiniteMap (kv.shards i).kv
  dupTable : FiniteMap kv.dupTable

theorem Store.finite_applyOp {m : Store} (h : FiniteMap m) (op : KvInput) : FiniteMap (m.applyOp op).1 := by
  obtain ⟨t, k, v⟩ := op
  cases t with
  | get =>
    simp only [applyOp]
    cases m k <;> exact h
  | put => exact h.update k _
  | append => exact h.update k _

namespace ShardKv.Finite

theorem init : ShardKv.init.Finite := ⟨fun _ => FiniteMap.empty, FiniteMap.empty⟩

variable {kv : ShardKv} (h : kv.Finite)

include h

theorem applyKVOp (op : KvInput) : (kv.applyKVOp op).1.Finite where
  shards i := by
    by_cases hi : i = key2shard op.key
    · subst hi
      simp only [ShardKv.applyKVOp, ShardKv.setShard, Function.update_self]
      exact Store.finite_applyOp (h.shards _) op
    · simp only [ShardKv.applyKVOp, ShardKv.setShard, Function.update_of_ne hi]
      exact h.shards i
  dupTable := h.dupTable

theorem applyClient (gid : Int) (c s : Nat) (op : KvInput) : (kv.applyClient gid c s op).1.Finite := by
  have hcl := kv.applyClient_cases gid c s op
  generalize kv.applyClient gid c s op = q at hcl
  cases hcl with
  | refused _ => exact h
  | repeated _ _ _ => exact h
  | written _ _ _ => exact ⟨(h.applyKVOp op).shards, h.dupTable.update c _⟩
  | read _ _ => exact h

theorem applyConfig (gid : Int) (config : Config Nat) : (kv.applyConfig gid config).Finite := by
  unfold ShardKv.applyConfig
  split
  · exact h
  · exact ⟨fun i => by rw [reassign_kv]; exact h.shards i, h.dupTable⟩

theorem applyInstall {configNum : Nat} {shards : ShardId → Option Store} {dupTable : DupTable}
    (hop : (ShardCmd.install configNum shards dupTable).Finite) : (kv.applyInstall configNum shards dupTable).Finite := by
  unfold ShardKv.applyInstall
  split
  · exact h
  · refine ⟨fun i => ?_, h.dupTable.union hop.2 fun c h1 h2 => by simp [mergeEntry, h1, h2]⟩
    simp only [installShard]
    split
    · rename_i m hm
      split
      · exact hop.1 i m hm
      · exact h.shards i
    · exact h.shards i

theorem applyGC (configNum : Nat) (shardIds : List ShardId) : (kv.applyGC configNum shardIds).Finite where
  shards i := by
    rw [applyGC_shards]
    split
    · unfold collectShard
      split
      · exact FiniteMap.empty
      · exact h.shards i
      · exact h.shards i
    · exact h.shards i
  dupTable := by
    rw [applyGC_dupTable]
    exact h.dupTable

theorem apply (gid : Int) {op : ShardOp} (hop : op.Finite) : (kv.apply gid op).1.Finite := by
  obtain ⟨id, cmd⟩ := op
  cases cmd with
  | kv c s op => exact h.applyClient gid c s op
  | config config => exact h.applyConfig gid config
  | install configNum shards dupTable => exact h.applyInstall hop
  | gc configNum shardIds => exact h.applyGC configNum shardIds

end ShardKv.Finite

theorem shardMachine_replay_finite (gid : Int) {log : List ShardOp} (h : ∀ op ∈ log, op.Finite) :
    ((shardMachine gid).replay log).Finite := by
  induction log using List.reverseRecOn with
  | nil => exact ShardKv.Finite.init
  | append_singleton log op ih =>
    rw [Machine.replay_snoc]
    exact (ih fun o ho => h o (List.mem_append_left _ ho)).apply gid (h op (by simp))

theorem ShardKv.Finite.pullShard {kv : ShardKv} (h : kv.Finite) {configNum : Nat} {shardIds : List ShardId}
    {shards : ShardId → Option Store} {dupTable : DupTable}
    (hp : kv.pullShard configNum shardIds = some (shards, dupTable)) :
    (ShardCmd.install configNum shards dupTable).Finite := by
  unfold ShardKv.pullShard at hp
  split at hp
  · cases hp
  · cases hp
    refine ⟨fun i m hm => ?_, h.dupTable⟩
    simp only at hm
    split at hm
    · cases hm
      exact h.shards i
    · cases hm

/-! ## Bytes -/

instance : Countable DupEntry := by
  refine Function.Injective.countable (f := fun e : DupEntry => (e.seqId, e.reply.err, e.reply.value)) ?_
  rintro ⟨n, e, v⟩ ⟨n', e', v'⟩ h
  cases h
  rfl

instance : Countable (Config Nat) := by
  refine Function.Injective.countable (f := fun x : Config Nat => (x.num, x.shards, x.groups.entries)) ?_
  rintro ⟨n, s, g, hg⟩ ⟨n', s', g', hg'⟩ h
  cases h
  rfl

theorem ShardCmd.countable_finite : {cmd : ShardCmd | cmd.Finite}.Countable := by
  have hstore : {m : Option Store | ∀ m', m = some m' → FiniteMap m'}.Countable := by
    refine ((countable_finiteMap.image some).insert none).mono fun m hm => ?_
    cases m with
    | none => exact Or.inl rfl
    | some m => exact Or.inr ⟨m, hm m rfl, rfl⟩
  have hinstall := (Set.countable_univ (α := Nat)).prod
    ((Set.countable_pi fun _ : ShardId => hstore).prod (countable_finiteMap (α := Nat) (β := DupEntry)))
  refine (((Set.countable_range fun p : Nat × Nat × KvInput => ShardCmd.kv p.1 p.2.1 p.2.2).union
    (Set.countable_range ShardCmd.config)).union ((hinstall.image fun p => ShardCmd.install p.1 p.2.1 p.2.2).union
    (Set.countable_range fun p : Nat × List ShardId => ShardCmd.gc p.1 p.2))).mono fun cmd hcmd => ?_
  cases cmd with
  | kv c s op => exact Or.inl (Or.inl ⟨(c, s, op), rfl⟩)
  | config config => exact Or.inl (Or.inr ⟨config, rfl⟩)
  | install n shards dupTable => exact Or.inr (Or.inl ⟨(n, shards, dupTable), ⟨trivial, hcmd.1, hcmd.2⟩, rfl⟩)
  | gc n shardIds => exact Or.inr (Or.inr ⟨(n, shardIds), rfl⟩)

instance : Countable { op : ShardOp // op.Finite } := by
  have h := (Set.countable_univ (α := Nat)).prod ShardCmd.countable_finite
  refine Set.Countable.to_subtype ((h.image fun p => ShardOp.mk p.1 p.2).mono fun op hop => ?_)
  exact ⟨(op.internalId, op.cmd), ⟨trivial, hop⟩, rfl⟩

noncomputable def shardCodec (gid : Int) : Codec (shardMachine gid) ShardOp.Finite :=
  Classical.choice (Codec.exists_of_countable (shardMachine gid) ShardOp.Finite)

end DistLab
