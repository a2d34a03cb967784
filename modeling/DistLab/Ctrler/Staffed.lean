import DistLab.Ctrler.History

/-!
# Shards with an owner that exists

As long as no group has gid 0, a group is left whenever some leave, and shards
are moved only to groups that have joined, every configuration with a group
assigns every shard to one of its groups.
-/

namespace DistLab

section
variable {Srv : Type} {op : CtrlOp Srv} {latest new : Config Srv} {configs : List (Config Srv)} {ops : List (CtrlOp Srv)}

/-- The operation takes no shard from a group without giving it to another one. -/
def CtrlOp.Keeps (latest : Config Srv) : CtrlOp Srv → Prop
  | .join servers => (0 : Int) ∉ servers.keys
  | .leave gids => latest.groups.keys = [] ∨ ∃ gid ∈ latest.groups.keys, gid ∉ gids
  | .move _ gid => gid ≠ 0 ∧ gid ∈ latest.groups.keys
  | .query _ => True

instance (latest : Config Srv) (op : CtrlOp Srv) : Decidable (op.Keeps latest) :=
  match op with
  | .join _ => inferInstanceAs (Decidable (_ ∉ _))
  | .leave _ => inferInstanceAs (Decidable (_ ∨ _))
  | .move _ _ => inferInstanceAs (Decidable (_ ∧ _))
  | .query _ => isTrue trivial

/-- The operation names no gid as an owner that is not one of a group. -/
def CtrlOp.NamesGroups (latest : Config Srv) : CtrlOp Srv → Prop
  | .join servers => (0 : Int) ∉ servers.keys
  | .leave _ => True
  | .move _ gid => gid ∈ latest.groups.keys ∨ gid = 0 ∧ latest.groups.keys = []
  | .query _ => True

instance (latest : Config Srv) (op : CtrlOp Srv) : Decidable (op.NamesGroups latest) :=
  match op with
  | .join _ => inferInstanceAs (Decidable (_ ∉ _))
  | .leave _ => isTrue trivial
  | .move _ _ => inferInstanceAs (Decidable (_ ∨ _))
  | .query _ => isTrue trivial

theorem CtrlOp.Keeps.namesGroups (h : op.Keeps latest) : op.NamesGroups latest := by
  cases op with
  | join servers => exact h
  | leave gids => trivial
  | move shard gid => exact Or.inl h.2
  | query num => trivial

structure Config.Staffed (cfg : Config Srv) : Prop where
  real : (0 : Int) ∉ cfg.groups.keys
  nobody : cfg.groups.keys = [] → ∀ s, cfg.shards s = 0
  owned : cfg.groups.keys ≠ [] → ∀ s, cfg.shards s ∈ cfg.groups.keys

theorem Config.staffed_zero : (Config.zero : Config Srv).Staffed where
  real h := by cases h
  nobody _ _ := rfl
  owned h := absurd rfl h

theorem Config.groups_rebalance {cfg : Config Srv} (h : cfg.rebalance = some new) : new.groups = cfg.groups := by
  obtain ⟨shards, hreb, -⟩ := cfg.rebalance_spec
  rw [hreb] at h
  cases h
  rfl

theorem Config.Staffed.rebalance {cfg : Config Srv} (hreal : (0 : Int) ∉ cfg.groups.keys)
    (h : cfg.rebalance = some new) : new.Staffed := by
  obtain ⟨shards, hreb, hnobody, howned⟩ := cfg.rebalance_spec
  rw [hreb] at h
  cases h
  exact ⟨hreal, hnobody, howned⟩

theorem Config.exists_of_join {servers : GoMap Int (List Srv)} (h : latest.join servers = some new) :
    ∃ cfg : Config Srv, cfg.rebalance = some new ∧ cfg.shards = latest.shards ∧
      ∀ gid, gid ∈ cfg.groups.keys ↔ gid ∈ latest.groups.keys ∨ gid ∈ servers.keys :=
  ⟨_, h, rfl, fun _ => GoMap.mem_keys_inserts⟩

theorem Config.exists_of_leave {left : List Int} (h : latest.leave left = some new) :
    ∃ cfg : Config Srv, cfg.rebalance = some new ∧
      (∀ s, cfg.shards s = if latest.shards s ∈ left then 0 else latest.shards s) ∧
      ∀ gid, gid ∈ cfg.groups.keys ↔ gid ∈ latest.groups.keys ∧ gid ∉ left :=
  ⟨_, h, fun _ => rfl, fun _ => GoMap.mem_keys_deletes⟩

theorem Config.Staffed.move (h : latest.Staffed) {shard gid : Int} (hnew : latest.move shard gid = some new)
    (hgid : gid ∈ latest.groups.keys ∨ gid = 0 ∧ latest.groups.keys = []) : new.Staffed := by
  rw [Config.move] at hnew
  split at hnew
  · cases hnew
    refine ⟨h.real, fun hnil s => ?_, fun hne s => ?_⟩
    · simp only [Function.update_apply]
      split
      · exact (hgid.resolve_left fun hmem => List.ne_nil_of_mem hmem hnil).1
      · exact h.nobody hnil s
    · simp only [Function.update_apply]
      split
      · exact hgid.resolve_right fun hnone => hne hnone.2
      · exact h.owned hne s
  · cases hnew

theorem Config.Staffed.makes (h : latest.Staffed) (hop : op.NamesGroups latest) (hnew : op.makes latest = some new) :
    new.Staffed := by
  cases op with
  | join servers =>
    obtain ⟨cfg, hcfg, -, hkeys⟩ := exists_of_join hnew
    exact Staffed.rebalance (fun h0 => ((hkeys 0).mp h0).elim h.real hop) hcfg
  | leave gids =>
    obtain ⟨cfg, hcfg, -, hkeys⟩ := exists_of_leave hnew
    exact Staffed.rebalance (fun h0 => h.real ((hkeys 0).mp h0).1) hcfg
  | move shard gid => exact h.move hnew hop
  | query num => cases hnew

theorem CtrlOp.Keeps.makes (h : op.Keeps latest) (hnew : op.makes latest = some new) (hne : latest.groups.keys ≠ []) :
    new.groups.keys ≠ [] := by
  cases op with
  | join servers =>
    obtain ⟨cfg, hcfg, -, hkeys⟩ := Config.exists_of_join hnew
    obtain ⟨gid, hgid⟩ := List.exists_mem_of_ne_nil _ hne
    rw [Config.groups_rebalance hcfg]
    exact List.ne_nil_of_mem ((hkeys gid).mpr (Or.inl hgid))
  | leave gids =>
    obtain ⟨cfg, hcfg, -, hkeys⟩ := Config.exists_of_leave hnew
    obtain ⟨gid, hgid⟩ := h.resolve_left hne
    rw [Config.groups_rebalance hcfg]
    exact List.ne_nil_of_mem ((hkeys gid).mpr hgid)
  | move shard gid =>
    simp only [CtrlOp.makes, Config.move] at hnew
    split at hnew
    · cases hnew
      exact hne
    · cases hnew
  | query num => cases hnew

/-! ## Histories -/

def Throughout (Q : Config Srv → CtrlOp Srv → Prop) (ops : List (CtrlOp Srv)) : Prop :=
  ∀ (p : Nat) op configs latest, ops[p]? = some op → ctrlConfigs (ops.take p) = some configs →
    configs.getLast? = some latest → Q latest op

theorem throughout_iff {Q : Config Srv → CtrlOp Srv → Prop} : Throughout Q ops ↔
    ∀ p < ops.length, ∀ op ∈ ops[p]?, ∀ configs ∈ ctrlConfigs (ops.take p), ∀ latest ∈ configs.getLast?, Q latest op := by
  constructor
  · intro h p _ op hp configs hc latest hl
    exact h p op configs latest hp hc hl
  · intro h p op configs latest hp hc hl
    exact h p (List.getElem?_eq_some_iff.mp hp).1 op hp configs hc latest hl

instance (Q : Config Srv → CtrlOp Srv → Prop) [∀ latest op, Decidable (Q latest op)] : Decidable (Throughout Q ops) :=
  decidable_of_iff _ throughout_iff.symm

theorem Throughout.init {Q : Config Srv → CtrlOp Srv → Prop} (h : Throughout Q (ops ++ [op])) : Throughout Q ops ∧
    ∀ configs latest, ctrlConfigs ops = some configs → configs.getLast? = some latest → Q latest op := by
  constructor
  · intro p o configs latest hp hc hl
    obtain ⟨hlt, -⟩ := List.getElem?_eq_some_iff.mp hp
    refine h p o configs latest (by rwa [List.getElem?_append_left hlt]) ?_ hl
    rwa [List.take_append_of_le_length hlt.le]
  · intro configs latest hc hl
    exact h ops.length op configs latest (by simp) (by rwa [List.take_left]) hl

theorem staffed_ctrlConfigs (hops : Throughout (fun latest op => op.NamesGroups latest) ops)
    (h : ctrlConfigs ops = some configs) : ∀ cfg ∈ configs, cfg.Staffed := by
  revert hops
  refine ctrlConfigs_induction (P := fun ops configs => Throughout (fun latest op => op.NamesGroups latest) ops →
    ∀ cfg ∈ configs, cfg.Staffed) ?_ ?_ ?_ h
  · intro _ cfg hmem
    rw [List.mem_singleton.mp hmem]
    exact Config.staffed_zero
  · intro ops op configs ih hops
    exact ih hops.init.1
  · intro ops op configs latest new hc hlast hnew ih hops
    obtain ⟨hinit, hop⟩ := hops.init
    have hold := ih hinit
    exact forall_mem_snoc hold ((hold latest (List.mem_of_getLast? hlast)).makes (hop configs latest hc hlast) hnew)

theorem shards_live (ops : List (CtrlOp Srv)) (hr : ∀ op ∈ ops, op.InRange)
    (hops : Throughout (fun latest op => op.NamesGroups latest) ops) :
    ∃ configs, ctrlConfigs ops = some configs ∧ ∀ cfg ∈ configs, ∀ s,
      (cfg.shards s ∈ cfg.groups.keys ∨ cfg.shards s = 0) ∧ (cfg.shards s = 0 → cfg.groups.keys = []) := by
  obtain ⟨configs, hc⟩ := exists_ctrlConfigs hr
  refine ⟨configs, hc, fun cfg hcfg s => ?_⟩
  have hstaffed := staffed_ctrlConfigs hops hc cfg hcfg
  by_cases hnil : cfg.groups.keys = []
  · exact ⟨Or.inr (hstaffed.nobody hnil s), fun _ => hnil⟩
  · have hmem := hstaffed.owned hnil s
    exact ⟨Or.inl hmem, fun h0 => absurd (h0 ▸ hmem) hstaffed.real⟩

/-- Two groups join, a shard is moved to one of them, and the other one leaves. -/
def moveHome : List (CtrlOp Nat) := [.join ((GoMap.empty.insert 1 []).insert 2 []), .move 0 2, .leave [1]]

theorem moveHome_throughout : Throughout (fun latest op => op.NamesGroups latest) moveHome := by decide +kernel

theorem moveHome_live : (∀ op ∈ moveHome, op.InRange) ∧
    ∃ configs, ctrlConfigs moveHome = some configs ∧ ∀ cfg ∈ configs, ∀ s,
      (cfg.shards s ∈ cfg.groups.keys ∨ cfg.shards s = 0) ∧ (cfg.shards s = 0 → cfg.groups.keys = []) := by
  have hr : ∀ op ∈ moveHome, op.InRange := by decide
  exact ⟨hr, shards_live moveHome hr moveHome_throughout⟩

/-- A shard moved to a group that has not joined, one moved to nobody, and a group
with the gid that means nobody. -/
theorem shards_astray :
    (∃ configs ∈ ctrlConfigs [.join (GoMap.empty.insert 1 [0]), .move 0 5], ∃ cfg ∈ configs.getLast?,
      cfg.shards ⟨0, by decide⟩ = 5 ∧ (5 : Int) ∉ cfg.groups.keys) ∧
    (∃ configs ∈ ctrlConfigs [.join (GoMap.empty.insert 1 [0]), .move 0 0], ∃ cfg ∈ configs.getLast?,
      cfg.shards ⟨0, by decide⟩ = 0 ∧ cfg.groups.keys ≠ []) ∧
    ∃ configs ∈ ctrlConfigs [.join (GoMap.empty.insert 0 [0])], ∃ cfg ∈ configs.getLast?,
      cfg.shards ⟨0, by decide⟩ = 0 ∧ cfg.groups.keys ≠ [] := by
  decide +kernel

abbrev Supported (ops : List (CtrlOp Srv)) : Prop := Throughout (fun latest op => op.Keeps latest) ops

structure Continued (configs : List (Config Srv)) : Prop where
  staffed : ∀ cfg ∈ configs, cfg.Staffed
  kept : ∀ (n : Nat) (a b : Config Srv), configs[n]? = some a → configs[n + 1]? = some b →
    a.groups.keys ≠ [] → b.groups.keys ≠ []

theorem continued_init : Continued [(Config.zero : Config Srv)] where
  staffed cfg h := by
    rw [List.mem_singleton.mp h]
    exact Config.staffed_zero
  kept n a b _ hb := by cases hb

theorem Continued.snoc (h : Continued configs) (hlast : configs.getLast? = some latest) (hnew : new.Staffed)
    (hkept : latest.groups.keys ≠ [] → new.groups.keys ≠ []) : Continued (configs ++ [new]) where
  staffed := forall_mem_snoc h.staffed hnew
  kept n a b ha hb := by
    rcases getElem?_snoc_cases hb with ⟨hlt, hb⟩ | ⟨hn, rfl⟩
    · rw [List.getElem?_append_left (Nat.lt_of_succ_lt hlt)] at ha
      exact h.kept n a b ha hb
    · -- the configuration before the new one is the latest
      rw [List.getElem?_append_left (by omega), show n = configs.length - 1 by omega, ← List.getLast?_eq_getElem?,
        hlast] at ha
      cases ha
      exact hkept

theorem continued_ctrlConfigs (hs : Supported ops) (h : ctrlConfigs ops = some configs) : Continued configs := by
  revert hs
  refine ctrlConfigs_induction (P := fun ops configs => Supported ops → Continued configs) (fun _ => continued_init)
    (fun _ _ _ h hs => h hs.init.1) ?_ h
  intro ops op configs latest new hc hlast hnew ih hs
  obtain ⟨hinit, hop⟩ := hs.init
  have hcont := ih hinit
  have hkeeps := hop configs latest hc hlast
  have hold := hcont.staffed latest (List.mem_of_getLast? hlast)
  exact hcont.snoc hlast (hold.makes hkeeps.namesGroups hnew) (hkeeps.makes hnew)

/-- `Query(n)` returns the `n`-th configuration if what it returns has that
number. -/
theorem Counted.query_eq (h : Counted configs) {n : Nat} (hn : (queryConfig configs n).num = n) :
    configs[n]? = some (queryConfig configs n) := by
  obtain ⟨latest, hlast, hlen⟩ := h.exists_latest
  cases hget : configs[n]? with
  | some cfg => simp only [queryConfig, hget, Option.getD_some]
  | none =>
    have hle := List.getElem?_eq_none_iff.mp hget
    simp only [queryConfig, hget, Option.getD_none, hlast, Option.getD_some] at hn
    omega

theorem Continued.taker (h : Continued configs) (hc : Counted configs) {n : Nat} (hn : (queryConfig configs n).num = n)
    (hn' : (queryConfig configs (n + 1)).num = n + 1) {s : ShardId} (hs : (queryConfig configs n).shards s ≠ 0) :
    (queryConfig configs (n + 1)).shards s ≠ 0 ∧
      (queryConfig configs (n + 1)).shards s ∈ (queryConfig configs (n + 1)).groups.keys := by
  have ha := hc.query_eq hn
  have hb := hc.query_eq hn'
  have hne : (queryConfig configs n).groups.keys ≠ [] := fun hnil =>
    hs ((h.staffed _ (List.mem_of_getElem? ha)).nobody hnil s)
  have hstaffed := h.staffed _ (List.mem_of_getElem? hb)
  have hmem := hstaffed.owned (h.kept n _ _ ha hb hne) s
  refine ⟨fun h0 => hstaffed.real ?_, hmem⟩
  rwa [h0] at hmem

end

end DistLab
