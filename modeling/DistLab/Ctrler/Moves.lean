import DistLab.Ctrler.Staffed

/-!
# Which shards move

If nothing but `Join` and `Leave` has made the configurations, every group holds
its share. The share of a group only shrinks when others join and only grows when
others leave; so a `Join` moves shards to the groups that come and a `Leave` those
of the groups that go.
-/

namespace DistLab

section
variable {Srv : Type} {op : CtrlOp Srv} {latest cfg new : Config Srv} {configs : List (Config Srv)}
  {ops : List (CtrlOp Srv)} {servers : GoMap Int (List Srv)} {left : List Int}

/-- The operations other than `Move`; the gid that a `Join` gives to a group is not
the one that means nobody. -/
def CtrlOp.Regroups : CtrlOp Srv → Prop
  | .join servers => (0 : Int) ∉ servers.keys
  | .leave _ => True
  | .move _ _ => False
  | .query num => -1 ≤ num

instance (op : CtrlOp Srv) : Decidable op.Regroups :=
  match op with
  | .join _ => inferInstanceAs (Decidable (_ ∉ _))
  | .leave _ => isTrue trivial
  | .move _ _ => isFalse id
  | .query _ => inferInstanceAs (Decidable (_ ≤ _))

theorem CtrlOp.Regroups.inRange (h : op.Regroups) : op.InRange := by
  cases op with
  | join servers => trivial
  | leave gids => trivial
  | move shard gid => exact h.elim
  | query num => exact h

structure Config.Settled (cfg : Config Srv) : Prop extends cfg.Staffed where
  load : ∀ gid ∈ cfg.gids, load cfg.shards gid = share nShards cfg.gids gid

theorem Config.settled_zero : (Config.zero : Config Srv).Settled where
  toStaffed := staffed_zero
  load gid h := by cases mem_gids.mp h

theorem Config.Settled.rebalance (hreal : (0 : Int) ∉ cfg.gids) (h : cfg.rebalance = some new) :
    new.Settled ∧ new.gids = cfg.gids ∧ (cfg.groups.keys ≠ [] → cfg.Rebalanced new.shards) := by
  have hgids : new.gids = cfg.gids := by rw [gids, groups_rebalance h, gids]
  have hreb : cfg.groups.keys ≠ [] → cfg.Rebalanced new.shards := by
    intro hne
    obtain ⟨shards, hshards, hreb⟩ := rebalanced hne
    rw [h] at hshards
    cases hshards
    exact hreb
  refine ⟨⟨Staffed.rebalance (mem_gids.not.mp hreal) h, fun gid hgid => ?_⟩, hgids, hreb⟩
  rw [hgids] at hgid ⊢
  exact (hreb (List.ne_nil_of_mem (mem_gids.mp hgid))).load gid hgid

/-! ## One operation -/

theorem Config.Settled.join (h : latest.Settled) (hreal : (0 : Int) ∉ servers.keys)
    (hnew : latest.join servers = some new) : new.Settled ∧
      (∀ gid, gid ∈ new.gids ↔ gid ∈ latest.gids ∨ gid ∈ servers.keys) ∧
      ∀ s, new.shards s ≠ latest.shards s → new.shards s ∉ latest.gids := by
  obtain ⟨cfg, hcfg, hshards, hkeys⟩ := exists_of_join hnew
  simp only [← mem_gids] at hkeys
  have hnot : (0 : Int) ∉ latest.gids := mem_gids.not.mpr h.real
  obtain ⟨hsettled, hgids, hreb⟩ := Settled.rebalance (fun h0 => ((hkeys 0).mp h0).elim hnot hreal) hcfg
  refine ⟨hsettled, by rwa [hgids], fun s hs hold => hs ?_⟩
  have hmem := (hkeys _).mpr (Or.inl hold)
  have hgains := (hreb (List.ne_nil_of_mem (mem_gids.mp hmem))).gains s fun h0 => hnot (h0 ▸ hold)
  rw [hshards, h.load _ hold] at hgains
  -- its share was at least as large
  exact (hgains (share_anti (fun gid hgid => (hkeys gid).mpr (Or.inl hgid)) hold nShards)).symm

theorem Config.Settled.leave (h : latest.Settled) (hnew : latest.leave left = some new) : new.Settled ∧
    (∀ gid, gid ∈ new.gids ↔ gid ∈ latest.gids ∧ gid ∉ left) ∧
    ∀ s, new.shards s ≠ latest.shards s → latest.shards s ∈ latest.gids ∧ latest.shards s ∈ left := by
  obtain ⟨cfg, hcfg, hshards, hkeys⟩ := exists_of_leave hnew
  simp only [← mem_gids] at hkeys
  have hnot : (0 : Int) ∉ latest.gids := mem_gids.not.mpr h.real
  obtain ⟨hsettled, hgids, hreb⟩ := Settled.rebalance (fun h0 => hnot ((hkeys 0).mp h0).1) hcfg
  refine ⟨hsettled, by rwa [hgids], fun s hs => ?_⟩
  by_cases hnil : latest.groups.keys = []
  · -- nobody owned the shard, and nobody owns it now
    have hempty : new.groups.keys = [] := by
      rw [List.eq_nil_iff_forall_not_mem]
      intro gid hgid
      rw [← mem_gids, hgids, hkeys, mem_gids, hnil] at hgid
      cases hgid.1
    exact absurd ((hsettled.nobody hempty s).trans (h.nobody hnil s).symm) hs
  · have hold := mem_gids.mpr (h.owned hnil s)
    refine ⟨hold, ?_⟩
    by_contra hstays
    have hmem := (hkeys _).mpr ⟨hold, hstays⟩
    have hsame : cfg.shards s = latest.shards s := by rw [hshards, if_neg hstays]
    have hload : DistLab.load cfg.shards (latest.shards s) = DistLab.load latest.shards (latest.shards s) := by
      unfold DistLab.load
      congr 1
      ext s'
      simp only [Finset.mem_filter, Finset.mem_univ, true_and, hshards]
      split
      · rename_i hleft
        exact ⟨fun h0 => absurd (h0 ▸ hold) hnot, fun heq => absurd (heq ▸ hleft) hstays⟩
      · exact Iff.rfl
    have hkeeps := (hreb (List.ne_nil_of_mem (mem_gids.mp hmem))).keeps s
    rw [hsame, hload, h.load _ hold] at hkeeps
    -- its share is at least as large
    exact hs (hkeeps (fun h0 => hnot (h0 ▸ hold)) hmem (share_anti (fun gid hgid => ((hkeys gid).mp hgid).1) hmem nShards))

/-! ## Histories -/

theorem Config.Settled.makes (h : latest.Settled) (hop : op.Regroups) (hnew : op.makes latest = some new) :
    new.Settled := by
  cases op with
  | join servers => exact (h.join hop hnew).1
  | leave gids => exact (h.leave hnew).1
  | move shard gid => exact hop.elim
  | query num => cases hnew

theorem settled_ctrlConfigs (hops : ∀ op ∈ ops, op.Regroups) (h : ctrlConfigs ops = some configs) :
    ∀ cfg ∈ configs, cfg.Settled := by
  revert hops
  refine ctrlConfigs_induction (P := fun ops configs => (∀ op ∈ ops, op.Regroups) → ∀ cfg ∈ configs, cfg.Settled)
    ?_ ?_ ?_ h
  · intro _ cfg hmem
    rw [List.mem_singleton.mp hmem]
    exact Config.settled_zero
  · intro ops op configs ih hops
    exact ih fun o ho => hops o (List.mem_append_left _ ho)
  · intro ops op configs latest new _ hlast hnew ih hops
    have hold := ih fun o ho => hops o (List.mem_append_left _ ho)
    exact forall_mem_snoc hold ((hold latest (List.mem_of_getLast? hlast)).makes (hops op (by simp)) hnew)

theorem exists_settled (hops : ∀ op ∈ ops, op.Regroups) : ∃ configs latest, ctrlConfigs ops = some configs ∧
    configs.getLast? = some latest ∧ latest.Settled ∧ ∀ op, op.isWrite = true → op.InRange →
      ∃ new, op.makes latest = some new ∧ ctrlConfigs (ops ++ [op]) = some (configs ++ [new]) := by
  obtain ⟨configs, hc⟩ := exists_ctrlConfigs fun op ho => (hops op ho).inRange
  obtain ⟨latest, hlast, -⟩ := (counted_ctrlConfigs hc).exists_latest
  refine ⟨configs, latest, hc, hlast, settled_ctrlConfigs hops hc latest (List.mem_of_getLast? hlast), fun op hw hr => ?_⟩
  obtain ⟨new, hnew⟩ := op.makes_some hw hr latest
  refine ⟨new, hnew, ?_⟩
  rw [ctrlConfigs_snoc, hc, Option.bind_some, CtrlOp.apply_write hw hlast, hnew]
  rfl

theorem join_leave_bystanders (ops : List (CtrlOp Srv)) (hops : ∀ op ∈ ops, op.Regroups) :
    ∃ configs latest, ctrlConfigs ops = some configs ∧ configs.getLast? = some latest ∧
      (∀ servers : GoMap Int (List Srv), (0 : Int) ∉ servers.keys →
        ∃ new, ctrlConfigs (ops ++ [.join servers]) = some (configs ++ [new]) ∧
          ∀ s, new.shards s ≠ latest.shards s → new.shards s ∉ latest.groups.keys) ∧
      ∀ gids, ∃ new, ctrlConfigs (ops ++ [.leave gids]) = some (configs ++ [new]) ∧
        ∀ s, new.shards s ≠ latest.shards s → latest.shards s ∈ latest.groups.keys ∧ latest.shards s ∈ gids := by
  obtain ⟨configs, latest, hc, hlast, hsettled, hnext⟩ := exists_settled hops
  refine ⟨configs, latest, hc, hlast, fun servers hreal => ?_, fun gids => ?_⟩
  · obtain ⟨new, hnew, hc'⟩ := hnext (.join servers) rfl trivial
    exact ⟨new, hc', fun s hs hold => (hsettled.join hreal hnew).2.2 s hs (Config.mem_gids.mpr hold)⟩
  · obtain ⟨new, hnew, hc'⟩ := hnext (.leave gids) rfl trivial
    refine ⟨new, hc', fun s hs => ?_⟩
    obtain ⟨hold, hleft⟩ := (hsettled.leave hnew).2.2 s hs
    exact ⟨Config.mem_gids.mp hold, hleft⟩

/-- Three groups come, one of them twice, and one that is there leaves along with
one that is not. -/
theorem join_leave_bystanders_rejoin :
    let groups (gids : List Int) : GoMap Int (List Nat) := gids.foldl (fun groups gid => groups.insert gid []) GoMap.empty
    let ops : List (CtrlOp Nat) := [.join (groups [2, 3]), .join (groups [1, 3]), .leave [2, 7]]
    (∀ op ∈ ops, op.Regroups) ∧
    ∃ configs latest, ctrlConfigs ops = some configs ∧ configs.getLast? = some latest ∧
      (∀ servers : GoMap Int (List Nat), (0 : Int) ∉ servers.keys →
        ∃ new, ctrlConfigs (ops ++ [.join servers]) = some (configs ++ [new]) ∧
          ∀ s, new.shards s ≠ latest.shards s → new.shards s ∉ latest.groups.keys) ∧
      ∀ gids, ∃ new, ctrlConfigs (ops ++ [.leave gids]) = some (configs ++ [new]) ∧
        ∀ s, new.shards s ≠ latest.shards s → latest.shards s ∈ latest.groups.keys ∧ latest.shards s ∈ gids := by
  intro groups ops
  have hops : ∀ op ∈ ops, op.Regroups := by decide
  exact ⟨hops, join_leave_bystanders ops hops⟩

/-! ## How many shards move -/

/-- The shards are assigned evenly, and no even assignment moves fewer. -/
structure Config.Fewest (latest new : Config Srv) : Prop where
  even : EvenOn new.shards new.gids
  fewest : ∀ shards, EvenOn shards new.gids → moved latest.shards new.shards ≤ moved latest.shards shards

/-- The groups with one shard more are, as far as they can be, groups that were
there before. -/
def Config.ExtraKept (latest new : Config Srv) : Prop :=
  (∀ gid ∈ new.gids, gid ∉ latest.gids → nShards % new.groups.size ≤ rank new.gids gid) ∨
    ∀ gid ∈ latest.gids, rank new.gids gid < nShards % new.groups.size

instance (latest new : Config Srv) : Decidable (latest.ExtraKept new) := inferInstanceAs (Decidable (_ ∨ _))

theorem Config.Settled.even (h : new.Settled) (hne : new.groups.keys ≠ []) : EvenOn new.shards new.gids where
  mem s := mem_gids.mpr (h.owned hne s)
  close gid hgid gid' hgid' := by
    have hcases := share_cases nShards new.gids gid
    have hcases' := share_cases nShards new.gids gid'
    rw [h.load gid hgid, h.load gid' hgid']
    omega

/-- A shard whose group has left moves in any case. -/
theorem Config.Settled.leave_fewest (h : latest.Settled) (hnew : latest.leave left = some new)
    (hne : new.groups.keys ≠ []) : latest.Fewest new := by
  obtain ⟨hsettled, hkeys, hmoved⟩ := h.leave hnew
  refine ⟨hsettled.even hne, fun shards heven => Finset.card_le_card fun s hs => ?_⟩
  simp only [Finset.mem_filter, Finset.mem_univ, true_and] at hs ⊢
  intro hsame
  have hmem := (hkeys _).mp (heven.mem s)
  rw [hsame] at hmem
  exact hmem.2 (hmoved s hs).2

/-- A shard that ends up at a group that has come moves in any case. -/
theorem Config.Settled.le_moved (h : latest.Settled) (hreal : (0 : Int) ∉ new.gids) {shards : ShardId → Int}
    (hmem : ∀ s, shards s ∈ new.gids) :
    (Finset.univ.filter fun s => shards s ∉ latest.gids).card ≤ moved latest.shards shards := by
  refine Finset.card_le_card fun s hs => ?_
  simp only [Finset.mem_filter, Finset.mem_univ, true_and] at hs ⊢
  intro hsame
  by_cases hnil : latest.groups.keys = []
  · have hmem := hmem s
    rw [hsame, h.nobody hnil s] at hmem
    exact hreal hmem
  · rw [hsame] at hs
    exact hs (mem_gids.mpr (h.owned hnil s))

theorem Config.Settled.join_fewest (h : latest.Settled) (hreal : (0 : Int) ∉ servers.keys)
    (hnew : latest.join servers = some new) (hne : new.groups.keys ≠ []) (hkept : latest.ExtraKept new) :
    latest.Fewest new := by
  obtain ⟨hsettled, hkeys, hmoved⟩ := h.join hreal hnew
  have hsub : latest.gids ⊆ new.gids := fun gid hgid => (hkeys gid).mpr (Or.inl hgid)
  refine ⟨hsettled.even hne, fun shards heven => ?_⟩
  -- those that were there before hold as much in the new configuration as in any
  have hmost : ∑ gid ∈ latest.gids, DistLab.load shards gid ≤ ∑ gid ∈ latest.gids, DistLab.load new.shards gid := by
    rw [ExtraKept, ← card_gids] at hkept
    rw [Finset.sum_congr rfl fun gid hgid => hsettled.load gid (hsub hgid)]
    refine (heven.sum_le hsub).trans ?_
    rw [Fintype.card_fin]
    exact le_sum_share hsub hkept
  have hfew : moved latest.shards new.shards ≤ (Finset.univ.filter fun s => new.shards s ∉ latest.gids).card := by
    refine Finset.card_le_card fun s hs => ?_
    simp only [Finset.mem_filter, Finset.mem_univ, true_and] at hs ⊢
    exact hmoved s hs
  have hmany := h.le_moved (mem_gids.not.mpr hsettled.real) heven.mem
  have hout := card_outside new.shards latest.gids
  have hout' := card_outside shards latest.gids
  omega

/-- Otherwise a group that was there could keep a shard that goes to a group that has
come. -/
theorem Config.Settled.join_extraKept (h : latest.Settled) (hreal : (0 : Int) ∉ servers.keys)
    (hnew : latest.join servers = some new) (hfew : latest.Fewest new) : latest.ExtraKept new := by
  obtain ⟨hsettled, hkeys, -⟩ := h.join hreal hnew
  have hsub : latest.gids ⊆ new.gids := fun gid hgid => (hkeys gid).mpr (Or.inl hgid)
  by_contra hnot
  simp only [ExtraKept, ← card_gids, not_or, not_forall, Nat.not_le, Nat.not_lt] at hnot
  obtain ⟨⟨heavy, hheavy, hcame, hfirst⟩, gid, hgid, hlast⟩ := hnot
  obtain ⟨light, hlight, hrank, hlost⟩ := exists_share_lt hsub hheavy hcame hfirst hgid hlast
  have hfull : DistLab.load new.shards heavy = nShards / new.gids.card + 1 := by
    rw [hsettled.load heavy hheavy, share, if_pos hfirst]
  have hleast : DistLab.load new.shards light = nShards / new.gids.card := by
    rw [hsettled.load light (hsub hlight), share, if_neg (Nat.not_lt.mpr hrank), Nat.add_zero]
  have hmem : ∀ s, latest.shards s ∈ latest.gids :=
    fun s => mem_gids.mpr (h.owned (List.ne_nil_of_mem (mem_gids.mp hlight)) s)
  obtain ⟨shards, heven, hless⟩ := hfew.even.exists_fewer hmem hcame (by rwa [Fintype.card_fin]) (hsub hlight) hlight
    (by rwa [Fintype.card_fin]) (by rwa [hleast, h.load light hlight])
  exact absurd (hfew.fewest shards heven) (Nat.not_le.mpr hless)

theorem join_leave_fewest (ops : List (CtrlOp Srv)) (hops : ∀ op ∈ ops, op.Regroups) (op : CtrlOp Srv)
    (hop : op.Regroups) (hw : op.isWrite = true) :
    ∃ configs latest new, ctrlConfigs ops = some configs ∧ configs.getLast? = some latest ∧
      ctrlConfigs (ops ++ [op]) = some (configs ++ [new]) ∧
      (new.groups.keys ≠ [] → (latest.Fewest new ↔ (∃ gids, op = .leave gids) ∨ latest.ExtraKept new)) := by
  obtain ⟨configs, latest, hc, hlast, hsettled, hnext⟩ := exists_settled hops
  obtain ⟨new, hnew, hc'⟩ := hnext op hw hop.inRange
  refine ⟨configs, latest, new, hc, hlast, hc', fun hne => ?_⟩
  cases op with
  | join servers =>
    constructor
    · intro hfew
      exact Or.inr (hsettled.join_extraKept hop hnew hfew)
    · intro hkept
      rcases hkept with ⟨gids, hleave⟩ | hkept
      · cases hleave
      · exact hsettled.join_fewest hop hnew hne hkept
  | leave gids => exact iff_of_true (hsettled.leave_fewest hnew hne) (Or.inl ⟨gids, rfl⟩)
  | move shard gid => exact hop.elim
  | query num => cases hw

theorem join_leave_fewest_behind :
    let groups (gids : List Int) : GoMap Int (List Nat) := gids.foldl (fun groups gid => groups.insert gid []) GoMap.empty
    ∃ configs latest new, ctrlConfigs [.join (groups [2, 3])] = some configs ∧ configs.getLast? = some latest ∧
      ctrlConfigs [.join (groups [2, 3]), .join (groups [4])] = some (configs ++ [new]) ∧
      new.groups.keys ≠ [] ∧ latest.ExtraKept new ∧ latest.Fewest new := by
  intro groups
  obtain ⟨configs, latest, new, hc, hlast, hc', hfew⟩ := join_leave_fewest [.join (groups [2, 3])] (by decide)
    (.join (groups [4])) (by decide) rfl
  have hcase : ∀ configs ∈ ctrlConfigs [.join (groups [2, 3])], ∀ latest ∈ configs.getLast?,
      ∀ configs' ∈ ctrlConfigs [.join (groups [2, 3]), .join (groups [4])], ∀ new ∈ configs'.getLast?,
        new.groups.keys ≠ [] ∧ latest.ExtraKept new := by decide +kernel
  obtain ⟨hne, hkept⟩ := hcase configs hc latest hlast _ hc' new (by simp)
  exact ⟨configs, latest, new, hc, hlast, hc', hne, hkept, (hfew hne).mpr (Or.inr hkept)⟩

/-- The group that comes has the smallest gid and gets one shard more than both that
were there, which then give up two each; one of them could keep that shard. -/
theorem join_moves_more :
    let groups (gids : List Int) : GoMap Int (List Nat) := gids.foldl (fun groups gid => groups.insert gid []) GoMap.empty
    let better (s : ShardId) : Int := if s.val < 4 then 2 else if s.val ∈ [5, 6, 7] then 3 else 1
    ∃ configs ∈ ctrlConfigs [.join (groups [2, 3])], ∃ latest ∈ configs.getLast?,
      ∃ configs' ∈ ctrlConfigs [.join (groups [2, 3]), .join (groups [1])], ∃ new ∈ configs'.getLast?,
        moved latest.shards new.shards = 4 ∧ EvenOn better new.gids ∧ moved latest.shards better = 3 := by
  decide +kernel

end

end DistLab
