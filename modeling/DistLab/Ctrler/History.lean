import DistLab.Ctrler.Applier
import DistLab.Ctrler.Balance
import DistLab.Lib.Firsts
import DistLab.Service.GroupSound

/-!
# The history of configurations

Every `Join`, `Leave` and `Move` that is executed appends one configuration with
the next number. The table of last replies lets the first command with a number
through and no other, if the numbers of a client first come in order; so the
history is that of the first occurrences.
-/

namespace DistLab

section
variable {Srv : Type} {op : CtrlOp Srv} {configs : List (Config Srv)} {latest : Config Srv}

/-! ## One operation -/

def CtrlOp.InRange : CtrlOp Srv → Prop
  | .join _ => True
  | .leave _ => True
  | .move shard _ => 0 ≤ shard ∧ shard < nShards
  | .query num => -1 ≤ num

instance (op : CtrlOp Srv) : Decidable op.InRange :=
  match op with
  | .join _ => isTrue trivial
  | .leave _ => isTrue trivial
  | .move _ _ => inferInstanceAs (Decidable (_ ∧ _))
  | .query _ => inferInstanceAs (Decidable (_ ≤ _))

def CtrlOp.makes (latest : Config Srv) : CtrlOp Srv → Option (Config Srv)
  | .join servers => latest.join servers
  | .leave gids => latest.leave gids
  | .move shard gid => latest.move shard gid
  | .query _ => none

theorem CtrlOp.apply_write (hw : op.isWrite = true) (hlast : configs.getLast? = some latest) :
    op.apply configs = (op.makes latest).map fun new => (configs ++ [new], Config.zero) := by
  cases op with
  | join servers => simp only [apply, makes, hlast, Option.bind_eq_bind, Option.bind_some, Option.map_eq_bind]; rfl
  | leave gids => simp only [apply, makes, hlast, Option.bind_eq_bind, Option.bind_some, Option.map_eq_bind]; rfl
  | move shard gid => simp only [apply, makes, hlast, Option.bind_eq_bind, Option.bind_some, Option.map_eq_bind]; rfl
  | query num => cases hw

theorem CtrlOp.makes_num {new : Config Srv} (h : op.makes latest = some new) : new.num = latest.num + 1 := by
  have rebalanced : ∀ cfg : Config Srv, cfg.rebalance = some new → new.num = cfg.num := by
    intro cfg hcfg
    obtain ⟨shards, hreb, -⟩ := cfg.rebalance_spec
    rw [hreb] at hcfg
    cases hcfg
    rfl
  cases op with
  | join servers => exact rebalanced _ h
  | leave gids => exact rebalanced _ h
  | move shard gid =>
    simp only [makes, Config.move] at h
    split at h
    · cases h; rfl
    · cases h
  | query num => cases h

theorem CtrlOp.makes_some (hw : op.isWrite = true) (hr : op.InRange) (latest : Config Srv) :
    ∃ new, op.makes latest = some new := by
  cases op with
  | join servers =>
    obtain ⟨shards, hreb, -⟩ := Config.rebalance_spec
      { latest.clone with groups := servers.entries.foldl (fun groups e => groups.insert e.1 e.2) latest.groups }
    exact ⟨_, hreb⟩
  | leave gids =>
    obtain ⟨shards, hreb, -⟩ := Config.rebalance_spec
      { latest.clone with
        groups := gids.foldl GoMap.delete latest.groups
        shards := fun s => if latest.shards s ∈ gids then 0 else latest.shards s }
    exact ⟨_, hreb⟩
  | move shard gid =>
    obtain ⟨hpos, hlt⟩ : 0 ≤ shard ∧ shard < nShards := hr
    have hlt : 0 ≤ shard ∧ shard.toNat < nShards := ⟨hpos, by omega⟩
    exact ⟨_, dif_pos hlt⟩
  | query num => cases hw

/-- An operation that does not panic leaves the list alone, or appends what it
makes from the latest configuration. -/
theorem CtrlOp.apply_cases {configs' : List (Config Srv)} {cfg : Config Srv} (h : op.apply configs = some (configs', cfg)) :
    configs' = configs ∨ ∃ latest new, configs.getLast? = some latest ∧ op.makes latest = some new ∧
      configs' = configs ++ [new] := by
  cases hw : op.isWrite with
  | false =>
    left
    cases op with
    | query num =>
      simp only [apply, Option.bind_eq_bind] at h
      split at h
      · obtain ⟨_, -, h⟩ := Option.bind_eq_some_iff.mp h
        cases h
        rfl
      · split at h
        · obtain ⟨_, -, h⟩ := Option.bind_eq_some_iff.mp h
          cases h
          rfl
        · cases h
    | _ => cases hw
  | true =>
    right
    cases hlast : configs.getLast? with
    | none =>
      cases op with
      | query num => cases hw
      | _ => simp [apply, hlast] at h
    | some latest =>
      rw [apply_write hw hlast, Option.map_eq_some_iff] at h
      obtain ⟨new, hnew, h⟩ := h
      cases h
      exact ⟨latest, new, rfl, hnew, rfl⟩

theorem CtrlOp.apply_query (hw : op.isWrite = false) (hr : op.InRange) (hlast : configs.getLast? = some latest) :
    ∃ cfg, op.apply configs = some (configs, cfg) := by
  cases op with
  | query num =>
    have hr : -1 ≤ num := hr
    simp only [apply]
    split
    · exact ⟨latest, by simp [hlast]⟩
    · rename_i hn
      rw [not_or, Int.not_le] at hn
      have hlt : num.toNat < configs.length := by omega
      rw [if_pos (by omega), List.getElem?_eq_getElem hlt]
      exact ⟨_, rfl⟩
  | _ => cases hw

theorem CtrlOp.query_eq {n : Nat} {cfg : Config Srv} (hn : configs[n]? = some cfg) :
    (CtrlOp.query n).apply configs = some (configs, cfg) := by
  obtain ⟨hlt, -⟩ := List.getElem?_eq_some_iff.mp hn
  simp only [apply]
  rw [if_neg (by omega), if_pos (by omega), Int.toNat_natCast, hn]
  rfl

/-! ## Numbers -/

structure Counted (configs : List (Config Srv)) : Prop where
  ne_nil : configs ≠ []
  num : ∀ (k : Nat) (cfg : Config Srv), configs[k]? = some cfg → cfg.num = k

theorem counted_init : Counted [(Config.zero : Config Srv)] where
  ne_nil := List.cons_ne_nil _ _
  num k cfg h := by
    rw [List.getElem?_singleton] at h
    split at h
    · rename_i hk
      cases h
      exact hk.symm
    · cases h

theorem Counted.exists_latest (h : Counted configs) :
    ∃ latest, configs.getLast? = some latest ∧ latest.num + 1 = configs.length := by
  have hpos := List.length_pos_of_ne_nil h.ne_nil
  refine ⟨configs.getLast h.ne_nil, List.getLast?_eq_some_getLast h.ne_nil, ?_⟩
  rw [h.num (configs.length - 1) _ (by rw [← List.getLast?_eq_getElem?, List.getLast?_eq_some_getLast h.ne_nil])]
  omega

theorem Counted.snoc (h : Counted configs) {new : Config Srv} (hnew : new.num = configs.length) :
    Counted (configs ++ [new]) where
  ne_nil := by simp
  num k cfg hk := by
    rcases getElem?_snoc_cases hk with ⟨-, hk⟩ | ⟨rfl, rfl⟩
    · exact h.num k cfg hk
    · exact hnew

theorem Counted.write (h : Counted configs) (hw : op.isWrite = true) (hr : op.InRange) :
    ∃ new, op.apply configs = some (configs ++ [new], Config.zero) ∧ Counted (configs ++ [new]) := by
  obtain ⟨latest, hlast, hlen⟩ := h.exists_latest
  obtain ⟨new, hnew⟩ := op.makes_some hw hr latest
  refine ⟨new, by rw [CtrlOp.apply_write hw hlast, hnew, Option.map_some], h.snoc ?_⟩
  rw [CtrlOp.makes_num hnew, hlen]

theorem Counted.makes (h : Counted configs) {new : Config Srv} (hlast : configs.getLast? = some latest)
    (hnew : op.makes latest = some new) : Counted (configs ++ [new]) := by
  obtain ⟨latest', hlast', hlen⟩ := h.exists_latest
  rw [hlast'] at hlast
  cases hlast
  exact h.snoc (by rw [CtrlOp.makes_num hnew, hlen])

theorem Counted.apply (h : Counted configs) {configs' : List (Config Srv)} {cfg : Config Srv}
    (happ : op.apply configs = some (configs', cfg)) : Counted configs' := by
  rcases CtrlOp.apply_cases happ with rfl | ⟨latest, new, hlast, hnew, rfl⟩
  · exact h
  · exact h.makes hlast hnew

theorem Counted.isSome_apply (h : Counted configs) (op : CtrlOp Srv) : (op.apply configs).isSome = true ↔ op.InRange := by
  obtain ⟨latest, hlast, -⟩ := h.exists_latest
  constructor
  · intro hsome
    cases op with
    | join servers => trivial
    | leave gids => trivial
    | move shard gid =>
      by_contra hr
      have hnone : latest.move shard gid = none := dif_neg fun h => hr ⟨h.1, by omega⟩
      simp [CtrlOp.apply, hlast, hnone] at hsome
    | query num =>
      by_contra hr
      have hlt : num < -1 := Int.not_le.mp hr
      rw [CtrlOp.apply, if_neg (by omega), if_neg (by omega)] at hsome
      cases hsome
  · intro hr
    cases hw : op.isWrite with
    | false =>
      obtain ⟨cfg, happ⟩ := CtrlOp.apply_query hw hr hlast
      rw [happ]
      rfl
    | true =>
      obtain ⟨new, happ, -⟩ := h.write hw hr
      rw [happ]
      rfl

theorem ctrlConfigs_snoc (ops : List (CtrlOp Srv)) (op : CtrlOp Srv) :
    ctrlConfigs (ops ++ [op]) = (ctrlConfigs ops).bind fun configs => (op.apply configs).map Prod.fst := by
  simp [ctrlConfigs]

/-- Induction along a history: an operation leaves the list alone, or appends what
it makes from the latest configuration. -/
theorem ctrlConfigs_induction {P : List (CtrlOp Srv) → List (Config Srv) → Prop} (h0 : P [] [Config.zero])
    (hsame : ∀ ops op configs, P ops configs → P (ops ++ [op]) configs)
    (hnew : ∀ ops op configs latest new, ctrlConfigs ops = some configs → configs.getLast? = some latest →
      CtrlOp.makes latest op = some new → P ops configs → P (ops ++ [op]) (configs ++ [new]))
    {ops : List (CtrlOp Srv)} (h : ctrlConfigs ops = some configs) : P ops configs := by
  induction ops using List.reverseRecOn generalizing configs with
  | nil =>
    cases h
    exact h0
  | append_singleton ops op ih =>
    rw [ctrlConfigs_snoc, Option.bind_eq_some_iff] at h
    obtain ⟨old, hold, h⟩ := h
    obtain ⟨⟨_, cfg⟩, happ, rfl⟩ := Option.map_eq_some_iff.mp h
    rcases CtrlOp.apply_cases happ with rfl | ⟨latest, new, hlast, hmakes, rfl⟩
    · exact hsame ops op _ (ih hold)
    · exact hnew ops op old latest new hold hlast hmakes (ih hold)

theorem counted_ctrlConfigs {ops : List (CtrlOp Srv)} (h : ctrlConfigs ops = some configs) : Counted configs := by
  refine ctrlConfigs_induction (P := fun _ => Counted) counted_init (fun _ _ _ h => h) ?_ h
  intro ops op configs latest new _ hlast hnew hcounted
  exact hcounted.makes hlast hnew

theorem exists_ctrlConfigs {ops : List (CtrlOp Srv)} (h : ∀ op ∈ ops, op.InRange) :
    ∃ configs, ctrlConfigs ops = some configs := by
  induction ops using List.reverseRecOn with
  | nil => exact ⟨_, rfl⟩
  | append_singleton ops op ih =>
    obtain ⟨configs, hc⟩ := ih fun o ho => h o (List.mem_append_left _ ho)
    have hsome := ((counted_ctrlConfigs hc).isSome_apply op).mpr (h op (by simp))
    obtain ⟨next, happ⟩ := Option.isSome_iff_exists.mp hsome
    exact ⟨next.1, by rw [ctrlConfigs_snoc, hc, Option.bind_some, happ, Option.map_some]⟩

/-! ## The applier -/

def firstWrites (log : List (CtrlCmd Srv)) : List (CtrlCmd Srv) :=
  firsts CtrlCmd.ident (log.filter fun cmd => cmd.op.isWrite)

def InOrder (log : List (CtrlCmd Srv)) : Prop :=
  (firstWrites log).Pairwise fun a b => a.clientId = b.clientId → a.seqId < b.seqId

variable {log : List (CtrlCmd Srv)} {cmd : CtrlCmd Srv} {sc : ShardCtrler Srv}

theorem firstWrites_query (hw : cmd.op.isWrite = false) : firstWrites (log ++ [cmd]) = firstWrites log := by
  simp [firstWrites, hw]

theorem filter_write (hw : cmd.op.isWrite = true) :
    (log ++ [cmd]).filter (fun cmd => cmd.op.isWrite) = log.filter (fun cmd => cmd.op.isWrite) ++ [cmd] := by
  simp [hw]

theorem firstWrites_le (log more : List (CtrlCmd Srv)) : firstWrites log <+: firstWrites (log ++ more) := by
  rw [firstWrites, firstWrites, List.filter_append]
  exact firsts_le_append ..

structure ShardCtrler.Knows (log : List (CtrlCmd Srv)) (sc : ShardCtrler Srv) : Prop where
  configs : ctrlConfigs ((firstWrites log).map CtrlCmd.op) = some sc.configs
  counted : Counted sc.configs
  unknown : ∀ c, sc.dupTable c = none → ∀ w ∈ firstWrites log, w.clientId ≠ c
  last : ∀ c l, sc.dupTable c = some l → (c, l.seqId) ∈ (firstWrites log).map CtrlCmd.ident ∧
    ∀ w ∈ firstWrites log, w.clientId = c → w.seqId ≤ l.seqId

theorem ShardCtrler.knows_init : (ShardCtrler.init : ShardCtrler Srv).Knows [] where
  configs := rfl
  counted := counted_init
  unknown _ _ w hw := by cases hw
  last _ _ h := by cases h

/-- The table lets a command through exactly if its number is new. -/
theorem ShardCtrler.Knows.fresh_iff (h : sc.Knows log) (hw : cmd.op.isWrite = true) (hord : InOrder (log ++ [cmd])) :
    sc.duplicate cmd = none ↔ cmd.ident ∉ (firstWrites log).map CtrlCmd.ident := by
  simp only [duplicate, hw, if_true]
  cases hl : sc.dupTable cmd.clientId with
  | none =>
    simp only [true_iff]
    intro hmem
    obtain ⟨w, hmem, hid⟩ := List.mem_map.mp hmem
    exact h.unknown _ hl w hmem (congrArg Prod.fst hid)
  | some l =>
    obtain ⟨hseen, hmax⟩ := h.last _ l hl
    by_cases hle : cmd.seqId ≤ l.seqId
    · simp only [hle, if_true, reduceCtorEq, false_iff, not_not]
      -- a new number that is not larger would come out of order
      by_contra hnew
      obtain ⟨w, hmem, hid⟩ := List.mem_map.mp hseen
      have hlt : w.clientId = cmd.clientId → w.seqId < cmd.seqId := by
        rw [InOrder, firstWrites, filter_write hw, firsts_snoc_of_not_mem _ hnew, List.pairwise_append] at hord
        exact hord.2.2 w hmem cmd (List.mem_singleton_self _)
      have := hlt (congrArg Prod.fst hid)
      have hseq : w.seqId = l.seqId := congrArg Prod.snd hid
      omega
    · simp only [hle, if_false, true_iff]
      intro hmem
      obtain ⟨w, hmem, hid⟩ := List.mem_map.mp hmem
      have hseq : w.seqId = cmd.seqId := congrArg Prod.snd hid
      have := hmax w hmem (congrArg Prod.fst hid)
      omega

theorem ShardCtrler.Knows.same {log' : List (CtrlCmd Srv)} (h : sc.Knows log) (heq : firstWrites log' = firstWrites log) :
    sc.Knows log' where
  configs := by rw [heq]; exact h.configs
  counted := h.counted
  unknown := by rw [heq]; exact h.unknown
  last := by rw [heq]; exact h.last

theorem ShardCtrler.Knows.query (h : sc.Knows log) (hw : cmd.op.isWrite = false) (hr : cmd.op.InRange) :
    (∃ reply, sc.apply cmd = some (sc, reply)) ∧ sc.Knows (log ++ [cmd]) := by
  constructor
  · obtain ⟨latest, hlast, -⟩ := h.counted.exists_latest
    obtain ⟨cfg, hq⟩ := CtrlOp.apply_query hw hr hlast
    exact ⟨⟨.ok, cfg⟩, by simp [apply, duplicate, hw, execute, hq]⟩
  · exact h.same (firstWrites_query hw)

theorem ShardCtrler.Knows.repeated (h : sc.Knows log) (hw : cmd.op.isWrite = true)
    (hseen : cmd.ident ∈ (firstWrites log).map CtrlCmd.ident) : sc.Knows (log ++ [cmd]) := by
  refine h.same ?_
  rw [firstWrites, filter_write hw]
  exact firsts_snoc_of_mem _ hseen

theorem ShardCtrler.Knows.write (h : sc.Knows log) (hw : cmd.op.isWrite = true) (hr : cmd.op.InRange)
    (hord : InOrder (log ++ [cmd])) (hnew : cmd.ident ∉ (firstWrites log).map CtrlCmd.ident) :
    ∃ sc' reply, sc.apply cmd = some (sc', reply) ∧ sc'.Knows (log ++ [cmd]) ∧ sc.configs <+: sc'.configs := by
  obtain ⟨new, happ, hcounted⟩ := h.counted.write hw hr
  have heq : firstWrites (log ++ [cmd]) = firstWrites log ++ [cmd] := by
    rw [firstWrites, filter_write hw]
    exact firsts_snoc_of_not_mem _ hnew
  have hsorted : ∀ w ∈ firstWrites log, w.clientId = cmd.clientId → w.seqId < cmd.seqId := by
    rw [InOrder, heq, List.pairwise_append] at hord
    exact fun w hw => hord.2.2 w hw cmd (List.mem_singleton_self _)
  refine ⟨⟨sc.configs ++ [new], Function.update sc.dupTable cmd.clientId (some ⟨cmd.seqId, ⟨.ok, Config.zero⟩⟩)⟩,
    ⟨.ok, Config.zero⟩, ?_, ⟨?_, hcounted, fun c hc w hmem => ?_, fun c l hc => ?_⟩, List.prefix_append _ _⟩
  · simp [apply, (h.fresh_iff hw hord).mpr hnew, execute, happ, hw]
  · rw [heq, List.map_append, List.map_singleton, ctrlConfigs_snoc, h.configs, Option.bind_some, happ, Option.map_some]
  · by_cases hcc : c = cmd.clientId
    · subst hcc
      simp only [Function.update_self] at hc
      cases hc
    · simp only [Function.update_of_ne hcc] at hc
      rw [heq] at hmem
      rcases List.mem_append.mp hmem with hmem | hmem
      · exact h.unknown c hc w hmem
      · rw [List.mem_singleton.mp hmem]
        exact Ne.symm hcc
  · rw [heq, List.map_append]
    by_cases hcc : c = cmd.clientId
    · subst hcc
      simp only [Function.update_self] at hc
      cases hc
      refine ⟨List.mem_append_right _ (List.mem_singleton_self _), fun w hmem hwc => ?_⟩
      rcases List.mem_append.mp hmem with hmem | hmem
      · exact (hsorted w hmem hwc).le
      · rw [List.mem_singleton.mp hmem]
    · simp only [Function.update_of_ne hcc] at hc
      obtain ⟨hseen, hmax⟩ := h.last c l hc
      refine ⟨List.mem_append_left _ hseen, fun w hmem hwc => ?_⟩
      rcases List.mem_append.mp hmem with hmem | hmem
      · exact hmax w hmem hwc
      · rw [List.mem_singleton.mp hmem] at hwc
        exact absurd hwc.symm hcc

theorem ShardCtrler.Knows.step (h : sc.Knows log) (hr : cmd.op.InRange) (hord : InOrder (log ++ [cmd])) :
    ∃ sc' reply, sc.apply cmd = some (sc', reply) ∧ sc'.Knows (log ++ [cmd]) ∧ sc.configs <+: sc'.configs := by
  cases hw : cmd.op.isWrite with
  | false =>
    obtain ⟨⟨reply, happ⟩, hknows⟩ := h.query hw hr
    exact ⟨sc, reply, happ, hknows, List.prefix_rfl⟩
  | true =>
    by_cases hseen : cmd.ident ∈ (firstWrites log).map CtrlCmd.ident
    · cases hd : sc.duplicate cmd with
      | none => exact absurd hseen ((h.fresh_iff hw hord).mp hd)
      | some reply => exact ⟨sc, reply, by simp only [apply, hd], h.repeated hw hseen, List.prefix_rfl⟩
    · exact h.write hw hr hord hseen

theorem InOrder.init {more : List (CtrlCmd Srv)} (h : InOrder (log ++ more)) : InOrder log :=
  List.Pairwise.sublist (firstWrites_le log more).sublist h

theorem ctrlReplay_append_singleton (log : List (CtrlCmd Srv)) (cmd : CtrlCmd Srv) :
    ctrlReplay (log ++ [cmd]) = (ctrlReplay log).bind fun sc => (sc.apply cmd).map Prod.fst := by
  rw [ctrlReplay, ctrlReplay, Machine.replay_snoc]
  cases hsc : (ctrlMachine Srv).replay log with
  | none => rfl
  | some sc => cases happ : sc.apply cmd <;> simp [ctrlMachine, happ]

theorem ctrlReplay_snoc {sc' : ShardCtrler Srv} {reply : CtrlReply Srv} (h : ctrlReplay log = some sc)
    (happ : sc.apply cmd = some (sc', reply)) : ctrlReplay (log ++ [cmd]) = some sc' := by
  rw [ctrlReplay_append_singleton, h, Option.bind_some, happ, Option.map_some]

theorem knows_replay (hr : ∀ cmd ∈ log, cmd.op.InRange) (hord : InOrder log) :
    ∃ sc, ctrlReplay log = some sc ∧ sc.Knows log := by
  induction log using List.reverseRecOn with
  | nil => exact ⟨ShardCtrler.init, rfl, ShardCtrler.knows_init⟩
  | append_singleton log cmd ih =>
    obtain ⟨sc, hsc, hknows⟩ := ih (fun c hc => hr c (List.mem_append_left _ hc)) hord.init
    obtain ⟨sc', reply, happ, hknows', -⟩ := hknows.step (hr cmd (by simp)) hord
    exact ⟨sc', ctrlReplay_snoc hsc happ, hknows'⟩

theorem configs_grow {more : List (CtrlCmd Srv)} (hr : ∀ cmd ∈ log ++ more, cmd.op.InRange) (hord : InOrder (log ++ more))
    (hsc : ctrlReplay log = some sc) (hknows : sc.Knows log) :
    ∃ sc', ctrlReplay (log ++ more) = some sc' ∧ sc.configs <+: sc'.configs := by
  induction more generalizing log sc with
  | nil => exact ⟨sc, by rw [List.append_nil]; exact hsc, List.prefix_rfl⟩
  | cons cmd more ih =>
    rw [← List.singleton_append, ← List.append_assoc] at hr hord ⊢
    obtain ⟨sc₁, reply, happ, hknows₁, hle⟩ := hknows.step (hr cmd (by simp)) hord.init
    obtain ⟨sc', hsc', hle'⟩ := ih hr hord (ctrlReplay_snoc hsc happ) hknows₁
    exact ⟨sc', hsc', hle.trans hle'⟩

end

/-! ## Every replica -/

/-- Every replica is the log up to some index, replayed. At every index the list
of configurations is that of the first occurrences so far, numbered from 0; later
ones only add to it; and a `Query` leaves it alone and gets the same answer at
every later index. -/
theorem ctrler_history {Srv : Type} (r : Run (Group.step (ctrlMachine Srv) false) (Group.init (ctrlMachine Srv))) (K : Nat)
    (hr : ∀ cmd ∈ (r.state K).log, cmd.op.InRange) (hord : InOrder (r.state K).log) :
    (∀ q, ((r.state K).replica q).state = ctrlReplay ((r.state K).log.take ((r.state K).replica q).applied)) ∧
    ∀ p p', p ≤ p' → ∃ sc sc', ctrlReplay ((r.state K).log.take p) = some sc ∧
      ctrlReplay ((r.state K).log.take p') = some sc' ∧ sc.configs <+: sc'.configs ∧
      (∀ (k : Nat) (cfg : Config Srv), sc.configs[k]? = some cfg → cfg.num = k) ∧
      ctrlConfigs ((firstWrites ((r.state K).log.take p)).map CtrlCmd.op) = some sc.configs ∧
      (∀ cmd : CtrlCmd Srv, cmd.op.isWrite = false → cmd.op.InRange → ∃ reply, sc.apply cmd = some (sc, reply)) ∧
      ∀ (n : Nat) (cfg : Config Srv), sc.configs[n]? = some cfg → ∀ c s : Int,
        sc.apply ⟨c, s, .query n⟩ = some (sc, ⟨.ok, cfg⟩) ∧ sc'.apply ⟨c, s, .query n⟩ = some (sc', ⟨.ok, cfg⟩) := by
  constructor
  · intro q
    exact ((Group.fed_run r (fun g a h => h.harmless a) K).replica q).state
  · intro p p' hle
    generalize (r.state K).log = log at hr hord
    obtain ⟨more, hmore⟩ : log.take p <+: log.take p' := List.take_prefix_take_left hle
    obtain ⟨rest, hrest⟩ := List.take_prefix p' log
    have hin : ∀ cmd ∈ log.take p ++ more, cmd.op.InRange := by
      rw [hmore]
      exact fun cmd hcmd => hr cmd (List.mem_of_mem_take hcmd)
    have hord' : InOrder (log.take p ++ more) := by
      rw [← hrest, ← hmore] at hord
      exact hord.init
    obtain ⟨sc, hsc, hknows⟩ := knows_replay (fun cmd hcmd => hin cmd (List.mem_append_left _ hcmd)) hord'.init
    obtain ⟨sc', hsc', hgrow⟩ := configs_grow hin hord' hsc hknows
    rw [hmore] at hsc'
    refine ⟨sc, sc', hsc, hsc', hgrow, hknows.counted.num, hknows.configs, fun cmd hw hq => (hknows.query hw hq).1,
      fun n cfg hn c s => ?_⟩
    have hn' : sc'.configs[n]? = some cfg := by
      obtain ⟨more, hmore⟩ := hgrow
      rw [← hmore, List.getElem?_append_left (List.getElem?_eq_some_iff.mp hn).1]
      exact hn
    have query : ∀ sc : ShardCtrler Srv, sc.configs[n]? = some cfg →
        sc.apply ⟨c, s, .query n⟩ = some (sc, ⟨.ok, cfg⟩) := by
      intro sc hn
      simp [ShardCtrler.apply, ShardCtrler.duplicate, CtrlOp.isWrite, ShardCtrler.execute, CtrlOp.query_eq hn]
    exact ⟨query sc hn, query sc' hn'⟩

/-- Client 7 repeats its `Join`, moves shard 3 to a group that nobody has joined,
and client 8 asks for configuration 1. -/
def retriedJoinActs (servers : List Nat) : List (ServiceAct (CtrlCmd Nat)) :=
  [.submit 0 ⟨7, 1, .join (GoMap.empty.insert 1 servers)⟩ 1, .submit 1 ⟨7, 1, .join (GoMap.empty.insert 1 servers)⟩ 2,
   .submit 0 ⟨7, 2, .move 3 5⟩ 3, .submit 0 ⟨8, 1, .query 1⟩ 4,
   .inner (.commit 0), .inner (.commit 1), .inner (.commit 2), .inner (.commit 3),
   .inner (.collect 0 4), .inner (.apply 0 false), .inner (.apply 0 false), .inner (.apply 0 false)]

theorem retriedJoin_exec :
    (exec (Group.step (ctrlMachine Nat) false) (Group.init (ctrlMachine Nat)) (retriedJoinActs [0])).isSome = true := by
  decide +kernel

def retriedJoin : Run (Group.step (ctrlMachine Nat) false) (Group.init (ctrlMachine Nat)) :=
  Run.ofList (retriedJoinActs [0]) (Option.some_get retriedJoin_exec).symm

theorem retriedJoin_history : ((retriedJoin.state 12).replica 0).applied = 3 ∧
    ((retriedJoin.state 12).replica 0).state = ctrlReplay ((retriedJoin.state 12).log.take 3) ∧
    ∃ sc sc', ctrlReplay ((retriedJoin.state 12).log.take 1) = some sc ∧
      ctrlReplay ((retriedJoin.state 12).log.take 3) = some sc' ∧ sc.configs <+: sc'.configs := by
  have happlied : ((retriedJoin.state 12).replica 0).applied = 3 := by decide +kernel
  obtain ⟨hrep, hlog⟩ := ctrler_history retriedJoin 12 (by decide +kernel) (by unfold InOrder; decide +kernel)
  have hrep := hrep 0
  rw [happlied] at hrep
  obtain ⟨sc, sc', hsc, hsc', hle, -⟩ := hlog 1 3 (by decide)
  exact ⟨happlied, hrep, sc, sc', hsc, hsc', hle⟩

end DistLab
