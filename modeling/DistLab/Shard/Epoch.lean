import DistLab.Shard.Server
import Mathlib.Data.List.Induction

/-!
# What a group's log says about its shards

The state of a shard is told by which commands have taken effect in the current
configuration: the group has installed it, collected it, or finished with it.
These facts stay true when the log grows. `Placed` is the invariant; it holds of
every log whose commands came from the group's own goroutines.
-/

namespace DistLab

def DupTable.Covers (dup : DupTable) (c s : Nat) : Prop := TableCovers DupEntry.seqId dup c s

/-! ## Effects of the commands -/

namespace ShardKv

variable {gid : Int} {kv : ShardKv} {i : ShardId}

theorem collectShard_idem (s : Shard) : collectShard (collectShard s) = collectShard s := by
  obtain ⟨state, m⟩ := s
  cases state <;> rfl

theorem collectShard_ne (s : Shard) : (collectShard s).state ≠ .bePulling := by
  obtain ⟨state, m⟩ := s
  cases state <;> exact fun h => by cases h

theorem collectShard_kv {s : Shard} (h : s.state ≠ .bePulling) : (collectShard s).kv = s.kv := by
  obtain ⟨state, m⟩ := s
  cases state with
  | bePulling => exact absurd rfl h
  | _ => rfl

theorem applyGC_eq (kv : ShardKv) (c : Nat) (ids : List ShardId) :
    kv.applyGC c ids =
      { kv with shards := fun i => if kv.config.num = c ∧ i ∈ ids then collectShard (kv.shards i) else kv.shards i } := by
  induction ids generalizing kv with
  | nil => simp [applyGC]
  | cons j ids ih =>
    have hstep : kv.applyGC c (j :: ids) =
        (if kv.config.num = c then kv.setShard j (collectShard (kv.shards j)) else kv).applyGC c ids := rfl
    rw [hstep, ih]
    by_cases hc : kv.config.num = c
    · simp only [hc, if_true, true_and, setShard, List.mem_cons, mk.injEq, and_true]
      funext i
      by_cases hi : i = j
      · subst hi
        by_cases hm : i ∈ ids <;> simp [hm, collectShard_idem]
      · simp [hi]
    · simp [hc]

@[simp] theorem applyGC_config (kv : ShardKv) (c : Nat) (ids : List ShardId) : (kv.applyGC c ids).config = kv.config := by
  rw [applyGC_eq]

@[simp] theorem applyGC_lastConfig (kv : ShardKv) (c : Nat) (ids : List ShardId) :
    (kv.applyGC c ids).lastConfig = kv.lastConfig := by
  rw [applyGC_eq]

@[simp] theorem applyGC_dupTable (kv : ShardKv) (c : Nat) (ids : List ShardId) :
    (kv.applyGC c ids).dupTable = kv.dupTable := by
  rw [applyGC_eq]

theorem applyGC_shards (kv : ShardKv) (c : Nat) (ids : List ShardId) (i : ShardId) :
    (kv.applyGC c ids).shards i = if kv.config.num = c ∧ i ∈ ids then collectShard (kv.shards i) else kv.shards i := by
  rw [applyGC_eq]

@[simp] theorem reassign_kv (gid : Int) (last next : Config Nat) (i : ShardId) (s : Shard) :
    (reassign gid last next i s).kv = s.kv := by
  simp only [reassign]
  split
  · split <;> rfl
  · split <;> rfl

inductive Client (gid : Int) (kv : ShardKv) (c s : Nat) (op : KvInput) : ShardKv × KvReply → Prop
  | refused : ¬ kv.Accepts gid (key2shard op.key) → Client gid kv c s op (kv, ⟨.errWrongGroup, []⟩)
  | repeated {r : KvReply} : kv.Accepts gid (key2shard op.key) → op.opType ≠ .get → kv.duplicate c s = some r →
      Client gid kv c s op (kv, r)
  | written : kv.Accepts gid (key2shard op.key) → op.opType ≠ .get → kv.duplicate c s = none →
      Client gid kv c s op
        ({ (kv.applyKVOp op).1 with
          dupTable := Function.update kv.dupTable c (some ⟨s, (kv.applyKVOp op).2⟩) }, (kv.applyKVOp op).2)
  | read : kv.Accepts gid (key2shard op.key) → op.opType = .get → Client gid kv c s op (kv, (kv.applyKVOp op).2)

theorem applyKVOp_get {op : KvInput} (hop : op.opType = .get) : (kv.applyKVOp op).1 = kv := by
  have hm : ((kv.shards (key2shard op.key)).kv.applyOp op).1 = (kv.shards (key2shard op.key)).kv := by
    simp only [Store.applyOp, hop]
    cases (kv.shards (key2shard op.key)).kv op.key <;> rfl
  simp only [applyKVOp, setShard, hm, Function.update_eq_self]

theorem applyClient_cases (gid : Int) (kv : ShardKv) (c s : Nat) (op : KvInput) :
    Client gid kv c s op (kv.applyClient gid c s op) := by
  unfold applyClient
  by_cases ha : kv.Accepts gid (key2shard op.key)
  · rw [if_neg (not_not.mpr ha)]
    by_cases hg : op.opType = .get
    · rw [if_neg (not_not.mpr hg), show kv.applyKVOp op = (kv, (kv.applyKVOp op).2) from
        Prod.ext (applyKVOp_get hg) rfl]
      exact .read ha hg
    · rw [if_pos hg]
      cases hd : kv.duplicate c s with
      | some r => exact .repeated ha hg hd
      | none => exact .written ha hg hd
  · rw [if_pos ha]
    exact .refused ha

@[simp] theorem applyClient_config (kv : ShardKv) (c s : Nat) (op : KvInput) :
    (kv.applyClient gid c s op).1.config = kv.config := by
  have h := applyClient_cases gid kv c s op
  generalize kv.applyClient gid c s op = p at h
  cases h <;> rfl

@[simp] theorem applyClient_lastConfig (kv : ShardKv) (c s : Nat) (op : KvInput) :
    (kv.applyClient gid c s op).1.lastConfig = kv.lastConfig := by
  have h := applyClient_cases gid kv c s op
  generalize kv.applyClient gid c s op = p at h
  cases h <;> rfl

theorem applyClient_shards (gid : Int) (kv : ShardKv) (c s : Nat) (op : KvInput) (i : ShardId) :
    (kv.applyClient gid c s op).1.shards i = kv.shards i ∨ kv.Accepts gid i ∧
      i = key2shard op.key ∧ (kv.applyClient gid c s op).1.shards i =
        { kv.shards i with kv := ((kv.shards i).kv.applyOp op).1 } := by
  have h := applyClient_cases gid kv c s op
  generalize kv.applyClient gid c s op = p at h
  cases h with
  | refused _ => exact Or.inl rfl
  | repeated _ _ _ => exact Or.inl rfl
  | read _ _ => exact Or.inl rfl
  | written ha _ _ =>
    by_cases hi : i = key2shard op.key
    · subst hi
      exact Or.inr ⟨ha, rfl, Function.update_self ..⟩
    · exact Or.inl (Function.update_of_ne hi ..)

theorem num_le_apply (kv : ShardKv) (op : ShardOp) : kv.config.num ≤ (kv.apply gid op).1.config.num := by
  obtain ⟨id, cmd⟩ := op
  cases cmd with
  | kv c s op => simp [apply]
  | config cfg =>
    simp only [apply, applyConfig]
    split
    · exact le_refl _
    · rename_i h
      show kv.config.num ≤ cfg.num
      omega
  | install c shards dup =>
    simp only [apply, applyInstall]
    split <;> exact le_refl _
  | gc c ids => simp [apply]

theorem num_apply_le (kv : ShardKv) (op : ShardOp) : (kv.apply gid op).1.config.num ≤ kv.config.num + 1 := by
  obtain ⟨id, cmd⟩ := op
  cases cmd with
  | kv c s op => simp [apply]
  | config cfg =>
    simp only [apply, applyConfig]
    split
    · exact Nat.le_succ _
    · rename_i h
      exact (not_not.mp h).le
  | install c shards dup =>
    simp only [apply, applyInstall]
    split <;> exact Nat.le_succ _
  | gc c ids => simp [apply]

/-! ## The table of the last writes -/

theorem duplicate_eq_none {c s : Nat} : kv.duplicate c s = none ↔ ¬ kv.dupTable.Covers c s := by
  unfold duplicate DupTable.Covers TableCovers
  cases kv.dupTable c with
  | none => simp
  | some last => simp

theorem covers_mergeEntry {own other : Option DupEntry} {s : Nat}
    (h : (∃ e, own = some e ∧ s ≤ e.seqId) ∨ ∃ e, other = some e ∧ s ≤ e.seqId) :
    ∃ e, mergeEntry own other = some e ∧ s ≤ e.seqId := by
  cases other with
  | none => exact h.resolve_right fun ⟨_, he, _⟩ => by cases he
  | some o =>
    cases own with
    | none => exact h.resolve_left fun ⟨_, he, _⟩ => by cases he
    | some e =>
      simp only [mergeEntry]
      split
      · refine ⟨o, rfl, ?_⟩
        rcases h with ⟨_, ⟨⟩, h⟩ | ⟨_, ⟨⟩, h⟩ <;> omega
      · refine ⟨e, rfl, ?_⟩
        rcases h with ⟨_, ⟨⟩, h⟩ | ⟨_, ⟨⟩, h⟩ <;> omega

theorem mergeEntry_eq_some {own other : Option DupEntry} {e : DupEntry} (h : mergeEntry own other = some e) :
    own = some e ∨ other = some e := by
  cases other with
  | none => exact Or.inl h
  | some o =>
    cases own with
    | none => exact Or.inr h
    | some e' =>
      simp only [mergeEntry] at h
      split at h
      · exact Or.inr h
      · exact Or.inl h

theorem covers_apply (gid : Int) (kv : ShardKv) (op : ShardOp) {c s : Nat} (h : kv.dupTable.Covers c s) :
    (kv.apply gid op).1.dupTable.Covers c s := by
  obtain ⟨id, cmd⟩ := op
  cases cmd with
  | kv c' s' op =>
    have hcl := applyClient_cases gid kv c' s' op
    simp only [apply]
    generalize kv.applyClient gid c' s' op = p at hcl
    cases hcl with
    | refused _ => exact h
    | repeated _ _ _ => exact h
    | read _ _ => exact h
    | written _ _ hd => exact TableCovers.update h (duplicate_eq_none.mp hd)
  | config cfg =>
    simp only [apply, applyConfig]
    split <;> exact h
  | install n shards dup =>
    simp only [apply, applyInstall]
    split
    · exact h
    · exact covers_mergeEntry (Or.inl h)
  | gc n ids => simpa [apply] using h

end ShardKv

/-! ## Ownership -/

section
variable (configs : Nat → Config Nat)

/-- The configuration with this number; a group starts with `Config{}`. -/
def configAt : Nat → Config Nat
  | 0 => Config.zero
  | n + 1 => configs (n + 1)

def owner (c : Nat) (i : ShardId) : Int := (configAt configs c).shards i

/-- The group gets the shard in configuration `c` from another one. -/
def Gains (gid : Int) (c : Nat) (i : ShardId) : Prop :=
  owner configs c i = gid ∧ owner configs (c - 1) i ≠ gid ∧ owner configs (c - 1) i ≠ 0

def Loses (gid : Int) (c : Nat) (i : ShardId) : Prop := owner configs c i ≠ gid ∧ owner configs (c - 1) i = gid

end

/-! ## Commands that take effect -/

abbrev replayed (gid : Int) (log : List ShardOp) : ShardKv := (shardMachine gid).replay log

def Enters (c : Nat) (op : ShardOp) (kv : ShardKv) : Prop :=
  ∃ cfg, op.cmd = .config cfg ∧ cfg.num = c ∧ kv.config.num + 1 = c

/-- An `OpInstall` for `c` that takes effect on the shard: it brings `m`, and
merges `dup`. -/
def Installs (c : Nat) (i : ShardId) (m : Store) (dup : DupTable) (op : ShardOp) (kv : ShardKv) : Prop :=
  ∃ shards, op.cmd = .install c shards dup ∧ shards i = some m ∧ kv.config.num = c ∧ (kv.shards i).state = .pulling

theorem install_same {kv : ShardKv} {op : ShardOp} {c : Nat} {i : ShardId} {shards : ShardId → Option Store}
    {dup : DupTable} (hcmd : op.cmd = .install c shards dup) (hnum : kv.config.num = c)
    (hno : ∀ m, ¬ Installs c i m dup op kv) : ShardKv.installShard (kv.shards i) (shards i) = kv.shards i := by
  unfold ShardKv.installShard
  split
  · rename_i m hm
    split
    · rename_i hst
      exact absurd ⟨shards, hcmd, hm, hnum, hst⟩ (hno m)
    · rfl
  · rfl

def Clears (state : ShardState) (c : Nat) (i : ShardId) (op : ShardOp) (kv : ShardKv) : Prop :=
  ∃ ids, op.cmd = .gc c ids ∧ i ∈ ids ∧ kv.config.num = c ∧ (kv.shards i).state = state

def Writes (gid : Int) (i : ShardId) (client s : Nat) (op : ShardOp) (kv : ShardKv) : Prop :=
  ∃ input, op.cmd = .kv client s input ∧ input.opType ≠ .get ∧ key2shard input.key = i ∧ kv.Accepts gid i ∧
    kv.duplicate client s = none

section
variable (gid : Int) (log : List ShardOp)

def Installed (c : Nat) (i : ShardId) : Prop := ∃ m dup, (shardMachine gid).Took log (Installs c i m dup)

/-- As the old owner: the shard's data is deleted. -/
def Collected (c : Nat) (i : ShardId) : Prop := (shardMachine gid).Took log (Clears .bePulling c i)

/-- As the new owner: the shard is no longer `GCing`. -/
def Finished (c : Nat) (i : ShardId) : Prop := (shardMachine gid).Took log (Clears .gcing c i)

/-- The shard's map where the log applied configuration `c`. -/
def FinalMap (c : Nat) (i : ShardId) (m : Store) : Prop :=
  (shardMachine gid).Took log fun op kv => Enters c op kv ∧ (kv.shards i).kv = m

def Settled (configs : Nat → Config Nat) (c : Nat) (i : ShardId) : Prop :=
  (Gains configs gid c i → Finished gid log c i) ∧ (Loses configs gid c i → Collected gid log c i)

end

section
variable {configs : Nat → Config Nat} {gid : Int} {log log' : List ShardOp} {op : ShardOp} {c : Nat} {i : ShardId}

theorem num_mono (hle : log <+: log') : (replayed gid log).config.num ≤ (replayed gid log').config.num :=
  (shardMachine gid).replay_keep (P := fun kv => (replayed gid log).config.num ≤ kv.config.num)
    (fun kv op h => h.trans (kv.num_le_apply op)) hle le_rfl

theorem Installed.mono (h : Installed gid log c i) (hle : log <+: log') : Installed gid log' c i := by
  obtain ⟨m, dup, h⟩ := h
  exact ⟨m, dup, Machine.Took.mono hle h⟩

theorem Collected.mono (h : Collected gid log c i) (hle : log <+: log') : Collected gid log' c i := Machine.Took.mono hle h

theorem Finished.mono (h : Finished gid log c i) (hle : log <+: log') : Finished gid log' c i := Machine.Took.mono hle h

theorem FinalMap.mono {m : Store} (h : FinalMap gid log c i m) (hle : log <+: log') : FinalMap gid log' c i m :=
  Machine.Took.mono hle h

theorem Settled.mono (h : Settled gid log configs c i) (hle : log <+: log') : Settled gid log' configs c i :=
  ⟨fun hg => (h.1 hg).mono hle, fun hl => (h.2 hl).mono hle⟩

theorem installed_snoc :
    Installed gid (log ++ [op]) c i ↔ Installed gid log c i ∨ ∃ m dup, Installs c i m dup op (replayed gid log) := by
  simp only [Installed, Machine.took_snoc, exists_or]

theorem collected_snoc :
    Collected gid (log ++ [op]) c i ↔ Collected gid log c i ∨ Clears .bePulling c i op (replayed gid log) :=
  (shardMachine gid).took_snoc

theorem finished_snoc :
    Finished gid (log ++ [op]) c i ↔ Finished gid log c i ∨ Clears .gcing c i op (replayed gid log) :=
  (shardMachine gid).took_snoc

theorem took_num_le {P : ShardOp → ShardKv → Prop} (hP : ∀ op kv, P op kv → kv.config.num = c)
    (h : (shardMachine gid).Took log P) : c ≤ (replayed gid log).config.num := by
  obtain ⟨p, op, -, h⟩ := h
  rw [← hP _ _ h]
  exact num_mono ( List.take_prefix p log)

theorem Installed.num_le (h : Installed gid log c i) : c ≤ (replayed gid log).config.num := by
  obtain ⟨m, dup, h⟩ := h
  exact took_num_le (fun _ _ ⟨_, _, _, hc, _⟩ => hc) h

theorem Collected.num_le (h : Collected gid log c i) : c ≤ (replayed gid log).config.num :=
  took_num_le (fun _ _ ⟨_, _, _, hc, _⟩ => hc) h

end

/-! ## The commands of the goroutines -/

section
variable (configs : Nat → Config Nat) (gid : Int) (log : List ShardOp)

/-- What the group knew when the command was started. -/
def Legit : ShardCmd → Prop
  | .kv _ _ _ => True
  | .config cfg => ∃ n, cfg = configs (n + 1) ∧ cfg.num = n + 1 ∧ n ≤ (replayed gid log).config.num ∧
      ∀ i, Settled gid log configs n i
  | .install c shards _ => c ≤ (replayed gid log).config.num ∧ ∀ i m, shards i = some m → Gains configs gid c i
  | .gc c ids => c ≤ (replayed gid log).config.num ∧
      ∀ i ∈ ids, Gains configs gid c i ∧ Installed gid log c i ∨ Loses configs gid c i

def Legal : Prop := ∀ p op, log[p]? = some op → Legit configs gid (log.take p) op.cmd

def ShardIs (c : Nat) (i : ShardId) (s : Shard) : Prop :=
  match s.state with
  | .serving => Settled gid log configs c i
  | .pulling => Gains configs gid c i ∧ ¬ Installed gid log c i
  | .gcing => Gains configs gid c i ∧ Installed gid log c i ∧ ¬ Finished gid log c i
  | .bePulling => Loses configs gid c i ∧ ¬ Collected gid log c i ∧ FinalMap gid log c i s.kv

structure Placed : Prop where
  config : (replayed gid log).config = configAt configs (replayed gid log).config.num
  lastConfig : (replayed gid log).lastConfig = configAt configs ((replayed gid log).config.num - 1)
  real : ∀ n < (replayed gid log).config.num, (configs (n + 1)).num = n + 1
  past : ∀ c i, c < (replayed gid log).config.num → Settled gid log configs c i
  finished : ∀ c i, Finished gid log c i → Installed gid log c i
  shard : ∀ i, ShardIs configs gid log (replayed gid log).config.num i ((replayed gid log).shards i)

end

section
variable {configs : Nat → Config Nat} {gid : Int} {log log' : List ShardOp} {op : ShardOp} {c : Nat} {i : ShardId}

theorem Legit.mono {cmd : ShardCmd} (h : Legit configs gid log cmd) (hle : log <+: log') : Legit configs gid log' cmd := by
  cases cmd with
  | kv c s op => trivial
  | config cfg =>
    obtain ⟨n, hcfg, hnum, hn, hs⟩ := h
    exact ⟨n, hcfg, hnum, hn.trans (num_mono hle), fun i => (hs i).mono hle⟩
  | install c shards dup => exact ⟨h.1.trans (num_mono hle), h.2⟩
  | gc c ids => exact ⟨h.1.trans (num_mono hle), fun i hi => (h.2 i hi).imp_left fun hg => ⟨hg.1, hg.2.mono hle⟩⟩

theorem Legal.take (h : Legal configs gid log) (n : Nat) : Legal configs gid (log.take n) := by
  intro p op hp
  rw [List.getElem?_take] at hp
  split at hp
  · rename_i hlt
    rw [List.take_take, min_eq_left hlt.le]
    exact h p op hp
  · cases hp

theorem Legal.snoc (h : Legal configs gid log) (hop : Legit configs gid log op.cmd) : Legal configs gid (log ++ [op]) := by
  intro p o hp
  rcases getElem?_snoc_cases hp with ⟨hlt, hp⟩ | ⟨rfl, rfl⟩
  · rw [List.take_append_of_le_length hlt.le]
    exact h p o hp
  · rw [List.take_left]
    exact hop

theorem Legal.init (h : Legal configs gid (log ++ [op])) : Legal configs gid log ∧ Legit configs gid log op.cmd := by
  constructor
  · have := h.take log.length
    rwa [List.take_left] at this
  · have := h log.length op (by simp)
    rwa [List.take_left] at this

theorem ShardIs.snoc {s : Shard} (h : ShardIs configs gid log c i s)
    (hi : ∀ m dup, ¬ Installs c i m dup op (replayed gid log)) (hc : ∀ st, ¬ Clears st c i op (replayed gid log)) :
    ShardIs configs gid (log ++ [op]) c i s := by
  have hle : log <+: log ++ [op] := List.prefix_append _ _
  have hinst : ¬ Installed gid log c i → ¬ Installed gid (log ++ [op]) c i := fun hn h =>
    (installed_snoc.mp h).elim hn fun ⟨m, dup, h⟩ => hi m dup h
  obtain ⟨state, m⟩ := s
  cases state with
  | serving => exact Settled.mono h hle
  | pulling => exact ⟨h.1, hinst h.2⟩
  | gcing => exact ⟨h.1, h.2.1.mono hle, fun hf => (finished_snoc.mp hf).elim h.2.2 (hc _)⟩
  | bePulling => exact ⟨h.1, fun hf => (collected_snoc.mp hf).elim h.2.1 (hc _), h.2.2.mono hle⟩

/-- Once nothing is left to do for the current configuration, every shard is
`Serving`. -/
theorem Placed.serving (h : Placed configs gid log) (hs : Settled gid log configs (replayed gid log).config.num i) :
    ((replayed gid log).shards i).state = .serving := by
  have hst := h.shard i
  unfold ShardIs at hst
  cases hstate : ((replayed gid log).shards i).state with
  | serving => rfl
  | pulling =>
    rw [hstate] at hst
    exact absurd (h.finished _ _ (hs.1 hst.1)) hst.2
  | gcing =>
    rw [hstate] at hst
    exact absurd (hs.1 hst.1) hst.2.2
  | bePulling =>
    rw [hstate] at hst
    exact absurd (hs.2 hst.1) hst.2.1

theorem Placed.settled (h : Placed configs gid log) (hs : ((replayed gid log).shards i).state = .serving)
    (hc : c ≤ (replayed gid log).config.num) : Settled gid log configs c i := by
  rcases Nat.lt_or_eq_of_le hc with hlt | rfl
  · exact h.past c i hlt
  · have hst := h.shard i
    unfold ShardIs at hst
    rwa [hs] at hst

/-! ## The invariant, command by command -/

theorem replayed_snoc : replayed gid (log ++ [op]) = ((replayed gid log).apply gid op).1 :=
  (shardMachine gid).replay_snoc log op

theorem replayed_succ {p : Nat} (h : log[p]? = some op) :
    replayed gid (log.take (p + 1)) = ((replayed gid (log.take p)).apply gid op).1 :=
  (shardMachine gid).replay_succ h

theorem placed_nil : Placed configs gid [] where
  config := rfl
  lastConfig := rfl
  real n hn := absurd hn (Nat.not_lt_zero n)
  past c _ hc := absurd hc (Nat.not_lt_zero c)
  finished _ _ h := absurd h (shardMachine gid).not_took_nil
  shard _ := ⟨fun h => absurd rfl h.2.2, fun h => absurd h.2 h.1⟩

theorem Placed.finished_snoc (h : Placed configs gid log) (hf : Finished gid (log ++ [op]) c i) :
    Installed gid (log ++ [op]) c i := by
  refine Installed.mono ?_ (List.prefix_append log [op])
  rcases DistLab.finished_snoc.mp hf with hf | ⟨ids, -, -, rfl, hst⟩
  · exact h.finished c i hf
  · have hs := h.shard i
    unfold ShardIs at hs
    rw [hst] at hs
    exact hs.2.1

theorem Placed.keep (h : Placed configs gid log)
    (hconfig : (replayed gid (log ++ [op])).config = (replayed gid log).config)
    (hlast : (replayed gid (log ++ [op])).lastConfig = (replayed gid log).lastConfig)
    (hshard : ∀ i, ShardIs configs gid (log ++ [op]) (replayed gid log).config.num i
      ((replayed gid (log ++ [op])).shards i)) : Placed configs gid (log ++ [op]) where
  config := by rw [hconfig]; exact h.config
  lastConfig := by rw [hconfig, hlast]; exact h.lastConfig
  real := by rw [hconfig]; exact h.real
  past c i hc := by
    rw [hconfig] at hc
    exact (h.past c i hc).mono (List.prefix_append _ _)
  finished _ _ hf := h.finished_snoc hf
  shard i := by rw [hconfig]; exact hshard i

theorem Placed.snoc_kv {id client s : Nat} {op : KvInput} (h : Placed configs gid log) :
    Placed configs gid (log ++ [⟨id, .kv client s op⟩]) := by
  refine h.keep ?_ ?_ fun i => ?_
  · rw [replayed_snoc]; exact ShardKv.applyClient_config ..
  · rw [replayed_snoc]; exact ShardKv.applyClient_lastConfig ..
  · have hs : ShardIs configs gid (log ++ [⟨id, .kv client s op⟩]) (replayed gid log).config.num i
        ((replayed gid log).shards i) :=
      (h.shard i).snoc (fun _ _ ⟨_, hcmd, _⟩ => by cases hcmd) (fun _ ⟨_, hcmd, _⟩ => by cases hcmd)
    rw [replayed_snoc]
    show ShardIs _ _ _ _ _ (((replayed gid log).applyClient gid client s op).1.shards i)
    rcases (replayed gid log).applyClient_shards gid client s op i with heq | ⟨ha, -, heq⟩
    · rw [heq]; exact hs
    · -- the map changes, but of a shard that is not `BePulling`
      rw [heq]
      unfold ShardIs at hs ⊢
      rcases ha.2 with hst | hst <;> simp only [hst] at hs ⊢ <;> exact hs

theorem Placed.snoc_install {id : Nat} {shards : ShardId → Option Store} {dup : DupTable} (h : Placed configs gid log) :
    Placed configs gid (log ++ [⟨id, .install c shards dup⟩]) := by
  have happ : replayed gid (log ++ [⟨id, .install c shards dup⟩]) = (replayed gid log).applyInstall c shards dup :=
    replayed_snoc
  unfold ShardKv.applyInstall at happ
  have hclear : ∀ {c' i st}, ¬ Clears st c' i ⟨id, .install c shards dup⟩ (replayed gid log) :=
    fun ⟨_, hcmd, _⟩ => by cases hcmd
  split at happ
  · rename_i hc
    refine h.keep (by rw [happ]) (by rw [happ]) fun i => ?_
    rw [happ]
    refine (h.shard i).snoc (fun m d hi => ?_) fun _ => hclear
    obtain ⟨_, hcmd, -, hnum, -⟩ := hi
    cases hcmd
    exact hc hnum.symm
  · rename_i hc
    have hc := (not_not.mp hc).symm
    refine h.keep (by rw [happ]) (by rw [happ]) fun i => ?_
    rw [happ]
    show ShardIs _ _ _ _ _ (ShardKv.installShard ((replayed gid log).shards i) (shards i))
    by_cases hin : ∃ m, Installs c i m dup ⟨id, .install c shards dup⟩ (replayed gid log)
    · obtain ⟨m, _, hcmd, hm, hnum, hst⟩ := hin
      cases hcmd
      have hs := h.shard i
      unfold ShardIs at hs
      rw [hst] at hs
      simp only [ShardKv.installShard, hm, hst, if_true]
      refine ⟨hs.1, installed_snoc.mpr (Or.inr ⟨m, dup, shards, by rw [hc], hm, rfl, hst⟩), fun hf => ?_⟩
      rcases DistLab.finished_snoc.mp hf with hf | hf
      · exact hs.2 (h.finished _ _ hf)
      · exact hclear hf
    · rw [install_same rfl hc (not_exists.mp hin)]
      refine (h.shard i).snoc (fun m d hi => hin ⟨m, ?_⟩) fun _ => hclear
      obtain ⟨_, hcmd, hm, -, hst⟩ := hi
      cases hcmd
      exact ⟨shards, rfl, hm, hc, hst⟩

theorem Placed.snoc_gc {id : Nat} {ids : List ShardId} (h : Placed configs gid log) :
    Placed configs gid (log ++ [⟨id, .gc c ids⟩]) := by
  have happ : replayed gid (log ++ [⟨id, .gc c ids⟩]) = (replayed gid log).applyGC c ids := replayed_snoc
  have hinst : ∀ {c' i m d}, ¬ Installs c' i m d ⟨id, .gc c ids⟩ (replayed gid log) :=
    fun ⟨_, hcmd, _⟩ => by cases hcmd
  refine h.keep (by rw [happ]; simp) (by rw [happ]; simp) fun i => ?_
  have hs := h.shard i
  rw [happ, ShardKv.applyGC_shards]
  split
  · rename_i hci
    obtain ⟨hc, hi⟩ := hci
    have hclears : ∀ {st}, ((replayed gid log).shards i).state = st →
        Clears st (replayed gid log).config.num i ⟨id, .gc c ids⟩ (replayed gid log) :=
      fun hst => ⟨ids, by rw [hc], hi, rfl, hst⟩
    unfold ShardIs at hs
    unfold ShardKv.collectShard
    cases hst : ((replayed gid log).shards i).state with
    | serving =>
      rw [hst] at hs
      simp only [ShardIs, hst]
      exact hs.mono (List.prefix_append _ _)
    | pulling =>
      rw [hst] at hs
      simp only [ShardIs, hst]
      exact ⟨hs.1, fun hi => (installed_snoc.mp hi).elim hs.2 fun ⟨_, _, hi⟩ => hinst hi⟩
    | gcing =>
      rw [hst] at hs
      simp only [ShardIs]
      exact ⟨fun _ => DistLab.finished_snoc.mpr (Or.inr (hclears hst)), fun hl => absurd hs.1.1 hl.1⟩
    | bePulling =>
      rw [hst] at hs
      simp only [ShardIs]
      exact ⟨fun hg => absurd hg.1 hs.1.1, fun _ => collected_snoc.mpr (Or.inr (hclears hst))⟩
  · rename_i hci
    refine hs.snoc (fun _ _ => hinst) fun st hcl => hci ?_
    obtain ⟨_, hcmd, hi, hnum, -⟩ := hcl
    cases hcmd
    exact ⟨rfl, hi⟩

theorem ShardIs.reassign (configs : Nat → Config Nat) {s : Shard} (hlt : (replayed gid log).config.num < c)
    (hs : s.state = .serving)
    (hfinal : FinalMap gid (log ++ [op]) c i s.kv) (hcmd : ∃ cfg, op.cmd = .config cfg) :
    ShardIs configs gid (log ++ [op]) c i
      (ShardKv.reassign gid (configAt configs (c - 1)) (configAt configs c) i s) := by
  obtain ⟨cfg, hcmd⟩ := hcmd
  have hinst : ¬ Installed gid (log ++ [op]) c i := by
    intro hi
    rcases installed_snoc.mp hi with hi | ⟨_, _, _, hcmd', _⟩
    · exact absurd hi.num_le (Nat.not_le_of_lt hlt)
    · rw [hcmd] at hcmd'; cases hcmd'
  have hcoll : ¬ Collected gid (log ++ [op]) c i := by
    intro hi
    rcases collected_snoc.mp hi with hi | ⟨_, hcmd', _⟩
    · exact absurd hi.num_le (Nat.not_le_of_lt hlt)
    · rw [hcmd] at hcmd'; cases hcmd'
  unfold ShardKv.reassign
  simp only
  split
  · rename_i hnow
    split
    · rename_i hzero
      exact ⟨fun hg => absurd hzero hg.2.2, fun hl => absurd hnow.1 hl.1⟩
    · rename_i hzero
      exact ⟨⟨hnow.1, hnow.2, hzero⟩, hinst⟩
  · rename_i hnow
    split
    · rename_i hwas
      exact ⟨hwas, hcoll, hfinal⟩
    · rename_i hwas
      unfold ShardIs
      rw [hs]
      exact ⟨fun hg => absurd ⟨hg.1, hg.2.1⟩ hnow, fun hl => absurd hl hwas⟩

theorem Placed.snoc_config {id : Nat} {cfg : Config Nat} (h : Placed configs gid log)
    (hop : Legit configs gid log (.config cfg)) : Placed configs gid (log ++ [⟨id, .config cfg⟩]) := by
  have happ : replayed gid (log ++ [⟨id, .config cfg⟩]) = (replayed gid log).applyConfig gid cfg := replayed_snoc
  obtain ⟨n, hcfg, hnum, -, hset⟩ := hop
  unfold ShardKv.applyConfig at happ
  split at happ
  · refine h.keep (by rw [happ]) (by rw [happ]) fun i => ?_
    rw [happ]
    exact (h.shard i).snoc (fun _ _ ⟨_, hcmd, _⟩ => by cases hcmd) (fun _ ⟨_, hcmd, _⟩ => by cases hcmd)
  · rename_i hnext
    have hnext := not_not.mp hnext
    have hn : n = (replayed gid log).config.num := by omega
    subst hn
    have hle : log <+: log ++ [⟨id, .config cfg⟩] := List.prefix_append _ _
    have hconfig : cfg = configAt configs cfg.num := by rw [hnum]; exact hcfg
    refine ⟨?_, ?_, fun n hn => ?_, fun c i hc => ?_, fun _ _ hf => h.finished_snoc hf, fun i => ?_⟩
    · rw [happ]; exact hconfig
    · rw [happ]
      show (replayed gid log).config = configAt configs (cfg.num - 1)
      rw [hnum, Nat.add_sub_cancel]
      exact h.config
    · rw [happ] at hn
      have hn : n < cfg.num := hn
      rcases Nat.lt_or_eq_of_le (show n ≤ (replayed gid log).config.num by omega) with hlt | rfl
      · exact h.real n hlt
      · rw [← hcfg]; exact hnum
    · rw [happ] at hc
      have hc : c ≤ (replayed gid log).config.num := by
        have : c < cfg.num := hc
        omega
      rcases Nat.lt_or_eq_of_le hc with hlt | rfl
      · exact (h.past c i hlt).mono hle
      · exact (hset i).mono hle
    · rw [happ]
      show ShardIs configs gid _ cfg.num i (ShardKv.reassign gid _ cfg i ((replayed gid log).shards i))
      have hlast : (replayed gid log).config = configAt configs (cfg.num - 1) := by
        rw [hnum, Nat.add_sub_cancel]; exact h.config
      have hfinal : FinalMap gid (log ++ [⟨id, .config cfg⟩]) cfg.num i ((replayed gid log).shards i).kv :=
        (shardMachine gid).took_snoc.mpr (Or.inr ⟨⟨cfg, rfl, rfl, hnext.symm⟩, rfl⟩)
      have hst := ShardIs.reassign configs (by omega) (h.serving (hset i)) hfinal ⟨cfg, rfl⟩
      rwa [← hlast, ← hconfig] at hst

theorem Legal.placed (h : Legal configs gid log) : Placed configs gid log := by
  induction log using List.reverseRecOn with
  | nil => exact placed_nil
  | append_singleton log op ih =>
    obtain ⟨hlog, hop⟩ := h.init
    have hp := ih hlog
    obtain ⟨id, cmd⟩ := op
    cases cmd with
    | kv client s op => exact hp.snoc_kv
    | config cfg => exact hp.snoc_config hop
    | install c shards dup => exact hp.snoc_install
    | gc c ids => exact hp.snoc_gc

/-! ## What follows for one group -/

theorem Placed.owner_eq (h : Placed configs gid log) :
    (replayed gid log).config.shards i = owner configs (replayed gid log).config.num i :=
  congrArg (fun cfg => cfg.shards i) h.config

theorem Placed.lastOwner_eq (h : Placed configs gid log) :
    (replayed gid log).lastConfig.shards i = owner configs ((replayed gid log).config.num - 1) i :=
  congrArg (fun cfg => cfg.shards i) h.lastConfig

theorem Placed.standing {st : ShardState} (h : Placed configs gid log) (hst : ((replayed gid log).shards i).state = st) :
    ShardIs configs gid log (replayed gid log).config.num i ⟨st, ((replayed gid log).shards i).kv⟩ := by
  rw [← hst]; exact h.shard i

/-- A group that accepts operations for a shard has installed it in every
configuration that gave it the shard. -/
theorem Placed.gained (h : Placed configs gid log) (ha : (replayed gid log).Accepts gid i) {d : Nat}
    (hd : d ≤ (replayed gid log).config.num) (hg : Gains configs gid d i) : Installed gid log d i := by
  rcases ha.2 with hst | hst
  · exact h.finished d i ((h.settled hst hd).1 hg)
  · rcases Nat.lt_or_eq_of_le hd with hlt | rfl
    · exact h.finished d i ((h.past d i hlt).1 hg)
    · exact (h.standing hst).2.1

theorem Legal.gains (h : Legal configs gid log) {m : Store} {dup : DupTable}
    (hi : (shardMachine gid).Took log (Installs c i m dup)) : Gains configs gid c i := by
  obtain ⟨p, op, -, _, -, -, rfl, hst⟩ := hi
  exact ((h.take p).placed.standing hst).1

/-- A group that lost a shard still has its map as it was, or has deleted it. -/
theorem Placed.lost (h : Placed configs gid log) (hl : Loses configs gid c i)
    (hc : c ≤ (replayed gid log).config.num) : Collected gid log c i ∨ (replayed gid log).config.num = c ∧
      ((replayed gid log).shards i).state = .bePulling ∧ FinalMap gid log c i ((replayed gid log).shards i).kv := by
  rcases Nat.lt_or_eq_of_le hc with hlt | rfl
  · exact Or.inl ((h.past c i hlt).2 hl)
  · cases hst : ((replayed gid log).shards i).state with
    | serving => exact Or.inl ((h.standing hst).2 hl)
    | pulling => exact absurd (h.standing hst).1.1 hl.1
    | gcing => exact absurd (h.standing hst).1.1 hl.1
    | bePulling => exact Or.inr ⟨rfl, rfl, (h.standing hst).2.2⟩

theorem installs_apply {kv : ShardKv} {m : Store} {dup : DupTable} (h : Installs c i m dup op kv) :
    (kv.apply gid op).1.config.num = c ∧ (kv.apply gid op).1.shards i = ⟨.gcing, m⟩ := by
  obtain ⟨shards, hcmd, hm, rfl, hst⟩ := h
  simp only [ShardKv.apply, hcmd, ShardKv.applyInstall, ne_eq, not_true_eq_false, if_false, hm, ShardKv.installShard, hst,
    if_true, and_self]

theorem installs_covers {kv : ShardKv} {m : Store} {dup : DupTable} (h : Installs c i m dup op kv) {client n : Nat}
    (hdup : dup.Covers client n) : (kv.apply gid op).1.dupTable.Covers client n := by
  obtain ⟨shards, hcmd, -, rfl, -⟩ := h
  simp only [ShardKv.apply, hcmd, ShardKv.applyInstall, ne_eq, not_true_eq_false, if_false]
  exact ShardKv.covers_mergeEntry (Or.inr hdup)

theorem enters_num (gid : Int) {kv : ShardKv} (h : Enters c op kv) : (kv.apply gid op).1.config.num = c := by
  obtain ⟨cfg, hcmd, rfl, hc⟩ := h
  simp only [ShardKv.apply, hcmd, ShardKv.applyConfig, hc, ne_eq, not_true_eq_false, if_false]

theorem FinalMap.num_le {m : Store} (h : FinalMap gid log c i m) : c ≤ (replayed gid log).config.num := by
  obtain ⟨p, op, hp, he, -⟩ := h
  rw [← enters_num gid he, ← replayed_succ hp]
  exact num_mono ( List.take_prefix _ _)

theorem covers_of_writes {p client s : Nat} (hp : log[p]? = some op)
    (hw : Writes gid i client s op (replayed gid (log.take p))) (hle : log.take (p + 1) <+: log') :
    (replayed gid log').dupTable.Covers client s := by
  refine (shardMachine gid).replay_keep (P := fun kv => kv.dupTable.Covers client s)
    (fun kv op h => kv.covers_apply gid op h) hle ?_
  obtain ⟨input, hcmd, hw, rfl, ha, hd⟩ := hw
  show (replayed gid (log.take (p + 1))).dupTable.Covers client s
  rw [replayed_succ hp]
  simp only [ShardKv.apply, hcmd]
  have hcl := ShardKv.applyClient_cases gid (replayed gid (log.take p)) client s input
  generalize (replayed gid (log.take p)).applyClient gid client s input = q at hcl
  cases hcl with
  | refused hn => exact absurd ha hn
  | repeated _ _ hs => rw [hd] at hs; cases hs
  | read _ hg => exact absurd hg hw
  | written _ _ _ => exact ⟨_, Function.update_self .., le_rfl⟩

/-- Once the group has lost the shard in configuration `c`, its table has every
write on the shard. -/
theorem Legal.covers (h : Legal configs gid log) (hl : Loses configs gid c i) (hnum : (replayed gid log).config.num ≤ c)
    {pre : List ShardOp} (hpre : pre <+: log) (hc : c ≤ (replayed gid pre).config.num) {client s : Nat}
    (hw : (shardMachine gid).Took log (Writes gid i client s)) : (replayed gid pre).dupTable.Covers client s := by
  obtain ⟨p, w, hp, hw⟩ := hw
  have hlt : (replayed gid (log.take p)).config.num < c := by
    refine Nat.lt_of_le_of_ne ((num_mono ( List.take_prefix p log)).trans hnum) fun heq => hl.1 ?_
    obtain ⟨_, -, -, -, ha, -⟩ := hw
    rw [← heq, ← ((h.take p).placed).owner_eq]
    exact ha.1
  refine covers_of_writes hp hw (List.prefix_of_prefix_length_le ( List.take_prefix _ _) hpre ?_)
  by_contra hlen
  -- otherwise the table is older than the write, and so is the configuration
  have hshort : pre <+: log.take p :=
    List.prefix_of_prefix_length_le hpre ( List.take_prefix _ _) (by
      obtain ⟨hp, -⟩ := List.getElem?_eq_some_iff.mp hp
      rw [List.length_take] at hlen ⊢
      omega)
  exact absurd (hc.trans (num_mono hshort)) (Nat.not_le_of_lt hlt)

theorem FinalMap.unique {m m' : Store} (h : FinalMap gid log c i m) (h' : FinalMap gid log c i m') : m = m' := by
  -- an entry after another one would find the configuration already there
  have hle : ∀ {p q : Nat} {o o' : ShardOp}, log[p]? = some o → Enters c o (replayed gid (log.take p)) →
      Enters c o' (replayed gid (log.take q)) → q ≤ p := by
    intro p q o o' hp he he'
    by_contra hlt
    have hnum := enters_num gid he
    rw [← replayed_succ hp] at hnum
    have hpre : log.take (p + 1) <+: log.take q := List.take_prefix_take_left (by omega)
    have : (replayed gid _).config.num ≤ (replayed gid _).config.num := num_mono hpre
    obtain ⟨_, _, _, hq⟩ := he'
    omega
  obtain ⟨p, o, hp, he, rfl⟩ := h
  obtain ⟨q, o', hq, he', rfl⟩ := h'
  rw [Nat.le_antisymm (hle hq he' he) (hle hp he he')]

end

end DistLab
