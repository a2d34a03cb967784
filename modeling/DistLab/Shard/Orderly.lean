import DistLab.Shard.Epoch

/-!
# The logs of all groups

A shard moves from one group to the next through commands in two logs. The new
owner installs it only after the old owner has reached the configuration, and
the old owner deletes it only after the new owner has installed it. So a group
that holds a shard comes after every earlier owner.
-/

namespace DistLab

section
variable (configs : Nat → Config Nat) (L : Int → List ShardOp)

/-! ## Orderly logs -/

def TableOf (src : Int) (c : Nat) (dup : DupTable) : Prop :=
  ∃ log, log <+: L src ∧ c ≤ (replayed src log).config.num ∧ dup = (replayed src log).dupTable

def OldMap (c : Nat) (i : ShardId) (m : Store) : Prop :=
  FinalMap (owner configs (c - 1) i) (L (owner configs (c - 1) i)) c i m

def Arrived (c : Nat) (i : ShardId) : Prop := Installed (owner configs c i) (L (owner configs c i)) c i

def Backed (gid : Int) : ShardCmd → Prop
  | .kv _ _ _ => True
  | .config _ => True
  | .install c shards dup => ∃ src, TableOf L src c dup ∧ ∀ i m, shards i = some m →
      owner configs (c - 1) i = src ∧ (OldMap configs L c i m ∨ Arrived configs L c i)
  | .gc c ids => ∀ i ∈ ids, Loses configs gid c i → Arrived configs L c i

/-- What the other groups' logs say of the configurations and states that the
command is about. -/
def Sourced (gid : Int) : ShardCmd → Prop
  | .kv _ _ _ => True
  | .config _ => True
  | .install c shards _ => ∀ i m, shards i = some m →
      c ≤ (replayed (owner configs (c - 1) i) (L (owner configs (c - 1) i))).config.num
  | .gc c ids => ∀ i ∈ ids, Loses configs gid c i → Arrived configs L c i

structure Lawful : Prop where
  legal : ∀ g, Legal configs g (L g)
  reached : ∀ g c i, Installed g (L g) c i →
    c ≤ (replayed (owner configs (c - 1) i) (L (owner configs (c - 1) i))).config.num
  collected : ∀ g c i, Collected g (L g) c i → Arrived configs L c i

structure Orderly : Prop extends Lawful configs L where
  installed : ∀ g c i m dup, (shardMachine g).Took (L g) (Installs c i m dup) →
    TableOf L (owner configs (c - 1) i) c dup ∧ OldMap configs L c i m

end

section
variable {configs : Nat → Config Nat} {L L' : Int → List ShardOp} {g g' : Int} {log : List ShardOp} {op : ShardOp}
  {c : Nat} {i : ShardId} {m : Store} {dup : DupTable}

theorem TableOf.mono (h : TableOf L g c dup) (hle : ∀ g, L g <+: L' g) : TableOf L' g c dup := by
  obtain ⟨log, hlog, hc, hdup⟩ := h
  exact ⟨log, hlog.trans (hle _), hc, hdup⟩

theorem OldMap.mono (h : OldMap configs L c i m) (hle : ∀ g, L g <+: L' g) : OldMap configs L' c i m :=
  FinalMap.mono h (hle _)

theorem Arrived.mono (h : Arrived configs L c i) (hle : ∀ g, L g <+: L' g) : Arrived configs L' c i :=
  Installed.mono h (hle _)

theorem Backed.mono {cmd : ShardCmd} (h : Backed configs L g cmd) (hle : ∀ g, L g <+: L' g) :
    Backed configs L' g cmd := by
  cases cmd with
  | kv c s op => trivial
  | config cfg => trivial
  | install c shards dup =>
    obtain ⟨src, htab, hmap⟩ := h
    exact ⟨src, htab.mono hle, fun i m hm => ⟨(hmap i m hm).1, (hmap i m hm).2.imp (·.mono hle) (·.mono hle)⟩⟩
  | gc c ids => exact fun i hi hl => (h i hi hl).mono hle

theorem Sourced.mono {cmd : ShardCmd} (h : Sourced configs L g cmd) (hle : ∀ g, L g <+: L' g) :
    Sourced configs L' g cmd := by
  cases cmd with
  | kv c s op => trivial
  | config cfg => trivial
  | install c shards dup => exact fun i m hm => (h i m hm).trans (num_mono (hle _))
  | gc c ids => exact fun i hi hl => (h i hi hl).mono hle

theorem TableOf.num_le (h : TableOf L g c dup) : c ≤ (replayed g (L g)).config.num := by
  obtain ⟨log, hlog, hc, -⟩ := h
  exact hc.trans (num_mono hlog)

theorem Backed.sourced {cmd : ShardCmd} (h : Backed configs L g cmd) : Sourced configs L g cmd := by
  cases cmd with
  | kv c s op => trivial
  | config cfg => trivial
  | install c shards dup =>
    obtain ⟨src, htab, hmap⟩ := h
    intro i m hm
    rw [(hmap i m hm).1]
    exact htab.num_le
  | gc c ids => exact h

def push (L : Int → List ShardOp) (g : Int) (op : ShardOp) : Int → List ShardOp := Function.update L g (L g ++ [op])

@[simp] theorem push_self : push L g op g = L g ++ [op] := Function.update_self ..

theorem push_of_ne (h : g' ≠ g) : push L g op g' = L g' := Function.update_of_ne h ..

theorem le_push (L : Int → List ShardOp) (g : Int) (op : ShardOp) (g' : Int) : L g' <+: push L g op g' := by
  by_cases h : g' = g
  · subst h; rw [push_self]; exact List.prefix_append _ _
  · rw [push_of_ne h]

theorem of_le_push {log : List ShardOp} (h : log <+: push L g op g') : log <+: L g' ∨ g' = g ∧ log = L g ++ [op] := by
  by_cases hg : g' = g
  · subst hg
    rw [push_self] at h
    exact (List.prefix_concat_iff.mp h).symm.imp_right fun h => ⟨rfl, h⟩
  · rw [push_of_ne hg] at h
    exact Or.inl h

theorem took_push {P : ShardOp → ShardKv → Prop} (h : (shardMachine g').Took (push L g op g') P) :
    (shardMachine g').Took (L g') P ∨ g' = g ∧ P op (replayed g (L g)) := by
  by_cases hg : g' = g
  · subst hg
    rw [push_self] at h
    exact ((shardMachine g').took_snoc.mp h).imp_right fun h => ⟨rfl, h⟩
  · rw [push_of_ne hg] at h
    exact Or.inl h

namespace Lawful

theorem nil : Lawful configs fun _ => [] where
  legal _ _ _ h := by cases h
  reached g _ _ := fun ⟨_, _, h⟩ => absurd h (shardMachine g).not_took_nil
  collected g _ _ h := absurd h (shardMachine g).not_took_nil

theorem placed (h : Lawful configs L) (g : Int) : Placed configs g (L g) := (h.legal g).placed

theorem push (h : Lawful configs L) (hl : Legit configs g (L g) op.cmd) (hb : Sourced configs L g op.cmd) :
    Lawful configs (push L g op) where
  legal g' := by
    by_cases hg : g' = g
    · subst hg; rw [push_self]; exact (h.legal g').snoc hl
    · rw [push_of_ne hg]; exact h.legal g'
  reached g' c i hi := by
    refine le_trans ?_ (num_mono (le_push L g op _))
    obtain ⟨m, dup, hi⟩ := hi
    rcases took_push hi with hi | ⟨rfl, shards, hcmd, hm, -, -⟩
    · exact h.reached g' c i ⟨m, dup, hi⟩
    · rw [hcmd] at hb
      exact hb i m hm
  collected g' c i hc := by
    refine Arrived.mono ?_ (le_push L g op)
    rcases took_push hc with hc | ⟨rfl, ids, hcmd, hi, rfl, hst⟩
    · exact h.collected g' c i hc
    · rw [hcmd] at hb
      exact hb i hi ((h.placed g').standing hst).1

theorem gains (h : Lawful configs L) (hi : Installed g (L g) c i) : Gains configs g c i := by
  obtain ⟨m, dup, hi⟩ := hi
  exact (h.legal g).gains hi

/-- As long as the shard has not arrived, the old owner keeps it as it was. -/
theorem kept (h : Lawful configs L) (hl : Loses configs g c i) (hc : c ≤ (replayed g (L g)).config.num)
    (harr : ¬ Arrived configs L c i) : (replayed g (L g)).config.num = c ∧
      ((replayed g (L g)).shards i).state = .bePulling ∧ FinalMap g (L g) c i ((replayed g (L g)).shards i).kv :=
  ((h.placed g).lost hl hc).resolve_left fun hcol => harr (h.collected g c i hcol)

end Lawful

namespace Orderly

theorem nil : Orderly configs fun _ => [] where
  toLawful := .nil
  installed g _ _ _ _ h := absurd h (shardMachine g).not_took_nil

theorem push (h : Orderly configs L) (hl : Legit configs g (L g) op.cmd) (hb : Backed configs L g op.cmd) :
    Orderly configs (push L g op) where
  toLawful := h.toLawful.push hl hb.sourced
  installed g' c i m dup hi := by
    have hle := le_push L g op
    rcases took_push hi with hi | ⟨rfl, shards, hcmd, hm, rfl, hst⟩
    · exact ⟨(h.installed g' c i m dup hi).1.mono hle, (h.installed g' c i m dup hi).2.mono hle⟩
    · rw [hcmd] at hb
      obtain ⟨src, htab, hmap⟩ := hb
      obtain ⟨rfl, hold⟩ := hmap i m hm
      -- a shard that is still `Pulling` has not arrived
      have hpull := (h.placed g').standing hst
      refine ⟨htab.mono hle, (hold.resolve_right fun harr => hpull.2 ?_).mono hle⟩
      rw [Arrived, hpull.1.1] at harr
      exact harr

theorem arrived_map (h : Orderly configs L) (hl : Loses configs g c i) (harr : Arrived configs L c i)
    (hm : FinalMap g (L g) c i m) : ∃ log, log <+: L (owner configs c i) ∧
      (replayed (owner configs c i) log).config.num = c ∧ (replayed (owner configs c i) log).shards i = ⟨.gcing, m⟩ := by
  obtain ⟨m', dup, hin⟩ := harr
  have hold := (h.installed _ c i m' dup hin).2
  rw [OldMap, hl.2] at hold
  rw [hm.unique hold]
  obtain ⟨p, op, hp, hop⟩ := hin
  refine ⟨(L (owner configs c i)).take (p + 1), List.take_prefix _ _, ?_, ?_⟩
  · rw [replayed_succ hp]
    exact (installs_apply hop).1
  · rw [replayed_succ hp]
    exact (installs_apply hop).2

theorem carries (h : Orderly configs L) (hb : Backed configs L g op.cmd) (hop : Installs c i m dup op (replayed g (L g))) :
    OldMap configs L c i m ∧ ∀ client s, (shardMachine (owner configs (c - 1) i)).Took (L (owner configs (c - 1) i))
      (Writes (owner configs (c - 1) i) i client s) → dup.Covers client s := by
  obtain ⟨shards, hcmd, hm, rfl, hst⟩ := hop
  obtain ⟨hgain, hnot⟩ := (h.placed g).standing hst
  -- the shard is still `Pulling`, so it has not arrived
  have harr : ¬ Arrived configs L (replayed g (L g)).config.num i := by
    rw [Arrived, hgain.1]; exact hnot
  rw [hcmd] at hb
  obtain ⟨src, ⟨log, hpre, hc, rfl⟩, hmap⟩ := hb
  obtain ⟨rfl, hold⟩ := hmap i m hm
  refine ⟨hold.resolve_right harr, fun client s hw => ?_⟩
  have hloses : Loses configs (owner configs ((replayed g (L g)).config.num - 1) i) (replayed g (L g)).config.num i :=
    ⟨by rw [hgain.1]; exact Ne.symm hgain.2.1, rfl⟩
  exact (h.legal _).covers hloses (h.kept hloses (hc.trans (num_mono hpre)) harr).1.le hpre hc hw

end Orderly

/-! ## Who holds a shard -/

/-- The group began to hold the shard in configuration `n`: it installed it, or
nobody had it before. -/
def Holds (configs : Nat → Config Nat) (L : Int → List ShardOp) (g : Int) (n : Nat) (i : ShardId) : Prop :=
  owner configs n i = g ∧
    (Installed g (L g) n i ∨ owner configs (n - 1) i = 0 ∧ n ≤ (replayed g (L g)).config.num)

/-- Whoever serves a shard without pulling it is its first owner. -/
def Virgin (configs : Nat → Config Nat) (L : Int → List ShardOp) : Prop :=
  ∀ n i, owner configs n i ≠ 0 → owner configs (n - 1) i = 0 →
    n ≤ (replayed (owner configs n i) (L (owner configs n i))).config.num → ∀ j < n, owner configs j i = 0

/-- A group that owns a shard, and has installed it wherever it had to, began to
hold it in some configuration and owns it since. -/
theorem tenure (hg : g ≠ 0) {n : Nat} (hn : owner configs n i = g) (hle : n ≤ (replayed g (L g)).config.num)
    (hin : ∀ d ≤ n, Gains configs g d i → Installed g (L g) d i) :
    ∃ b ≤ n, Holds configs L g b i ∧ ∀ j, b ≤ j → j ≤ n → owner configs j i = g := by
  induction n with
  | zero => exact absurd hn.symm hg
  | succ n ih =>
    have single : ∀ j, n + 1 ≤ j → j ≤ n + 1 → owner configs j i = g := fun j h₁ h₂ => by
      rw [Nat.le_antisymm h₂ h₁]; exact hn
    by_cases hsame : owner configs n i = g
    · obtain ⟨b, hb, hh, ho⟩ := ih hsame (by omega) fun d hd => hin d (by omega)
      refine ⟨b, by omega, hh, fun j h₁ h₂ => ?_⟩
      rcases Nat.lt_or_eq_of_le h₂ with hlt | rfl
      · exact ho j h₁ (by omega)
      · exact hn
    · by_cases hzero : owner configs n i = 0
      · exact ⟨n + 1, le_rfl, ⟨hn, Or.inr ⟨hzero, hle⟩⟩, single⟩
      · exact ⟨n + 1, le_rfl, ⟨hn, Or.inl (hin _ le_rfl ⟨hn, hsame, hzero⟩)⟩, single⟩

theorem Holds.mono (h : Holds configs L g c i) (hle : L g <+: L' g) : Holds configs L' g c i :=
  ⟨h.1, h.2.imp (·.mono hle) fun hd => ⟨hd.1, hd.2.trans (num_mono hle)⟩⟩

theorem Legal.held (h : Legal configs g log) (hg : g ≠ 0) (i : ShardId) :
    ((replayed g log).shards i).kv = Store.empty ∨ ∃ b, Holds configs (fun _ => log) g b i := by
  induction log using List.reverseRecOn with
  | nil => exact Or.inl rfl
  | append_singleton log op ih =>
    obtain ⟨hlog, hop⟩ := h.init
    -- a command that keeps the map or empties it
    have keep : ∀ {m : Store}, m = ((replayed g log).shards i).kv ∨ m = Store.empty →
        m = Store.empty ∨ ∃ b, Holds configs (fun _ => log ++ [op]) g b i := by
      rintro m (rfl | rfl)
      · exact (ih hlog).imp_right fun ⟨b, hb⟩ => ⟨b, hb.mono (List.prefix_append _ _)⟩
      · exact Or.inl rfl
    rw [replayed_snoc]
    obtain ⟨id, cmd⟩ := op
    cases cmd with
    | kv client s input =>
      show ((((replayed g log).applyClient g client s input).1.shards i).kv) = _ ∨ _
      rcases (replayed g log).applyClient_shards g client s input i with heq | ⟨ha, -, -⟩
      · exact keep (Or.inl (by rw [heq]))
      · right
        obtain ⟨b, -, hb, -⟩ := tenure (L := fun _ => log) hg (hlog.placed.owner_eq.symm.trans ha.1) le_rfl
          fun _ hd hgain => hlog.placed.gained ha hd hgain
        exact ⟨b, hb.mono (List.prefix_append _ _)⟩
    | config cfg =>
      refine keep (Or.inl ?_)
      simp only [ShardKv.apply, ShardKv.applyConfig]
      split
      · rfl
      · exact ShardKv.reassign_kv ..
    | install n shards dup =>
      by_cases hin : ∃ m, Installs n i m dup ⟨id, .install n shards dup⟩ (replayed g log)
      · right
        obtain ⟨m, hin⟩ := hin
        have htook : (shardMachine g).Took (log ++ [⟨id, .install n shards dup⟩]) (Installs n i m dup) :=
          (shardMachine g).took_snoc.mpr (Or.inr hin)
        exact ⟨n, (h.gains htook).1, Or.inl ⟨m, dup, htook⟩⟩
      · refine keep (Or.inl ?_)
        simp only [ShardKv.apply, ShardKv.applyInstall]
        split
        · rfl
        · rename_i hnum
          exact congrArg Shard.kv (install_same rfl (not_not.mp hnum).symm (not_exists.mp hin))
    | gc n ids =>
      refine keep ?_
      simp only [ShardKv.apply, ShardKv.applyGC_shards, ShardKv.collectShard]
      split
      · split
        · exact Or.inr rfl
        · exact Or.inl rfl
        · exact Or.inl rfl
      · exact Or.inl rfl

namespace Lawful

/-- Every earlier owner is past the configurations in which it owned the shard. -/
theorem passed (h : Lawful configs L) (hv : Virgin configs L) {n : Nat} (hg : g ≠ 0) (hh : Holds configs L g n i) :
    ∀ j < n, owner configs j i ≠ 0 → j < (replayed (owner configs j i) (L (owner configs j i))).config.num := by
  -- along the chain of owners, by the configuration in which the last one began
  induction n using Nat.strong_induction_on generalizing g with
  | _ n ih =>
    intro j hj hne
    obtain ⟨hown, hin | ⟨hzero, hle⟩⟩ := hh
    · have hgain := h.gains hin
      have hnum := h.reached _ _ _ hin
      obtain ⟨b, hb, hh, ho⟩ := tenure hgain.2.2 rfl (by omega) fun d hd hg =>
        (h.placed _).finished d i (((h.placed _).past d i (by omega)).1 hg)
      by_cases hjb : b ≤ j
      · rw [ho j hjb (by omega)]
        omega
      · exact ih b (by omega) hgain.2.2 hh j (by omega) hne
    · subst hown
      exact absurd (hv n i hg hzero hle j hj) hne

theorem accepts_tenure (h : Lawful configs L) (hg : g ≠ 0) (ha : (replayed g (L g)).Accepts g i) :
    ∃ b ≤ (replayed g (L g)).config.num, Holds configs L g b i ∧
      ∀ j, b ≤ j → j ≤ (replayed g (L g)).config.num → owner configs j i = g :=
  tenure hg ((h.placed g).owner_eq.symm.trans ha.1) le_rfl fun _ hd hgain => (h.placed g).gained ha hd hgain

theorem later (h : Lawful configs L) (hv : Virgin configs L) {b b' : Nat} (hg : g ≠ 0) (hg' : g' ≠ 0)
    (ho : ∀ j, b ≤ j → j ≤ (replayed g (L g)).config.num → owner configs j i = g)
    (hle : b ≤ (replayed g (L g)).config.num) (hh' : Holds configs L g' b' i) (hlt : b < b') : g = g' := by
  by_cases hin : b' ≤ (replayed g (L g)).config.num
  · rw [← ho b' hlt.le hin, hh'.1]
  · have hown := ho _ hle le_rfl
    have := h.passed hv hg' hh' _ (Nat.lt_of_not_le hin) (by rw [hown]; exact hg)
    rw [hown] at this
    exact absurd this (Nat.lt_irrefl _)

theorem exclusive (h : Lawful configs L) (hv : Virgin configs L) (hg : g ≠ 0) (hg' : g' ≠ 0)
    (ha : (replayed g (L g)).Accepts g i) (ha' : (replayed g' (L g')).Accepts g' i) : g = g' := by
  obtain ⟨b, hb, hh, ho⟩ := h.accepts_tenure hg ha
  obtain ⟨b', hb', hh', ho'⟩ := h.accepts_tenure hg' ha'
  rcases Nat.lt_trichotomy b b' with hlt | rfl | hlt
  · exact h.later hv hg hg' ho hb hh' hlt
  · rw [← hh.1, hh'.1]
  · exact (h.later hv hg' hg ho' hb' hh hlt).symm

/-- When every configuration assigns every shard, only configuration 1 finds a
shard without an owner. -/
theorem virgin (h : Lawful configs L)
    (hreal : ∀ n, 1 ≤ n → (configs n).num = n → ∀ i, (configs n).shards i ≠ 0) : Virgin configs L := by
  intro n i hne hzero hle j hj
  by_cases hn : n ≤ 1
  · rw [show j = 0 by omega]
    rfl
  · obtain ⟨p, rfl⟩ : ∃ p, n = p + 2 := ⟨n - 2, by omega⟩
    have hnum := (h.placed (owner configs (p + 2) i)).real p (by omega)
    exact absurd hzero (hreal (p + 1) (by omega) hnum i)

theorem not_holds (h : Lawful configs L) (hv : Virgin configs L) (hg : owner configs c i ≠ 0)
    (hprev : owner configs (c - 1) i = 0)
    (hnum : (replayed (owner configs c i) (L (owner configs c i))).config.num = c) (hg' : g' ≠ 0)
    (hne : g' ≠ owner configs c i) (b : Nat) : ¬ Holds configs L g' b i := by
  intro hb
  rcases Nat.lt_trichotomy b c with hlt | rfl | hlt
  · exact hg' (hb.1.symm.trans (hv c i hg hprev hnum.ge b hlt))
  · exact hne hb.1.symm
  · exact absurd (h.passed hv hg' hb c hlt hg) (by rw [hnum]; exact Nat.lt_irrefl c)

theorem first_alone (h : Lawful configs L) (hv : Virgin configs L) (hg : owner configs c i ≠ 0)
    (hprev : owner configs (c - 1) i = 0)
    (hnum : (replayed (owner configs c i) (L (owner configs c i))).config.num = c) (hg' : g' ≠ 0)
    (hne : g' ≠ owner configs c i) :
    ¬ (replayed g' (L g')).Accepts g' i ∧ ((replayed g' (L g')).shards i).kv = Store.empty := by
  constructor
  · intro ha
    obtain ⟨b, -, hb, -⟩ := h.accepts_tenure hg' ha
    exact h.not_holds hv hg hprev hnum hg' hne b hb
  · exact ((h.legal g').held hg' i).resolve_right fun ⟨b, hb⟩ => h.not_holds hv hg hprev hnum hg' hne b hb

theorem took_tenure (h : Lawful configs L) (hg : g ≠ 0) {n : Nat}
    (ht : (shardMachine g).Took (L g) fun _ kv => kv.config.num = n ∧ kv.Accepts g i) :
    n ≤ (replayed g (L g)).config.num ∧ ∃ b ≤ n, Holds configs L g b i ∧ ∀ j, b ≤ j → j ≤ n → owner configs j i = g := by
  obtain ⟨p, op, -, rfl, ha⟩ := ht
  have hpre : (L g).take p <+: L g := List.take_prefix p (L g)
  have hplaced := ((h.legal g).take p).placed
  exact ⟨num_mono hpre, tenure hg (hplaced.owner_eq.symm.trans ha.1) (num_mono hpre) fun _ hd hgain =>
    (hplaced.gained ha hd hgain).mono hpre⟩

/-- While a group accepts operations for the shard, no group has accepted any in
a later configuration. -/
theorem none_later (h : Lawful configs L) (hv : Virgin configs L) (hg : g ≠ 0) (ha : (replayed g (L g)).Accepts g i)
    (hg' : g' ≠ 0) {n : Nat} (ht : (shardMachine g').Took (L g') fun _ kv => kv.config.num = n ∧ kv.Accepts g' i) :
    n ≤ (replayed g (L g)).config.num := by
  obtain ⟨hle, b, hb, hh, ho⟩ := h.took_tenure hg' ht
  by_contra hlt
  have hown : owner configs (replayed g (L g)).config.num i = g := (h.placed g).owner_eq.symm.trans ha.1
  by_cases hbn : b ≤ (replayed g (L g)).config.num
  · have : g = g' := hown.symm.trans (ho _ hbn (by omega))
    subst this
    exact hlt hle
  · have := h.passed hv hg' hh _ (Nat.lt_of_not_le hbn) (by rw [hown]; exact hg)
    rw [hown] at this
    exact absurd this (Nat.lt_irrefl _)

theorem arrived_of_accepts (h : Lawful configs L) (hv : Virgin configs L) (hg : g ≠ 0)
    (ha : (replayed g (L g)).Accepts g i) (hg' : g' ≠ 0) (hl : Loses configs g' c i)
    (hc : c ≤ (replayed g' (L g')).config.num) (hne : owner configs c i ≠ 0) : Arrived configs L c i := by
  by_contra harr
  obtain ⟨hnum, hst, -⟩ := h.kept hl hc harr
  have hgg : g ≠ g' := by
    rintro rfl
    rcases ha.2 with hs | hs <;> rw [hst] at hs <;> cases hs
  obtain ⟨b, hb, hh, ho⟩ := h.accepts_tenure hg ha
  have hc₀ : c ≠ 0 := by
    rintro rfl
    exact hl.1 hl.2
  rcases Nat.lt_trichotomy b c with hlt | rfl | hlt
  · -- the group began before the other one lost the shard
    by_cases hin : c ≤ (replayed g (L g)).config.num
    · exact hgg ((ho (c - 1) (by omega) (by omega)).symm.trans hl.2)
    · obtain ⟨b', hb', hh', ho'⟩ := tenure hg' hl.2 (by omega) fun d hd hgain =>
        (h.placed g').finished d i (((h.placed g').past d i (by omega)).1 hgain)
      have hown := ho _ hb le_rfl
      by_cases hbn : b' ≤ (replayed g (L g)).config.num
      · exact hgg (hown.symm.trans (ho' _ hbn (by omega)))
      · have := h.passed hv hg' hh' _ (Nat.lt_of_not_le hbn) (by rw [hown]; exact hg)
        rw [hown] at this
        exact absurd this (Nat.lt_irrefl _)
  · rcases hh.2 with hin | ⟨hzero, -⟩
    · rw [← hh.1] at hin
      exact harr hin
    · exact hg' (hl.2.symm.trans hzero)
  · -- the next owner has already given the shard away
    have hpast := h.passed hv hg hh c hlt hne
    have hgain : Gains configs (owner configs c i) c i := ⟨rfl, by rw [hl.2]; exact Ne.symm hl.1, by rw [hl.2]; exact hg'⟩
    exact harr ((h.placed _).finished c i (((h.placed _).past c i hpast).1 hgain))

end Lawful

end

end DistLab
