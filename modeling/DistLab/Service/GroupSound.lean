import DistLab.Lib.Runs
import DistLab.Service.Group

/-!
# What a replica knows

A replica's state is the committed log up to the largest index it has executed
or installed, replayed, as long as every command that a snapshot has overtaken
finds the state as it leaves it. When nothing overtakes, a handler that does not
give up returns what its own operation gets at its place in the log.
-/

namespace DistLab

theorem forall_mem_snoc {α : Type} {P : α → Prop} {l : List α} (h : ∀ x ∈ l, P x) {y : α} (hy : P y) :
    ∀ x ∈ l ++ [y], P x :=
  List.forall_mem_append.mpr ⟨h, List.forall_mem_singleton.mpr hy⟩

section
variable {Op Id St Res Tok : Type}

/-! ## One replica changes -/

@[simp] theorem Group.put_self (g : Group Op Id St Res Tok) (r : Nat) (rep : Replica Op Id St Res Tok) :
    (g.put r rep).replica r = rep := Function.update_self ..

theorem Group.put_ne (g : Group Op Id St Res Tok) {r q : Nat} (rep : Replica Op Id St Res Tok) (h : q ≠ r) :
    (g.put r rep).replica q = g.replica q := Function.update_of_ne h ..

@[simp] theorem Group.put_put (g : Group Op Id St Res Tok) (r : Nat) (rep rep' : Replica Op Id St Res Tok) :
    (g.put r rep).put r rep' = g.put r rep' := by
  simp [put]

theorem Group.doSnapshot_put (g : Group Op Id St Res Tok) (r : Nat) (rep : Replica Op Id St Res Tok) (index : Nat) :
    ∃ snapshot, ((g.put r rep).doSnapshot r index).replica = (g.put r { rep with snapshot }).replica := by
  simp only [doSnapshot, put_self]
  split
  · exact ⟨rep.snapshot, rfl⟩
  · exact ⟨(index, rep.state), by rw [put_put]⟩

variable {M : Machine Op Id St Res} {overtakes : Bool} {g : Group Op Id St Res Tok}

/-! ## Feeding a replica -/

/-- Taking the indices of `queue` one after another from `a` on leads to `e`:
each is the next one, or one that the snapshot at `s` has overtaken. -/
def Feeds (overtakes : Bool) (s : Nat) : Nat → List Nat → Nat → Prop
  | a, [], e => a = e
  | a, j :: q, e =>
    (overtakes = true ∧ 0 < j ∧ j ≤ s ∧ j ≤ a ∧ Feeds overtakes s a q e) ∨ (j = a + 1 ∧ Feeds overtakes s j q e)

theorem Feeds.le : ∀ {q : List Nat} {s a e : Nat}, Feeds overtakes s a q e → a ≤ e
  | [], _, _, _, h => Nat.le_of_eq h
  | _ :: _, _, _, _, .inl ⟨_, _, _, _, h⟩ => h.le
  | _ :: _, _, _, _, .inr ⟨hj, h⟩ => by have := h.le; omega

theorem Feeds.mem_le : ∀ {q : List Nat} {s a e j : Nat}, Feeds overtakes s a q e → j ∈ q → j ≤ e
  | i :: q, s, a, e, j, h, hj => by
    rcases List.mem_cons.mp hj with rfl | hj
    · rcases h with ⟨-, -, -, hja, h⟩ | ⟨-, h⟩
      · exact hja.trans h.le
      · exact h.le
    · rcases h with ⟨-, -, -, -, h⟩ | ⟨-, h⟩ <;> exact h.mem_le hj

theorem Feeds.mem_pos : ∀ {q : List Nat} {s a e j : Nat}, Feeds overtakes s a q e → j ∈ q → 0 < j
  | i :: q, s, a, e, j, h, hj => by
    rcases List.mem_cons.mp hj with rfl | hj
    · rcases h with ⟨-, hpos, -⟩ | ⟨hja, -⟩
      · exact hpos
      · omega
    · rcases h with ⟨-, -, -, -, h⟩ | ⟨-, h⟩ <;> exact h.mem_pos hj

theorem Feeds.mono {s s' : Nat} (hs : s ≤ s') : ∀ {q : List Nat} {a e : Nat}, Feeds overtakes s a q e →
    Feeds overtakes s' a q e
  | [], _, _, h => h
  | _ :: _, _, _, .inl ⟨ho, hpos, hj, ha, h⟩ => .inl ⟨ho, hpos, hj.trans hs, ha, h.mono hs⟩
  | _ :: _, _, _, .inr ⟨hj, h⟩ => .inr ⟨hj, h.mono hs⟩

theorem Feeds.collect : ∀ {q : List Nat} {s a e : Nat} (k : Nat), Feeds overtakes s a q e →
    Feeds overtakes s a (q ++ List.range' (e + 1) k) (e + k)
  | [], s, a, e, k, h => by
    cases h
    induction k generalizing a with
    | zero => rfl
    | succ k ih =>
      rw [List.nil_append, List.range'_succ]
      refine Or.inr ⟨rfl, ?_⟩
      have := ih (a := a + 1)
      rwa [List.nil_append, show a + 1 + k = a + (k + 1) by omega] at this
  | j :: q, s, a, e, k, h => by
    rcases h with ⟨ho, hpos, hj, ha, h⟩ | ⟨hj, h⟩
    · exact Or.inl ⟨ho, hpos, hj, ha, h.collect k⟩
    · exact Or.inr ⟨hj, h.collect k⟩

theorem Feeds.overtaken : ∀ {q : List Nat} {a : Nat}, (overtakes = true ∨ q = []) → (∀ j ∈ q, 0 < j ∧ j ≤ a) →
    Feeds overtakes a a q a
  | [], _, _, _ => rfl
  | j :: q, _, ho, h =>
    have ho := ho.resolve_right (List.cons_ne_nil j q)
    have hj := h j List.mem_cons_self
    Or.inl ⟨ho, hj.1, hj.2, hj.2, Feeds.overtaken (.inl ho) fun i hi => h i (List.mem_cons_of_mem _ hi)⟩

/-- `R s log` says that state `s` stands at the end of `log`; the replica stands at a
prefix of the log. -/
structure Replica.Follows (R : St → List Op → Prop) (overtakes : Bool) (log : List Op)
    (rep : Replica Op Id St Res Tok) : Prop where
  fetched : rep.fetched ≤ log.length
  feeds : Feeds overtakes rep.snapshot.1 rep.applied rep.queue rep.fetched
  state : R rep.state (log.take rep.applied)
  saved : rep.snapshot.1 ≤ log.length
  snapshot : R rep.snapshot.2 (log.take rep.snapshot.1)

structure Group.Follows (R : St → List Op → Prop) (overtakes : Bool) (g : Group Op Id St Res Tok) : Prop where
  logged : ∀ p op, g.log[p]? = some op → (p + 1, op) ∈ g.proposed
  snapshots : ∀ s ∈ g.snapshots, s.1 ≤ g.log.length ∧ R s.2 (g.log.take s.1)
  replica : ∀ r, (g.replica r).Follows R overtakes g.log

/-- The command that the step executes, the next one or one that was overtaken,
leaves a state that stands at the same prefix as the index. -/
def Group.Advances (M : Machine Op Id St Res) (R : St → List Op → Prop) (g : Group Op Id St Res Tok) (a : Inner) : Prop :=
  ∀ r snap j q op, a = .apply r snap → (g.replica r).queue = j :: q → g.log[j - 1]? = some op → 0 < j →
    j ≤ (g.replica r).applied + 1 →
    R (M.apply (g.replica r).state op).1 (g.log.take (max (g.replica r).applied j))

section
variable {R : St → List Op → Prop} {log : List Op} {rep : Replica Op Id St Res Tok}

theorem Replica.Follows.applied_le (h : rep.Follows R overtakes log) : rep.applied ≤ log.length :=
  h.feeds.le.trans h.fetched

theorem Replica.Follows.snoc (h : rep.Follows R overtakes log) (op : Op) : rep.Follows R overtakes (log ++ [op]) where
  fetched := h.fetched.trans (by simp)
  feeds := h.feeds
  state := by rw [List.take_append_of_le_length h.applied_le]; exact h.state
  saved := h.saved.trans (by simp)
  snapshot := by rw [List.take_append_of_le_length h.saved]; exact h.snapshot

theorem Replica.Follows.keep {rep' : Replica Op Id St Res Tok} (h : rep.Follows R overtakes log)
    (hst : rep'.state = rep.state) (ha : rep'.applied = rep.applied) (hf : rep'.fetched = rep.fetched)
    (hq : rep'.queue = rep.queue) (hs : rep'.snapshot = rep.snapshot) : rep'.Follows R overtakes log where
  fetched := by rw [hf]; exact h.fetched
  feeds := by rw [hs, ha, hq, hf]; exact h.feeds
  state := by rw [hst, ha]; exact h.state
  saved := by rw [hs]; exact h.saved
  snapshot := by rw [hs]; exact h.snapshot

theorem Replica.Follows.collect (h : rep.Follows R overtakes log) {n : Nat} (hlt : rep.fetched < n)
    (hn : n ≤ log.length) : (rep.collect n).Follows R overtakes log where
  fetched := hn
  feeds := by
    have := h.feeds.collect (n - rep.fetched)
    rwa [Nat.add_sub_cancel' hlt.le] at this
  state := h.state
  saved := h.saved
  snapshot := h.snapshot

/-- A snapshot above the last one is made at a command that is the next one. -/
theorem Replica.Follows.next (h : rep.Follows R overtakes log) {j : Nat} {q : List Nat} (hq : rep.queue = j :: q)
    (hlt : rep.snapshot.1 < j) : j = rep.applied + 1 := by
  have hfeeds := h.feeds
  rw [hq] at hfeeds
  rcases hfeeds with ⟨-, -, hle, -⟩ | ⟨hj, -⟩
  · omega
  · exact hj

theorem Replica.Follows.doSnapshot (h : rep.Follows R overtakes log) {j : Nat} (hj : rep.applied = j)
    (hlt : rep.snapshot.1 < j) : { rep with snapshot := (j, rep.state) }.Follows R overtakes log where
  fetched := h.fetched
  feeds := h.feeds.mono hlt.le
  state := h.state
  saved := by rw [← hj]; exact h.applied_le
  snapshot := by rw [← hj]; exact h.state

theorem Replica.Follows.install (h : rep.Follows R overtakes log) {s : Nat × St}
    (hs : s.1 ≤ log.length ∧ R s.2 (log.take s.1)) (hlt : rep.fetched < s.1)
    (ho : overtakes = true ∨ rep.queue = []) : (rep.install s).Follows R overtakes log where
  fetched := hs.1
  feeds := .overtaken ho fun _ hj => ⟨h.feeds.mem_pos hj, (h.feeds.mem_le hj).trans hlt.le⟩
  state := hs.2
  saved := hs.1
  snapshot := hs.2

theorem Replica.follows_boot {s : Nat × St} (hs : s.1 ≤ log.length) (hst : R s.2 (log.take s.1)) (n : Nat) :
    (Replica.boot s n : Replica Op Id St Res Tok).Follows R overtakes log where
  fetched := hs
  feeds := rfl
  state := hst
  saved := hs
  snapshot := hst

theorem Group.Follows.put (h : g.Follows R overtakes) {r : Nat} (hrep : rep.Follows R overtakes g.log) :
    (g.put r rep).Follows R overtakes where
  logged := h.logged
  snapshots := h.snapshots
  replica q := by
    by_cases hq : q = r
    · subst hq; rw [put_self]; exact hrep
    · rw [put_ne _ _ hq]; exact h.replica q

theorem Group.follows_init (h : R M.init []) : (Group.init M : Group Op Id St Res Tok).Follows R overtakes where
  logged p op hp := by cases hp
  snapshots s hs := by cases hs
  replica _ := Replica.follows_boot (Nat.zero_le _) h 0

theorem Group.Follows.propose (h : g.Follows R overtakes) (op : Op) (index : Nat) :
    (g.propose op index).Follows R overtakes where
  logged p op hp := List.mem_append_left _ (h.logged p op hp)
  snapshots := h.snapshots
  replica := h.replica

theorem Group.Follows.submit (h : g.Follows R overtakes) (r : Nat) (tok : Tok) (op : Op) (index : Nat) :
    (g.submit r tok op index).Follows R overtakes :=
  (h.propose op index).put ((h.replica r).keep rfl rfl rfl rfl rfl)

end

/-! ## The state is the log, replayed -/

abbrev Group.Fed (M : Machine Op Id St Res) (overtakes : Bool) (g : Group Op Id St Res Tok) : Prop :=
  g.Follows (fun s log => s = M.replay log) overtakes

/-- A command that a snapshot has overtaken finds the state as it leaves it. -/
def Group.Harmless (M : Machine Op Id St Res) (g : Group Op Id St Res Tok) (a : Inner) : Prop :=
  ∀ r snap j q op, a = .apply r snap → (g.replica r).queue = j :: q → g.log[j - 1]? = some op →
    j ≤ (g.replica r).applied → (M.apply (g.replica r).state op).1 = (g.replica r).state

/-- When nothing overtakes, the index at the head of the queue is the next one. -/
theorem Group.Fed.harmless (h : g.Fed M false) (a : Inner) : g.Harmless M a := by
  intro r snap j q op _ hq _ hle
  have hfeeds := (h.replica r).feeds
  rw [hq] at hfeeds
  rcases hfeeds with ⟨hf, -⟩ | ⟨hj, -⟩
  · cases hf
  · omega

theorem Group.Fed.advances (h : g.Fed M overtakes) {a : Inner} (hsafe : g.Harmless M a) :
    g.Advances M (fun s log => s = M.replay log) a := by
  intro r snap j q op ha hq hop hpos hle
  have hstate := (h.replica r).state
  by_cases hj : j ≤ (g.replica r).applied
  · rw [max_eq_left hj, hsafe r snap j q op ha hq hop hj, hstate]
  · have hj : j = (g.replica r).applied + 1 := by omega
    rw [max_eq_right (by omega), hstate]
    rw [hj, Nat.add_sub_cancel] at hop
    rw [hj, M.replay_succ hop]

theorem Group.fed_init : (Group.init M : Group Op Id St Res Tok).Fed M overtakes := follows_init rfl

section
variable [DecidableEq Id]

/-! ## Step by step -/

variable (M overtakes) in
inductive Group.Act (g : Group Op Id St Res Tok) : Inner → Group Op Id St Res Tok → Option (Tok × Res) → Prop
  | commit {k : Nat} {op : Op} : g.proposed[k]? = some (g.log.length + 1, op) →
      Act g (.commit k) { g with log := g.log ++ [op] } none
  | register {r ch : Nat} {c : Submission Op Id Res Tok} : (g.replica r).calls ch = some c → c.stage = .started →
      Act g (.register r ch)
        (g.put r { (g.replica r).setCall ch { c with stage := .waiting } with
          notifyChans := Function.update (g.replica r).notifyChans c.index (some ⟨M.ident c.op, ch⟩) }) none
  | displace {r ch old : Nat} {c o : Submission Op Id Res Tok} : (g.replica r).calls ch = some c →
      c.stage = .started → (g.replica r).calls old = some o → o.ch = none →
      Act g (.register r ch)
        (g.put r { ((g.replica r).setCall old { o with ch := some (M.noId, M.wrongLeader) }).setCall ch
            { c with stage := .waiting } with
          notifyChans := Function.update (g.replica r).notifyChans c.index (some ⟨M.ident c.op, ch⟩) }) none
  | receive {r ch : Nat} {c : Submission Op Id Res Tok} {id : Id} {res : Res} : (g.replica r).calls ch = some c →
      c.stage = .waiting → c.ch = some (id, res) →
      Act g (.receive r ch)
        (g.put r ((g.replica r).setCall ch
          { c with stage := .returning (if id ≠ M.ident c.op then M.wrongLeader else res), ch := none })) none
  | timeout {r ch : Nat} {c : Submission Op Id Res Tok} : (g.replica r).calls ch = some c → c.stage = .waiting →
      Act g (.timeout r ch)
        (g.put r ((g.replica r).setCall ch { c with stage := .returning M.timeout })) none
  | finish {r ch : Nat} {c : Submission Op Id Res Tok} {res : Res} {notifyChans : Nat → Option (Waiter Id)} :
      (g.replica r).calls ch = some c → c.stage = .returning res →
      Act g (.finish r ch) (g.put r { (g.replica r).setCall ch { c with stage := .done } with notifyChans })
        (some (c.tok, res))
  | collect {r n : Nat} : (g.replica r).fetched < n → n ≤ g.log.length →
      Act g (.collect r n) (g.put r ((g.replica r).collect n)) none
  | apply {r index : Nat} {snap : Bool} {queue : List Nat} {op : Op} : (g.replica r).queue = index :: queue →
      g.log[index - 1]? = some op →
      Act g (.apply r snap) (g.put r ({ g.replica r with queue }.applyCommand M index op)) none
  | applySnapshot {r index : Nat} {queue : List Nat} {op : Op} {rep : Replica Op Id St Res Tok} :
      (g.replica r).queue = index :: queue → g.log[index - 1]? = some op →
      rep = { g.replica r with queue }.applyCommand M index op → (g.replica r).snapshot.1 < index →
      Act g (.apply r true)
        { g.put r { rep with snapshot := (index, rep.state) } with
          snapshots := g.snapshots ++ [(index, rep.state)] } none
  | notify {r ch : Nat} {id : Id} {res : Res} {c : Submission Op Id Res Tok} :
      (g.replica r).sending = some (ch, id, res) → (g.replica r).calls ch = some c → c.ch = none →
      Act g (.notify r)
        (g.put r { (g.replica r).setCall ch { c with ch := some (id, res) } with sending := none }) none
  | unheard {r : Nat} : Act g (.notify r) (g.put r { g.replica r with sending := none }) none
  | install {r k : Nat} {snapshot : Nat × St} : g.snapshots[k]? = some snapshot →
      (g.replica r).fetched < snapshot.1 → (overtakes = true ∨ (g.replica r).queue = []) →
      Act g (.install r k) (g.put r ((g.replica r).install snapshot)) none
  | restart {r : Nat} : Act g (.restart r)
      (g.put r (Replica.boot (g.replica r).snapshot (g.replica r).nextCall)) none

variable {g' : Group Op Id St Res Tok} {ans : Option (Tok × Res)}

theorem Group.act_cases {a : Inner} (h : g.act M overtakes a = some (g', ans)) : g.Act M overtakes a g' ans := by
  cases a with
  | commit k =>
    simp only [act] at h
    cases hk : g.proposed[k]? with
    | none => rw [hk] at h; cases h
    | some p =>
      obtain ⟨index, op⟩ := p
      simp only [hk] at h
      split at h
      · rename_i hi
        cases h
        exact .commit (by rw [hk, hi])
      · cases h
  | register r ch =>
    simp only [act, Option.map_eq_some_iff, Prod.mk.injEq] at h
    obtain ⟨rep, hrep, rfl, rfl⟩ := h
    unfold Replica.register at hrep
    split at hrep
    · rename_i c hc
      split at hrep
      · rename_i hst
        simp only [Option.map_eq_some_iff] at hrep
        obtain ⟨rep₁, h₁, rfl⟩ := hrep
        split at h₁
        · cases h₁; exact .register hc hst
        · rename_i old _
          split at h₁
          · cases h₁; exact .register hc hst
          · rename_i o ho
            split at h₁
            · cases h₁
            · rename_i hoch
              cases h₁
              exact .displace hc hst ho hoch
      · cases hrep
    · cases hrep
  | receive r ch =>
    simp only [act, Option.map_eq_some_iff, Prod.mk.injEq] at h
    obtain ⟨rep, hrep, rfl, rfl⟩ := h
    unfold Replica.receive at hrep
    split at hrep
    · rename_i c hc
      split at hrep
      · rename_i id res hst hch
        cases hrep
        exact .receive hc hst hch
      · cases hrep
    · cases hrep
  | timeout r ch =>
    simp only [act, Option.map_eq_some_iff, Prod.mk.injEq] at h
    obtain ⟨rep, hrep, rfl, rfl⟩ := h
    unfold Replica.timeout at hrep
    split at hrep
    · rename_i c hc
      split at hrep
      · rename_i hst
        cases hrep
        exact .timeout hc hst
      · cases hrep
    · cases hrep
  | finish r ch =>
    simp only [act, Option.map_eq_some_iff, Prod.mk.injEq] at h
    obtain ⟨⟨rep, answer⟩, hrep, rfl, rfl⟩ := h
    unfold Replica.finish at hrep
    split at hrep
    · rename_i c hc
      split at hrep
      · rename_i res hst
        cases hrep
        exact .finish hc hst
      · cases hrep
    · cases hrep
  | collect r n =>
    simp only [act] at h
    split at h
    · rename_i hn
      cases h
      exact .collect hn.1 hn.2
    · cases h
  | apply r snap =>
    simp only [act] at h
    split at h
    · rename_i index queue _ hq
      split at h
      · rename_i op hop
        cases h
        cases snap with
        | false => exact .apply hq hop
        | true =>
          simp only [if_true, doSnapshot, put_self]
          split
          · exact .apply hq hop
          · rename_i hlt
            simp only [put_put]
            exact .applySnapshot hq hop rfl (Nat.lt_of_not_le hlt)
      · cases h
    · cases h
  | notify r =>
    simp only [act, Option.map_eq_some_iff, Prod.mk.injEq] at h
    obtain ⟨rep, hrep, rfl, rfl⟩ := h
    unfold Replica.notify at hrep
    split at hrep
    · rename_i ch id res hs
      split at hrep
      · rename_i c hc
        split at hrep
        · cases hrep
        · rename_i hch
          cases hrep
          exact .notify hs hc hch
      · cases hrep; exact .unheard
    · cases hrep
  | install r k =>
    simp only [act] at h
    split at h
    · rename_i snapshot hk
      split at h
      · rename_i hg
        cases h
        exact .install hk hg.2.1 hg.2.2
      · cases h
    · cases h
  | restart r => cases h; exact .restart

/-- A snapshot that overtakes nothing may be installed in any case. -/
theorem Group.act_idle {a : Inner} (h : ∀ r k, a = .install r k → (g.replica r).queue = []) :
    g.act M true a = g.act M false a := by
  cases a with
  | install r k => simp only [act, h r k rfl, or_true]
  | _ => rfl

/-! ## The log grows -/

theorem Group.Act.log {a : Inner} (h : g.Act M overtakes a g' ans) :
    g'.log = g.log ∨ ∃ k op, a = .commit k ∧ g.proposed[k]? = some (g.log.length + 1, op) ∧ g'.log = g.log ++ [op] := by
  cases h with
  | commit hk => exact Or.inr ⟨_, _, rfl, hk, rfl⟩
  | _ => exact Or.inl rfl

theorem Group.Act.log_le {a : Inner} (h : g.Act M overtakes a g' ans) : g.log <+: g'.log := by
  obtain heq | ⟨k, op, -, -, heq⟩ := h.log
  · simp only [heq, List.prefix_refl]
  · rw [heq]; exact List.prefix_append _ _

theorem Group.Act.proposed {a : Inner} (h : g.Act M overtakes a g' ans) : g'.proposed = g.proposed := by
  cases h <;> rfl

/-! ## The run of a replica -/

theorem Replica.Follows.applyCommand {R : St → List Op → Prop} {log : List Op} {rep : Replica Op Id St Res Tok}
    (h : rep.Follows R overtakes log) {j : Nat} {q : List Nat} {op : Op} (hq : rep.queue = j :: q)
    (hadv : 0 < j → j ≤ rep.applied + 1 → R (M.apply rep.state op).1 (log.take (max rep.applied j))) :
    ({ rep with queue := q }.applyCommand M j op).Follows R overtakes log := by
  have hfeeds := h.feeds
  rw [hq] at hfeeds
  refine ⟨h.fetched, ?_, ?_, h.saved, h.snapshot⟩
  · show Feeds overtakes rep.snapshot.1 (max rep.applied j) q rep.fetched
    rcases hfeeds with ⟨-, -, -, hle, hrest⟩ | ⟨hj, hrest⟩
    · rwa [max_eq_left hle]
    · rwa [max_eq_right (by omega)]
  · show R (M.apply rep.state op).1 (log.take (max rep.applied j))
    rcases hfeeds with ⟨-, hpos, -, hle, -⟩ | ⟨hj, -⟩
    · exact hadv hpos (by omega)
    · exact hadv (by omega) hj.le

theorem Group.Follows.act {R : St → List Op → Prop} (h : g.Follows R overtakes) {a : Inner}
    (hact : g.Act M overtakes a g' ans) (hadv : g.Advances M R a) : g'.Follows R overtakes := by
  cases hact with
  | @commit k op hk =>
    refine ⟨fun p o hp => ?_, fun s hs => ?_, fun r => (h.replica r).snoc op⟩
    · rcases getElem?_snoc_cases hp with ⟨-, hp⟩ | ⟨rfl, rfl⟩
      · exact h.logged p o hp
      · exact List.mem_of_getElem? hk
    · obtain ⟨hle, hst⟩ := h.snapshots s hs
      refine ⟨hle.trans (by simp), ?_⟩
      rw [List.take_append_of_le_length hle]; exact hst
  | register _ _ => exact h.put ((h.replica _).keep rfl rfl rfl rfl rfl)
  | displace _ _ _ _ => exact h.put ((h.replica _).keep rfl rfl rfl rfl rfl)
  | receive _ _ _ => exact h.put ((h.replica _).keep rfl rfl rfl rfl rfl)
  | timeout _ _ => exact h.put ((h.replica _).keep rfl rfl rfl rfl rfl)
  | finish _ _ => exact h.put ((h.replica _).keep rfl rfl rfl rfl rfl)
  | collect hlt hn => exact h.put ((h.replica _).collect hlt hn)
  | apply hq hop => exact h.put ((h.replica _).applyCommand hq (hadv _ _ _ _ _ rfl hq hop))
  | @applySnapshot r j q op rep hq hop hrep hlt =>
    have hfol := (h.replica r).applyCommand hq (hadv _ _ _ _ _ rfl hq hop)
    have hj := (h.replica r).next hq hlt
    rw [← hrep] at hfol
    have happ : rep.applied = j := by
      rw [hrep]
      show max (g.replica r).applied j = j
      omega
    have hsnap : rep.snapshot = (g.replica r).snapshot := by rw [hrep]; rfl
    have hput := h.put (r := r) (hfol.doSnapshot happ (by rw [hsnap]; exact hlt))
    refine ⟨hput.logged, fun s hs => ?_, hput.replica⟩
    rcases List.mem_append.mp hs with hs | hs
    · exact h.snapshots s hs
    · rw [List.mem_singleton.mp hs, ← happ]
      exact ⟨hfol.applied_le, hfol.state⟩
  | notify _ _ _ => exact h.put ((h.replica _).keep rfl rfl rfl rfl rfl)
  | unheard => exact h.put ((h.replica _).keep rfl rfl rfl rfl rfl)
  | install hk hlt ho => exact h.put ((h.replica _).install (h.snapshots _ (List.mem_of_getElem? hk)) hlt ho)
  | restart => exact h.put (Replica.follows_boot (h.replica _).saved (h.replica _).snapshot _)

theorem Group.Fed.act (h : g.Fed M overtakes) {a : Inner} (hact : g.Act M overtakes a g' ans)
    (hsafe : g.Harmless M a) : g'.Fed M overtakes :=
  Follows.act h hact (Fed.advances h hsafe)

/-- A replica is the log, replayed, in every run whose overtaken commands change
nothing. -/
theorem Group.fed_run (r : Run (Group.step M overtakes) (Group.init M))
    (hsafe : ∀ (g : Group Op Id St Res Unit) (a : Inner), g.Fed M overtakes → g.Harmless M a) (k : Nat) :
    (r.state k).Fed M overtakes := by
  refine r.invariant r.meets_true Group.fed_init (fun g a g' h _ hs => ?_) k
  cases a with
  | submit q op index =>
    cases hs
    exact h.submit q () op index
  | inner a =>
    simp only [Group.step, Option.map_eq_some_iff] at hs
    obtain ⟨⟨g₁, ans⟩, hact, rfl⟩ := hs
    exact h.act (Group.act_cases hact) (hsafe g a h)

/-! ## Handlers -/

omit [DecidableEq Id] in
theorem Replica.setCall_cases {rep : Replica Op Id St Res Tok} {ch x : Nat} {c d : Submission Op Id Res Tok}
    (h : (rep.setCall ch c).calls x = some d) : x = ch ∧ d = c ∨ rep.calls x = some d := by
  simp only [setCall] at h
  by_cases hx : x = ch
  · rw [hx, Function.update_self] at h
    exact Or.inl ⟨hx, (Option.some.inj h).symm⟩
  · rw [Function.update_of_ne hx] at h
    exact Or.inr h

theorem Group.Act.calls {a : Inner} (h : g.Act M overtakes a g' ans) {r ch : Nat} {c : Submission Op Id Res Tok}
    (hc : (g'.replica r).calls ch = some c) :
    ∃ c₀, (g.replica r).calls ch = some c₀ ∧ c₀.tok = c.tok ∧ c₀.op = c.op := by
  -- one call of the replica that moved was set
  have one : ∀ {q x : Nat} {d d₀ : Submission Op Id Res Tok} {rep : Replica Op Id St Res Tok},
      g'.replica = (g.put q rep).replica → rep.calls = ((g.replica q).setCall x d).calls →
      (g.replica q).calls x = some d₀ → d₀.tok = d.tok → d₀.op = d.op →
      ∃ c₀, (g.replica r).calls ch = some c₀ ∧ c₀.tok = c.tok ∧ c₀.op = c.op := by
    intro q x d d₀ rep heq hcalls hd ht ho
    rw [heq] at hc
    by_cases hr : r = q
    · subst hr
      rw [put_self, hcalls] at hc
      rcases Replica.setCall_cases hc with ⟨rfl, rfl⟩ | hc
      · exact ⟨d₀, hd, ht, ho⟩
      · exact ⟨c, hc, rfl, rfl⟩
    · rw [put_ne _ _ hr] at hc
      exact ⟨c, hc, rfl, rfl⟩
  have none : ∀ {q : Nat} {rep : Replica Op Id St Res Tok}, g'.replica = (g.put q rep).replica →
      (∀ x d, rep.calls x = some d → (g.replica q).calls x = some d) →
      ∃ c₀, (g.replica r).calls ch = some c₀ ∧ c₀.tok = c.tok ∧ c₀.op = c.op := by
    intro q rep heq hcalls
    rw [heq] at hc
    by_cases hr : r = q
    · subst hr
      rw [put_self] at hc
      exact ⟨c, hcalls ch c hc, rfl, rfl⟩
    · rw [put_ne _ _ hr] at hc
      exact ⟨c, hc, rfl, rfl⟩
  cases h with
  | commit _ => exact ⟨c, hc, rfl, rfl⟩
  | register hd _ => exact one rfl rfl hd rfl rfl
  | @displace q x old d o hd _ ho _ =>
    by_cases hr : r = q
    · subst hr
      rw [put_self] at hc
      rcases Replica.setCall_cases hc with ⟨rfl, rfl⟩ | hc
      · exact ⟨d, hd, rfl, rfl⟩
      · rcases Replica.setCall_cases hc with ⟨rfl, rfl⟩ | hc
        · exact ⟨o, ho, rfl, rfl⟩
        · exact ⟨c, hc, rfl, rfl⟩
    · rw [put_ne _ _ hr] at hc
      exact ⟨c, hc, rfl, rfl⟩
  | receive hd _ _ => exact one rfl rfl hd rfl rfl
  | timeout hd _ => exact one rfl rfl hd rfl rfl
  | finish hd _ => exact one rfl rfl hd rfl rfl
  | collect _ _ => exact none rfl fun _ _ h => h
  | apply _ _ => exact none rfl fun _ _ h => h
  | applySnapshot _ _ hrep _ => exact none rfl fun x d h => by rw [hrep] at h; exact h
  | notify _ hd _ => exact one rfl rfl hd rfl rfl
  | unheard => exact none rfl fun _ _ h => h
  | install _ _ _ => exact none rfl fun _ _ h => h
  | restart => exact none rfl fun _ _ h => by cases h

theorem Group.Act.answer {a : Inner} {tok : Tok} {res : Res} (h : g.Act M overtakes a g' (some (tok, res))) :
    ∃ r ch c, (g.replica r).calls ch = some c ∧ c.tok = tok ∧ c.stage = .returning res := by
  cases h with
  | finish hc hst => exact ⟨_, _, _, hc, rfl, hst⟩

omit [DecidableEq Id] in
theorem Group.submit_calls {r tok op index q ch} {c : Submission Op Id Res Tok}
    (hc : ((g.submit r tok op index).replica q).calls ch = some c) :
    (g.replica q).calls ch = some c ∨ c = ⟨tok, op, index, .started, none⟩ := by
  by_cases hq : q = r
  · subst hq
    rw [submit, put_self] at hc
    rcases Replica.setCall_cases hc with ⟨-, rfl⟩ | hc
    · exact Or.inr rfl
    · exact Or.inl hc
  · rw [submit, put_ne _ _ hq] at hc
    exact Or.inl hc

end

end

/-! ## What handlers are told -/

section
variable {Op Id St Res Tok : Type} {M : Machine Op Id St Res}

/-- What a replica has in hand for a handler satisfies `A`, or tells it to give
up. -/
structure Replica.Tells (M : Machine Op Id St Res) (A : Id → Res → Prop) (rep : Replica Op Id St Res Tok) : Prop where
  sending : ∀ ch id res, rep.sending = some (ch, id, res) → A id res
  buffered : ∀ ch c id res, rep.calls ch = some c → c.ch = some (id, res) → res = M.wrongLeader ∨ A id res
  returning : ∀ ch c res, rep.calls ch = some c → c.stage = .returning res →
    res = M.wrongLeader ∨ res = M.timeout ∨ A (M.ident c.op) res

variable {A B : Id → Res → Prop} {rep rep' : Replica Op Id St Res Tok}

theorem Replica.Tells.mono (h : rep.Tells M A) (hAB : ∀ id res, A id res → B id res) : rep.Tells M B where
  sending ch id res hs := hAB id res (h.sending ch id res hs)
  buffered ch c id res hc hb := (h.buffered ch c id res hc hb).imp_right (hAB id res)
  returning ch c res hc hs := (h.returning ch c res hc hs).imp_right fun ha => ha.imp_right (hAB _ res)

theorem Replica.Tells.setCall (h : rep.Tells M A) (ch : Nat) {c : Submission Op Id Res Tok}
    (hb : ∀ id res, c.ch = some (id, res) → res = M.wrongLeader ∨ A id res)
    (hr : ∀ res, c.stage = .returning res → res = M.wrongLeader ∨ res = M.timeout ∨ A (M.ident c.op) res) :
    (rep.setCall ch c).Tells M A where
  sending := h.sending
  buffered x d id res hd hch := by
    rcases setCall_cases hd with ⟨-, rfl⟩ | hd
    · exact hb id res hch
    · exact h.buffered x d id res hd hch
  returning x d res hd hst := by
    rcases setCall_cases hd with ⟨-, rfl⟩ | hd
    · exact hr res hst
    · exact h.returning x d res hd hst

theorem Replica.Tells.keep (h : rep.Tells M A) (hc : rep'.calls = rep.calls)
    (hs : ∀ ch id res, rep'.sending = some (ch, id, res) → A id res) : rep'.Tells M A where
  sending := hs
  buffered := by rw [hc]; exact h.buffered
  returning := by rw [hc]; exact h.returning

theorem Replica.applyCommand_sending [DecidableEq Id] {j ch : Nat} {op : Op} {id : Id} {res : Res}
    (h : (rep.applyCommand M j op).sending = some (ch, id, res)) :
    id = M.ident op ∧ res = (M.apply rep.state op).2 := by
  simp only [applyCommand] at h
  split at h
  · split at h
    · cases h; exact ⟨rfl, rfl⟩
    · cases h
  · cases h

def Group.Tells (M : Machine Op Id St Res) (A : List Op → Id → Res → Prop) (g : Group Op Id St Res Tok) : Prop :=
  ∀ r, (g.replica r).Tells M (A g.log)

variable {A : List Op → Id → Res → Prop} {g g' : Group Op Id St Res Tok} {overtakes : Bool} {ans : Option (Tok × Res)}

theorem Group.Tells.put (h : g.Tells M A) {r : Nat} (hrep : rep.Tells M (A g.log)) : (g.put r rep).Tells M A := by
  intro q
  by_cases hq : q = r
  · subst hq; rw [put_self]; exact hrep
  · rw [put_ne _ _ hq]; exact h q

theorem Group.tells_init : (Group.init M : Group Op Id St Res Tok).Tells M A := by
  intro r
  constructor
  · intro ch id res hs
    cases hs
  · intro ch c id res hc
    cases hc
  · intro ch c res hc
    cases hc

theorem Group.Tells.submit (h : g.Tells M A) (r : Nat) (tok : Tok) (op : Op) (index : Nat) :
    (g.submit r tok op index).Tells M A := by
  have hrep : (((g.replica r).setCall (g.replica r).nextCall ⟨tok, op, index, .started, none⟩)).Tells M (A g.log) :=
    (h r).setCall _ (fun id res hc => by cases hc) (fun res hs => by cases hs)
  exact Group.Tells.put (g := g.propose op index) h ⟨hrep.sending, hrep.buffered, hrep.returning⟩

variable [DecidableEq Id]

/-- What an execution tells must satisfy `A`; the handlers add nothing. -/
theorem Group.Tells.act (h : g.Tells M A)
    (hmono : ∀ {log log' : List Op} {id : Id} {res : Res}, log <+: log' → A log id res → A log' id res) {a : Inner}
    (hact : g.Act M overtakes a g' ans)
    (hnew : ∀ r j q op, (g.replica r).queue = j :: q → g.log[j - 1]? = some op →
      A g.log (M.ident op) (M.apply (g.replica r).state op).2) : g'.Tells M A := by
  have happly : ∀ {r j : Nat} {q : List Nat} {op : Op}, (g.replica r).queue = j :: q → g.log[j - 1]? = some op →
      ({ g.replica r with queue := q }.applyCommand M j op).Tells M (A g.log) := by
    intro r j q op hq hop
    refine (h r).keep rfl fun ch id res hs => ?_
    obtain ⟨rfl, rfl⟩ := Replica.applyCommand_sending hs
    exact hnew r j q op hq hop
  cases hact with
  | commit hk => exact fun r => (h r).mono fun _ _ => hmono (List.prefix_append _ _)
  | @register r ch c hc hst =>
    have := (h r).setCall ch (c := { c with stage := .waiting }) ((h r).buffered ch c · · hc)
      fun res hs => by cases hs
    exact h.put ⟨this.sending, this.buffered, this.returning⟩
  | @displace r ch old c o hc hst ho hoch =>
    have h₁ := (h r).setCall old (c := { o with ch := some (M.noId, M.wrongLeader) })
      (fun id res hch => by cases hch; exact Or.inl rfl) ((h r).returning old o · ho)
    have h₂ := h₁.setCall ch (c := { c with stage := .waiting }) ((h r).buffered ch c · · hc)
      fun res hs => by cases hs
    exact h.put ⟨h₂.sending, h₂.buffered, h₂.returning⟩
  | @receive r ch c id res hc hst hch =>
    refine h.put ((h r).setCall ch (fun id res hch => by cases hch) fun res' hs => ?_)
    cases hs
    split
    · exact Or.inl rfl
    · rename_i hid
      rcases (h r).buffered ch c id res hc hch with hw | ha
      · exact Or.inl hw
      · rw [not_not.mp hid] at ha
        exact Or.inr (Or.inr ha)
  | @timeout r ch c hc hst =>
    refine h.put ((h r).setCall ch ((h r).buffered ch c · · hc) fun res' hs => ?_)
    cases hs
    exact Or.inr (Or.inl rfl)
  | @finish r ch c res notifyChans hc hst =>
    have := (h r).setCall ch (c := { c with stage := .done }) ((h r).buffered ch c · · hc)
      fun res hs => by cases hs
    exact h.put ⟨this.sending, this.buffered, this.returning⟩
  | collect _ _ => exact h.put ((h _).keep rfl (h _).sending)
  | apply hq hop => exact h.put (happly hq hop)
  | applySnapshot hq hop hrep _ =>
    have := happly hq hop
    rw [← hrep] at this
    exact Group.Tells.put h ⟨this.sending, this.buffered, this.returning⟩
  | @notify r ch id res c hs hc hch =>
    have := (h r).setCall ch (c := { c with ch := some (id, res) })
      (fun id' res' he => by cases he; exact Or.inr ((h r).sending ch id res hs)) ((h r).returning ch c · hc)
    exact h.put (this.keep rfl fun _ _ _ hn => by cases hn)
  | unheard => exact h.put ((h _).keep rfl fun _ _ _ hn => by cases hn)
  | install _ _ _ => exact h.put ((h _).keep rfl (h _).sending)
  | restart =>
    refine h.put ⟨fun _ _ _ hn => ?_, fun _ _ _ _ hc => ?_, fun _ _ _ hc => ?_⟩
    · cases hn
    · cases hc
    · cases hc

omit [DecidableEq Id] in
/-- When nothing overtakes, a command gets its answer in the state that the log
has before it. -/
theorem Group.Fed.answered (h : g.Fed M false) {r j : Nat} {q : List Nat} {op : Op}
    (hq : (g.replica r).queue = j :: q) (hop : g.log[j - 1]? = some op) :
    M.Answered g.log (M.ident op) (M.apply (g.replica r).state op).2 := by
  have hfeeds := (h.replica r).feeds
  rw [hq] at hfeeds
  rcases hfeeds with ⟨hf, -⟩ | ⟨hj, -⟩
  · cases hf
  · rw [hj, Nat.add_sub_cancel] at hop
    exact ⟨_, op, hop, rfl, by rw [(h.replica r).state]⟩

theorem Group.Tells.answered (h : g.Tells M M.Answered) (hfed : g.Fed M false) {a : Inner}
    (hact : g.Act M false a g' ans) : g'.Tells M M.Answered :=
  h.act (fun hle => Machine.Answered.mono hle) hact fun _ _ _ _ hq hop => hfed.answered hq hop

end

end DistLab
