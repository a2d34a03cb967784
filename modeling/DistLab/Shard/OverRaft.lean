import DistLab.Lib.Local
import DistLab.Lib.Shown
import DistLab.Shard.Deployment
import DistLab.Shard.Linear

/-!
# shardkv over Raft is linearizable

The linearizations of the ten shards merge into one of the whole map. And what
the clerks see of the groups on their Raft servers is what a run of
`ShardSystem` shows: every group is followed by a `Group` of its own, the clerks
and the goroutines take the same steps on both sides.
-/

namespace DistLab

/-! ## The whole map -/

theorem kvModel_splits :
    kvModel.Splits (fun x => key2shard x.key) fun i m m' => ∀ k, key2shard k = i → m k = m' k where
  refl i m k hk := rfl
  own m m' x h := by
    obtain ⟨t, key, v⟩ := x
    have hkey := h key rfl
    cases t with
    | get => exact ⟨hkey, h⟩
    | put =>
      refine ⟨rfl, fun k hk => ?_⟩
      by_cases hkk : k = key
      · simp [kvModel, hkk]
      · simpa [kvModel, hkk] using h k hk
    | append =>
      refine ⟨rfl, fun k hk => ?_⟩
      by_cases hkk : k = key
      · simp [kvModel, hkk, hkey]
      · simpa [kvModel, hkk] using h k hk
  other i m m' x hne h := by
    obtain ⟨t, key, v⟩ := x
    intro k hk
    have hkk : k ≠ key := by
      rintro rfl
      exact hne hk
    cases t with
    | get => exact h k hk
    | put => simpa [kvModel, hkk] using h k hk
    | append => simpa [kvModel, hkk] using h k hk

namespace ShardRun

variable {configs : Nat → Config Nat} (r : ShardRun configs false)

theorem eventOn_ret {k : Nat} {id : Nat × Nat} {y : GoString} (h : r.event k = some (.ret id y)) :
    ∃ i, r.eventOn i k = some (.ret id y) := by
  obtain ⟨a, ha, hev⟩ := r.event_some h
  obtain ⟨n, req, reply, gid, servers, si, j, x, rfl, hreply, hl, -⟩ :=
    (ShardSystem.act_cases (r.next_some ha)).returns (c := id.1) (n := id.2) hev
  refine ⟨key2shard x.key, ?_⟩
  rw [eventOn, if_pos, h]
  rw [ha, Option.bind_some]
  simp only [ShardSystem.subject, hreply, hl]

theorem histories : ClassHistories (fun x : KvInput => key2shard x.key) r.event r.eventOn where
  invoke i k id x := by
    constructor
    · intro h
      obtain ⟨hev, a, ha, hsub⟩ := eventOn_some h
      have hown := eventOn_invoke hev
      obtain ⟨-, a', ha', hsub'⟩ := eventOn_some hown
      rw [ha] at ha'
      cases ha'
      rw [hsub] at hsub'
      exact ⟨hev, (Option.some.inj hsub').symm⟩
    · rintro ⟨hev, rfl⟩
      exact eventOn_invoke hev
  ret k id y := by
    constructor
    · exact r.eventOn_ret
    · rintro ⟨i, h⟩
      exact (eventOn_some h).1
  invokes j k id x y := r.numbered.invoke_unique
  returns j k id y z := r.numbered.returns
  late k id y h := by
    obtain ⟨hn, hcur, -⟩ := r.numbered.ret k id.1 id.2 y h
    obtain ⟨x, hx⟩ := Option.ne_none_iff_exists'.mp hcur
    obtain ⟨j, hj, he⟩ := r.numbered.current hx
    rw [← hn] at he
    exact ⟨j, hj, x, he⟩

theorem exists_linearization (hreal : ∀ n, 1 ≤ n → (configs n).num = n → ∀ i, (configs n).shards i ≠ 0) (K : Nat) :
    ∃ l, Linearization kvModel r.event K l := by
  choose L hL using fun i => (r.executes hreal i).linearization K
  exact r.histories.exists_linearization (fun i => (hL i).2.2) kvModel_splits

end ShardRun

/-! ## Steps without Raft -/

namespace ShardSystem

variable {configs : Nat → Config Nat} {overtakes : Bool}

def withGroups (s : ShardSystem) (G : Int → ShardGroup) : ShardSystem := { s with group := G }

theorem replica_of_front {N : Nat} {s : ShardSystem} {G : Int → ShardGroup}
    (hG : ∀ gid r, r < N → ((G gid).replica r).state = s.replica gid r) {gid : Int} {r : Nat} (hr : r < N) :
    ({ s with group := G } : ShardSystem).replica gid r = s.replica gid r := hG gid r hr

/-- A step without `Start` reads of the groups only the states of their servers. -/
theorem step_front {N : Nat} {a : ShardAct} (ha : a.front N = true) {s : ShardSystem} {G : Int → ShardGroup}
    (hG : ∀ gid r, r < N → ((G gid).replica r).state = s.replica gid r) :
    (s.withGroups G).step configs overtakes a =
      (s.step configs overtakes a).map (withGroups · G) := by
  show ({ s with group := G } : ShardSystem).step configs overtakes a = _
  cases a with
  | invoke c op =>
    simp only [step]
    cases (s.clerk c).current <;> rfl
  | lookup c =>
    simp only [step]
    cases (s.clerk c).current <;> cases (s.clerk c).stage <;> rfl
  | call c =>
    simp only [step]
    cases (s.clerk c).current with
    | none => rfl
    | some op =>
      cases (s.clerk c).stage with
      | next gid servers si i =>
        simp only
        split
        · cases servers[si]? <;> rfl
        · rfl
      | _ => rfl
  | receive k =>
    simp only [step]
    cases s.replies[k]? with
    | none => rfl
    | some p =>
      simp only [listens]
      cases s.clerk p.1.clientId with
      | mk config seqId leaderIds current stage call =>
      cases stage <;> cases current <;> simp only <;> try rfl
      split <;> rfl
  | fail c =>
    simp only [step]
    cases (s.clerk c).stage <;> rfl
  | query c n =>
    simp only [step]
    cases (s.clerk c).stage <;> rfl
  | poll gid r =>
    have hr : r < N := by simpa [ShardAct.front] using ha
    simp only [step, replica_of_front hG hr]
    split <;> rfl
  | pull gid r src =>
    have hr : r < N := by simpa [ShardAct.front] using ha
    simp only [step, replica_of_front hG hr]
    cases (s.replica gid r).lastConfig.groups.get? src <;> cases (s.replica gid r).fromOwner .pulling src <;> rfl
  | pullShard k r =>
    have hr : r < N := by simpa [ShardAct.front] using ha
    simp only [step]
    cases s.pulls[k]? with
    | none => rfl
    | some req =>
      simp only [replica_of_front hG hr]
      split
      · cases (s.replica req.src r).pullShard req.configNum req.shardIds <;> rfl
      · rfl
  | gc gid r src =>
    have hr : r < N := by simpa [ShardAct.front] using ha
    simp only [step, replica_of_front hG hr]
    cases (s.replica gid r).lastConfig.groups.get? src <;> cases (s.replica gid r).fromOwner .gcing src <;> rfl
  | gcShard k r =>
    have hr : r < N := by simpa [ShardAct.front] using ha
    simp only [step]
    cases s.gcs[k]? with
    | none => rfl
    | some req =>
      simp only [replica_of_front hG hr]
      split
      · split <;> rfl
      · rfl
  | _ => cases ha

theorem event_withGroups (s : ShardSystem) (G : Int → ShardGroup) (a : ShardAct) :
    (s.withGroups G).event a = s.event a := by
  cases a <;> rfl

theorem reply_withGroups (s : ShardSystem) (G : Int → ShardGroup) (tok : ShardTok) (r : KvReply) :
    (s.withGroups G).reply tok r = (s.reply tok r).withGroups G := by
  cases tok with
  | client req => rfl
  | gc req =>
    simp only [reply]
    split <;> rfl

/-! ## Steps of one group -/

def answers (s : ShardSystem) (l : List (ShardTok × KvReply)) : ShardSystem := l.foldl (fun s p => s.reply p.1 p.2) s

theorem answers_snoc (s : ShardSystem) (l : List (ShardTok × KvReply)) (p : ShardTok × KvReply) :
    s.answers (l ++ [p]) = (s.answers l).reply p.1 p.2 := by
  simp [answers]

theorem answers_withGroups (s : ShardSystem) (G : Int → ShardGroup) (l : List (ShardTok × KvReply)) :
    (s.withGroups G).answers l = (s.answers l).withGroups G := by
  induction l using List.reverseRecOn with
  | nil => rfl
  | append_singleton l p ih => rw [answers_snoc, answers_snoc, ih, reply_withGroups]

theorem group_answers (s : ShardSystem) (l : List (ShardTok × KvReply)) : (s.answers l).group = s.group := by
  have h : s.answers l = (s.answers l).withGroups s.group := s.answers_withGroups s.group l
  rw [h]
  rfl

theorem setGroup_answers (s : ShardSystem) (l : List (ShardTok × KvReply)) (gid : Int) (g : ShardGroup) :
    (s.answers l).setGroup gid g = (s.setGroup gid g).answers l := by
  have hset : s.setGroup gid g = s.withGroups (Function.update s.group gid g) := rfl
  rw [hset, answers_withGroups, setGroup, group_answers]
  rfl

theorem setGroup_setGroup (s : ShardSystem) (gid : Int) (g g' : ShardGroup) :
    (s.setGroup gid g).setGroup gid g' = s.setGroup gid g' := by
  simp [setGroup]

theorem shows_step {s t : ShardSystem} {a : ShardAct} (h : s.step configs false a = some t) :
    Shows (ShardSystem.step · configs false) ShardSystem.event s (s.event a).toList t := Shows.of_step h

theorem shows_acts {s : ShardSystem} {gid : Int} {l : List (ShardTok × KvReply)} {g : ShardGroup}
    (h : (s.group gid).Acts (shardMachine gid) false l g) :
    Shows (ShardSystem.step · configs false) ShardSystem.event s [] ((s.setGroup gid g).answers l) := by
  induction h with
  | refl =>
    have hself : s.setGroup gid (s.group gid) = s := by simp [setGroup]
    rw [hself]
    exact .refl
  | @snoc l a ans g₁ g₂ _ hact ih =>
    have hgroup : (((s.setGroup gid g₁).answers l).group gid).act (shardMachine gid) false a = some (g₂, ans) := by
      rw [group_answers]
      simpa only [setGroup, Function.update_self] using hact
    refine ih.snoc (a := .inner gid a) ?_
    cases ans with
    | none =>
      simp only [step, hgroup, Option.toList_none, List.append_nil, setGroup_answers, setGroup_setGroup]
    | some p => simp only [step, hgroup, Option.toList_some, answers_snoc, setGroup_answers, setGroup_setGroup]

end ShardSystem

/-! ## The servers and the groups -/

namespace ShardDeployment

section
variable {N : Nat} {configs : Nat → Config Nat} {c : (gid : Int) → Codec (shardMachine gid) ShardOp.Finite}
  {σ σ' : ShardDeployment N} {s : ShardSystem}

theorem view_replica (σ : ShardDeployment N) (gid : Int) {r : Nat} (hr : r < N) :
    σ.view.replica gid r = ((σ.stack gid).host ⟨r, hr⟩).state := by
  simp only [ShardSystem.replica, view, ShardStack.group, dif_pos hr]
  rfl

/-- The groups of `s` are histories of the servers, the rest is the same. -/
structure Runs (c : (gid : Int) → Codec (shardMachine gid) ShardOp.Finite) (σ : ShardDeployment N) (s : ShardSystem) :
    Prop where
  same : s = σ.view.withGroups s.group
  sim : ∀ gid, Sim (c gid) (σ.stack gid) (s.group gid)
  finite : ∀ gid, (s.group gid).Has ShardOp.Finite
  pulled : ∀ reply ∈ σ.pulled, (ShardCmd.install reply.req.configNum reply.shards reply.dupTable).Finite

theorem Runs.init : (ShardDeployment.init N).Runs c ShardSystem.init where
  same := rfl
  sim _ := Sim.init
  finite _ := Group.Has.init
  pulled reply h := by cases h

namespace Runs

variable (h : σ.Runs c s)

include h

theorem host_state (gid : Int) {r : Nat} (hr : r < N) : ((s.group gid).replica r).state = σ.view.replica gid r := by
  obtain ⟨applied, hrep⟩ := ((h.sim gid).host ⟨r, hr⟩).replica
  rw [σ.view_replica gid hr, hrep]
  rfl

theorem finite_state (gid : Int) {r : Nat} (hr : r < N) : (σ.view.replica gid r).Finite := by
  obtain ⟨l, hl, hfin⟩ := ((h.sim gid).host ⟨r, hr⟩).state
  rw [σ.view_replica gid hr, hl]
  exact shardMachine_replay_finite gid hfin

theorem front {a : ShardAct} (ha : a.front N = true) {t : ShardSystem} (ht : σ.view.step configs false a = some t) :
    s.step configs false a = some (t.withGroups s.group) ∧ (σ.follow t).Runs c (t.withGroups s.group) := by
  have hstep : (σ.view.withGroups s.group).step configs false a =
      (σ.view.step configs false a).map (ShardSystem.withGroups · s.group) :=
    ShardSystem.step_front ha fun gid r hr => h.host_state gid hr
  rw [← h.same, ht] at hstep
  refine ⟨hstep, rfl, h.sim, h.finite, ?_⟩
  cases ShardSystem.act_cases ht with
  | pullShard _ hp =>
    have hr := of_decide_eq_true ha
    exact forall_mem_snoc h.pulled ((h.finite_state _ hr).pullShard hp)
  | answer _ => cases ha
  | _ => exact h.pulled

theorem reply (tok : ShardTok) (r : KvReply) : (σ.answer (some (tok, r))).Runs c (s.reply tok r) := by
  have hreply := σ.view.reply_withGroups s.group tok r
  rw [← h.same] at hreply
  rw [hreply]
  refine ⟨rfl, h.sim, h.finite, ?_⟩
  have hpulled : (σ.view.reply tok r).pulled = σ.pulled := by
    cases tok with
    | client req => rfl
    | gc req =>
      simp only [ShardSystem.reply]
      split <;> rfl
  show ∀ reply ∈ (σ.view.reply tok r).pulled, _
  rw [hpulled]
  exact h.pulled

theorem setStack {gid : Int} {st : ShardStack N} {g : ShardGroup} (hs : Sim (c gid) st g) (hg : g.Has ShardOp.Finite) :
    (σ.setStack gid st).Runs c (s.setGroup gid g) := by
  have hgroups : ∀ q, Sim (c q) (Function.update σ.stack gid st q) (Function.update s.group gid g q) ∧
      (Function.update s.group gid g q).Has ShardOp.Finite := by
    intro q
    by_cases hq : q = gid
    · subst hq
      simp only [Function.update_self]
      exact ⟨hs, hg⟩
    · simp only [Function.update_of_ne hq]
      exact ⟨h.sim q, h.finite q⟩
  refine ⟨?_, fun q => (hgroups q).1, fun q => (hgroups q).2, h.pulled⟩
  rw [h.same]
  rfl

theorem nextId : s.nextId = σ.nextId := congrArg ShardSystem.nextId h.same

theorem setNextId (n : Nat) : ({ σ with nextId := n } : ShardDeployment N).Runs c { s with nextId := n } where
  same := by
    rw [h.same]
    rfl
  sim := h.sim
  finite := h.finite
  pulled := h.pulled

theorem start {gid : Int} {q : Fin N} {cmd : ShardCmd} (hst : σ.start gid q cmd = some σ') (hcmd : cmd.Finite) :
    ∃ index, σ'.Runs c (s.start gid cmd index) := by
  simp only [ShardDeployment.start, Option.map_eq_some_iff] at hst
  obtain ⟨⟨st, index⟩, hp, rfl⟩ := hst
  refine ⟨index, ?_⟩
  rw [ShardSystem.start, h.nextId]
  exact (h.setStack ((h.sim gid).propose hp)
    ((h.finite gid).propose (show ShardOp.Finite ⟨σ.nextId, cmd⟩ from hcmd) index)).setNextId _

theorem submitOp {gid : Int} {q : Fin N} {tok : ShardTok} {cmd : ShardCmd}
    (hsub : σ.submitOp gid q tok cmd = some σ') (hcmd : cmd.Finite) : ∃ index, σ'.Runs c (s.submitOp gid q tok cmd index) := by
  simp only [ShardDeployment.submitOp, Option.map_eq_some_iff] at hsub
  obtain ⟨⟨st, index⟩, hp, rfl⟩ := hsub
  refine ⟨index, ?_⟩
  rw [ShardSystem.submitOp, h.nextId]
  exact (h.setStack ((h.sim gid).submit hp)
    ((h.finite gid).submit (show ShardOp.Finite ⟨σ.nextId, cmd⟩ from hcmd) q tok index)).setNextId _

/-- Every step on the deployment is some steps of the system that show the same. -/
theorem step {a : ShardDeploymentAct N} (hq : σ.QuietInstall a) (hstep : σ.step configs c a = some σ') :
    ∃ s', Shows (ShardSystem.step · configs false) ShardSystem.event s (σ.event a).toList s' ∧ σ'.Runs c s' := by
  have hrequests : s.requests = σ.requests := congrArg ShardSystem.requests h.same
  have hpolled : s.polled = σ.polled := congrArg ShardSystem.polled h.same
  have hpulled : s.pulled = σ.pulled := congrArg ShardSystem.pulled h.same
  have hchecked : s.checked = σ.checked := congrArg ShardSystem.checked h.same
  have hgced : s.gced = σ.gced := congrArg ShardSystem.gced h.same
  cases a with
  | front a =>
    simp only [ShardDeployment.step] at hstep
    split at hstep
    · rename_i ha
      obtain ⟨t, ht, rfl⟩ := Option.map_eq_some_iff.mp hstep
      obtain ⟨hs, hruns⟩ := h.front ha ht
      refine ⟨_, ?_, hruns⟩
      have hshow := ShardSystem.shows_step hs
      have hev : s.event a = σ.view.event a := by
        rw [h.same]
        exact σ.view.event_withGroups _ a
      rw [hev] at hshow
      exact hshow
    · cases hstep
  | accept k =>
    simp only [ShardDeployment.step] at hstep
    split at hstep
    · rename_i req hreq
      split at hstep
      · rename_i hok
        obtain ⟨index, hruns⟩ := h.submitOp hstep trivial
        refine ⟨_, ShardSystem.shows_step (a := .accept k index) ?_, hruns⟩
        simp only [ShardSystem.step, hrequests, hreq, if_neg hok.1]
      · cases hstep
    · cases hstep
  | refuse k =>
    simp only [ShardDeployment.step] at hstep
    split at hstep
    · rename_i req hreq
      split at hstep
      · split at hstep
        · cases hstep
          refine ⟨_, ShardSystem.shows_step (a := .refuse k) ?_, h.reply _ _⟩
          simp only [ShardSystem.step, hrequests, hreq]
        · cases hstep
      · cases hstep
    · cases hstep
  | inner gid a =>
    simp only [ShardDeployment.step, Option.map_eq_some_iff] at hstep
    obtain ⟨⟨st, ans⟩, hact, rfl⟩ := hstep
    obtain ⟨g, hacts, hsim⟩ := (h.sim gid).act (h.finite gid).log hact (Or.inr hq)
    refine ⟨_, ShardSystem.shows_acts hacts, ?_⟩
    have hset := h.setStack hsim ((h.finite gid).acts hacts)
    cases ans with
    | none => exact hset
    | some p => exact hset.reply p.1 p.2
  | startConfig k q =>
    simp only [ShardDeployment.step] at hstep
    split at hstep
    · rename_i gid config hk
      obtain ⟨index, hruns⟩ := h.start hstep trivial
      refine ⟨_, ShardSystem.shows_step (a := .startConfig k index) ?_, hruns⟩
      simp only [ShardSystem.step, hpolled, hk]
    · cases hstep
  | startInstall k q =>
    simp only [ShardDeployment.step] at hstep
    split at hstep
    · rename_i reply hk
      obtain ⟨index, hruns⟩ := h.start hstep (h.pulled reply (List.mem_of_getElem? hk))
      refine ⟨_, ShardSystem.shows_step (a := .startInstall k index) ?_, hruns⟩
      simp only [ShardSystem.step, hpulled, hk]
    · cases hstep
  | gcSubmit k =>
    simp only [ShardDeployment.step] at hstep
    split at hstep
    · rename_i req r hk
      split at hstep
      · obtain ⟨index, hruns⟩ := h.submitOp hstep trivial
        refine ⟨_, ShardSystem.shows_step (a := .gcSubmit k index) ?_, hruns⟩
        simp only [ShardSystem.step, hchecked, hk]
      · cases hstep
    · cases hstep
  | startGC k q =>
    simp only [ShardDeployment.step] at hstep
    split at hstep
    · rename_i req hk
      obtain ⟨index, hruns⟩ := h.start hstep trivial
      refine ⟨_, ShardSystem.shows_step (a := .startGC k index) ?_, hruns⟩
      simp only [ShardSystem.step, hgced, hk]
    · cases hstep

end Runs

end

end ShardDeployment

/-! ## Runs -/

section
variable {N : Nat} {configs : Nat → Config Nat} {c : (gid : Int) → Codec (shardMachine gid) ShardOp.Finite}

theorem ShardDeploymentRun.exists_shardRun (r : ShardDeploymentRun N configs c)
    (hq : r.Meets ShardDeployment.QuietInstall) (K : Nat) :
    ∃ (r' : ShardRun configs false) (K' : Nat), shown r'.event K' = shown r.event K := by
  have hsim : ∀ (σ : ShardDeployment N) a σ' s, σ.Runs c s → σ.QuietInstall a → σ.step configs c a = some σ' →
      ∃ s', Shows (ShardSystem.step · configs false) ShardSystem.event s (σ.event a).toList s' ∧ σ'.Runs c s' :=
    fun σ a σ' s h hcond hstep => h.step hcond hstep
  obtain ⟨r', K', -, h⟩ := r.simulated hq (R := fun σ s => σ.Runs c s) .init hsim K
  exact ⟨r', K', h⟩

/-- When every configuration from the first on assigns every shard to a group and
no snapshot is accepted while commands are on their way, every history of calls
is linearizable, whatever Raft, the network, crashes and migrations do. -/
theorem shardkv_over_raft_linearizable
    (hreal : ∀ n, 1 ≤ n → (configs n).num = n → ∀ i, (configs n).shards i ≠ 0) (r : ShardDeploymentRun N configs c)
    (hq : r.Meets ShardDeployment.QuietInstall) (K : Nat) :
    (∀ j k id x y, r.event j = some (.invoke id x) → r.event k = some (.invoke id y) → j = k) ∧
      ∃ l, Linearization kvModel r.event K l := by
  have honce : ∀ j k id x y, r.event j = some (.invoke id x) → r.event k = some (.invoke id y) → ¬ j < k := by
    intro j k id x y hj hk hjk
    obtain ⟨r', K', hshown⟩ := r.exists_shardRun hq (k + 1)
    have hpair := pair_shown.mpr ⟨j, k, hjk, Nat.lt_succ_self k, hj, hk⟩
    rw [← hshown] at hpair
    obtain ⟨j', k', hlt, -, hj', hk'⟩ := pair_shown.mp hpair
    have := r'.numbered.invoke_unique hj' hk'
    omega
  constructor
  · intro j k id x y hj hk
    rcases Nat.lt_trichotomy j k with hlt | heq | hlt
    · exact absurd hlt (honce j k id x y hj hk)
    · exact heq
    · exact absurd hlt (honce k j id y x hk hj)
  · obtain ⟨r', K', hshown⟩ := r.exists_shardRun hq K
    obtain ⟨l, hl⟩ := r'.exists_linearization hreal K'
    exact ⟨l, hl.of_shown hshown⟩

end

/-! ## A run -/

namespace ShardDeploymentAct

section
variable {N : Nat} (a b : Fin N) (gid : Int)

def elect : List (ShardDeploymentAct N) :=
  [.inner gid (.raft (.server a .electionTimeout)), .inner gid (.raft (.deliver 0)), .inner gid (.raft (.deliver 0))]

/-- The leader `a` replicates its log to `b` and executes the next command. -/
def execute (snap : Bool) : List (ShardDeploymentAct N) :=
  [.inner gid (.raft (.server a (.replicate b))), .inner gid (.raft (.deliver 0)), .inner gid (.raft (.deliver 0)),
   .inner gid (.raft (.server a .collect)), .inner gid (.raft (.server a .send)), .inner gid (.raft (.server a .finish)),
   .inner gid (.take a), .inner gid (.execute a snap)]

def answer (ch : Nat) : List (ShardDeploymentAct N) :=
  [.inner gid (.notify a), .inner gid (.receive a ch), .inner gid (.finish a ch)]

end

def installs {N : Nat} : ShardDeploymentAct N → Bool
  | .inner _ (.condInstall _) => true
  | _ => false

theorem quietInstall {N : Nat} {σ : ShardDeployment N} {a : ShardDeploymentAct N} (h : a.installs = false) :
    σ.QuietInstall a := by
  cases a with
  | inner gid a =>
    cases a with
    | condInstall s => cases h
    | _ => trivial
  | _ => trivial

end ShardDeploymentAct

open ShardDeploymentAct in
/-- Server `a` is elected in both groups. Client 7 appends at group 1, whose
applier takes a snapshot; then all shards move to group 2, and a `Get` is
answered there. -/
def movedStoreActs {N : Nat} (a b : Fin N) (key value : GoString) : List (ShardDeploymentAct N) :=
  List.flatten
    [elect a 1, [.front (.poll 1 0), .startConfig 0 a], execute a b 1 false,
      [.front (.invoke 7 ⟨.append, key, value⟩), .front (.lookup 7), .front (.query 7 1), .front (.lookup 7),
        .front (.call 7), .accept 0, .inner 1 (.register a 0)],
      execute a b 1 true, answer a 1 0, [.front (.receive 0)],
      elect a 2, [.front (.poll 2 0), .startConfig 1 a], execute a b 2 false,
      [.front (.poll 1 0), .startConfig 2 a], execute a b 1 false,
      [.front (.poll 2 0), .startConfig 3 a], execute a b 2 false,
      [.front (.pull 2 0 1), .front (.pullShard 0 0), .startInstall 0 a], execute a b 2 false,
      [.front (.invoke 7 ⟨.get, key, []⟩), .front (.lookup 7), .front (.call 7), .front (.fail 7), .front (.call 7),
        .front (.fail 7), .front (.call 7), .front (.query 7 2), .front (.lookup 7), .front (.call 7), .accept 3,
        .inner 2 (.register a 0)],
      execute a b 2 false, answer a 2 0, [.front (.receive 1)]]

theorem movedStore_exec :
    (exec (ShardDeployment.step (N := 2) · handOverConfigs shardCodec) (ShardDeployment.init 2)
      (movedStoreActs (Fin.last 0).castSucc (Fin.last 1) [107] [120])).isSome = true := by decide +kernel

noncomputable def movedStore : ShardDeploymentRun 2 handOverConfigs shardCodec :=
  Run.ofList (movedStoreActs (Fin.last 0).castSucc (Fin.last 1) [107] [120]) (Option.some_get movedStore_exec).symm

theorem movedStore_quiet : movedStore.Meets ShardDeployment.QuietInstall := by
  have hall : ∀ a ∈ movedStoreActs (N := 2) (Fin.last 0).castSucc (Fin.last 1) [107] [120], a.installs = false := by
    decide +kernel
  exact Run.meets_ofList _ fun k => ShardDeploymentAct.quietInstall (hall _ (List.get_mem _ k))

theorem movedStore_linearizable :
    movedStore.event 31 = some (.ret (7, 1) []) ∧ movedStore.event 99 = some (.ret (7, 2) [120]) ∧
      ∃ l, Linearization kvModel movedStore.event 100 l :=
  ⟨by decide +kernel, by decide +kernel,
    (shardkv_over_raft_linearizable handOverConfigs_ne_zero movedStore movedStore_quiet 100).2⟩

end DistLab
