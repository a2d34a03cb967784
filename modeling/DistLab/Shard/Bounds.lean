import Mathlib.Data.Nat.Nth
import DistLab.Shard.Clerk

/-!
# The clerk's place in a group

`leaderIds` keeps, for each gid, the place in the group's list of servers at
which a call last succeeded. The list comes from the configuration and is
replaced with it, the place is not. So the place fits every list exactly when no
group comes back with fewer servers than it had.
-/

namespace DistLab

/-- One clerk of its own, with the number of its queries that were answered. -/
structure ClerkState where
  clerk : ShardClerk
  queries : Nat
  /-- an index was out of range -/
  panicked : Bool

inductive ClerkAct
  | invoke (op : KvInput)
  | lookup
  | call
  | receive (reply : KvReply)
  | fail
  | query
deriving DecidableEq, Repr

namespace ClerkState

def init (configs : Nat → Config Nat) : ClerkState :=
  ⟨{ ShardClerk.init with config := configs 0 }, 1, false⟩

section
variable (σ : ClerkState)

def set (ck : ShardClerk) : ClerkState :=
  { σ with clerk := ck }

variable (configs : Nat → Config Nat)

/-- `configs n` is the answer to the `n`-th `Query(-1)` of the clerk. -/
def act : ClerkAct → Option ClerkState
  | .invoke op =>
    match σ.clerk.current with
    | none => some (σ.set (σ.clerk.begin op))
    | some _ => none
  | .lookup =>
    match σ.clerk.current, σ.clerk.stage with
    | some op, .lookup => some (σ.set (σ.clerk.lookup op))
    | _, _ => none
  | .call =>
    match σ.clerk.stage with
    | .next gid servers si i =>
      if i < servers.length then
        match servers[si]? with
        | some _ => some (σ.set { σ.clerk with stage := .calling gid servers si i, call := σ.clerk.call + 1 })
        | none => some { σ with panicked := true }
      else some (σ.set { σ.clerk with stage := .refresh })
    | _ => none
  | .receive reply =>
    match σ.clerk.current, σ.clerk.stage with
    | some op, .calling gid servers si i => some (σ.set (σ.clerk.receive gid servers si i op reply))
    | _, _ => none
  | .fail =>
    match σ.clerk.stage with
    | .calling gid servers si i => some (σ.set { σ.clerk with stage := ShardClerk.advance gid servers si i })
    | _ => none
  | .query =>
    match σ.clerk.stage with
    | .refresh =>
      some { σ with clerk := { σ.clerk with config := configs σ.queries, stage := .lookup }, queries := σ.queries + 1 }
    | _ => none

def step (a : ClerkAct) : Option ClerkState :=
  if σ.panicked then none else σ.act configs a

end

end ClerkState

abbrev ClerkRun (configs : Nat → Config Nat) := Run (ClerkState.step · configs) (ClerkState.init configs)

def ClerkRun.Accesses {configs : Nat → Config Nat} (r : ClerkRun configs) (k : Nat) (servers : List Nat) (si : Nat) :
    Prop :=
  r.act k = some .call ∧ ∃ gid i, (r.state k).clerk.stage = .next gid servers si i ∧ i < servers.length

def Config.Routes (cfg : Config Nat) (gid : Int) (servers : List Nat) : Prop :=
  (∃ s, cfg.shards s = gid) ∧ cfg.groups.get? gid = some servers

/-- No group that keys are sent to has fewer servers than it had before, unless it has none. -/
def KeepsSizes (configs : Nat → Config Nat) : Prop :=
  ∀ m n, m ≤ n → ∀ gid servers servers', (configs m).Routes gid servers → (configs n).Routes gid servers' →
    servers' ≠ [] → servers.length ≤ servers'.length

/-- What the inner loop needs: the group's list is the one of the configuration, and `si` is a place in it. -/
def ClerkStage.Fits (cfg : Config Nat) : ClerkStage → Prop
  | .next gid servers si i => cfg.Routes gid servers ∧ (i < servers.length → si < servers.length)
  | .calling gid servers si _ => cfg.Routes gid servers ∧ si < servers.length
  | _ => True

namespace ClerkState

variable {configs : Nat → Config Nat}

/-! ## Sizes that are kept -/

structure Sound (configs : Nat → Config Nat) (σ : ClerkState) : Prop where
  config : ∃ n, σ.queries = n + 1 ∧ σ.clerk.config = configs n
  leader : ∀ gid, σ.clerk.leaderIds gid = 0 ∨
    ∃ m < σ.queries, ∃ servers, (configs m).Routes gid servers ∧ σ.clerk.leaderIds gid < servers.length
  stage : σ.clerk.stage.Fits σ.clerk.config

theorem Sound.init : (init configs).Sound configs where
  config := ⟨0, rfl, rfl⟩
  leader _ := Or.inl rfl
  stage := trivial

section
variable {σ : ClerkState} (h : σ.Sound configs)
include h

theorem Sound.moves {ck : ShardClerk} (hcfg : ck.config = σ.clerk.config) (hl : ck.leaderIds = σ.clerk.leaderIds)
    (hst : ck.stage.Fits σ.clerk.config) : (σ.set ck).Sound configs where
  config := by
    obtain ⟨n, hq, hn⟩ := h.config
    exact ⟨n, hq, hcfg.trans hn⟩
  leader gid := by
    simp only [set, hl]
    exact h.leader gid
  stage := by
    simp only [set, hcfg]
    exact hst

theorem Sound.lookup (hk : KeepsSizes configs) (op : KvInput) : (σ.set (σ.clerk.lookup op)).Sound configs := by
  simp only [ShardClerk.lookup]
  split
  · rename_i servers hg
    have hr : σ.clerk.config.Routes (σ.clerk.config.shards (key2shard op.key)) servers := ⟨⟨_, rfl⟩, hg⟩
    refine h.moves rfl rfl ⟨hr, fun hpos => ?_⟩
    rcases h.leader (σ.clerk.config.shards (key2shard op.key)) with h0 | ⟨m, hm, servers', hr', hlt⟩
    · rwa [h0]
    · obtain ⟨n, hq, hcfg⟩ := h.config
      have hle := hk m n (by omega) _ _ _ hr' (hcfg ▸ hr) (List.ne_nil_of_length_pos hpos)
      omega
  · exact h.moves rfl rfl trivial

theorem Sound.advance {gid : Int} {servers : List Nat} {si i : Nat} (hr : σ.clerk.config.Routes gid servers) :
    (σ.set { σ.clerk with stage := ShardClerk.advance gid servers si i }).Sound configs :=
  h.moves rfl rfl ⟨hr, fun hi => Nat.mod_lt _ (by omega)⟩

theorem Sound.receive {gid : Int} {servers : List Nat} {si i : Nat} (hr : σ.clerk.config.Routes gid servers)
    (hsi : si < servers.length) (op : KvInput) (reply : KvReply) :
    (σ.set (σ.clerk.receive gid servers si i op reply)).Sound configs := by
  simp only [ShardClerk.receive]
  split
  · refine ⟨h.config, fun gid' => ?_, trivial⟩
    by_cases hg : gid' = gid
    · obtain ⟨n, hq, hcfg⟩ := h.config
      subst hg
      simp only [set, Function.update_self]
      exact Or.inr ⟨n, by omega, servers, hcfg ▸ hr, hsi⟩
    · simp only [set, Function.update_of_ne hg]
      exact h.leader gid'
  · split
    · exact h.moves rfl rfl trivial
    · exact h.advance hr

theorem Sound.query : Sound configs
    { σ with clerk := { σ.clerk with config := configs σ.queries, stage := .lookup }, queries := σ.queries + 1 } where
  config := ⟨σ.queries, rfl, rfl⟩
  leader gid := by
    rcases h.leader gid with h0 | ⟨m, hm, hfits⟩
    · exact Or.inl h0
    · exact Or.inr ⟨m, Nat.lt_succ_of_lt hm, hfits⟩
  stage := trivial

theorem Sound.act (hk : KeepsSizes configs) {a : ClerkAct} {σ' : ClerkState} (hs : σ.act configs a = some σ') :
    σ'.Sound configs := by
  have hfit := h.stage
  cases a with
  | invoke op =>
    simp only [ClerkState.act] at hs
    split at hs
    · cases hs
      exact h.moves rfl rfl trivial
    · cases hs
  | lookup =>
    simp only [ClerkState.act] at hs
    split at hs
    · cases hs
      exact h.lookup hk _
    · cases hs
  | call =>
    simp only [ClerkState.act] at hs
    split at hs
    · rename_i hst
      rw [hst] at hfit
      split at hs
      · rename_i hi
        rw [List.getElem?_eq_getElem (hfit.2 hi)] at hs
        cases hs
        exact h.moves rfl rfl ⟨hfit.1, hfit.2 hi⟩
      · cases hs
        exact h.moves rfl rfl trivial
    · cases hs
  | receive reply =>
    simp only [ClerkState.act] at hs
    split at hs
    · rename_i hst
      rw [hst] at hfit
      cases hs
      exact h.receive hfit.1 hfit.2 _ _
    · cases hs
  | fail =>
    simp only [ClerkState.act] at hs
    split at hs
    · rename_i hst
      rw [hst] at hfit
      cases hs
      exact h.advance hfit.1
    · cases hs
  | query =>
    simp only [ClerkState.act] at hs
    split at hs
    · cases hs
      exact h.query
    · cases hs

end

theorem act_of_step {σ σ' : ClerkState} {a : ClerkAct} (h : σ.step configs a = some σ') :
    σ.act configs a = some σ' := by
  simp only [step] at h
  split at h
  · cases h
  · exact h

theorem sound (hk : KeepsSizes configs) (r : ClerkRun configs) : ∀ k, (r.state k).Sound configs :=
  r.invariant r.meets_true .init fun _ _ _ h _ hs => h.act hk (act_of_step hs)

/-! ## Sizes that are not kept -/

abbrev Leads (configs : Nat → Config Nat) : ClerkState → ClerkState → Prop :=
  Reaches (ClerkState.step · configs)

def Overruns (σ : ClerkState) : Prop :=
  σ.panicked = false ∧
    ∃ gid servers si i, σ.clerk.stage = .next gid servers si i ∧ i < servers.length ∧ servers.length ≤ si

theorem Overruns.exists_access {σ : ClerkState} (h : σ.Overruns) (hσ : Leads configs (init configs) σ) :
    ∃ (r : ClerkRun configs) (k : Nat) (servers : List Nat) (si : Nat),
      r.Accesses k servers si ∧ servers.length ≤ si := by
  obtain ⟨hp, gid, servers, si, i, hst, hi, hsi⟩ := h
  have hstep : σ.step configs .call = some { σ with panicked := true } := by
    simp [step, act, hp, hst, hi, List.getElem?_eq_none hsi]
  obtain ⟨r, k, hk, hact, -⟩ := hσ.exists_run hstep
  refine ⟨r, k, servers, si, ⟨hact, gid, i, ?_, hi⟩, hsi⟩
  rw [hk, hst]

def busy (configs : Nat → Config Nat) (n seqId : Nat) (leaderIds : Int → Nat) (op : KvInput) (call : Nat)
    (stage : ClerkStage) : ClerkState :=
  ⟨⟨configs n, seqId, leaderIds, some op, stage, call⟩, n + 1, false⟩

def idle (configs : Nat → Config Nat) (n seqId : Nat) (leaderIds : Int → Nat) (call : Nat) : ClerkState :=
  ⟨⟨configs n, seqId, leaderIds, none, .lookup, call⟩, n + 1, false⟩

section
variable (configs : Nat → Config Nat) (n seqId : Nat) (L : Int → Nat) (op : KvInput) (call : Nat)

theorem begins : Leads configs (idle configs n seqId L call) (busy configs n (seqId + 1) L op call .lookup) :=
  Reaches.of_step (a := .invoke op) rfl

theorem refreshes : Leads configs (busy configs n seqId L op call .refresh)
    (busy configs (n + 1) seqId L op call .lookup) :=
  Reaches.of_step (a := .query) rfl

variable {gid : Int} {servers : List Nat} {si i : Nat}

theorem looks (hgid : (configs n).shards (key2shard op.key) = gid) (hg : (configs n).groups.get? gid = some servers) :
    Leads configs (busy configs n seqId L op call .lookup)
      (busy configs n seqId L op call (.next gid servers (L gid) 0)) := by
  refine Reaches.of_step (a := .lookup) ?_
  subst hgid
  simp [step, act, busy, ShardClerk.lookup, hg, set]

theorem calls (hi : i < servers.length) (hsi : si < servers.length) :
    Leads configs (busy configs n seqId L op call (.next gid servers si i))
      (busy configs n seqId L op (call + 1) (.calling gid servers si i)) := by
  refine Reaches.of_step (a := .call) ?_
  simp [step, act, busy, set, hi, List.getElem?_eq_getElem hsi]

theorem exhausts (hi : servers.length ≤ i) :
    Leads configs (busy configs n seqId L op call (.next gid servers si i))
      (busy configs n seqId L op call .refresh) := by
  refine Reaches.of_step (a := .call) ?_
  simp [step, act, busy, set, hi]

theorem turns : Leads configs (busy configs n seqId L op call (.calling gid servers si i))
    (busy configs n seqId L op call (.next gid servers ((si + 1) % servers.length) (i + 1))) :=
  Reaches.of_step (a := .fail) rfl

theorem sentAway : Leads configs (busy configs n seqId L op call (.calling gid servers si i))
    (busy configs n seqId L op call .refresh) := by
  have hnone : op.returns ⟨.errWrongGroup, []⟩ = none := by
    cases hop : op.opType <;> simp [KvInput.returns, hop]
  refine Reaches.of_step (a := .receive ⟨.errWrongGroup, []⟩) ?_
  simp [step, act, busy, set, ShardClerk.receive, hnone]

theorem succeeds : Leads configs (busy configs n seqId L op call (.calling gid servers si i))
    (idle configs n seqId (Function.update L gid si) call) := by
  have hsome : ∃ y, op.returns ⟨.ok, []⟩ = some y := by
    cases hop : op.opType <;> simp [KvInput.returns, hop]
  obtain ⟨y, hy⟩ := hsome
  refine Reaches.of_step (a := .receive ⟨.ok, []⟩) ?_
  simp [step, act, busy, idle, set, ShardClerk.receive, hy]

/-- A round of the outer loop without an answer keeps the places, if it does not panic. -/
theorem round : (∃ σ, Leads configs (busy configs n seqId L op call .lookup) σ ∧ σ.Overruns) ∨
    ∃ call', Leads configs (busy configs n seqId L op call .lookup)
      (busy configs (n + 1) seqId L op call' .lookup) := by
  cases hg : (configs n).groups.get? ((configs n).shards (key2shard op.key)) with
  | none =>
    have hnone : Leads configs (busy configs n seqId L op call .lookup) (busy configs n seqId L op call .refresh) := by
      refine Reaches.of_step (a := .lookup) ?_
      simp [step, act, busy, ShardClerk.lookup, hg, set]
    exact Or.inr ⟨call, hnone.trans (refreshes ..)⟩
  | some servers =>
    have hnext := looks configs n seqId L op call rfl hg
    by_cases hpos : 0 < servers.length
    · by_cases hlt : L ((configs n).shards (key2shard op.key)) < servers.length
      · have hcall := hnext.trans (calls configs n seqId L op call hpos hlt)
        exact Or.inr ⟨call + 1, (hcall.trans (sentAway ..)).trans (refreshes ..)⟩
      · exact Or.inl ⟨_, hnext, rfl, _, _, _, _, rfl, hpos, not_lt.1 hlt⟩
    · exact Or.inr ⟨call, (hnext.trans (exhausts configs n seqId L op call (not_lt.1 hpos))).trans (refreshes ..)⟩

theorem rounds {m n : Nat} (hmn : m ≤ n) :
    (∃ σ, Leads configs (busy configs m seqId L op call .lookup) σ ∧ σ.Overruns) ∨
      ∃ call', Leads configs (busy configs m seqId L op call .lookup) (busy configs n seqId L op call' .lookup) := by
  induction n, hmn using Nat.le_induction with
  | base => exact Or.inr ⟨call, .refl _⟩
  | succ n _ ih =>
    rcases ih with hbad | ⟨call', hcall⟩
    · exact Or.inl hbad
    · rcases round configs n seqId L op call' with ⟨σ, hσ, hbad⟩ | ⟨call'', hcall'⟩
      · exact Or.inl ⟨σ, hcall.trans hσ, hbad⟩
      · exact Or.inr ⟨call'', hcall.trans hcall'⟩

theorem rotates {j : Nat} (hj : j < servers.length) :
    ∃ call', Leads configs (busy configs n seqId L op call (.next gid servers 0 0))
      (busy configs n seqId L op call' (.next gid servers j j)) := by
  induction j with
  | zero => exact ⟨call, .refl _⟩
  | succ j ih =>
    obtain ⟨call', h⟩ := ih (by omega)
    have hcall := h.trans (calls configs n seqId L op call' (by omega) (by omega))
    have hturn := hcall.trans (turns ..)
    rw [Nat.mod_eq_of_lt hj] at hturn
    exact ⟨call' + 1, hturn⟩

/-- The clerk can come to remember any place of the list it uses. -/
theorem settles (hgid : (configs n).shards (key2shard op.key) = gid)
    (hg : (configs n).groups.get? gid = some servers) (hL : L gid = 0) (hsi : si < servers.length) :
    ∃ call', Leads configs (busy configs n seqId L op call .lookup)
      (idle configs n seqId (Function.update L gid si) call') := by
  have hnext := looks configs n seqId L op call hgid hg
  rw [hL] at hnext
  obtain ⟨call', hrot⟩ := rotates configs n seqId L op call hsi
  have hcall := (hnext.trans hrot).trans (calls configs n seqId L op call' hsi hsi)
  exact ⟨call' + 1, hcall.trans (succeeds ..)⟩

end

def keyOf (s : ShardId) : GoString :=
  [UInt8.ofNat s]

theorem key2shard_keyOf (s : ShardId) : key2shard (keyOf s) = s := by
  revert s
  decide

theorem exists_overrun {m n : Nat} (hmn : m ≤ n) {gid : Int} {servers servers' : List Nat}
    (hm : (configs m).Routes gid servers) (hn : (configs n).Routes gid servers') (hne : servers' ≠ [])
    (hlt : servers'.length < servers.length) : ∃ σ, Leads configs (init configs) σ ∧ σ.Overruns := by
  obtain ⟨⟨s, hs⟩, hg⟩ := hm
  obtain ⟨⟨s', hs'⟩, hg'⟩ := hn
  -- up to configuration `m`, then a call that succeeds at the last server of its list
  have hbegin := begins configs 0 0 (fun _ => 0) ⟨.get, keyOf s, []⟩ 0
  rcases rounds configs 1 (fun _ => 0) ⟨.get, keyOf s, []⟩ 0 (Nat.zero_le m) with ⟨σ, hσ, hbad⟩ | ⟨call, hcall⟩
  · exact ⟨σ, hbegin.trans hσ, hbad⟩
  have hlast : servers.length - 1 < servers.length := by omega
  obtain ⟨call', hidle⟩ := settles configs m 1 (fun _ => 0) ⟨.get, keyOf s, []⟩ call (by rwa [key2shard_keyOf]) hg rfl
    hlast
  -- from there on up to configuration `n`, where the place is too high
  have hagain := ((hbegin.trans hcall).trans hidle).trans (begins configs m 1 _ ⟨.get, keyOf s', []⟩ call')
  rcases rounds configs 2 (Function.update (fun _ => 0) gid (servers.length - 1)) ⟨.get, keyOf s', []⟩ call' hmn with
    ⟨σ, hσ, hbad⟩ | ⟨call'', hcall'⟩
  · exact ⟨σ, hagain.trans hσ, hbad⟩
  have hnext := looks configs n 2 (Function.update (fun _ => 0) gid (servers.length - 1)) ⟨.get, keyOf s', []⟩ call''
    (by rwa [key2shard_keyOf]) hg'
  refine ⟨_, (hagain.trans hcall').trans hnext, rfl, gid, servers', _, 0, rfl, List.length_pos_of_ne_nil hne, ?_⟩
  rw [Function.update_self]
  omega

end ClerkState

/-- A clerk stays within the lists of servers exactly if the configurations it gets keep the groups' sizes. -/
theorem clerk_in_range_iff (configs : Nat → Config Nat) :
    (∀ (r : ClerkRun configs) (k : Nat) (servers : List Nat) (si : Nat),
      r.Accesses k servers si → si < servers.length) ↔ KeepsSizes configs := by
  constructor
  · intro h m n hmn gid servers servers' hm hn hne
    by_contra hlt
    obtain ⟨σ, hσ, hbad⟩ := ClerkState.exists_overrun hmn hm hn hne (not_le.1 hlt)
    obtain ⟨r, k, servers, si, hacc, hle⟩ := hbad.exists_access hσ
    exact absurd (h r k servers si hacc) (not_lt.2 hle)
  · intro hk r k servers si hacc
    obtain ⟨-, gid, i, hst, hi⟩ := hacc
    have hfit := (ClerkState.sound hk r k).stage
    rw [hst] at hfit
    exact hfit.2 hi

/-! ## A group that comes back smaller -/

def shrinkOps : List (CtrlOp Nat) :=
  [.join (GoMap.empty.insert 1 [0, 1]), .leave [1], .join (GoMap.empty.insert 1 [2])]

/-- The clerk is made after the first join and asks again after the second. -/
def shrinkAnswers (n : Nat) : Config Nat :=
  queryConfig ((ctrlConfigs shrinkOps).getD []) (if n = 0 then 1 else 3)

def shrinkActs : List ClerkAct :=
  [.invoke ⟨.get, [], []⟩, .lookup, .call, .fail, .call, .receive ⟨.ok, []⟩,
    .invoke ⟨.get, [], []⟩, .lookup, .call, .receive ⟨.errWrongGroup, []⟩, .query, .lookup, .call]

theorem shrink_exec : (exec (ClerkState.step · shrinkAnswers) (.init shrinkAnswers) shrinkActs).isSome := by
  decide +kernel

def shrunk : ClerkRun shrinkAnswers := Run.ofList shrinkActs (Option.some_get shrink_exec).symm

/-- The group has one server now, and the clerk asks its second. -/
theorem shrunk_overruns : (ctrlConfigs shrinkOps).isSome ∧
    (∃ k servers si, shrunk.Accesses k servers si ∧ ¬ si < servers.length) ∧ (shrunk.state 13).panicked := by
  refine ⟨by decide +kernel, ⟨12, [2], 1, ⟨rfl, 1, 0, ?_, by decide⟩, by decide⟩, ?_⟩
  · rw [shrunk, Run.ofList_state]
    decide +kernel
  · rw [shrunk, Run.ofList_state]
    decide +kernel

/-! ## The clerks of the system -/

namespace ShardSystem

variable {configs : Nat → Config Nat} {overtakes : Bool} {σ σ' : ShardSystem}

def clerkAct (σ : ShardSystem) (c : Nat) : ShardAct → Option ClerkAct
  | .invoke c' op => if c' = c then some (.invoke op) else none
  | .lookup c' => if c' = c then some .lookup else none
  | .call c' => if c' = c then some .call else none
  | .receive k =>
    match σ.replies[k]? with
    | some (req, reply) => if req.clientId = c then some (.receive reply) else none
    | none => none
  | .fail c' => if c' = c then some .fail else none
  | .query c' _ => if c' = c then some .query else none
  | _ => none

theorem clerk_rests {a : ShardAct} (h : σ.step configs overtakes a = some σ') {c : Nat} (ha : σ.clerkAct c a = none) :
    σ'.clerk c = σ.clerk c := by
  cases act_cases h with
  | receive hk hl =>
    simp only [clerkAct, hk, ite_eq_right_iff, reduceCtorEq, imp_false] at ha
    exact setClerk_of_ne (Ne.symm ha) _
  | answer _ => rw [reply_clerk]; rfl
  | _ =>
    first
    | rfl
    | exact setClerk_of_ne (Ne.symm (by simpa [clerkAct] using ha)) _

theorem clerk_acts {a : ShardAct} (h : σ.step configs overtakes a = some σ') {c : Nat} {b : ClerkAct}
    (ha : σ.clerkAct c a = some b) (answers : Nat → Config Nat) (q : Nat)
    (hq : b = .query → answers q = (σ'.clerk c).config) :
    ClerkState.step ⟨σ.clerk c, q, false⟩ answers b =
      some ⟨σ'.clerk c, q + if b = .query then 1 else 0, false⟩ := by
  cases a with
  | invoke c' op =>
    simp only [clerkAct, Option.ite_none_right_eq_some, Option.some.injEq] at ha
    obtain ⟨rfl, rfl⟩ := ha
    simp only [step] at h
    split at h
    · rename_i hc
      cases h
      simp [ClerkState.step, ClerkState.act, ClerkState.set, setClerk_self, hc]
    · cases h
  | lookup c' =>
    simp only [clerkAct, Option.ite_none_right_eq_some, Option.some.injEq] at ha
    obtain ⟨rfl, rfl⟩ := ha
    simp only [step] at h
    split at h
    · rename_i hc hst
      cases h
      simp [ClerkState.step, ClerkState.act, ClerkState.set, setClerk_self, hc, hst]
    · cases h
  | call c' =>
    simp only [clerkAct, Option.ite_none_right_eq_some, Option.some.injEq] at ha
    obtain ⟨rfl, rfl⟩ := ha
    simp only [step] at h
    split at h
    · rename_i hc hst
      split at h
      · rename_i hi
        split at h
        · rename_i hsi
          cases h
          simp [ClerkState.step, ClerkState.act, ClerkState.set, setClerk_self, hst, hi, hsi]
        · cases h
      · rename_i hi
        cases h
        simp [ClerkState.step, ClerkState.act, ClerkState.set, setClerk_self, hst, hi]
    · cases h
  | receive k =>
    cases act_cases h with
    | receive hk hl =>
      simp only [clerkAct, hk, Option.ite_none_right_eq_some, Option.some.injEq] at ha
      obtain ⟨rfl, rfl⟩ := ha
      simp only [listens] at hl
      split at hl
      · rename_i hst hc
        split at hl
        · cases hl
          simp [ClerkState.step, ClerkState.act, ClerkState.set, setClerk_self, hst, hc]
        · cases hl
      · cases hl
  | fail c' =>
    simp only [clerkAct, Option.ite_none_right_eq_some, Option.some.injEq] at ha
    obtain ⟨rfl, rfl⟩ := ha
    simp only [step] at h
    split at h
    · rename_i hst
      cases h
      simp [ClerkState.step, ClerkState.act, ClerkState.set, setClerk_self, hst]
    · cases h
  | query c' n =>
    simp only [clerkAct, Option.ite_none_right_eq_some, Option.some.injEq] at ha
    obtain ⟨rfl, rfl⟩ := ha
    simp only [step] at h
    split at h
    · rename_i hst
      cases h
      simp only [setClerk_self] at hq
      simp [ClerkState.step, ClerkState.act, setClerk_self, hst, hq]
    · cases h
  | _ => cases ha

theorem config_setClerk {c' : Nat} {ck : ShardClerk} (h : ck.config = (σ.clerk c').config) (c : Nat) :
    ((σ.setClerk c' ck).clerk c).config = (σ.clerk c).config := by
  by_cases hc : c' = c
  · subst hc
    rw [setClerk_self, h]
  · rw [setClerk_of_ne (Ne.symm hc)]

theorem config_of_step {a : ShardAct} (h : σ.step configs overtakes a = some σ') (c : Nat) :
    (σ'.clerk c).config = (σ.clerk c).config ∨ ∃ n, (σ'.clerk c).config = configs n := by
  cases act_cases h with
  | invoke _ => exact Or.inl (config_setClerk (by rfl) c)
  | lookup _ _ =>
    refine Or.inl (config_setClerk ?_ c)
    simp only [ShardClerk.lookup]
    split <;> rfl
  | call _ _ => exact Or.inl (config_setClerk (by rfl) c)
  | exhausted => exact Or.inl (config_setClerk (by rfl) c)
  | receive _ _ =>
    refine Or.inl (config_setClerk ?_ c)
    simp only [ShardClerk.receive]
    split
    · rfl
    · split <;> rfl
  | fail => exact Or.inl (config_setClerk (by rfl) c)
  | @query c' n =>
    by_cases hc : c' = c
    · subst hc
      exact Or.inr ⟨n, by rw [setClerk_self]⟩
    · exact Or.inl (by rw [setClerk_of_ne (Ne.symm hc)])
  | answer _ => rw [reply_clerk]; exact Or.inl rfl
  | _ => exact Or.inl rfl

end ShardSystem

namespace ShardRun

variable {configs : Nat → Config Nat} {overtakes : Bool} (r : ShardRun configs overtakes) (c : Nat)

def clerkAct (k : Nat) : Option ClerkAct :=
  (r.act k).bind ((r.state k).clerkAct c)

def Queries (k : Nat) : Prop :=
  clerkAct r c k = some .query

instance : DecidablePred (Queries r c) := fun _ => inferInstanceAs (Decidable (_ = _))

noncomputable def clerkConfigs : Nat → Config Nat
  | 0 => Config.zero
  | j + 1 => ((r.state (Nat.nth (Queries r c) j + 1)).clerk c).config

theorem clerkConfigs_count {k : Nat} (h : Queries r c k) :
    clerkConfigs r c (Nat.count (Queries r c) k + 1) = ((r.state (k + 1)).clerk c).config := by
  simp only [clerkConfigs, Nat.nth_count h]

theorem clerk_rests {k : Nat} (h : clerkAct r c k = none) : (r.state (k + 1)).clerk c = (r.state k).clerk c := by
  rcases r.next_cases k with ⟨-, he⟩ | ⟨a, ha, hs⟩
  · rw [he]
  · simp only [clerkAct, ha, Option.bind_some] at h
    exact ShardSystem.clerk_rests hs h

noncomputable def clerkRun : ClerkRun (clerkConfigs r c) where
  state k := ⟨(r.state k).clerk c, Nat.count (Queries r c) k + 1, false⟩
  act := clerkAct r c
  start := by
    rw [r.start]
    rfl
  next k := by
    cases hact : clerkAct r c k with
    | none =>
      have hno : ¬ Queries r c k := by simp [Queries, hact]
      simp only [Nat.count_succ, if_neg hno, clerk_rests r c hact, Nat.add_zero]
    | some b =>
      obtain ⟨a, ha, hb⟩ := Option.bind_eq_some_iff.1 hact
      have hquery : b = .query ↔ Queries r c k := by simp [Queries, hact]
      have hstep := ShardSystem.clerk_acts (r.next_some ha) hb (clerkConfigs r c) (Nat.count (Queries r c) k + 1)
        fun hb => clerkConfigs_count r c (hquery.1 hb)
      simp only [hstep, hquery, Nat.count_succ, Nat.add_right_comm]

theorem config_of_clerk (k : Nat) :
    ((r.state k).clerk c).config = Config.zero ∨ ∃ n, ((r.state k).clerk c).config = configs n := by
  refine r.invariant r.meets_true (P := fun σ => (σ.clerk c).config = Config.zero ∨ ∃ n, (σ.clerk c).config = configs n)
    (Or.inl rfl) ?_ k
  intro σ a σ' h _ hs
  rcases ShardSystem.config_of_step hs c with heq | hnew
  · rwa [heq]
  · exact Or.inr hnew

/-- While no group has fewer servers in one configuration than in another, no clerk of the system leaves a list. -/
theorem clerk_in_range (hk : ∀ m n gid servers servers', (configs m).Routes gid servers →
      (configs n).Routes gid servers' → servers' ≠ [] → servers.length ≤ servers'.length)
    {k : Nat} {gid : Int} {servers : List Nat} {si i : Nat}
    (hst : ((r.state k).clerk c).stage = .next gid servers si i) (hi : i < servers.length) : si < servers.length := by
  have hanswer : ∀ n, clerkConfigs r c n = Config.zero ∨ ∃ m, clerkConfigs r c n = configs m := by
    intro n
    cases n with
    | zero => exact Or.inl rfl
    | succ n => exact config_of_clerk r c _
  have hkeeps : KeepsSizes (clerkConfigs r c) := by
    intro m n _ gid servers servers' hm hn hne
    rcases hanswer m with h0 | ⟨m', hm'⟩
    · rw [h0] at hm
      cases hm.2
    · rcases hanswer n with h0 | ⟨n', hn'⟩
      · rw [h0] at hn
        cases hn.2
      · rw [hm'] at hm
        rw [hn'] at hn
        exact hk m' n' gid servers servers' hm hn hne
  have hfit := (ClerkState.sound hkeeps (clerkRun r c) k).stage
  simp only [clerkRun, hst] at hfit
  exact hfit.2 hi

end ShardRun

end DistLab
