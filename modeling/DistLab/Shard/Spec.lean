import DistLab.Service.GroupSound
import DistLab.Shard.System

/-!
# The steps of shardkv

What a step of the system can do, with its guards.
-/

namespace DistLab

namespace ShardSystem

def logs (σ : ShardSystem) (gid : Int) : List ShardOp := (σ.group gid).log

inductive Act (configs : Nat → Config Nat) (overtakes : Bool) (σ : ShardSystem) : ShardAct → ShardSystem → Prop
  | invoke {c : Nat} {op : KvInput} : (σ.clerk c).current = none →
      Act configs overtakes σ (.invoke c op) (σ.setClerk c ((σ.clerk c).begin op))
  | lookup {c : Nat} {op : KvInput} : (σ.clerk c).current = some op → (σ.clerk c).stage = .lookup →
      Act configs overtakes σ (.lookup c) (σ.setClerk c ((σ.clerk c).lookup op))
  | call {c : Nat} {op : KvInput} {gid : Int} {servers : List Nat} {si i server : Nat} :
      (σ.clerk c).current = some op → (σ.clerk c).stage = .next gid servers si i →
      Act configs overtakes σ (.call c)
        { σ.setClerk c { σ.clerk c with stage := .calling gid servers si i, call := (σ.clerk c).call + 1 } with
          requests := σ.requests ++ [⟨gid, server, c, (σ.clerk c).seqId, op, (σ.clerk c).call + 1⟩] }
  | exhausted {c : Nat} : Act configs overtakes σ (.call c) (σ.setClerk c { σ.clerk c with stage := .refresh })
  | receive {k : Nat} {req : ShardRequest} {reply : KvReply} {gid : Int} {servers : List Nat} {si i : Nat}
      {op : KvInput} : σ.replies[k]? = some (req, reply) → σ.listens req = some (gid, servers, si, i, op) →
      Act configs overtakes σ (.receive k)
        (σ.setClerk req.clientId ((σ.clerk req.clientId).receive gid servers si i op reply))
  | fail {c : Nat} {gid : Int} {servers : List Nat} {si i : Nat} :
      Act configs overtakes σ (.fail c) (σ.setClerk c { σ.clerk c with stage := ShardClerk.advance gid servers si i })
  | query {c n : Nat} :
      Act configs overtakes σ (.query c n) (σ.setClerk c { σ.clerk c with config := configs n, stage := .lookup })
  | accept {k index : Nat} {req : ShardRequest} : req ∈ σ.requests → req.gid ≠ 0 →
      Act configs overtakes σ (.accept k index)
        (σ.submitOp req.gid req.server (.client req) (.kv req.clientId req.seqId req.op) index)
  | refuse {k : Nat} {req : ShardRequest} : req ∈ σ.requests →
      Act configs overtakes σ (.refuse k) (σ.reply (.client req) ⟨.errWrongLeader, []⟩)
  | inner {gid : Int} {a : Inner} {g : ShardGroup} : (σ.group gid).Act (shardMachine gid) overtakes a g none →
      Act configs overtakes σ (.inner gid a) (σ.setGroup gid g)
  | answer {gid : Int} {a : Inner} {g : ShardGroup} {tok : ShardTok} {r : KvReply} :
      (σ.group gid).Act (shardMachine gid) overtakes a g (some (tok, r)) →
      Act configs overtakes σ (.inner gid a) ((σ.setGroup gid g).reply tok r)
  | poll {gid : Int} {r : Nat} : gid ≠ 0 → (σ.replica gid r).allStable = true →
      (configs ((σ.replica gid r).config.num + 1)).num = (σ.replica gid r).config.num + 1 →
      Act configs overtakes σ (.poll gid r)
        { σ with polled := σ.polled ++ [(gid, configs ((σ.replica gid r).config.num + 1))] }
  | startConfig {k index : Nat} {gid : Int} {config : Config Nat} : (gid, config) ∈ σ.polled →
      Act configs overtakes σ (.startConfig k index) (σ.start gid (.config config) index)
  | pull {gid src : Int} {r : Nat} {servers : List Nat} : (σ.replica gid r).fromOwner .pulling src ≠ [] →
      Act configs overtakes σ (.pull gid r src)
        { σ with pulls := σ.pulls ++
          [⟨gid, src, servers, (σ.replica gid r).config.num, (σ.replica gid r).fromOwner .pulling src⟩] }
  | pullShard {k r : Nat} {req : MoveRequest} {shards : ShardId → Option Store} {dupTable : DupTable} :
      req ∈ σ.pulls → (σ.replica req.src r).pullShard req.configNum req.shardIds = some (shards, dupTable) →
      Act configs overtakes σ (.pullShard k r) { σ with pulled := σ.pulled ++ [⟨req, shards, dupTable⟩] }
  | startInstall {k index : Nat} {reply : PullReply} : reply ∈ σ.pulled →
      Act configs overtakes σ (.startInstall k index)
        (σ.start reply.req.gid (.install reply.req.configNum reply.shards reply.dupTable) index)
  | gc {gid src : Int} {r : Nat} {servers : List Nat} : (σ.replica gid r).fromOwner .gcing src ≠ [] →
      Act configs overtakes σ (.gc gid r src)
        { σ with gcs := σ.gcs ++
          [⟨gid, src, servers, (σ.replica gid r).config.num, (σ.replica gid r).fromOwner .gcing src⟩] }
  | gcShard {k r : Nat} {req : MoveRequest} : σ.gcs[k]? = some req →
      (σ.replica req.src r).alreadyGCed req.configNum req.shardIds = true →
      Act configs overtakes σ (.gcShard k r) { σ with gced := σ.gced ++ [req] }
  | check {k r : Nat} {req : MoveRequest} : σ.gcs[k]? = some req →
      (σ.replica req.src r).alreadyGCed req.configNum req.shardIds = false →
      Act configs overtakes σ (.gcShard k r) { σ with checked := σ.checked ++ [(req, r)] }
  | gcSubmit {k index r : Nat} {req : MoveRequest} : (req, r) ∈ σ.checked →
      Act configs overtakes σ (.gcSubmit k index)
        (σ.submitOp req.src r (.gc req) (.gc req.configNum req.shardIds) index)
  | startGC {k index : Nat} {req : MoveRequest} : req ∈ σ.gced →
      Act configs overtakes σ (.startGC k index) (σ.start req.gid (.gc req.configNum req.shardIds) index)

def Commits (σ : ShardSystem) (a : ShardAct) (gid : Int) (op : ShardOp) : Prop :=
  ∃ k, a = .inner gid (.commit k) ∧ (σ.group gid).proposed[k]? = some ((σ.group gid).log.length + 1, op)

variable {configs : Nat → Config Nat} {overtakes : Bool} {σ σ' : ShardSystem}

theorem Commits.mem {a : ShardAct} {gid : Int} {op : ShardOp} (h : σ.Commits a gid op) :
    ((σ.group gid).log.length + 1, op) ∈ (σ.group gid).proposed := by
  obtain ⟨k, -, hk⟩ := h
  exact List.mem_of_getElem? hk

theorem act_cases {a : ShardAct} (h : σ.step configs overtakes a = some σ') : Act configs overtakes σ a σ' := by
  cases a with
  | invoke c op =>
    simp only [step] at h
    split at h
    · rename_i hc
      cases h
      exact .invoke hc
    · cases h
  | lookup c =>
    simp only [step] at h
    split at h
    · rename_i hc hst
      cases h
      exact .lookup hc hst
    · cases h
  | call c =>
    simp only [step] at h
    split at h
    · rename_i hc hst
      split at h
      · split at h
        · cases h; exact .call hc hst
        · cases h
      · cases h; exact .exhausted
    · cases h
  | receive k =>
    simp only [step] at h
    split at h
    · rename_i hk
      split at h
      · rename_i hl
        cases h
        exact .receive hk hl
      · cases h
    · cases h
  | fail c =>
    simp only [step] at h
    split at h
    · cases h; exact .fail
    · cases h
  | query c n =>
    simp only [step] at h
    split at h
    · cases h; exact .query
    · cases h
  | accept k index =>
    simp only [step] at h
    split at h
    · rename_i hk
      split at h
      · cases h
      · rename_i hne
        cases h
        exact .accept (List.mem_of_getElem? hk) hne
    · cases h
  | refuse k =>
    simp only [step] at h
    split at h
    · rename_i hk
      cases h
      exact .refuse (List.mem_of_getElem? hk)
    · cases h
  | inner gid a =>
    simp only [step] at h
    split at h
    · rename_i hg
      cases h
      exact .inner (Group.act_cases hg)
    · rename_i hg
      cases h
      exact .answer (Group.act_cases hg)
    · cases h
  | poll gid r =>
    simp only [step] at h
    split at h
    · rename_i hp
      cases h
      exact .poll hp.1 hp.2.1 hp.2.2
    · cases h
  | startConfig k index =>
    simp only [step] at h
    split at h
    · rename_i hk
      cases h
      exact .startConfig (List.mem_of_getElem? hk)
    · cases h
  | pull gid r src =>
    simp only [step] at h
    split at h
    · rename_i hids
      cases h
      rw [← hids]
      exact .pull (by rw [hids]; exact List.cons_ne_nil _ _)
    · cases h
  | pullShard k r =>
    simp only [step] at h
    split at h
    · rename_i hk
      split at h
      · split at h
        · rename_i hp
          cases h
          exact .pullShard (List.mem_of_getElem? hk) hp
        · cases h
      · cases h
    · cases h
  | startInstall k index =>
    simp only [step] at h
    split at h
    · rename_i hk
      cases h
      exact .startInstall (List.mem_of_getElem? hk)
    · cases h
  | gc gid r src =>
    simp only [step] at h
    split at h
    · rename_i hids
      cases h
      rw [← hids]
      exact .gc (by rw [hids]; exact List.cons_ne_nil _ _)
    · cases h
  | gcShard k r =>
    simp only [step] at h
    split at h
    · rename_i hk
      split at h
      · split at h
        · rename_i hg
          cases h
          exact .gcShard hk hg
        · rename_i hg
          cases h
          exact .check hk (Bool.eq_false_iff.mpr hg)
      · cases h
    · cases h
  | gcSubmit k index =>
    simp only [step] at h
    split at h
    · rename_i hk
      cases h
      exact .gcSubmit (List.mem_of_getElem? hk)
    · cases h
  | startGC k index =>
    simp only [step] at h
    split at h
    · rename_i hk
      cases h
      exact .startGC (List.mem_of_getElem? hk)
    · cases h

/-! ## Groups -/

theorem setGroup_self (gid : Int) (g : ShardGroup) : (σ.setGroup gid g).group gid = g := Function.update_self ..

theorem setGroup_ne {gid gid' : Int} (g : ShardGroup) (h : gid' ≠ gid) : (σ.setGroup gid g).group gid' = σ.group gid' :=
  Function.update_of_ne h ..

theorem forall_setGroup {P : Int → ShardGroup → Prop} (h : ∀ gid, P gid (σ.group gid)) {gid : Int} {g : ShardGroup}
    (hg : P gid g) (gid' : Int) : P gid' ((σ.setGroup gid g).group gid') := by
  by_cases hne : gid' = gid
  · subst hne; rw [setGroup_self]; exact hg
  · rw [setGroup_ne g hne]; exact h gid'

theorem logs_setGroup (gid : Int) (g : ShardGroup) : (σ.setGroup gid g).logs = Function.update σ.logs gid g.log := by
  funext gid'
  by_cases h : gid' = gid
  · subst h; rw [logs, setGroup_self, Function.update_self]
  · rw [logs, setGroup_ne g h, Function.update_of_ne h]; rfl

@[simp] theorem reply_group (tok : ShardTok) (r : KvReply) : (σ.reply tok r).group = σ.group := by
  cases tok with
  | client req => rfl
  | gc req =>
    simp only [reply]
    split <;> rfl

@[simp] theorem logs_start (gid : Int) (cmd : ShardCmd) (index : Nat) : (σ.start gid cmd index).logs = σ.logs := by
  show (σ.setGroup gid _).logs = σ.logs
  rw [logs_setGroup]
  exact Function.update_eq_self gid σ.logs

@[simp] theorem logs_submitOp (gid : Int) (r : Nat) (tok : ShardTok) (cmd : ShardCmd) (index : Nat) :
    (σ.submitOp gid r tok cmd index).logs = σ.logs := by
  show (σ.setGroup gid _).logs = σ.logs
  rw [logs_setGroup]
  exact Function.update_eq_self gid σ.logs

theorem logs_le_setGroup {gid : Int} {g : ShardGroup} (h : σ.logs gid <+: g.log) (gid' : Int) :
    σ.logs gid' <+: (σ.setGroup gid g).logs gid' :=
  forall_setGroup (P := fun gid g => σ.logs gid <+: g.log) (fun _ => List.prefix_rfl) h gid'

end ShardSystem

end DistLab
