import DistLab.Shard.Clerk
import DistLab.Shard.Current
import DistLab.Shard.Safety

/-!
# Exactly once, across migrations

The history of a shard only grows, and what a clerk's call returns is the answer
of an execution in it, unless a replica answers with a write that its log has
refused. So every shard is linearizable by its history, whichever groups served
it, when no snapshot overtakes a command.
-/

namespace DistLab

def ShardSystem.subject (σ : ShardSystem) : ShardAct → Option ShardId
  | .invoke _ op => some (key2shard op.key)
  | .receive k =>
    match σ.replies[k]? with
    | some (req, _) =>
      match σ.listens req with
      | some (_, _, _, _, op) => some (key2shard op.key)
      | none => none
    | none => none
  | _ => none

namespace ShardRun

/-! ## The history of a run -/

section
variable {configs : Nat → Config Nat} {overtakes : Bool} (r : ShardRun configs overtakes)

def event (k : Nat) : Option (Event (Nat × Nat) KvInput GoString) := (r.act k).bind (r.state k).event

def eventOn (i : ShardId) (k : Nat) : Option (Event (Nat × Nat) KvInput GoString) :=
  if (r.act k).bind (r.state k).subject = some i then r.event k else none

def history (k : Nat) (i : ShardId) : List ShardDone := shardHistory configs (r.state k).logs k i

theorem event_some {k : Nat} {e : Event (Nat × Nat) KvInput GoString} (h : r.event k = some e) :
    ∃ a, r.act k = some a ∧ (r.state k).event a = some e := Option.bind_eq_some_iff.mp h

variable {r} in
theorem eventOn_some {i : ShardId} {k : Nat} {e : Event (Nat × Nat) KvInput GoString} (h : r.eventOn i k = some e) :
    r.event k = some e ∧ ∃ a, r.act k = some a ∧ (r.state k).subject a = some i := by
  unfold eventOn at h
  split at h
  · rename_i hs
    exact ⟨h, Option.bind_eq_some_iff.mp hs⟩
  · cases h

variable {r} in
theorem eventOn_invoke {k : Nat} {id : Nat × Nat} {x : KvInput} (h : r.event k = some (.invoke id x)) :
    r.eventOn (key2shard x.key) k = some (.invoke id x) := by
  obtain ⟨a, ha, he⟩ := r.event_some h
  unfold eventOn
  rw [if_pos, h]
  rw [ha]
  cases a with
  | invoke c op =>
    cases he
    rfl
  | receive n =>
    -- what returns does not begin
    simp only [ShardSystem.event] at he
    split at he
    · split at he
      · obtain ⟨y, -, he⟩ := Option.map_eq_some_iff.mp he
        cases he
      · cases he
    · cases he
  | _ => cases he

theorem numbered : Numbered r.event (fun k => ShardClerk.seqId ∘ (r.state k).clerk)
    (fun k => ShardClerk.current ∘ (r.state k).clerk) where
  start c := by
    simp only [r.start]
    rfl
  idle k he := by
    rcases r.next_cases k with ⟨-, heq⟩ | ⟨a, ha, hstep⟩
    · rw [heq]; exact ⟨rfl, rfl⟩
    · refine (ShardSystem.act_cases hstep).idle ?_
      unfold event at he
      rwa [ha] at he
  invoke k c n x he := by
    obtain ⟨a, ha, hev⟩ := r.event_some he
    exact (ShardSystem.act_cases (r.next_some ha)).invokes hev
  ret k c n y he := by
    obtain ⟨a, ha, hev⟩ := r.event_some he
    obtain ⟨_, req, _, _, _, _, _, op, -, -, hl, -, hc, hn, hseq, hcur⟩ :=
      (ShardSystem.act_cases (r.next_some ha)).returns hev
    refine ⟨hn, ?_, hseq, hcur⟩
    have := (ShardSystem.listens_eq hl).2.2
    rw [hc] at this
    show ((r.state k).clerk c).current ≠ none
    rw [this]
    exact Option.some_ne_none op

theorem num_le (k : Nat) (g : Int) : (replayed g ((r.state k).logs g)).config.num ≤ k := by
  induction k with
  | zero => rw [r.start]; exact le_rfl
  | succ k ih =>
    rcases r.logs_cases k with heq | ⟨_, gid, op, -, -, heq⟩
    · rw [heq]; exact Nat.le_succ_of_le ih
    · rw [heq]
      by_cases hg : g = gid
      · subst hg
        rw [push_self, replayed_snoc]
        exact (ShardKv.num_apply_le _ op).trans (Nat.succ_le_succ ih)
      · rw [push_of_ne hg]; exact Nat.le_succ_of_le ih

end

/-! ## When nothing overtakes -/

variable {configs : Nat → Config Nat} (r : ShardRun configs false)

theorem migr (k : Nat) : (r.state k).Migr configs false :=
  r.invariant r.meets_true ShardSystem.Migr.init
    (fun _ _ _ h _ hs => ShardSystem.Migr.act h (ShardSystem.act_cases hs)
      fun gid b _ => (ShardSystem.Migr.fed h gid).harmless b) k

theorem answers (k : Nat) : (r.state k).AnswersInPlace :=
  Run.induction r (P := fun _ σ => σ.AnswersInPlace) ShardSystem.Answers.init (fun _ _ h => h)
    (fun k _ _ h hs => ShardSystem.AnswersInPlace.act h (r.migr k).fed (ShardSystem.act_cases hs)) k

theorem orderly (k : Nat) : Orderly configs (r.state k).logs := (r.migr k).logs

theorem clerks (k : Nat) : (r.state k).Clerks (InvokedBefore r.event k) := by
  have hle : ∀ k id x, InvokedBefore r.event k id x → InvokedBefore r.event (k + 1) id x :=
    fun k id x h => h.mono (Nat.le_succ k)
  refine Run.induction r (P := fun k σ => σ.Clerks (InvokedBefore r.event k)) .init (fun k _ h => h.mono (hle k)) ?_ k
  intro k a _ h hstep
  refine (h.act (r.answers k) (r.migr k).fed (ShardSystem.act_cases hstep) fun c op hc => ?_).mono (hle k)
  exact r.numbered.current hc

section
variable (hreal : ∀ n, 1 ≤ n → (configs n).num = n → ∀ i, (configs n).shards i ≠ 0)
include hreal

theorem current (k : Nat) : Current configs (r.state k).logs k := by
  induction k with
  | zero => rw [r.start]; exact Current.nil
  | succ k ih =>
    have hnext := ih.bound (r.num_le k) (Nat.le_succ k)
    rcases r.logs_cases k with heq | ⟨_, gid, op, -, hp, heq⟩
    · rw [heq]; exact hnext
    · rw [heq]
      obtain ⟨hg, hl, hb⟩ := (r.migr k).heard.proposed gid _ hp.mem
      exact hnext.push hreal (r.orderly k) (r.migr k).nobody hg (Nat.le_succ_of_le (r.num_le k gid)) hl hb

theorem history_grows (k : Nat) (i : ShardId) : r.history k i <+: r.history (k + 1) i := by
  have hN : r.history k i = shardHistory configs (r.state k).logs (k + 1) i :=
    (shardHistory_bound (r.num_le k) (Nat.le_succ k)).symm
  rw [hN, history]
  rcases r.logs_cases k with heq | ⟨_, gid, op, -, hp, heq⟩
  · rw [heq]
  · rw [heq]
    exact (r.orderly k).history_le_push ((r.orderly k).virgin hreal) (r.migr k).nobody
      ((r.migr k).heard.proposed gid _ hp.mem).1 (Nat.le_succ_of_le (r.num_le k gid)) op i

end

theorem logged_invoked {k : Nat} {g : Int} {op : ShardOp} {c s : Nat} {x : KvInput} (h : op ∈ (r.state k).logs g)
    (hcmd : op.cmd = .kv c s x) : InvokedBefore r.event k (c, s) x := by
  obtain ⟨p, hp⟩ := List.getElem?_of_mem h
  exact (r.clerks k).proposed g _ (((r.migr k).fed g).logged p op hp) c s x hcmd

theorem history_invoked {k : Nat} {i : ShardId} {d : ShardDone} (h : d ∈ r.history k i) :
    InvokedBefore r.event k d.id d.input ∧ key2shard d.input.key = i := by
  obtain ⟨n, -, hd⟩ := mem_shardHistory.mp h
  obtain ⟨p, op, hp, hex⟩ := mem_executedIn.mp hd
  obtain ⟨hcmd, -, hkey, -, -, -⟩ := executes_eq_some hex
  exact ⟨r.logged_invoked (List.mem_of_getElem? hp) hcmd, hkey⟩

theorem mem_history {k n p : Nat} {g : Int} {i : ShardId} {op : ShardOp} {d : ShardDone}
    (hp : ((r.state k).logs g)[p]? = some op)
    (hex : (replayed g (((r.state k).logs g).take p)).executes g n i op = some d) : d ∈ r.history k i := by
  have hplaced := (((r.orderly k).legal g).take p).placed
  obtain ⟨-, rfl, -, ha, -, -⟩ := executes_eq_some hex
  have hown : owner configs (replayed g (((r.state k).logs g).take p)).config.num i = g :=
    hplaced.owner_eq.symm.trans ha.1
  refine mem_shardHistory.mpr ⟨_, (num_mono ( List.take_prefix p _)).trans (r.num_le k g), ?_⟩
  rw [hown]
  exact mem_executedIn.mpr ⟨p, op, hp, hex⟩

theorem history_write {k : Nat} {i : ShardId} {d : ShardDone} (h : d ∈ r.history k i) (hw : d.input.opType ≠ .get) :
    d.output = [] := by
  obtain ⟨n, -, hd⟩ := mem_shardHistory.mp h
  obtain ⟨p, op, -, hex⟩ := mem_executedIn.mp hd
  rw [(executes_eq_some hex).2.2.2.2.2]
  exact kvModel_write hw _

section
variable (hreal : ∀ n, 1 ≤ n → (configs n).num = n → ∀ i, (configs n).shards i ≠ 0)
include hreal

/-- What the log gives to a command of the open call, if the clerk returns it, is
the answer of an execution. -/
theorem replied_executed {k c s : Nat} {g : Int} {x : KvInput} {res : KvReply} {y : GoString}
    (hs : s = ((r.state k).clerk c).seqId) (hres : Replied g ((r.state k).logs g) (.kv c s x) res)
    (hret : x.returns res = some y) : ∃ d ∈ r.history k (key2shard x.key), d.id = (c, s) ∧ d.output = y := by
  obtain ⟨p, op, hp, hcmd, rfl⟩ := hres
  have hinv : InvokedBefore r.event k (c, s) x := r.logged_invoked (List.mem_of_getElem? hp) hcmd
  -- an execution at this place of the log
  have fresh : (replayed g (((r.state k).logs g).take p)).Accepts g (key2shard x.key) →
      (x.opType = .get ∨ (replayed g (((r.state k).logs g).take p)).duplicate c s = none) →
      x.returns ((replayed g (((r.state k).logs g).take p)).applyKVOp x).2 = some y →
      ∃ d ∈ r.history k (key2shard x.key), d.id = (c, s) ∧ d.output = y := fun ha hf hy => by
    have hex : (replayed g (((r.state k).logs g).take p)).executes g
        (replayed g (((r.state k).logs g).take p)).config.num (key2shard x.key) op = some ⟨(c, s), x,
          (kvModel.step ((replayed g (((r.state k).logs g).take p)).shards (key2shard x.key)).kv.read x).2⟩ := by
      simp only [ShardKv.executes, hcmd, true_and]
      exact if_pos ⟨ha, hf⟩
    exact ⟨_, r.mem_history hp hex, rfl, (Store.returns_applyOp hy).symm⟩
  simp only [ShardKv.apply, hcmd] at hret
  have hcl := (replayed g (((r.state k).logs g).take p)).applyClient_cases g c s x
  generalize (replayed g (((r.state k).logs g).take p)).applyClient g c s x = q at hcl hret
  cases hcl with
  | refused _ => rcases KvInput.returns_err hret with h | h <;> cases h
  | read ha hr => exact fresh ha (Or.inl hr) hret
  | written ha _ hdup => exact fresh ha (Or.inr hdup) hret
  | repeated ha hw hdup =>
    -- the table has a write of this client with this number: a later one it has not invoked
    obtain ⟨e, he, hle⟩ : (replayed g (((r.state k).logs g).take p)).dupTable.Covers c s := by
      by_contra hnot
      rw [ShardKv.duplicate_eq_none.mpr hnot] at hdup
      cases hdup
    obtain ⟨j, d, hd, hid, hdw⟩ := (r.current hreal k).origin g _ ( List.take_prefix p _) c e he
    obtain ⟨hdi, hkey⟩ := r.history_invoked hd
    rw [hid] at hdi
    have hmax : e.seqId ≤ ((r.state k).clerk c).seqId := r.numbered.invoked_le hdi
    have hseq : e.seqId = s := by omega
    rw [hseq] at hdi hid
    have hx : d.input = x := r.numbered.unique hdi hinv
    rw [hx] at hkey
    subst hkey
    exact ⟨d, hd, hid, by rw [r.history_write hd hdw, KvInput.returns_write hw hret]⟩

theorem answered {i : ShardId} {k : Nat} {id : Nat × Nat} {y : GoString} (he : r.eventOn i k = some (.ret id y)) :
    ∃ d ∈ r.history k i, d.id = id ∧ d.output = y := by
  obtain ⟨hev, a, ha, hsub⟩ := eventOn_some he
  obtain ⟨a', ha', hev⟩ := r.event_some hev
  rw [ha] at ha'
  cases ha'
  obtain ⟨n, req, reply, gid, servers, si, j, x, rfl, hreply, hl, hy, hc, hn, -, -⟩ :=
    (ShardSystem.act_cases (r.next_some ha)).returns (c := id.1) (n := id.2) hev
  obtain rfl : key2shard x.key = i := by
    simpa only [ShardSystem.subject, hreply, hl, Option.some.injEq] using hsub
  have hinv := r.clerks k
  obtain ⟨hcalling, hcall, hcur⟩ := ShardSystem.listens_eq hl
  obtain ⟨hreq, res, hans, hres⟩ : req ∈ (r.state k).requests ∧ ∃ res, reply = req.answer res ∧
      (r.state k).Sound req res := hinv.replies _ (List.mem_of_getElem? hreply)
  -- the reply answers the open call
  have hs := hinv.latest req hreq hcalling hcall
  have hid : (req.clientId, req.seqId) = id := Prod.ext hc (hs.trans (by rw [hc]; exact hn.symm))
  have hx : req.op = x := by
    refine r.numbered.unique (hinv.invoked req hreq) ?_
    have := r.numbered.current (k := k) (c := req.clientId) (x := x) hcur
    rwa [show (req.clientId, (ShardClerk.seqId ∘ (r.state k).clerk) req.clientId) = (req.clientId, req.seqId) from
      Prod.ext rfl hs.symm] at this
  have hret : x.returns res = some y := by rw [← hy, hans, ← hx]; exact req.returns_answer res
  rcases hres with h | h | hres
  · rcases KvInput.returns_err hret with h' | h' <;> rw [h] at h' <;> cases h'
  · rcases KvInput.returns_err hret with h' | h' <;> rw [h] at h' <;> cases h'
  · rw [hx] at hres
    rw [← hid]
    exact r.replied_executed hreal hs hres hret

theorem executes (i : ShardId) :
    Executes kvModel (fun x => x.opType = .get) (r.eventOn i) (r.history · i) where
  reads _ := kvModel_reads
  grow k := r.history_grows hreal k i
  legal k := (r.current hreal k).legal i
  invoked k d hd := by
    obtain ⟨⟨j, hj, he⟩, rfl⟩ := r.history_invoked hd
    exact ⟨j, hj, eventOn_invoke he⟩
  fresh k id x he d hd hid := r.numbered.fresh (eventOn_some he).1 (hid ▸ (r.history_invoked hd).1)
  once k := by
    refine ((r.current hreal k).once i).imp_of_mem fun {d e} hd he hne hid => ?_
    have hsame : d.input = e.input := r.numbered.unique (r.history_invoked hd).1 (hid ▸ (r.history_invoked he).1)
    have hr : d.input.opType = .get := by
      by_contra hw
      exact hne hw (hsame ▸ hw) hid
    exact ⟨hr, hsame ▸ hr⟩
  answered k id y he := r.answered hreal he
  returns j k id y z hj hk := r.numbered.returns (eventOn_some hj).1 (eventOn_some hk).1

theorem returned_executed {i : ShardId} {j k K : Nat} {id : Nat × Nat} {x : KvInput} {y : GoString} (hk : k < K)
    (hj : r.eventOn i j = some (.invoke id x))
    (hret : r.eventOn i k = some (.ret id y)) : ∃ d ∈ r.history K i, d.id = id ∧ d.input = x := by
  obtain ⟨d, hd, rfl, -⟩ := r.answered hreal hret
  have hd := ((r.executes hreal i).mono hk.le).subset hd
  -- what was executed under this number is what was invoked under it
  obtain ⟨m, -, hm⟩ := (r.history_invoked hd).1
  have hjm := r.numbered.invoke_unique (eventOn_some hj).1 hm
  rw [← hjm, (eventOn_some hj).1] at hm
  cases hm
  exact ⟨d, hd, rfl, rfl⟩

end

end ShardRun

def writes (history : List ShardDone) : List (Nat × Nat) :=
  (history.filter fun d => d.input.opType ≠ .get).map Done.id

theorem mem_writes {history : List ShardDone} {d : ShardDone} (hd : d ∈ history) (hw : d.input.opType ≠ .get) :
    d.id ∈ writes history :=
  List.mem_map_of_mem (List.mem_filter.mpr ⟨hd, by simpa using hw⟩)

theorem Current.nodup_writes {configs : Nat → Config Nat} {L : Int → List ShardOp} {N : Nat} (h : Current configs L N)
    (i : ShardId) : (writes (shardHistory configs L N i)).Nodup := by
  refine List.pairwise_map.mpr (List.pairwise_filter.mpr ((h.once i).imp fun hne hd he => ?_))
  exact hne (by simpa using hd) (by simpa using he)

/-! ## Snapshots that overtake nothing -/

namespace ShardSystem

/-- What waits at a replica, on `applyCh` or in the batch of Raft's applier, when
the step installs a snapshot there. -/
def installedOver (σ : ShardSystem) : ShardAct → Option (List Nat)
  | .inner gid (.install r _) => some ((σ.group gid).replica r).queue
  | _ => none

def QuietInstall (σ : ShardSystem) (a : ShardAct) : Prop := ∀ queue ∈ σ.installedOver a, queue = []

instance (σ : ShardSystem) (a : ShardAct) : Decidable (σ.QuietInstall a) :=
  inferInstanceAs (Decidable (∀ queue ∈ σ.installedOver a, _))

theorem step_quiet {configs : Nat → Config Nat} {σ σ' : ShardSystem} {a : ShardAct} (h : σ.QuietInstall a)
    (hs : σ.step configs true a = some σ') : σ.step configs false a = some σ' := by
  cases a with
  | inner gid b =>
    have hidle : (σ.group gid).act (shardMachine gid) true b = (σ.group gid).act (shardMachine gid) false b := by
      refine Group.act_idle fun r k hb => ?_
      subst hb
      exact h _ rfl
    simpa only [step, hidle] using hs
  | _ => exact hs

end ShardSystem

def ShardRun.quiet {configs : Nat → Config Nat} (r : ShardRun configs true) (hr : r.Meets ShardSystem.QuietInstall) :
    ShardRun configs false :=
  r.transfer hr fun _ _ _ => ShardSystem.step_quiet

/-- When every configuration from the first on assigns every shard to a group
and no snapshot is installed while commands wait, a write is executed at most
once in the history of its shard, and exactly once if its call has returned; and
the history, without reads whose answer was lost, is a linearization of the calls
for the shard. -/
theorem shardkv_exactly_once {configs : Nat → Config Nat}
    (hreal : ∀ n, 1 ≤ n → (configs n).num = n → ∀ i, (configs n).shards i ≠ 0) (r : ShardRun configs true)
    (hr : r.Meets ShardSystem.QuietInstall) (K : Nat) (i : ShardId) :
    (∀ id, (writes (r.history K i)).count id ≤ 1) ∧
      (∀ j k id x y, k < K → r.eventOn i j = some (.invoke id x) → r.eventOn i k = some (.ret id y) →
        x.opType ≠ .get → (writes (r.history K i)).count id = 1) ∧
      kvModel.Legal kvModel.init (r.history K i) ∧
      ∃ l, l.Sublist (r.history K i) ∧ (∀ d ∈ r.history K i, d.input.opType ≠ .get → d ∈ l) ∧
        Linearization kvModel (r.eventOn i) K l := by
  have hcurrent := (r.quiet hr).current hreal K
  have hnodup : (writes (r.history K i)).Nodup := hcurrent.nodup_writes i
  refine ⟨List.nodup_iff_count_le_one.mp hnodup, fun j k id x y hk hj hret hw => ?_, hcurrent.legal i,
    ((r.quiet hr).executes hreal i).linearization K⟩
  obtain ⟨d, hd, rfl, rfl⟩ := (r.quiet hr).returned_executed hreal hk hj hret
  exact List.count_eq_one_of_mem hnodup (mem_writes hd hw)

/-- Client 7 appends at group 1 and gets no answer. The shard moves to group 2,
where the second copy of the command is answered from the table that came with
it. A `Get` follows. -/
def retriedElsewhereActs (key value : GoString) : List ShardAct :=
  [.poll 1 0, .startConfig 0 1, .inner 1 (.commit 0),
   .invoke 7 ⟨.append, key, value⟩, .lookup 7, .query 7 1, .lookup 7, .call 7, .accept 0 2,
   .inner 1 (.commit 1), .inner 1 (.collect 0 2), .inner 1 (.apply 0 false), .inner 1 (.apply 0 false),
   .fail 7, .call 7, .fail 7, .call 7, .query 7 2, .lookup 7, .call 7,
   .poll 2 0, .startConfig 1 1, .inner 2 (.commit 0), .inner 2 (.collect 0 1), .inner 2 (.apply 0 false),
   .poll 1 0, .startConfig 2 3, .inner 1 (.commit 2), .inner 1 (.collect 0 3), .inner 1 (.apply 0 false),
   .poll 2 0, .startConfig 3 2, .inner 2 (.commit 1), .inner 2 (.collect 0 2), .inner 2 (.apply 0 false),
   .pull 2 0 1, .pullShard 0 0, .startInstall 0 3, .inner 2 (.commit 2), .inner 2 (.collect 0 3),
   .inner 2 (.apply 0 false), .accept 2 4, .inner 2 (.register 0 0), .inner 2 (.commit 3), .inner 2 (.collect 0 4),
   .inner 2 (.apply 0 false), .inner 2 (.notify 0), .inner 2 (.receive 0 0), .inner 2 (.finish 0 0), .receive 0,
   .invoke 7 ⟨.get, key, []⟩, .lookup 7, .call 7, .accept 3 5, .inner 2 (.register 0 1), .inner 2 (.commit 4),
   .inner 2 (.collect 0 5), .inner 2 (.apply 0 false), .inner 2 (.notify 0), .inner 2 (.receive 0 1),
   .inner 2 (.finish 0 1), .receive 1]

theorem retriedElsewhere_exec :
    (exec (ShardSystem.step · handOverConfigs true) ShardSystem.init
      (retriedElsewhereActs [107] [120])).isSome = true := by
  decide +kernel

def retriedElsewhere : ShardRun handOverConfigs true :=
  Run.ofList (retriedElsewhereActs [107] [120]) (Option.some_get retriedElsewhere_exec).symm

theorem retriedElsewhere_quiet : retriedElsewhere.Meets ShardSystem.QuietInstall :=
  Run.meets_ofList _ (by decide +kernel)

theorem retriedElsewhere_once :
    retriedElsewhere.eventOn (key2shard [107]) 49 = some (.ret (7, 1) []) ∧
      retriedElsewhere.eventOn (key2shard [107]) 61 = some (.ret (7, 2) [120]) ∧
      (writes (retriedElsewhere.history 62 (key2shard [107]))).count (7, 1) = 1 ∧
      ∃ l, Linearization kvModel (retriedElsewhere.eventOn (key2shard [107])) 62 l := by
  have hret : retriedElsewhere.eventOn (key2shard [107]) 49 = some (.ret (7, 1) []) := by decide +kernel
  have hinv : retriedElsewhere.eventOn (key2shard [107]) 3 = some (.invoke (7, 1) ⟨.append, [107], [120]⟩) := by
    decide +kernel
  obtain ⟨-, hack, -, l, -, -, hl⟩ :=
    shardkv_exactly_once handOverConfigs_ne_zero retriedElsewhere retriedElsewhere_quiet 62 (key2shard [107])
  exact ⟨hret, by decide +kernel, hack 3 49 (7, 1) _ _ (by decide) hinv hret (by decide), l, hl⟩

/-- Client 7's `Put` has returned, and no owner of the shard has executed it. -/
theorem forked_not_executed :
    (∀ n, 1 ≤ n → (handOverConfigs n).num = n → ∀ i, (handOverConfigs n).shards i ≠ 0) ∧
      forked.eventOn (key2shard [107]) 0 = some (.invoke (7, 1) ⟨.put, [107], [120]⟩) ∧
      forked.eventOn (key2shard [107]) 30 = some (.ret (7, 1) []) ∧
      (writes (forked.history 31 (key2shard [107]))).count (7, 1) = 0 := by
  refine ⟨handOverConfigs_ne_zero, ?_⟩
  decide +kernel

end DistLab
