import DistLab.Ctrler.Panic
import DistLab.Service.EndToEnd
import Mathlib.Data.Countable.Basic

/-!
# shardctrler over Raft

The clerks and replicas of the shard controller together with the Raft servers
under them. The controller itself never calls `Snapshot`; that servers may do so
here only adds runs. Clients ask for nothing out of range, since that would kill
the replicas.
-/

namespace DistLab

section
variable {Srv : Type}

abbrev CtrlInput (Srv : Type) := { op : CtrlOp Srv // op.InRange }

def Stamped.cmd (x : Stamped (CtrlInput Srv)) : CtrlCmd Srv := ⟨x.clientId, x.seqId, x.input.1⟩

/-- `Query`, `Join`, `Leave` and `Move` of the clerk and of the server. The clerk
stays with a server after `ErrTimeout` and goes on to the next one after anything
else that is not an answer. -/
def ctrlFront (Srv : Type) : Front (CtrlCmd Srv) (CtrlReply Srv) (CtrlInput Srv) (Config Srv) where
  op := Stamped.cmd
  parse cmd := if h : cmd.op.InRange then some ⟨⟨cmd.op, h⟩, cmd.clientId.toNat, cmd.seqId.toNat⟩ else none
  parse_op x := dif_pos x.input.2
  answer x r := if x.1.isWrite then ⟨r.err, Config.zero⟩ else r
  returns x r := if r.err = .ok then some (if x.1.isWrite then Config.zero else r.config) else none
  returns_answer x r := by cases x.1.isWrite <;> rfl
  next servers leaderId reply :=
    match reply with
    | some r => if r.err = .errTimeout then leaderId else (leaderId + 1) % servers
    | none => (leaderId + 1) % servers

def ctrlModel (Srv : Type) : Object (List (Config Srv)) (CtrlInput Srv) (Config Srv) where
  init := [Config.zero]
  step configs x := (x.1.apply configs).getD (configs, Config.zero)

theorem CtrlOp.apply_of_query {op : CtrlOp Srv} (hq : op.isWrite = false) {configs configs' : List (Config Srv)}
    {cfg : Config Srv} (h : op.apply configs = some (configs', cfg)) : configs' = configs := by
  have same : ∀ found : Option (Config Srv), (found.bind fun cfg => some (configs, cfg)) = some (configs', cfg) →
      configs' = configs := by
    intro found hf
    obtain ⟨_, -, hf⟩ := Option.bind_eq_some_iff.mp hf
    cases hf
    rfl
  cases op with
  | query num =>
    simp only [CtrlOp.apply, Option.bind_eq_bind] at h
    split at h
    · exact same _ h
    · split at h
      · exact same _ h
      · exact same none h
  | _ => cases hq

theorem CtrlOp.apply_of_write {op : CtrlOp Srv} (hw : op.isWrite = true) {configs configs' : List (Config Srv)}
    {cfg : Config Srv} (h : op.apply configs = some (configs', cfg)) : cfg = Config.zero := by
  have split : ∀ f : Config Srv → Option (Config Srv),
      ((configs.getLast?).bind fun latest => (f latest).bind fun new => some (configs ++ [new], Config.zero)) =
        some (configs', cfg) → cfg = Config.zero := by
    intro f hf
    simp only [Option.bind_eq_some_iff] at hf
    obtain ⟨_, -, _, -, hf⟩ := hf
    cases hf
    rfl
  cases op with
  | join servers => exact split _ h
  | leave gids => exact split _ h
  | move shard gid => exact split _ h
  | query num => cases hw

/-! ## The table of last replies -/

namespace ShardCtrler

def lastReplies (sc : ShardCtrler Srv) (c : Nat) : Option (Nat × CtrlReply Srv) :=
  (sc.dupTable c).map fun last => (last.seqId.toNat, last.reply)

structure Sane (sc : ShardCtrler Srv) : Prop where
  counted : Counted sc.configs
  nonneg : ∀ c last, sc.dupTable c = some last → 0 ≤ last.seqId

/-- A write is the client's last one or newer than the table. -/
def Newer (sc : ShardCtrler Srv) (x : Stamped (CtrlInput Srv)) : Prop :=
  ∀ n r, sc.lastReplies x.clientId = some (n, r) → n < x.seqId

variable {sc sc' : ShardCtrler Srv} {x : Stamped (CtrlInput Srv)} {reply : CtrlReply Srv}

theorem sane_init : (init : ShardCtrler Srv).Sane where
  counted := counted_init
  nonneg c last h := by cases h

theorem duplicate_of_le (h : sc.Sane) (hw : x.input.1.isWrite = true) {n : Nat}
    (ht : sc.lastReplies x.clientId = some (n, reply)) (hle : x.seqId ≤ n) : sc.duplicate x.cmd = some reply := by
  obtain ⟨last, hl, he⟩ := Option.map_eq_some_iff.mp ht
  cases he
  have hpos := h.nonneg _ last hl
  have hl : sc.dupTable x.cmd.clientId = some last := hl
  have hseq : x.cmd.seqId ≤ last.seqId := by
    show (x.seqId : Int) ≤ last.seqId
    omega
  rw [duplicate, if_pos (show x.cmd.op.isWrite = true from hw), hl]
  exact if_pos hseq

theorem duplicate_query (hq : x.input.1.isWrite = false) : sc.duplicate x.cmd = none := by
  rw [duplicate, if_neg]
  show ¬ x.input.1.isWrite = true
  simp [hq]

theorem duplicate_of_newer (hf : sc.Newer x) : sc.duplicate x.cmd = none := by
  rw [duplicate]
  split
  · cases hl : sc.dupTable x.cmd.clientId with
    | none => rfl
    | some last =>
      have hlt := hf last.seqId.toNat last.reply (by rw [lastReplies, show sc.dupTable x.clientId = some last from hl]; rfl)
      refine if_neg ?_
      show ¬ (x.seqId : Int) ≤ last.seqId
      omega
  · rfl

theorem apply_new (h : sc.Sane) (hdup : sc.duplicate x.cmd = none) :
    ∃ configs config, x.input.1.apply sc.configs = some (configs, config) ∧
      sc.apply x.cmd = some (⟨configs, if x.input.1.isWrite then
        Function.update sc.dupTable x.clientId (some ⟨x.seqId, ⟨.ok, config⟩⟩) else sc.dupTable⟩, ⟨.ok, config⟩) := by
  obtain ⟨⟨configs, config⟩, happ⟩ := Option.isSome_iff_exists.mp ((h.counted.isSome_apply x.input.1).mpr x.input.2)
  refine ⟨configs, config, happ, ?_⟩
  have happ : x.cmd.op.apply sc.configs = some (configs, config) := happ
  rw [apply, hdup]
  simp only [execute, happ, Option.bind_eq_bind, Option.bind_some]
  rfl

theorem apply_write (h : sc.Sane) (hw : x.input.1.isWrite = true) (hf : sc.Newer x) :
    ∃ configs config, x.input.1.apply sc.configs = some (configs, config) ∧
      sc.apply x.cmd = some (⟨configs, Function.update sc.dupTable x.clientId (some ⟨x.seqId, ⟨.ok, config⟩⟩)⟩,
        ⟨.ok, config⟩) := by
  obtain ⟨configs, config, happ, heq⟩ := apply_new h (duplicate_of_newer hf)
  rw [if_pos hw] at heq
  exact ⟨configs, config, happ, heq⟩

theorem apply_query (h : sc.Sane) (hq : x.input.1.isWrite = false) :
    ∃ config, x.input.1.apply sc.configs = some (sc.configs, config) ∧ sc.apply x.cmd = some (sc, ⟨.ok, config⟩) := by
  obtain ⟨configs, config, happ, heq⟩ := apply_new h (duplicate_query hq)
  obtain rfl := CtrlOp.apply_of_query hq happ
  rw [if_neg (by simp [hq])] at heq
  exact ⟨config, happ, heq⟩

theorem Sane.apply (h : sc.Sane) (happ : sc.apply x.cmd = some (sc', reply)) : sc'.Sane := by
  cases hdup : sc.duplicate x.cmd with
  | some r =>
    rw [ShardCtrler.apply, hdup] at happ
    cases happ
    exact h
  | none =>
    obtain ⟨configs, config, hcfg, heq⟩ := apply_new h hdup
    rw [heq] at happ
    cases happ
    refine ⟨h.counted.apply hcfg, fun c last hl => ?_⟩
    dsimp only at hl
    split at hl
    · by_cases hc : c = x.clientId
      · rw [hc, Function.update_self] at hl
        cases hl
        exact Int.natCast_nonneg _
      · rw [Function.update_of_ne hc] at hl
        exact h.nonneg c last hl
    · exact h.nonneg c last hl

theorem lastReplies_update (configs : List (Config Srv)) (c n : Nat) (r : CtrlReply Srv) :
    (⟨configs, Function.update sc.dupTable c (some ⟨n, r⟩)⟩ : ShardCtrler Srv).lastReplies =
      Function.update sc.lastReplies c (some (n, r)) := by
  funext d
  by_cases hd : d = c
  · simp only [lastReplies, hd, Function.update_self, Option.map_some, Int.toNat_natCast]
  · have hne : (d : Int) ≠ c := by omega
    simp only [lastReplies, Function.update_of_ne hd, Function.update_of_ne hne]

end ShardCtrler

/-! ## The object -/

def ctrlSane (s : Option (ShardCtrler Srv)) : Prop := ∃ sc, s = some sc ∧ sc.Sane

theorem ctrlMachine_apply {sc sc' : ShardCtrler Srv} {x : Stamped (CtrlInput Srv)} {reply : CtrlReply Srv}
    (h : sc.apply x.cmd = some (sc', reply)) : (ctrlMachine Srv).apply (some sc) x.cmd = (some sc', reply) := by
  simp only [ctrlMachine, Option.bind_some, h]

def ctrlDedup (Srv : Type) : Dedup (ctrlMachine Srv) (ctrlFront Srv) (ctrlModel Srv) where
  read x := x.1.isWrite = false
  ok := ctrlSane
  store s := (s.map ShardCtrler.configs).getD [Config.zero]
  table s c := s.bind (·.lastReplies c)
  ident_inj x y h := by
    obtain ⟨h1, h2⟩ := Prod.mk.inj h
    exact Prod.ext (Int.ofNat_inj.mp h1) (Int.ofNat_inj.mp h2)
  ok_init := ⟨_, rfl, ShardCtrler.sane_init⟩
  store_init := rfl
  table_init _ := rfl
  reads x hq configs := by
    simp only [ctrlModel]
    cases happ : x.1.apply configs with
    | none => rfl
    | some p =>
      exact CtrlOp.apply_of_query hq happ
  ok_apply s x hs := by
    obtain ⟨sc, rfl, hsane⟩ := hs
    have hsome : (sc.apply x.cmd).isSome = true := ShardCtrler.isSome_apply hsane.counted x.input.2
    obtain ⟨⟨sc', reply⟩, happ⟩ := Option.isSome_iff_exists.mp hsome
    show ctrlSane ((ctrlMachine Srv).apply (some sc) x.cmd).1
    rw [ctrlMachine_apply happ]
    exact ⟨sc', rfl, hsane.apply happ⟩
  apply_read s x hs hq := by
    obtain ⟨sc, rfl, hsane⟩ := hs
    obtain ⟨config, -, happ⟩ := ShardCtrler.apply_query hsane hq
    show ((ctrlMachine Srv).apply (some sc) x.cmd).1 = some sc
    rw [ctrlMachine_apply happ]
  answer_read s x y hs hq _ hy := by
    obtain ⟨sc, rfl, hsane⟩ := hs
    obtain ⟨config, hcfg, happ⟩ := ShardCtrler.apply_query hsane hq
    rw [show (ctrlFront Srv).op x = x.cmd from rfl, ctrlMachine_apply happ] at hy
    simp only [ctrlFront, hq, if_true, Bool.false_eq_true, if_false] at hy
    cases hy
    simp only [ctrlModel, Option.map_some, Option.getD_some, hcfg]
  apply_old s x n r hs hw ht hle := by
    obtain ⟨sc, rfl, hsane⟩ := hs
    have hdup := ShardCtrler.duplicate_of_le hsane (by simpa using hw) ht hle
    exact ctrlMachine_apply (by rw [ShardCtrler.apply, hdup])
  store_new s x hs hw hf := by
    obtain ⟨sc, rfl, hsane⟩ := hs
    obtain ⟨configs, config, hcfg, happ⟩ := ShardCtrler.apply_write hsane (by simpa using hw) hf
    rw [show (ctrlFront Srv).op x = x.cmd from rfl, ctrlMachine_apply happ]
    simp only [ctrlModel, Option.map_some, Option.getD_some, hcfg]
  table_new s x hs hw hf := by
    obtain ⟨sc, rfl, hsane⟩ := hs
    obtain ⟨configs, config, hcfg, happ⟩ := ShardCtrler.apply_write hsane (by simpa using hw) hf
    rw [show (ctrlFront Srv).op x = x.cmd from rfl, ctrlMachine_apply happ]
    exact ShardCtrler.lastReplies_update configs x.clientId x.seqId _
  answer_new s x y hs hw hf hy := by
    obtain ⟨sc, rfl, hsane⟩ := hs
    obtain ⟨configs, config, hcfg, happ⟩ := ShardCtrler.apply_write hsane (by simpa using hw) hf
    rw [show (ctrlFront Srv).op x = x.cmd from rfl, ctrlMachine_apply happ] at hy
    have hw : x.input.1.isWrite = true := by simpa using hw
    simp only [ctrlFront, hw, if_true] at hy
    cases hy
    simp only [ctrlModel, Option.map_some, Option.getD_some, hcfg, CtrlOp.apply_of_write hw hcfg]
  wrongLeader _ := rfl
  timeout _ := rfl

/-- Every history of calls to the controller is linearizable, whatever Raft, the
network and crashes do. -/
theorem ctrler_over_raft_linearizable {N : Nat} {c : Codec (ctrlMachine Srv) fun _ => True}
    (r : DeploymentRun N c (ctrlFront Srv)) (K : Nat) :
    (∀ j k id x y, r.event j = some (.invoke id x) → r.event k = some (.invoke id y) → j = k) ∧
      ∃ l, Linearization (ctrlModel Srv) r.event K l := (ctrlDedup Srv).linearizable r K

/-! ## A run -/

instance [Countable Srv] : Countable (CtrlCmd Srv) := by
  let code : CtrlOp Srv → List (Int × List Srv) ⊕ List Int ⊕ (Int × Int) ⊕ Int := fun op =>
    match op with
    | .join servers => .inl servers.entries
    | .leave gids => .inr (.inl gids)
    | .move shard gid => .inr (.inr (.inl (shard, gid)))
    | .query num => .inr (.inr (.inr num))
  have hcode : Function.Injective code := by
    intro a b h
    cases a <;> cases b <;> simp only [code, reduceCtorEq, Sum.inl.injEq, Sum.inr.injEq, Prod.mk.injEq] at h
    · rename_i m m'
      cases m
      cases m'
      cases h
      rfl
    all_goals simp [h]
  refine Function.Injective.countable (f := fun cmd : CtrlCmd Srv => (cmd.clientId, cmd.seqId, code cmd.op)) ?_
  rintro ⟨c, n, op⟩ ⟨c', n', op'⟩ h
  simp only [Prod.mk.injEq] at h
  obtain ⟨rfl, rfl, h⟩ := h
  rw [hcode h]

noncomputable def ctrlCodec : Codec (ctrlMachine Nat) fun _ => True :=
  Classical.choice (Codec.exists_of_countable (ctrlMachine Nat) _)

/-- Server `a` is elected, and group 1 joins. -/
def electedJoinActs {N : Nat} (a b : Fin N) (servers : List Nat) :
    List (DeploymentAct N (CtrlCmd Nat) (CtrlInput Nat)) :=
  [.inner (.raft (.server a .electionTimeout)), .inner (.raft (.deliver 0)), .inner (.raft (.deliver 0)),
   .invoke 7 ⟨.join (GoMap.empty.insert 1 servers), trivial⟩, .send 7, .accept 0, .inner (.register a 0),
   .inner (.raft (.server a (.replicate b))), .inner (.raft (.deliver 0)), .inner (.raft (.deliver 0)),
   .inner (.raft (.server a .collect)), .inner (.raft (.server a .send)),
   .inner (.take a), .inner (.execute a false), .inner (.notify a), .inner (.receive a 0), .inner (.finish a 0),
   .receive 0]

theorem electedJoin_exec : (exec (Deployment.step (N := 2) ctrlCodec (ctrlFront Nat))
    (Deployment.init 2 (CtrlInput Nat) (ctrlMachine Nat)) 
    (electedJoinActs (Fin.last 0).castSucc (Fin.last 1) [0])).isSome = true := by decide +kernel

noncomputable def electedJoin : DeploymentRun 2 ctrlCodec (ctrlFront Nat) :=
  Run.ofList (electedJoinActs (Fin.last 0).castSucc (Fin.last 1) [0]) (Option.some_get electedJoin_exec).symm

theorem electedJoin_linearizable :
    (electedJoin.event 17).isSome = true ∧ ∃ l, Linearization (ctrlModel Nat) electedJoin.event 18 l :=
  ⟨by decide +kernel, (ctrler_over_raft_linearizable electedJoin 18).2⟩

end

end DistLab
