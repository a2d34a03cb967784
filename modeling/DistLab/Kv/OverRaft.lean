import DistLab.Kv.Linear
import DistLab.Service.EndToEnd

/-!
# kvraft over Raft

The clerks and servers of `kvraft` together with the Raft servers under them. The
server keeps the last reply of every client for `Put` and `Append` and executes
a `Get` whenever it comes, so a command that a snapshot has overtaken does no
harm.
-/

namespace DistLab

/-- `Get` and `PutAppend` of the clerk and of the server. The clerk asks the next
server after `ErrWrongLeader` or a failed call, the same one after `ErrTimeout`. -/
def kvFront : Front KvOp KvReply KvInput GoString where
  op x := ⟨x.input, x.clientId, x.seqId⟩
  parse op := some ⟨op.toKvInput, op.clientId, op.seqId⟩
  parse_op _ := rfl
  answer x r := if x.opType = .get then r else ⟨r.err, []⟩
  returns := KvInput.returns
  returns_answer x r := by
    split
    · rfl
    · rename_i hx
      exact KvInput.returns_of_err hx r
  next servers leaderId reply :=
    match reply with
    | some r => if r.err = .errWrongLeader then (leaderId + 1) % servers else leaderId
    | none => (leaderId + 1) % servers

/-! ## The table of last replies -/

namespace KvServer

def lastReplies (kv : KvServer) (c : Nat) : Option (Nat × KvReply) :=
  (kv.dupTable c).map fun last => (last.seqId, last.reply)

theorem lastReplies_eq {kv : KvServer} {c n : Nat} {r : KvReply} :
    kv.lastReplies c = some (n, r) ↔ kv.dupTable c = some ⟨n, r⟩ := by
  unfold lastReplies
  rw [Option.map_eq_some_iff]
  constructor
  · rintro ⟨last, hl, he⟩
    cases he
    exact hl
  · intro h
    exact ⟨_, h, rfl⟩

theorem duplicate_of_le {kv : KvServer} {op : KvOp} {n : Nat} {r : KvReply}
    (h : kv.lastReplies op.clientId = some (n, r)) (hle : op.seqId ≤ n) : kv.duplicate op = some r := by
  simp only [duplicate, lastReplies_eq.mp h, if_pos hle]

theorem duplicate_of_lt {kv : KvServer} {op : KvOp}
    (h : ∀ n r, kv.lastReplies op.clientId = some (n, r) → n < op.seqId) : kv.duplicate op = none := by
  rw [duplicate_eq_none]
  rintro ⟨last, hl, hle⟩
  exact absurd hle (Nat.not_le.mpr (h last.seqId last.reply (lastReplies_eq.mpr hl)))

theorem lastReplies_execute {kv : KvServer} {op : KvOp} (hop : op.opType ≠ .get) :
    (kv.execute op).1.lastReplies = Function.update kv.lastReplies op.clientId (some (op.seqId, (kv.execute op).2)) := by
  funext c
  by_cases hc : c = op.clientId
  · rw [hc, Function.update_self, lastReplies, dupTable_execute hop, Function.update_self]
    rfl
  · rw [Function.update_of_ne hc, lastReplies, dupTable_execute hop, Function.update_of_ne hc]
    rfl

theorem apply_new {kv : KvServer} {x : Stamped KvInput}
    (h : ∀ n r, kv.lastReplies x.clientId = some (n, r) → n < x.seqId) :
    kvMachine.apply kv (kvFront.op x) = kv.execute (kvFront.op x) := apply_of_fresh (duplicate_of_lt h)

end KvServer

def kvDedup : Dedup kvMachine kvFront kvModel where
  read x := x.opType = .get
  ok _ := True
  store kv := kv.kvStore.read
  table kv := kv.lastReplies
  ident_inj _ _ h := h
  ok_init := trivial
  store_init := rfl
  table_init _ := rfl
  reads _ hx := kvModel_reads hx
  ok_apply _ _ _ := trivial
  apply_read _ _ _ hr := KvServer.apply_get hr
  answer_read kv x y _ _ hf hy := by
    rw [KvServer.apply_new hf] at hy
    exact Store.returns_applyOp hy
  apply_old _ _ _ _ _ _ ht hle := KvServer.apply_of_duplicate (KvServer.duplicate_of_le ht hle)
  store_new kv x _ _ hf := by
    rw [KvServer.apply_new hf]
    exact Store.read_applyOp _ _
  table_new kv x _ hr hf := by
    rw [KvServer.apply_new hf]
    exact KvServer.lastReplies_execute hr
  answer_new kv x y _ _ hf hy := by
    rw [KvServer.apply_new hf] at hy
    exact Store.returns_applyOp hy
  wrongLeader x := by
    obtain ⟨t, k, v⟩ := x
    cases t <;> rfl
  timeout x := by
    obtain ⟨t, k, v⟩ := x
    cases t <;> rfl

/-- Every history of calls to `kvraft` is linearizable, whatever Raft, the
network, crashes and snapshots do. -/
theorem kvraft_over_raft_linearizable {N : Nat} {c : Codec kvMachine fun _ => True}
    (r : DeploymentRun N c kvFront) (K : Nat) :
    (∀ j k id x y, r.event j = some (.invoke id x) → r.event k = some (.invoke id y) → j = k) ∧
      ∃ l, Linearization kvModel r.event K l := kvDedup.linearizable r K

/-! ## A run -/

instance : Countable KvOp := by
  refine Function.Injective.countable (f := fun op : KvOp => (op.toKvInput, op.clientId, op.seqId)) ?_
  rintro ⟨x, c, n⟩ ⟨x', c', n'⟩ h
  cases h
  rfl

noncomputable def kvCodec : Codec kvMachine fun _ => True := Classical.choice (Codec.exists_of_countable kvMachine _)

/-- Server `a` is elected and client 7 appends to a key. Its call goes through
Raft, the applier takes a snapshot, and the clerk gets its answer; a `Get`
follows. -/
def electedAppendActs {N : Nat} (a b : Fin N) (key value : GoString) : List (DeploymentAct N KvOp KvInput) :=
  [.inner (.raft (.server a .electionTimeout)), .inner (.raft (.deliver 0)), .inner (.raft (.deliver 0)),
   .invoke 7 ⟨.append, key, value⟩, .send 7, .accept 0, .inner (.register a 0),
   .inner (.raft (.server a (.replicate b))), .inner (.raft (.deliver 0)), .inner (.raft (.deliver 0)),
   .inner (.raft (.server a .collect)), .inner (.raft (.server a .send)), .inner (.raft (.server a .finish)),
   .inner (.take a), .inner (.execute a true), .inner (.notify a), .inner (.receive a 0), .inner (.finish a 0),
   .receive 0,
   .invoke 7 ⟨.get, key, []⟩, .send 7, .accept 1, .inner (.register a 1),
   .inner (.raft (.server a (.replicate b))), .inner (.raft (.deliver 0)), .inner (.raft (.deliver 0)),
   .inner (.raft (.server a .collect)), .inner (.raft (.server a .send)),
   .inner (.take a), .inner (.execute a false), .inner (.notify a), .inner (.receive a 1), .inner (.finish a 1),
   .receive 1]

theorem electedAppend_exec : (exec (Deployment.step (N := 2) kvCodec kvFront) (Deployment.init 2 KvInput kvMachine)
    (electedAppendActs (Fin.last 0).castSucc (Fin.last 1) [107] [120])).isSome = true := by decide +kernel

noncomputable def electedAppend : DeploymentRun 2 kvCodec kvFront :=
  Run.ofList (electedAppendActs (Fin.last 0).castSucc (Fin.last 1) [107] [120]) (Option.some_get electedAppend_exec).symm

theorem electedAppend_linearizable :
    electedAppend.event 18 = some (.ret (7, 1) []) ∧ electedAppend.event 33 = some (.ret (7, 2) [120]) ∧
      ∃ l, Linearization kvModel electedAppend.event 34 l :=
  ⟨by decide +kernel, by decide +kernel, (kvraft_over_raft_linearizable electedAppend 34).2⟩

end DistLab
