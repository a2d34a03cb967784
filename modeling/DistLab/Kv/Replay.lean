import DistLab.Kv.Server
import DistLab.Service.GroupSound

/-!
# kvraft replicas and overtaken commands

The applier of `kvraft` does not know which index it has applied either. But a
write that is part of an installed snapshot is in the table of that snapshot,
with its own number or a later one, and a `Get` changes nothing. So executing it
again leaves the state as it is.
-/

namespace DistLab

/-! ## Writes that the table has -/

namespace KvServer

variable {kv : KvServer} {op : KvOp}

def Covers (kv : KvServer) (c s : Nat) : Prop := TableCovers LastReply.seqId kv.dupTable c s

theorem duplicate_eq_none : kv.duplicate op = none ↔ ¬ kv.Covers op.clientId op.seqId := by
  unfold duplicate Covers TableCovers
  cases kv.dupTable op.clientId with
  | none => simp
  | some last => simp

theorem duplicate_eq_some {r : KvReply} (h : kv.duplicate op = some r) : kv.Covers op.clientId op.seqId := by
  by_contra hcov
  rw [duplicate_eq_none.mpr hcov] at h
  cases h

theorem apply_of_covers (h : kv.Covers op.clientId op.seqId) : (kv.apply op).1 = kv := by
  obtain ⟨last, hl, hle⟩ := h
  simp [apply, duplicate, hl, hle]

theorem apply_get (h : op.opType = .get) : (kv.apply op).1 = kv := by
  unfold apply
  cases kv.duplicate op with
  | some r => rfl
  | none =>
    simp only [execute, Store.applyOp, h, ne_eq, not_true_eq_false, if_false]
    cases kv.kvStore op.key <;> rfl

theorem dupTable_execute (h : op.opType ≠ .get) : (kv.execute op).1.dupTable =
    Function.update kv.dupTable op.clientId (some ⟨op.seqId, (kv.kvStore.applyOp op.toKvInput).2⟩) := by
  simp only [execute, if_pos h]

theorem covers_apply_self (h : op.opType ≠ .get) : (kv.apply op).1.Covers op.clientId op.seqId := by
  by_cases hcov : kv.Covers op.clientId op.seqId
  · rwa [apply_of_covers hcov]
  · simp only [apply, duplicate_eq_none.mpr hcov, Covers, dupTable_execute h]
    exact ⟨_, Function.update_self .., le_rfl⟩

theorem Covers.apply {c s : Nat} (h : kv.Covers c s) (op : KvOp) : (kv.apply op).1.Covers c s := by
  by_cases hget : op.opType = .get
  · rwa [apply_get hget]
  · by_cases hcov : kv.Covers op.clientId op.seqId
    · rwa [apply_of_covers hcov]
    · simp only [KvServer.apply, duplicate_eq_none.mpr hcov, Covers, dupTable_execute hget]
      exact TableCovers.update h hcov

theorem dupTable_apply {c : Nat} {last : LastReply} (h : (kv.apply op).1.dupTable c = some last) :
    kv.dupTable c = some last ∨ c = op.clientId ∧ last.seqId = op.seqId ∧ op.opType ≠ .get := by
  by_cases hget : op.opType = .get
  · rw [apply_get hget] at h
    exact Or.inl h
  · by_cases hcov : kv.Covers op.clientId op.seqId
    · rw [apply_of_covers hcov] at h
      exact Or.inl h
    · simp only [apply, duplicate_eq_none.mpr hcov, dupTable_execute hget] at h
      by_cases hc : c = op.clientId
      · subst hc
        rw [Function.update_self] at h
        cases h
        exact Or.inr ⟨rfl, rfl, hget⟩
      · rw [Function.update_of_ne hc] at h
        exact Or.inl h

end KvServer

/-- A command of the log changes nothing when it is executed again later. -/
theorem kv_replay_again {log log' : List KvOp} {p : Nat} {op : KvOp} (hp : log[p]? = some op)
    (hle : log.take (p + 1) <+: log') : ((kvMachine.replay log').apply op).1 = kvMachine.replay log' := by
  by_cases hget : op.opType = .get
  · exact KvServer.apply_get hget
  · refine KvServer.apply_of_covers ?_
    refine kvMachine.replay_keep (P := fun kv => kv.Covers op.clientId op.seqId) (fun _ o h => h.apply o) hle ?_
    rw [kvMachine.replay_succ hp]
    exact KvServer.covers_apply_self hget

theorem kv_harmless {g : Group KvOp (Nat × Nat) KvServer KvReply Unit} (h : g.Fed kvMachine true) (a : Inner) :
    g.Harmless kvMachine a := by
  intro r snap j q op _ hq hop hle
  have hpos : 0 < j := (h.replica r).feeds.mem_pos (hq ▸ List.mem_cons_self)
  rw [(h.replica r).state]
  exact kv_replay_again hop (List.take_prefix_take_left (by omega))

/-- Whatever snapshots overtake, a replica is at all times the committed log,
executed once and in order up to the largest index that was delivered or
installed. -/
theorem kvraft_replica_replays_log (r : Run (Group.step kvMachine true) (Group.init kvMachine)) (k q : Nat) :
    ((r.state k).replica q).applied ≤ (r.state k).log.length ∧
      ((r.state k).replica q).state = kvMachine.replay ((r.state k).log.take ((r.state k).replica q).applied) := by
  have hfed := (Group.fed_run r (fun _ a h => kv_harmless h a) k).replica q
  exact ⟨hfed.applied_le, hfed.state⟩

end DistLab
