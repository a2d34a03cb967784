import DistLab.Kv.Replay
import DistLab.Lib.Firsts

/-!
# kvraft executes every operation once

The table of last replies has one entry for a client and is written by its writes
only. If the numbers of a client first come in increasing order, it still lets
exactly those writes through that have not come before, and has the answer to the
last one of them.
-/

namespace DistLab

def plainStore (ops : List KvOp) : Store := ops.foldl (fun m op => (m.applyOp op.toKvInput).1) Store.empty

def KvOrdered (log : List KvOp) : Prop :=
  (firsts KvOp.ident log).Pairwise fun a b => a.clientId = b.clientId → a.seqId < b.seqId

/-- What repeats a `Get` is a `Get`, and what repeats a write is a write. -/
def KvCopied (log : List KvOp) : Prop :=
  ∀ a ∈ log, ∀ b ∈ log, a.ident = b.ident → (a.opType = .get ↔ b.opType = .get)

instance (log : List KvOp) : Decidable (KvOrdered log) := inferInstanceAs (Decidable (List.Pairwise _ _))

instance (log : List KvOp) : Decidable (KvCopied log) := inferInstanceAs (Decidable (∀ _ ∈ _, _))

def FirstAt (log : List KvOp) (p : Nat) (op : KvOp) : Prop := log[p]? = some op ∧ op.ident ∉ (log.take p).map KvOp.ident

def answerAt (log : List KvOp) (p : Nat) (op : KvOp) : KvReply := ((kvMachine.replay (log.take p)).apply op).2

section
variable {log more : List KvOp} {op : KvOp} {kv : KvServer} {p : Nat}

theorem KvOrdered.init (h : KvOrdered (log ++ more)) : KvOrdered log :=
  List.Pairwise.sublist (firsts_le_append KvOp.ident log more).sublist h

theorem KvCopied.init (h : KvCopied (log ++ more)) : KvCopied log := fun a ha b hb =>
  h a (List.mem_append_left _ ha) b (List.mem_append_left _ hb)

theorem KvOrdered.lt (h : KvOrdered (log ++ [op])) (hnew : op.ident ∉ log.map KvOp.ident) {o : KvOp} (ho : o ∈ log)
    (hc : o.clientId = op.clientId) : o.seqId < op.seqId := by
  rw [← mem_map_firsts] at hnew
  rw [KvOrdered, firsts_snoc_of_not_mem _ hnew, List.pairwise_append] at h
  have hmem : o.ident ∈ (firsts KvOp.ident log).map KvOp.ident :=
    (mem_map_firsts KvOp.ident).mpr (List.mem_map_of_mem ho)
  obtain ⟨w, hw, hid⟩ := List.mem_map.mp hmem
  have hlt := h.2.2 w hw op (List.mem_singleton_self _) ((congrArg Prod.fst hid).trans hc)
  rwa [show w.seqId = o.seqId from congrArg Prod.snd hid] at hlt

theorem FirstAt.append (h : FirstAt log p op) (more : List KvOp) : FirstAt (log ++ more) p op := by
  obtain ⟨hlt, -⟩ := List.getElem?_eq_some_iff.mp h.1
  refine ⟨by rw [List.getElem?_append_left hlt]; exact h.1, ?_⟩
  rw [List.take_append_of_le_length hlt.le]
  exact h.2

theorem FirstAt.unique {p' : Nat} {op' : KvOp} (h : FirstAt log p op) (h' : FirstAt log p' op')
    (hid : op.ident = op'.ident) : p = p' := by
  have before : ∀ {i j : Nat} {a b : KvOp}, log[i]? = some a → FirstAt log j b → a.ident = b.ident → ¬ i < j := by
    intro i j a b ha hb hab hlt
    refine hb.2 (hab ▸ List.mem_map_of_mem (List.mem_of_getElem? (i := i) ?_))
    rw [List.getElem?_take_of_lt hlt]
    exact ha
  have h1 := before h.1 h' hid
  have h2 := before h'.1 h hid.symm
  omega

theorem answerAt_append (hp : p ≤ log.length) (more : List KvOp) : answerAt (log ++ more) p op = answerAt log p op := by
  rw [answerAt, List.take_append_of_le_length hp, answerAt]

/-! ## The table -/

/-- The entry is of the client's last write, with the answer it got where it came
first. -/
def LastWrite (log : List KvOp) (c : Nat) (l : LastReply) : Prop :=
  ∃ p w, FirstAt log p w ∧ w.ident = (c, l.seqId) ∧ w.opType ≠ .get ∧ l.reply = answerAt log p w ∧
    ∀ o ∈ log, o.clientId = c → o.opType ≠ .get → o.seqId ≤ l.seqId

theorem LastWrite.append {c : Nat} {l : LastReply} (h : LastWrite log c l)
    (hop : op.clientId = c → op.opType ≠ .get → op.seqId ≤ l.seqId) : LastWrite (log ++ [op]) c l := by
  obtain ⟨p, w, hfirst, hid, hw, hreply, hmax⟩ := h
  obtain ⟨hlt, -⟩ := List.getElem?_eq_some_iff.mp hfirst.1
  exact ⟨p, w, hfirst.append _, hid, hw, by rw [answerAt_append hlt.le, hreply], forall_mem_snoc hmax hop⟩

structure KvServer.Once (log : List KvOp) (kv : KvServer) : Prop where
  store : kv.kvStore = plainStore (firsts KvOp.ident log)
  unknown : ∀ c, kv.dupTable c = none → ∀ o ∈ log, o.clientId = c → o.opType = .get
  last : ∀ c l, kv.dupTable c = some l → LastWrite log c l

theorem KvServer.once_init : KvServer.init.Once [] where
  store := rfl
  unknown c _ o ho := by cases ho
  last c l h := by cases h

theorem KvServer.Once.same (h : kv.Once log) (hseen : op.ident ∈ log.map KvOp.ident)
    (hold : op.opType ≠ .get → ∃ l, kv.dupTable op.clientId = some l ∧ op.seqId ≤ l.seqId) : kv.Once (log ++ [op]) where
  store := by
    rw [firsts_snoc_of_mem _ ((mem_map_firsts KvOp.ident).mpr hseen)]
    exact h.store
  unknown c hc := by
    refine forall_mem_snoc (h.unknown c hc) fun hcl => ?_
    by_contra hget
    obtain ⟨l, hl, -⟩ := hold hget
    rw [← hcl, hl] at hc
    cases hc
  last c l hl := by
    refine (h.last c l hl).append fun hcl hget => ?_
    obtain ⟨l', hl', hle⟩ := hold hget
    rw [hcl, hl] at hl'
    cases hl'
    exact hle

theorem KvServer.Once.repeated (h : kv.Once log) (hcopied : KvCopied (log ++ [op]))
    (hseen : op.ident ∈ log.map KvOp.ident) : (kv.apply op).1.Once (log ++ [op]) := by
  by_cases hget : op.opType = .get
  · rw [apply_get hget]
    exact h.same hseen fun hne => absurd hget hne
  · obtain ⟨o, ho, hid⟩ := List.mem_map.mp hseen
    have hkind := hcopied o (List.mem_append_left _ ho) op (by simp) hid
    have hc : o.clientId = op.clientId := congrArg Prod.fst hid
    have hs : o.seqId = op.seqId := congrArg Prod.snd hid
    have hcover : ∃ l, kv.dupTable op.clientId = some l ∧ op.seqId ≤ l.seqId := by
      cases hl : kv.dupTable op.clientId with
      | none => exact absurd (hkind.mp (h.unknown _ hl o ho hc)) hget
      | some l =>
        obtain ⟨p, w, -, -, -, -, hmax⟩ := h.last _ l hl
        exact ⟨l, rfl, hs ▸ hmax o ho hc (fun hg => hget (hkind.mp hg))⟩
    rw [apply_of_covers hcover]
    exact h.same hseen fun _ => hcover

theorem KvServer.Once.duplicate_eq_none (h : kv.Once log) (hord : KvOrdered (log ++ [op]))
    (hnew : op.ident ∉ log.map KvOp.ident) : kv.duplicate op = none := by
  simp only [duplicate]
  cases hl : kv.dupTable op.clientId with
  | none => rfl
  | some l =>
    obtain ⟨p, w, hfirst, hid, -⟩ := h.last _ l hl
    have hlt := hord.lt hnew (List.mem_of_getElem? hfirst.1) (congrArg Prod.fst hid)
    rw [show w.seqId = l.seqId from congrArg Prod.snd hid] at hlt
    exact if_neg (by omega)

theorem plainStore_snoc (ops : List KvOp) (op : KvOp) :
    plainStore (ops ++ [op]) = ((plainStore ops).applyOp op.toKvInput).1 := by
  rw [plainStore, List.foldl_append, ← plainStore]
  rfl

theorem KvServer.Once.fresh (h : kv.Once log) (hkv : kv = kvMachine.replay log) (hord : KvOrdered (log ++ [op]))
    (hnew : op.ident ∉ log.map KvOp.ident) : (kv.apply op).1.Once (log ++ [op]) := by
  have hexec : kv.apply op = kv.execute op := by rw [apply, h.duplicate_eq_none hord hnew]
  have hstore : (kv.execute op).1.kvStore = plainStore (firsts KvOp.ident (log ++ [op])) := by
    rw [firsts_snoc_of_not_mem _ (fun hmem => hnew ((mem_map_firsts KvOp.ident).mp hmem)), plainStore_snoc, ← h.store]
    rfl
  have hanswer : (kv.execute op).2 = answerAt (log ++ [op]) log.length op := by
    rw [answerAt, List.take_left, ← hkv, hexec]
  rw [hexec]
  by_cases hget : op.opType = .get
  · -- a `Get` leaves the table alone
    have htable : (kv.execute op).1.dupTable = kv.dupTable := if_neg (not_not.mpr hget)
    refine ⟨hstore, fun c hc => ?_, fun c l hl => ?_⟩
    · rw [htable] at hc
      exact forall_mem_snoc (h.unknown c hc) fun _ => hget
    · rw [htable] at hl
      exact (h.last c l hl).append fun _ hne => absurd hget hne
  · have htable : (kv.execute op).1.dupTable =
        Function.update kv.dupTable op.clientId (some ⟨op.seqId, (kv.execute op).2⟩) := if_pos hget
    refine ⟨hstore, fun c hc => ?_, fun c l hl => ?_⟩
    · rw [htable, Function.update_apply] at hc
      split at hc
      · cases hc
      · rename_i hne
        exact forall_mem_snoc (h.unknown c hc) fun heq => absurd heq.symm hne
    · rw [htable, Function.update_apply] at hl
      split at hl
      · rename_i heq
        cases hl
        refine ⟨log.length, op, ⟨by simp, by rwa [List.take_left]⟩, by rw [heq]; rfl, hget, hanswer, ?_⟩
        refine forall_mem_snoc (fun o ho hc _ => (hord.lt hnew ho (hc.trans heq)).le) fun _ _ => le_rfl
      · rename_i hne
        exact (h.last c l hl).append fun heq => absurd heq.symm hne

theorem once_replay (hord : KvOrdered log) (hcopied : KvCopied log) : (kvMachine.replay log).Once log := by
  induction log using List.reverseRecOn with
  | nil => exact KvServer.once_init
  | append_singleton log op ih =>
    have hlog := ih hord.init hcopied.init
    rw [Machine.replay_snoc]
    by_cases hseen : op.ident ∈ log.map KvOp.ident
    · exact hlog.repeated hcopied hseen
    · exact hlog.fresh rfl hord hseen

theorem KvServer.Once.answer_last (h : kv.Once log) {w : KvOp} (hfirst : FirstAt log p w) (hw : w.opType ≠ .get)
    (hmax : ∀ o ∈ log, o.clientId = w.clientId → o.opType ≠ .get → o.seqId ≤ w.seqId) (hid : op.ident = w.ident) :
    (kv.apply op).2 = answerAt log p w := by
  have hc : op.clientId = w.clientId := congrArg Prod.fst hid
  have hs : op.seqId = w.seqId := congrArg Prod.snd hid
  have hmem := List.mem_of_getElem? hfirst.1
  cases hl : kv.dupTable w.clientId with
  | none => exact absurd (h.unknown _ hl w hmem rfl) hw
  | some l =>
    obtain ⟨p', w', hfirst', hid', hw', hreply, hmax'⟩ := h.last _ l hl
    have hle := hmax' w hmem rfl hw
    have hge := hmax w' (List.mem_of_getElem? hfirst'.1) (congrArg Prod.fst hid') hw'
    have hseq : w'.seqId = l.seqId := congrArg Prod.snd hid'
    have hsame : l.seqId = w.seqId := by omega
    -- the entry is of this very write
    obtain rfl : p' = p := hfirst'.unique hfirst (by rw [hid', hsame]; rfl)
    obtain rfl : w' = w := Option.some.inj (hfirst'.1.symm.trans hfirst.1)
    simp only [apply, duplicate, hc, hl, hs, hle, if_true, hreply]

/-! ## Exactly once -/

/-- The store is the plain map of the first occurrences; a first occurrence is
answered from the plain map; and a copy of the client's last write is answered as
the write was. -/
theorem kvraft_exactly_once (log : List KvOp) (hord : KvOrdered log) (hcopied : KvCopied log) :
    (kvMachine.replay log).kvStore = plainStore (firsts KvOp.ident log) ∧
    (∀ p op, FirstAt log p op →
      answerAt log p op = ((plainStore (firsts KvOp.ident (log.take p))).applyOp op.toKvInput).2) ∧
    ∀ p w q op, FirstAt log p w → w.opType ≠ .get → p < q → log[q]? = some op → op.ident = w.ident →
      (∀ o ∈ log.take q, o.clientId = w.clientId → o.opType ≠ .get → o.seqId ≤ w.seqId) →
      answerAt log q op = answerAt log p w := by
  have honce : ∀ p, (kvMachine.replay (log.take p)).Once (log.take p) := by
    intro p
    rw [← List.take_append_drop p log] at hord hcopied
    exact once_replay hord.init hcopied.init
  refine ⟨(once_replay hord hcopied).store, fun p op hfirst => ?_, fun p w q op hfirst hw hpq hq hid hmax => ?_⟩
  · have hord' : KvOrdered (log.take p ++ [op]) := by
      rw [show log.take p ++ [op] = log.take (p + 1) by rw [List.take_add_one, hfirst.1, Option.toList_some]]
      rw [← List.take_append_drop (p + 1) log] at hord
      exact hord.init
    rw [answerAt, KvServer.apply, (honce p).duplicate_eq_none hord' hfirst.2, ← (honce p).store]
    rfl
  · have htake : FirstAt (log.take q) p w := by
      refine ⟨by rw [List.getElem?_take_of_lt hpq]; exact hfirst.1, ?_⟩
      rw [List.take_take, Nat.min_eq_left hpq.le]
      exact hfirst.2
    have hanswer : answerAt (log.take q) p w = answerAt log p w := by
      rw [answerAt, List.take_take, Nat.min_eq_left hpq.le, answerAt]
    rw [← hanswer]
    exact (honce q).answer_last htake hw hmax hid

/-- Client 1 appends, reads, and its requests come again in another order; client 2
puts in between. -/
def copiedLog : List KvOp :=
  [⟨⟨.append, [1], [7]⟩, 1, 1⟩, ⟨⟨.put, [1], [8]⟩, 2, 1⟩, ⟨⟨.append, [1], [7]⟩, 1, 1⟩, ⟨⟨.get, [1], []⟩, 1, 2⟩,
   ⟨⟨.append, [1], [7]⟩, 1, 1⟩, ⟨⟨.append, [1], [9]⟩, 1, 3⟩, ⟨⟨.get, [1], []⟩, 1, 2⟩, ⟨⟨.append, [1], [9]⟩, 1, 3⟩]

theorem copiedLog_once : KvOrdered copiedLog ∧ KvCopied copiedLog ∧
    (kvMachine.replay copiedLog).kvStore = plainStore (firsts KvOp.ident copiedLog) ∧
    answerAt copiedLog 3 ⟨⟨.get, [1], []⟩, 1, 2⟩ = ⟨.ok, [8]⟩ ∧
    answerAt copiedLog 7 ⟨⟨.append, [1], [9]⟩, 1, 3⟩ = answerAt copiedLog 5 ⟨⟨.append, [1], [9]⟩, 1, 3⟩ := by
  have hord : KvOrdered copiedLog := by decide
  have hcopied : KvCopied copiedLog := by decide
  obtain ⟨hstore, hfirst, hlast⟩ := kvraft_exactly_once copiedLog hord hcopied
  refine ⟨hord, hcopied, hstore, ?_, ?_⟩
  · rw [hfirst 3 _ ⟨rfl, by decide⟩]
    rfl
  · exact hlast 5 _ 7 _ ⟨rfl, by decide⟩ (by decide) (by decide) rfl rfl (by decide)

end

end DistLab
