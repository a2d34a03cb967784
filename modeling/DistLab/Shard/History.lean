import DistLab.Shard.Orderly

/-!
# The history of a shard

What the successive owners of a shard have executed on it, one configuration
after another. A command that the current owner executes comes at the end.
-/

namespace DistLab

abbrev ShardDone := Done (Nat × Nat) KvInput GoString

/-- The operation that the command executes on the shard in configuration `n`,
with the answer that the shard's map has for it. -/
def ShardKv.executes (gid : Int) (n : Nat) (i : ShardId) (kv : ShardKv) (op : ShardOp) : Option ShardDone :=
  match op.cmd with
  | .kv client s input =>
    if kv.config.num = n ∧ key2shard input.key = i ∧ kv.Accepts gid i ∧
        (input.opType = .get ∨ kv.duplicate client s = none) then
      some ⟨(client, s), input, (kvModel.step (kv.shards i).kv.read input).2⟩
    else none
  | _ => none

def executedIn (gid : Int) (n : Nat) (i : ShardId) (log : List ShardOp) : List ShardDone :=
  (shardMachine gid).trace (ShardKv.executes gid n i) log

/-- The concatenation, in the order of the configurations up to `N`, of what the
owners of the shard have executed on it. -/
def shardHistory (configs : Nat → Config Nat) (L : Int → List ShardOp) (N : Nat) (i : ShardId) : List ShardDone :=
  (List.range (N + 1)).flatMap fun n => executedIn (owner configs n i) n i (L (owner configs n i))

theorem flatMap_range_snoc {α : Type} {f f' : Nat → List α} {n : Nat} {a : α} (hn : f' n = f n ++ [a])
    (hne : ∀ m, m ≠ n → f' m = f m) (hgt : ∀ m, n < m → f m = []) :
    ∀ N, n ≤ N → (List.range (N + 1)).flatMap f' = (List.range (N + 1)).flatMap f ++ [a] := by
  intro N hN
  have hbelow : (List.range n).flatMap f' = (List.range n).flatMap f :=
    List.flatMap_congr fun m hm => hne m (Nat.ne_of_lt (List.mem_range.mp hm))
  induction N with
  | zero =>
    obtain rfl : n = 0 := by omega
    simp [hn]
  | succ N ih =>
    rw [List.range_succ, List.flatMap_append, List.flatMap_append]
    rcases Nat.lt_or_eq_of_le hN with hlt | rfl
    · rw [ih (by omega)]
      simp [hne (N + 1) (by omega), hgt (N + 1) hlt]
    · rw [hbelow]
      simp [hn]

section
variable {configs : Nat → Config Nat} {L : Int → List ShardOp} {g : Int} {log : List ShardOp} {op : ShardOp} {n N : Nat}
  {i : ShardId} {kv : ShardKv} {d : ShardDone}

theorem executes_eq_some (h : kv.executes g n i op = some d) : op.cmd = .kv d.id.1 d.id.2 d.input ∧ kv.config.num = n ∧
    key2shard d.input.key = i ∧ kv.Accepts g i ∧ (d.input.opType = .get ∨ kv.duplicate d.id.1 d.id.2 = none) ∧
    d.output = (kvModel.step (kv.shards i).kv.read d.input).2 := by
  unfold ShardKv.executes at h
  split at h
  · rename_i hcmd
    split at h
    · rename_i hc
      cases h
      exact ⟨hcmd, hc.1, hc.2.1, hc.2.2.1, hc.2.2.2, rfl⟩
    · cases h
  · cases h

theorem executes_eq_none (h : ∀ i d, kv.executes g kv.config.num i op ≠ some d) (n : Nat) (i : ShardId) :
    kv.executes g n i op = none := by
  refine Option.eq_none_iff_forall_ne_some.mpr fun d hd => ?_
  obtain rfl := (executes_eq_some hd).2.1
  exact h i d hd

structure ShardKv.Effect (kv kv' : ShardKv) (i : ShardId) (d : ShardDone) : Prop where
  config : kv'.config = kv.config
  state : ∀ j, (kv'.shards j).state = (kv.shards j).state
  other : ∀ j, j ≠ i → (kv'.shards j).kv = (kv.shards j).kv
  map : (kv'.shards i).kv.read = (kvModel.step (kv.shards i).kv.read d.input).1
  covers : d.input.opType ≠ .get → kv'.dupTable.Covers d.id.1 d.id.2
  origin : ∀ c e, kv'.dupTable c = some e → kv.dupTable c = some e ∨ d.id = (c, e.seqId) ∧ d.input.opType ≠ .get

theorem executes_effect (h : kv.executes g n i op = some d) : kv.Effect (kv.apply g op).1 i d := by
  obtain ⟨hcmd, -, rfl, ha, hfresh, -⟩ := executes_eq_some h
  simp only [ShardKv.apply, hcmd]
  have hcl := kv.applyClient_cases g d.id.1 d.id.2 d.input
  generalize kv.applyClient g d.id.1 d.id.2 d.input = p at hcl
  cases hcl with
  | refused hno => exact absurd ha hno
  | repeated _ hw hdup =>
    rw [hfresh.resolve_left hw] at hdup
    cases hdup
  | read _ hr =>
    exact ⟨rfl, fun _ => rfl, fun _ _ => rfl, (kvModel_reads hr _).symm, fun hw => absurd hr hw, fun _ _ he => Or.inl he⟩
  | written _ hw _ =>
    have hset : (kv.applyKVOp d.input).1.shards = Function.update kv.shards (key2shard d.input.key)
        { kv.shards (key2shard d.input.key) with kv := ((kv.shards (key2shard d.input.key)).kv.applyOp d.input).1 } := rfl
    refine ⟨rfl, fun j => ?_, fun j hj => ?_, ?_, fun _ => ⟨_, Function.update_self .., le_rfl⟩, fun c e he => ?_⟩
    · simp only [hset]
      by_cases hj : j = key2shard d.input.key
      · rw [hj, Function.update_self]
      · rw [Function.update_of_ne hj]
    · simp only [hset, Function.update_of_ne hj]
    · simp only [hset, Function.update_self]
      exact Store.read_applyOp ..
    · by_cases hc : c = d.id.1
      · subst hc
        simp only [Function.update_self, Option.some.injEq] at he
        exact Or.inr ⟨by rw [← he], hw⟩
      · simp only [Function.update_of_ne hc] at he
        exact Or.inl he

theorem apply_of_not_executed {c s : Nat} {input : KvInput} (hcmd : op.cmd = .kv c s input)
    (h : ∀ n i, kv.executes g n i op = none) : (kv.apply g op).1 = kv := by
  have hnot := h kv.config.num (key2shard input.key)
  simp only [ShardKv.executes, hcmd, true_and, ite_eq_right_iff, reduceCtorEq, imp_false] at hnot
  simp only [ShardKv.apply, hcmd]
  have hcl := kv.applyClient_cases g c s input
  generalize kv.applyClient g c s input = p at hcl
  cases hcl with
  | refused _ => rfl
  | repeated _ _ _ => rfl
  | read _ _ => rfl
  | written ha _ hdup => exact absurd ⟨ha, Or.inr hdup⟩ hnot

theorem mem_executedIn : d ∈ executedIn g n i log ↔
    (shardMachine g).Took log fun op kv => kv.executes g n i op = some d :=
  (shardMachine g).mem_trace

theorem executedIn_snoc : executedIn g n i (log ++ [op]) =
    executedIn g n i log ++ ((replayed g log).executes g n i op).toList :=
  (shardMachine g).trace_snoc _ log op

theorem took_accepts (h : d ∈ executedIn g n i log) :
    (shardMachine g).Took log fun _ kv => kv.config.num = n ∧ kv.Accepts g i := by
  obtain ⟨p, op, hp, he⟩ := mem_executedIn.mp h
  exact ⟨p, op, hp, (executes_eq_some he).2.1, (executes_eq_some he).2.2.2.1⟩

theorem mem_shardHistory : d ∈ shardHistory configs L N i ↔
    ∃ n ≤ N, d ∈ executedIn (owner configs n i) n i (L (owner configs n i)) := by
  simp only [shardHistory, List.mem_flatMap, List.mem_range, Nat.lt_succ_iff]

theorem shardHistory_bound (hN : ∀ g, (replayed g (L g)).config.num ≤ N) {N' : Nat} (hle : N ≤ N') :
    shardHistory configs L N' i = shardHistory configs L N i := by
  induction N' with
  | zero => rw [Nat.le_zero.mp hle]
  | succ N' ih =>
    rcases Nat.lt_or_eq_of_le hle with hlt | rfl
    · rw [← ih (by omega), shardHistory, List.range_succ, List.flatMap_append]
      have hnil : executedIn (owner configs (N' + 1) i) (N' + 1) i (L (owner configs (N' + 1) i)) = [] := by
        refine List.eq_nil_iff_forall_not_mem.mpr fun d hd => ?_
        have := took_num_le (fun _ _ h => h.1) (took_accepts hd)
        have := hN (owner configs (N' + 1) i)
        omega
      simp [hnil, shardHistory]
    · rfl

theorem shardHistory_push_none (h : ∀ n, (replayed g (L g)).executes g n i op = none) :
    shardHistory configs (push L g op) N i = shardHistory configs L N i := by
  refine List.flatMap_congr fun n _ => ?_
  by_cases hg : owner configs n i = g
  · rw [hg, push_self, executedIn_snoc, h n]
    simp
  · rw [push_of_ne hg]

theorem Orderly.history_nil_later (h : Orderly configs L) (hv : Virgin configs L) (hzero : L 0 = []) (hg : g ≠ 0)
    (ha : (replayed g (L g)).Accepts g i) (hlt : (replayed g (L g)).config.num < n) :
    executedIn (owner configs n i) n i (L (owner configs n i)) = [] := by
  refine List.eq_nil_iff_forall_not_mem.mpr fun d hd => ?_
  by_cases hown : owner configs n i = 0
  · rw [hown, hzero] at hd
    cases hd
  · exact absurd (h.none_later hv hg ha hown (took_accepts hd)) (Nat.not_le_of_lt hlt)

theorem Orderly.history_push (h : Orderly configs L) (hv : Virgin configs L) (hzero : L 0 = []) (hg : g ≠ 0)
    (hex : (replayed g (L g)).executes g n i op = some d) (hN : n ≤ N) :
    shardHistory configs (DistLab.push L g op) N i = shardHistory configs L N i ++ [d] := by
  obtain ⟨-, rfl, -, ha, -, -⟩ := executes_eq_some hex
  have hown : owner configs (replayed g (L g)).config.num i = g := (h.placed g).owner_eq.symm.trans ha.1
  refine flatMap_range_snoc ?_ (fun m hm => ?_) (fun m hm => h.history_nil_later hv hzero hg ha hm) N hN
  · rw [hown, push_self, executedIn_snoc, hex]
    rfl
  · by_cases hg' : owner configs m i = g
    · rw [hg', push_self, executedIn_snoc]
      cases hex' : (replayed g (L g)).executes g m i op with
      | none => simp
      | some d' => exact absurd (executes_eq_some hex').2.1.symm hm
    · rw [push_of_ne hg']

theorem Orderly.history_le_push (h : Orderly configs L) (hv : Virgin configs L) (hzero : L 0 = []) (hg : g ≠ 0)
    (hN : (replayed g (L g)).config.num ≤ N) (op : ShardOp) (i : ShardId) :
    shardHistory configs L N i <+: shardHistory configs (DistLab.push L g op) N i := by
  by_cases hex : ∃ n d, (replayed g (L g)).executes g n i op = some d
  · obtain ⟨n, d, hex⟩ := hex
    rw [h.history_push hv hzero hg hex ((executes_eq_some hex).2.1 ▸ hN)]
    exact List.prefix_append _ _
  · rw [shardHistory_push_none fun n => Option.eq_none_iff_forall_ne_some.mpr fun d hd => hex ⟨n, d, hd⟩]

end

end DistLab
