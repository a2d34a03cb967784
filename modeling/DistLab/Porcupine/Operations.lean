import DistLab.Kv.OverRaft
import DistLab.Lib.Local
import DistLab.Porcupine.Keys
import DistLab.Porcupine.Parallel

/-!
# Checking the histories of the key/value service

`CheckOperations` splits a history by key, sorts the entries of each part, and
checks the parts at the same time. The tests of `kvraft` record every call of a
clerk, with a time read before the call and one read after it, and give the
record to the checker.
-/

namespace DistLab

/-! ## CheckOperations -/

section
variable {St In Out : Type} {M : CheckModel St In Out} {histories : List (List (Operation In Out))}
  {parts : List (List (Entry In Out))}

def decides (M : CheckModel St In Out) (histories : List (List (Operation In Out)))
    (parts : List (List (Entry In Out))) : List (List (Entry In Out) × Prop) :=
  parts.zip (histories.map M.Linearizable)

theorem decides_fst (hparts : List.Forall₂ MakesEntries histories parts) :
    (decides M histories parts).map Prod.fst = parts :=
  List.map_fst_zip (by simp [hparts.length_eq])

theorem decided_of_mem (hM : M.Lawful) (computeInfo : Bool) (hparts : List.Forall₂ MakesEntries histories parts)
    (hcr : ∀ history ∈ histories, ∀ op ∈ history, op.call ≤ op.ret) :
    ∀ part ∈ decides M histories parts, Decided M computeInfo part.1 part.2 := by
  induction hparts with
  | nil => simp [decides]
  | cons hmake _ ih =>
    intro part hpart
    rw [decides, List.map_cons, List.zip_cons_cons] at hpart
    rcases List.mem_cons.mp hpart with rfl | hpart
    · exact checkSingle_decides hM hmake (hcr _ List.mem_cons_self) computeInfo
    · exact ih (fun h hh => hcr h (List.mem_cons_of_mem _ hh)) part hpart

theorem decides_all (hparts : List.Forall₂ MakesEntries histories parts) :
    (∀ part ∈ decides M histories parts, part.2) ↔ ∀ history ∈ histories, M.Linearizable history := by
  induction hparts with
  | nil => simp [decides]
  | cons _ _ ih =>
    rw [decides, List.map_cons, List.zip_cons_cons, List.forall_mem_cons, List.forall_mem_cons]
    exact and_congr_right fun _ => ih

end

section
variable {history : List (Operation KvInput GoString)} {parts : List (List (Entry KvInput GoString))}
  {computeInfo : Bool} {timeout : Int}

theorem kvOutcome (hcr : ∀ op ∈ history, op.call ≤ op.ret)
    (hparts : List.Forall₂ MakesEntries (kvPartition history) parts) {as : List ParallelAct}
    {s : ParallelCheck GoString KvInput GoString}
    (hs : exec (ParallelCheck.step kvCheckModel computeInfo timeout) (ParallelCheck.init kvCheckModel parts) as = some s) :
    as.length ≤ (ParallelCheck.init kvCheckModel parts).left kvCheckModel computeInfo ∧ s.phase ≠ .panicked ∧
      (s.phase = .returned .ok → (kvCheckModel.byKey KvInput.key).Linearizable history) ∧
      (s.phase = .returned .illegal → ¬ (kvCheckModel.byKey KvInput.key).Linearizable history) ∧
      (s.phase = .returned .unknown → 0 < timeout) ∧
      ((∀ a, s.step kvCheckModel computeInfo timeout a = none) →
        (∃ r, s.phase = .returned r) ∨ history = [] ∧ timeout ≤ 0) := by
  have hsub : ∀ h ∈ kvPartition history, ∀ op ∈ h, op.call ≤ op.ret := by
    intro h hh op hop
    obtain ⟨k, -, rfl⟩ := mem_kvPartition.mp hh
    exact hcr op (List.mem_of_mem_filter hop)
  have hdec := decided_of_mem kvCheckModel_lawful computeInfo hparts hsub
  have hall := (decides_all hparts).trans (kvPartition_linearizable hcr).symm
  have h0 : (ParallelCheck.init kvCheckModel parts).Sound kvCheckModel computeInfo timeout
      (decides kvCheckModel (kvPartition history) parts) := by
    have := ParallelCheck.sound_init kvCheckModel computeInfo timeout (decides kvCheckModel (kvPartition history) parts)
    rwa [decides_fst hparts] at this
  have h := h0.exec hdec hs
  refine ⟨Nat.le_of_add_right_le (h0.exec_left hdec hs), h.alive, ?_, ?_, ?_, ?_⟩
  · intro hr
    have hres := h.returned _ hr
    unfold ParallelCheck.result at hres
    split at hres
    · cases hres
    · rename_i hok
      split at hres
      · cases hres
      · rename_i htime
        exact hall.mp (h.legal (by simp [hr]) (by simpa using hok) (by simpa using htime))
  · intro hr hlin
    have hres := h.returned _ hr
    unfold ParallelCheck.result at hres
    split at hres
    · rename_i hok
      obtain ⟨part, hpart, hnot⟩ := h.illegal (by simpa using hok)
      exact hnot (hall.mpr hlin part hpart)
    · split at hres <;> cases hres
  · intro hr
    have hres := h.returned _ hr
    unfold ParallelCheck.result at hres
    split at hres
    · cases hres
    · split at hres
      · exact h.timed ‹_›
      · cases hres
  · intro hstuck
    refine (h.stuck hstuck).imp_right fun hnil => ⟨?_, hnil.2⟩
    have hparts0 : parts = [] := by rw [← decides_fst hparts, hnil.1, List.map_nil]
    rw [hparts0] at hparts
    cases history with
    | nil => rfl
    | cons op history =>
      have hmem : _ ∈ kvPartition (op :: history) :=
        mem_kvPartition.mpr ⟨op.input.key, ⟨op, List.mem_cons_self, rfl⟩, rfl⟩
      rw [List.forall₂_nil_right_iff.mp hparts] at hmem
      cases hmem

/-- `CheckOperations`, which has no time limit, returns on every schedule, and says
whether the history is one of a map. -/
theorem checkOperations_iff (hne : history ≠ []) (hcr : ∀ op ∈ history, op.call ≤ op.ret)
    (hparts : List.Forall₂ MakesEntries (kvPartition history) parts) (computeInfo : Bool) (htime : timeout ≤ 0) :
    ∃ bound, ∀ as s, exec (ParallelCheck.step kvCheckModel computeInfo timeout)
        (ParallelCheck.init kvCheckModel parts) as = some s →
      as.length ≤ bound ∧ s.phase ≠ .panicked ∧
        ((∀ a, s.step kvCheckModel computeInfo timeout a = none) → ∃ r, s.phase = .returned r) ∧
        ∀ r, s.phase = .returned r → (r = .ok ↔ (kvCheckModel.byKey KvInput.key).Linearizable history) ∧
          (r = .illegal ↔ ¬ (kvCheckModel.byKey KvInput.key).Linearizable history) := by
  refine ⟨(ParallelCheck.init kvCheckModel parts).left kvCheckModel computeInfo, fun as s hs => ?_⟩
  obtain ⟨hbound, halive, hok, hillegal, hunknown, hstuck⟩ := kvOutcome hcr hparts hs
  refine ⟨hbound, halive, fun h => (hstuck h).resolve_right fun h => hne h.1, fun r hr => ?_⟩
  cases r with
  | unknown => exact absurd (hunknown hr) (Int.not_lt.mpr htime)
  | ok => simp [hok hr]
  | illegal => simp [hillegal hr]

end

/-- Two keys, with a `Get` that overlaps the `Put` it reads from. -/
def overlappingOps : List (Operation KvInput GoString) :=
  [⟨⟨.put, [1], [7]⟩, 0, [], 5⟩, ⟨⟨.get, [1], []⟩, 2, [7], 3⟩, ⟨⟨.append, [2], [8]⟩, 1, [], 4⟩]

theorem overlappingOps_checked : ∃ bound, ∀ as s, exec (ParallelCheck.step kvCheckModel false 0)
      (ParallelCheck.init kvCheckModel ((kvPartition overlappingOps).map makeEntries)) as = some s →
    as.length ≤ bound ∧ s.phase ≠ .panicked ∧
      ((∀ a, s.step kvCheckModel false 0 a = none) → ∃ r, s.phase = .returned r) ∧
      ∀ r, s.phase = .returned r → (r = .ok ↔ (kvCheckModel.byKey KvInput.key).Linearizable overlappingOps) ∧
        (r = .illegal ↔ ¬ (kvCheckModel.byKey KvInput.key).Linearizable overlappingOps) :=
  checkOperations_iff (by decide) (by decide)
    (List.forall₂_map_right_iff.mpr (List.forall₂_same.mpr fun h _ => makeEntries_makes h)) false (by decide)

/-! ## The record of the tests -/

section
variable {Id In Out St : Type}

/-- The record of the calls that began before `K`; all of them have returned.
`start` is read before a call begins and `end` after it returned. -/
structure Records (ev : ℕ → Option (Event Id In Out)) (K : ℕ) (clock : ℕ → Int) (op : Id → Operation In Out)
    (ids : List Id) : Prop where
  nodup : ids.Nodup
  all : ∀ j < K, ∀ id x, ev j = some (.invoke id x) → id ∈ ids
  call : ∀ id ∈ ids, ∃ j k, j < k ∧ k < K ∧ ev j = some (.invoke id (op id).input) ∧
    ev k = some (.ret id (op id).output) ∧ (op id).call ≤ clock j ∧ clock k ≤ (op id).ret

theorem Records.call_le_ret {ev : ℕ → Option (Event Id In Out)} {K : ℕ} {clock : ℕ → Int} {op : Id → Operation In Out}
    {ids : List Id} (h : Records ev K clock op ids) (hclock : ∀ j k, j ≤ k → clock j ≤ clock k) :
    ∀ o ∈ ids.map op, o.call ≤ o.ret := by
  intro o ho
  obtain ⟨id, hid, rfl⟩ := List.mem_map.mp ho
  obtain ⟨j, k, hjk, -, -, -, hcall, hret⟩ := h.call id hid
  exact Int.le_trans hcall (Int.le_trans (hclock j k (Nat.le_of_lt hjk)) hret)

theorem accepts_of_legal {O : Object St In Out} {C : CheckModel St In Out}
    (hC : ∀ s x, C.step s x (O.step s x).2 = (true, (O.step s x).1)) {op : Id → Operation In Out} :
    ∀ {s : St} {l : List (Done Id In Out)}, O.Legal s l →
      (∀ d ∈ l, (op d.id).input = d.input ∧ (op d.id).output = d.output) → C.Accepts s (l.map fun d => op d.id)
  | _, [], _, _ => trivial
  | s, d :: l, hl, hop => by
    obtain ⟨hin, hout⟩ := hop d List.mem_cons_self
    have hstep := hC s d.input
    rw [hl.1, ← hin, ← hout] at hstep
    simp only [List.map_cons, CheckModel.Accepts, hstep, true_and]
    rw [hin]
    exact accepts_of_legal hC hl.2 fun e he => hop e (List.mem_cons_of_mem _ he)

theorem Records.linearizable {O : Object St In Out} {C : CheckModel St In Out} (hinit : C.init = O.init)
    (hC : ∀ s x, C.step s x (O.step s x).2 = (true, (O.step s x).1)) {ev : ℕ → Option (Event Id In Out)} {K : ℕ}
    {clock : ℕ → Int} {op : Id → Operation In Out} {ids : List Id} (h : Records ev K clock op ids)
    (hclock : ∀ j k, j ≤ k → clock j ≤ clock k)
    (hinv : ∀ j k id x y, ev j = some (.invoke id x) → ev k = some (.invoke id y) → j = k)
    {l : List (Done Id In Out)} (hl : Linearization O ev K l) : C.Linearizable (ids.map op) := by
  have hids : ∀ d ∈ l, d.id ∈ ids := by
    intro d hd
    obtain ⟨k, hk, he⟩ := hl.invoked d hd
    exact h.all k hk _ _ he
  have hinj : ∀ d ∈ l, ∀ e ∈ l, d.id = e.id → d = e := fun d hd e he => List.inj_on_of_nodup_map hl.nodup hd he
  have hperm : (l.map Done.id).Perm ids := by
    rw [List.perm_ext_iff_of_nodup hl.nodup h.nodup]
    intro id
    constructor
    · intro hid
      obtain ⟨d, hd, rfl⟩ := List.mem_map.mp hid
      exact hids d hd
    · intro hid
      obtain ⟨j, k, -, hk, -, hret, -⟩ := h.call id hid
      obtain ⟨d, hd, rfl, -⟩ := hl.complete k hk _ _ hret
      exact List.mem_map_of_mem hd
  have hop : ∀ d ∈ l, (op d.id).input = d.input ∧ (op d.id).output = d.output := by
    intro d hd
    obtain ⟨j, k, -, hk, hcall, hret, -⟩ := h.call d.id (hids d hd)
    obtain ⟨i, -, hi⟩ := hl.invoked d hd
    obtain ⟨e, he, hid, hout⟩ := hl.complete k hk _ _ hret
    obtain rfl := hinj e he d hd hid
    rw [hinv i j _ _ _ hi hcall, hcall] at hi
    exact ⟨(Event.invoke.inj (Option.some.inj hi)).2, hout.symm⟩
  refine ⟨l.map fun d => op d.id, ?_, ?_, ?_⟩
  · have := hperm.map op
    rwa [List.map_map] at this
  · rw [hinit]
    exact accepts_of_legal hC hl.legal hop
  · rw [List.pairwise_map, List.pairwise_iff_forall_sublist]
    intro d e hde
    by_contra hlt
    have hd : d ∈ l := hde.subset (by simp)
    have he : e ∈ l := hde.subset (by simp)
    obtain ⟨j, j', hjj', hj', hcall, -, hstart, -⟩ := h.call d.id (hids d hd)
    obtain ⟨_, k, -, hk, -, hret, -, hend⟩ := h.call e.id (hids e he)
    -- `e` had returned when `d` began, so it stands first
    have hkj : k < j := by
      by_contra hle
      have := hclock j k (Nat.le_of_not_lt hle)
      omega
    obtain ⟨e', he', hid, hed⟩ := hl.realtime k j hkj (hjj'.trans hj') _ _ _ _ hret hcall d hd rfl
    obtain rfl := hinj e' he' e he hid
    exact not_sublist_swap (List.Nodup.of_map _ hl.nodup) hde hed

end

/-- The test of `kvraft` never fails with "history is not linearizable": whatever
the network, the crashes and the schedule, the checker accepts the record of all
calls or runs out of time. -/
theorem kvraft_record_accepted {N : Nat} {c : Codec kvMachine fun _ => True} (r : DeploymentRun N c kvFront) {K : ℕ}
    {clock : ℕ → Int} (hclock : ∀ j k, j ≤ k → clock j ≤ clock k)
    {op : Nat × Nat → Operation KvInput GoString} {ids : List (Nat × Nat)}
    (hrec : Records r.event K clock op ids) {parts : List (List (Entry KvInput GoString))}
    (hparts : List.Forall₂ MakesEntries (kvPartition (ids.map op)) parts) (computeInfo : Bool) (timeout : Int) :
    ∃ bound, ∀ as s, exec (ParallelCheck.step kvCheckModel computeInfo timeout)
        (ParallelCheck.init kvCheckModel parts) as = some s →
      as.length ≤ bound ∧ s.phase ≠ .panicked ∧ s.phase ≠ .returned .illegal ∧
        (s.phase = .returned .unknown → 0 < timeout) ∧
        ((∀ a, s.step kvCheckModel computeInfo timeout a = none) →
          (∃ res, s.phase = .returned res) ∨ ids = [] ∧ timeout ≤ 0) := by
  obtain ⟨hinv, l, hl⟩ := kvDedup.linearizable r K
  have hmodel : ∀ (m : GoString → GoString) (x : KvInput),
      (kvCheckModel.byKey KvInput.key).step m x (kvModel.step m x).2 = (true, (kvModel.step m x).1) := by
    intro m x
    obtain ⟨t, key, value⟩ := x
    cases t with
    | get => simp [CheckModel.byKey, kvCheckModel, kvModel]
    | put => rfl
    | append => rfl
  have hlin : (kvCheckModel.byKey KvInput.key).Linearizable (ids.map op) :=
    hrec.linearizable rfl hmodel hclock hinv hl
  refine ⟨(ParallelCheck.init kvCheckModel parts).left kvCheckModel computeInfo, fun as s hs => ?_⟩
  obtain ⟨hbound, halive, -, hillegal, hunknown, hstuck⟩ := kvOutcome (hrec.call_le_ret hclock) hparts hs
  exact ⟨hbound, halive, fun h => hillegal h hlin, hunknown, fun h =>
    (hstuck h).imp_right fun hnil => ⟨List.map_eq_nil_iff.mp hnil.1, hnil.2⟩⟩

def invokedId {Id In Out : Type} : Option (Event Id In Out) → Option Id
  | some (.invoke id _) => some id
  | _ => none

def electedAppendOp : Nat × Nat → Operation KvInput GoString
  | (_, 1) => ⟨⟨.append, [107], [120]⟩, 2, [], 18⟩
  | _ => ⟨⟨.get, [107], []⟩, 19, [120], 40⟩

theorem electedAppend_records :
    Records electedAppend.event 34 (fun k => (k : Int)) electedAppendOp [(7, 1), (7, 2)] where
  nodup := by decide
  all := by
    have hall : ∀ j < 34, (invokedId (electedAppend.event j)).all (· ∈ [(7, 1), (7, 2)]) = true := by decide +kernel
    intro j hj id x he
    have := hall j hj
    rw [he] at this
    exact of_decide_eq_true this
  call := by
    intro id hid
    rcases List.mem_pair.mp hid with rfl | rfl
    · exact ⟨3, 18, by decide, by decide, by decide +kernel, by decide +kernel, by decide, by decide⟩
    · exact ⟨19, 33, by decide, by decide, by decide +kernel, by decide +kernel, by decide, by decide⟩

theorem electedAppend_accepted : ∃ bound, ∀ as s, exec (ParallelCheck.step kvCheckModel true 1000)
      (ParallelCheck.init kvCheckModel ((kvPartition ([(7, 1), (7, 2)].map electedAppendOp)).map makeEntries)) as =
        some s →
    as.length ≤ bound ∧ s.phase ≠ .panicked ∧ s.phase ≠ .returned .illegal ∧
      (s.phase = .returned .unknown → (0 : Int) < 1000) ∧
      ((∀ a, s.step kvCheckModel true 1000 a = none) →
        (∃ res, s.phase = .returned res) ∨ [(7, 1), (7, 2)] = [] ∧ (1000 : Int) ≤ 0) :=
  kvraft_record_accepted electedAppend (fun _ _ h => Int.ofNat_le.mpr h) electedAppend_records
    (List.forall₂_map_right_iff.mpr (List.forall₂_same.mpr fun h _ => makeEntries_makes h)) true 1000

end DistLab
