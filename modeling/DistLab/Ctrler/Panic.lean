import DistLab.Ctrler.History

/-!
# Operations that panic

The pool of `rebalance` never runs out, so a `Join` and a `Leave` never panic. A
`Move` and a `Query` use a number of the client as an index, and nothing has
looked at it before the operation is committed: every replica that executes one
that is out of range dies of it, and dies again after a restart.
-/

namespace DistLab

section
variable {Srv : Type} {log : List (CtrlCmd Srv)} {cmd : CtrlCmd Srv} {sc sc' : ShardCtrler Srv} {reply : CtrlReply Srv}

theorem ShardCtrler.apply_configs (h : sc.apply cmd = some (sc', reply)) :
    sc' = sc ∨ ∃ cfg, cmd.op.apply sc.configs = some (sc'.configs, cfg) := by
  simp only [apply] at h
  split at h
  · cases h
    exact Or.inl rfl
  · rw [execute, Option.bind_eq_bind, Option.bind_eq_some_iff] at h
    obtain ⟨⟨configs, cfg⟩, happ, h⟩ := h
    cases h
    exact Or.inr ⟨cfg, happ⟩

theorem ShardCtrler.isSome_apply (hc : Counted sc.configs) (hr : cmd.op.InRange) : (sc.apply cmd).isSome = true := by
  simp only [apply]
  split
  · rfl
  · obtain ⟨next, happ⟩ := Option.isSome_iff_exists.mp ((hc.isSome_apply cmd.op).mpr hr)
    rw [execute, happ]
    rfl

theorem counted_ctrlReplay (h : ctrlReplay log = some sc) : Counted sc.configs := by
  induction log using List.reverseRecOn generalizing sc with
  | nil =>
    cases h
    exact counted_init
  | append_singleton log cmd ih =>
    rw [ctrlReplay_append_singleton, Option.bind_eq_some_iff] at h
    obtain ⟨old, hold, h⟩ := h
    obtain ⟨⟨_, reply⟩, happ, rfl⟩ := Option.map_eq_some_iff.mp h
    rcases ShardCtrler.apply_configs happ with rfl | ⟨cfg, hcfg⟩
    · exact ih hold
    · exact (ih hold).apply hcfg

theorem exists_ctrlReplay (hr : ∀ cmd ∈ log, cmd.op.InRange) : ∃ sc, ctrlReplay log = some sc := by
  induction log using List.reverseRecOn with
  | nil => exact ⟨_, rfl⟩
  | append_singleton log cmd ih =>
    obtain ⟨sc, hsc⟩ := ih fun c hc => hr c (List.mem_append_left _ hc)
    have hsome := ShardCtrler.isSome_apply (counted_ctrlReplay hsc) (hr cmd (by simp))
    obtain ⟨⟨sc', reply⟩, happ⟩ := Option.isSome_iff_exists.mp hsome
    exact ⟨sc', ctrlReplay_snoc hsc happ⟩

end

/-- In every state that a replica can be in, the operations that do not panic are
those in range; and if all that is committed is in range, every replica has a
state. -/
theorem ctrler_panics {Srv : Type} (r : Run (Group.step (ctrlMachine Srv) false) (Group.init (ctrlMachine Srv))) (K q : Nat) :
    (∀ sc, ((r.state K).replica q).state = some sc → ∀ op : CtrlOp Srv,
      (op.apply sc.configs).isSome = true ↔ op.InRange) ∧
    ((∀ cmd ∈ (r.state K).log, cmd.op.InRange) → ∃ sc, ((r.state K).replica q).state = some sc) := by
  have hstate := ((Group.fed_run r (fun g a h => h.harmless a) K).replica q).state
  rw [hstate]
  constructor
  · intro sc hsc op
    exact (counted_ctrlReplay hsc).isSome_apply op
  · intro hr
    exact exists_ctrlReplay fun cmd hcmd => hr cmd (List.mem_of_mem_take hcmd)

theorem ctrler_panics_retriedJoin : ∃ sc, ((retriedJoin.state 12).replica 0).state = some sc ∧
    ∀ op : CtrlOp Nat, (op.apply sc.configs).isSome = true ↔ op.InRange := by
  obtain ⟨hiff, hsome⟩ := ctrler_panics retriedJoin 12 0
  obtain ⟨sc, hsc⟩ := hsome (by decide +kernel)
  exact ⟨sc, hsc, hiff sc hsc⟩

/-- Client 7 moves shard 10, which does not exist; the replica that has executed it
is started again. -/
def badMoveActs : List (ServiceAct (CtrlCmd Nat)) :=
  [.submit 0 ⟨7, 1, .move 10 1⟩ 1, .inner (.commit 0), .inner (.collect 0 1), .inner (.apply 0 false),
   .inner (.restart 0), .inner (.collect 0 1), .inner (.apply 0 false)]

theorem badMove_exec :
    (exec (Group.step (ctrlMachine Nat) false) (Group.init (ctrlMachine Nat)) badMoveActs).isSome = true := by
  decide +kernel

def badMove : Run (Group.step (ctrlMachine Nat) false) (Group.init (ctrlMachine Nat)) :=
  Run.ofList badMoveActs (Option.some_get badMove_exec).symm

theorem badMove_panics :
    ((badMove.state 3).replica 0).state.isSome = true ∧ ((badMove.state 4).replica 0).state.isSome = false ∧
    ((badMove.state 6).replica 0).state.isSome = true ∧ ((badMove.state 7).replica 0).state.isSome = false ∧
    ((CtrlOp.query (-2)).apply [(Config.zero : Config Nat)]).isSome = false := by
  decide +kernel

end DistLab
