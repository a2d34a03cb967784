import DistLab.Service.GroupSound

/-!
# Answers of overtaken commands

When a snapshot overtakes a command, the replica executes the command in the
state of the snapshot or a later one, and the handler that waits for it gets the
answer of that state. So what a handler returns is the answer of some state that
the log passed through at the command's place or after it.
-/

namespace DistLab

section
variable {Op Id St Res Tok : Type} {M : Machine Op Id St Res}

variable (M) in
/-- The answer is the one that the command with this identity gets at its place
in the log or later. -/
def Machine.Served (log : List Op) (id : Id) (res : Res) : Prop :=
  ∃ p q op, log[p]? = some op ∧ M.ident op = id ∧ p ≤ q ∧ q ≤ log.length ∧
    (M.apply (M.replay (log.take q)) op).2 = res

theorem Machine.Served.mono {log log' : List Op} (hle : log <+: log') {id : Id} {res : Res}
    (h : M.Served log id res) : M.Served log' id res := by
  obtain ⟨p, q, op, hp, hid, hpq, hq, hres⟩ := h
  obtain ⟨rest, rfl⟩ := hle
  obtain ⟨hlt, -⟩ := List.getElem?_eq_some_iff.mp hp
  refine ⟨p, q, op, by rwa [List.getElem?_append_left hlt], hid, hpq, hq.trans (by simp), ?_⟩
  rwa [List.take_append_of_le_length hq]

variable {g g' : Group Op Id St Res Tok} {overtakes : Bool} {ans : Option (Tok × Res)}

/-- An execution answers from the state of the replica, which is not older than
the command's place in the log. -/
theorem Group.Fed.served (h : g.Fed M overtakes) {r j : Nat} {q : List Nat} {op : Op}
    (hq : (g.replica r).queue = j :: q) (hop : g.log[j - 1]? = some op) :
    M.Served g.log (M.ident op) (M.apply (g.replica r).state op).2 := by
  have hfeeds := (h.replica r).feeds
  have hle := (h.replica r).applied_le
  rw [hq] at hfeeds
  refine ⟨j - 1, (g.replica r).applied, op, hop, rfl, ?_, hle, by rw [(h.replica r).state]⟩
  rcases hfeeds with ⟨-, -, -, hj, -⟩ | ⟨hj, -⟩
  · omega
  · omega

theorem Group.Tells.served [DecidableEq Id] (h : g.Tells M M.Served) (hfed : g.Fed M overtakes) {a : Inner}
    (hact : g.Act M overtakes a g' ans) : g'.Tells M M.Served :=
  h.act (fun hle => Machine.Served.mono hle) hact fun _ _ _ _ hq hop => hfed.served hq hop

end

end DistLab
