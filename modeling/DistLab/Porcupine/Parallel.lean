import DistLab.Lib.Runs
import DistLab.Porcupine.CheckSound
import Mathlib.Data.List.Forall2
import Mathlib.Order.Lattice.Nat

/-!
# Checking the parts at the same time

`checkParallel` starts one goroutine for each part of the history, collects their
answers from a channel, and sets `kill` when it has seen enough or runs out of
time. A worker that is killed answers `false`, whatever its part is. The steps of
the workers and of the caller come in any order.
-/

namespace DistLab

inductive CheckResult
  | unknown
  | ok
  | illegal
deriving DecidableEq, Repr

/-- A goroutine of `checkParallel`; `longest` is its element of the slice. -/
inductive CheckWorker (St In Out : Type)
  | running (c : Checker St In Out)
  | done (ok : Bool) (longest : Longest)

/-- Where the caller is: at the `select`, after the loop, or at its end. A panic in
a goroutine ends the whole process. -/
inductive ParallelPhase
  | loop
  | waiting
  | returned (result : CheckResult)
  | panicked
deriving DecidableEq, Repr

structure ParallelCheck (St In Out : Type) where
  workers : List (CheckWorker St In Out)
  results : List Bool
  kill : Bool
  count : Nat
  ok : Bool
  timedOut : Bool
  phase : ParallelPhase

inductive ParallelAct
  | work (i : Nat)
  | receive
  | timeout
  | wait
  | finish

section
variable {St In Out : Type}

def CheckWorker.isDone : CheckWorker St In Out → Bool
  | .running _ => false
  | .done _ _ => true

def CheckWorker.isFalse : CheckWorker St In Out → Bool
  | .done false _ => true
  | _ => false

namespace ParallelCheck

def init (M : CheckModel St In Out) (history : List (List (Entry In Out))) : ParallelCheck St In Out where
  workers := history.map fun subhistory => .running (Checker.start M subhistory)
  results := []
  kill := false
  count := 0
  ok := true
  timedOut := false
  phase := .loop

def result (s : ParallelCheck St In Out) : CheckResult :=
  if !s.ok then .illegal else if s.timedOut then .unknown else .ok

def Waits (computeInfo : Bool) (s : ParallelCheck St In Out) : Prop :=
  computeInfo = true ∧ s.count < s.workers.length

instance (computeInfo : Bool) (s : ParallelCheck St In Out) : Decidable (s.Waits computeInfo) :=
  inferInstanceAs (Decidable (_ ∧ _))

/-- One turn of worker `i`. The channel has room for all answers, so that the
answer is sent when the worker is done. -/
def work (M : CheckModel St In Out) (computeInfo : Bool) (s : ParallelCheck St In Out) (i : Nat) :
    Option (ParallelCheck St In Out) :=
  match s.phase, s.workers[i]? with
  | .panicked, _ => none
  | _, some (.running c) =>
    match c.next M computeInfo s.kill with
    | some (.inl c) => some { s with workers := s.workers.set i (.running c) }
    | some (.inr (ok, longest)) =>
      some { s with workers := s.workers.set i (.done ok longest), results := s.results ++ [ok] }
    | none => some { s with phase := .panicked }
  | _, _ => none

def receive (computeInfo : Bool) (s : ParallelCheck St In Out) : Option (ParallelCheck St In Out) :=
  match s.phase, s.results with
  | .loop, result :: results =>
    let s := { s with results := results, count := s.count + 1, ok := s.ok && result }
    if !s.ok && !computeInfo then some { s with kill := true, phase := .waiting }
    else if s.workers.length ≤ s.count then some { s with phase := .waiting }
    else some s
  | _, _ => none

def step (M : CheckModel St In Out) (computeInfo : Bool) (timeout : Int) (s : ParallelCheck St In Out) :
    ParallelAct → Option (ParallelCheck St In Out)
  | .work i => s.work M computeInfo i
  | .receive => s.receive computeInfo
  | .timeout =>
    if s.phase = .loop ∧ 0 < timeout then some { s with timedOut := true, kill := true, phase := .waiting } else none
  | .wait =>
    match s.phase, s.results with
    | .waiting, _ :: results =>
      if s.Waits computeInfo then some { s with results := results, count := s.count + 1 } else none
    | _, _ => none
  | .finish =>
    if s.phase = .waiting ∧ ¬ s.Waits computeInfo then some { s with phase := .returned s.result } else none

end ParallelCheck

/-! ## What a step can do -/

variable {M : CheckModel St In Out} {computeInfo : Bool} {timeout : Int} {s t : ParallelCheck St In Out}

theorem ParallelCheck.work_cases {i : Nat} (h : s.work M computeInfo i = some t) :
    s.phase ≠ .panicked ∧ ∃ c, s.workers[i]? = some (.running c) ∧
      ((∃ c', c.next M computeInfo s.kill = some (.inl c') ∧
          t = { s with workers := s.workers.set i (.running c') }) ∨
        (∃ ok longest, c.next M computeInfo s.kill = some (.inr (ok, longest)) ∧
          t = { s with workers := s.workers.set i (.done ok longest), results := s.results ++ [ok] }) ∨
        (c.next M computeInfo s.kill = none ∧ t = { s with phase := .panicked })) := by
  unfold work at h
  split at h
  · cases h
  · rename_i c hw hphase
    refine ⟨hphase, c, hw, ?_⟩
    split at h
    · rename_i c' hc
      exact Or.inl ⟨c', hc, (Option.some.inj h).symm⟩
    · rename_i ok longest hc
      exact Or.inr (Or.inl ⟨ok, longest, hc, (Option.some.inj h).symm⟩)
    · rename_i hc
      exact Or.inr (Or.inr ⟨hc, (Option.some.inj h).symm⟩)
  · cases h

/-- The caller takes one result in the loop. It stays, or leaves because the
answer is known or because all results are there. -/
theorem ParallelCheck.receive_cases (h : s.receive computeInfo = some t) :
    ∃ result results, s.phase = .loop ∧ s.results = result :: results ∧
      ∃ kill phase, t = { s with
          results := results, count := s.count + 1, ok := s.ok && result, kill := kill, phase := phase } ∧
        ((phase = .loop ∧ kill = s.kill ∧ s.count + 1 < s.workers.length) ∨
          (phase = .waiting ∧ ((s.ok && result) = false ∨ s.workers.length ≤ s.count + 1))) := by
  unfold receive at h
  split at h
  · rename_i result results hphase hres
    refine ⟨result, results, hphase, hres, ?_⟩
    dsimp only at h
    split at h
    · rename_i hstop
      simp only [Bool.and_eq_true, Bool.not_eq_true'] at hstop
      exact ⟨true, .waiting, (Option.some.inj h).symm, Or.inr ⟨rfl, Or.inl hstop.1⟩⟩
    · split at h
      · rename_i hall
        exact ⟨s.kill, .waiting, (Option.some.inj h).symm, Or.inr ⟨rfl, Or.inr hall⟩⟩
      · rename_i hall
        exact ⟨s.kill, .loop, by rw [← Option.some.inj h, hphase], Or.inl ⟨rfl, rfl, Nat.lt_of_not_le hall⟩⟩
  · cases h

theorem ParallelCheck.wait_cases (h : s.step M computeInfo timeout .wait = some t) :
    ∃ result results, s.phase = .waiting ∧ s.results = result :: results ∧ s.Waits computeInfo ∧
      t = { s with results := results, count := s.count + 1 } := by
  simp only [step] at h
  split at h
  · rename_i result results hphase hres
    split at h
    · rename_i hw
      exact ⟨result, results, hphase, hres, hw, (Option.some.inj h).symm⟩
    · cases h
  · cases h

/-! ## One worker -/

theorem Checker.run_inl {k c : Checker St In Out} (h : k.next M computeInfo false = some (.inl c)) (n : Nat) :
    k.run M computeInfo (n + 1) = c.run M computeInfo n := by
  simp only [run, h]

theorem Checker.run_one (c : Checker St In Out) : c.run M computeInfo 1 = c.next M computeInfo false := by
  unfold run
  split
  · rename_i c' hc
    rw [hc, run]
  · rfl

theorem Checker.run_add {k c : Checker St In Out} {n : Nat} (h : k.run M computeInfo n = some (.inl c)) (d : Nat) :
    k.run M computeInfo (n + d) = c.run M computeInfo d := by
  induction n generalizing k with
  | zero =>
    cases h
    rw [Nat.zero_add]
  | succ n ih =>
    unfold run at h
    split at h
    · rename_i c' hc
      rw [Nat.add_right_comm, run_inl hc]
      exact ih h
    · rename_i hother
      exact absurd h (hother c)

/-- A killed worker does not panic, and `true` is what it would have answered
anyway. -/
theorem Checker.next_kill (M : CheckModel St In Out) (computeInfo : Bool) (c : Checker St In Out) :
    ∃ ok longest, c.next M computeInfo true = some (.inr (ok, longest)) ∧
      (ok = true → c.next M computeInfo false = some (.inr (ok, longest))) := by
  unfold next
  cases c.links.next c.headEntry with
  | none => exact ⟨true, _, rfl, fun _ => rfl⟩
  | some _ => exact ⟨false, _, rfl, fun h => by cases h⟩

theorem Checker.kill_of_inl {c c' : Checker St In Out} {kill : Bool}
    (h : c.next M computeInfo kill = some (.inl c')) : kill = false := by
  cases kill with
  | false => rfl
  | true =>
    obtain ⟨ok, longest, hnext, -⟩ := c.next_kill M computeInfo
    rw [hnext] at h
    cases h

/-- The worker of a part ends without a panic, and its answer says whether `P`. -/
def Decided (M : CheckModel St In Out) (computeInfo : Bool) (part : List (Entry In Out)) (P : Prop) : Prop :=
  ∃ fuel b longest, (∀ n, fuel ≤ n → checkSingle M part computeInfo n = some (.inr (b, longest))) ∧ (b = true ↔ P)

section
variable {part : List (Entry In Out)} {P : Prop} {c : Checker St In Out} {n : Nat}

theorem Decided.answer (hd : Decided M computeInfo part P) {ok : Bool} {longest : Longest}
    (h : checkSingle M part computeInfo n = some (.inr (ok, longest))) : ok = true ↔ P := by
  obtain ⟨fuel, b, l, hrun, hb⟩ := hd
  have hmax := hrun _ (Nat.le_max_right n fuel)
  rw [checkSingle, Checker.run_mono h (Nat.le_max_left n fuel)] at hmax
  cases hmax
  exact hb

theorem Decided.ends (hd : Decided M computeInfo part P) (h : checkSingle M part computeInfo n = some (.inl c)) :
    ∃ d r, c.run M computeInfo d = some (.inr r) := by
  obtain ⟨fuel, b, l, hrun, -⟩ := hd
  refine ⟨fuel, (b, l), ?_⟩
  rw [← Checker.run_add h]
  exact hrun _ (Nat.le_add_left fuel n)

theorem Checker.next_ne_none (h : ∃ d r, c.run M computeInfo d = some (.inr r)) : c.next M computeInfo false ≠ none := by
  intro hnone
  obtain ⟨d, r, hr⟩ := h
  cases d with
  | zero => cases hr
  | succ d =>
    simp only [run, hnone] at hr
    cases hr

end

/-! ## The invariant -/

/-- What the state of a worker says about its part. `false` says nothing once
`kill` is set. -/
def CheckWorker.Sound (M : CheckModel St In Out) (computeInfo kill : Bool) (part : List (Entry In Out)) :
    CheckWorker St In Out → Prop
  | .running c => ∃ n, checkSingle M part computeInfo n = some (.inl c)
  | .done ok longest => ok = true ∨ kill = false → ∃ n, checkSingle M part computeInfo n = some (.inr (ok, longest))

theorem CheckWorker.Sound.killed {kill : Bool} {part : List (Entry In Out)} {w : CheckWorker St In Out}
    (h : w.Sound M computeInfo kill part) : w.Sound M computeInfo true part := by
  cases w with
  | running c => exact h
  | done ok longest => exact fun hor => h (Or.inl (hor.resolve_right (by simp)))

structure ParallelCheck.Sound (M : CheckModel St In Out) (computeInfo : Bool) (timeout : Int)
    (parts : List (List (Entry In Out) × Prop)) (s : ParallelCheck St In Out) : Prop where
  workers : List.Forall₂ (fun part w => w.Sound M computeInfo s.kill part.1) parts s.workers
  alive : s.phase ≠ .panicked
  count : s.count + s.results.length = s.workers.countP CheckWorker.isDone
  loop : s.phase = .loop → s.kill = false ∧ s.timedOut = false ∧ (s.count < s.workers.length ∨ s.workers = [])
  -- while all results so far are true, the false ones are in the channel
  falses : s.phase = .loop → s.ok = true → s.results.count false = s.workers.countP CheckWorker.isFalse
  illegal : s.ok = false → ∃ part ∈ parts, ¬ part.2
  legal : s.phase ≠ .loop → s.ok = true → s.timedOut = false → ∀ part ∈ parts, part.2
  timed : s.timedOut = true → 0 < timeout
  returned : ∀ r, s.phase = .returned r → r = s.result

section
variable {parts : List (List (Entry In Out) × Prop)}

theorem ParallelCheck.sound_init (M : CheckModel St In Out) (computeInfo : Bool) (timeout : Int)
    (parts : List (List (Entry In Out) × Prop)) :
    (init M (parts.map Prod.fst)).Sound M computeInfo timeout parts := by
  have hrunning : ∀ q : CheckWorker St In Out → Bool, (∀ c, q (.running c) = false) →
      (init M (parts.map Prod.fst)).workers.countP q = 0 := by
    intro q hq
    rw [List.countP_eq_zero]
    intro w hw
    obtain ⟨part, -, rfl⟩ := List.mem_map.mp hw
    simp [hq]
  refine ⟨?_, by simp [init], ?_, fun _ => ⟨rfl, rfl, ?_⟩, fun _ _ => ?_, by simp [init], by simp [init],
    by simp [init], by simp [init]⟩
  · simp only [init, List.map_map, List.forall₂_map_right_iff, List.forall₂_same]
    exact fun part _ => ⟨0, rfl⟩
  · rw [hrunning _ fun _ => rfl]
    rfl
  · cases parts with
    | nil => exact Or.inr rfl
    | cons part parts => exact Or.inl (by simp [init])
  · rw [hrunning _ fun _ => rfl]
    rfl

theorem forall₂_getElem {α β : Type*} {R : α → β → Prop} {l : List α} {m : List β} (h : List.Forall₂ R l m) {i : Nat}
    {b : β} (hb : m[i]? = some b) : ∃ a, l[i]? = some a ∧ R a b := by
  induction h generalizing i with
  | nil => cases hb
  | cons hab _ ih =>
    cases i with
    | zero => exact ⟨_, rfl, Option.some.inj hb ▸ hab⟩
    | succ i => exact ih hb

theorem forall₂_set {α β : Type*} {R : α → β → Prop} {l : List α} {m : List β} (h : List.Forall₂ R l m) {i : Nat}
    {b : β} (hb : ∀ a, l[i]? = some a → R a b) : List.Forall₂ R l (m.set i b) := by
  induction h generalizing i with
  | nil => exact .nil
  | cons hab htail ih =>
    cases i with
    | zero => exact .cons (hb _ rfl) htail
    | succ i => exact .cons hab (ih hb)

theorem countP_set_running {q : CheckWorker St In Out → Bool} (hq : ∀ c, q (.running c) = false)
    {l : List (CheckWorker St In Out)} {i : Nat} {c : Checker St In Out} (hw : l[i]? = some (.running c))
    (w : CheckWorker St In Out) : (l.set i w).countP q = l.countP q + if q w then 1 else 0 := by
  obtain ⟨hi, hget⟩ := List.getElem?_eq_some_iff.mp hw
  rw [List.countP_set hi, hget, hq]
  simp

namespace ParallelCheck.Sound

variable (hdec : ∀ part ∈ parts, Decided M computeInfo part.1 part.2) (h : s.Sound M computeInfo timeout parts)
include hdec h

theorem next_ne_none {i : Nat} {c : Checker St In Out} (hw : s.workers[i]? = some (.running c)) :
    c.next M computeInfo s.kill ≠ none := by
  obtain ⟨part, hpart, n, hn⟩ := forall₂_getElem h.workers hw
  cases hk : s.kill with
  | true =>
    obtain ⟨ok, longest, hnext, -⟩ := c.next_kill M computeInfo
    simp [hnext]
  | false => exact Checker.next_ne_none ((hdec part (List.mem_of_getElem? hpart)).ends hn)

/-- A worker that answers `false` before `kill` is set has a part that fails. -/
theorem exists_fails (hkill : s.kill = false) (hpos : 0 < s.workers.countP CheckWorker.isFalse) :
    ∃ part ∈ parts, ¬ part.2 := by
  obtain ⟨w, hw, hf⟩ := List.countP_pos_iff.mp hpos
  obtain ⟨i, hi⟩ := List.mem_iff_getElem?.mp hw
  obtain ⟨part, hpart, hs⟩ := forall₂_getElem h.workers hi
  have hmem := List.mem_of_getElem? hpart
  cases w with
  | running c => cases hf
  | done ok longest =>
    cases ok with
    | true => cases hf
    | false =>
      obtain ⟨n, hn⟩ := hs (Or.inr hkill)
      exact ⟨part, hmem, fun hP => by cases ((hdec part hmem).answer hn).mpr hP⟩

/-- If all workers are done and none answers `false`, every part holds. -/
theorem all_hold (hall : s.workers.countP CheckWorker.isDone = s.workers.length)
    (hnone : s.workers.countP CheckWorker.isFalse = 0) : ∀ part ∈ parts, part.2 := by
  intro part hmem
  obtain ⟨i, hi⟩ := List.mem_iff_getElem?.mp hmem
  obtain ⟨w, hw, hs⟩ := forall₂_getElem h.workers.flip hi
  have hwmem := List.mem_of_getElem? hw
  have hdone := List.countP_eq_length.mp hall w hwmem
  have htrue := List.countP_eq_zero.mp hnone w hwmem
  cases w with
  | running c => cases hdone
  | done ok longest =>
    cases ok with
    | false => exact absurd rfl htrue
    | true =>
      obtain ⟨n, hn⟩ := hs (Or.inl rfl)
      exact ((hdec part hmem).answer hn).mp rfl

theorem work {i : Nat} (ht : s.work M computeInfo i = some t) : t.Sound M computeInfo timeout parts := by
  obtain ⟨-, c, hw, hcases⟩ := work_cases ht
  have hne : s.workers ≠ [] := List.ne_nil_of_mem (List.mem_of_getElem? hw)
  have hloop : ∀ w, s.phase = .loop → s.kill = false ∧ s.timedOut = false ∧
      (s.count < (s.workers.set i w).length ∨ s.workers.set i w = []) := by
    intro w hl
    exact ⟨(h.loop hl).1, (h.loop hl).2.1, by simpa [hne] using (h.loop hl).2.2⟩
  obtain ⟨part, hpart, n, hn⟩ := forall₂_getElem h.workers hw
  have hrun := Checker.run_add hn 1
  rw [Checker.run_one] at hrun
  rcases hcases with ⟨c', hc, rfl⟩ | ⟨ok, longest, hc, rfl⟩ | ⟨hc, -⟩
  · have hkill : s.kill = false := Checker.kill_of_inl hc
    refine { h with workers := forall₂_set h.workers fun a ha => ?_, count := ?_, loop := hloop _, falses := ?_ }
    · obtain rfl : part = a := Option.some.inj (hpart.symm.trans ha)
      exact ⟨n + 1, by rw [checkSingle, hrun, ← hkill, hc]⟩
    · rw [countP_set_running (fun _ => rfl) hw]
      exact h.count
    · intro hl hok
      rw [countP_set_running (fun _ => rfl) hw]
      exact h.falses hl hok
  · refine { h with workers := forall₂_set h.workers fun a ha hor => ?_, count := ?_, loop := hloop _, falses := ?_ }
    · obtain rfl : part = a := Option.some.inj (hpart.symm.trans ha)
      refine ⟨n + 1, hrun.trans ?_⟩
      cases hk : s.kill with
      | false => rw [← hk, hc]
      | true =>
        -- a killed worker that answers `true` was at its end
        obtain ⟨ok', longest', hnext, hsame⟩ := c.next_kill M computeInfo
        rw [hk, hnext] at hc
        cases hc
        exact hsame (hor.resolve_right (by simp [hk]))
    · rw [countP_set_running (fun _ => rfl) hw, ← h.count]
      simp [CheckWorker.isDone, Nat.add_assoc]
    · intro hl hok
      rw [countP_set_running (fun _ => rfl) hw, ← h.falses hl hok]
      cases ok <;> simp [CheckWorker.isFalse]
  · exact absurd hc (h.next_ne_none hdec hw)

theorem receive (ht : s.receive computeInfo = some t) : t.Sound M computeInfo timeout parts := by
  obtain ⟨result, results, hphase, hres, kill, phase, rfl, hleave⟩ := receive_cases ht
  obtain ⟨hkill, htimed, -⟩ := h.loop hphase
  have hcount := h.count
  rw [hres, List.length_cons] at hcount
  have hle : s.workers.countP CheckWorker.isDone ≤ s.workers.length := List.countP_le_length
  refine ⟨h.workers.imp fun part w hw => ?_, ?_, ?_, ?_, ?_, ?_, ?_, h.timed, ?_⟩
  · cases kill with
    | true => exact hw.killed
    | false => rwa [hkill] at hw
  · rcases hleave with ⟨rfl, -⟩ | ⟨rfl, -⟩ <;> simp
  · exact (Nat.add_right_comm _ _ _).trans hcount
  · intro hl
    rcases hleave with ⟨-, rfl, hlt⟩ | ⟨rfl, -⟩
    · exact ⟨hkill, htimed, Or.inl hlt⟩
    · cases hl
  · intro _ hok
    rw [Bool.and_eq_true] at hok
    have := h.falses hphase hok.1
    rw [hres, hok.2] at this
    simpa using this
  · intro hok
    cases hs : s.ok with
    | false => exact h.illegal hs
    | true =>
      have hfalse : result = false := by simpa [hs] using hok
      refine h.exists_fails hdec hkill ?_
      rw [← h.falses hphase hs, hres, hfalse]
      simp
  · intro hl hok _
    rcases hleave with ⟨rfl, -⟩ | ⟨-, hbad | hall⟩
    · exact absurd rfl hl
    · cases hok.symm.trans hbad
    · -- the last result: nothing is left in the channel, and all were true
      rw [Bool.and_eq_true] at hok
      obtain rfl : results = [] := List.length_eq_zero_iff.mp (by omega)
      have hf := h.falses hphase hok.1
      rw [hres, hok.2] at hf
      exact h.all_hold hdec (by simp only [List.length_nil] at hcount; omega) hf.symm
  · intro r hr
    rcases hleave with ⟨rfl, -⟩ | ⟨rfl, -⟩ <;> cases hr

theorem step {a : ParallelAct} (ht : s.step M computeInfo timeout a = some t) : t.Sound M computeInfo timeout parts := by
  cases a with
  | work i => exact h.work hdec ht
  | receive => exact h.receive hdec ht
  | timeout =>
    simp only [ParallelCheck.step] at ht
    split at ht
    · rename_i hc
      cases ht
      exact ⟨h.workers.imp fun _ _ hw => hw.killed, by simp, h.count, by simp, by simp, h.illegal, by simp,
        fun _ => hc.2, by simp⟩
    · cases ht
  | wait =>
    obtain ⟨result, results, hphase, hres, -, rfl⟩ := wait_cases ht
    have hcount := h.count
    rw [hres, List.length_cons] at hcount
    exact { h with
      count := (Nat.add_right_comm _ _ _).trans hcount
      loop := fun hl => by rw [hphase] at hl; cases hl
      falses := fun hl => by rw [hphase] at hl; cases hl }
  | finish =>
    simp only [ParallelCheck.step] at ht
    split at ht
    · rename_i hc
      cases ht
      exact ⟨h.workers, by simp, h.count, by simp, by simp, h.illegal, fun _ => h.legal (by simp [hc.1]), h.timed,
        fun r hr => by cases hr; rfl⟩
    · cases ht

end ParallelCheck.Sound

theorem ParallelCheck.Sound.exec (hdec : ∀ part ∈ parts, Decided M computeInfo part.1 part.2)
    (h : s.Sound M computeInfo timeout parts) {as : List ParallelAct}
    (ht : DistLab.exec (ParallelCheck.step M computeInfo timeout) s as = some t) : t.Sound M computeInfo timeout parts := by
  induction as generalizing s with
  | nil => exact Option.some.inj ht ▸ h
  | cons a as ih =>
    simp only [DistLab.exec] at ht
    split at ht
    · rename_i u hu
      exact ih (h.step hdec hu) ht
    · cases ht

/-! ## Every schedule ends -/

noncomputable def Checker.left (M : CheckModel St In Out) (computeInfo : Bool) (c : Checker St In Out) : Nat :=
  sInf { d | ∃ r, c.run M computeInfo d = some (.inr r) }

theorem Checker.run_left {c : Checker St In Out} (h : ∃ d r, c.run M computeInfo d = some (.inr r)) :
    ∃ d r, c.left M computeInfo = d + 1 ∧ c.run M computeInfo (d + 1) = some (.inr r) := by
  obtain ⟨r, hr⟩ : ∃ r, c.run M computeInfo (c.left M computeInfo) = some (.inr r) := Nat.sInf_mem h
  cases hl : c.left M computeInfo with
  | zero =>
    rw [hl] at hr
    cases hr
  | succ d =>
    rw [hl] at hr
    exact ⟨d, r, rfl, hr⟩

theorem Checker.left_lt {c c' : Checker St In Out} (h : ∃ d r, c.run M computeInfo d = some (.inr r))
    (hnext : c.next M computeInfo false = some (.inl c')) : c'.left M computeInfo < c.left M computeInfo := by
  obtain ⟨d, r, hl, hr⟩ := run_left h
  rw [run_inl hnext] at hr
  rw [hl]
  exact Nat.lt_succ_of_le (Nat.sInf_le ⟨r, hr⟩)

noncomputable def CheckWorker.left (M : CheckModel St In Out) (computeInfo : Bool) : CheckWorker St In Out → Nat
  | .running c => c.left M computeInfo
  | .done _ _ => 0

def ParallelPhase.left : ParallelPhase → Nat
  | .loop => 2
  | .waiting => 1
  | _ => 0

noncomputable def turns (M : CheckModel St In Out) (computeInfo : Bool) : List (CheckWorker St In Out) → Nat
  | [] => 0
  | w :: ws => w.left M computeInfo + turns M computeInfo ws

noncomputable def ParallelCheck.left (M : CheckModel St In Out) (computeInfo : Bool) (s : ParallelCheck St In Out) : Nat :=
  turns M computeInfo s.workers + (s.workers.length - s.count) + s.phase.left

theorem turns_set_lt {ws : List (CheckWorker St In Out)} {i : Nat} {w w' : CheckWorker St In Out}
    (hw : ws[i]? = some w) (hlt : w'.left M computeInfo < w.left M computeInfo) :
    turns M computeInfo (ws.set i w') < turns M computeInfo ws := by
  induction ws generalizing i with
  | nil => cases hw
  | cons v ws ih =>
    cases i with
    | zero =>
      cases hw
      exact Nat.add_lt_add_right hlt _
    | succ i => exact Nat.add_lt_add_left (ih hw) _

namespace ParallelCheck.Sound

variable (hdec : ∀ part ∈ parts, Decided M computeInfo part.1 part.2) (h : s.Sound M computeInfo timeout parts)
include hdec h

theorem work_left {i : Nat} (ht : s.work M computeInfo i = some t) : t.left M computeInfo < s.left M computeInfo := by
  obtain ⟨-, c, hw, hcases⟩ := work_cases ht
  obtain ⟨part, hpart, n, hn⟩ := forall₂_getElem h.workers hw
  have hends := (hdec part (List.mem_of_getElem? hpart)).ends hn
  have hlt : ∀ w, CheckWorker.left M computeInfo w < c.left M computeInfo →
      turns M computeInfo (s.workers.set i w) < turns M computeInfo s.workers := fun w hlt => turns_set_lt hw hlt
  rcases hcases with ⟨c', hc, rfl⟩ | ⟨ok, longest, hc, rfl⟩ | ⟨hc, -⟩
  · have hkill : s.kill = false := Checker.kill_of_inl hc
    rw [hkill] at hc
    have := hlt (.running c') (Checker.left_lt hends hc)
    simp only [left, List.length_set]
    omega
  · obtain ⟨d, r, hl, -⟩ := Checker.run_left hends
    have := hlt (.done ok longest) (by rw [hl]; exact Nat.succ_pos d)
    simp only [left, List.length_set]
    omega
  · exact absurd hc (h.next_ne_none hdec hw)

theorem step_left {a : ParallelAct} (ht : s.step M computeInfo timeout a = some t) :
    t.left M computeInfo < s.left M computeInfo := by
  have hcount := h.count
  have hle : s.workers.countP CheckWorker.isDone ≤ s.workers.length := List.countP_le_length
  cases a with
  | work i => exact h.work_left hdec ht
  | receive =>
    obtain ⟨result, results, hphase, hres, kill, phase, rfl, hleave⟩ := receive_cases ht
    rw [hres, List.length_cons] at hcount
    simp only [left, hphase]
    rcases hleave with ⟨rfl, -⟩ | ⟨rfl, -⟩
    · omega
    · simp only [ParallelPhase.left]
      omega
  | timeout =>
    simp only [ParallelCheck.step] at ht
    split at ht
    · rename_i hc
      cases ht
      simp only [left, hc.1, ParallelPhase.left]
      omega
    · cases ht
  | wait =>
    obtain ⟨result, results, -, -, hwaits, rfl⟩ := wait_cases ht
    have := hwaits.2
    simp only [left]
    omega
  | finish =>
    simp only [ParallelCheck.step] at ht
    split at ht
    · rename_i hc
      cases ht
      simp only [left, hc.1, ParallelPhase.left]
      omega
    · cases ht

theorem exec_left {as : List ParallelAct} (ht : DistLab.exec (ParallelCheck.step M computeInfo timeout) s as = some t) :
    as.length + t.left M computeInfo ≤ s.left M computeInfo := by
  induction as generalizing s with
  | nil =>
    cases ht
    simp
  | cons a as ih =>
    simp only [DistLab.exec] at ht
    split at ht
    · rename_i u hu
      have hlt := h.step_left hdec hu
      have := ih (h.step hdec hu) ht
      rw [List.length_cons]
      omega
    · cases ht

omit hdec in
/-- Where no step is possible the caller has returned, unless it waits for the
results of no part at all. -/
theorem stuck (hstuck : ∀ a, s.step M computeInfo timeout a = none) :
    (∃ r, s.phase = .returned r) ∨ parts = [] ∧ timeout ≤ 0 := by
  have hdone : s.workers.countP CheckWorker.isDone = s.workers.length := by
    rw [List.countP_eq_length]
    intro w hw
    obtain ⟨i, hi⟩ := List.mem_iff_getElem?.mp hw
    cases w with
    | done ok longest => rfl
    | running c =>
      have hwork := hstuck (.work i)
      simp only [ParallelCheck.step, ParallelCheck.work, hi] at hwork
      split at hwork
      · exact absurd ‹_› h.alive
      · split at hwork <;> cases hwork
      · rename_i hnot
        exact absurd rfl (hnot c)
  have hcount := h.count
  cases hphase : s.phase with
  | returned r => exact Or.inl ⟨r, rfl⟩
  | panicked => exact absurd hphase h.alive
  | loop =>
    refine Or.inr ⟨?_, ?_⟩
    · have hres : s.results = [] := by
        cases hres : s.results with
        | nil => rfl
        | cons result results =>
          have hrec := hstuck .receive
          simp only [ParallelCheck.step, ParallelCheck.receive, hphase, hres] at hrec
          split at hrec
          · cases hrec
          · split at hrec <;> cases hrec
      rw [hres, List.length_nil, hdone] at hcount
      have hempty : s.workers = [] := (h.loop hphase).2.2.resolve_left (by omega)
      have hlen := h.workers.length_eq
      rw [hempty] at hlen
      exact List.length_eq_zero_iff.mp hlen
    · have htime := hstuck .timeout
      simp only [ParallelCheck.step, hphase, true_and] at htime
      split at htime
      · cases htime
      · exact Int.not_lt.mp ‹_›
  | waiting =>
    have hfinish := hstuck .finish
    simp only [ParallelCheck.step, hphase, true_and] at hfinish
    split at hfinish
    · cases hfinish
    · rename_i hwaits
      rw [not_not] at hwaits
      have hwait := hstuck .wait
      simp only [ParallelCheck.step, hphase] at hwait
      cases hres : s.results with
      | nil =>
        rw [hres, List.length_nil, hdone] at hcount
        exact absurd hwaits.2 (by omega)
      | cons result results =>
        simp only [hres, if_pos hwaits] at hwait
        cases hwait

end ParallelCheck.Sound

end

end

end DistLab
