import DistLab.Mr.Agree
import DistLab.Mr.System

/-!
# The stop channel of a worker

Both goroutines of a worker close `stopHeartbeat` when they learn that the work
is over, and only the main loop looks first, at the top of a turn. A heartbeat
that ends while the main loop stands there is seen, and the channel is closed
once. A main loop that is already past its check closes what the heartbeat has
closed, and that is a panic.
-/

namespace DistLab

/-! ## One worker -/

/-- A step of one worker, with whatever the directory holds and the coordinator answers. -/
inductive WorkerAct
  | inner (dir : Dir) (a : LocalAct)
  | write
  | handled (reply : Reply)
  | beatHandled (stop : Bool)

/-- A call of the main loop fails, or the loop acts on the answer `exit`. -/
def WorkerAct.EndsMain : WorkerAct → Prop
  | .inner _ .unreachable => True
  | .inner _ .closes => True
  | _ => False

/-- A heartbeat fails, or the answer to it is `Stop`. -/
def WorkerAct.EndsBeat (beat : BeatStage) : WorkerAct → Prop
  | .inner _ .beatUnreachable => True
  | .inner _ .beatDelivers => beat = .answered true
  | _ => False

instance (beat : BeatStage) (a : WorkerAct) : Decidable (a.EndsBeat beat) :=
  match a with
  | .inner _ .beatUnreachable => isTrue trivial
  | .inner _ .beatDelivers => inferInstanceAs (Decidable (beat = .answered true))
  | .inner _ .loop | .inner _ .openInput | .inner _ .mapReturns | .inner _ .listFiles | .inner _ .readFile
  | .inner _ .taskFails | .inner _ .deliver | .inner _ .unreachable | .inner _ .closes | .inner _ .exit
  | .inner _ .crash | .inner _ .beatCalls | .inner _ .beatStops => isFalse id
  | .write | .handled _ | .beatHandled _ => isFalse id

namespace Worker

/-- A process that has exited or panicked does nothing any more. -/
def step (app : App) (x : Worker) : WorkerAct → Option Worker
  | .inner dir a => if x.process = .running then x.act app dir a else none
  | .write => if x.process = .running then (x.write app).map fun p => p.1 else none
  | .handled reply =>
    if x.process = .running ∧ x.main = .calling then some { x with main := .answered reply } else none
  | .beatHandled stop =>
    if x.process = .running ∧ x.beat = .calling then some { x with beat := .answered stop } else none

variable {app : App} {dir : Dir} {x x' : Worker}

theorem close_closed (x : Worker) : x.close.closed = true := by
  unfold close
  split
  · assumption
  · rfl

/-- The main loop is at its check of the channel, or gone. -/
def Parked (x : Worker) : Prop := x.main = .top ∨ x.main = .returned

inductive Ends (x : Worker) (a : WorkerAct) : Worker → Prop
  | rest (x' : Worker) : ¬ a.EndsMain → ¬ a.EndsBeat x.beat → x'.closed = x.closed →
      (x.closed = true → x.Parked → x'.Parked) → (x.main = .returned → x'.main = .returned) →
      (x.beat = .returned → x'.beat = .returned) → Ends x a x'
  | main : a.EndsMain → ¬ x.Parked → Ends x a { x.close with main := .returned }
  | beat : a.EndsBeat x.beat → x.beat ≠ .returned → Ends x a { x.close with beat := .returned }

theorem Ends.of_main {a : WorkerAct} (hm : ¬ a.EndsMain) (hb : ¬ a.EndsBeat x.beat) (hmain : ¬ x.Parked)
    (hbeat : x'.beat = x.beat) (hclosed : x'.closed = x.closed) : x.Ends a x' :=
  .rest x' hm hb hclosed (fun _ h => absurd h hmain) (fun h => absurd (Or.inr h) hmain) (fun h => hbeat.trans h)

theorem Ends.of_beat {a : WorkerAct} (hm : ¬ a.EndsMain) (hb : ¬ a.EndsBeat x.beat) (hmain : x'.main = x.main)
    (hbeat : x.beat = .returned → x'.beat = .returned) (hclosed : x'.closed = x.closed) : x.Ends a x' :=
  .rest x' hm hb hclosed (fun _ h => h.imp hmain.trans hmain.trans) hmain.trans hbeat

theorem loop_same (x : Worker) : x.loop.beat = x.beat ∧ x.loop.closed = x.closed := by
  unfold loop
  split
  · exact ⟨rfl, rfl⟩
  · split <;> exact ⟨rfl, rfl⟩

theorem loop_closed (h : x.closed = true) : x.loop.main = .returned := by
  simp [loop, h]

theorem openInput_same (x : Worker) :
    (x.openInput app dir).beat = x.beat ∧ (x.openInput app dir).closed = x.closed := by
  unfold openInput
  split
  · exact ⟨rfl, rfl⟩
  · split <;> exact ⟨rfl, rfl⟩

theorem listFiles_same (x : Worker) : (x.listFiles dir).beat = x.beat ∧ (x.listFiles dir).closed = x.closed := by
  unfold listFiles
  split <;> exact ⟨rfl, rfl⟩

theorem readFile_same (x : Worker) (fname : GoString) (files : List GoString) (kva : List KeyValue) :
    (x.readFile dir fname files kva).beat = x.beat ∧ (x.readFile dir fname files kva).closed = x.closed := by
  unfold readFile
  split
  · exact ⟨rfl, rfl⟩
  · split <;> exact ⟨rfl, rfl⟩

theorem act_ends {a : LocalAct} (h : x.act app dir a = some x') : x.Ends (.inner dir a) x' := by
  cases a with
  | loop =>
    simp only [act, Option.ite_none_right_eq_some, Option.some.injEq] at h
    obtain ⟨hmain, rfl⟩ := h
    refine .rest _ id id x.loop_same.2 (fun hc _ => Or.inr (loop_closed hc)) (fun hr => ?_) x.loop_same.1.trans
    rw [hmain] at hr
    cases hr
  | openInput =>
    simp only [act, Option.ite_none_right_eq_some, Option.some.injEq] at h
    obtain ⟨hmain, rfl⟩ := h
    exact .of_main id id (by simp [Parked, hmain]) x.openInput_same.1 x.openInput_same.2
  | mapReturns =>
    simp only [act, Option.ite_none_right_eq_some, Option.some.injEq] at h
    obtain ⟨hmain, rfl⟩ := h
    exact .of_main id id (by simp [Parked, hmain]) rfl rfl
  | listFiles =>
    simp only [act, Option.ite_none_right_eq_some, Option.some.injEq] at h
    obtain ⟨hmain, rfl⟩ := h
    exact .of_main id id (by simp [Parked, hmain]) x.listFiles_same.1 x.listFiles_same.2
  | readFile =>
    simp only [act] at h
    split at h
    · rename_i hmain
      cases h
      exact .of_main id id (by simp [Parked, hmain]) (x.readFile_same ..).1 (x.readFile_same ..).2
    · cases h
  | taskFails =>
    simp only [act] at h
    split at h <;> cases h <;> rename_i hmain <;> exact .of_main id id (by simp [Parked, hmain]) rfl rfl
  | deliver =>
    simp only [act] at h
    split at h
    · rename_i hmain
      cases h
      exact .of_main id id (by simp [Parked, hmain]) rfl rfl
    · cases h
  | unreachable =>
    simp only [act] at h
    split at h <;> cases h <;> rename_i hmain <;> exact .main trivial (by simp [Parked, hmain])
  | closes =>
    simp only [act, Option.ite_none_right_eq_some, Option.some.injEq] at h
    obtain ⟨hmain, rfl⟩ := h
    exact .main trivial (by simp [Parked, hmain])
  | exit =>
    simp only [act, Option.ite_none_right_eq_some, Option.some.injEq] at h
    obtain ⟨-, rfl⟩ := h
    exact .of_beat id id rfl id rfl
  | crash =>
    cases h
    exact .of_beat id id rfl id rfl
  | beatCalls =>
    simp only [act, Option.ite_none_right_eq_some, Option.some.injEq] at h
    obtain ⟨hbeat, rfl⟩ := h
    exact .of_beat id id rfl (by simp [hbeat]) rfl
  | beatStops =>
    simp only [act, Option.ite_none_right_eq_some, Option.some.injEq] at h
    obtain ⟨-, rfl⟩ := h
    exact .of_beat id id rfl (fun _ => rfl) rfl
  | beatDelivers =>
    simp only [act] at h
    split at h
    · rename_i stop hbeat
      cases h
      cases stop with
      | true => exact .beat hbeat (by simp [hbeat])
      | false => exact .of_beat id (by simp [WorkerAct.EndsBeat, hbeat]) rfl (by simp [hbeat]) rfl
    · cases h
  | beatUnreachable =>
    simp only [act] at h
    split at h <;> cases h <;> rename_i hbeat <;> exact .beat trivial (by simp [hbeat])

theorem step_ends {a : WorkerAct} (h : x.step app a = some x') : x.Ends a x' := by
  cases a with
  | inner dir a =>
    simp only [step, Option.ite_none_right_eq_some] at h
    exact act_ends h.2
  | write =>
    simp only [step, Option.ite_none_right_eq_some] at h
    obtain ⟨⟨y, name, text⟩, hy, rfl⟩ := Option.map_eq_some_iff.mp h.2
    unfold write at hy
    split at hy
    · rename_i hmain
      cases hy
      exact .of_main id id (by simp [Parked, hmain]) rfl rfl
    · rename_i hmain
      cases hy
      exact .of_main id id (by simp [Parked, hmain]) rfl rfl
    · cases hy
  | handled reply =>
    simp only [step, Option.ite_none_right_eq_some, Option.some.injEq] at h
    obtain ⟨⟨-, hmain⟩, rfl⟩ := h
    exact .of_main id id (by simp [Parked, hmain]) rfl rfl
  | beatHandled stop =>
    simp only [step, Option.ite_none_right_eq_some, Option.some.injEq] at h
    obtain ⟨⟨-, hbeat⟩, rfl⟩ := h
    exact .of_beat id id rfl (by simp [hbeat]) rfl

theorem step_running {a : WorkerAct} (h : x.step app a = some x') : x.process = .running := by
  cases a with
  | inner dir a =>
    simp only [step, Option.ite_none_right_eq_some] at h
    exact h.1
  | write =>
    simp only [step, Option.ite_none_right_eq_some] at h
    exact h.1
  | handled reply =>
    simp only [step, Option.ite_none_right_eq_some] at h
    exact h.1.1
  | beatHandled stop =>
    simp only [step, Option.ite_none_right_eq_some] at h
    exact h.1.1

def Closes (x : Worker) (a : WorkerAct) : Prop :=
  a.EndsMain ∨ a.EndsBeat x.beat

/-- A heartbeat that ends finds the main loop at its check of the channel. -/
def BeatEndsAtTop (x : Worker) (a : WorkerAct) : Prop :=
  a.EndsBeat x.beat → x.main = .top

instance (x : Worker) (a : WorkerAct) : Decidable (x.BeatEndsAtTop a) :=
  inferInstanceAs (Decidable (_ → _))

theorem Ends.closed {a : WorkerAct} (h : x.Ends a x') (hx : x.closed = true) : x'.closed = true := by
  cases h with
  | rest _ _ _ hclosed _ _ _ => exact hclosed.trans hx
  | main _ _ => exact x.close_closed
  | beat _ _ => exact x.close_closed

theorem Ends.closes {a : WorkerAct} (h : x.Ends a x') (hc : x.Closes a) :
    x'.closed = true ∧ x'.process = x.close.process := by
  cases h with
  | rest _ hm hb _ _ _ _ =>
    rcases hc with hc | hc
    · exact absurd hc hm
    · exact absurd hc hb
  | main _ _ => exact ⟨x.close_closed, rfl⟩
  | beat _ _ => exact ⟨x.close_closed, rfl⟩

/-- When the channel is closed, the main loop is at its check or gone, and the
goroutine that closed it is gone. -/
structure Settled (x : Worker) : Prop where
  parked : x.closed = true → x.Parked
  gone : x.closed = true → x.beat = .returned ∨ x.main = .returned

theorem Settled.ends {a : WorkerAct} (h : x.Settled) (ht : x.BeatEndsAtTop a) (he : x.Ends a x') : x'.Settled := by
  cases he with
  | rest _ _ _ hclosed hpark hmain hbeat =>
    refine ⟨fun hc => ?_, fun hc => ?_⟩
    · rw [hclosed] at hc
      exact hpark hc (h.parked hc)
    · rw [hclosed] at hc
      exact (h.gone hc).imp hbeat hmain
  | main _ _ => exact ⟨fun _ => Or.inr rfl, fun _ => Or.inr rfl⟩
  | beat hb _ => exact ⟨fun _ => Or.inl (x.close_same.2.2.2.trans (ht hb)), fun _ => Or.inl rfl⟩

theorem Settled.open_of_closes {a : WorkerAct} (h : x.Settled) (ht : x.BeatEndsAtTop a) (he : x.Ends a x')
    (hc : x.Closes a) : x.closed = false := by
  by_contra hclosed
  have hclosed : x.closed = true := by simpa using hclosed
  cases he with
  | rest _ hm hb _ _ _ _ => exact hc.elim hm hb
  | main _ hpast => exact hpast (h.parked hclosed)
  | beat hb hbeat =>
    -- the main loop has closed it, so it is not at the top
    have hmain := (h.gone hclosed).resolve_left hbeat
    rw [ht hb] at hmain
    cases hmain

end Worker

abbrev WorkerRun (app : App) := Run (Worker.step app) Worker.init

namespace WorkerRun

variable {app : App} (r : WorkerRun app)

def Closes (k : Nat) : Prop :=
  ∃ a, r.act k = some a ∧ (r.state k).Closes a

theorem settled (hr : r.Meets Worker.BeatEndsAtTop) (k : Nat) : (r.state k).Settled := by
  refine r.invariant hr ⟨fun h => ?_, fun h => ?_⟩ (fun x a x' h ht hs => h.ends ht (Worker.step_ends hs)) k
  · cases h
  · cases h

theorem stays_closed {m n : Nat} (hmn : m ≤ n) (hm : (r.state m).closed = true) : (r.state n).closed = true :=
  r.induction_from (P := fun _ x => x.closed = true) hmn hm (fun _ _ _ _ h => h)
    fun _ _ _ _ _ h hs => (Worker.step_ends hs).closed h

theorem closes_open (hr : r.Meets Worker.BeatEndsAtTop) {k : Nat} (h : Closes r k) :
    (r.state k).closed = false ∧ (r.state (k + 1)).closed = true := by
  obtain ⟨a, ha, hc⟩ := h
  have he := Worker.step_ends (r.next_some ha)
  exact ⟨(settled r hr k).open_of_closes (hr k a ha) he hc, (he.closes hc).1⟩

theorem not_closes_again (hr : r.Meets Worker.BeatEndsAtTop) {k k' : Nat} (hlt : k < k') (h : Closes r k) :
    ¬ Closes r k' := by
  intro h'
  have hclosed := stays_closed r hlt (closes_open r hr h).2
  rw [(closes_open r hr h').1] at hclosed
  cases hclosed

end WorkerRun

/-- The worker is told to wait; its heartbeat fails before the next turn. -/
def toldToWait (dir : Dir) : List WorkerAct :=
  [.inner dir .loop, .handled { Reply.zero with t := .wait }, .inner dir .deliver, .inner dir .beatCalls,
   .inner dir .beatUnreachable, .inner dir .loop]

theorem toldToWait_exec : (exec (Worker.step App.wordCount) Worker.init (toldToWait App.twoTexts)).isSome = true := by
  decide +kernel

def notified : WorkerRun App.wordCount := Run.ofList (toldToWait App.twoTexts) (Option.some_get toldToWait_exec).symm

theorem notified_atTop : notified.Meets Worker.BeatEndsAtTop := Run.meets_ofList _ (by decide +kernel)

namespace MrSystem

variable {app : App} {σ σ' : MrSystem}

def workerAct (σ : MrSystem) (w : Nat) : MrAct → Option WorkerAct
  | .inner w' a => if w' = w then some (.inner σ.dir a) else none
  | .write w' => if w' = w then some .write else none
  | .handle w' => if w' = w then some (.handled (σ.c.coordinatorHandler (σ.worker w).args).2) else none
  | .heartbeat w' => if w' = w then some (.beatHandled (σ.c.heartbeat w σ.clock).2) else none
  | _ => none

theorem setWorker_of_ne {w w' : Nat} (h : w' ≠ w) (x : Worker) : (σ.setWorker w' x).worker w = σ.worker w :=
  Function.update_of_ne h.symm ..

theorem worker_rests {a : MrAct} (h : σ.step app a = some σ') {w : Nat} (ha : σ.workerAct w a = none) :
    σ'.worker w = σ.worker w := by
  cases step_steps h with
  | inner w' => exact setWorker_of_ne (by simpa [workerAct] using ha) _
  | rename w' => exact setWorker_of_ne (by simpa [workerAct] using ha) _
  | output w' => exact setWorker_of_ne (by simpa [workerAct] using ha) _
  | handle w' => exact setWorker_of_ne (by simpa [workerAct] using ha) _
  | heartbeat w' => exact setWorker_of_ne (by simpa [workerAct] using ha) _
  | _ => rfl

theorem worker_acts {a : MrAct} (h : σ.step app a = some σ') {w : Nat} {b : WorkerAct}
    (ha : σ.workerAct w a = some b) : (σ.worker w).step app b = some (σ'.worker w) := by
  cases a with
  | inner w' a =>
    simp only [workerAct, Option.ite_none_right_eq_some, Option.some.injEq] at ha
    obtain ⟨rfl, rfl⟩ := ha
    simp only [step, Option.ite_none_right_eq_some] at h
    obtain ⟨hp, h⟩ := h
    obtain ⟨x, hx, rfl⟩ := Option.map_eq_some_iff.mp h
    simp [Worker.step, hp, hx]
  | write w' =>
    simp only [workerAct, Option.ite_none_right_eq_some, Option.some.injEq] at ha
    obtain ⟨rfl, rfl⟩ := ha
    simp only [step, Option.ite_none_right_eq_some] at h
    obtain ⟨hp, h⟩ := h
    obtain ⟨⟨x, name, text⟩, hx, rfl⟩ := Option.map_eq_some_iff.mp h
    simp [Worker.step, hp, hx, setWorker]
  | handle w' =>
    simp only [workerAct, Option.ite_none_right_eq_some, Option.some.injEq] at ha
    obtain ⟨rfl, rfl⟩ := ha
    simp only [step, Option.ite_none_right_eq_some, Option.some.injEq] at h
    obtain ⟨hp, rfl⟩ := h
    simp [Worker.step, hp, setWorker]
  | heartbeat w' =>
    simp only [workerAct, Option.ite_none_right_eq_some, Option.some.injEq] at ha
    obtain ⟨rfl, rfl⟩ := ha
    simp only [step, Option.ite_none_right_eq_some, Option.some.injEq] at h
    obtain ⟨hp, rfl⟩ := h
    simp [Worker.step, hp, setWorker]
  | _ => cases ha

end MrSystem

def MrRun.workerRun {app : App} {files : List GoString} {nReduce : Int} {dir : Dir} (r : MrRun app files nReduce dir)
    (w : Nat) : WorkerRun app where
  state k := (r.state k).worker w
  act k := (r.act k).bind ((r.state k).workerAct w)
  start := by
    rw [r.start]
    rfl
  next k := by
    cases hact : (r.act k).bind ((r.state k).workerAct w) with
    | none =>
      rcases r.next_cases k with ⟨-, he⟩ | ⟨a, ha, hs⟩
      · exact congrArg (fun σ => MrSystem.worker σ w) he
      · rw [ha, Option.bind_some] at hact
        exact MrSystem.worker_rests hs hact
    | some b =>
      obtain ⟨a, ha, hb⟩ := Option.bind_eq_some_iff.1 hact
      exact MrSystem.worker_acts (r.next_some ha) hb

/-! ## The coordinator goes away -/

/-- During its map task the worker's heartbeat finds nobody, and then its report does. -/
def leftAlone : List MrAct :=
  [.inner 0 .loop, .handle 0, .inner 0 .deliver, .inner 0 .loop, .inner 0 .beatCalls, .inner 0 .beatUnreachable] ++
    mapSteps 0 1 ++ [.inner 0 .unreachable]

theorem leftAlone_exec : (exec (MrSystem.step App.wordCount) (MrSystem.init [bytes "a"] 1 App.twoTexts)
    leftAlone).isSome = true := by decide +kernel

def alone : MrRun App.wordCount [bytes "a"] 1 App.twoTexts :=
  Run.ofList leftAlone (Option.some_get leftAlone_exec).symm

end DistLab
