import DistLab.Mr.Barrier

/-!
# Coordinator, workers and directory

Any number of workers share the coordinator and the directory. A worker has two
goroutines, the main loop and the heartbeat. A task is not one step: the main loop
reads, lists and renames files one by one, and anything may happen in between. A
call is three steps, too: it is on its way, the coordinator has handled it, the
answer is there.
-/

namespace DistLab

/-- What `net/rpc` makes of an answer: gob leaves out the fields that are zero and
does not touch the fields of the destination that were left out. -/
def Reply.decode (old new : Reply) : Reply where
  t := if new.t = .unset then old.t else new.t
  n := if new.n = 0 then old.n else new.n
  addr := if new.addr = [] then old.addr else new.addr
  index := if new.index = 0 then old.index else new.index
  mapIndex := if new.mapIndex = 0 then old.mapIndex else new.mapIndex

/-! ## A worker -/

inductive MainStage
  /-- about to look at `stopHeartbeat` -/
  | top
  /-- in `maptask`, about to open the input file -/
  | opening
  /-- in `maptask`, with temporary files to rename -/
  | placing (todo : List (GoString × GoString))
  /-- in `reducetask`, about to list the files of the partition -/
  | listing
  /-- in `reducetask`, with files to read -/
  | reading (todo : List GoString) (kva : List KeyValue)
  | calling
  | answered (new : Reply)
  /-- the answer is `exit`, and `stopHeartbeat` was open -/
  | exiting
  /-- `Worker` has returned -/
  | returned
deriving DecidableEq, Repr

inductive BeatStage
  | waiting
  | calling
  | answered (stop : Bool)
  | returned
deriving DecidableEq, Repr

inductive Process
  | running
  | exited
  | panicked
deriving DecidableEq, Repr

structure Worker where
  /-- `args.Addr` -/
  args : GoString
  reply : Reply
  main : MainStage
  beat : BeatStage
  /-- whether `stopHeartbeat` is closed -/
  closed : Bool
  process : Process
  /-- the last answer, as the coordinator set it -/
  given : Reply
deriving DecidableEq, Repr

inductive LocalAct
  | loop
  | openInput
  | mapReturns
  | listFiles
  | readFile
  /-- an I/O error inside a task -/
  | taskFails
  | deliver
  | unreachable
  | closes
  | exit
  | crash
  | beatCalls
  | beatStops
  | beatDelivers
  | beatUnreachable
deriving DecidableEq, Repr

namespace Worker

def init : Worker := ⟨[], Reply.zero, .top, .waiting, false, .running, Reply.zero⟩

variable (app : App) (dir : Dir) (x : Worker)

/-- `close(stopHeartbeat)`; to close it twice is a panic. -/
def close : Worker := if x.closed then { x with process := .panicked } else { x with closed := true }

/-- The task returns an error, which is logged, and nothing is reported. -/
def fails : Worker := { x with args := [], main := .calling }

def loop : Worker :=
  if x.closed then { x with main := .returned }
  else
    match x.reply.t with
    | .map => { x with args := x.reply.addr, main := .opening }
    | .reduce => { x with args := x.reply.addr, main := .listing }
    | .exit => { x with main := .exiting }
    | _ => { x with args := [], main := .calling }

def openInput : Worker :=
  match dir.get? x.reply.addr with
  | none => x.fails
  | some content =>
    match app.mapWrites x.reply content with
    | none => { x with process := .panicked }
    | some writes => { x with main := .placing writes }

def listFiles : Worker :=
  match App.partitionFiles dir x.reply.index with
  | [] => x.fails
  | files => { x with main := .reading files [] }

def readFile (fname : GoString) (files : List GoString) (kva : List KeyValue) : Worker :=
  match dir.get? fname with
  | none => x.fails
  | some content =>
    match App.readPairs content with
    | none => x.fails
    | some kvs => { x with main := .reading files (kva ++ kvs) }

def deliver (new : Reply) : Worker := { x with reply := x.reply.decode new, given := new, main := .top }

def beatDelivers (stop : Bool) : Worker :=
  if stop then { x.close with beat := .returned } else { x with beat := .waiting }

def act : LocalAct → Option Worker
  | .loop => if x.main = .top then some x.loop else none
  | .openInput => if x.main = .opening then some (x.openInput app dir) else none
  | .mapReturns => if x.main = .placing [] then some { x with main := .calling } else none
  | .listFiles => if x.main = .listing then some (x.listFiles dir) else none
  | .readFile =>
    match x.main with
    | .reading (fname :: files) kva => some (x.readFile dir fname files kva)
    | _ => none
  | .taskFails =>
    match x.main with
    | .opening => some x.fails
    | .placing _ => some x.fails
    | .listing => some x.fails
    | .reading _ _ => some x.fails
    | _ => none
  | .deliver =>
    match x.main with
    | .answered new => some (x.deliver new)
    | _ => none
  | .unreachable =>
    match x.main with
    | .calling => some { x.close with main := .returned }
    | .answered _ => some { x.close with main := .returned }
    | _ => none
  | .closes => if x.main = .exiting then some { x.close with main := .returned } else none
  | .exit => if x.main = .returned then some { x with process := .exited } else none
  | .crash => some { x with process := .exited }
  | .beatCalls => if x.beat = .waiting then some { x with beat := .calling } else none
  | .beatStops => if x.beat = .waiting ∧ x.closed then some { x with beat := .returned } else none
  | .beatDelivers =>
    match x.beat with
    | .answered stop => some (x.beatDelivers stop)
    | _ => none
  | .beatUnreachable =>
    match x.beat with
    | .calling => some { x.close with beat := .returned }
    | .answered _ => some { x.close with beat := .returned }
    | _ => none

/-- The file that the worker puts in place next: an intermediate file, or the
output of the reduce task. -/
def write : Option (Worker × GoString × GoString) :=
  match x.main with
  | .placing ((name, text) :: todo) => some ({ x with main := .placing todo }, name, text)
  | .reading [] kva => some ({ x with main := .calling }, mrOut x.reply.index, app.reduceOutput kva)
  | _ => none

end Worker

/-! ## The system -/

inductive Cleanup
  | watching
  | listing
  | removing (todo : List GoString)
deriving DecidableEq, Repr

structure Written where
  worker : Nat
  name : GoString
  text : GoString
deriving DecidableEq, Repr

structure MrSystem where
  c : Coordinator
  worker : Nat → Worker
  dir : Dir
  cleanup : Cleanup
  /-- in nanoseconds -/
  clock : Nat
  /-- all files ever put in place, by whom -/
  written : List Written

inductive MrAct
  | inner (w : Nat) (a : LocalAct)
  | write (w : Nat)
  /-- the coordinator handles the call of the main loop -/
  | handle (w : Nat)
  /-- the coordinator handles the heartbeat -/
  | heartbeat (w : Nat)
  | timeadd (k : Nat)
  | watch
  | clean
  | tick (d : Nat)
deriving DecidableEq, Repr

namespace MrSystem

def init (files : List GoString) (nReduce : Int) (dir : Dir) : MrSystem where
  c := Coordinator.make files nReduce
  worker _ := Worker.init
  dir := dir
  cleanup := .watching
  clock := 0
  written := []

variable (app : App) (σ : MrSystem)

def setWorker (w : Nat) (x : Worker) : MrSystem := { σ with worker := Function.update σ.worker w x }

def step : MrAct → Option MrSystem
  | .inner w a =>
    if (σ.worker w).process = .running then ((σ.worker w).act app σ.dir a).map (σ.setWorker w) else none
  | .write w =>
    if (σ.worker w).process = .running then
      ((σ.worker w).write app).map fun (x, name, text) =>
        { σ.setWorker w x with dir := σ.dir.insert name text, written := σ.written ++ [⟨w, name, text⟩] }
    else none
  | .handle w =>
    if (σ.worker w).process = .running ∧ (σ.worker w).main = .calling then
      let (c, reply) := σ.c.coordinatorHandler (σ.worker w).args
      some { σ.setWorker w { σ.worker w with main := .answered reply } with c }
    else none
  | .heartbeat w =>
    if (σ.worker w).process = .running ∧ (σ.worker w).beat = .calling then
      let (c, stop) := σ.c.heartbeat w σ.clock
      some { σ.setWorker w { σ.worker w with beat := .answered stop } with c }
    else none
  | .timeadd k => (σ.c.fire k).map fun c => { σ with c }
  | .watch =>
    if σ.cleanup = .watching then
      let (c, finished) := σ.c.watchWorkers σ.clock
      some { σ with c, cleanup := if finished then .listing else .watching }
    else none
  | .clean =>
    match σ.cleanup with
    | .listing => some { σ with cleanup := .removing (σ.dir.glob (bytes "map-result-") []) }
    | .removing (f :: files) => some { σ with dir := σ.dir.delete f, cleanup := .removing files }
    | _ => none
  | .tick d => some { σ with clock := σ.clock + d }

end MrSystem

abbrev MrRun (app : App) (files : List GoString) (nReduce : Int) (dir : Dir) :=
  Run (MrSystem.step app) (MrSystem.init files nReduce dir)

/-! ## What a step can do -/

inductive Worker.Moves (app : App) (dir : Dir) (x : Worker) : LocalAct → Worker → Prop
  | rest {a : LocalAct} (x' : Worker) : x'.args = x.args → x'.reply = x.reply → x'.given = x.given →
      (x'.main = x.main ∨ x'.main = .exiting ∨ x'.main = .returned) → Moves app dir x a x'
  | call {a : LocalAct} : Moves app dir x a x.fails
  | startMap : x.main = .top → x.reply.t = .map →
      Moves app dir x .loop { x with args := x.reply.addr, main := .opening }
  | startReduce : x.main = .top → x.reply.t = .reduce →
      Moves app dir x .loop { x with args := x.reply.addr, main := .listing }
  | openInput (content : GoString) (writes : List (GoString × GoString)) : x.main = .opening →
      dir.get? x.reply.addr = some content → app.mapWrites x.reply content = some writes →
      Moves app dir x .openInput { x with main := .placing writes }
  | mapReturns : x.main = .placing [] → Moves app dir x .mapReturns { x with main := .calling }
  | listFiles : x.main = .listing → App.partitionFiles dir x.reply.index ≠ [] →
      Moves app dir x .listFiles { x with main := .reading (App.partitionFiles dir x.reply.index) [] }
  | readFile (fname : GoString) (files : List GoString) (kva kvs : List KeyValue) (content : GoString) :
      x.main = .reading (fname :: files) kva → dir.get? fname = some content → App.readPairs content = some kvs →
      Moves app dir x .readFile { x with main := .reading files (kva ++ kvs) }
  | deliver (new : Reply) : x.main = .answered new → Moves app dir x .deliver (x.deliver new)

namespace Worker

variable {app : App} {dir : Dir} {x x' : Worker} {a : LocalAct}

theorem close_same (x : Worker) : x.close.args = x.args ∧ x.close.reply = x.reply ∧ x.close.given = x.given ∧
    x.close.main = x.main := by
  unfold close
  split <;> exact ⟨rfl, rfl, rfl, rfl⟩

theorem moves_close (x : Worker) : x.Moves app dir a { x.close with main := .returned } := by
  obtain ⟨hargs, hreply, hgiven, -⟩ := x.close_same
  exact .rest _ hargs hreply hgiven (Or.inr (Or.inr rfl))

theorem moves_close_beat (x : Worker) : x.Moves app dir a { x.close with beat := .returned } := by
  obtain ⟨hargs, hreply, hgiven, hmain⟩ := x.close_same
  exact .rest _ hargs hreply hgiven (Or.inl hmain)

theorem moves_loop (h : x.main = .top) : x.Moves app dir .loop x.loop := by
  unfold loop
  split
  · exact .rest _ rfl rfl rfl (Or.inr (Or.inr rfl))
  · split
    · exact .startMap h ‹_›
    · exact .startReduce h ‹_›
    · exact .rest _ rfl rfl rfl (Or.inr (Or.inl rfl))
    · exact .call

theorem moves_openInput (h : x.main = .opening) : x.Moves app dir .openInput (x.openInput app dir) := by
  unfold openInput
  split
  · exact .call
  · split
    · exact .rest _ rfl rfl rfl (Or.inl rfl)
    · exact .openInput _ _ h ‹_› ‹_›

theorem moves_listFiles (h : x.main = .listing) : x.Moves app dir .listFiles (x.listFiles dir) := by
  unfold listFiles
  split
  · exact .call
  · exact .listFiles h ‹_›

theorem moves_readFile {fname : GoString} {files : List GoString} {kva : List KeyValue}
    (h : x.main = .reading (fname :: files) kva) : x.Moves app dir .readFile (x.readFile dir fname files kva) := by
  unfold readFile
  split
  · exact .call
  · split
    · exact .call
    · exact .readFile _ _ _ _ _ h ‹_› ‹_›

theorem act_moves (h : x.act app dir a = some x') : x.Moves app dir a x' := by
  cases a with
  | loop =>
    simp only [act, Option.ite_none_right_eq_some, Option.some.injEq] at h
    obtain ⟨htop, rfl⟩ := h
    exact moves_loop htop
  | openInput =>
    simp only [act, Option.ite_none_right_eq_some, Option.some.injEq] at h
    obtain ⟨hmain, rfl⟩ := h
    exact moves_openInput hmain
  | mapReturns =>
    simp only [act, Option.ite_none_right_eq_some, Option.some.injEq] at h
    obtain ⟨hmain, rfl⟩ := h
    exact .mapReturns hmain
  | listFiles =>
    simp only [act, Option.ite_none_right_eq_some, Option.some.injEq] at h
    obtain ⟨hmain, rfl⟩ := h
    exact moves_listFiles hmain
  | readFile =>
    simp only [act] at h
    split at h
    · cases h
      exact moves_readFile ‹_›
    · cases h
  | taskFails =>
    simp only [act] at h
    split at h <;> cases h <;> exact .call
  | deliver =>
    simp only [act] at h
    split at h
    · cases h
      exact .deliver _ ‹_›
    · cases h
  | unreachable =>
    simp only [act] at h
    split at h <;> cases h <;> exact moves_close x
  | closes =>
    simp only [act, Option.ite_none_right_eq_some, Option.some.injEq] at h
    obtain ⟨-, rfl⟩ := h
    exact moves_close x
  | exit =>
    simp only [act, Option.ite_none_right_eq_some, Option.some.injEq] at h
    obtain ⟨-, rfl⟩ := h
    exact .rest _ rfl rfl rfl (Or.inl rfl)
  | crash =>
    cases h
    exact .rest _ rfl rfl rfl (Or.inl rfl)
  | beatCalls =>
    simp only [act, Option.ite_none_right_eq_some, Option.some.injEq] at h
    obtain ⟨-, rfl⟩ := h
    exact .rest _ rfl rfl rfl (Or.inl rfl)
  | beatStops =>
    simp only [act, Option.ite_none_right_eq_some, Option.some.injEq] at h
    obtain ⟨-, rfl⟩ := h
    exact .rest _ rfl rfl rfl (Or.inl rfl)
  | beatDelivers =>
    simp only [act] at h
    split at h
    · cases h
      unfold beatDelivers
      split
      · exact moves_close_beat x
      · exact .rest _ rfl rfl rfl (Or.inl rfl)
    · cases h
  | beatUnreachable =>
    simp only [act] at h
    split at h <;> cases h <;> exact moves_close_beat x

end Worker

inductive MrSystem.Steps (app : App) (σ : MrSystem) : MrAct → MrSystem → Prop
  | inner (w : Nat) (a : LocalAct) (x : Worker) : (σ.worker w).Moves app σ.dir a x →
      Steps app σ (.inner w a) (σ.setWorker w x)
  | rename (w : Nat) (name text : GoString) (todo : List (GoString × GoString)) :
      (σ.worker w).main = .placing ((name, text) :: todo) →
      Steps app σ (.write w) { σ.setWorker w { σ.worker w with main := .placing todo } with
        dir := σ.dir.insert name text, written := σ.written ++ [⟨w, name, text⟩] }
  | output (w : Nat) (kva : List KeyValue) : (σ.worker w).main = .reading [] kva →
      Steps app σ (.write w) { σ.setWorker w { σ.worker w with main := .calling } with
        dir := σ.dir.insert (mrOut (σ.worker w).reply.index) (app.reduceOutput kva)
        written := σ.written ++ [⟨w, mrOut (σ.worker w).reply.index, app.reduceOutput kva⟩] }
  | handle (w : Nat) : (σ.worker w).main = .calling → Steps app σ (.handle w)
      { σ.setWorker w { σ.worker w with main := .answered (σ.c.coordinatorHandler (σ.worker w).args).2 } with
        c := (σ.c.coordinatorHandler (σ.worker w).args).1 }
  | heartbeat (w : Nat) (beat : BeatStage) : Steps app σ (.heartbeat w)
      { σ.setWorker w { σ.worker w with beat } with c := (σ.c.heartbeat w σ.clock).1 }
  | timeadd (k : Nat) (c : Coordinator) : σ.c.fire k = some c → Steps app σ (.timeadd k) { σ with c }
  | watch (cleanup : Cleanup) : σ.cleanup = .watching → (cleanup = .watching ∨ cleanup = .listing) →
      Steps app σ .watch { σ with c := (σ.c.watchWorkers σ.clock).1, cleanup }
  | list : σ.cleanup = .listing →
      Steps app σ .clean { σ with cleanup := .removing (σ.dir.glob (bytes "map-result-") []) }
  | remove (f : GoString) (files : List GoString) : σ.cleanup = .removing (f :: files) →
      Steps app σ .clean { σ with dir := σ.dir.delete f, cleanup := .removing files }
  | tick (d : Nat) : Steps app σ (.tick d) { σ with clock := σ.clock + d }

theorem MrSystem.step_steps {app : App} {σ σ' : MrSystem} {a : MrAct} (h : σ.step app a = some σ') :
    σ.Steps app a σ' := by
  cases a with
  | inner w a =>
    simp only [step, Option.ite_none_right_eq_some] at h
    obtain ⟨x, hx, rfl⟩ := Option.map_eq_some_iff.mp h.2
    exact .inner w a x (Worker.act_moves hx)
  | write w =>
    simp only [step, Option.ite_none_right_eq_some] at h
    obtain ⟨⟨x, name, text⟩, hx, rfl⟩ := Option.map_eq_some_iff.mp h.2
    unfold Worker.write at hx
    split at hx
    · cases hx
      exact .rename w _ _ _ ‹_›
    · cases hx
      exact .output w _ ‹_›
    · cases hx
  | handle w =>
    simp only [step, Option.ite_none_right_eq_some, Option.some.injEq] at h
    obtain ⟨hw, rfl⟩ := h
    exact .handle w hw.2
  | heartbeat w =>
    simp only [step, Option.ite_none_right_eq_some, Option.some.injEq] at h
    obtain ⟨-, rfl⟩ := h
    exact .heartbeat w _
  | timeadd k =>
    simp only [step] at h
    obtain ⟨c, hc, rfl⟩ := Option.map_eq_some_iff.mp h
    exact .timeadd k c hc
  | watch =>
    simp only [step, Option.ite_none_right_eq_some, Option.some.injEq] at h
    obtain ⟨hw, rfl⟩ := h
    refine .watch _ hw ?_
    split
    · exact Or.inr rfl
    · exact Or.inl rfl
  | clean =>
    simp only [step] at h
    split at h
    · cases h
      exact .list ‹_›
    · cases h
      exact .remove _ _ ‹_›
    · cases h
  | tick d =>
    cases h
    exact .tick d

/-! ## Undisturbed tasks -/

def mapSteps (w n : Nat) : List MrAct := .inner w .openInput :: (List.replicate n (.write w) ++ [.inner w .mapReturns])

def reduceSteps (w m : Nat) : List MrAct := .inner w .listFiles :: (List.replicate m (.inner w .readFile) ++ [.write w])

namespace MrSystem

variable (app : App) {σ σ' : MrSystem} {w : Nat} {x : Worker}

@[simp] theorem setWorker_self (σ : MrSystem) (w : Nat) (x : Worker) : (σ.setWorker w x).worker w = x :=
  Function.update_self ..

theorem step_inner {a : LocalAct} (hp : (σ.worker w).process = .running) (h : (σ.worker w).act app σ.dir a = some x) :
    σ.step app (.inner w a) = some (σ.setWorker w x) := by
  simp only [step, if_pos hp, h, Option.map_some]

theorem step_write {name text : GoString} (hp : (σ.worker w).process = .running)
    (h : (σ.worker w).write app = some (x, name, text)) : σ.step app (.write w) =
      some { σ.setWorker w x with dir := σ.dir.insert name text, written := σ.written ++ [⟨w, name, text⟩] } := by
  simp only [step, if_pos hp, h, Option.map_some]

variable {app} in
theorem exec_cons {a : MrAct} {acts : List MrAct} (h : σ.step app a = some σ') :
    exec (step app) σ (a :: acts) = exec (step app) σ' acts := by
  rw [exec, h]

theorem exec_placing (todo : List (GoString × GoString)) (hp : (σ.worker w).process = .running)
    (hmain : (σ.worker w).main = .placing todo) :
    ∃ σ', exec (step app) σ (List.replicate todo.length (.write w) ++ [.inner w .mapReturns]) = some σ' ∧
      σ'.dir = todo.foldl (fun dir p => dir.insert p.1 p.2) σ.dir ∧
      σ'.worker w = { σ.worker w with main := .calling } := by
  induction todo generalizing σ with
  | nil =>
    have hstep := step_inner app (a := .mapReturns) hp (if_pos hmain)
    exact ⟨_, exec_cons hstep, rfl, setWorker_self ..⟩
  | cons p todo ih =>
    have hstep := step_write app hp (by rw [Worker.write, hmain])
    obtain ⟨σ', hexec, hdir, hworker⟩ := ih (σ := { σ.setWorker w { σ.worker w with main := .placing todo } with
      dir := σ.dir.insert p.1 p.2, written := σ.written ++ [⟨w, p.1, p.2⟩] }) (by simpa using hp) (by simp)
    refine ⟨σ', (exec_cons hstep).trans hexec, hdir, ?_⟩
    simpa using hworker

/-- A worker that nobody disturbs does what `maptask` does, and reports it. -/
theorem exec_maptask {dir : Dir} (hp : (σ.worker w).process = .running) (hmain : (σ.worker w).main = .opening)
    (h : app.maptask (σ.worker w).reply σ.dir = .ok dir) :
    ∃ n σ', exec (step app) σ (mapSteps w n) = some σ' ∧ σ'.dir = dir ∧
      σ'.worker w = { σ.worker w with main := .calling } := by
  unfold App.maptask at h
  split at h
  · cases h
  · rename_i content hget
    split at h
    · cases h
    · rename_i writes hwrites
      cases h
      have hopen : (σ.worker w).openInput app σ.dir = { σ.worker w with main := .placing writes } := by
        simp only [Worker.openInput, hget, hwrites]
      have hstep := step_inner app (a := .openInput) hp (if_pos hmain)
      rw [hopen] at hstep
      obtain ⟨σ', hexec, hdir, hworker⟩ := exec_placing app (w := w)
        (σ := σ.setWorker w { σ.worker w with main := .placing writes }) writes (by simpa using hp) (by simp)
      exact ⟨writes.length, σ', (exec_cons hstep).trans hexec, hdir, by simpa using hworker⟩

theorem exec_reading {names : List GoString} {kva kva' : List KeyValue} (hp : (σ.worker w).process = .running)
    (hmain : (σ.worker w).main = .reading names kva) (h : App.readFiles σ.dir names kva = .ok kva') :
    ∃ σ', exec (step app) σ (List.replicate names.length (.inner w .readFile) ++ [.write w]) = some σ' ∧
      σ'.dir = σ.dir.insert (mrOut (σ.worker w).reply.index) (app.reduceOutput kva') ∧
      σ'.worker w = { σ.worker w with main := .calling } := by
  induction names generalizing σ kva with
  | nil =>
    cases h
    have hstep := step_write app hp (by rw [Worker.write, hmain])
    exact ⟨_, exec_cons hstep, rfl, setWorker_self ..⟩
  | cons name names ih =>
    rw [App.readFiles] at h
    split at h
    · cases h
    · rename_i content hget
      split at h
      · cases h
      · rename_i kvs hread
        have hact : (σ.worker w).act app σ.dir .readFile =
            some { σ.worker w with main := .reading names (kva ++ kvs) } := by
          simp only [Worker.act, hmain, Worker.readFile, hget, hread]
        have hstep := step_inner app hp hact
        obtain ⟨σ', hexec, hdir, hworker⟩ := ih
          (σ := σ.setWorker w { σ.worker w with main := .reading names (kva ++ kvs) }) (by simpa using hp) (by simp) h
        refine ⟨σ', (exec_cons hstep).trans hexec, ?_, by simpa using hworker⟩
        rw [hdir]
        simp [setWorker]

/-- A worker that nobody disturbs does what `reducetask` does, and reports it. -/
theorem exec_reducetask {dir : Dir} (hp : (σ.worker w).process = .running) (hmain : (σ.worker w).main = .listing)
    (h : app.reducetask (σ.worker w).reply σ.dir = .ok dir) :
    ∃ m σ', exec (step app) σ (reduceSteps w m) = some σ' ∧ σ'.dir = dir ∧
      σ'.worker w = { σ.worker w with main := .calling } := by
  unfold App.reducetask at h
  split at h
  · cases h
  · rename_i names hne
    split at h
    · cases h
    · rename_i kva hread
      cases h
      have hlist : (σ.worker w).listFiles σ.dir =
          { σ.worker w with main := .reading (App.partitionFiles σ.dir (σ.worker w).reply.index) [] } := by
        unfold Worker.listFiles
        split
        · exact absurd ‹_› hne
        · rfl
      have hstep := step_inner app (a := .listFiles) hp (if_pos hmain)
      rw [hlist] at hstep
      obtain ⟨σ', hexec, hdir, hworker⟩ := exec_reading app (w := w) (σ := σ.setWorker w
        { σ.worker w with main := .reading (App.partitionFiles σ.dir (σ.worker w).reply.index) [] })
        (by simpa using hp) (by simp) hread
      refine ⟨_, σ', (exec_cons hstep).trans hexec, ?_, by simpa using hworker⟩
      rw [hdir]
      simp [setWorker]

end MrSystem

end DistLab
