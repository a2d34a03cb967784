import DistLab.Mr.Able
import Mathlib.Data.Finset.Dedup
import Mathlib.Data.Finset.Order

/-!
# A job can still be finished

From any state of a run, however many workers have crashed, the timers can fire, a
worker that starts now gets a task, does it and reports it, and so on to the last
one. For this there must be an input file, and none may be listed twice: a name in
the list counts once, however often it is there.
-/

namespace DistLab

theorem Reply.decode_zero (new : Reply) : Reply.zero.decode new = new := by
  obtain ⟨t, n, addr, index, mapIndex⟩ := new
  simp only [Reply.decode, Reply.zero, Reply.mk.injEq]
  refine ⟨?_, ?_, ?_, ?_, ?_⟩ <;> split <;> simp_all

def Worker.holding (p : Reply) : Worker := { Worker.init with reply := p, given := p }

namespace MrSystem

variable {app : App} {files : List GoString} {nReduce : Int} {dir₀ : Dir} {σ σ' : MrSystem} {w : Nat} {p : Reply}

theorem Able.reaches (h : σ.Able files nReduce dir₀) (hjob : app.Runnable files nReduce dir₀)
    (hr : Reaches (MrSystem.step app) σ σ') : σ'.Able files nReduce dir₀ :=
  hr.invariant (fun _ _ _ h hs => h.step hjob hs) h

/-! ## Timers -/

theorem reaches_untimed (app : App) (σ : MrSystem) : ∃ σ', Reaches (MrSystem.step app) σ σ' ∧ σ'.c.timers = [] ∧
    σ'.c.mtnum + σ'.c.rtnum = σ.c.mtnum + σ.c.rtnum := by
  induction ht : σ.c.timers generalizing σ with
  | nil => exact ⟨σ, Reaches.refl σ, ht, rfl⟩
  | cons key keys ih =>
    have hsome : (σ.c.fire 0).isSome = true := by simp [Coordinator.fire, ht]
    obtain ⟨c, hc⟩ := Option.isSome_iff_exists.mp hsome
    obtain ⟨-, -, htimers, -, -, hmtnum, hrtnum, -⟩ := Coordinator.fire_cases hc
    rw [ht, List.eraseIdx_cons_zero] at htimers
    have hstep : σ.step app (.timeadd 0) = some { σ with c } := by simp [step, hc]
    obtain ⟨σ', hreach, hnil, hsum⟩ := ih { σ with c } htimers
    refine ⟨σ', Reaches.cons hstep hreach, hnil, hsum.trans ?_⟩
    rw [hmtnum, hrtnum]

/-! ## One task -/

theorem step_handle (app : App) (hw : (σ.worker w).process = .running ∧ (σ.worker w).main = .calling) :
    σ.step app (.handle w) = some
      { σ.setWorker w { σ.worker w with main := .answered (σ.c.coordinatorHandler (σ.worker w).args).2 } with
        c := (σ.c.coordinatorHandler (σ.worker w).args).1 } := if_pos hw

theorem reaches_asks (app : App) (hw : σ.worker w = Worker.init) : ∃ σ', Reaches (MrSystem.step app) σ σ' ∧
    σ'.c = (σ.c.coordinatorHandler []).1 ∧ σ'.worker w = Worker.holding (σ.c.coordinatorHandler []).2 := by
  have hloop : σ.step app (.inner w .loop) = some (σ.setWorker w Worker.init.fails) := by
    refine step_inner app (by rw [hw]; rfl) ?_
    rw [hw]
    rfl
  have hhandle := step_handle app (σ := σ.setWorker w Worker.init.fails) (w := w) (by rw [setWorker_self]; exact ⟨rfl, rfl⟩)
  rw [setWorker_self] at hhandle
  refine ⟨_, Reaches.cons hloop (Reaches.cons hhandle (Reaches.of_step (a := .inner w .deliver)
    (step_inner app (x := Worker.holding (σ.c.coordinatorHandler []).2) ?_ ?_))), rfl, setWorker_self ..⟩
  · simp [setWorker, Worker.fails, Worker.init]
  · simp [setWorker, Worker.fails, Worker.init, Worker.act, Worker.deliver, Worker.holding, Reply.decode_zero]

/-- What a worker does by itself is nothing to the coordinator. -/
theorem exec_same_c {acts : List MrAct} (hacts : ∀ act ∈ acts, (∃ a, act = .inner w a) ∨ act = .write w)
    (h : exec (step app) σ acts = some σ') : σ'.c = σ.c := by
  induction acts generalizing σ with
  | nil =>
    cases h
    rfl
  | cons act acts ih =>
    rw [exec] at h
    split at h
    · rename_i σ₁ hs
      rw [ih (fun act' hact' => hacts act' (List.mem_cons_of_mem _ hact')) h]
      rcases hacts act List.mem_cons_self with ⟨a, rfl⟩ | rfl
      · cases step_steps hs
        rfl
      · cases step_steps hs <;> rfl
    · cases h

theorem mapSteps_own {n : Nat} : ∀ act ∈ mapSteps w n, (∃ a, act = .inner w a) ∨ act = .write w := by
  intro act hact
  simp only [mapSteps, List.mem_cons, List.mem_append, List.mem_replicate, List.not_mem_nil, or_false] at hact
  rcases hact with rfl | ⟨-, rfl⟩ | rfl <;> simp

theorem reduceSteps_own {m : Nat} : ∀ act ∈ reduceSteps w m, (∃ a, act = .inner w a) ∨ act = .write w := by
  intro act hact
  simp only [reduceSteps, List.mem_cons, List.mem_append, List.mem_replicate, List.not_mem_nil, or_false] at hact
  rcases hact with rfl | ⟨-, rfl⟩ | rfl <;> simp

theorem reaches_report (app : App) (hp : (σ.worker w).process = .running) (hmain : (σ.worker w).main = .calling) :
    ∃ σ', Reaches (MrSystem.step app) σ σ' ∧ σ'.c = (σ.c.coordinatorHandler (σ.worker w).args).1 :=
  ⟨_, Reaches.of_step (step_handle app ⟨hp, hmain⟩), rfl⟩

theorem reaches_maptask {dir : Dir} (hw : σ.worker w = Worker.holding p) (ht : p.t = .map)
    (hok : app.maptask p σ.dir = .ok dir) :
    ∃ σ', Reaches (MrSystem.step app) σ σ' ∧ σ'.c = (σ.c.coordinatorHandler p.addr).1 := by
  have hloop : σ.step app (.inner w .loop) =
      some (σ.setWorker w { Worker.holding p with args := p.addr, main := .opening }) := by
    refine step_inner app (by rw [hw]; rfl) ?_
    rw [hw]
    simp [Worker.act, Worker.holding, Worker.init, Worker.loop, ht]
  obtain ⟨n, σ₁, hexec, -, hw₁⟩ := exec_maptask app
    (σ := σ.setWorker w { Worker.holding p with args := p.addr, main := .opening }) (w := w)
    (by rw [setWorker_self]; rfl) (by rw [setWorker_self]) (by rw [setWorker_self]; exact hok)
  rw [setWorker_self] at hw₁
  obtain ⟨σ₂, hreport, hc⟩ := reaches_report app (σ := σ₁) (w := w) (by rw [hw₁]; rfl) (by rw [hw₁])
  refine ⟨σ₂, Reaches.cons hloop (Reaches.trans ⟨_, hexec⟩ hreport), ?_⟩
  rw [hc, hw₁, exec_same_c mapSteps_own hexec]
  rfl

theorem reaches_reducetask {dir : Dir} (hw : σ.worker w = Worker.holding p) (ht : p.t = .reduce)
    (hok : app.reducetask p σ.dir = .ok dir) :
    ∃ σ', Reaches (MrSystem.step app) σ σ' ∧ σ'.c = (σ.c.coordinatorHandler p.addr).1 := by
  have hloop : σ.step app (.inner w .loop) =
      some (σ.setWorker w { Worker.holding p with args := p.addr, main := .listing }) := by
    refine step_inner app (by rw [hw]; rfl) ?_
    rw [hw]
    simp [Worker.act, Worker.holding, Worker.init, Worker.loop, ht]
  obtain ⟨m, σ₁, hexec, -, hw₁⟩ := exec_reducetask app
    (σ := σ.setWorker w { Worker.holding p with args := p.addr, main := .listing }) (w := w)
    (by rw [setWorker_self]; rfl) (by rw [setWorker_self]) (by rw [setWorker_self]; exact hok)
  rw [setWorker_self] at hw₁
  obtain ⟨σ₂, hreport, hc⟩ := reaches_report app (σ := σ₁) (w := w) (by rw [hw₁]; rfl) (by rw [hw₁])
  refine ⟨σ₂, Reaches.cons hloop (Reaches.trans ⟨_, hexec⟩ hreport), ?_⟩
  rw [hc, hw₁, exec_same_c reduceSteps_own hexec]
  rfl

section
variable (h : σ.Able files nReduce dir₀) (hjob : app.Runnable files nReduce dir₀)
include h hjob

theorem Able.maptask_ok (hvalid : p.Valid files nReduce σ.c) (ht : p.t = .map) :
    ∃ dir, app.maptask p σ.dir = .ok dir := by
  obtain ⟨hmem, -, hn⟩ := hvalid.map ht
  have hthere := hjob.there _ hmem
  rw [← h.input _ hmem] at hthere
  obtain ⟨content, hget⟩ := Option.isSome_iff_exists.mp hthere
  have hpos : 0 < p.n := hn ▸ hjob.reduces
  simp only [App.maptask, hget, app.mapWrites_eq p hpos]
  exact ⟨_, rfl⟩

omit hjob in
variable (app) in
theorem Able.reducetask_ok (hfiles : files ≠ []) (hvalid : p.Valid files nReduce σ.c) (ht : p.t = .reduce)
    (hwatch : σ.cleanup = .watching) : ∃ dir, app.reducetask p σ.dir = .ok dir := by
  obtain ⟨hphase, hi, -⟩ := hvalid.reduce ht
  have hpos : 0 < σ.c.mtnum := (List.length_pos_iff.mpr hfiles).trans_le hphase
  obtain ⟨name, hname, hhas⟩ := h.covered hpos p.index hi
  have hsome := hhas.resolve_left (by simp [hwatch, Cleanup.begun])
  have hne : App.partitionFiles σ.dir p.index ≠ [] := List.ne_nil_of_mem (Dir.mem_glob.mpr ⟨hsome, hname⟩)
  have hread : ∀ name ∈ App.partitionFiles σ.dir p.index, ∃ kvs, (σ.dir.get? name).bind App.readPairs = some kvs := by
    intro name hmem
    obtain ⟨hthere, hmatch⟩ := Dir.mem_glob.mp hmem
    obtain ⟨text, hget⟩ := Option.isSome_iff_exists.mp hthere
    rw [hget]
    exact Option.isSome_iff_exists.mp (h.readable name text (isIntermediate_of_ofPartition hmatch) hget).2
  unfold App.reducetask
  split
  · exact absurd ‹_› hne
  · rw [App.readFiles_eq hread]
    exact ⟨_, rfl⟩

/-- One more task is done, or the job is. -/
theorem Able.round (hfiles : files ≠ []) (hnd : files.Nodup) : ∃ σ', Reaches (MrSystem.step app) σ σ' ∧
    (σ'.c.done = true ∨ σ'.c.mtnum + σ'.c.rtnum = σ.c.mtnum + σ.c.rtnum + 1) := by
  obtain ⟨σ₁, hreach₁, htimers, hsum⟩ := reaches_untimed app σ
  have h₁ := h.reaches hjob hreach₁
  have hidle : ∀ key, σ₁.c.book key ≠ some 1 := by
    intro key hone
    have hmem := h₁.live.timed key hone
    rw [htimers] at hmem
    cases hmem
  obtain ⟨w, hfresh⟩ := h₁.fresh
  obtain ⟨σ₂, hreach₂, hc, hw⟩ := reaches_asks app (hfresh w le_rfl)
  have h₂ := h₁.reaches hjob hreach₂
  by_cases hdone : σ₂.c.done = true
  · exact ⟨σ₂, hreach₁.trans hreach₂, Or.inl hdone⟩
  have hwatch : σ₂.cleanup = .watching := by
    by_contra hne
    exact hdone (Coordinator.isDone_iff.mp (h₂.clean hne)).1
  have hvalid := (Coordinator.handler_valid h₁.live.toBooked []).1
  rw [← hc] at hvalid
  rcases h₁.live.hands_out hnd hjob.reduces hidle with hover | ⟨key, hassign, haddr, ht⟩
  · exact absurd (hc ▸ hover) hdone
  have hreach₃ : ∃ σ₃, Reaches (MrSystem.step app) σ₂ σ₃ ∧ σ₃.c = (σ₂.c.coordinatorHandler key).1 := by
    rw [← haddr]
    rcases ht with ht | ht
    · obtain ⟨dir, hok⟩ := h₂.maptask_ok hjob hvalid ht
      exact reaches_maptask hw ht hok
    · obtain ⟨dir, hok⟩ := h₂.reducetask_ok app hfiles hvalid ht hwatch
      exact reaches_reducetask hw ht hok
  obtain ⟨σ₃, hreach₃, hc₃⟩ := hreach₃
  refine ⟨σ₃, hreach₁.trans (hreach₂.trans hreach₃), Or.inr ?_⟩
  have hone : σ₂.c.book key = some 1 := by
    rw [hc, hassign]
    exact Coordinator.setBook_self ..
  obtain ⟨hmtnum, hrtnum⟩ := σ₂.c.handler_counts key
  have hcount := (Coordinator.report_of_running hone).2.2.2.2
  have hsame : σ₂.c.mtnum + σ₂.c.rtnum = σ₁.c.mtnum + σ₁.c.rtnum := by
    rw [hc, hassign]
    rfl
  rw [hc₃, hmtnum, hrtnum, hcount, hsame, hsum]

theorem Able.reaches_done (hfiles : files ≠ []) (hnd : files.Nodup) :
    ∃ σ', Reaches (MrSystem.step app) σ σ' ∧ σ'.Able files nReduce dir₀ ∧ σ'.c.done = true := by
  -- the tasks that are not done are the measure
  refine Reaches.of_measure (P := fun σ : MrSystem => σ.Able files nReduce dir₀) (Q := fun σ => σ.c.done = true)
    (fun σ => files.length + nReduce.toNat - (σ.c.mtnum + σ.c.rtnum)) (fun σ h _ => ?_) h
  obtain ⟨σ', hreach, hnext⟩ := h.round hjob hfiles hnd
  have h' := h.reaches hjob hreach
  refine ⟨σ', hreach, h', hnext.imp_right fun hsum => ?_⟩
  have hle := h'.live.counted
  show files.length + nReduce.toNat - (σ'.c.mtnum + σ'.c.rtnum) < files.length + nReduce.toNat - (σ.c.mtnum + σ.c.rtnum)
  omega

end

/-! ## The last workers -/

theorem watchWorkers_silent {c : Coordinator} {now : Nat} (h : ∀ e ∈ c.workers.entries, now - e.2 > Coordinator.silence) :
    (c.watchWorkers now).1.workers.keys = [] := by
  refine List.eq_nil_iff_forall_not_mem.mpr fun id hid => ?_
  obtain ⟨hmem, hnot⟩ := GoMap.mem_keys_deletes.mp hid
  obtain ⟨e, he, rfl⟩ := List.mem_map.mp hmem
  exact hnot (List.mem_map.mpr ⟨e, List.mem_filter.mpr ⟨he, decide_eq_true (h e he)⟩, rfl⟩)

theorem Able.reaches_isDone (app : App) (h : σ.Able files nReduce dir₀) (hdone : σ.c.done = true) :
    ∃ σ', Reaches (MrSystem.step app) σ σ' ∧ σ'.c.isDone = true := by
  by_cases hwatch : σ.cleanup = .watching
  · obtain ⟨last, hlast⟩ := (σ.c.workers.entries.map Prod.snd).toFinset.exists_le
    have hsilent : ∀ e ∈ σ.c.workers.entries, σ.clock + (last + Coordinator.silence + 1) - e.2 > Coordinator.silence := by
      intro e he
      have hle := hlast e.2 (by simpa using ⟨e.1, he⟩)
      omega
    refine ⟨_, Reaches.cons (a := .tick (last + Coordinator.silence + 1)) rfl
      (Reaches.of_step (a := .watch) (if_pos hwatch)), ?_⟩
    exact Coordinator.isDone_iff.mpr ⟨hdone, watchWorkers_silent hsilent⟩
  · exact ⟨σ, Reaches.refl σ, h.clean hwatch⟩

end MrSystem

/-! ## Runs -/

section
variable {app : App} {files : List GoString} {nReduce : Int} {dir : Dir}

/-- Whatever has happened, `Done` can still become true, exactly if there is an
input file and none is listed twice. -/
theorem job_can_finish_iff (hjob : app.Runnable files nReduce dir) (r : MrRun app files nReduce dir) (k : Nat) :
    (∃ σ, Reaches (MrSystem.step app) (r.state k) σ ∧ σ.c.isDone = true) ↔ files ≠ [] ∧ files.Nodup := by
  have hable : (r.state k).Able files nReduce dir := r.invariant r.meets_true
    (P := fun σ => σ.Able files nReduce dir) (MrSystem.able_init hjob) (fun _ _ _ h _ hs => h.step hjob hs) k
  constructor
  · intro hfinish
    obtain ⟨σ, hreach, hdone⟩ := hfinish
    have h := hable.reaches hjob hreach
    obtain ⟨hreported, hnd⟩ := h.live.over hjob.reduces (Coordinator.isDone_iff.mp hdone).1
    exact ⟨h.begun hreported, hnd⟩
  · intro hfiles
    obtain ⟨σ, hreach, h, hdone⟩ := hable.reaches_done hjob hfiles.1 hfiles.2
    obtain ⟨σ', hreach', hover⟩ := h.reaches_isDone app hdone
    exact ⟨σ', hreach.trans hreach', hover⟩

end

/-! ## A worker that crashes -/

theorem App.twoTexts_runnable {files : List GoString} (h : ∀ f ∈ files, f = bytes "a" ∨ f = bytes "b") :
    App.wordCount.Runnable files 1 App.twoTexts := by
  have hname : ∀ f ∈ files, f ≠ [] ∧ f.length < 7 ∧ isIntermediate f = false ∧ (App.twoTexts.get? f).isSome = true ∧
      ∀ kv ∈ App.wordCount.mapped App.twoTexts f, (kv.1 ++ 9 :: kv.2).length < App.maxTokenSize := by
    intro f hf
    rcases h f hf with rfl | rfl <;> decide +kernel
  refine ⟨by decide, fun hnil => (hname [] hnil).1 rfl, fun f hf => ⟨fun i heq => ?_, (hname f hf).2.2.1, ?_⟩,
    fun f hf => (hname f hf).2.2.2.1, by decide +kernel, fun f hf => (hname f hf).2.2.2.2⟩
  · have hlen := congrArg List.length heq
    have htext : (bytes "reduce-").length = 7 := by decide +kernel
    have hshort := (hname f hf).2.1
    rw [reduceKey, List.length_append, htext] at hlen
    omega
  · exact ne_mrOut_of_length (hname f hf).2.1

/-- Worker 0 takes up the first file and crashes. -/
def crashInMap : List MrAct := asks 0 ++ [.inner 0 .loop, .inner 0 .openInput, .inner 0 .crash]

theorem crashedMap_exec : (exec (MrSystem.step App.wordCount) (MrSystem.init [bytes "a", bytes "b"] 1 App.twoTexts)
    crashInMap).isSome = true := by decide +kernel

def crashedMap : MrRun App.wordCount [bytes "a", bytes "b"] 1 App.twoTexts :=
  Run.ofList crashInMap (Option.some_get crashedMap_exec).symm

theorem listedTwice_exec : (exec (MrSystem.step App.wordCount) (MrSystem.init [bytes "a", bytes "a"] 1 App.twoTexts)
    crashInMap).isSome = true := by decide +kernel

/-- The same with one file that is listed twice. -/
def listedTwice : MrRun App.wordCount [bytes "a", bytes "a"] 1 App.twoTexts :=
  Run.ofList crashInMap (Option.some_get listedTwice_exec).symm

theorem crashedMap_can_finish : ((crashedMap.state 6).worker 0).process = .exited ∧
    (crashedMap.state 6).c.book (bytes "a") = some 1 ∧
    (∃ σ, Reaches (MrSystem.step App.wordCount) (crashedMap.state 6) σ ∧ σ.c.isDone = true) ∧
    ¬ ∃ σ, Reaches (MrSystem.step App.wordCount) (listedTwice.state 6) σ ∧ σ.c.isDone = true := by
  refine ⟨by decide +kernel, by decide +kernel, ?_, fun hfinish => ?_⟩
  · exact (job_can_finish_iff (App.twoTexts_runnable (by simp)) crashedMap 6).mpr ⟨by simp, by decide +kernel⟩
  · have hnd := ((job_can_finish_iff (App.twoTexts_runnable (by simp)) listedTwice 6).mp hfinish).2
    simp at hnd

end DistLab
