import DistLab.Mr.Output

/-!
# What a job keeps to go on

Whatever workers do with stale answers, every file they leave behind can be read,
and once one map task counts as done, every partition has a file. Every task that
is running has a goroutine that will put it back. All of this holds in every run,
also when a worker has done the task of another. And no reduce task is done before
there was a file to read, so there was an input file.
-/

namespace DistLab

structure App.Runnable (app : App) (files : List GoString) (nReduce : Int) (dir₀ : Dir) : Prop where
  reduces : 0 < nReduce
  named : [] ∉ files
  apart : ∀ f ∈ files, (∀ i, f ≠ reduceKey i) ∧ isIntermediate f = false ∧ ∀ i, f ≠ mrOut i
  there : ∀ f ∈ files, (dir₀.get? f).isSome = true
  clean : ∀ name ∈ dir₀.keys, isIntermediate name = false
  fits : ∀ f ∈ files, ∀ kv ∈ app.mapped dir₀ f, (kv.1 ++ 9 :: kv.2).length < App.maxTokenSize

namespace Coordinator

variable (c : Coordinator)

def isDone : Bool := c.done && c.workers.size == 0

def report (addr : GoString) : Coordinator :=
  if c.mtnum < c.mf.length then c.reportMap addr else c.reportReduce addr

def Timed : Prop := ∀ key, c.book key = some 1 → key ∈ c.timers

variable {c} {addr key : GoString}

/-! ## What a call can do, timers included -/

theorem handler_cases (c : Coordinator) (addr : GoString) :
    (c.coordinatorHandler addr).1 = c.report addr ∨
      (∃ key, (c.coordinatorHandler addr).1 = (c.report addr).assign key) ∨
      (c.coordinatorHandler addr).1 = { c.report addr with done := true } := by
  unfold coordinatorHandler report
  split
  · rw [maptask]
    rcases (c.reportMap addr).assignMap_cases with heq | ⟨key, -, -, -, heq⟩
    · exact Or.inl (by rw [heq])
    · exact Or.inr (Or.inl ⟨key, by rw [heq]⟩)
  · rw [reducetask]
    rcases (c.reportReduce addr).assignReduce_cases with heq | ⟨-, heq⟩ | ⟨i, -, -, heq⟩
    · exact Or.inl (by rw [heq])
    · exact Or.inr (Or.inr (by rw [heq]))
    · exact Or.inr (Or.inl ⟨reduceKey i, by rw [heq]⟩)

theorem report_of_ne (h : c.book addr ≠ some 1) : c.report addr = c := by
  simp [report, reportMap, reportReduce, h]

theorem report_of_running (h : c.book addr = some 1) :
    (c.report addr).book = (c.setBook addr 2).book ∧ (c.report addr).timers = c.timers ∧
      (c.report addr).workers = c.workers ∧ (c.report addr).done = c.done ∧
      (c.report addr).mtnum + (c.report addr).rtnum = c.mtnum + c.rtnum + 1 := by
  unfold report reportMap reportReduce
  simp only [h, if_true]
  split
  · exact ⟨rfl, rfl, rfl, rfl, by simp [setBook]; omega⟩
  · exact ⟨rfl, rfl, rfl, rfl, by simp [setBook]; omega⟩

theorem report_mtnum_lt (h : c.mtnum < (c.report addr).mtnum) : c.book addr = some 1 ∧ c.mtnum < c.mf.length := by
  have hone : c.book addr = some 1 := by
    by_contra hne
    rw [report_of_ne hne] at h
    exact lt_irrefl _ h
  refine ⟨hone, not_le.mp fun hle => ?_⟩
  rw [report, if_neg (not_lt.mpr hle), reportReduce, if_pos hone] at h
  exact lt_irrefl _ h

theorem report_rtnum_lt (h : c.rtnum < (c.report addr).rtnum) : c.book addr = some 1 ∧ c.mf.length ≤ c.mtnum := by
  have hone : c.book addr = some 1 := by
    by_contra hne
    rw [report_of_ne hne] at h
    exact lt_irrefl _ h
  refine ⟨hone, not_lt.mp fun hlt => ?_⟩
  rw [report, if_pos hlt, reportMap, if_pos hone] at h
  exact lt_irrefl _ h

theorem handler_counts (c : Coordinator) (addr : GoString) :
    (c.coordinatorHandler addr).1.mtnum = (c.report addr).mtnum ∧
      (c.coordinatorHandler addr).1.rtnum = (c.report addr).rtnum := by
  rcases c.handler_cases addr with heq | ⟨key, heq⟩ | heq <;> rw [heq] <;> exact ⟨rfl, rfl⟩

theorem Timed.report (h : c.Timed) (addr : GoString) : (c.report addr).Timed := by
  by_cases hone : c.book addr = some 1
  · obtain ⟨hbook, htimers, -⟩ := report_of_running hone
    intro key hkey
    rw [hbook] at hkey
    rw [htimers]
    rcases setBook_cases hkey with ⟨-, h12⟩ | ⟨-, hold⟩
    · cases h12
    · exact h key hold
  · rw [report_of_ne hone]
    exact h

theorem Timed.assign (h : c.Timed) (key : GoString) : (c.assign key).Timed := by
  intro key' hkey
  rcases setBook_cases (show (c.setBook key 1).book key' = some 1 from hkey) with ⟨rfl, -⟩ | ⟨-, hold⟩
  · exact List.mem_append_right _ (List.mem_singleton_self _)
  · exact List.mem_append_left _ (h key' hold)

theorem Timed.coordinatorHandler (h : c.Timed) (addr : GoString) : (c.coordinatorHandler addr).1.Timed := by
  rcases c.handler_cases addr with heq | ⟨key, heq⟩ | heq
  · rw [heq]
    exact h.report addr
  · rw [heq]
    exact (h.report addr).assign key
  · rw [heq]
    exact h.report addr

theorem fire_cases {k : Nat} {c' : Coordinator} (h : c.fire k = some c') : ∃ key, c.timers[k]? = some key ∧
    c'.timers = c.timers.eraseIdx k ∧ c'.workers = c.workers ∧ c'.done = c.done ∧ c'.mtnum = c.mtnum ∧
    c'.rtnum = c.rtnum ∧ c'.book key ≠ some 1 ∧ ∀ key', key' ≠ key → c'.book key' = c.book key' := by
  unfold fire at h
  split at h
  · rename_i key hkey
    cases h
    refine ⟨key, hkey, ?_⟩
    unfold timeadd
    split
    · exact ⟨rfl, rfl, rfl, rfl, rfl, by simp, fun key' hne => setBook_of_ne hne 0⟩
    · rename_i hstatus
      refine ⟨rfl, rfl, rfl, rfl, rfl, fun hone => hstatus ?_, fun _ _ => rfl⟩
      rw [status, hone, Option.getD_some]
  · cases h

theorem Timed.fire (h : c.Timed) {k : Nat} {c' : Coordinator} (hc : c.fire k = some c') : c'.Timed := by
  obtain ⟨key, hkey, htimers, -, -, -, -, hidle, hsame⟩ := fire_cases hc
  intro key' hone
  by_cases hne : key' = key
  · subst hne
    exact absurd hone hidle
  · rw [hsame key' hne] at hone
    rw [htimers, List.mem_eraseIdx_iff_getElem?]
    obtain ⟨j, hj⟩ := List.mem_iff_getElem?.mp (h key' hone)
    refine ⟨j, ?_, hj⟩
    rintro rfl
    exact hne (Option.some.inj (hj.symm.trans hkey))

theorem heartbeat_same (c : Coordinator) (id now : Nat) :
    (c.heartbeat id now).1.mtnum = c.mtnum ∧ (c.heartbeat id now).1.rtnum = c.rtnum ∧
      (c.heartbeat id now).1.timers = c.timers := by
  unfold heartbeat
  split <;> exact ⟨rfl, rfl, rfl⟩

/-! ## The end of the job -/

theorem isDone_iff : c.isDone = true ↔ c.done = true ∧ c.workers.keys = [] := by
  simp [isDone, GoMap.size, GoMap.keys]

theorem isDone_handler (h : c.isDone = true) (addr : GoString) : (c.coordinatorHandler addr).1.isDone = true := by
  have hreport : (c.report addr).isDone = true := by
    by_cases hone : c.book addr = some 1
    · obtain ⟨-, -, hworkers, hdone, -⟩ := report_of_running hone
      rw [isDone, hworkers, hdone]
      exact h
    · rw [report_of_ne hone]
      exact h
  rcases c.handler_cases addr with heq | ⟨key, heq⟩ | heq
  · rw [heq]
    exact hreport
  · rw [heq]
    exact hreport
  · rw [heq, isDone_iff]
    exact ⟨rfl, (isDone_iff.mp hreport).2⟩

theorem isDone_fire (h : c.isDone = true) {k : Nat} {c' : Coordinator} (hc : c.fire k = some c') :
    c'.isDone = true := by
  obtain ⟨key, -, -, hworkers, hdone, -⟩ := fire_cases hc
  rw [isDone, hworkers, hdone]
  exact h

/-- A heartbeat does not register a worker any more. -/
theorem isDone_heartbeat (h : c.isDone = true) (id now : Nat) : (c.heartbeat id now).1.isDone = true := by
  rw [isDone_iff] at h ⊢
  rw [heartbeat, if_pos h.1]
  refine ⟨h.1, List.eq_nil_iff_forall_not_mem.mpr fun w hw => ?_⟩
  have hold := (GoMap.mem_keys_delete.mp hw).1
  rw [h.2] at hold
  cases hold

/-! ## The book -/

theorem kept_bound : Kept fun c => ∀ key v, c.book key = some v → v ≤ 2 where
  reportMap _ _ h _ _ key v hv := by
    rcases setBook_cases hv with ⟨-, rfl⟩ | ⟨-, hv⟩
    · exact le_rfl
    · exact h key v hv
  assignMap _ _ h _ _ _ key v hv := by
    rcases setBook_cases hv with ⟨-, rfl⟩ | ⟨-, hv⟩
    · decide
    · exact h key v hv
  reportReduce _ _ h _ _ key v hv := by
    rcases setBook_cases hv with ⟨-, rfl⟩ | ⟨-, hv⟩
    · exact le_rfl
    · exact h key v hv
  assignReduce _ _ h _ _ _ key v hv := by
    rcases setBook_cases hv with ⟨-, rfl⟩ | ⟨-, hv⟩
    · decide
    · exact h key v hv
  finish _ h _ _ := h
  timeadd _ _ h _ key v hv := by
    rcases setBook_cases hv with ⟨-, rfl⟩ | ⟨-, hv⟩
    · exact Nat.zero_le 2
    · exact h key v hv
  other _ _ _ h := h

theorem kept_phase : Kept fun c => c.done = true → c.mf.length ≤ c.mtnum where
  reportMap _ _ h _ _ hd := Nat.le_succ_of_le (h hd)
  assignMap _ _ h _ _ _ := h
  reportReduce _ _ h _ _ := h
  assignReduce _ _ h _ _ _ := h
  finish _ _ hred _ _ := hred
  timeadd _ _ h _ := h
  other _ _ _ h := h

section
variable (files : List GoString) (nReduce : Int)

structure Live (c : Coordinator) : Prop extends c.Tallied files nReduce where
  timed : c.Timed
  bound : ∀ key v, c.book key = some v → v ≤ 2
  phase : c.done = true → c.mf.length ≤ c.mtnum

end

section
variable {files : List GoString} {nReduce : Int}

theorem live_make : (make files nReduce).Live files nReduce where
  toTallied := tallied_make
  timed _ hone := by cases make_idle hone
  bound _ _ hv := by
    rw [make_idle hv]
    exact Nat.zero_le 2
  phase hd := by cases hd

section
variable (h : c.Live files nReduce) (hname : ∀ f ∈ files, ∀ i, f ≠ reduceKey i)
include h hname

theorem Live.coordinatorHandler (addr : GoString) : (c.coordinatorHandler addr).1.Live files nReduce :=
  ⟨(kept_tallied hname).coordinatorHandler h.toTallied addr, h.timed.coordinatorHandler addr,
    kept_bound.coordinatorHandler h.bound addr, kept_phase.coordinatorHandler h.phase addr⟩

theorem Live.fire {k : Nat} {c' : Coordinator} (hc : c.fire k = some c') : c'.Live files nReduce :=
  ⟨(kept_tallied hname).fire h.toTallied hc, h.timed.fire hc, kept_bound.fire h.bound hc, kept_phase.fire h.phase hc⟩

theorem Live.heartbeat (id now : Nat) : (c.heartbeat id now).1.Live files nReduce := by
  refine ⟨(kept_tallied hname).heartbeat h.toTallied id now, fun key hone => ?_, kept_bound.heartbeat h.bound id now,
    kept_phase.heartbeat h.phase id now⟩
  rw [heartbeat_book] at hone
  rw [(c.heartbeat_same id now).2.2]
  exact h.timed key hone

theorem Live.watchWorkers (now : Nat) : (c.watchWorkers now).1.Live files nReduce :=
  ⟨(kept_tallied hname).watchWorkers h.toTallied now, h.timed, h.bound, h.phase⟩

end

theorem exists_idle {keys : List GoString} (hbound : ∀ key v, c.book key = some v → v ≤ 2)
    (hidle : ∀ key, c.book key ≠ some 1) (hlt : keys.countP (fun key => c.book key = some 2) < keys.length) :
    ∃ key ∈ keys, c.status key = 0 := by
  by_contra hno
  refine hlt.ne (List.countP_eq_length.mpr fun key hkey => ?_)
  have hstatus : c.status key ≠ 0 := fun h0 => hno ⟨key, hkey, h0⟩
  cases hb : c.book key with
  | none => simp [status, hb] at hstatus
  | some v =>
    have hle := hbound key v hb
    have hone : v ≠ 1 := fun h1 => hidle key (h1 ▸ hb)
    have hzero : v ≠ 0 := by simpa [status, hb] using hstatus
    simp
    omega

/-- When no task is running, a worker that asks gets one, or the job is over. -/
theorem Live.hands_out (h : c.Live files nReduce) (hnd : files.Nodup) (hr : 0 < nReduce)
    (hidle : ∀ key, c.book key ≠ some 1) :
    (c.coordinatorHandler []).1.done = true ∨ ∃ key, (c.coordinatorHandler []).1 = c.assign key ∧
      (c.coordinatorHandler []).2.addr = key ∧
      ((c.coordinatorHandler []).2.t = .map ∨ (c.coordinatorHandler []).2.t = .reduce) := by
  unfold Coordinator.coordinatorHandler
  split
  · rename_i hmap
    refine Or.inr ?_
    have hcount := h.count
    rw [hnd.dedup] at hcount
    rw [h.mf] at hmap
    obtain ⟨f, hf, hzero⟩ := exists_idle h.bound hidle (hcount ▸ hmap)
    rw [maptask, reportMap, if_neg (hidle []), assignMap, h.mf, if_neg hmap.ne]
    have hfind : (files.zipIdx.find? fun p => c.status p.1 = 0).isSome = true := by
      obtain ⟨j, hj, rfl⟩ := List.mem_iff_getElem.mp hf
      exact List.find?_isSome.mpr ⟨(files[j], j), List.mem_zipIdx_iff_getElem?.mpr (by simp [hj]), by simpa using hzero⟩
    obtain ⟨⟨key, i⟩, heq⟩ := Option.isSome_iff_exists.mp hfind
    rw [heq]
    exact ⟨key, rfl, rfl, Or.inl rfl⟩
  · rw [reducetask, reportReduce, if_neg (hidle []), assignReduce]
    split
    · exact Or.inl rfl
    · rename_i hall
      refine Or.inr ?_
      have hle := List.countP_le_length (p := fun key => decide (c.book key = some 2))
        (l := (List.range nReduce.toNat).map reduceKey)
      rw [h.r] at hall ⊢
      have hlt : ((List.range nReduce.toNat).map reduceKey).countP (fun key => c.book key = some 2) <
          ((List.range nReduce.toNat).map reduceKey).length := by
        rw [← h.tally] at hle ⊢
        rw [List.length_map, List.length_range] at hle ⊢
        omega
      obtain ⟨key, hkey, hzero⟩ := exists_idle h.bound hidle hlt
      obtain ⟨i, hi, rfl⟩ := mem_reduceKeys.mp hkey
      have hfind : ((List.range nReduce.toNat).find? fun i => c.status (reduceKey i) = 0).isSome = true :=
        List.find?_isSome.mpr ⟨i, List.mem_range.mpr hi, by simpa using hzero⟩
      obtain ⟨j, heq⟩ := Option.isSome_iff_exists.mp hfind
      rw [heq]
      exact ⟨reduceKey j, rfl, rfl, Or.inr rfl⟩

theorem Live.counted (h : c.Live files nReduce) : c.mtnum + c.rtnum ≤ files.length + nReduce.toNat := by
  have hmap := List.countP_le_length (p := fun f => decide (c.book f = some 2)) (l := files.dedup)
  have hred := List.countP_le_length (p := fun key => decide (c.book key = some 2))
    (l := (List.range nReduce.toNat).map reduceKey)
  rw [← h.count] at hmap
  rw [← h.tally, List.length_map, List.length_range] at hred
  have hle := (List.dedup_sublist files).length_le
  omega

/-- When the job is over, reduce tasks were reported, and no file was listed twice. -/
theorem Live.over (h : c.Live files nReduce) (hr : 0 < nReduce) (hd : c.done = true) :
    0 < c.rtnum ∧ files.Nodup := by
  refine ⟨?_, h.toBooked.nodup (h.mf ▸ h.phase hd)⟩
  rw [h.tally, List.countP_pos_iff]
  exact ⟨reduceKey 0, mem_reduceKeys.mpr ⟨0, by omega, rfl⟩, by simpa using h.finished hd 0 (by omega)⟩

end

end Coordinator

/-! ## Files that can be read -/

def Covered (n : Nat) (Has : GoString → Prop) : Prop := ∀ i < n, ∃ name, ofPartition i name = true ∧ Has name

theorem Covered.mono {n : Nat} {Has Has' : GoString → Prop} (h : Covered n Has) (hle : ∀ name, Has name → Has' name) :
    Covered n Has' := by
  intro i hi
  obtain ⟨name, hname, hhas⟩ := h i hi
  exact ⟨name, hname, hle name hhas⟩

/-- Lines that fit the buffer can be scanned, whatever separators they have inside. -/
theorem App.readPairs_isSome {kvs : List KeyValue}
    (h : ∀ kv ∈ kvs, (kv.1 ++ 9 :: kv.2).length < App.maxTokenSize) :
    (App.readPairs (App.encode kvs)).isSome = true := by
  have hlines : lines 10 (App.encode kvs) = kvs.flatMap fun kv => lines 10 ((kv.1 ++ 9 :: kv.2) ++ [10]) := by
    rw [App.encode, show App.pairLine = fun kv => (kv.1 ++ 9 :: kv.2) ++ [10] from funext App.pairLine_eq]
    exact lines_flatMap_append ..
  have hall : (lines 10 (App.encode kvs)).all (fun line => line.length < App.maxTokenSize) = true := by
    rw [hlines, List.all_eq_true]
    intro line hline
    obtain ⟨kv, hkv, hmem⟩ := List.mem_flatMap.mp hline
    exact decide_eq_true ((length_le_of_mem_lines hmem).trans_lt (h kv hkv))
  rw [App.readPairs, App.scan, if_pos hall]
  rfl

section
variable (files : List GoString) (nReduce : Int) (Has : GoString → Prop) (c : Coordinator)

/-- What a stage of the main loop promises: the files about to be put in place are
those of all partitions, and a report of an input file comes after them. Only a job
with input files gives a worker something to place, to read or to report. -/
def Worker.AbleAt (x : Worker) : MainStage → Prop
  | .opening => x.reply.t = .map
  | .placing todo => files ≠ [] ∧ (∀ p ∈ todo, isIntermediate p.1 = true ∧ (App.readPairs p.2).isSome = true) ∧
      Covered nReduce.toNat fun name => (∃ p ∈ todo, p.1 = name) ∨ Has name
  | .listing => x.args ∉ files
  | .reading _ _ => files ≠ [] ∧ x.args ∉ files
  | .calling => (x.args ≠ [] → files ≠ []) ∧ (x.args ∈ files → Covered nReduce.toNat Has)
  | _ => True

structure Worker.Able (x : Worker) : Prop where
  map : x.reply.t = .map → x.reply.addr ∈ files ∧ x.reply.n = nReduce
  reduce : x.reply.t = .reduce → x.reply.addr ∉ files
  answer : ∀ new, x.main = .answered new → new.Valid files nReduce c ∧ new.t ≠ .unset
  stage : x.AbleAt files nReduce Has x.main

end

section
variable {app : App} {files : List GoString} {nReduce : Int} {Has Has' : GoString → Prop} {c c' : Coordinator}
  {x x' : Worker} {dir dir₀ : Dir}

theorem Worker.AbleAt.mono {main : MainStage} (h : x.AbleAt files nReduce Has main)
    (hle : ∀ name, Has name → Has' name) : x.AbleAt files nReduce Has' main := by
  cases main with
  | placing todo => exact ⟨h.1, h.2.1, h.2.2.mono fun name hhas => hhas.imp_right (hle name)⟩
  | calling => exact ⟨h.1, fun hargs => (h.2 hargs).mono hle⟩
  | _ => exact h

theorem Worker.AbleAt.congr {main : MainStage} (h : x.AbleAt files nReduce Has main) (hargs : x'.args = x.args)
    (hreply : x'.reply = x.reply) : x'.AbleAt files nReduce Has main := by
  unfold Worker.AbleAt at h ⊢
  rw [hargs, hreply]
  exact h

theorem Worker.Able.mono (h : x.Able files nReduce Has c) (hle : ∀ name, Has name → Has' name)
    (hc : c.mtnum ≤ c'.mtnum) : x.Able files nReduce Has' c' where
  map := h.map
  reduce := h.reduce
  answer new hnew := ⟨(h.answer new hnew).1.mono hc, (h.answer new hnew).2⟩
  stage := h.stage.mono hle

theorem Worker.Able.setMain (h : x.Able files nReduce Has c) {args : GoString} {main : MainStage}
    (hs : Worker.AbleAt files nReduce Has { x with args, main } main) (ha : ∀ new, main ≠ .answered new) :
    Worker.Able files nReduce Has c { x with args, main } :=
  ⟨h.map, h.reduce, fun new hnew => absurd hnew (ha new), hs⟩

/-- An answer leaves out no field that the task needs, apart from its number. -/
theorem Worker.Able.deliver (h : x.Able files nReduce Has c) (hjob : app.Runnable files nReduce dir₀) {new : Reply}
    (hmain : x.main = .answered new) : (x.deliver new).Able files nReduce Has c := by
  have hr := hjob.reduces
  obtain ⟨hvalid, ht⟩ := h.answer new hmain
  have htype : (x.deliver new).reply.t = new.t := if_neg ht
  refine ⟨fun hmap => ?_, fun hred => ?_, (fun new' hnew => by cases hnew), trivial⟩
  · obtain ⟨hmem, -, hn⟩ := hvalid.map (htype.symm.trans hmap)
    have hnil : new.addr ≠ [] := by
      intro hnil
      rw [hnil] at hmem
      exact hjob.named hmem
    have haddr : (x.deliver new).reply.addr = new.addr := if_neg hnil
    have hsame : (x.deliver new).reply.n = new.n := if_neg (by omega)
    rw [haddr, hsame]
    exact ⟨hmem, hn⟩
  · obtain ⟨-, -, hkey⟩ := hvalid.reduce (htype.symm.trans hred)
    have haddr : (x.deliver new).reply.addr = new.addr :=
      if_neg fun hnil => reduceKey_ne_nil new.index (hkey.symm.trans hnil)
    rw [haddr, hkey]
    exact fun hmem => (hjob.apart _ hmem).1 new.index rfl

theorem Worker.Able.openInput (h : x.Able files nReduce Has c) (hjob : app.Runnable files nReduce dir₀)
    (hdir : ∀ f ∈ files, dir.get? f = dir₀.get? f)
    (ht : x.reply.t = .map) {content : GoString} {writes : List (GoString × GoString)}
    (hget : dir.get? x.reply.addr = some content) (hwrites : app.mapWrites x.reply content = some writes) :
    x.AbleAt files nReduce Has (.placing writes) := by
  obtain ⟨hmem, hn⟩ := h.map ht
  have hmapped : app.mapf x.reply.addr content = app.mapped dir₀ x.reply.addr := by
    rw [App.mapped, ← hdir _ hmem, hget, Option.getD_some]
  refine ⟨List.ne_nil_of_mem hmem, fun p hp => ?_, fun i hi => ?_⟩
  · obtain ⟨i, -, rfl⟩ := App.mem_mapWrites hwrites hp
    refine ⟨isIntermediate_mapResult _ i, App.readPairs_isSome fun kv hkv => ?_⟩
    rw [hmapped] at hkv
    exact hjob.fits _ hmem kv (List.mem_filter.mp hkv).1
  · rw [app.mapWrites_eq _ (by rw [hn]; exact hjob.reduces), Option.some.injEq, hn] at hwrites
    have hmem := List.mem_map_of_mem (f := fun i => (mapResult x.reply.mapIndex i,
      App.encode (App.bucket nReduce.toNat i (app.mapf x.reply.addr content)))) (List.mem_range.mpr hi)
    rw [hwrites] at hmem
    exact ⟨mapResult x.reply.mapIndex i, ofPartition_mapResult.mpr rfl, Or.inl ⟨_, hmem, rfl⟩⟩

theorem Worker.Able.moves {a : LocalAct} (h : x.Able files nReduce Has c) (hjob : app.Runnable files nReduce dir₀)
    (hdir : ∀ f ∈ files, dir.get? f = dir₀.get? f)
    (hfile : ∀ name, isIntermediate name = true → (dir.get? name).isSome = true → files ≠ [])
    (hm : x.Moves app dir a x') : x'.Able files nReduce Has c := by
  have hstage := h.stage
  cases hm with
  | rest _ hargs hreply hgiven hmain =>
    refine ⟨by rw [hreply]; exact h.map, by rw [hreply]; exact h.reduce, fun new hnew => ?_, ?_⟩
    · rcases hmain with heq | heq | heq
      · exact h.answer new (heq.symm.trans hnew)
      · cases heq.symm.trans hnew
      · cases heq.symm.trans hnew
    · rcases hmain with heq | heq | heq
      · rw [heq]
        exact hstage.congr hargs hreply
      · rw [heq]
        trivial
      · rw [heq]
        trivial
  | call => exact h.setMain ⟨fun hargs => absurd rfl hargs, fun hmem => absurd hmem hjob.named⟩ (by simp)
  | startMap _ ht => exact h.setMain ht (by simp)
  | startReduce _ ht => exact h.setMain (h.reduce ht) (by simp)
  | openInput content writes hmain hget hwrites =>
    rw [hmain] at hstage
    exact h.setMain ((h.openInput hjob hdir hstage hget hwrites).congr rfl rfl) (by simp)
  | mapReturns hmain =>
    rw [hmain] at hstage
    refine h.setMain ⟨fun _ => hstage.1, fun _ => hstage.2.2.mono fun name hhas => ?_⟩ (by simp)
    obtain ⟨p, hp, -⟩ | hhas := hhas
    · cases hp
    · exact hhas
  | listFiles hmain hsome =>
    rw [hmain] at hstage
    obtain ⟨name, hname⟩ := List.exists_mem_of_ne_nil _ hsome
    obtain ⟨hget, hmatch⟩ := Dir.mem_glob.mp hname
    exact h.setMain ⟨hfile name (isIntermediate_of_ofPartition hmatch) hget, hstage⟩ (by simp)
  | readFile fname names kva kvs content hmain _ _ =>
    rw [hmain] at hstage
    exact h.setMain hstage (by simp)
  | deliver new hmain => exact h.deliver hjob hmain

end

/-! ## The system -/

namespace MrSystem

def Has (σ : MrSystem) (name : GoString) : Prop := σ.cleanup.begun = true ∨ (σ.dir.get? name).isSome = true

section
variable (files : List GoString) (nReduce : Int) (dir₀ : Dir)

structure Stocked (σ : MrSystem) : Prop where
  removing : ∀ todo, σ.cleanup = .removing todo → ∀ f ∈ todo, isIntermediate f = true
  input : ∀ f ∈ files, σ.dir.get? f = dir₀.get? f
  readable : ∀ name text, isIntermediate name = true → σ.dir.get? name = some text →
    files ≠ [] ∧ (App.readPairs text).isSome = true

structure Able (σ : MrSystem) : Prop extends σ.Stocked files dir₀ where
  live : σ.c.Live files nReduce
  clean : σ.cleanup ≠ .watching → σ.c.isDone = true
  covered : 0 < σ.c.mtnum → Covered nReduce.toNat σ.Has
  begun : 0 < σ.c.rtnum → files ≠ []
  worker : ∀ w, (σ.worker w).Able files nReduce σ.Has σ.c
  /-- there are workers that have not started -/
  fresh : ∃ n, ∀ w, n ≤ w → σ.worker w = Worker.init

end

variable {app : App} {files : List GoString} {nReduce : Int} {dir₀ : Dir} {σ σ' : MrSystem} {a : MrAct}

theorem able_init (hjob : app.Runnable files nReduce dir₀) :
    (init files nReduce dir₀).Able files nReduce dir₀ where
  removing _ hc := by cases hc
  input _ _ := rfl
  readable name text hname hget := by
    have hmem := GoMap.get?_isSome.mp (Option.isSome_iff_exists.mpr ⟨text, hget⟩)
    rw [hjob.clean name hmem] at hname
    cases hname
  live := Coordinator.live_make
  clean hne := absurd rfl hne
  covered hpos := absurd hpos (lt_irrefl 0)
  begun hpos := absurd hpos (lt_irrefl 0)
  worker _ := ⟨(fun ht => by cases ht), (fun ht => by cases ht), (fun _ hnew => by cases hnew), trivial⟩
  fresh := ⟨0, fun _ _ => rfl⟩

theorem step_has (hs : σ.step app a = some σ') {name : GoString} (h : σ.Has name) : σ'.Has name := by
  have hinsert : ∀ name' text, (σ.dir.get? name).isSome = true → ((σ.dir.insert name' text).get? name).isSome = true := by
    intro name' text hsome
    rw [GoMap.get?_isSome] at hsome ⊢
    exact GoMap.mem_keys_insert.mpr (Or.inl hsome)
  cases step_steps hs with
  | rename w name' text _ _ => exact h.imp_right (hinsert name' text)
  | output w kva _ => exact h.imp_right (hinsert _ _)
  | watch cleanup hc _ =>
    refine Or.inr (h.resolve_left ?_)
    rw [hc]
    simp [Cleanup.begun]
  | list _ => exact Or.inl rfl
  | remove f names _ => exact Or.inl rfl
  | _ => exact h

theorem Stocked.insert (h : σ.Stocked files dir₀) {name text : GoString} (hin : ∀ f ∈ files, f ≠ name)
    (hread : isIntermediate name = true → files ≠ [] ∧ (App.readPairs text).isSome = true) (hc : σ'.cleanup = σ.cleanup)
    (hdir : σ'.dir = σ.dir.insert name text) : σ'.Stocked files dir₀ where
  removing todo htodo := h.removing todo (hc.symm.trans htodo)
  input f hf := by
    rw [hdir, GoMap.get?_insert_of_ne (hin f hf)]
    exact h.input f hf
  readable name' text' hname' hget := by
    rw [hdir] at hget
    by_cases heq : name' = name
    · subst heq
      rw [GoMap.get?_insert_self, Option.some.injEq] at hget
      rw [← hget]
      exact hread hname'
    · rw [GoMap.get?_insert_of_ne heq] at hget
      exact h.readable name' text' hname' hget

theorem Stocked.remove (h : σ.Stocked files dir₀) (hinput : ∀ f ∈ files, isIntermediate f = false) {f : GoString}
    {todo : List GoString} (hc : σ.cleanup = .removing (f :: todo)) :
    Stocked files dir₀ { σ with dir := σ.dir.delete f, cleanup := .removing todo } where
  removing _ htodo f' hf' := by
    cases htodo
    exact h.removing _ hc f' (List.mem_cons_of_mem f hf')
  input f' hf' := by
    have hf := h.removing _ hc f List.mem_cons_self
    rw [GoMap.get?_delete_of_ne (isIntermediate_ne hf (hinput f' hf')).symm]
    exact h.input f' hf'
  readable name text hname hget := by
    have hne : name ≠ f := by
      rintro rfl
      simp at hget
    rw [GoMap.get?_delete_of_ne hne] at hget
    exact h.readable name text hname hget

theorem Able.stocked_step (h : σ.Able files nReduce dir₀) (hjob : app.Runnable files nReduce dir₀)
    (hs : σ.step app a = some σ') : σ'.Stocked files dir₀ := by
  have hst := h.toStocked
  cases step_steps hs with
  | rename w name text todo hmain =>
    have hstage := (h.worker w).stage
    rw [hmain] at hstage
    obtain ⟨hname, hread⟩ := hstage.2.1 (name, text) List.mem_cons_self
    refine hst.insert (fun f hf => ?_) (fun _ => ⟨hstage.1, hread⟩) rfl rfl
    exact (isIntermediate_ne hname (hjob.apart f hf).2.1).symm
  | output w kva _ =>
    refine hst.insert (fun f hf => (hjob.apart f hf).2.2 _) (fun hname => ?_) rfl rfl
    rw [isIntermediate_mrOut] at hname
    cases hname
  | watch cleanup _ hc =>
    refine ⟨fun todo htodo => ?_, hst.input, hst.readable⟩
    rcases hc with rfl | rfl <;> cases htodo
  | list _ =>
    refine ⟨fun todo htodo f hf => ?_, hst.input, hst.readable⟩
    cases htodo
    exact (Dir.mem_glob.mp hf).2
  | remove f names hc => exact hst.remove (fun f hf => (hjob.apart f hf).2.1) hc
  | _ => exact ⟨hst.removing, hst.input, hst.readable⟩

theorem Able.live_step (h : σ.Able files nReduce dir₀) (hjob : app.Runnable files nReduce dir₀)
    (hs : σ.step app a = some σ') : σ'.c.Live files nReduce := by
  have hname : ∀ f ∈ files, ∀ i, f ≠ reduceKey i := fun f hf => (hjob.apart f hf).1
  cases step_steps hs with
  | handle w _ => exact h.live.coordinatorHandler hname _
  | heartbeat w _ => exact h.live.heartbeat hname w σ.clock
  | timeadd k c hc => exact h.live.fire hname hc
  | watch cleanup _ _ => exact h.live.watchWorkers hname σ.clock
  | _ => exact h.live

/-- `cleanup` begins when the job is over, and nothing takes that back. -/
theorem Able.clean_step (h : σ.Able files nReduce dir₀) (hs : σ.step app a = some σ') (hc : σ'.cleanup ≠ .watching) :
    σ'.c.isDone = true := by
  cases step_steps hs with
  | handle w _ => exact Coordinator.isDone_handler (h.clean hc) _
  | heartbeat w _ => exact Coordinator.isDone_heartbeat (h.clean hc) w σ.clock
  | timeadd k c hfire => exact Coordinator.isDone_fire (h.clean hc) hfire
  | watch cleanup hwatch _ =>
    have hnext := congrArg (Option.map MrSystem.cleanup) hs
    simp only [MrSystem.step, if_pos hwatch, Option.map_some, Option.some.injEq] at hnext
    by_contra hdone
    refine hc (hnext.symm.trans (if_neg fun hfinished => hdone ?_))
    exact hfinished
  | list hlist => exact h.clean (by rw [hlist]; simp)
  | remove f names hrem => exact h.clean (by rw [hrem]; simp)
  | _ => exact h.clean hc

theorem Able.covered_step (h : σ.Able files nReduce dir₀) (hs : σ.step app a = some σ') (hpos : 0 < σ'.c.mtnum) :
    Covered nReduce.toNat σ'.Has := by
  refine Covered.mono ?_ fun name => step_has hs
  cases step_steps hs with
  | handle w hmain =>
    by_cases hold : 0 < σ.c.mtnum
    · exact h.covered hold
    · -- the first map task is reported, and its files are there
      have hlt : σ.c.mtnum < (σ.c.report (σ.worker w).args).mtnum := by
        rw [← (σ.c.handler_counts (σ.worker w).args).1]
        exact (Nat.eq_zero_of_not_pos hold).trans_lt hpos
      obtain ⟨hone, hphase⟩ := Coordinator.report_mtnum_lt hlt
      have hstage := (h.worker w).stage
      rw [hmain] at hstage
      exact hstage.2 (h.live.mapOnly (h.live.mf ▸ hphase) _ 1 hone (by decide))
  | heartbeat w _ => exact h.covered ((σ.c.heartbeat_same w σ.clock).1 ▸ hpos)
  | timeadd k c hc =>
    obtain ⟨key, -, -, -, -, hmtnum, -⟩ := Coordinator.fire_cases hc
    exact h.covered (hmtnum ▸ hpos)
  | _ => exact h.covered hpos

theorem Able.begun_step (h : σ.Able files nReduce dir₀) (hs : σ.step app a = some σ') (hpos : 0 < σ'.c.rtnum) :
    files ≠ [] := by
  cases step_steps hs with
  | handle w hmain =>
    by_cases hold : 0 < σ.c.rtnum
    · exact h.begun hold
    · have hlt : σ.c.rtnum < (σ.c.report (σ.worker w).args).rtnum := by
        rw [← (σ.c.handler_counts (σ.worker w).args).2]
        exact (Nat.eq_zero_of_not_pos hold).trans_lt hpos
      obtain ⟨hone, hphase⟩ := Coordinator.report_rtnum_lt hlt
      obtain ⟨i, -, hkey⟩ := h.live.reduceOnly (h.live.mf ▸ hphase) _ hone
      have hstage := (h.worker w).stage
      rw [hmain] at hstage
      exact hstage.1 (hkey ▸ reduceKey_ne_nil i)
  | heartbeat w _ => exact h.begun ((σ.c.heartbeat_same w σ.clock).2.1 ▸ hpos)
  | timeadd k c hc =>
    obtain ⟨key, -, -, -, -, -, hrtnum, -⟩ := Coordinator.fire_cases hc
    exact h.begun (hrtnum ▸ hpos)
  | _ => exact h.begun hpos

theorem Able.worker_step (h : σ.Able files nReduce dir₀) (hjob : app.Runnable files nReduce dir₀)
    (hs : σ.step app a = some σ') (w : Nat) : (σ'.worker w).Able files nReduce σ'.Has σ'.c := by
  have hhas : ∀ name, σ.Has name → σ'.Has name := fun name => step_has hs
  have hset : ∀ {w' : Nat} {x : Worker}, x.Able files nReduce σ'.Has σ'.c → σ.c.mtnum ≤ σ'.c.mtnum →
      σ'.worker = Function.update σ.worker w' x → (σ'.worker w).Able files nReduce σ'.Has σ'.c := by
    intro w' x hx hc heq
    rw [heq]
    by_cases hw : w = w'
    · subst hw
      rw [Function.update_self]
      exact hx
    · rw [Function.update_of_ne hw]
      exact (h.worker w).mono hhas hc
  cases step_steps hs with
  | inner w' a x hm =>
    refine hset (((h.worker w').moves hjob h.input (fun name hname hsome => ?_) hm).mono hhas le_rfl) le_rfl rfl
    obtain ⟨text, hget⟩ := Option.isSome_iff_exists.mp hsome
    exact (h.readable name text hname hget).1
  | rename w' name text todo hmain =>
    refine hset (Worker.Able.setMain ((h.worker w').mono hhas le_rfl) ?_ (by simp)) le_rfl rfl
    have hstage := (h.worker w').stage
    rw [hmain] at hstage
    refine ⟨hstage.1, fun p hp => hstage.2.1 p (List.mem_cons_of_mem _ hp), hstage.2.2.mono fun name' hfile => ?_⟩
    rcases hfile with ⟨p, hp, rfl⟩ | hfile
    · rcases List.mem_cons.mp hp with rfl | hp
      · exact Or.inr (Or.inr (by simp))
      · exact Or.inl ⟨p, hp, rfl⟩
    · exact Or.inr (hhas name' hfile)
  | output w' kva hmain =>
    refine hset (Worker.Able.setMain ((h.worker w').mono hhas le_rfl) ?_ (by simp)) le_rfl rfl
    have hstage := (h.worker w').stage
    rw [hmain] at hstage
    exact ⟨fun _ => hstage.1, fun hmem => absurd hmem hstage.2⟩
  | handle w' hmain =>
    have hmt := (Coordinator.kept_mtnum _).coordinatorHandler (le_refl σ.c.mtnum) (σ.worker w').args
    have hx := (h.worker w').mono hhas hmt
    refine hset (x := { σ.worker w' with main := .answered _ }) ⟨hx.map, hx.reduce, fun new hnew => ?_, trivial⟩ hmt rfl
    cases hnew
    exact Coordinator.handler_valid h.live.toBooked _
  | heartbeat w' beat =>
    have hmt := (Coordinator.kept_mtnum _).heartbeat (le_refl σ.c.mtnum) w' σ.clock
    have hx := (h.worker w').mono hhas hmt
    exact hset (x := { σ.worker w' with beat }) ⟨hx.map, hx.reduce, hx.answer, hx.stage.congr rfl rfl⟩ hmt rfl
  | timeadd k c hc => exact (h.worker w).mono hhas ((Coordinator.kept_mtnum _).fire le_rfl hc)
  | _ => exact (h.worker w).mono hhas le_rfl

theorem Able.fresh_step (h : σ.Able files nReduce dir₀) (hs : σ.step app a = some σ') :
    ∃ n, ∀ w, n ≤ w → σ'.worker w = Worker.init := by
  obtain ⟨n, hn⟩ := h.fresh
  have hset : ∀ (w : Nat) (x : Worker), ∃ n, ∀ w', n ≤ w' → Function.update σ.worker w x w' = Worker.init := by
    intro w x
    refine ⟨max n (w + 1), fun w' hw' => ?_⟩
    rw [Function.update_of_ne (by omega)]
    exact hn w' (by omega)
  cases step_steps hs with
  | inner w _ x _ => exact hset w x
  | rename w _ _ todo _ => exact hset w _
  | output w _ _ => exact hset w _
  | handle w _ => exact hset w _
  | heartbeat w _ => exact hset w _
  | _ => exact h.fresh

theorem Able.step (h : σ.Able files nReduce dir₀) (hjob : app.Runnable files nReduce dir₀)
    (hs : σ.step app a = some σ') : σ'.Able files nReduce dir₀ where
  toStocked := h.stocked_step hjob hs
  live := h.live_step hjob hs
  clean := h.clean_step hs
  covered := h.covered_step hs
  begun := h.begun_step hs
  worker := h.worker_step hjob hs
  fresh := h.fresh_step hs

end MrSystem

end DistLab
