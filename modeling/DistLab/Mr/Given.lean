import DistLab.Mr.Agree
import DistLab.Mr.System

/-!
# The task that was given

A worker decodes every answer into the same `Reply`, so what it does depends on
all answers it has got. As long as no zero of an answer meets an older number, it
does what the coordinator asked for, and what it reports it has written.
-/

namespace DistLab

/-! ## Answers of the coordinator -/

section
variable (files : List GoString) (nReduce : Int) (c : Coordinator)

structure Reply.Valid (p : Reply) : Prop where
  n : p.n = 0 ∨ p.n = nReduce
  map : p.t = .map → p.addr ∈ files ∧ p.mapIndex = files.idxOf p.addr ∧ p.n = nReduce
  reduce : p.t = .reduce → files.length ≤ c.mtnum ∧ p.index < nReduce.toNat ∧ p.addr = reduceKey p.index

end

section
variable {files : List GoString} {nReduce : Int} {c c' : Coordinator} {p : Reply}

theorem Reply.valid_idle {t : TaskType} (hm : t ≠ .map) (hr : t ≠ .reduce) :
    { Reply.zero with t }.Valid files nReduce c :=
  ⟨Or.inl rfl, fun h => absurd h hm, fun h => absurd h hr⟩

theorem Reply.Valid.mono (h : p.Valid files nReduce c) (hle : c.mtnum ≤ c'.mtnum) : p.Valid files nReduce c' :=
  ⟨h.n, h.map, fun ht => ⟨(h.reduce ht).1.trans hle, (h.reduce ht).2⟩⟩

namespace Coordinator

theorem kept_mtnum (m : Nat) : Kept fun c => m ≤ c.mtnum where
  reportMap _ _ h _ _ := Nat.le_succ_of_le h
  assignMap _ _ h _ _ _ := h
  reportReduce _ _ h _ _ := h
  assignReduce _ _ h _ _ _ := h
  finish _ h _ _ := h
  timeadd _ _ h _ := h
  other _ _ _ h := h

theorem handler_valid (h : c.Booked files nReduce) (addr : GoString) :
    (c.coordinatorHandler addr).2.Valid files nReduce (c.coordinatorHandler addr).1 ∧
      (c.coordinatorHandler addr).2.t ≠ .unset := by
  unfold coordinatorHandler
  split
  · rename_i hmap
    have hfields : (c.reportMap addr).mf = c.mf ∧ (c.reportMap addr).r = c.r := by
      rcases c.reportMap_cases addr with ⟨-, heq⟩ | ⟨-, heq⟩ <;> rw [heq] <;> exact ⟨rfl, rfl⟩
    rw [maptask]
    rcases (c.reportMap addr).assignMap_cases with heq | ⟨key, -, hmem, -, heq⟩
    · rw [heq]
      exact ⟨Reply.valid_idle (by decide) (by decide), by simp⟩
    · rw [heq]
      rw [hfields.1, h.mf] at hmem ⊢
      rw [hfields.2, h.r]
      exact ⟨⟨Or.inr rfl, fun _ => ⟨hmem, rfl, rfl⟩, by simp⟩, by simp⟩
  · rename_i hreduce
    have hfields : (c.reportReduce addr).mtnum = c.mtnum ∧ (c.reportReduce addr).r = c.r := by
      rcases c.reportReduce_cases addr with ⟨-, heq⟩ | ⟨-, heq⟩ <;> rw [heq] <;> exact ⟨rfl, rfl⟩
    rw [reducetask]
    rcases (c.reportReduce addr).assignReduce_cases with heq | ⟨-, heq⟩ | ⟨i, hi, -, heq⟩
    · rw [heq]
      exact ⟨Reply.valid_idle (by decide) (by decide), by simp⟩
    · rw [heq]
      exact ⟨Reply.valid_idle (by decide) (by decide), by simp⟩
    · rw [heq]
      rw [hfields.2, h.r] at hi
      rw [h.mf, not_lt, ← hfields.1] at hreduce
      exact ⟨⟨Or.inl rfl, by simp, fun _ => ⟨hreduce, hi, rfl⟩⟩, by simp⟩

end Coordinator

end

/-! ## A worker and its task -/

/-- The worker's fields are those the coordinator set, the index of a reduce task
apart. -/
structure Reply.Follows (p new : Reply) : Prop where
  t : p.t = new.t
  map : new.t = .map → p.n = new.n ∧ p.addr = new.addr ∧ p.mapIndex = new.mapIndex
  reduce : new.t = .reduce → p.addr = new.addr

section
variable (app : App) (Known : GoString → GoString → Prop) (did : GoString → GoString → Prop)

/-- Where a worker stands with its task: `Known` is what input files have been
seen to hold, and `did` what the worker has put in place. -/
def Worker.Stands (x : Worker) : MainStage → Prop
  | .opening => x.reply.t = .map ∧ x.args = x.reply.addr
  | .placing todo => x.reply.t = .map ∧ x.args = x.reply.addr ∧ ∃ content past, Known x.reply.addr content ∧
      app.mapWrites x.reply content = some (past ++ todo) ∧ ∀ p ∈ past, did p.1 p.2
  | .listing => x.reply.t = .reduce ∧ x.args = x.reply.addr
  | .reading _ _ => x.reply.t = .reduce ∧ x.args = x.reply.addr
  | .calling => x.args = [] ∨ (x.reply.t = .map ∧ x.args = x.reply.addr ∧ ∃ content writes,
        Known x.reply.addr content ∧ app.mapWrites x.reply content = some writes ∧ ∀ p ∈ writes, did p.1 p.2) ∨
      (x.reply.t = .reduce ∧ x.args = x.reply.addr ∧ ∃ text, did (mrOut x.reply.index) text)
  | _ => True

variable (files : List GoString) (nReduce : Int) (c : Coordinator)

structure Worker.Loyal (x : Worker) : Prop where
  n : x.reply.n = 0 ∨ x.reply.n = nReduce
  given : x.given.Valid files nReduce c
  follows : x.reply.Follows x.given
  stands : x.Stands app Known did x.main
  answer : ∀ new, x.main = .answered new → new.Valid files nReduce c ∧ new.t ≠ .unset

end

section
variable {app : App} {Known Known' did did' : GoString → GoString → Prop} {files : List GoString} {nReduce : Int}
  {c c' : Coordinator} {x : Worker}

theorem Worker.Stands.mono {main : MainStage} (h : x.Stands app Known did main)
    (hk : ∀ f text, Known f text → Known' f text) (hd : ∀ f text, did f text → did' f text) :
    x.Stands app Known' did' main := by
  cases main with
  | placing todo =>
    obtain ⟨ht, hargs, content, past, hknown, hwrites, hpast⟩ := h
    exact ⟨ht, hargs, content, past, hk _ _ hknown, hwrites, fun p hp => hd _ _ (hpast p hp)⟩
  | calling =>
    rcases h with h | ⟨ht, hargs, content, writes, hknown, hwrites, hdid⟩ | ⟨ht, hargs, text, hdid⟩
    · exact Or.inl h
    · exact Or.inr (Or.inl ⟨ht, hargs, content, writes, hk _ _ hknown, hwrites, fun p hp => hd _ _ (hdid p hp)⟩)
    · exact Or.inr (Or.inr ⟨ht, hargs, text, hd _ _ hdid⟩)
  | _ => exact h

def MainStage.inMaptask : MainStage → Bool
  | .opening => true
  | .placing _ => true
  | _ => false

def MainStage.inReducetask : MainStage → Bool
  | .listing => true
  | .reading _ _ => true
  | _ => false

theorem Worker.Stands.map_of_in {main : MainStage} (h : x.Stands app Known did main) (hin : main.inMaptask = true) :
    x.reply.t = .map := by
  cases main with
  | opening => exact h.1
  | placing todo => exact h.1
  | _ => cases hin

theorem Worker.Stands.reduce_of_in {main : MainStage} (h : x.Stands app Known did main)
    (hin : main.inReducetask = true) : x.reply.t = .reduce := by
  cases main with
  | listing => exact h.1
  | reading todo kva => exact h.1
  | _ => cases hin

theorem Worker.Loyal.mono (h : x.Loyal app Known did files nReduce c) (hk : ∀ f text, Known f text → Known' f text)
    (hd : ∀ f text, did f text → did' f text) (hc : c.mtnum ≤ c'.mtnum) : x.Loyal app Known' did' files nReduce c' where
  n := h.n
  given := h.given.mono hc
  follows := h.follows
  stands := h.stands.mono hk hd
  answer new hnew := ⟨(h.answer new hnew).1.mono hc, (h.answer new hnew).2⟩

theorem Worker.Stands.congr {x' : Worker} {main : MainStage} (h : x.Stands app Known did main)
    (hargs : x'.args = x.args) (hreply : x'.reply = x.reply) : x'.Stands app Known did main := by
  unfold Worker.Stands at h ⊢
  rw [hargs, hreply]
  exact h

theorem Worker.Loyal.setMain (h : x.Loyal app Known did files nReduce c) {args : GoString} {main : MainStage}
    (hs : Worker.Stands app Known did { x with args, main } main) (ha : ∀ new, main ≠ .answered new) :
    Worker.Loyal app Known did files nReduce c { x with args, main } :=
  ⟨h.n, h.given, h.follows, hs, fun new hnew => absurd hnew (ha new)⟩

theorem reduceKey_ne_nil (i : Nat) : reduceKey i ≠ [] := by
  have htext : (bytes "reduce-").length = 7 := by decide +kernel
  intro h
  have hlen := congrArg List.length h
  rw [reduceKey, List.length_append, htext, List.length_nil] at hlen
  omega

/-- Nothing is lost in `decode` when the answer has no zero where the worker has an
older number. -/
theorem Reply.Valid.decode {p new : Reply} (h : new.Valid files nReduce c) (ht : new.t ≠ .unset) (hne : [] ∉ files)
    (hn : p.n = 0 ∨ p.n = nReduce) (hfresh : new.t = .map → new.mapIndex = 0 → p.mapIndex = 0) :
    (p.decode new).Follows new where
  t := if_neg ht
  map hmap := by
    obtain ⟨hmem, -, hnew⟩ := h.map hmap
    have haddr : new.addr ≠ [] := by
      intro hnil
      rw [hnil] at hmem
      exact hne hmem
    refine ⟨?_, if_neg haddr, ?_⟩
    · show (if new.n = 0 then p.n else new.n) = new.n
      split
      · rename_i h0
        rcases hn with hn | hn
        · rw [hn, h0]
        · rw [hn, hnew]
      · rfl
    · show (if new.mapIndex = 0 then p.mapIndex else new.mapIndex) = new.mapIndex
      split
      · rename_i h0
        rw [hfresh hmap h0, h0]
      · rfl
  reduce hred := if_neg fun hnil => reduceKey_ne_nil new.index ((h.reduce hred).2.2.symm.trans hnil)

theorem Worker.Loyal.deliver (h : x.Loyal app Known did files nReduce c) (hne : [] ∉ files) {new : Reply}
    (hmain : x.main = .answered new) (hfresh : new.t = .map → new.mapIndex = 0 → x.reply.mapIndex = 0) :
    (x.deliver new).Loyal app Known did files nReduce c := by
  obtain ⟨hvalid, ht⟩ := h.answer new hmain
  refine ⟨?_, hvalid, hvalid.decode ht hne h.n hfresh, trivial, fun new' hnew => by cases hnew⟩
  show (if new.n = 0 then x.reply.n else new.n) = 0 ∨ (if new.n = 0 then x.reply.n else new.n) = nReduce
  split
  · exact h.n
  · exact hvalid.n

theorem Worker.Loyal.addr_mem (h : x.Loyal app Known did files nReduce c) (ht : x.reply.t = .map) :
    x.reply.addr ∈ files := by
  have hgiven := h.follows.t.symm.trans ht
  rw [(h.follows.map hgiven).2.1]
  exact (h.given.map hgiven).1

theorem Worker.Loyal.moves {dir : Dir} {x' : Worker} {a : LocalAct} (h : x.Loyal app Known did files nReduce c)
    (hne : [] ∉ files)
    (hk : ∀ f ∈ files, ∀ content, dir.get? f = some content → Known f content)
    (hfresh : a = .deliver → ∀ new, x.main = .answered new → new.t = .map → new.mapIndex = 0 → x.reply.mapIndex = 0)
    (hm : x.Moves app dir a x') : x'.Loyal app Known did files nReduce c := by
  have hstands := h.stands
  cases hm with
  | rest _ hargs hreply hgiven hmain =>
    refine ⟨by rw [hreply]; exact h.n, by rw [hgiven]; exact h.given, by rw [hreply, hgiven]; exact h.follows, ?_, ?_⟩
    · rcases hmain with heq | heq | heq
      · rw [heq]
        exact hstands.congr hargs hreply
      · rw [heq]
        trivial
      · rw [heq]
        trivial
    · intro new hnew
      rcases hmain with heq | heq | heq
      · exact h.answer new (heq.symm.trans hnew)
      · rw [heq] at hnew
        cases hnew
      · rw [heq] at hnew
        cases hnew
  | call => exact h.setMain (Or.inl rfl) (by simp)
  | startMap _ ht => exact h.setMain ⟨ht, rfl⟩ (by simp)
  | startReduce _ ht => exact h.setMain ⟨ht, rfl⟩ (by simp)
  | openInput content writes hmain hget hwrites =>
    rw [hmain] at hstands
    obtain ⟨ht, hargs⟩ := hstands
    refine h.setMain ⟨ht, hargs, content, [], hk _ (h.addr_mem ht) content hget, hwrites, by simp⟩ (by simp)
  | mapReturns hmain =>
    rw [hmain] at hstands
    obtain ⟨ht, hargs, content, past, hknown, hwrites, hpast⟩ := hstands
    rw [List.append_nil] at hwrites
    exact h.setMain (Or.inr (Or.inl ⟨ht, hargs, content, past, hknown, hwrites, hpast⟩)) (by simp)
  | listFiles hmain _ =>
    rw [hmain] at hstands
    exact h.setMain hstands (by simp)
  | readFile fname names kva kvs content hmain _ _ =>
    rw [hmain] at hstands
    exact h.setMain hstands (by simp)
  | deliver new hmain => exact h.deliver hne hmain (hfresh rfl new hmain)

theorem Worker.Loyal.place (h : x.Loyal app Known did files nReduce c) {name text : GoString}
    {todo : List (GoString × GoString)} (hmain : x.main = .placing ((name, text) :: todo)) (hdid : did name text) :
    Worker.Loyal app Known did files nReduce c { x with main := .placing todo } := by
  have hstands := h.stands
  rw [hmain] at hstands
  obtain ⟨ht, hargs, content, past, hknown, hwrites, hpast⟩ := hstands
  refine h.setMain ⟨ht, hargs, content, past ++ [(name, text)], hknown, ?_, fun p hp => ?_⟩ (by simp)
  · rw [hwrites, List.append_assoc, List.singleton_append]
  · rcases List.mem_append.mp hp with hp | hp
    · exact hpast p hp
    · rw [List.mem_singleton.mp hp]
      exact hdid

theorem Worker.Loyal.output (h : x.Loyal app Known did files nReduce c) {kva : List KeyValue}
    (hmain : x.main = .reading [] kva) (hdid : did (mrOut x.reply.index) (app.reduceOutput kva)) :
    Worker.Loyal app Known did files nReduce c { x with main := .calling } := by
  have hstands := h.stands
  rw [hmain] at hstands
  exact h.setMain (Or.inr (Or.inr ⟨hstands.1, hstands.2, _, hdid⟩)) (by simp)

end

/-! ## The system -/

namespace MrSystem

variable (app : App) (files : List GoString) (nReduce : Int) (Known : GoString → GoString → Prop)

def Did (σ : MrSystem) (w : Nat) (name text : GoString) : Prop := ⟨w, name, text⟩ ∈ σ.written

structure Loyal (σ : MrSystem) : Prop where
  booked : σ.c.Booked files nReduce
  worker : ∀ w, (σ.worker w).Loyal app Known (σ.Did w) files nReduce σ.c

def delivers (σ : MrSystem) : MrAct → Option (Worker × Reply)
  | .inner w .deliver =>
    match (σ.worker w).main with
    | .answered new => some (σ.worker w, new)
    | _ => none
  | _ => none

/-- Map task 0 goes to a worker that has no other map task's number. -/
def FreshMap (σ : MrSystem) (a : MrAct) : Prop :=
  ∀ p ∈ σ.delivers a, p.2.t = .map → p.2.mapIndex = 0 → p.1.reply.mapIndex = 0

/-- Reduce task 0 goes to a worker that has no other reduce task's number. -/
def FreshReduce (σ : MrSystem) (a : MrAct) : Prop :=
  ∀ p ∈ σ.delivers a, p.2.t = .reduce → p.2.index = 0 → p.1.reply.index = 0

instance (σ : MrSystem) (a : MrAct) : Decidable (σ.FreshMap a) := inferInstanceAs (Decidable (∀ p ∈ σ.delivers a, _))

instance (σ : MrSystem) (a : MrAct) : Decidable (σ.FreshReduce a) := inferInstanceAs (Decidable (∀ p ∈ σ.delivers a, _))

variable {app files nReduce Known} {Known' : GoString → GoString → Prop} {σ σ' : MrSystem}

theorem loyal_init (dir : Dir) : (init files nReduce dir).Loyal app files nReduce Known where
  booked := Coordinator.booked_make
  worker w := ⟨Or.inl rfl, Reply.valid_idle (by decide) (by decide), ⟨rfl, by simp [init, Worker.init, Reply.zero],
    by simp [init, Worker.init, Reply.zero]⟩, trivial, by simp [init, Worker.init]⟩

/-- The other workers see only that more has been written and counted. -/
theorem Loyal.update (h : σ.Loyal app files nReduce Known) (hk : ∀ f text, Known f text → Known' f text)
    (hb : σ'.c.Booked files nReduce) (hc : σ.c.mtnum ≤ σ'.c.mtnum) (hw : σ.written ⊆ σ'.written) {w : Nat} {x : Worker}
    (hx : σ'.worker = Function.update σ.worker w x) (hl : x.Loyal app Known' (σ'.Did w) files nReduce σ'.c) :
    σ'.Loyal app files nReduce Known' := by
  refine ⟨hb, ?_⟩
  rw [hx, Function.forall_update_iff σ.worker fun w x => x.Loyal app Known' (σ'.Did w) files nReduce σ'.c]
  exact ⟨hl, fun w' _ => (h.worker w').mono hk (fun _ _ hd => hw hd) hc⟩

theorem Loyal.same (h : σ.Loyal app files nReduce Known) (hk : ∀ f text, Known f text → Known' f text)
    (hb : σ'.c.Booked files nReduce) (hc : σ.c.mtnum ≤ σ'.c.mtnum) (hw : σ'.written = σ.written)
    (hx : σ'.worker = σ.worker) : σ'.Loyal app files nReduce Known' := by
  refine ⟨hb, fun w => ?_⟩
  rw [hx]
  exact (h.worker w).mono hk (fun _ _ hd => by rw [Did, hw]; exact hd) hc

theorem Loyal.step (h : σ.Loyal app files nReduce Known) (hne : [] ∉ files)
    (hk : ∀ f text, Known f text → Known' f text)
    (hdir : ∀ f ∈ files, ∀ content, σ.dir.get? f = some content → Known' f content) {a : MrAct} (hfresh : σ.FreshMap a)
    (hs : σ.step app a = some σ') : σ'.Loyal app files nReduce Known' := by
  have hworker : ∀ w, (σ.worker w).Loyal app Known' (σ.Did w) files nReduce σ.c :=
    fun w => (h.worker w).mono hk (fun _ _ hd => hd) le_rfl
  have hmore : ∀ e, σ.written ⊆ σ.written ++ [e] := fun e => List.subset_append_left _ _
  cases step_steps hs with
  | inner w a x hm =>
    refine h.update hk h.booked le_rfl (List.Subset.refl _) rfl ((hworker w).moves hne hdir (fun ha new hnew => ?_) hm)
    subst ha
    exact hfresh (σ.worker w, new) (by simp only [delivers, hnew, Option.mem_def])
  | rename w name text todo hmain =>
    refine h.update hk h.booked le_rfl (hmore _) rfl (Worker.Loyal.place ?_ hmain ?_)
    · exact (hworker w).mono (fun _ _ hd => hd) (fun _ _ hd => hmore _ hd) le_rfl
    · exact List.mem_append_right _ (List.mem_singleton_self _)
  | output w kva hmain =>
    refine h.update hk h.booked le_rfl (hmore _) rfl (Worker.Loyal.output ?_ hmain ?_)
    · exact (hworker w).mono (fun _ _ hd => hd) (fun _ _ hd => hmore _ hd) le_rfl
    · exact List.mem_append_right _ (List.mem_singleton_self _)
  | handle w hmain =>
    have hbooked := Coordinator.kept_booked.coordinatorHandler h.booked (σ.worker w).args
    have hmt := (Coordinator.kept_mtnum _).coordinatorHandler (le_refl σ.c.mtnum) (σ.worker w).args
    refine h.update hk hbooked hmt (List.Subset.refl _) rfl ?_
    have hx := (hworker w).mono (fun _ _ hd => hd) (fun _ _ hd => hd) hmt
    refine ⟨hx.n, hx.given, hx.follows, trivial, fun new hnew => ?_⟩
    cases hnew
    exact Coordinator.handler_valid h.booked _
  | heartbeat w beat =>
    have hmt := (Coordinator.kept_mtnum _).heartbeat (le_refl σ.c.mtnum) w σ.clock
    refine h.update hk (Coordinator.kept_booked.heartbeat h.booked w σ.clock) hmt (List.Subset.refl _) rfl ?_
    have hx := (hworker w).mono (fun _ _ hd => hd) (fun _ _ hd => hd) hmt
    exact ⟨hx.n, hx.given, hx.follows, hx.stands.congr rfl rfl, hx.answer⟩
  | timeadd k c hc =>
    exact h.same hk (Coordinator.kept_booked.fire h.booked hc) ((Coordinator.kept_mtnum _).fire le_rfl hc) rfl rfl
  | watch cleanup _ _ =>
    exact h.same hk (Coordinator.kept_booked.watchWorkers h.booked _) le_rfl rfl rfl
  | list _ => exact h.same hk h.booked le_rfl rfl rfl
  | remove f names _ => exact h.same hk h.booked le_rfl rfl rfl
  | tick d => exact h.same hk h.booked le_rfl rfl rfl

theorem calling_of_handle {w : Nat} (hs : σ.step app (.handle w) = some σ') : (σ.worker w).main = .calling := by
  simp only [MrSystem.step, Option.ite_none_right_eq_some] at hs
  exact hs.1.2

/-- A report of a task that is running is true: in the map phase the worker has
written all intermediate files of the task, in the reduce phase its output. -/
theorem Loyal.report (h : σ.Loyal app files nReduce Known) (hne : [] ∉ files) {w : Nat}
    (hmain : (σ.worker w).main = .calling) (hone : σ.c.book (σ.worker w).args = some 1) :
    (σ.c.mtnum < files.length → (σ.worker w).args ∈ files ∧ ∃ content, Known (σ.worker w).args content ∧
      ∀ j < nReduce.toNat, σ.Did w (mapResult (files.idxOf (σ.worker w).args) j)
        (App.encode (App.bucket nReduce.toNat j (app.mapf (σ.worker w).args content)))) ∧
    (files.length ≤ σ.c.mtnum → ∃ i < nReduce.toNat, (σ.worker w).args = reduceKey i ∧
      (σ.worker w).reply.t = .reduce ∧ (σ.worker w).reply.addr = reduceKey i ∧
      ∃ text, σ.Did w (mrOut (σ.worker w).reply.index) text) := by
  have hw := h.worker w
  have hstands := hw.stands
  rw [hmain] at hstands
  rcases hstands with hnil | ⟨ht, hargs, content, writes, hknown, hwrites, hdid⟩ | ⟨ht, hargs, text, hdid⟩
  · -- nothing is booked under the empty string
    rw [hnil] at hone
    constructor
    · exact fun hmap => absurd (h.booked.mapOnly hmap [] 1 hone (by decide)) hne
    · intro hred
      obtain ⟨i, -, hi⟩ := h.booked.reduceOnly hred [] hone
      exact absurd hi.symm (reduceKey_ne_nil i)
  · have hgiven := hw.follows.t.symm.trans ht
    obtain ⟨hn, haddr, hidx⟩ := hw.follows.map hgiven
    obtain ⟨hmem, hindex, hnew⟩ := hw.given.map hgiven
    rw [hargs, haddr] at hone ⊢
    refine ⟨fun _ => ⟨hmem, content, haddr ▸ hknown, fun j hj => ?_⟩, fun hred => ?_⟩
    · rw [app.mapWrites_eq _ (by rw [hn, hnew]; omega), Option.some.injEq, hn, hnew, hidx, hindex, haddr] at hwrites
      refine hdid (mapResult _ j, App.encode _) ?_
      rw [← hwrites]
      exact List.mem_map.mpr ⟨j, List.mem_range.mpr hj, rfl⟩
    · rw [h.booked.all_two hred _ hmem] at hone
      cases hone
  · have hgiven := hw.follows.t.symm.trans ht
    obtain ⟨hphase, hi, hkey⟩ := hw.given.reduce hgiven
    have haddr := hw.follows.reduce hgiven
    refine ⟨fun hmap => absurd hphase (not_le.mpr hmap), fun _ => ⟨(σ.worker w).given.index, hi, ?_, ht, ?_, text, hdid⟩⟩
    · rw [hargs, haddr, hkey]
    · rw [haddr, hkey]

/-! ## The index of a reduce task -/

def IndexFollows (σ : MrSystem) : Prop :=
  ∀ w, (σ.worker w).given.t = .reduce → (σ.worker w).reply.index = (σ.worker w).given.index

theorem IndexFollows.update (h : σ.IndexFollows) {w : Nat} {x : Worker} (hx : σ'.worker = Function.update σ.worker w x)
    (hw : x.given.t = .reduce → x.reply.index = x.given.index) : σ'.IndexFollows := by
  rw [IndexFollows, hx,
    Function.forall_update_iff σ.worker fun _ x => x.given.t = .reduce → x.reply.index = x.given.index]
  exact ⟨hw, fun w' _ => h w'⟩

theorem IndexFollows.step (h : σ.IndexFollows) {a : MrAct} (hfresh : σ.FreshReduce a) (hs : σ.step app a = some σ') :
    σ'.IndexFollows := by
  cases step_steps hs with
  | inner w a x hm =>
    refine h.update rfl ?_
    cases hm with
    | rest _ _ hreply hgiven _ =>
      rw [hreply, hgiven]
      exact h w
    | deliver new hmain =>
      intro ht
      show (if new.index = 0 then (σ.worker w).reply.index else new.index) = new.index
      split
      · rename_i h0
        rw [h0]
        exact hfresh (σ.worker w, new) (by simp only [delivers, hmain, Option.mem_def]) ht h0
      · rfl
    | _ => exact h w
  | rename w _ _ _ _ => exact h.update rfl (h w)
  | output w _ _ => exact h.update rfl (h w)
  | handle w _ => exact h.update rfl (h w)
  | heartbeat w _ => exact h.update rfl (h w)
  | _ => exact h

end MrSystem

/-! ## Runs -/

def Seen {app : App} {files : List GoString} {nReduce : Int} {dir : Dir} (r : MrRun app files nReduce dir) (k : Nat)
    (f content : GoString) : Prop := ∃ k' ≤ k, (r.state k').dir.get? f = some content

section
variable {app : App} {files : List GoString} {nReduce : Int} {dir : Dir} (r : MrRun app files nReduce dir)

theorem run_loyal (hne : [] ∉ files) (hr : r.Meets MrSystem.FreshMap) (k : Nat) :
    (r.state k).Loyal app files nReduce (Seen r k) := by
  have hseen : ∀ k f text, Seen r k f text → Seen r (k + 1) f text :=
    fun k f text ⟨k', hk', hget⟩ => ⟨k', by omega, hget⟩
  refine r.induction (P := fun k σ => σ.Loyal app files nReduce (Seen r k)) (MrSystem.loyal_init dir) ?_ ?_ k
  · intro k _ h
    exact h.same (hseen k) h.booked le_rfl rfl rfl
  · intro k a ha h hs
    exact h.step hne (hseen k) (fun f _ content hget => ⟨k, by omega, hget⟩) (hr k a ha) hs

/-- When no answer has a zero where the worker has an older number, workers do the
task they were given, and a task that the coordinator marks as done has been done
by the worker that reports it. -/
theorem worker_does_given_task (hne : [] ∉ files) (hr : r.Meets fun σ a => σ.FreshMap a ∧ σ.FreshReduce a) (k w : Nat) :
    (((r.state k).worker w).main.inMaptask = true → ((r.state k).worker w).given.t = .map ∧
      ((r.state k).worker w).reply.t = .map ∧ ((r.state k).worker w).reply.n = ((r.state k).worker w).given.n ∧
      ((r.state k).worker w).reply.addr = ((r.state k).worker w).given.addr ∧
      ((r.state k).worker w).reply.mapIndex = ((r.state k).worker w).given.mapIndex) ∧
    (((r.state k).worker w).main.inReducetask = true → ((r.state k).worker w).given.t = .reduce ∧
      ((r.state k).worker w).reply.t = .reduce ∧
      ((r.state k).worker w).reply.addr = ((r.state k).worker w).given.addr ∧
      ((r.state k).worker w).reply.index = ((r.state k).worker w).given.index) ∧
    (r.act k = some (.handle w) → ∀ addr, ((r.state k).worker w).args = addr → (r.state k).c.book addr = some 1 →
      ((r.state k).c.mtnum < files.length → addr ∈ files ∧ ∃ content, Seen r k addr content ∧
        ∀ j < nReduce.toNat, (r.state k).Did w (mapResult (files.idxOf addr) j)
          (App.encode (App.bucket nReduce.toNat j (app.mapf addr content)))) ∧
      (files.length ≤ (r.state k).c.mtnum → ∃ i < nReduce.toNat, addr = reduceKey i ∧
        ∃ text, (r.state k).Did w (mrOut i) text)) := by
  have hloyal := run_loyal r hne (fun k a ha => (hr k a ha).1) k
  have hindex : (r.state k).IndexFollows := r.invariant hr (P := MrSystem.IndexFollows) (fun w ht => by cases ht)
    (fun σ a σ' h hc hs => h.step hc.2 hs) k
  have hw := hloyal.worker w
  refine ⟨fun hin => ?_, fun hin => ?_, fun ha addr haddr hone => ?_⟩
  · have ht := hw.stands.map_of_in hin
    have hgiven := hw.follows.t.symm.trans ht
    exact ⟨hgiven, ht, hw.follows.map hgiven⟩
  · have ht := hw.stands.reduce_of_in hin
    have hgiven := hw.follows.t.symm.trans ht
    exact ⟨hgiven, ht, hw.follows.reduce hgiven, hindex w hgiven⟩
  · have hmain := MrSystem.calling_of_handle (r.next_some ha)
    subst haddr
    obtain ⟨hmap, hreduce⟩ := hloyal.report hne hmain hone
    refine ⟨hmap, fun hphase => ?_⟩
    obtain ⟨i, hi, haddr, ht, hkey, hdid⟩ := hreduce hphase
    have hgiven := hw.follows.t.symm.trans ht
    -- the key that is reported is that of the index the worker used
    have hsame : ((r.state k).worker w).reply.index = i := by
      rw [hindex w hgiven]
      refine reduceKey_injective ?_
      rw [← (hw.given.reduce hgiven).2.2, ← hw.follows.reduce hgiven, hkey]
    rw [hsame] at hdid
    exact ⟨i, hi, haddr, hdid⟩

end

/-! ## Two workers -/

def asks (w : Nat) : List MrAct := [.inner w .loop, .handle w, .inner w .deliver]

def reports (w : Nat) : List MrAct := [.handle w, .inner w .deliver]

def bothMap : List MrAct :=
  asks 0 ++ asks 1 ++ [.inner 0 .loop] ++ mapSteps 0 1 ++ reports 0 ++ [.inner 1 .loop] ++ mapSteps 1 1 ++ reports 1

theorem bothMap_exec : (exec (MrSystem.step App.wordCount) (MrSystem.init [bytes "a", bytes "b"] 1 App.twoTexts)
    bothMap).isSome = true := by decide +kernel

def twoWorkers : MrRun App.wordCount [bytes "a", bytes "b"] 1 App.twoTexts :=
  Run.ofList bothMap (Option.some_get bothMap_exec).symm

theorem twoWorkers_do_tasks : (twoWorkers.state 16).c.book (bytes "b") = some 1 ∧
    (twoWorkers.state 17).c.book (bytes "b") = some 2 ∧
    ∃ content, Seen twoWorkers 16 (bytes "b") content ∧ ∀ j < (1 : Int).toNat,
      (twoWorkers.state 16).Did 1 (mapResult ([bytes "a", bytes "b"].idxOf (bytes "b")) j)
        (App.encode (App.bucket (1 : Int).toNat j (App.wordCount.mapf (bytes "b") content))) := by
  have hone : (twoWorkers.state 16).c.book (bytes "b") = some 1 := by decide +kernel
  have hdid := ((worker_does_given_task twoWorkers (by decide +kernel) (Run.meets_ofList _ (by decide +kernel)) 16 1).2.2
    rfl (bytes "b") (by decide +kernel) hone).1 (by decide +kernel)
  exact ⟨hone, by decide +kernel, hdid.2⟩

/-- Worker 0 is slow with the first file, and worker 1 gets it after the second. -/
def firstAfterSecond : List MrAct :=
  asks 0 ++ asks 1 ++ [.inner 1 .loop] ++ mapSteps 1 1 ++ [.timeadd 0] ++ reports 1 ++ [.inner 1 .loop] ++
    mapSteps 1 1 ++ reports 1

theorem firstAfterSecond_exec : (exec (MrSystem.step App.wordCount)
    (MrSystem.init [bytes "a", bytes "b"] 1 App.twoTexts) firstAfterSecond).isSome = true := by decide +kernel

def slowFirst : MrRun App.wordCount [bytes "a", bytes "b"] 1 App.twoTexts :=
  Run.ofList firstAfterSecond (Option.some_get firstAfterSecond_exec).symm

/-- Worker 1 runs the first map task with the number of the second. The first file
counts as done, nobody has written its results, and those of the second file are
overwritten. -/
theorem slowFirst_wrong_task : ((slowFirst.state 14).worker 1).main = .opening ∧
    ((slowFirst.state 14).worker 1).given = ⟨.map, 1, bytes "a", 0, 0⟩ ∧
    ((slowFirst.state 14).worker 1).reply = ⟨.map, 1, bytes "a", 0, 1⟩ ∧
    slowFirst.act 17 = some (.handle 1) ∧ (slowFirst.state 17).c.book (bytes "a") = some 1 ∧
    (slowFirst.state 18).c.book (bytes "a") = some 2 ∧ (∀ e ∈ (slowFirst.state 18).written, e.name ≠ mapResult 0 0) ∧
    (slowFirst.state 18).dir.get? (mapResult 1 0) = some (App.encode (App.wordCount.mapped App.twoTexts (bytes "a"))) := by
  exact ⟨by decide +kernel, by decide +kernel, by decide +kernel, by decide +kernel, by decide +kernel,
    by decide +kernel, by decide +kernel, by decide +kernel⟩

end DistLab
