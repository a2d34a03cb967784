import DistLab.Lib.Runs
import DistLab.Mr.Task

/-!
# The MapReduce coordinator

The coordinator books every input file and every reduce task under a string key,
with 0 for idle, 1 for running and 2 for done. Every call reports a task and asks
for another one; a goroutine for each task handed out puts it back to idle when
it takes too long.
-/

namespace DistLab

structure Coordinator where
  mf : List GoString
  book : GoString → Option Nat
  r : Int
  mtnum : Nat
  rtnum : Nat
  /-- `lastSeen` by worker id, in nanoseconds -/
  workers : GoMap Nat Nat
  done : Bool
  /-- the goroutines that sleep in `timeadd` -/
  timers : List GoString

namespace Coordinator

def make (files : List GoString) (nReduce : Int) : Coordinator where
  mf := files
  book := ((List.range nReduce.toNat).map reduceKey).foldl (fun book key => Function.update book key (some 0))
    (files.foldl (fun book v => Function.update book v (some 0)) fun _ => none)
  r := nReduce
  mtnum := 0
  rtnum := 0
  workers := GoMap.empty
  done := false
  timers := []

variable (c : Coordinator)

def status (key : GoString) : Nat := (c.book key).getD 0

def setBook (key : GoString) (v : Nat) : Coordinator := { c with book := Function.update c.book key (some v) }

def assign (key : GoString) : Coordinator := { c.setBook key 1 with timers := c.timers ++ [key] }

/-! ## Handing out tasks -/

def reportMap (addr : GoString) : Coordinator :=
  if c.book addr = some 1 then { c.setBook addr 2 with mtnum := c.mtnum + 1 } else c

def assignMap : Coordinator × Reply :=
  if c.mtnum = c.mf.length then (c, { Reply.zero with t := .wait })
  else
    match c.mf.zipIdx.find? fun p => c.status p.1 = 0 with
    | some (addr, i) => (c.assign addr, { Reply.zero with t := .map, n := c.r, addr, mapIndex := i })
    | none => (c, { Reply.zero with t := .wait })

def maptask (addr : GoString) : Coordinator × Reply := (c.reportMap addr).assignMap

def reportReduce (addr : GoString) : Coordinator :=
  if c.book addr = some 1 then { c.setBook addr 2 with rtnum := c.rtnum + 1 } else c

def assignReduce : Coordinator × Reply :=
  if c.rtnum = c.r then ({ c with done := true }, { Reply.zero with t := .exit })
  else
    match (List.range c.r.toNat).find? fun i => c.status (reduceKey i) = 0 with
    | some i => (c.assign (reduceKey i), { Reply.zero with t := .reduce, index := i, addr := reduceKey i })
    | none => (c, { Reply.zero with t := .wait })

def reducetask (addr : GoString) : Coordinator × Reply := (c.reportReduce addr).assignReduce

def coordinatorHandler (addr : GoString) : Coordinator × Reply :=
  if c.mtnum < c.mf.length then c.maptask addr else c.reducetask addr

def timeadd (key : GoString) : Coordinator := if c.status key = 1 then c.setBook key 0 else c

def fire (k : Nat) : Option Coordinator :=
  match c.timers[k]? with
  | some key => some ({ c with timers := c.timers.eraseIdx k }.timeadd key)
  | none => none

/-! ## Workers that are alive -/

def heartbeat (id now : Nat) : Coordinator × Bool :=
  if c.done then ({ c with workers := c.workers.delete id }, true)
  else ({ c with workers := c.workers.insert id now }, false)

/-- `15*time.Second` -/
def silence : Nat := 15 * 10 ^ 9

/-- One round of `watchWorkers`; it ends with `cleanup` when the flag is set. -/
def watchWorkers (now : Nat) : Coordinator × Bool :=
  let workers := ((c.workers.entries.filter fun e => now - e.2 > silence).map Prod.fst).foldl GoMap.delete c.workers
  ({ c with workers }, c.done && workers.size == 0)

end Coordinator

/-! ## What a call can do -/

structure Coordinator.Kept (P : Coordinator → Prop) : Prop where
  reportMap : ∀ c addr, P c → c.mtnum < c.mf.length → c.book addr = some 1 →
    P { c.setBook addr 2 with mtnum := c.mtnum + 1 }
  assignMap : ∀ c addr, P c → c.mtnum < c.mf.length → addr ∈ c.mf → c.status addr = 0 → P (c.assign addr)
  reportReduce : ∀ c addr, P c → c.mf.length ≤ c.mtnum → c.book addr = some 1 →
    P { c.setBook addr 2 with rtnum := c.rtnum + 1 }
  assignReduce : ∀ c i, P c → c.mf.length ≤ c.mtnum → i < c.r.toNat → c.status (reduceKey i) = 0 →
    P (c.assign (reduceKey i))
  finish : ∀ c, P c → c.mf.length ≤ c.mtnum → (c.rtnum : Int) = c.r → P { c with done := true }
  timeadd : ∀ c key, P c → c.status key = 1 → P (c.setBook key 0)
  other : ∀ c timers workers, P c → P { c with timers, workers }

namespace Coordinator

variable {c : Coordinator}

@[simp] theorem setBook_self (c : Coordinator) (key : GoString) (v : Nat) : (c.setBook key v).book key = some v :=
  Function.update_self ..

theorem setBook_of_ne {key key' : GoString} (h : key' ≠ key) (v : Nat) : (c.setBook key v).book key' = c.book key' :=
  Function.update_of_ne h ..

theorem reportMap_cases (c : Coordinator) (addr : GoString) :
    (c.book addr = some 1 ∧ c.reportMap addr = { c.setBook addr 2 with mtnum := c.mtnum + 1 }) ∨
      (c.book addr ≠ some 1 ∧ c.reportMap addr = c) := by
  unfold reportMap
  split
  · exact Or.inl ⟨‹_›, rfl⟩
  · exact Or.inr ⟨‹_›, rfl⟩

theorem reportReduce_cases (c : Coordinator) (addr : GoString) :
    (c.book addr = some 1 ∧ c.reportReduce addr = { c.setBook addr 2 with rtnum := c.rtnum + 1 }) ∨
      (c.book addr ≠ some 1 ∧ c.reportReduce addr = c) := by
  unfold reportReduce
  split
  · exact Or.inl ⟨‹_›, rfl⟩
  · exact Or.inr ⟨‹_›, rfl⟩

/-- The loop over the files stops at the first idle one, which is the first of its
name. -/
theorem idxOf_of_find {addr : GoString} {i : Nat} (h : (c.mf.zipIdx.find? fun p => c.status p.1 = 0) = some (addr, i)) :
    addr ∈ c.mf ∧ c.mf.idxOf addr = i ∧ c.status addr = 0 := by
  rw [List.find?_eq_some_iff_getElem] at h
  obtain ⟨hidle, k, hk, heq, hbefore⟩ := h
  simp only [List.getElem_zipIdx, Nat.zero_add, Prod.mk.injEq] at heq
  obtain ⟨rfl, rfl⟩ := heq
  have hlen : k < c.mf.length := by simpa using hk
  refine ⟨List.getElem_mem _, (List.findIdx_eq hlen).mpr ⟨by simp, fun j hj => ?_⟩, of_decide_eq_true hidle⟩
  have hbusy := hbefore j hj
  simp only [List.getElem_zipIdx, Bool.not_eq_true', decide_eq_false_iff_not] at hbusy
  simp only [beq_eq_false_iff_ne]
  intro heq
  rw [heq] at hbusy
  exact hbusy (of_decide_eq_true hidle)

theorem assignMap_cases (c : Coordinator) :
    c.assignMap = (c, { Reply.zero with t := .wait }) ∨
      ∃ addr, c.mtnum ≠ c.mf.length ∧ addr ∈ c.mf ∧ c.status addr = 0 ∧ c.assignMap =
        (c.assign addr, { Reply.zero with t := .map, n := c.r, addr, mapIndex := c.mf.idxOf addr }) := by
  unfold assignMap
  split
  · exact Or.inl rfl
  · split
    · rename_i hne _ addr i hfind
      obtain ⟨hmem, rfl, hidle⟩ := idxOf_of_find hfind
      exact Or.inr ⟨addr, hne, hmem, hidle, rfl⟩
    · exact Or.inl rfl

theorem assignReduce_cases (c : Coordinator) :
    c.assignReduce = (c, { Reply.zero with t := .wait }) ∨
      ((c.rtnum : Int) = c.r ∧ c.assignReduce = ({ c with done := true }, { Reply.zero with t := .exit })) ∨
      ∃ i < c.r.toNat, c.status (reduceKey i) = 0 ∧ c.assignReduce =
        (c.assign (reduceKey i), { Reply.zero with t := .reduce, index := i, addr := reduceKey i }) := by
  unfold assignReduce
  split
  · exact Or.inr (Or.inl ⟨‹_›, rfl⟩)
  · split
    · rename_i i hfind
      have hidle := List.find?_some hfind
      exact Or.inr (Or.inr ⟨i, List.mem_range.mp (List.mem_of_find?_eq_some hfind), of_decide_eq_true hidle, rfl⟩)
    · exact Or.inl rfl

variable {P : Coordinator → Prop} (hP : Kept P)
include hP

theorem Kept.coordinatorHandler (h : P c) (addr : GoString) : P (c.coordinatorHandler addr).1 := by
  unfold Coordinator.coordinatorHandler
  split
  · rename_i hmap
    have hreport : P (c.reportMap addr) ∧ (c.reportMap addr).mtnum ≤ (c.reportMap addr).mf.length := by
      rcases c.reportMap_cases addr with ⟨hone, heq⟩ | ⟨-, heq⟩
      · rw [heq]
        exact ⟨hP.reportMap c addr h hmap hone, hmap⟩
      · rw [heq]
        exact ⟨h, hmap.le⟩
    rw [maptask]
    rcases (c.reportMap addr).assignMap_cases with heq | ⟨key, hne, hmem, hidle, heq⟩
    · rw [heq]
      exact hreport.1
    · rw [heq]
      exact hP.assignMap _ key hreport.1 (Nat.lt_of_le_of_ne hreport.2 hne) hmem hidle
  · rename_i hreduce
    rw [Nat.not_lt] at hreduce
    have hreport : P (c.reportReduce addr) ∧ (c.reportReduce addr).mf.length ≤ (c.reportReduce addr).mtnum := by
      rcases c.reportReduce_cases addr with ⟨hone, heq⟩ | ⟨-, heq⟩
      · rw [heq]
        exact ⟨hP.reportReduce c addr h hreduce hone, hreduce⟩
      · rw [heq]
        exact ⟨h, hreduce⟩
    rw [reducetask]
    rcases (c.reportReduce addr).assignReduce_cases with heq | ⟨hall, heq⟩ | ⟨i, hi, hidle, heq⟩
    · rw [heq]
      exact hreport.1
    · rw [heq]
      exact hP.finish _ hreport.1 hreport.2 hall
    · rw [heq]
      exact hP.assignReduce _ i hreport.1 hreport.2 hi hidle

theorem Kept.fire (h : P c) {k : Nat} {c' : Coordinator} (hc : c.fire k = some c') : P c' := by
  unfold Coordinator.fire at hc
  split at hc
  · rename_i key hkey
    cases hc
    have hrest := hP.other c (c.timers.eraseIdx k) c.workers h
    unfold Coordinator.timeadd
    split
    · exact hP.timeadd _ key hrest ‹_›
    · exact hrest
  · cases hc

theorem Kept.heartbeat (h : P c) (id now : Nat) : P (c.heartbeat id now).1 := by
  unfold Coordinator.heartbeat
  split
  · exact hP.other c c.timers _ h
  · exact hP.other c c.timers _ h

theorem Kept.watchWorkers (h : P c) (now : Nat) : P (c.watchWorkers now).1 := hP.other c c.timers _ h

end Coordinator

/-! ## Runs of the coordinator -/

inductive CoordinatorAct
  /-- a call that reports `addr`, which need not be a task -/
  | handle (addr : GoString)
  | timeadd (k : Nat)
deriving DecidableEq, Repr

def Coordinator.step (c : Coordinator) : CoordinatorAct → Option Coordinator
  | .handle addr => some (c.coordinatorHandler addr).1
  | .timeadd k => c.fire k

theorem Coordinator.Kept.step {P : Coordinator → Prop} (hP : Kept P) {c c' : Coordinator} (h : P c) {a : CoordinatorAct}
    (hc : c.step a = some c') : P c' := by
  cases a with
  | handle addr =>
    cases hc
    exact hP.coordinatorHandler h addr
  | timeadd k => exact hP.fire h hc

end DistLab
