import DistLab.Mr.Coordinator
import Mathlib.Data.List.Dedup

/-!
# The two phases

While map tasks are open only input files are running or done, and `mtnum` counts
those that are done. So the reduce phase begins when all of them are; from then
on only reduce tasks are running, and `rtnum` counts them.
-/

namespace DistLab

/-! ## Counting -/

section
variable {α : Type*} [DecidableEq α] {f : α → Option Nat} {a : α} {l : List α}

theorem countP_update_of_not_mem (h : a ∉ l) (v w : Option Nat) :
    l.countP (fun x => Function.update f a v x = w) = l.countP fun x => f x = w := by
  refine List.countP_congr fun x hx => ?_
  have hne : x ≠ a := by
    rintro rfl
    exact h hx
  rw [Function.update_of_ne hne]

theorem countP_update_of_mem (hl : l.Nodup) (h : a ∈ l) {w : Option Nat} (hf : f a ≠ w) :
    l.countP (fun x => Function.update f a w x = w) = (l.countP fun x => f x = w) + 1 := by
  induction l with
  | nil => cases h
  | cons x l ih =>
    obtain ⟨hx, hl⟩ := List.nodup_cons.mp hl
    by_cases hxa : x = a
    · subst hxa
      simp [countP_update_of_not_mem hx, hf]
    · have hmem := (List.mem_cons.mp h).resolve_left (Ne.symm hxa)
      simp only [List.countP_cons, ih hl hmem, Function.update_of_ne hxa]
      omega

theorem countP_update_of_ne {v w : Option Nat} (hf : f a ≠ w) (hv : v ≠ w) :
    l.countP (fun x => Function.update f a v x = w) = l.countP fun x => f x = w := by
  refine List.countP_congr fun x _ => ?_
  by_cases hxa : x = a
  · subst hxa
    simp [hf, hv]
  · rw [Function.update_of_ne hxa]

end

namespace Coordinator

variable {c : Coordinator} {key key' : GoString}

/-! ## One entry of the book -/

theorem book_of_running (h : c.status key = 1) : c.book key = some 1 := by
  unfold status at h
  cases hb : c.book key with
  | none =>
    rw [hb] at h
    cases h
  | some v =>
    rw [hb] at h
    exact congrArg some h

theorem ne_two_of_idle (h : c.status key = 0) : c.book key ≠ some 2 := by
  intro hb
  rw [status, hb] at h
  cases h

theorem ne_two_of_one (h : c.book key = some 1) : c.book key ≠ some 2 := by
  rw [h]
  decide

theorem setBook_two (h : c.book key = some 2) (h' : c.book key' ≠ some 2) (v : Nat) :
    (c.setBook key' v).book key = some 2 := by
  rw [setBook_of_ne, h]
  rintro rfl
  exact h' h

theorem setBook_cases {v w : Nat} (h : (c.setBook key' v).book key = some w) :
    (key = key' ∧ w = v) ∨ (key ≠ key' ∧ c.book key = some w) := by
  by_cases hk : key = key'
  · subst hk
    rw [setBook_self, Option.some.injEq] at h
    exact Or.inl ⟨rfl, h.symm⟩
  · rw [setBook_of_ne hk] at h
    exact Or.inr ⟨hk, h⟩

theorem kept_two (key : GoString) : Kept fun c => c.book key = some 2 where
  reportMap _ _ h _ hone := setBook_two h (ne_two_of_one hone) 2
  assignMap _ _ h _ _ hidle := setBook_two h (ne_two_of_idle hidle) 1
  reportReduce _ _ h _ hone := setBook_two h (ne_two_of_one hone) 2
  assignReduce _ _ h _ _ hidle := setBook_two h (ne_two_of_idle hidle) 1
  finish _ h _ _ := h
  timeadd _ _ h hone := setBook_two h (ne_two_of_one (book_of_running hone)) 0
  other _ _ _ h := h

/-! ## The phases -/

section
variable (files : List GoString) (nReduce : Int)

structure Booked (c : Coordinator) : Prop where
  mf : c.mf = files
  r : c.r = nReduce
  count : c.mtnum = files.dedup.countP fun f => c.book f = some 2
  mapOnly : c.mtnum < files.length → ∀ key v, c.book key = some v → v ≠ 0 → key ∈ files
  reduceOnly : files.length ≤ c.mtnum → ∀ key, c.book key = some 1 → ∃ i < nReduce.toNat, key = reduceKey i

end

section
variable {files : List GoString} {nReduce : Int}

theorem all_two_of_count {book : GoString → Option Nat}
    (h : files.length ≤ files.dedup.countP fun f => book f = some 2) : ∀ f ∈ files, book f = some 2 := by
  have hle : files.dedup.length ≤ files.length := (List.dedup_sublist files).length_le
  have hcount := List.countP_le_length (p := fun f => decide (book f = some 2)) (l := files.dedup)
  have hall := List.countP_eq_length.mp (le_antisymm hcount (hle.trans h))
  intro f hf
  exact of_decide_eq_true (hall f (List.mem_dedup.mpr hf))

/-- The reduce phase begins when all files are done. -/
theorem Booked.all_two (h : c.Booked files nReduce) (hr : files.length ≤ c.mtnum) : ∀ f ∈ files, c.book f = some 2 :=
  all_two_of_count (h.count ▸ hr)

theorem foldl_idle {keys : List GoString} {book : GoString → Option Nat} (h : ∀ key v, book key = some v → v = 0) :
    ∀ key v, keys.foldl (fun book key => Function.update book key (some 0)) book key = some v → v = 0 := by
  induction keys generalizing book with
  | nil => exact h
  | cons k keys ih =>
    refine ih fun key v hv => ?_
    by_cases hk : key = k
    · subst hk
      simp only [Function.update_self, Option.some.injEq] at hv
      exact hv.symm
    · simp only [Function.update_of_ne hk] at hv
      exact h key v hv

theorem make_idle {v : Nat} (h : (make files nReduce).book key = some v) : v = 0 :=
  foldl_idle (foldl_idle fun _ _ h => by cases h) key v h

theorem booked_make : (make files nReduce).Booked files nReduce := by
  refine ⟨rfl, rfl, ?_, fun _ key v hv hne => absurd (make_idle hv) hne, fun _ key hone => ?_⟩
  · refine (List.countP_eq_zero.mpr fun f _ htwo => ?_).symm
    cases make_idle (of_decide_eq_true htwo)
  · cases make_idle hone

theorem kept_booked : Kept (Booked files nReduce) where
  reportMap c addr h hmap hone := by
    rw [h.mf] at hmap
    have hmem := h.mapOnly hmap addr 1 hone (by decide)
    have hcount : c.mtnum + 1 = files.dedup.countP fun f => (c.setBook addr 2).book f = some 2 := by
      rw [h.count]
      exact (countP_update_of_mem (List.nodup_dedup files) (List.mem_dedup.mpr hmem) (ne_two_of_one hone)).symm
    refine ⟨h.mf, h.r, hcount, fun hlt key v hv hne => ?_, fun hle key hkey => ?_⟩
    · rcases setBook_cases hv with ⟨rfl, -⟩ | ⟨-, hv⟩
      · exact hmem
      · exact h.mapOnly hmap key v hv hne
    · -- the last map task is done, so nothing is running
      rcases setBook_cases hkey with ⟨-, h12⟩ | ⟨hne, hold⟩
      · cases h12
      · have htwo := all_two_of_count (hcount ▸ hle) key (h.mapOnly hmap key 1 hold (by decide))
        rw [setBook_of_ne hne, hold] at htwo
        cases htwo
  assignMap c addr h hmap hmem hidle := by
    rw [h.mf] at hmap hmem
    refine ⟨h.mf, h.r, ?_, fun _ key v hv hne => ?_, fun hle => absurd hmap (not_lt.mpr hle)⟩
    · rw [show (c.assign addr).mtnum = c.mtnum from rfl, h.count]
      exact (countP_update_of_ne (ne_two_of_idle hidle) (by decide)).symm
    · rcases setBook_cases hv with ⟨rfl, -⟩ | ⟨-, hv⟩
      · exact hmem
      · exact h.mapOnly hmap key v hv hne
  reportReduce c addr h hred hone := by
    rw [h.mf] at hred
    have hnot : addr ∉ files := by
      intro hmem
      rw [h.all_two hred addr hmem] at hone
      cases hone
    refine ⟨h.mf, h.r, ?_, fun hlt => absurd hlt (not_lt.mpr hred), fun _ key hkey => ?_⟩
    · show c.mtnum = _
      rw [h.count]
      exact (countP_update_of_not_mem (mt List.mem_dedup.mp hnot) _ _).symm
    · rcases setBook_cases hkey with ⟨-, h12⟩ | ⟨-, hold⟩
      · cases h12
      · exact h.reduceOnly hred key hold
  assignReduce c i h hred hi hidle := by
    rw [h.mf] at hred
    rw [h.r] at hi
    refine ⟨h.mf, h.r, ?_, fun hlt => absurd hlt (not_lt.mpr hred), fun _ key hkey => ?_⟩
    · show c.mtnum = _
      rw [h.count]
      exact (countP_update_of_ne (ne_two_of_idle hidle) (by decide)).symm
    · rcases setBook_cases hkey with ⟨rfl, -⟩ | ⟨-, hold⟩
      · exact ⟨i, hi, rfl⟩
      · exact h.reduceOnly hred key hold
  finish c h _ _ := ⟨h.mf, h.r, h.count, h.mapOnly, h.reduceOnly⟩
  timeadd c key h hone := by
    refine ⟨h.mf, h.r, ?_, fun hlt key' v hv hne => ?_, fun hle key' hkey => ?_⟩
    · show c.mtnum = _
      rw [h.count]
      exact (countP_update_of_ne (ne_two_of_one (book_of_running hone)) (by decide)).symm
    · rcases setBook_cases hv with ⟨-, h0⟩ | ⟨-, hv⟩
      · exact absurd h0 hne
      · exact h.mapOnly hlt key' v hv hne
    · rcases setBook_cases hkey with ⟨-, h10⟩ | ⟨-, hold⟩
      · cases h10
      · exact h.reduceOnly hle key' hold
  other c _ _ h := ⟨h.mf, h.r, h.count, h.mapOnly, h.reduceOnly⟩

theorem handler_reduce {addr : GoString} (h : (c.coordinatorHandler addr).2.t = .reduce) : c.mf.length ≤ c.mtnum := by
  unfold coordinatorHandler at h
  split at h
  · rw [maptask] at h
    rcases (c.reportMap addr).assignMap_cases with heq | ⟨_, -, -, -, heq⟩
    · rw [heq] at h
      cases h
    · rw [heq] at h
      cases h
  · exact not_lt.mp ‹_›

/-! ## Counting reduce tasks -/

variable (files nReduce) in
structure Tallied (c : Coordinator) : Prop extends c.Booked files nReduce where
  tally : c.rtnum = ((List.range nReduce.toNat).map reduceKey).countP fun key => c.book key = some 2
  finished : c.done = true → ∀ i < nReduce.toNat, c.book (reduceKey i) = some 2

theorem nodup_reduceKeys (n : Nat) : ((List.range n).map reduceKey).Nodup := List.nodup_range.map reduceKey_injective

theorem mem_reduceKeys {n : Nat} : key ∈ (List.range n).map reduceKey ↔ ∃ i < n, key = reduceKey i := by
  simp [eq_comm]

theorem tallied_make : (make files nReduce).Tallied files nReduce := by
  refine ⟨booked_make, ?_, fun h => by cases h⟩
  refine (List.countP_eq_zero.mpr fun key _ htwo => ?_).symm
  cases make_idle (of_decide_eq_true htwo)

theorem kept_tallied (hname : ∀ f ∈ files, ∀ i, f ≠ reduceKey i) : Kept (Tallied files nReduce) where
  reportMap c addr h hmap hone := by
    refine ⟨kept_booked.reportMap c addr h.toBooked hmap hone, ?_, fun hd i hi => ?_⟩
    · have hmem := h.mapOnly (h.mf ▸ hmap) addr 1 hone (by decide)
      have hnot : addr ∉ (List.range nReduce.toNat).map reduceKey := by
        rw [mem_reduceKeys]
        rintro ⟨i, -, rfl⟩
        exact hname _ hmem i rfl
      show c.rtnum = _
      rw [h.tally]
      exact (countP_update_of_not_mem hnot _ _).symm
    · exact setBook_two (h.finished hd i hi) (ne_two_of_one hone) 2
  assignMap c addr h hmap hmem hidle := by
    refine ⟨kept_booked.assignMap c addr h.toBooked hmap hmem hidle, ?_, fun hd i hi => ?_⟩
    · show c.rtnum = _
      rw [h.tally]
      exact (countP_update_of_ne (ne_two_of_idle hidle) (by decide)).symm
    · exact setBook_two (h.finished hd i hi) (ne_two_of_idle hidle) 1
  reportReduce c addr h hred hone := by
    refine ⟨kept_booked.reportReduce c addr h.toBooked hred hone, ?_, fun hd i hi => ?_⟩
    · have hmem := mem_reduceKeys.mpr (h.reduceOnly (h.mf ▸ hred) addr hone)
      show c.rtnum + 1 = _
      rw [h.tally]
      exact (countP_update_of_mem (nodup_reduceKeys _) hmem (ne_two_of_one hone)).symm
    · exact setBook_two (h.finished hd i hi) (ne_two_of_one hone) 2
  assignReduce c i h hred hi hidle := by
    refine ⟨kept_booked.assignReduce c i h.toBooked hred hi hidle, ?_, fun hd i' hi' => ?_⟩
    · show c.rtnum = _
      rw [h.tally]
      exact (countP_update_of_ne (ne_two_of_idle hidle) (by decide)).symm
    · exact setBook_two (h.finished hd i' hi') (ne_two_of_idle hidle) 1
  finish c h hred hall := by
    refine ⟨kept_booked.finish c h.toBooked hred hall, h.tally, fun _ i hi => ?_⟩
    -- as many are done as there are
    have hlen : ((List.range nReduce.toNat).map reduceKey).countP (fun key => c.book key = some 2) =
        ((List.range nReduce.toNat).map reduceKey).length := by
      rw [← h.tally, List.length_map, List.length_range]
      have hr := h.r
      omega
    exact of_decide_eq_true (List.countP_eq_length.mp hlen _ (mem_reduceKeys.mpr ⟨i, hi, rfl⟩))
  timeadd c key h hone := by
    have hne := ne_two_of_one (book_of_running hone)
    refine ⟨kept_booked.timeadd c key h.toBooked hone, ?_, fun hd i hi => setBook_two (h.finished hd i hi) hne 0⟩
    show c.rtnum = _
    rw [h.tally]
    exact (countP_update_of_ne hne (by decide)).symm
  other c timers workers h := ⟨kept_booked.other c timers workers h.toBooked, h.tally, h.finished⟩

end

end Coordinator

/-! ## Runs -/

/-- Distinct files, none with the name of a reduce task: what is done stays done,
both counters are exact, reduce tasks are handed out after all map tasks are done,
and the job is done after all reduce tasks are. -/
theorem phase_barrier {files : List GoString} {nReduce : Int} (hnd : files.Nodup)
    (hname : ∀ f ∈ files, ∀ i, f ≠ reduceKey i) (r : Run Coordinator.step (Coordinator.make files nReduce)) (k : Nat) :
    (∀ key k', k ≤ k' → (r.state k).book key = some 2 → (r.state k').book key = some 2) ∧
    (r.state k).mtnum = files.countP (fun f => (r.state k).book f = some 2) ∧
    (r.state k).rtnum = (List.range nReduce.toNat).countP (fun i => (r.state k).book (reduceKey i) = some 2) ∧
    (∀ addr, ((r.state k).coordinatorHandler addr).2.t = .reduce → ∀ f ∈ files, (r.state k).book f = some 2) ∧
    ((r.state k).done = true → ∀ i < nReduce.toNat, (r.state k).book (reduceKey i) = some 2) := by
  have hinv : (r.state k).Tallied files nReduce :=
    r.invariant r.meets_true Coordinator.tallied_make (fun c a c' h _ hs => (Coordinator.kept_tallied hname).step h hs) k
  refine ⟨fun key k' hle htwo => ?_, ?_, ?_, fun addr ht => ?_, hinv.finished⟩
  · exact r.induction_from (P := fun _ c => c.book key = some 2) hle htwo (fun _ _ _ _ h => h)
      fun _ _ _ _ _ h hs => (Coordinator.kept_two key).step h hs
  · rw [hinv.count, hnd.dedup]
  · rw [hinv.tally, List.countP_map]
    rfl
  · have hphase := Coordinator.handler_reduce ht
    rw [hinv.mf] at hphase
    exact hinv.all_two hphase

def twoPhases : List CoordinatorAct :=
  [.handle [], .timeadd 0, .handle [], .handle (bytes "a"), .handle (bytes "a"), .handle (bytes "reduce-0")]

theorem timedOut_exec : (exec Coordinator.step (Coordinator.make [bytes "a"] 1) twoPhases).isSome = true := by
  decide +kernel

/-- The map task is handed out twice and reported twice. -/
def timedOut : Run Coordinator.step (Coordinator.make [bytes "a"] 1) :=
  Run.ofList twoPhases (Option.some_get timedOut_exec).symm

theorem timedOut_barrier : (timedOut.state 6).done = true ∧ (timedOut.state 6).mtnum = 1 ∧
    ∀ i < (1 : Int).toNat, (timedOut.state 6).book (reduceKey i) = some 2 := by
  have hdone : (timedOut.state 6).done = true := by decide +kernel
  refine ⟨hdone, by decide +kernel, (phase_barrier (by decide) ?_ timedOut 6).2.2.2.2 hdone⟩
  intro f hf i heq
  rw [List.mem_singleton] at hf
  have hlen := congrArg List.length (hf.symm.trans heq)
  simp only [reduceKey, List.length_append] at hlen
  have htexts : (bytes "a").length = 1 ∧ (bytes "reduce-").length = 7 := by decide +kernel
  omega

end DistLab
