import DistLab.Mr.Given
import Mathlib.Data.List.Perm.Basic

/-!
# Finished output

The output of a reduce task is right when it is made from the results of all map
tasks. They are all there from the beginning of the reduce phase until `cleanup`
removes them, so a worker that lists them in time, however slow it is, writes what
others wrote before.
-/

namespace DistLab

/-! ## What the files should hold -/

section
variable (app : App) (n : Nat) (files : List GoString) (dir₀ : Dir)

def App.intermediate (j i : Nat) : GoString := encode (bucket n i (app.mapped dir₀ (files.getD j [])))

def App.intermediatePairs (j i : Nat) : List KeyValue := (readPairs (app.intermediate n files dir₀ j i)).getD []

def App.reduction (i : Nat) : GoString :=
  app.reduceOutput ((List.range files.length).flatMap fun j => app.intermediatePairs n files dir₀ j i)

end

section
variable {app : App} {files : List GoString} {nReduce : Int} {dir₀ : Dir}

theorem App.mem_mapWrites {reply : Reply} {content : GoString} {writes : List (GoString × GoString)}
    (h : app.mapWrites reply content = some writes) {p : GoString × GoString} (hp : p ∈ writes) :
    ∃ i < reply.n.toNat, p = (mapResult reply.mapIndex i,
      encode (bucket reply.n.toNat i (app.mapf reply.addr content))) := by
  by_cases hn : 0 < reply.n
  · rw [app.mapWrites_eq reply hn, Option.some.injEq] at h
    rw [← h] at hp
    obtain ⟨i, hi, rfl⟩ := List.mem_map.mp hp
    exact ⟨i, List.mem_range.mp hi, rfl⟩
  · -- without reduce tasks there is nothing to write
    obtain ⟨tmpFiles, hfill, rfl⟩ := Option.map_eq_some_iff.mp h
    unfold fillFiles at hfill
    split at hfill
    · cases hfill
    · split at hfill
      · cases hfill
      · rename_i hneg hzero
        have hkva : app.mapf reply.addr content = [] := by
          by_contra hne
          exact hzero ⟨by omega, hne⟩
        rw [hkva, Option.some.injEq, show reply.n.toNat = 0 by omega] at hfill
        rw [← hfill] at hp
        cases hp

end

/-! ## The directory -/

def Cleanup.begun : Cleanup → Bool
  | .removing _ => true
  | _ => false

namespace MrSystem

variable (app : App) (files : List GoString) (nReduce : Int) (dir₀ : Dir)

structure Tidy (σ : MrSystem) : Prop where
  input : ∀ f ∈ files, σ.dir.get? f = dir₀.get? f
  content : ∀ name text, isIntermediate name = true → σ.dir.get? name = some text → ∃ j < files.length,
    ∃ i < nReduce.toNat, name = mapResult j i ∧ text = app.intermediate nReduce.toNat files dir₀ j i
  there : σ.cleanup.begun = false → ∀ e ∈ σ.written, (σ.dir.get? e.name).isSome = true
  removing : ∀ todo, σ.cleanup = .removing todo → ∀ f ∈ todo, isIntermediate f = true
  output : ∀ w i text, σ.Did w (mrOut i) text →
    σ.dir.get? (mrOut i) = some (app.reduction nReduce.toNat files dir₀ i)

/-- A worker that is reading has the pairs of the files it has read, and has the
rest of all files of its partition to read. -/
def Reads (x : Worker) : Prop :=
  ∀ todo kva, x.main = .reading todo kva → x.reply.index < nReduce.toNat ∧ ∃ past : List Nat,
    (past.map (mapResult · x.reply.index) ++ todo).Perm ((List.range files.length).map (mapResult · x.reply.index)) ∧
    kva = past.flatMap fun j => app.intermediatePairs nReduce.toNat files dir₀ j x.reply.index

structure Intact (σ : MrSystem) : Prop extends
    σ.Loyal app files nReduce (fun f content => dir₀.get? f = some content), σ.Tidy app files nReduce dir₀ where
  marked : ∀ f ∈ files, σ.c.book f = some 2 → ∀ i < nReduce.toNat, ∃ w text, σ.Did w (mapResult (files.idxOf f) i) text
  reads : ∀ w, Reads app files nReduce dir₀ (σ.worker w)

def lists (σ : MrSystem) : MrAct → Option Nat
  | .inner w .listFiles => some (σ.worker w).reply.index
  | _ => none

/-- A worker lists the files of its partition before `cleanup` begins to remove
files, or when none is left. -/
def ListsInTime (σ : MrSystem) (a : MrAct) : Prop :=
  ∀ i ∈ σ.lists a, σ.cleanup.begun = false ∨ App.partitionFiles σ.dir i = []

instance (σ : MrSystem) (a : MrAct) : Decidable (σ.ListsInTime a) := inferInstanceAs (Decidable (∀ i ∈ σ.lists a, _))

variable {app files nReduce dir₀} {σ σ' : MrSystem}

theorem written_subset {a : MrAct} (hs : σ.step app a = some σ') : σ.written ⊆ σ'.written := by
  cases step_steps hs with
  | rename => exact List.subset_append_left _ _
  | output => exact List.subset_append_left _ _
  | _ => exact List.Subset.refl _

theorem isIntermediate_ne {name name' : GoString} (h : isIntermediate name = true) (h' : isIntermediate name' = false) :
    name ≠ name' := by
  rintro rfl
  rw [h] at h'
  cases h'

theorem Tidy.insert (h : σ.Tidy app files nReduce dir₀) {w : Nat} {name text : GoString} (hin : ∀ f ∈ files, f ≠ name)
    (hname : isIntermediate name = true → ∃ j < files.length, ∃ i < nReduce.toNat, name = mapResult j i ∧
      text = app.intermediate nReduce.toNat files dir₀ j i)
    (hout : ∀ i, name = mrOut i → text = app.reduction nReduce.toNat files dir₀ i)
    (hdir : σ'.dir = σ.dir.insert name text) (hw : σ'.written = σ.written ++ [⟨w, name, text⟩])
    (hc : σ'.cleanup = σ.cleanup) : σ'.Tidy app files nReduce dir₀ where
  input f hf := by
    rw [hdir, GoMap.get?_insert_of_ne (hin f hf)]
    exact h.input f hf
  content name' text' hname' hget := by
    rw [hdir] at hget
    by_cases heq : name' = name
    · subst heq
      rw [GoMap.get?_insert_self, Option.some.injEq] at hget
      rw [← hget]
      exact hname hname'
    · rw [GoMap.get?_insert_of_ne heq] at hget
      exact h.content name' text' hname' hget
  there hbegun e he := by
    rw [hdir, GoMap.get?_isSome, GoMap.mem_keys_insert]
    rw [hw] at he
    rcases List.mem_append.mp he with he | he
    · exact Or.inl (GoMap.get?_isSome.mp (h.there (hc ▸ hbegun) e he))
    · rw [List.mem_singleton.mp he]
      exact Or.inr rfl
  removing todo htodo := h.removing todo (hc ▸ htodo)
  output w' i text' hdid := by
    rw [hdir]
    by_cases heq : mrOut i = name
    · rw [heq, GoMap.get?_insert_self, hout i heq.symm]
    · rw [GoMap.get?_insert_of_ne heq]
      rw [Did, hw] at hdid
      rcases List.mem_append.mp hdid with hdid | hdid
      · exact h.output w' i text' hdid
      · exact absurd (congrArg Written.name (List.mem_singleton.mp hdid)) heq

theorem Tidy.remove (h : σ.Tidy app files nReduce dir₀) (hinput : ∀ f ∈ files, isIntermediate f = false)
    {f : GoString} {todo : List GoString} (hc : σ.cleanup = .removing (f :: todo)) :
    Tidy app files nReduce dir₀ { σ with dir := σ.dir.delete f, cleanup := .removing todo } where
  input f' hf' := by
    have hf := h.removing _ hc f List.mem_cons_self
    show (σ.dir.delete f).get? f' = _
    rw [GoMap.get?_delete_of_ne (isIntermediate_ne hf (hinput f' hf')).symm]
    exact h.input f' hf'
  content name text hname hget := by
    have hne : name ≠ f := by
      rintro rfl
      have hget : (σ.dir.delete name).get? name = some text := hget
      rw [GoMap.get?_delete_self] at hget
      cases hget
    have hget : (σ.dir.delete f).get? name = some text := hget
    rw [GoMap.get?_delete_of_ne hne] at hget
    exact h.content name text hname hget
  there hbegun := by cases hbegun
  removing todo' htodo g hg := by
    cases htodo
    exact h.removing _ hc g (List.mem_cons_of_mem _ hg)
  output w i text hdid := by
    have hf := h.removing _ hc f List.mem_cons_self
    show (σ.dir.delete f).get? (mrOut i) = _
    rw [GoMap.get?_delete_of_ne (isIntermediate_ne hf (isIntermediate_mrOut i)).symm]
    exact h.output w i text hdid

theorem Tidy.same (h : σ.Tidy app files nReduce dir₀) (hdir : σ'.dir = σ.dir) (hw : σ'.written = σ.written)
    (hc : σ'.cleanup = σ.cleanup ∨ (σ'.cleanup.begun = σ.cleanup.begun ∧ σ'.cleanup.begun = false)) :
    σ'.Tidy app files nReduce dir₀ where
  input f hf := hdir ▸ h.input f hf
  content name text hname hget := h.content name text hname (hdir ▸ hget)
  there hbegun e he := by
    rw [hdir]
    refine h.there ?_ e (hw ▸ he)
    rcases hc with hc | ⟨hc, -⟩
    · rw [← hc]
      exact hbegun
    · rw [← hc]
      exact hbegun
  removing todo htodo := by
    rcases hc with hc | ⟨-, hc⟩
    · exact h.removing todo (hc ▸ htodo)
    · rw [htodo] at hc
      cases hc
  output w i text hdid := by
    rw [hdir]
    exact h.output w i text (by rw [Did, ← hw]; exact hdid)

theorem Tidy.list (h : σ.Tidy app files nReduce dir₀) :
    Tidy app files nReduce dir₀ { σ with cleanup := .removing (σ.dir.glob (bytes "map-result-") []) } where
  input := h.input
  content := h.content
  there hbegun := by cases hbegun
  removing todo htodo f hmem := by
    cases htodo
    exact (Dir.mem_glob.mp hmem).2
  output := h.output

/-! ## A map task -/

theorem idxOf_lt {f : GoString} (h : f ∈ files) : files.idxOf f < files.length := List.idxOf_lt_length_of_mem h

theorem getD_idxOf {f : GoString} (h : f ∈ files) : files.getD (files.idxOf f) [] = f := by
  simp [List.getD, idxOf_lt h]

theorem Loyal.place_right (h : σ.Loyal app files nReduce (fun f content => dir₀.get? f = some content)) {w : Nat}
    {name text : GoString} {todo : List (GoString × GoString)}
    (hmain : (σ.worker w).main = .placing ((name, text) :: todo)) :
    ∃ j < files.length, ∃ i < nReduce.toNat, name = mapResult j i ∧
      text = app.intermediate nReduce.toNat files dir₀ j i := by
  have hw := h.worker w
  have hstands := hw.stands
  rw [hmain] at hstands
  obtain ⟨ht, -, content, past, hknown, hwrites, -⟩ := hstands
  have hgiven := hw.follows.t.symm.trans ht
  obtain ⟨hn, haddr, hidx⟩ := hw.follows.map hgiven
  obtain ⟨hmem, hindex, hnew⟩ := hw.given.map hgiven
  obtain ⟨i, hi, heq⟩ := App.mem_mapWrites hwrites (List.mem_append_right _ List.mem_cons_self)
  rw [hn, hnew] at hi
  obtain ⟨rfl, rfl⟩ := Prod.mk.inj heq
  refine ⟨files.idxOf (σ.worker w).given.addr, idxOf_lt hmem, i, hi, by rw [hidx, hindex], ?_⟩
  rw [App.intermediate, getD_idxOf hmem, ← haddr, App.mapped, hknown, Option.getD_some, hn, hnew]

end MrSystem

/-! ## What a call marks as done -/

namespace Coordinator

variable {c : Coordinator} {key addr : GoString}

theorem book_assign_two (h : (c.assign key).book addr = some 2) : c.book addr = some 2 := by
  rcases setBook_cases (show (c.setBook key 1).book addr = some 2 from h) with ⟨-, h12⟩ | ⟨-, h⟩
  · cases h12
  · exact h

theorem handler_two (h : (c.coordinatorHandler addr).1.book key = some 2) :
    c.book key = some 2 ∨ (key = addr ∧ c.book addr = some 1) := by
  have hmark : ∀ {c' : Coordinator}, (c.book addr = some 1 ∧ c'.book = (c.setBook addr 2).book) ∨ c' = c →
      c'.book key = some 2 → c.book key = some 2 ∨ (key = addr ∧ c.book addr = some 1) := by
    rintro c' (⟨hone, heq⟩ | rfl) htwo
    · rw [heq] at htwo
      rcases setBook_cases htwo with ⟨hk, -⟩ | ⟨-, hold⟩
      · exact Or.inr ⟨hk, hone⟩
      · exact Or.inl hold
    · exact Or.inl htwo
  unfold coordinatorHandler at h
  split at h
  · have hreport : (c.book addr = some 1 ∧ (c.reportMap addr).book = (c.setBook addr 2).book) ∨ c.reportMap addr = c := by
      rcases c.reportMap_cases addr with ⟨hone, heq⟩ | ⟨-, heq⟩
      · exact Or.inl ⟨hone, by rw [heq]⟩
      · exact Or.inr heq
    rw [maptask] at h
    rcases (c.reportMap addr).assignMap_cases with heq | ⟨_, -, -, -, heq⟩
    · rw [heq] at h
      exact hmark hreport h
    · rw [heq] at h
      exact hmark hreport (book_assign_two h)
  · have hreport : (c.book addr = some 1 ∧ (c.reportReduce addr).book = (c.setBook addr 2).book) ∨
        c.reportReduce addr = c := by
      rcases c.reportReduce_cases addr with ⟨hone, heq⟩ | ⟨-, heq⟩
      · exact Or.inl ⟨hone, by rw [heq]⟩
      · exact Or.inr heq
    rw [reducetask] at h
    rcases (c.reportReduce addr).assignReduce_cases with heq | ⟨-, heq⟩ | ⟨_, -, -, heq⟩
    · rw [heq] at h
      exact hmark hreport h
    · rw [heq] at h
      exact hmark hreport h
    · rw [heq] at h
      exact hmark hreport (book_assign_two h)

theorem fire_two {k : Nat} {c' : Coordinator} (hc : c.fire k = some c') (h : c'.book key = some 2) :
    c.book key = some 2 := by
  unfold fire at hc
  split at hc
  · cases hc
    unfold timeadd at h
    split at h
    · rcases setBook_cases h with ⟨-, h02⟩ | ⟨-, h⟩
      · cases h02
      · exact h
    · exact h
  · cases hc

theorem heartbeat_book (c : Coordinator) (id now : Nat) : (c.heartbeat id now).1.book = c.book := by
  unfold heartbeat
  split <;> rfl

theorem Booked.nodup {files : List GoString} {nReduce : Int} (h : c.Booked files nReduce)
    (hr : files.length ≤ c.mtnum) : files.Nodup := by
  have hle := List.countP_le_length (p := fun f => decide (c.book f = some 2)) (l := files.dedup)
  rw [← h.count] at hle
  have hsame := (List.dedup_sublist files).eq_of_length_le (hr.trans hle)
  rw [← hsame]
  exact List.nodup_dedup files

end Coordinator

namespace MrSystem

variable {app : App} {files : List GoString} {nReduce : Int} {dir₀ : Dir} {σ σ' : MrSystem}

/-! ## A reduce task -/

/-- Before `cleanup` begins, the results of all map tasks are there. -/
theorem Intact.files_perm (h : σ.Intact app files nReduce dir₀) (hbegun : σ.cleanup.begun = false) {w : Nat}
    (ht : (σ.worker w).reply.t = .reduce) (hne : App.partitionFiles σ.dir (σ.worker w).reply.index ≠ []) :
    (σ.worker w).reply.index < nReduce.toNat ∧ (App.partitionFiles σ.dir (σ.worker w).reply.index).Perm
      ((List.range files.length).map (mapResult · (σ.worker w).reply.index)) := by
  generalize (σ.worker w).reply.index = i at hne ⊢
  have hw := h.worker w
  obtain ⟨hphase, -⟩ := hw.given.reduce (hw.follows.t.symm.trans ht)
  -- a file of the partition is the result of a map task
  have hname : ∀ name text, ofPartition i name = true → σ.dir.get? name = some text →
      ∃ j < files.length, i < nReduce.toNat ∧ name = mapResult j i := by
    intro name text hname hget
    obtain ⟨j, hj, i', hi', rfl, -⟩ := h.content name text (isIntermediate_of_ofPartition hname) hget
    obtain rfl := ofPartition_mapResult.mp hname
    exact ⟨j, hj, hi', rfl⟩
  have hi : i < nReduce.toNat := by
    obtain ⟨name, hmem⟩ := List.exists_mem_of_ne_nil _ hne
    obtain ⟨hget, hmatch⟩ := Dir.mem_glob.mp hmem
    obtain ⟨text, htext⟩ := Option.isSome_iff_exists.mp hget
    exact (hname name text hmatch htext).choose_spec.2.1
  refine ⟨hi, App.partitionFiles_perm fun name hmatch => ⟨fun hget => ?_, ?_⟩⟩
  · obtain ⟨text, htext⟩ := Option.isSome_iff_exists.mp hget
    obtain ⟨j, hj, -, heq⟩ := hname name text hmatch htext
    exact ⟨j, hj, heq⟩
  · rintro ⟨j, hj, rfl⟩
    have hmem : files[j] ∈ files := List.getElem_mem hj
    obtain ⟨w', text, hdid⟩ := h.marked _ hmem (h.booked.all_two hphase _ hmem) i hi
    rw [(h.booked.nodup hphase).idxOf_getElem j hj] at hdid
    exact h.there hbegun _ hdid

theorem reads_of_ne {x : Worker} (h : ∀ todo kva, x.main ≠ .reading todo kva) : Reads app files nReduce dir₀ x :=
  fun todo kva hmain => absurd hmain (h todo kva)

theorem Reads.congr {x x' : Worker} (h : Reads app files nReduce dir₀ x) (hmain : x'.main = x.main)
    (hreply : x'.reply = x.reply) : Reads app files nReduce dir₀ x' := by
  intro todo kva hx
  rw [hreply]
  exact h todo kva (hmain.symm.trans hx)

theorem Intact.readFile (h : σ.Intact app files nReduce dir₀) {w : Nat} {fname content : GoString}
    {names : List GoString} {kva kvs : List KeyValue} (hmain : (σ.worker w).main = .reading (fname :: names) kva)
    (hget : σ.dir.get? fname = some content) (hread : App.readPairs content = some kvs) :
    Reads app files nReduce dir₀ { σ.worker w with main := .reading names (kva ++ kvs) } := by
  rintro todo kva' ⟨⟩
  obtain ⟨hi, past, hperm, rfl⟩ := h.reads w _ _ hmain
  obtain ⟨j, hj, rfl⟩ := List.mem_map.mp (hperm.mem_iff.mp (List.mem_append_right _ List.mem_cons_self))
  obtain ⟨j', -, i', -, heq, rfl⟩ := h.content _ content (isIntermediate_mapResult _ _) hget
  obtain ⟨rfl, rfl⟩ := mapResult_inj heq
  refine ⟨hi, past ++ [j], ?_, ?_⟩
  · simpa using hperm
  · simp [App.intermediatePairs, hread]

theorem Intact.moves (h : σ.Intact app files nReduce dir₀) {w : Nat} {a : LocalAct} {x : Worker}
    (hlist : σ.ListsInTime (.inner w a)) (hm : (σ.worker w).Moves app σ.dir a x) : Reads app files nReduce dir₀ x := by
  cases hm with
  | rest _ _ hreply _ hmain =>
    rcases hmain with hmain | hmain | hmain
    · exact (h.reads w).congr hmain hreply
    · exact reads_of_ne (by simp [hmain])
    · exact reads_of_ne (by simp [hmain])
  | listFiles hmain hne =>
    have hstands := (h.worker w).stands
    rw [hmain] at hstands
    rcases hlist _ rfl with hbegun | hnil
    · obtain ⟨hi, hperm⟩ := h.files_perm hbegun hstands.1 hne
      rintro todo kva ⟨⟩
      exact ⟨hi, [], by simpa using hperm, by simp⟩
    · exact absurd hnil hne
  | readFile fname names kva kvs content hmain hget hread => exact h.readFile hmain hget hread
  | _ => exact reads_of_ne (by simp [Worker.fails, Worker.deliver])

theorem Intact.output_right (h : σ.Intact app files nReduce dir₀) (hf : app.OrderFree) {w : Nat} {kva : List KeyValue}
    (hmain : (σ.worker w).main = .reading [] kva) :
    app.reduceOutput kva = app.reduction nReduce.toNat files dir₀ (σ.worker w).reply.index := by
  obtain ⟨-, past, hperm, rfl⟩ := h.reads w _ _ hmain
  rw [List.append_nil] at hperm
  have hinj : Function.Injective fun j => mapResult j (σ.worker w).reply.index := fun j j' heq => (mapResult_inj heq).1
  exact App.reduceOutput_congr hf app.sorting (((List.map_perm_map_iff hinj).mp hperm).flatMap_right _)

/-! ## Steps -/

theorem intact_init (hclean : ∀ name ∈ dir₀.keys, isIntermediate name = false) :
    (init files nReduce dir₀).Intact app files nReduce dir₀ where
  toLoyal := loyal_init dir₀
  input _ _ := rfl
  content name text hname hget := by
    have := hclean name (GoMap.get?_isSome.mp (by rw [show dir₀.get? name = some text from hget]; rfl))
    rw [hname] at this
    cases this
  there _ e he := by cases he
  removing todo htodo := by cases htodo
  output w i text hdid := by cases hdid
  marked f _ htwo := by cases Coordinator.make_idle htwo
  reads w := reads_of_ne (by simp [init, Worker.init])

theorem Intact.update (h : σ.Intact app files nReduce dir₀)
    (hl : σ'.Loyal app files nReduce (fun f content => dir₀.get? f = some content))
    (ht : σ'.Tidy app files nReduce dir₀)
    (hm : ∀ f ∈ files, σ'.c.book f = some 2 → σ.c.book f = some 2 ∨
      ∀ i < nReduce.toNat, ∃ w text, σ.Did w (mapResult (files.idxOf f) i) text)
    (hw : σ.written ⊆ σ'.written) {w : Nat} {x : Worker} (hx : σ'.worker = Function.update σ.worker w x)
    (hr : Reads app files nReduce dir₀ x) : σ'.Intact app files nReduce dir₀ := by
  refine ⟨hl, ht, fun f hf htwo i hi => ?_, ?_⟩
  · obtain ⟨w', text, hdid⟩ := (hm f hf htwo).elim (fun hold => h.marked f hf hold i hi) fun hdid => hdid i hi
    exact ⟨w', text, hw hdid⟩
  · rw [hx, Function.forall_update_iff σ.worker fun _ => Reads app files nReduce dir₀]
    exact ⟨hr, fun w' _ => h.reads w'⟩

theorem Intact.same (h : σ.Intact app files nReduce dir₀)
    (hl : σ'.Loyal app files nReduce (fun f content => dir₀.get? f = some content))
    (ht : σ'.Tidy app files nReduce dir₀) (hm : ∀ f ∈ files, σ'.c.book f = some 2 → σ.c.book f = some 2)
    (hw : σ'.written = σ.written) (hx : σ'.worker = σ.worker) : σ'.Intact app files nReduce dir₀ :=
  h.update hl ht (fun f hf htwo => Or.inl (hm f hf htwo)) (fun _ he => hw ▸ he)
    (hx.trans (Function.update_eq_self 0 σ.worker).symm) (h.reads 0)

theorem Intact.step (h : σ.Intact app files nReduce dir₀) (hf : app.OrderFree) (hne : [] ∉ files)
    (hinput : ∀ f ∈ files, isIntermediate f = false ∧ ∀ i, f ≠ mrOut i) {a : MrAct} (hfresh : σ.FreshMap a)
    (hlist : σ.ListsInTime a) (hs : σ.step app a = some σ') : σ'.Intact app files nReduce dir₀ := by
  have hl := h.toLoyal.step hne (fun _ _ hk => hk)
    (fun f hmem content hget => (h.input f hmem).symm.trans hget) hfresh hs
  have hkeep : ∀ f ∈ files, σ.c.book f = some 2 → σ.c.book f = some 2 := fun _ _ htwo => htwo
  cases step_steps hs with
  | inner w a x hm =>
    exact h.update hl (h.toTidy.same rfl rfl (Or.inl rfl)) (fun f _ htwo => Or.inl htwo) (List.Subset.refl _) rfl
      (h.moves hlist hm)
  | rename w name text todo hmain =>
    obtain ⟨j, hj, i, hi, rfl, rfl⟩ := h.toLoyal.place_right hmain
    refine h.update hl (h.toTidy.insert ?_ ?_ ?_ rfl rfl rfl) (fun f _ htwo => Or.inl htwo)
      (List.subset_append_left _ _) rfl (reads_of_ne (by simp))
    · exact fun f hmem => (isIntermediate_ne (isIntermediate_mapResult j i) (hinput f hmem).1).symm
    · exact fun _ => ⟨j, hj, i, hi, rfl, rfl⟩
    · exact fun k heq => absurd heq (mapResult_ne_mrOut j i k)
  | output w kva hmain =>
    rw [h.output_right hf hmain] at hl ⊢
    refine h.update hl (h.toTidy.insert ?_ ?_ ?_ rfl rfl rfl) (fun f _ htwo => Or.inl htwo)
      (List.subset_append_left _ _) rfl (reads_of_ne (by simp))
    · exact fun f hmem => (hinput f hmem).2 _
    · intro hname
      rw [isIntermediate_mrOut] at hname
      cases hname
    · intro k heq
      rw [mrOut_injective heq]
  | handle w hmain =>
    refine h.update hl (h.toTidy.same rfl rfl (Or.inl rfl)) (fun f hmem htwo => ?_) (List.Subset.refl _) rfl
      (reads_of_ne (by simp))
    rcases Coordinator.handler_two htwo with hold | ⟨rfl, hone⟩
    · exact Or.inl hold
    · -- the report of a map task, which comes in the map phase
      right
      intro i hi
      have hphase : σ.c.mtnum < files.length := by
        by_contra hred
        rw [h.booked.all_two (not_lt.mp hred) _ hmem] at hone
        cases hone
      obtain ⟨-, content, -, hdid⟩ := (h.toLoyal.report hne hmain hone).1 hphase
      exact ⟨w, _, hdid i hi⟩
  | heartbeat w beat =>
    refine h.update hl (h.toTidy.same rfl rfl (Or.inl rfl)) (fun f _ htwo => Or.inl ?_) (List.Subset.refl _) rfl
      ((h.reads w).congr rfl rfl)
    rw [← σ.c.heartbeat_book w σ.clock]
    exact htwo
  | timeadd k c hc =>
    exact h.same hl (h.toTidy.same rfl rfl (Or.inl rfl)) (fun f _ htwo => Coordinator.fire_two hc htwo) rfl rfl
  | watch cleanup hc hc' =>
    refine h.same hl (h.toTidy.same rfl rfl (Or.inr ?_)) hkeep rfl rfl
    rcases hc' with rfl | rfl
    · exact ⟨by rw [hc], rfl⟩
    · exact ⟨by rw [hc]; rfl, rfl⟩
  | list hc => exact h.same hl h.toTidy.list hkeep rfl rfl
  | remove f names hc =>
    exact h.same hl (h.toTidy.remove (fun f hmem => (hinput f hmem).1) hc) hkeep rfl rfl
  | tick d => exact h.same hl (h.toTidy.same rfl rfl (Or.inl rfl)) hkeep rfl rfl

end MrSystem

/-! ## Runs -/

section
variable {app : App} {files : List GoString} {nReduce : Int} {dir : Dir} (r : MrRun app files nReduce dir)

theorem did_mono {k k' w : Nat} {name text : GoString} (hk : k ≤ k') (h : (r.state k).Did w name text) :
    (r.state k').Did w name text :=
  r.induction_from (P := fun _ σ => σ.Did w name text) hk h (fun _ _ _ _ h => h)
    fun _ _ _ _ _ h hs => MrSystem.written_subset hs h

/-- The job starts without old intermediate files, the input files have names of
their own, map tasks get their number, and files are listed before `cleanup`
removes some of them: then a written output file always holds the reduction of its
partition of all map tasks' outputs. -/
theorem finished_output_intact (hf : app.OrderFree) (hne : [] ∉ files)
    (hinput : ∀ f ∈ files, isIntermediate f = false ∧ ∀ i, f ≠ mrOut i)
    (hclean : ∀ name ∈ dir.keys, isIntermediate name = false)
    (hr : r.Meets fun σ a => σ.FreshMap a ∧ σ.ListsInTime a) {k k' w i : Nat} {text : GoString} (hk : k ≤ k')
    (hdid : (r.state k).Did w (mrOut i) text) :
    (r.state k').dir.get? (mrOut i) = some (app.reduction nReduce.toNat files dir i) := by
  have hinv := r.invariant hr (MrSystem.intact_init hclean)
    (fun σ a σ' h hc hs => h.step hf hne hinput hc.1 hc.2 hs) k'
  exact hinv.output w i text (did_mono r hk hdid)

end

/-! ## A slow reduce task -/

def beats (w : Nat) : List MrAct := [.inner w .beatCalls, .heartbeat w, .inner w .beatDelivers]

/-- Worker 0 gets the reduce task and is too slow, worker 1 does it. -/
def redone : List MrAct :=
  bothMap ++ asks 0 ++ [.inner 0 .loop] ++ beats 0 ++ beats 1 ++ [.timeadd 2] ++ asks 1 ++ [.inner 1 .loop] ++
    reduceSteps 1 2 ++ reports 1

/-- Worker 1 exits and falls silent, worker 0 is told to stop, and `cleanup` begins. -/
def cleaned : List MrAct :=
  [.inner 1 .loop, .inner 1 .closes, .inner 1 .exit] ++ beats 0 ++
    [.tick (Coordinator.silence + 1), .watch, .clean, .clean]

theorem ne_mrOut_of_length {f : GoString} (h : f.length < 7) (i : Nat) : f ≠ mrOut i := by
  have htext : (bytes "mr-out-").length = 7 := by decide +kernel
  rintro rfl
  rw [mrOut, List.length_append, htext] at h
  omega

theorem slowReduce_exec : (exec (MrSystem.step App.wordCount) (MrSystem.init [bytes "a", bytes "b"] 1 App.twoTexts)
    (redone ++ reduceSteps 0 2)).isSome = true := by decide +kernel

/-- Worker 0 goes on before `cleanup`. -/
def slowReduce : MrRun App.wordCount [bytes "a", bytes "b"] 1 App.twoTexts :=
  Run.ofList (redone ++ reduceSteps 0 2) (Option.some_get slowReduce_exec).symm

theorem slowReduce_intact : (slowReduce.state 39).c.book (reduceKey 0) = some 2 ∧
    (slowReduce.state 39).Did 1 (mrOut 0) (bytes "k 2\nv 1\n") ∧
    (slowReduce.state 43).Did 0 (mrOut 0) (bytes "k 2\nv 1\n") ∧
    (slowReduce.state 43).dir.get? (mrOut 0) =
      some (App.wordCount.reduction (1 : Int).toNat [bytes "a", bytes "b"] App.twoTexts 0) := by
  have hdid : (slowReduce.state 39).Did 1 (mrOut 0) (bytes "k 2\nv 1\n") := by unfold MrSystem.Did; decide +kernel
  refine ⟨by decide +kernel, hdid, by unfold MrSystem.Did; decide +kernel, ?_⟩
  have hnames : ∀ f ∈ [bytes "a", bytes "b"], isIntermediate f = false ∧ f.length < 7 := by decide +kernel
  exact finished_output_intact slowReduce App.wordCount_orderFree (by decide +kernel)
    (fun f hf => ⟨(hnames f hf).1, ne_mrOut_of_length (hnames f hf).2⟩) (by decide +kernel)
    (Run.meets_ofList _ (by decide +kernel)) (show 39 ≤ 43 by omega) hdid

theorem lateReduce_exec : (exec (MrSystem.step App.wordCount) (MrSystem.init [bytes "a", bytes "b"] 1 App.twoTexts)
    (redone ++ cleaned ++ reduceSteps 0 1)).isSome = true := by decide +kernel

/-- Worker 0 is in `reducetask` all the time, and goes on after the first file is
gone. -/
def lateReduce : MrRun App.wordCount [bytes "a", bytes "b"] 1 App.twoTexts :=
  Run.ofList (redone ++ cleaned ++ reduceSteps 0 1) (Option.some_get lateReduce_exec).symm

/-- The output was right and the reduce task done, and then the output is that of
the second file alone. -/
theorem lateReduce_damages : (lateReduce.state 39).c.book (reduceKey 0) = some 2 ∧ (lateReduce.state 39).c.done = true ∧
    (lateReduce.state 39).Did 1 (mrOut 0) (bytes "k 2\nv 1\n") ∧
    (lateReduce.state 39).dir.get? (mrOut 0) = some (bytes "k 2\nv 1\n") ∧
    App.wordCount.reduction 1 [bytes "a", bytes "b"] App.twoTexts 0 = bytes "k 2\nv 1\n" ∧
    (lateReduce.state 52).dir.get? (mrOut 0) = some (bytes "k 1\n") := by
  exact ⟨by decide +kernel, by decide +kernel, by unfold MrSystem.Did; decide +kernel, by decide +kernel,
    by decide +kernel, by decide +kernel⟩

end DistLab
