import DistLab.Mr.Task

/-!
# The distributed job and the sequential program

Between the two lie the hash that deals the pairs out to the reduce tasks, the
text of the intermediate files, their names, and two sorts. A pair comes back
from its file as it was written (`readPairs_encode`), the files of one partition
together have the pairs of that partition, and what the loop over sorted pairs
writes does not depend on their order.
-/

namespace DistLab

namespace App

/-! ## Intermediate files -/

def encode (kvs : List KeyValue) : GoString := kvs.flatMap pairLine

def bucket (n i : Nat) (kva : List KeyValue) : List KeyValue := kva.filter fun kv => ihash kv.1 % n = i

structure Printable (kv : KeyValue) : Prop where
  key : (9 : UInt8) ∉ kv.1 ∧ (10 : UInt8) ∉ kv.1
  value : (10 : UInt8) ∉ kv.2 ∧ kv.2.getLast? ≠ some 13
  fits : (kv.1 ++ 9 :: kv.2).length < maxTokenSize

theorem pairLine_eq (kv : KeyValue) : pairLine kv = (kv.1 ++ 9 :: kv.2) ++ [10] := by simp [pairLine]

/-- The pair has no separator in a place where the reader would take it for one. -/
structure Separated (kv : KeyValue) : Prop where
  key : (9 : UInt8) ∉ kv.1 ∧ (10 : UInt8) ∉ kv.1
  value : (10 : UInt8) ∉ kv.2

theorem dropCR_pair (k v : GoString) : dropCR (k ++ 9 :: v) = k ++ 9 :: dropCR v := by
  unfold dropCR
  rw [List.getLast?_append, List.getLast?_cons]
  cases hv : v.getLast? with
  | none => simp
  | some c =>
    have hne : v ≠ [] := by
      rintro rfl
      cases hv
    rw [List.dropLast_append_of_ne_nil (List.cons_ne_nil 9 v), List.dropLast_cons_of_ne_nil hne]
    by_cases hc : c = 13
    · simp [hc]
    · simp [hc]

theorem dropCR_eq_self {v : GoString} : dropCR v = v ↔ v.getLast? ≠ some 13 := by
  unfold dropCR
  split
  · rename_i hlast
    have hne : v ≠ [] := by
      rintro rfl
      cases hlast
    refine iff_of_false (fun heq => ?_) (not_not.mpr hlast)
    have hlen := congrArg List.length heq
    have hpos := List.length_pos_iff.mpr hne
    rw [List.length_dropLast] at hlen
    omega
  · rename_i hlast
    exact iff_of_true rfl hlast

theorem lines_encode {kvs : List KeyValue} (h : ∀ kv ∈ kvs, Separated kv) :
    lines 10 (encode kvs) = kvs.map fun kv => kv.1 ++ 9 :: kv.2 := by
  have henc : encode kvs = (kvs.map fun kv => kv.1 ++ 9 :: kv.2).flatMap (· ++ [10]) := by
    rw [List.flatMap_map]
    exact List.flatMap_congr fun kv _ => pairLine_eq kv
  rw [henc]
  refine lines_flatMap fun l hl => ?_
  obtain ⟨kv, hkv, rfl⟩ := List.mem_map.mp hl
  simp [(h kv hkv).key.2, (h kv hkv).value]

/-- What comes back of pairs without misplaced separators: all of them, unless a line
is too long, and without a carriage return at the end. -/
theorem readPairs_encode_eq {kvs : List KeyValue} (h : ∀ kv ∈ kvs, Separated kv) : readPairs (encode kvs) =
    if ∀ kv ∈ kvs, (kv.1 ++ 9 :: kv.2).length < maxTokenSize then some (kvs.map fun kv => (kv.1, dropCR kv.2))
    else none := by
  have hcut : ∀ kv ∈ kvs, (cut 9 ∘ dropCR ∘ fun kv : KeyValue => kv.1 ++ 9 :: kv.2) kv = some (kv.1, dropCR kv.2) := by
    intro kv hkv
    simp only [Function.comp_apply, dropCR_pair, cut_append (h kv hkv).key.1]
  have hall : (lines 10 (encode kvs)).all (fun line => line.length < maxTokenSize) = true ↔
      ∀ kv ∈ kvs, (kv.1 ++ 9 :: kv.2).length < maxTokenSize := by
    rw [lines_encode h, List.all_map, List.all_eq_true]
    exact forall₂_congr fun kv _ => decide_eq_true_iff
  rw [readPairs, scan]
  by_cases hfits : ∀ kv ∈ kvs, (kv.1 ++ 9 :: kv.2).length < maxTokenSize
  · rw [if_pos (hall.mpr hfits), if_pos hfits, Option.map_some, lines_encode h, List.map_map, List.filterMap_map,
      List.filterMap_congr hcut, ← List.filterMap_eq_map]
    rfl
  · rw [if_neg (mt hall.mp hfits), if_neg hfits, Option.map_none]

/-- What is read from a file has no separators, whatever the file holds. -/
theorem separated_of_readPairs {content : GoString} {kvs : List KeyValue} (h : readPairs content = some kvs) :
    ∀ kv ∈ kvs, Separated kv := by
  intro kv hkv
  rw [readPairs, scan] at h
  split at h
  · rw [Option.map_some, Option.some.injEq] at h
    rw [← h] at hkv
    obtain ⟨token, htoken, hcut⟩ := List.mem_filterMap.mp hkv
    obtain ⟨line, hline, rfl⟩ := List.mem_map.mp htoken
    obtain ⟨hpair, htab⟩ := cut_eq_some hcut
    have hsub : ∀ c ∈ dropCR line, c ∈ line := by
      intro c hc
      unfold dropCR at hc
      split at hc
      · exact List.dropLast_subset _ hc
      · exact hc
    have hnl : (10 : UInt8) ∉ dropCR line := fun hc => not_mem_of_mem_lines hline (hsub _ hc)
    simp only [hpair, List.mem_append, List.mem_cons, not_or] at hnl
    exact ⟨⟨htab, hnl.1⟩, hnl.2.2⟩
  · cases h

theorem Printable.separated {kv : KeyValue} (h : Printable kv) : Separated kv := ⟨h.key, h.value.1⟩

theorem readPairs_encode_iff {kvs : List KeyValue} :
    readPairs (encode kvs) = some kvs ↔ ∀ kv ∈ kvs, Printable kv := by
  constructor
  · intro h kv hkv
    have hsep := separated_of_readPairs h
    rw [readPairs_encode_eq hsep] at h
    split at h
    · rename_i hfits
      have hsame : ∀ kv ∈ kvs, (kv.1, dropCR kv.2) = id kv := by
        rw [← List.map_inj_left, List.map_id]
        exact Option.some.inj h
      have hcr := dropCR_eq_self.mp (congrArg Prod.snd (hsame kv hkv))
      exact ⟨(hsep kv hkv).key, ⟨(hsep kv hkv).value, hcr⟩, hfits kv hkv⟩
    · cases h
  · intro h
    rw [readPairs_encode_eq fun kv hkv => (h kv hkv).separated, if_pos fun kv hkv => (h kv hkv).fits]
    have hsame : ∀ kv ∈ kvs, (kv.1, dropCR kv.2) = id kv := fun kv hkv => by
      rw [dropCR_eq_self.mpr (h kv hkv).value.2]
      rfl
    rw [List.map_congr_left hsame, List.map_id]

/-- What `maptask` writes is what `reducetask` reads. -/
theorem readPairs_encode {kvs : List KeyValue} (h : ∀ kv ∈ kvs, Printable kv) : readPairs (encode kvs) = some kvs :=
  readPairs_encode_iff.mpr h

/-- Each temporary file gets the lines of the pairs that its number is due, in
order. -/
theorem fillFiles_eq {n : Int} (hn : 0 < n) (kva : List KeyValue) :
    fillFiles n kva = some ((List.range n.toNat).map fun i => encode (bucket n.toNat i kva)) := by
  have hpos : 0 < n.toNat := by omega
  have hfold : ∀ (kvs done : List KeyValue),
      kvs.foldl (fun tmpFiles kv => tmpFiles.modify (ihash kv.1 % n.toNat) (· ++ pairLine kv))
        ((List.range n.toNat).map fun i => encode (bucket n.toNat i done)) =
      (List.range n.toNat).map fun i => encode (bucket n.toNat i (done ++ kvs)) := by
    intro kvs
    induction kvs with
    | nil => simp
    | cons kv kvs ih =>
      intro done
      rw [List.foldl_cons, show done ++ kv :: kvs = (done ++ [kv]) ++ kvs by simp, ← ih]
      congr 1
      apply List.ext_getElem?
      intro i
      rw [List.getElem?_modify]
      by_cases hi : i < n.toNat
      · simp only [List.getElem?_map, List.getElem?_range hi, Option.map_some]
        by_cases hk : ihash kv.1 % n.toNat = i
        · simp [hk, bucket, encode]
        · simp [hk, bucket, encode]
      · simp [hi]
  have hempty : List.replicate n.toNat ([] : GoString) =
      (List.range n.toNat).map fun i => encode (bucket n.toNat i []) := by
    simp [bucket, encode, List.map_const']
  rw [fillFiles, if_neg (by omega), if_neg (by omega), hempty, hfold kva [], List.nil_append]

/-- Each file has its pairs as lines, in order, and a list of pairs comes back from its
lines exactly if the format can carry all of them. -/
theorem intermediate_round_trip (kvs : List KeyValue) :
    (∀ n : Nat, fillFiles (n + 1 : Nat) kvs = some ((List.range (n + 1)).map fun i => encode (bucket (n + 1) i kvs))) ∧
    (readPairs (encode kvs) = some kvs ↔ ∀ kv ∈ kvs, Printable kv) := by
  constructor
  · intro n
    exact fillFiles_eq (Int.natCast_pos.mpr n.succ_pos) kvs
  · exact readPairs_encode_iff

/-- A line break in a value, a tab in a key, a carriage return at the end of a value. -/
theorem round_trip_loses :
    readPairs (encode [([107], [120, 10, 121])]) ≠ some [([107], [120, 10, 121])] ∧
    readPairs (encode [([107], [120, 10, 121])]) = some [([107], [120])] ∧
    readPairs (encode [([97, 9, 98], [99])]) = some [([97], [98, 9, 99])] ∧
    readPairs (encode [([107], [120, 13])]) = some [([107], [120])] := by
  decide +kernel

variable (app : App)

theorem mapWrites_eq (reply : Reply) (hn : 0 < reply.n) (content : GoString) :
    app.mapWrites reply content = some ((List.range reply.n.toNat).map fun i =>
      (mapResult reply.mapIndex i, encode (bucket reply.n.toNat i (app.mapf reply.addr content)))) := by
  rw [mapWrites, fillFiles_eq hn, Option.map_some]
  refine congrArg some (List.ext_getElem? fun i => ?_)
  by_cases hi : i < reply.n.toNat
  · simp [List.getElem?_range hi]
  · simp [hi]

/-! ## What the loop writes -/

def OrderFree : Prop := ∀ key values values', values.Perm values' → app.reducef key values = app.reducef key values'

variable {app}

theorem reduceOutput_congr (hf : app.OrderFree) (sorting : KeySort) {kva kva' : List KeyValue} (h : kva.Perm kva') :
    app.reduceOutput kva = { app with sorting }.reduceOutput kva' := by
  have hsorted : (app.sorting.sort kva).Perm (sorting.sort kva') :=
    ((app.sorting.perm kva).trans h).trans (sorting.perm kva').symm
  rw [reduceOutput, reduceOutput, summarize_eq_of_perm hf (app.sorting.ascending kva) (sorting.ascending kva') hsorted]

theorem lines_reduceOutput (kva : List KeyValue) : lines 10 (app.reduceOutput kva) =
    (summarize app.reducef (app.sorting.sort kva)).flatMap fun s => lines 10 (outLine s) :=
  lines_flatMap_append (fun s : GoString × GoString => s.1 ++ 32 :: s.2) _

/-! ## The files of a partition -/

theorem partitionFiles_perm {dir : Dir} {m i : Nat}
    (h : ∀ name, ofPartition i name = true → ((dir.get? name).isSome = true ↔ ∃ j < m, name = mapResult j i)) :
    (partitionFiles dir i).Perm ((List.range m).map (mapResult · i)) := by
  refine (List.perm_ext_iff_of_nodup (Dir.nodup_glob ..) ?_).mpr fun name => ?_
  · exact List.nodup_range.map fun j j' heq => (mapResult_inj heq).1
  · rw [Dir.mem_glob, List.mem_map]
    constructor
    · rintro ⟨hget, hmatch⟩
      obtain ⟨j, hj, rfl⟩ := (h name hmatch).mp hget
      exact ⟨j, List.mem_range.mpr hj, rfl⟩
    · rintro ⟨j, hj, rfl⟩
      have hmatch : ofPartition i (mapResult j i) = true := ofPartition_mapResult.mpr rfl
      exact ⟨(h _ hmatch).mpr ⟨j, List.mem_range.mp hj, rfl⟩, hmatch⟩

def pairsIn (dir : Dir) (name : GoString) : List KeyValue := ((dir.get? name).bind readPairs).getD []

theorem readFiles_eq {dir : Dir} {names : List GoString}
    (h : ∀ name ∈ names, ∃ kvs, (dir.get? name).bind readPairs = some kvs) (kva : List KeyValue) :
    readFiles dir names kva = .ok (kva ++ names.flatMap (pairsIn dir)) := by
  induction names generalizing kva with
  | nil => simp [readFiles]
  | cons name names ih =>
    obtain ⟨kvs, hkvs⟩ := h name List.mem_cons_self
    obtain ⟨content, hget, hread⟩ := Option.bind_eq_some_iff.mp hkvs
    simp only [readFiles, hget, hread]
    rw [ih fun name' hname' => h name' (List.mem_cons_of_mem _ hname')]
    simp [pairsIn, hkvs]

/-! ## One task after the other -/

section
variable (app : App) (n : Int) (files : List GoString)

def runMaps : List Nat → Dir → Except TaskError Dir
  | [], dir => .ok dir
  | j :: js, dir =>
    match app.maptask ⟨.map, n, files.getD j [], 0, j⟩ dir with
    | .error e => .error e
    | .ok dir => runMaps js dir

def runReduces : List Nat → Dir → Except TaskError Dir
  | [], dir => .ok dir
  | i :: is, dir =>
    match app.reducetask ⟨.reduce, 0, reduceKey i, i, 0⟩ dir with
    | .error e => .error e
    | .ok dir => runReduces is dir

def runTasks (mapOrder reduceOrder : List Nat) (dir : Dir) : Except TaskError Dir :=
  (app.runMaps n files mapOrder dir).bind (app.runReduces reduceOrder)

def mapped (dir : Dir) (name : GoString) : List KeyValue := app.mapf name ((dir.get? name).getD [])

def allPairs (dir : Dir) : List KeyValue := files.flatMap (app.mapped dir)

theorem readInputs_eq_some {dir : Dir} {kva out : List KeyValue} (h : app.readInputs dir files kva = some out) :
    (∀ f ∈ files, (dir.get? f).isSome = true) ∧ out = kva ++ app.allPairs files dir := by
  induction files generalizing kva with
  | nil =>
    cases h
    simp [allPairs]
  | cons f files ih =>
    rw [readInputs] at h
    split at h
    · cases h
    · rename_i content hget
      obtain ⟨hread, hout⟩ := ih h
      refine ⟨fun f' hf' => ?_, ?_⟩
      · rcases List.mem_cons.mp hf' with rfl | hf'
        · rw [hget]
          rfl
        · exact hread f' hf'
      · rw [hout]
        simp [allPairs, mapped, hget]

structure MapsDone (dir₀ : Dir) (js : List Nat) (dir : Dir) : Prop where
  written : ∀ j ∈ js, ∀ i < n.toNat, dir.get? (mapResult j i) =
    some (encode (bucket n.toNat i (app.mapped dir₀ (files.getD j []))))
  other : ∀ name, (∀ j ∈ js, ∀ i < n.toNat, name ≠ mapResult j i) → dir.get? name = dir₀.get? name

variable {app n files} {dir₀ : Dir} (hn : 0 < n) (hclean : ∀ i < n.toNat, ∀ name ∈ dir₀.keys, ofPartition i name = false)
  (hread : ∀ f ∈ files, (dir₀.get? f).isSome = true)

include hclean in
theorem ne_mapResult_of_clean {name : GoString} (h : (dir₀.get? name).isSome = true) (j : Nat) {i : Nat}
    (hi : i < n.toNat) : name ≠ mapResult j i := by
  rintro rfl
  have := hclean i hi _ (GoMap.get?_isSome.mp h)
  rw [ofPartition_mapResult.mpr rfl] at this
  cases this

theorem getD_mem {j : Nat} (hj : j < files.length) : files.getD j [] ∈ files := by
  rw [show files.getD j [] = files[j] by simp [List.getD, hj]]
  exact List.getElem_mem hj

include hn hclean hread

theorem MapsDone.maptask {js : List Nat} {dir : Dir} (h : app.MapsDone n files dir₀ js dir) {j : Nat}
    (hj : j < files.length) : ∃ dir', app.maptask ⟨.map, n, files.getD j [], 0, j⟩ dir = .ok dir' ∧
      app.MapsDone n files dir₀ (j :: js) dir' := by
  have hfile := hread _ (getD_mem hj)
  -- no map task has written to the input file
  have hget : dir.get? (files.getD j []) = dir₀.get? (files.getD j []) :=
    h.other _ fun j' _ i hi => ne_mapResult_of_clean hclean hfile j' hi
  obtain ⟨content, hcontent⟩ := Option.isSome_iff_exists.mp hfile
  have hmapped : app.mapf (files.getD j []) content = app.mapped dir₀ (files.getD j []) := by
    rw [mapped, hcontent, Option.getD_some]
  simp only [App.maptask, hget, hcontent, app.mapWrites_eq ⟨.map, n, files.getD j [], 0, j⟩ hn, hmapped]
  refine ⟨_, rfl, fun j' hj' i hi => ?_, fun name hne => ?_⟩
  · by_cases hjj : j' = j
    · subst hjj
      apply GoMap.get?_inserts_of_mem
      · exact List.mem_map.mpr ⟨i, List.mem_range.mpr hi, rfl⟩
      intro text htext
      obtain ⟨i', -, heq⟩ := List.mem_map.mp htext
      obtain ⟨hname, htext⟩ := Prod.mk.inj heq
      rw [← htext, (mapResult_inj hname).2]
    · rw [GoMap.get?_inserts_of_not_mem, h.written j' ((List.mem_cons.mp hj').resolve_left hjj) i hi]
      simp only [List.map_map, List.mem_map, not_exists, not_and]
      exact fun i' _ heq => hjj (mapResult_inj heq).1.symm
  · rw [GoMap.get?_inserts_of_not_mem]
    · exact h.other name fun j' hj' => hne j' (List.mem_cons_of_mem _ hj')
    · simp only [List.map_map, List.mem_map, not_exists, not_and]
      exact fun i hi heq => hne j List.mem_cons_self i (List.mem_range.mp hi) heq.symm

theorem MapsDone.runMaps {order js : List Nat} {dir : Dir} (h : app.MapsDone n files dir₀ js dir)
    (hlt : ∀ j ∈ order, j < files.length) :
    ∃ dir', app.runMaps n files order dir = .ok dir' ∧ app.MapsDone n files dir₀ (order.reverse ++ js) dir' := by
  induction order generalizing js dir with
  | nil => exact ⟨dir, rfl, h⟩
  | cons j order ih =>
    obtain ⟨dir', hrun, hdone⟩ := h.maptask hn hclean hread (hlt j List.mem_cons_self)
    obtain ⟨dir'', hrest, hdone'⟩ := ih hdone fun j' hj' => hlt j' (List.mem_cons_of_mem _ hj')
    refine ⟨dir'', ?_, ?_⟩
    · simp only [App.runMaps, hrun, hrest]
    · rw [List.reverse_cons, List.append_assoc, List.singleton_append]
      exact hdone'

end

/-! ## After the map tasks -/

section
variable (app : App) (n : Nat) (files : List GoString) (dir₀ : Dir)

def Partitioned (dir : Dir) : Prop :=
  ∀ i < n, ∀ name, ofPartition i name = true → ∀ text, dir.get? name = some text ↔
    ∃ j < files.length, name = mapResult j i ∧ text = encode (bucket n i (app.mapped dir₀ (files.getD j [])))

end

section
variable {app : App} {n : Nat} {files : List GoString} {dir₀ dir : Dir}

theorem MapsDone.partitioned {n : Int} {js : List Nat} (h : app.MapsDone n files dir₀ js dir)
    (hclean : ∀ i < n.toNat, ∀ name ∈ dir₀.keys, ofPartition i name = false) (hall : ∀ j, j ∈ js ↔ j < files.length) :
    app.Partitioned n.toNat files dir₀ dir := by
  intro i hi name hname text
  constructor
  · intro hget
    by_contra hno
    -- then the file was there before the job
    have hold : dir.get? name = dir₀.get? name := by
      refine h.other name fun j hj i' hi' heq => hno ?_
      subst heq
      obtain rfl := ofPartition_mapResult.mp hname
      rw [h.written j hj i' hi', Option.some.injEq] at hget
      exact ⟨j, (hall j).mp hj, rfl, hget.symm⟩
    have hfalse := hclean i hi name (GoMap.get?_isSome.mp (by rw [← hold, hget]; rfl))
    rw [hname] at hfalse
    cases hfalse
  · rintro ⟨j, hj, rfl, rfl⟩
    exact h.written j ((hall j).mpr hj) i hi

theorem Partitioned.insert_mrOut (h : app.Partitioned n files dir₀ dir) (k : Nat) (text : GoString) :
    app.Partitioned n files dir₀ (dir.insert (mrOut k) text) := by
  intro i hi name hname
  have hne : name ≠ mrOut k := by
    rintro rfl
    have := isIntermediate_of_ofPartition hname
    rw [isIntermediate_mrOut] at this
    cases this
  rw [GoMap.get?_insert_of_ne hne]
  exact h i hi name hname

theorem Partitioned.files_perm (h : app.Partitioned n files dir₀ dir) {i : Nat} (hi : i < n) :
    (partitionFiles dir i).Perm ((List.range files.length).map (mapResult · i)) := by
  refine partitionFiles_perm fun name hname => ?_
  rw [Option.isSome_iff_exists]
  constructor
  · rintro ⟨text, htext⟩
    obtain ⟨j, hj, heq, -⟩ := (h i hi name hname text).mp htext
    exact ⟨j, hj, heq⟩
  · rintro ⟨j, hj, rfl⟩
    exact ⟨_, (h i hi _ hname _).mpr ⟨j, hj, rfl, rfl⟩⟩

theorem flatMap_getD (files : List GoString) (f : GoString → List KeyValue) :
    ((List.range files.length).flatMap fun j => f (files.getD j [])) = files.flatMap f := by
  induction files with
  | nil => rfl
  | cons name files ih =>
    rw [List.length_cons, List.range_succ_eq_map, List.flatMap_cons, List.flatMap_map]
    simpa using ih

variable (hf : app.OrderFree) (hne : files ≠ []) (hprint : ∀ kv ∈ app.allPairs files dir₀, Printable kv)
include hf hne hprint

theorem Partitioned.reducetask (h : app.Partitioned n files dir₀ dir) (reply : Reply) (hi : reply.index < n) :
    app.reducetask reply dir =
      .ok (dir.insert (mrOut reply.index) (app.reduceOutput (bucket n reply.index (app.allPairs files dir₀)))) := by
  generalize hidx : reply.index = i at hi
  have hperm := h.files_perm hi
  -- each of the files is read without an error
  have hpairs : ∀ j < files.length, (dir.get? (mapResult j i)).bind readPairs =
      some (bucket n i (app.mapped dir₀ (files.getD j []))) := by
    intro j hj
    rw [(h i hi _ (ofPartition_mapResult.mpr rfl) _).mpr ⟨j, hj, rfl, rfl⟩, Option.bind_some]
    refine readPairs_encode fun kv hkv => hprint kv ?_
    exact List.mem_flatMap.mpr ⟨_, getD_mem hj, List.mem_of_mem_filter hkv⟩
  have hreads : ∀ name ∈ partitionFiles dir i, ∃ kvs, (dir.get? name).bind readPairs = some kvs := by
    intro name hname
    obtain ⟨j, hj, rfl⟩ := List.mem_map.mp (hperm.mem_iff.mp hname)
    exact ⟨_, hpairs j (List.mem_range.mp hj)⟩
  have hkva : ((partitionFiles dir i).flatMap (pairsIn dir)).Perm (bucket n i (app.allPairs files dir₀)) := by
    refine (hperm.flatMap_right _).trans (List.Perm.of_eq ?_)
    calc ((List.range files.length).map (mapResult · i)).flatMap (pairsIn dir)
        = (List.range files.length).flatMap fun j => bucket n i (app.mapped dir₀ (files.getD j [])) := by
          rw [List.flatMap_map]
          refine List.flatMap_congr fun j hj => ?_
          rw [pairsIn, hpairs j (List.mem_range.mp hj), Option.getD_some]
      _ = files.flatMap fun name => bucket n i (app.mapped dir₀ name) :=
          flatMap_getD files fun name => bucket n i (app.mapped dir₀ name)
      _ = bucket n i (app.allPairs files dir₀) := by
          rw [allPairs, bucket, List.filter_flatMap]
          rfl
  have hsome : partitionFiles dir i ≠ [] := by
    intro hnil
    rw [hnil, List.nil_perm, List.map_eq_nil_iff, List.range_eq_nil, List.length_eq_zero_iff] at hperm
    exact hne hperm
  rw [App.reducetask, hidx]
  split
  · exact absurd ‹_› hsome
  · rw [readFiles_eq hreads, List.nil_append]
    simp only [reduceOutput_congr hf app.sorting hkva]

theorem Partitioned.runReduces {order : List Nat} (h : app.Partitioned n files dir₀ dir) (hlt : ∀ i ∈ order, i < n) :
    ∃ dir', app.runReduces order dir = .ok dir' ∧ (∀ i ∈ order, dir'.get? (mrOut i) =
      some (app.reduceOutput (bucket n i (app.allPairs files dir₀)))) ∧
      ∀ i ∉ order, dir'.get? (mrOut i) = dir.get? (mrOut i) := by
  induction order generalizing dir with
  | nil => exact ⟨dir, rfl, by simp, by simp⟩
  | cons i order ih =>
    have htask := h.reducetask hf hne hprint ⟨.reduce, 0, reduceKey i, i, 0⟩ (hlt i List.mem_cons_self)
    obtain ⟨dir', hrun, hin, hout⟩ := ih (h.insert_mrOut i _) fun i' hi' => hlt i' (List.mem_cons_of_mem _ hi')
    refine ⟨dir', by rw [App.runReduces, htask]; exact hrun, fun i' hi' => ?_, fun i' hi' => ?_⟩
    · by_cases hmem : i' ∈ order
      · exact hin i' hmem
      · obtain rfl := (List.mem_cons.mp hi').resolve_right hmem
        rw [hout i' hmem, GoMap.get?_insert_self]
    · rw [List.mem_cons, not_or] at hi'
      rw [hout i' hi'.2, GoMap.get?_insert_of_ne fun heq => hi'.1 (mrOut_injective heq)]

end

/-! ## Agreement -/

/-- In a directory without old intermediate files, the map tasks on all files and
then the reduce tasks, in any order and each at least once, write the lines that
the sequential program writes: every key in one file, reduced once with all its
values. -/
theorem mapreduce_agrees {app : App} (hf : app.OrderFree) (sorting : KeySort) {n : Int} (hn : 1 ≤ n)
    {files : List GoString} {dir : Dir} {out : GoString}
    (hseq : { app with sorting }.mrsequential dir files = some out)
    (hprint : ∀ kv ∈ app.allPairs files dir, Printable kv)
    (hclean : ∀ i < n.toNat, ∀ name ∈ dir.keys, ofPartition i name = false) (mapOrder reduceOrder : List Nat)
    (hmaps : ∀ j, j ∈ mapOrder ↔ j < files.length) (hreduces : ∀ i, i ∈ reduceOrder ↔ i < n.toNat) :
    ∃ dir', app.runTasks n files mapOrder reduceOrder dir = .ok dir' ∧
      ∃ records : Nat → List (GoString × GoString),
        (∀ i < n.toNat, dir'.get? (mrOut i) = some ((records i).flatMap outLine)) ∧
        ((List.range n.toNat).flatMap fun i => lines 10 ((records i).flatMap outLine)).Perm (lines 10 out) ∧
        ∀ i < n.toNat, ((records i).map Prod.fst).Nodup ∧ ∀ key value, (key, value) ∈ records i ↔
          key ∈ (app.allPairs files dir).map Prod.fst ∧ ihash key % n.toNat = i ∧
            value = app.reducef key (valuesOf (app.allPairs files dir) key) := by
  obtain ⟨hne, kva, hinputs, rfl⟩ : files ≠ [] ∧ ∃ kva, { app with sorting }.readInputs dir files [] = some kva ∧
      { app with sorting }.reduceOutput kva = out := by
    unfold mrsequential at hseq
    split at hseq
    · cases hseq
    · exact ⟨fun hnil => by simp_all, Option.map_eq_some_iff.mp hseq⟩
  obtain ⟨hread, rfl⟩ := readInputs_eq_some _ _ hinputs
  have hstart : app.MapsDone n files dir [] dir := ⟨by simp, fun _ _ => rfl⟩
  obtain ⟨dir₁, hrun₁, hdone⟩ := hstart.runMaps (by omega) hclean hread fun j hj => (hmaps j).mp hj
  have hparts := hdone.partitioned hclean (by simpa using hmaps)
  obtain ⟨dir₂, hrun₂, htexts, -⟩ := hparts.runReduces hf hne hprint fun i hi => (hreduces i).mp hi
  -- both sorts order the pairs of one bucket alike up to equal keys
  have hbucket : ∀ (sorting : KeySort) (i : Nat), (app.sorting.sort (bucket n.toNat i (app.allPairs files dir))).Perm
      ((sorting.sort (app.allPairs files dir)).filter fun kv => ihash kv.1 % n.toNat = i) :=
    fun sorting i => (app.sorting.perm _).trans ((sorting.perm _).symm.filter _)
  refine ⟨dir₂, by rw [runTasks, hrun₁]; exact hrun₂,
    fun i => summarize app.reducef (app.sorting.sort (bucket n.toNat i (app.allPairs files dir))),
    fun i hi => htexts i ((hreduces i).mpr hi), ?_, fun i hi => ⟨?_, fun key value => ?_⟩⟩
  · have hparts := summarize_partition hf (p := fun key => ihash key % n.toNat) (n := n.toNat)
      (fun key => Nat.mod_lt _ (by omega)) (sorting.ascending _) (fun i => app.sorting.ascending _)
      fun i _ => hbucket sorting i
    have hlines := hparts.flatMap_right fun s => lines 10 (outLine s)
    rw [List.flatMap_assoc] at hlines
    rw [List.nil_append, lines_reduceOutput]
    refine List.Perm.trans (List.Perm.of_eq (List.flatMap_congr fun i _ => ?_)) hlines
    exact lines_reduceOutput _
  · exact List.pairwise_map.mpr ((summarize_pairwise _ (app.sorting.ascending _)).imp fun h => h.2)
  · rw [mem_summarize_part hf (p := fun key => ihash key % n.toNat) (app.sorting.ascending _)
        (app.sorting.ascending _) (hbucket app.sorting i),
      mem_summarize _ (app.sorting.ascending _), ((app.sorting.perm _).map Prod.fst).mem_iff,
      hf key _ _ (valuesOf_perm (app.sorting.perm _) key)]
    exact and_left_comm

/-! ## Counting words -/

def stableSort : KeySort where
  sort kva := kva.insertionSort fun a b => a.1 ≤ b.1
  perm kva := List.perm_insertionSort _ kva
  ascending kva := List.pairwise_insertionSort (r := fun a b : KeyValue => a.1 ≤ b.1) kva

def wordCount : App where
  mapf _ content := (lines 9 content).map fun word => (word, bytes "1")
  reducef _ values := decimal values.length
  sorting := stableSort

theorem wordCount_orderFree : wordCount.OrderFree := fun _ _ _ h => congrArg decimal h.length_eq

instance (kv : KeyValue) : Decidable (Printable kv) :=
  decidable_of_iff (((9 : UInt8) ∉ kv.1 ∧ (10 : UInt8) ∉ kv.1) ∧ ((10 : UInt8) ∉ kv.2 ∧ kv.2.getLast? ≠ some 13) ∧
    (kv.1 ++ 9 :: kv.2).length < maxTokenSize) ⟨fun ⟨hk, hv, hl⟩ => ⟨hk, hv, hl⟩, fun h => ⟨h.key, h.value, h.fits⟩⟩

def twoTexts : Dir := (GoMap.empty.insert (bytes "a") (bytes "k\tv")).insert (bytes "b") (bytes "k")

theorem twoTexts_agree : wordCount.mrsequential twoTexts [bytes "a", bytes "b"] = some (bytes "k 2\nv 1\n") ∧
    ∃ dir', wordCount.runTasks 2 [bytes "a", bytes "b"] [1, 0] [0, 1] twoTexts = .ok dir' ∧
      ∃ records : Nat → List (GoString × GoString),
        (∀ i < 2, dir'.get? (mrOut i) = some ((records i).flatMap outLine)) ∧
        ((List.range 2).flatMap fun i => lines 10 ((records i).flatMap outLine)).Perm
          (lines 10 (bytes "k 2\nv 1\n")) := by
  have hseq : wordCount.mrsequential twoTexts [bytes "a", bytes "b"] = some (bytes "k 2\nv 1\n") := by decide +kernel
  obtain ⟨dir', hrun, records, htexts, hlines, -⟩ := mapreduce_agrees wordCount_orderFree stableSort
    (show (1 : Int) ≤ 2 by decide) hseq (by decide +kernel) (by decide +kernel)
    [1, 0] [0, 1] (by simp; omega) (by simp; omega)
  exact ⟨hseq, dir', hrun, records, htexts, hlines⟩

/-- An input file whose name is that of an intermediate file. -/
def oneText : Dir := GoMap.empty.insert (bytes "map-result-x-0") (bytes "k\tv")

/-- The reduce task reads the input file, too. -/
theorem oneText_disagrees : wordCount.mrsequential oneText [bytes "map-result-x-0"] = some (bytes "k 1\nv 1\n") ∧
    (∀ kv ∈ wordCount.allPairs [bytes "map-result-x-0"] oneText, Printable kv) ∧
    (wordCount.runTasks 1 [bytes "map-result-x-0"] [0] [0] oneText).toOption.bind (·.get? (mrOut 0)) =
      some (bytes "k 2\nv 1\n") ∧
    ¬ (lines 10 (bytes "k 2\nv 1\n")).Perm (lines 10 (bytes "k 1\nv 1\n")) := by
  refine ⟨by decide +kernel, by decide +kernel, by decide +kernel, by decide +kernel⟩

end App

end DistLab
