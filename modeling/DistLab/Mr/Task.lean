import DistLab.Lib.GroupBy
import DistLab.Mr.Files

/-!
# Map and reduce tasks

`maptask` and `reducetask` of a worker, and the sequential program that does the
same job in one list. The directory is the only thing the tasks share. Both
tasks are made of pieces, so that a worker can also run them piece by piece.
-/

namespace DistLab

abbrev KeyValue := GoString × GoString

def fnv32a (key : GoString) : UInt32 := key.foldl (fun h c => (h ^^^ c.toUInt32) * 16777619) 2166136261

def ihash (key : GoString) : Nat := (fnv32a key &&& 0x7fffffff).toNat

/-- A sort by key. Which of two pairs with the same key comes first is up to it. -/
structure KeySort where
  sort : List KeyValue → List KeyValue
  perm : ∀ kva, (sort kva).Perm kva
  ascending : ∀ kva, KeyAscending (sort kva)

/-- The functions of the application, and how `sort` treats equal keys. -/
structure App where
  mapf : GoString → GoString → List KeyValue
  reducef : GoString → List GoString → GoString
  sorting : KeySort

/-- `Reply.T`; `unset` is the empty string. -/
inductive TaskType
  | unset
  | map
  | reduce
  | wait
  | exit
deriving DecidableEq, Repr

structure Reply where
  t : TaskType
  n : Int
  addr : GoString
  index : Nat
  mapIndex : Nat
deriving DecidableEq, Repr

def Reply.zero : Reply := ⟨.unset, 0, [], 0, 0⟩

inductive TaskError
  | cannotOpen (name : GoString)
  | noFiles (index : Nat)
  | scanner (name : GoString)
  | panicked
deriving DecidableEq, Repr

namespace App

variable (app : App)

/-! ## Map -/

def pairLine (kv : KeyValue) : GoString := kv.1 ++ 9 :: (kv.2 ++ [10])

/-- The temporary files after the loop over the pairs. `make` panics on a negative
length, and `%` on zero. -/
def fillFiles (n : Int) (kva : List KeyValue) : Option (List GoString) :=
  if n < 0 then none
  else if n = 0 ∧ kva ≠ [] then none
  else some (kva.foldl (fun tmpFiles kv => tmpFiles.modify (ihash kv.1 % n.toNat) (· ++ pairLine kv))
    (List.replicate n.toNat []))

def mapWrites (reply : Reply) (content : GoString) : Option (List (GoString × GoString)) :=
  (fillFiles reply.n (app.mapf reply.addr content)).map fun tmpFiles =>
    tmpFiles.zipIdx.map fun p => (mapResult reply.mapIndex p.2, p.1)

def maptask (reply : Reply) (dir : Dir) : Except TaskError Dir :=
  match dir.get? reply.addr with
  | none => .error (.cannotOpen reply.addr)
  | some content =>
    match app.mapWrites reply content with
    | none => .error .panicked
    | some writes => .ok (writes.foldl (fun dir w => dir.insert w.1 w.2) dir)

/-! ## Reduce -/

def maxTokenSize : Nat := 1024 * 1024

/-- `bufio.ScanLines` drops a carriage return at the end of a line. -/
def dropCR (line : GoString) : GoString := if line.getLast? = some 13 then line.dropLast else line

/-- All tokens of the scanner, unless a line does not fit its buffer. -/
def scan (content : GoString) : Option (List GoString) :=
  if (lines 10 content).all (fun line => line.length < maxTokenSize) then some ((lines 10 content).map dropCR) else none

/-- The pairs of an intermediate file; a line without a tab is skipped. -/
def readPairs (content : GoString) : Option (List KeyValue) := (scan content).map fun tokens => tokens.filterMap (cut 9)

def readFiles (dir : Dir) : List GoString → List KeyValue → Except TaskError (List KeyValue)
  | [], kva => .ok kva
  | fname :: files, kva =>
    match dir.get? fname with
    | none => .error (.cannotOpen fname)
    | some content =>
      match readPairs content with
      | none => .error (.scanner fname)
      | some kvs => readFiles dir files (kva ++ kvs)

def outLine (s : GoString × GoString) : GoString := s.1 ++ 32 :: s.2 ++ [10]

def reduceOutput (kva : List KeyValue) : GoString :=
  (summarize app.reducef (app.sorting.sort kva)).flatMap outLine

def partitionFiles (dir : Dir) (index : Nat) : List GoString :=
  dir.glob (bytes "map-result-") (bytes "-" ++ decimal index)

def reducetask (reply : Reply) (dir : Dir) : Except TaskError Dir :=
  match partitionFiles dir reply.index with
  | [] => .error (.noFiles reply.index)
  | files =>
    match readFiles dir files [] with
    | .error e => .error e
    | .ok kva => .ok (dir.insert (mrOut reply.index) (app.reduceOutput kva))

/-! ## The sequential program -/

def readInputs (dir : Dir) : List GoString → List KeyValue → Option (List KeyValue)
  | [], intermediate => some intermediate
  | filename :: files, intermediate =>
    match dir.get? filename with
    | none => none
    | some content => readInputs dir files (intermediate ++ app.mapf filename content)

/-- `main` of `mrsequential.go`: the content of its output file, unless it exits
before it writes one. -/
def mrsequential (dir : Dir) (files : List GoString) : Option GoString :=
  match files with
  | [] => none
  | _ => (app.readInputs dir files []).map app.reduceOutput

end App

end DistLab
