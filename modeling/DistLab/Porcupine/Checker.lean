import DistLab.Lib.Links
import DistLab.Porcupine.Bitset

/-!
# The linearizability checker

`porcupine` decides whether the operations of a history can be put in an order
that the model accepts and that respects real time. It keeps the calls and
returns that are not in the order yet in a doubly linked list, lifts an operation
out of the list when it puts it in the order, and puts it back when it
backtracks. A nil pointer that is followed, an index out of range and a value of
the wrong type give `none`.
-/

namespace DistLab

/-- `Model`, without the partition of a history. -/
structure CheckModel (St In Out : Type) where
  init : St
  step : St → In → Out → Bool × St
  equal : St → St → Bool

structure Operation (In Out : Type) where
  input : In
  call : Int
  output : Out
  ret : Int

/-! ## Entries -/

inductive EntryValue (In Out : Type)
  | call (input : In)
  | ret (output : Out)

structure Entry (In Out : Type) where
  value : EntryValue In Out
  id : Nat
  time : Int

section
variable {St In Out : Type}

def Entry.isCall (e : Entry In Out) : Bool :=
  match e.value with
  | .call _ => true
  | .ret _ => false

def Entry.less (a b : Entry In Out) : Bool :=
  if a.time ≠ b.time then a.time < b.time else a.isCall && !b.isCall

def rawEntries (history : List (Operation In Out)) : List (Entry In Out) :=
  history.zipIdx.flatMap fun p => [⟨.call p.1.input, p.2, p.1.call⟩, ⟨.ret p.1.output, p.2, p.1.ret⟩]

/-- What `sort.Sort` leaves open: entries that `Less` does not tell apart are in
any order. -/
structure MakesEntries (history : List (Operation In Out)) (entries : List (Entry In Out)) : Prop where
  perm : entries.Perm (rawEntries history)
  sorted : entries.Pairwise fun a b => b.less a = false

def makeEntries (history : List (Operation In Out)) : List (Entry In Out) :=
  (rawEntries history).mergeSort fun a b => !b.less a

/-! ## The linked list -/

/-- A node without its pointers in the list. `matching` is the return of a call. -/
structure Node (In Out : Type) where
  value : Option (EntryValue In Out)
  matching : Option Nat
  id : Int

def insertBefore (L : Links Nat) (n : Nat) (mark : Option Nat) : Links Nat :=
  match mark with
  | none => L
  | some mark =>
    let beforeMark := L.prev mark
    let L := (L.setPrev mark (some n)).setNext n (some mark)
    match beforeMark with
    | none => L
    | some b => (L.setPrev n (some b)).setNext b (some n)

/-- `makeLinkedEntries` while it runs: the nodes, their pointers, the first node,
and the map `match` from ids to returns. -/
structure Linking (In Out : Type) where
  node : Nat → Node In Out
  links : Links Nat
  root : Option Nat
  matching : Nat → Option Nat

def Linking.empty : Linking In Out := ⟨fun _ => ⟨none, none, -1⟩, ⟨fun _ => none, fun _ => none⟩, none, fun _ => none⟩

/-- One turn of the loop of `makeLinkedEntries`. The node of the entry at position
`i` has the address `i`. -/
def Linking.add (k : Linking In Out) (i : Nat) (elem : Entry In Out) : Linking In Out :=
  match elem.value with
  | .ret _ =>
    { node := Function.update k.node i ⟨some elem.value, none, elem.id⟩
      links := insertBefore k.links i k.root
      root := some i
      matching := Function.update k.matching elem.id (some i) }
  | .call _ =>
    { node := Function.update k.node i ⟨some elem.value, k.matching elem.id, elem.id⟩
      links := insertBefore k.links i k.root
      root := some i
      matching := k.matching }

def makeLinkedEntries (entries : List (Entry In Out)) : Linking In Out :=
  entries.zipIdx.foldr (fun p k => k.add p.2 p.1) Linking.empty

/-- `length`; the list has no more nodes than the fuel. -/
def Links.length (L : Links Nat) : Nat → Option Nat → Nat
  | _, none => 0
  | 0, some _ => 0
  | fuel + 1, some n => L.length fuel (L.next n) + 1

def lift (L : Links Nat) (entry matching : Nat) : Option (Links Nat) := do
  let p ← L.prev entry
  let L := L.setNext p (L.next entry)
  let n ← L.next entry
  let L := L.setPrev n (L.prev entry)
  let p ← L.prev matching
  let L := L.setNext p (L.next matching)
  some (L.setPrev? (L.next matching) (L.prev matching))

def unlift (L : Links Nat) (entry matching : Nat) : Option (Links Nat) := do
  let p ← L.prev matching
  let L := L.setNext p (some matching)
  let L := L.setPrev? (L.next matching) (some matching)
  let p ← L.prev entry
  let L := L.setNext p (some entry)
  let n ← L.next entry
  some (L.setPrev n (some entry))

/-! ## checkSingle -/

abbrev CheckCache (St : Type) := BitVec 64 → List (Bitset × St)

def cacheContains (M : CheckModel St In Out) (cache : CheckCache St) (entry : Bitset × St) : Bool :=
  (cache entry.1.hash).any fun elem => entry.1.equals elem.1 && M.equal entry.2 elem.2

abbrev Longest := Nat → Option (List Nat)

/-- The variables of `checkSingle`. The last element of `calls` comes first. -/
structure Checker (St In Out : Type) where
  node : Nat → Node In Out
  headEntry : Nat
  links : Links Nat
  entry : Option Nat
  n : Nat
  linearized : Bitset
  cache : CheckCache St
  calls : List (Nat × St)
  longest : Longest
  state : St

namespace Checker

def seq (c : Checker St In Out) : List Nat := (c.calls.map fun v => (c.node v.1).id.toNat).reverse

/-- One turn of the loop over `calls` that keeps the longest linearization of each
entry. -/
def keep (c : Checker St In Out) (longest : Longest) (id : Nat) : Longest :=
  match longest id with
  | none => Function.update longest id (some c.seq)
  | some old => if old.length < c.calls.length then Function.update longest id (some c.seq) else longest

def record (c : Checker St In Out) : Longest := c.seq.foldl c.keep c.longest

/-- `entry` is a call. -/
def tryCall (M : CheckModel St In Out) (c : Checker St In Out) (entry matching : Nat) : Option (Checker St In Out) :=
  match (c.node entry).value, (c.node matching).value with
  | some (.call input), some (.ret output) =>
    let (ok, newState) := M.step c.state input output
    if ok then do
      let newLinearized ← c.linearized.set (c.node entry).id.toNat
      if cacheContains M c.cache (newLinearized, newState) then some { c with entry := c.links.next entry }
      else
        let hash := newLinearized.hash
        let links ← lift c.links entry matching
        some { c with
          cache := Function.update c.cache hash (c.cache hash ++ [(newLinearized, newState)])
          calls := (entry, c.state) :: c.calls
          state := newState
          linearized := newLinearized
          links := links
          entry := links.next c.headEntry }
    else some { c with entry := c.links.next entry }
  | _, _ => none

/-- `entry` is a return: the last call is taken back. -/
def backtrack (computePartial : Bool) (c : Checker St In Out) (top : Nat) (state : St) (calls : List (Nat × St)) :
    Option (Checker St In Out) := do
  let longest := if computePartial then c.record else c.longest
  let linearized ← c.linearized.clear (c.node top).id.toNat
  let links ← (c.node top).matching.bind (unlift c.links top)
  some { c with longest, state, linearized, calls, links, entry := links.next top }

def next (M : CheckModel St In Out) (computePartial kill : Bool) (c : Checker St In Out) :
    Option (Checker St In Out ⊕ Bool × Longest) :=
  match c.links.next c.headEntry with
  | none => some (.inr (true, fun i => if i < c.n then some c.seq else c.longest i))
  | some _ =>
    if kill then some (.inr (false, c.longest))
    else
      match c.entry with
      | none => none
      | some entry =>
        match (c.node entry).matching with
        | some matching => (c.tryCall M entry matching).map .inl
        | none =>
          match c.calls with
          | [] => some (.inr (false, c.longest))
          | (top, state) :: calls => (c.backtrack computePartial top state calls).map .inl

/-- Before the loop. The address of `headEntry` is the number of entries. -/
def start (M : CheckModel St In Out) (history : List (Entry In Out)) : Checker St In Out :=
  let k := makeLinkedEntries history
  let n := k.links.length history.length k.root / 2
  { node := k.node
    headEntry := history.length
    links := insertBefore k.links history.length k.root
    entry := k.root
    n := n
    linearized := Bitset.newBitset n
    cache := fun _ => []
    calls := []
    longest := fun _ => none
    state := M.init }

/-- The loop, if nobody sets `kill`. -/
def run (M : CheckModel St In Out) (computePartial : Bool) :
    Nat → Checker St In Out → Option (Checker St In Out ⊕ Bool × Longest)
  | 0, c => some (.inl c)
  | fuel + 1, c =>
    match c.next M computePartial false with
    | some (.inl c) => run M computePartial fuel c
    | other => other

end Checker

def checkSingle (M : CheckModel St In Out) (history : List (Entry In Out)) (computePartial : Bool) (fuel : Nat) :
    Option (Checker St In Out ⊕ Bool × Longest) := (Checker.start M history).run M computePartial fuel

/-! ## What it decides -/

def CheckModel.Accepts (M : CheckModel St In Out) : St → List (Operation In Out) → Prop
  | _, [] => True
  | s, op :: ops => (M.step s op.input op.output).1 = true ∧ M.Accepts (M.step s op.input op.output).2 ops

/-- Some order of the operations is accepted and has no operation before one that
returned earlier than it was called. -/
def CheckModel.Linearizable (M : CheckModel St In Out) (history : List (Operation In Out)) : Prop :=
  ∃ l, l.Perm history ∧ M.Accepts M.init l ∧ l.Pairwise fun a b => a.call ≤ b.ret

/-- States that `Equal` identifies have the same future. -/
def CheckModel.Lawful (M : CheckModel St In Out) : Prop :=
  ∀ s t, M.equal s t = true → ∀ x y, (M.step s x y).1 = (M.step t x y).1 ∧
    M.equal (M.step s x y).2 (M.step t x y).2 = true

end

end DistLab
