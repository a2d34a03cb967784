import DistLab.Lib.Linear
import Mathlib.Data.Countable.Basic
import Mathlib.Logic.Equiv.List

/-!
# The key/value map

What the clients of `kvraft` and `shardkv` call and what they expect of it: one
map from keys to strings, in which a key that was never written reads as the
empty string.
-/

namespace DistLab

abbrev GoString := List UInt8

inductive Err
  | ok
  | errNoKey
  | errWrongGroup
  | errWrongLeader
  | errTimeout
  | errNotReady
deriving DecidableEq, Repr

inductive OpType
  | get
  | put
  | append
deriving DecidableEq, Repr

/-- `models.KvInput`; the value of a `Get` is empty. -/
structure KvInput where
  opType : OpType
  key : GoString
  value : GoString
deriving DecidableEq, Repr

structure KvReply where
  err : Err
  value : GoString
deriving DecidableEq, Repr

abbrev Store := GoString → Option GoString

namespace Store

def empty : Store := fun _ => none

def read (m : Store) (key : GoString) : GoString := (m key).getD []

def set (m : Store) (key value : GoString) : Store := Function.update m key (some value)

/-- `applyOp` of `kvraft` and `applyKVOp` of `shardkv`. -/
def applyOp (m : Store) (op : KvInput) : Store × KvReply :=
  match op.opType with
  | .get =>
    match m op.key with
    | none => (m, ⟨.errNoKey, []⟩)
    | some v => (m, ⟨.ok, v⟩)
  | .put => (m.set op.key op.value, ⟨.ok, []⟩)
  | .append => (m.set op.key (m.read op.key ++ op.value), ⟨.ok, []⟩)

end Store

/-- What a clerk's call returns for an answer; `none` makes it try again. -/
def KvInput.returns (op : KvInput) (reply : KvReply) : Option GoString :=
  match op.opType, reply.err with
  | .get, .ok => some reply.value
  | .get, .errNoKey => some []
  | .get, _ => none
  | _, .ok => some []
  | _, _ => none

/-! ## Tables of last replies -/

/-- The table has an entry of the client with this number or a later one. -/
def TableCovers {E : Type} (seqId : E → Nat) (table : Nat → Option E) (c s : Nat) : Prop :=
  ∃ e, table c = some e ∧ s ≤ seqId e

section
variable {E : Type} {seqId : E → Nat} {table : Nat → Option E} {c s : Nat}

theorem TableCovers.lt_of_not {s' : Nat} (h : TableCovers seqId table c s) (hn : ¬ TableCovers seqId table c s') :
    s < s' := by
  obtain ⟨e, he, hle⟩ := h
  exact Nat.lt_of_not_le fun hs => hn ⟨e, he, hs.trans hle⟩

theorem TableCovers.update (h : TableCovers seqId table c s) {c' : Nat} {e : E}
    (hn : ¬ TableCovers seqId table c' (seqId e)) : TableCovers seqId (Function.update table c' (some e)) c s := by
  by_cases hc : c = c'
  · subst hc
    exact ⟨e, Function.update_self .., (h.lt_of_not hn).le⟩
  · obtain ⟨old, he, hle⟩ := h
    exact ⟨old, (Function.update_of_ne hc ..).trans he, hle⟩

end

/-! ## There are countably many -/

instance countableByte : Countable UInt8 := Function.Injective.countable (f := UInt8.toNat) fun _ _ h => UInt8.toNat_inj.mp h

instance : Countable OpType := by
  refine Function.Injective.countable (f := OpType.ctorIdx) fun s t h => ?_
  cases s <;> cases t <;> first | rfl | cases h

instance : Countable Err := by
  refine Function.Injective.countable (f := Err.ctorIdx) fun s t h => ?_
  cases s <;> cases t <;> first | rfl | cases h

instance : Countable KvInput := by
  refine Function.Injective.countable (f := fun x : KvInput => (x.opType, x.key, x.value)) ?_
  rintro ⟨t, k, v⟩ ⟨t', k', v'⟩ h
  cases h
  rfl

/-! ## The specification -/

/-- `models.KvModel` for all keys at once. -/
def kvModel : Object (GoString → GoString) KvInput GoString where
  init _ := []
  step m op :=
    match op.opType with
    | .get => (m, m op.key)
    | .put => (Function.update m op.key op.value, [])
    | .append => (Function.update m op.key (m op.key ++ op.value), [])

theorem kvModel_reads {op : KvInput} (h : op.opType = .get) : kvModel.Reads op := by
  intro m
  simp only [kvModel, h]

theorem Store.read_set (m : Store) (key value : GoString) :
    (m.set key value).read = Function.update m.read key value := by
  funext k
  by_cases hk : k = key
  · simp [read, set, hk]
  · simp [read, set, hk]

theorem Store.read_applyOp (m : Store) (op : KvInput) : (m.applyOp op).1.read = (kvModel.step m.read op).1 := by
  obtain ⟨t, k, v⟩ := op
  cases t with
  | get =>
    simp only [applyOp, kvModel]
    cases m k <;> rfl
  | put => exact m.read_set k v
  | append => exact m.read_set k _

/-- An answer that a clerk accepts is the one of the specification. -/
theorem Store.returns_applyOp {m : Store} {op : KvInput} {y : GoString}
    (h : op.returns (m.applyOp op).2 = some y) : y = (kvModel.step m.read op).2 := by
  obtain ⟨t, k, v⟩ := op
  cases t with
  | get =>
    simp only [applyOp, KvInput.returns] at h
    show y = (m k).getD []
    cases hm : m k with
    | none => simp only [hm] at h; cases h; rfl
    | some w => simp only [hm] at h; cases h; rfl
  | put => exact (Option.some.inj h).symm
  | append => exact (Option.some.inj h).symm

theorem kvModel_write {op : KvInput} (hop : op.opType ≠ .get) (m : GoString → GoString) :
    (kvModel.step m op).2 = [] := by
  obtain ⟨t, k, v⟩ := op
  cases t with
  | get => exact absurd rfl hop
  | put => rfl
  | append => rfl

theorem KvInput.returns_err {op : KvInput} {reply : KvReply} {y : GoString} (h : op.returns reply = some y) :
    reply.err = .ok ∨ reply.err = .errNoKey := by
  obtain ⟨t, k, v⟩ := op
  obtain ⟨err, value⟩ := reply
  cases t <;> cases err <;> first | exact Or.inl rfl | exact Or.inr rfl | cases h

theorem KvInput.returns_of_err {op : KvInput} (hop : op.opType ≠ .get) (reply : KvReply) :
    op.returns ⟨reply.err, []⟩ = op.returns reply := by
  obtain ⟨t, k, v⟩ := op
  obtain ⟨err, value⟩ := reply
  cases t with
  | get => exact absurd rfl hop
  | put => cases err <;> rfl
  | append => cases err <;> rfl

theorem KvInput.returns_write {op : KvInput} (hop : op.opType ≠ .get) {reply : KvReply} {y : GoString}
    (h : op.returns reply = some y) : y = [] := by
  obtain ⟨t, k, v⟩ := op
  obtain ⟨err, value⟩ := reply
  cases t with
  | get => exact absurd rfl hop
  | put => cases err <;> cases h; rfl
  | append => cases err <;> cases h; rfl

end DistLab
