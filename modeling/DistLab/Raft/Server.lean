import Mathlib.Data.Fin.Basic
import Mathlib.Data.List.FinRange
import Mathlib.Tactic.Common

/-!
# One Raft server

The state of a server and the critical sections of `raft.go`, each a function
on that state. A term or a vote of `-1` is `none`. The snapshot bytes have an
arbitrary type `S`: Raft stores and forwards them and never looks inside. A
slice expression out of range panics in Go; here it gives `none`.
-/

namespace DistLab

/-! ## Slices -/

section
variable {α : Type*}

def goIndex (l : List α) (i : Int) : Option α :=
  if 0 ≤ i then l[i.toNat]? else none

def goFrom (l : List α) (i : Int) : Option (List α) :=
  if 0 ≤ i ∧ i ≤ l.length then some (l.drop i.toNat) else none

def goTo (l : List α) (i : Int) : Option (List α) :=
  if 0 ≤ i ∧ i ≤ l.length then some (l.take i.toNat) else none

end

/-! ## State -/

inductive Role
  | follower
  | candidate
  | leader
deriving DecidableEq, Repr

structure LogEntry (C : Type) where
  term : Nat
  command : C
deriving DecidableEq, Repr

inductive ApplyMsg (C S : Type)
  | command (command : C) (commandIndex : Nat)
  | snapshot (snapshot : S) (snapshotTerm snapshotIndex : Nat)
deriving DecidableEq, Repr

/-- What one call of `Encode` adds to a gob stream. -/
inductive GobValue (C : Type)
  | int (v : Int)
  | entries (v : List (LogEntry C))
deriving DecidableEq, Repr

structure Persister (C S : Type) where
  raftstate : List (GobValue C)
  snapshot : S

structure HardState (N : Nat) (C : Type) where
  currentTerm : Nat
  votedFor : Option (Fin N)
  log : List (LogEntry C)
  lastIncludedIndex : Nat
  lastIncludedTerm : Nat
deriving DecidableEq, Repr

structure Raft (N : Nat) (C S : Type) where
  persister : Persister C S
  me : Fin N
  state : Role
  currentTerm : Nat
  votedFor : Option (Fin N)
  log : List (LogEntry C)
  lastIncludedIndex : Nat
  lastIncludedTerm : Nat
  commitIndex : Nat
  lastApplied : Nat
  nextIndex : Fin N → Nat
  matchIndex : Fin N → Nat

structure RequestVoteArgs (N : Nat) where
  term : Nat
  candidateId : Fin N
  lastLogIndex : Nat
  lastLogTerm : Nat
deriving DecidableEq, Repr

structure RequestVoteReply where
  term : Nat
  voteGranted : Bool
deriving DecidableEq, Repr

structure AppendEntriesArgs (N : Nat) (C : Type) where
  term : Nat
  leaderId : Fin N
  prevLogIndex : Nat
  prevLogTerm : Option Nat
  entries : List (LogEntry C)
  leaderCommit : Nat
deriving DecidableEq, Repr

structure AppendEntriesReply where
  term : Nat
  success : Bool
  conflictTerm : Option Nat := some 0
  conflictIndex : Nat := 0
deriving DecidableEq, Repr

structure InstallSnapshotArgs (N : Nat) (S : Type) where
  term : Nat
  leaderId : Fin N
  lastIncludedIndex : Nat
  lastIncludedTerm : Nat
  data : S

structure InstallSnapshotReply where
  term : Nat
deriving DecidableEq, Repr

/-! ## The gob stream -/

section
variable {N : Nat} {C : Type}

def voteInt : Option (Fin N) → Int
  | none => -1
  | some i => i.val

def intVote (v : Int) : Option (Fin N) :=
  if h : v.toNat < N ∧ 0 ≤ v then some ⟨v.toNat, h.1⟩ else none

def decodeInt : List (GobValue C) → Option (Int × List (GobValue C))
  | .int v :: rest => some (v, rest)
  | _ => none

def decodeEntries : List (GobValue C) → Option (List (LogEntry C) × List (GobValue C))
  | .entries v :: rest => some (v, rest)
  | _ => none

def HardState.encode (d : HardState N C) : List (GobValue C) :=
  [.int d.currentTerm, .int (voteInt d.votedFor), .entries d.log, .int d.lastIncludedIndex, .int d.lastIncludedTerm]

def HardState.decode (data : List (GobValue C)) : Option (HardState N C) := do
  let (currentTerm, data) ← decodeInt data
  let (votedFor, data) ← decodeInt data
  let (log, data) ← decodeEntries data
  let (lastIncludedIndex, data) ← decodeInt data
  let (lastIncludedTerm, _) ← decodeInt data
  some ⟨currentTerm.toNat, intVote votedFor, log, lastIncludedIndex.toNat, lastIncludedTerm.toNat⟩

@[simp] theorem intVote_voteInt (v : Option (Fin N)) : intVote (voteInt v) = v := by
  cases v with
  | none => simp [voteInt, intVote]
  | some i => simp [voteInt, intVote]

@[simp] theorem HardState.decode_encode (d : HardState N C) : decode d.encode = some d := by
  simp [decode, encode, decodeInt, decodeEntries]

end

/-! ## Persister -/

section
variable {C S : Type}

def Persister.saveRaftState (ps : Persister C S) (state : List (GobValue C)) : Persister C S :=
  { ps with raftstate := state }

def Persister.saveStateAndSnapshot (_ : Persister C S) (state : List (GobValue C)) (snapshot : S) : Persister C S :=
  ⟨state, snapshot⟩

end

namespace Raft

section
variable {N : Nat} {C S : Type} (rf : Raft N C S)

/-! ## Indices and terms -/

def toSliceIndex (globalIndex : Nat) : Int := globalIndex - rf.lastIncludedIndex - 1

def lastLogIndex : Nat := rf.lastIncludedIndex + rf.log.length

def lastLogTerm : Nat :=
  match rf.log.getLast? with
  | none => rf.lastIncludedTerm
  | some e => e.term

def termAt (globalIndex : Nat) : Option Nat :=
  if globalIndex = rf.lastIncludedIndex then some rf.lastIncludedTerm
  else if globalIndex < rf.lastIncludedIndex then none
  else
    let sliceIdx := rf.toSliceIndex globalIndex
    if sliceIdx < 0 ∨ rf.log.length ≤ sliceIdx then none
    else (goIndex rf.log sliceIdx).map LogEntry.term

/-! ## Persistence -/

def hard : HardState N C :=
  ⟨rf.currentTerm, rf.votedFor, rf.log, rf.lastIncludedIndex, rf.lastIncludedTerm⟩

def persist : Raft N C S := { rf with persister := rf.persister.saveRaftState rf.hard.encode }

def persistWithSnapshot (snapshot : S) : Raft N C S :=
  { rf with persister := rf.persister.saveStateAndSnapshot rf.hard.encode snapshot }

def readPersist (data : List (GobValue C)) : Raft N C S :=
  if data.isEmpty then rf
  else
    match HardState.decode data with
    | none => rf
    | some d =>
      { rf with
        currentTerm := d.currentTerm
        votedFor := d.votedFor
        log := d.log
        lastIncludedIndex := d.lastIncludedIndex
        lastIncludedTerm := d.lastIncludedTerm
        commitIndex := d.lastIncludedIndex
        lastApplied := d.lastIncludedIndex }

def make (me : Fin N) (persister : Persister C S) : Raft N C S :=
  readPersist
    { persister, me
      state := .follower
      currentTerm := 0
      votedFor := none
      log := []
      lastIncludedIndex := 0
      lastIncludedTerm := 0
      commitIndex := 0
      lastApplied := 0
      nextIndex := fun _ => 0
      matchIndex := fun _ => 0 }
    persister.raftstate

/-! ## Snapshots -/

def condInstallSnapshot (lastIncludedTerm lastIncludedIndex : Nat) (snapshot : S) : Option (Raft N C S × Bool) :=
  if lastIncludedIndex ≤ rf.commitIndex then some (rf, false)
  else do
    let log ←
      if lastIncludedIndex ≤ rf.lastLogIndex then goFrom rf.log (rf.toSliceIndex lastIncludedIndex + 1)
      else some []
    let rf := { rf with
      log
      lastIncludedIndex
      lastIncludedTerm
      commitIndex := lastIncludedIndex
      lastApplied := lastIncludedIndex }
    some (rf.persistWithSnapshot snapshot, true)

def snapshot (index : Nat) (snapshot : S) : Option (Raft N C S) :=
  if index ≤ rf.lastIncludedIndex then some rf
  else do
    let sliceIdx := rf.toSliceIndex index
    let entry ← goIndex rf.log sliceIdx
    let log ← goFrom rf.log (sliceIdx + 1)
    let rf := { rf with lastIncludedTerm := entry.term, log, lastIncludedIndex := index }
    some (rf.persistWithSnapshot snapshot)

/-! ## Elections -/

/-- A reply or a vote request of a higher term turns any server into a follower. -/
def stepDown (term : Nat) : Raft N C S :=
  { rf with currentTerm := term, state := .follower, votedFor := none }.persist

def isMoreUpToDate (lastLogIndex lastLogTerm : Nat) : Bool :=
  if lastLogTerm ≠ rf.lastLogTerm then rf.lastLogTerm < lastLogTerm
  else rf.lastLogIndex ≤ lastLogIndex

def requestVote (args : RequestVoteArgs N) : Raft N C S × RequestVoteReply :=
  if args.term < rf.currentTerm then (rf, ⟨rf.currentTerm, false⟩)
  else
    let rf := if rf.currentTerm < args.term then rf.stepDown args.term else rf
    let canVote := rf.votedFor = none ∨ rf.votedFor = some args.candidateId
    if canVote ∧ rf.isMoreUpToDate args.lastLogIndex args.lastLogTerm then
      ({ rf with votedFor := some args.candidateId }.persist, ⟨rf.currentTerm, true⟩)
    else (rf, ⟨rf.currentTerm, false⟩)

def startElection : Raft N C S × RequestVoteArgs N :=
  let rf := { rf with
    state := .candidate
    currentTerm := rf.currentTerm + 1
    votedFor := some rf.me }.persist
  (rf, ⟨rf.currentTerm, rf.me, rf.lastLogIndex, rf.lastLogTerm⟩)

def becomeLeader : Raft N C S :=
  { rf with
    state := .leader
    nextIndex := fun _ => rf.lastLogIndex + 1
    matchIndex := fun i => if i = rf.me then rf.lastLogIndex else 0 }

/-- The goroutine of `startElection` after its call returned; `votes` is the
counter it shares with the other goroutines of that election. -/
def requestVoteReply (votes : Nat) (args : RequestVoteArgs N) (reply : RequestVoteReply) : Raft N C S × Nat :=
  if rf.currentTerm < reply.term then (rf.stepDown reply.term, votes)
  else if rf.state ≠ .candidate ∨ rf.currentTerm ≠ args.term then (rf, votes)
  else if reply.voteGranted then
    if N / 2 + 1 ≤ votes + 1 then (rf.becomeLeader, votes + 1) else (rf, votes + 1)
  else (rf, votes)

/-! ## AppendEntries -/

/-- How `AppendEntries` and `InstallSnapshot` meet the sender's term. -/
def newTerm (term : Nat) : Raft N C S :=
  let rf := if rf.currentTerm < term then { rf with currentTerm := term, votedFor := none }.persist else rf
  { rf with state := .follower }

/-- The first index of the conflicting term, searched downwards from `idx`. -/
def firstOfTerm (conflictTerm : Option Nat) : Nat → Nat
  | 0 => 0
  | idx + 1 =>
    if rf.lastIncludedIndex < idx + 1 ∧ rf.termAt idx = conflictTerm then firstOfTerm conflictTerm idx
    else idx + 1

def appendLoop : Nat → List (LogEntry C) → Option (List (LogEntry C))
  | _, [] => some rf.log
  | globalIdx, entry :: rest =>
    if globalIdx ≤ rf.lastIncludedIndex then appendLoop (globalIdx + 1) rest
    else
      let sliceIdx := rf.toSliceIndex globalIdx
      if sliceIdx < rf.log.length then do
        let old ← goIndex rf.log sliceIdx
        if old.term ≠ entry.term then do
          let kept ← goTo rf.log sliceIdx
          some (kept ++ entry :: rest)
        else appendLoop (globalIdx + 1) rest
      else some (rf.log ++ entry :: rest)

def acceptEntries (args : AppendEntriesArgs N C) : Option (Raft N C S) := do
  let log ← rf.appendLoop (args.prevLogIndex + 1) args.entries
  let rf := { rf with log }.persist
  some <|
    if rf.commitIndex < args.leaderCommit then
      { rf with
        commitIndex := if rf.lastLogIndex < args.leaderCommit then rf.lastLogIndex else args.leaderCommit }
    else rf

def appendEntries (args : AppendEntriesArgs N C) : Option (Raft N C S × AppendEntriesReply) :=
  if args.term < rf.currentTerm then some (rf, { term := rf.currentTerm, success := false })
  else
    let rf := rf.newTerm args.term
    if args.prevLogIndex < rf.lastIncludedIndex then
      some (rf, ⟨rf.currentTerm, false, none, rf.lastIncludedIndex + 1⟩)
    else if rf.lastLogIndex < args.prevLogIndex then
      some (rf, ⟨rf.currentTerm, false, none, rf.lastLogIndex + 1⟩)
    else if rf.termAt args.prevLogIndex ≠ args.prevLogTerm then
      let conflictTerm := rf.termAt args.prevLogIndex
      some (rf, ⟨rf.currentTerm, false, conflictTerm, rf.firstOfTerm conflictTerm args.prevLogIndex⟩)
    else do
      let rf' ← rf.acceptEntries args
      some (rf', { term := rf.currentTerm, success := true })

/-! ## InstallSnapshot -/

/-- The message, if any, is sent on `applyCh` by a goroutine of its own. -/
def installSnapshot (args : InstallSnapshotArgs N S) :
    Raft N C S × InstallSnapshotReply × Option (ApplyMsg C S) :=
  if args.term < rf.currentTerm then (rf, ⟨rf.currentTerm⟩, none)
  else
    let rf := rf.newTerm args.term
    if args.lastIncludedIndex ≤ rf.lastIncludedIndex then (rf, ⟨rf.currentTerm⟩, none)
    else (rf, ⟨rf.currentTerm⟩, some (.snapshot args.data args.lastIncludedTerm args.lastIncludedIndex))

/-! ## The leader -/

inductive Call (N : Nat) (C S : Type)
  | append (args : AppendEntriesArgs N C)
  | install (args : InstallSnapshotArgs N S)

/-- `replicateTo` up to its call; `none` is a panic, `some none` no call. -/
def replicateTo (peer : Fin N) : Option (Option (Call N C S)) :=
  if rf.state ≠ .leader then some none
  else
    let nextIdx := rf.nextIndex peer
    if nextIdx ≤ rf.lastIncludedIndex then
      some <| some <| .install
        ⟨rf.currentTerm, rf.me, rf.lastIncludedIndex, rf.lastIncludedTerm, rf.persister.snapshot⟩
    else do
      let prevLogIndex := nextIdx - 1
      let entries ←
        if nextIdx ≤ rf.lastLogIndex then goFrom rf.log (rf.toSliceIndex nextIdx) else some []
      some <| some <| .append
        ⟨rf.currentTerm, rf.me, prevLogIndex, rf.termAt prevLogIndex, entries, rf.commitIndex⟩

def tryCommitFrom : Nat → Raft N C S
  | 0 => rf
  | n + 1 =>
    if rf.commitIndex < n + 1 then
      if rf.termAt (n + 1) ≠ some rf.currentTerm then tryCommitFrom n
      else
        let count := 1 + ((List.finRange N).filter fun peer => peer ≠ rf.me ∧ n + 1 ≤ rf.matchIndex peer).length
        if N / 2 < count then { rf with commitIndex := n + 1 } else tryCommitFrom n
    else rf

def tryCommit : Raft N C S := rf.tryCommitFrom rf.lastLogIndex

def backUp (conflictTerm : Option Nat) (conflictIndex : Nat) : Nat → Nat
  | 0 => conflictIndex
  | i + 1 =>
    if rf.lastIncludedIndex < i + 1 then
      if rf.termAt (i + 1) = conflictTerm then i + 2 else backUp conflictTerm conflictIndex i
    else conflictIndex

def setNextIndex (peer : Fin N) (i : Nat) : Raft N C S :=
  { rf with nextIndex := fun p => if p = peer then i else rf.nextIndex p }

def setMatchIndex (peer : Fin N) (i : Nat) : Raft N C S :=
  { rf with matchIndex := fun p => if p = peer then i else rf.matchIndex p }

def appendEntriesReply (peer : Fin N) (args : AppendEntriesArgs N C) (reply : AppendEntriesReply) : Raft N C S :=
  if rf.currentTerm < reply.term then rf.stepDown reply.term
  else if rf.state ≠ .leader ∨ rf.currentTerm ≠ args.term then rf
  else if reply.success then
    let newMatch := args.prevLogIndex + args.entries.length
    let rf := if rf.matchIndex peer < newMatch then rf.setMatchIndex peer newMatch else rf
    (rf.setNextIndex peer (rf.matchIndex peer + 1)).tryCommit
  else
    let newNext :=
      if reply.conflictTerm = none then reply.conflictIndex
      else rf.backUp reply.conflictTerm reply.conflictIndex rf.lastLogIndex
    rf.setNextIndex peer (if newNext < 1 then 1 else newNext)

def installSnapshotReply (peer : Fin N) (args : InstallSnapshotArgs N S) (reply : InstallSnapshotReply) :
    Raft N C S :=
  if rf.currentTerm < reply.term then rf.stepDown reply.term
  else if rf.state ≠ .leader ∨ rf.currentTerm ≠ args.term then rf
  else
    let rf := if rf.nextIndex peer < args.lastIncludedIndex + 1 then
        rf.setNextIndex peer (args.lastIncludedIndex + 1) else rf
    if rf.matchIndex peer < args.lastIncludedIndex then rf.setMatchIndex peer args.lastIncludedIndex else rf

/-! ## Start -/

def start (command : C) : Raft N C S × Option (Nat × Nat) :=
  if rf.state ≠ .leader then (rf, none)
  else
    let entry : LogEntry C := ⟨rf.currentTerm, command⟩
    let rf := { rf with log := rf.log ++ [entry] }.persist
    (rf.setMatchIndex rf.me rf.lastLogIndex, some (rf.lastLogIndex, rf.currentTerm))

/-! ## The applier -/

/-- The local variables of one turn of `applier` between its two critical
sections; `next` is the index of the first entry not yet sent. -/
structure Batch (C : Type) where
  commitIndex : Nat
  lastIncludedIndex : Nat
  next : Nat
  entries : List (LogEntry C)

def collectLoop : Nat → Nat → List (LogEntry C)
  | 0, _ => []
  | k + 1, i =>
    if i ≤ rf.lastIncludedIndex then collectLoop k (i + 1)
    else
      let si := rf.toSliceIndex i
      if si < 0 ∨ rf.log.length ≤ si then []
      else
        match goIndex rf.log si with
        | none => []
        | some entry => entry :: collectLoop k (i + 1)

/-- `none` while the applier has to wait. -/
def collect : Option (Batch C) :=
  if rf.commitIndex ≤ rf.lastApplied then none
  else
    some ⟨rf.commitIndex, rf.lastIncludedIndex, rf.lastApplied + 1,
      rf.collectLoop (rf.commitIndex - rf.lastApplied) (rf.lastApplied + 1)⟩

/-- One turn of the sending loop: the message, if any, and the batch left. -/
def Batch.send (b : Batch C) : Option (Option (ApplyMsg C S) × Batch C) :=
  match b.entries with
  | [] => none
  | entry :: rest =>
    some (if b.next ≤ b.lastIncludedIndex then none else some (.command entry.command b.next),
      { b with next := b.next + 1, entries := rest })

/-- The second critical section of `applier`. -/
def applied (commitIndex : Nat) : Raft N C S :=
  if rf.lastApplied < commitIndex then { rf with lastApplied := commitIndex } else rf

end

end Raft

end DistLab
