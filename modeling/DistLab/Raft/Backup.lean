import DistLab.Raft.Bounds

/-!
# Fast back-up

A leader looks for the point where a follower's log leaves its own: it repeats
`replicateTo`, and a refused request moves `nextIndex`. A conflict moves it down,
a follower whose snapshot is ahead moves it up, and so does a snapshot that the
follower ignores. `backup_converges`: from every `nextIndex` the follower takes a
request or a snapshot after at most `nextIndex + 3` rounds.
-/

namespace DistLab

/-! ## Rounds -/

namespace Raft

variable {N : Nat} {C S : Type} (peer : Fin N)

/-- One round: the request of `replicateTo`, the handler of the follower, the reply. The
flag tells whether the follower took the entries or handed the snapshot to its service. -/
def round (rf follower : Raft N C S) : Option (Raft N C S × Raft N C S × Bool) := do
  match ← rf.replicateTo peer with
  | none => some (rf, follower, false)
  | some (.append args) =>
    let (follower, reply) ← follower.appendEntries args
    some (rf.appendEntriesReply peer args reply, follower, reply.success)
  | some (.install args) =>
    let (follower, reply, msg) := follower.installSnapshot args
    some (rf.installSnapshotReply peer args reply, follower, msg.isSome)

def catchesUp : Nat → Raft N C S → Raft N C S → Bool
  | 0, _, _ => false
  | n + 1, rf, follower =>
    match rf.round peer follower with
    | none => false
    | some (_, _, true) => true
    | some (rf, follower, false) => catchesUp n rf follower

variable {peer} {rf rf' follower follower' : Raft N C S}

theorem catchesUp_taken (h : rf.round peer follower = some (rf', follower', true)) (n : Nat) :
    catchesUp peer (n + 1) rf follower = true := by
  simp only [catchesUp, h]

theorem catchesUp_refused (h : rf.round peer follower = some (rf', follower', false)) (n : Nat) :
    catchesUp peer (n + 1) rf follower = catchesUp peer n rf' follower' := by
  simp only [catchesUp, h]

theorem catchesUp_follower (h : rf.state ≠ .leader) (n : Nat) : catchesUp peer n rf follower = false := by
  induction n with
  | zero => rfl
  | succ n ih =>
    have hr : rf.round peer follower = some (rf, follower, false) := by simp [round, replicateTo, h]
    rw [catchesUp_refused hr, ih]

/-! ## The two ends of a round -/

theorem Compacts.newTerm {l : List (LogEntry C)} (h : rf.Compacts l) (t : Nat) : (rf.newTerm t).Compacts l where
  index_le := by simpa using h.index_le
  log := by simpa using h.log
  term := by simpa using h.term

theorem appendEntriesReply_refused {args : AppendEntriesArgs N C} {reply : AppendEntriesReply}
    (hl : rf.state = .leader) (hargs : args.term = rf.currentTerm) (hterm : reply.term = rf.currentTerm)
    (hno : reply.success = false) :
    rf.appendEntriesReply peer args reply = rf.setNextIndex peer (max 1
      (if reply.conflictTerm = none then reply.conflictIndex
        else rf.backUp reply.conflictTerm reply.conflictIndex rf.lastLogIndex)) := by
  rcases rf.appendEntriesReply_cases peer args reply with ⟨hlt, -⟩ | ⟨hlate, -⟩ | ⟨-, -, -, ⟨hok, -⟩ | ⟨-, heq⟩⟩
  · omega
  · exact absurd hlate (by simp [hl, hargs])
  · rw [hno] at hok
    cases hok
  · exact heq

theorem installSnapshotReply_taken {args : InstallSnapshotArgs N S} {reply : InstallSnapshotReply}
    (hl : rf.state = .leader) (hargs : args.term = rf.currentTerm) (hterm : reply.term = rf.currentTerm) :
    rf.installSnapshotReply peer args reply =
      (rf.setNextIndex peer (max (rf.nextIndex peer) (args.lastIncludedIndex + 1))).setMatchIndex peer
        (max (rf.matchIndex peer) args.lastIncludedIndex) := by
  rcases rf.installSnapshotReply_cases peer args reply with ⟨hlt, -⟩ | ⟨hlate, -⟩ | ⟨-, -, heq⟩
  · omega
  · exact absurd hlate (by simp [hl, hargs])
  · exact heq

end Raft

/-! ## Two logs -/

section
variable {C : Type} {l m : List (LogEntry C)}

def SameStarts (l m : List (LogEntry C)) : Prop :=
  ∀ a ∈ l, ∀ b ∈ m, a.term = b.term → l.findIdx (·.term = a.term) = m.findIdx (·.term = a.term)

/-- Where the logs disagree, the other log's term lies below in this one, if it lies
anywhere. -/
theorem SameStarts.before_conflict (hst : SameStarts l m) (hsort : Ascending l)
    {i j : Nat} {a b e : LogEntry C} (ha : l[i]? = some a) (hb : m[i]? = some b) (he : l[j]? = some e)
    (hab : a.term ≠ b.term) (heb : e.term = b.term) : j < i := by
  by_contra hij
  have hel := List.mem_of_getElem? he
  have hstart := hst e hel b (List.mem_of_getElem? hb) heb
  have hlt : l.findIdx (·.term = e.term) < l.length := List.findIdx_lt_length_of_exists ⟨e, hel, by simp⟩
  have hx : (l[l.findIdx (·.term = e.term)]).term = e.term := by simpa using List.findIdx_getElem (w := hlt)
  have hxi : l.findIdx (·.term = e.term) ≤ i := by
    rw [hstart]
    by_contra hgt
    have := List.not_of_lt_findIdx (Nat.lt_of_not_le hgt)
    obtain ⟨hi, rfl⟩ := List.getElem?_eq_some_iff.mp hb
    simp [heb] at this
  obtain ⟨hi, rfl⟩ := List.getElem?_eq_some_iff.mp ha
  obtain ⟨hj, rfl⟩ := List.getElem?_eq_some_iff.mp he
  have hmono : ∀ {x y : Nat} (hx : x < l.length) (hy : y < l.length), x ≤ y → (l[x]).term ≤ (l[y]).term := by
    intro x y hx hy hxy
    rcases Nat.eq_or_lt_of_le hxy with rfl | hlt
    · exact le_rfl
    · exact List.pairwise_iff_getElem.mp hsort x y hx hy hlt
  have h1 := hmono hlt hi hxi
  have h2 := hmono hi hj (Nat.le_of_not_lt hij)
  omega

end

/-! ## What a round does -/

section
variable {N : Nat} {C S : Type} {peer : Fin N} {l m : List (LogEntry C)} {rf follower : Raft N C S}

structure Behind (peer : Fin N) (l m : List (LogEntry C)) (rf follower : Raft N C S) : Prop where
  leads : rf.state = .leader
  term_le : follower.currentTerm ≤ rf.currentTerm
  compacts : rf.Compacts l
  follows : follower.Compacts m
  cut : m.take follower.lastIncludedIndex <+: l
  next_pos : 1 ≤ rf.nextIndex peer
  next_le : rf.nextIndex peer ≤ l.length + 1

section
variable (h : Behind peer l m rf follower)
include h

theorem Behind.length_cut : (m.take follower.lastIncludedIndex).length = follower.lastIncludedIndex := by
  rw [List.length_take, Nat.min_eq_left h.follows.index_le]

theorem Behind.included_le : follower.lastIncludedIndex ≤ l.length := by
  have := h.cut.length_le
  rwa [h.length_cut] at this

theorem Behind.take_cut : l.take follower.lastIncludedIndex = m.take follower.lastIncludedIndex := by
  have := List.prefix_iff_eq_take.mp h.cut
  rw [h.length_cut] at this
  exact this.symm

theorem Behind.newTerm : Behind peer l m rf (follower.newTerm rf.currentTerm) :=
  { h with
    term_le := (Raft.newTerm_currentTerm h.term_le).le
    follows := h.follows.newTerm _
    cut := by simpa using h.cut }

theorem Behind.setNextIndex {x : Nat} (h1 : 1 ≤ x) (h2 : x ≤ l.length + 1) :
    Behind peer l m (rf.setNextIndex peer x) follower where
  leads := h.leads
  term_le := h.term_le
  compacts := ⟨h.compacts.index_le, h.compacts.log, h.compacts.term⟩
  follows := h.follows
  cut := h.cut
  next_pos := by simpa [Raft.setNextIndex] using h1
  next_le := by simpa [Raft.setNextIndex] using h2

theorem Behind.setMatchIndex (i : Nat) : Behind peer l m (rf.setMatchIndex peer i) follower :=
  ⟨h.leads, h.term_le, ⟨h.compacts.index_le, h.compacts.log, h.compacts.term⟩, h.follows, h.cut, h.next_pos, h.next_le⟩

theorem Behind.install (hn : rf.nextIndex peer ≤ rf.lastIncludedIndex) :
    ∃ rf', rf.round peer follower =
        some (rf', follower.newTerm rf.currentTerm, decide (follower.lastIncludedIndex < rf.lastIncludedIndex)) ∧
      Behind peer l m rf' (follower.newTerm rf.currentTerm) ∧ rf'.lastIncludedIndex = rf.lastIncludedIndex ∧
      rf'.nextIndex peer = rf.lastIncludedIndex + 1 := by
  have hmax : max (rf.nextIndex peer) (rf.lastIncludedIndex + 1) = rf.lastIncludedIndex + 1 :=
    max_eq_right (Nat.le_succ_of_le hn)
  have hnext : Behind peer l m (rf.setNextIndex peer (rf.lastIncludedIndex + 1)) (follower.newTerm rf.currentTerm) :=
    h.newTerm.setNextIndex (Nat.succ_pos _) (Nat.succ_le_succ h.compacts.index_le)
  refine ⟨_, ?_, hnext.setMatchIndex (max (rf.matchIndex peer) rf.lastIncludedIndex), rfl, if_pos rfl⟩
  unfold Raft.round Raft.installSnapshot
  simp only [Raft.replicateTo_eq h.leads, if_pos hn, Option.bind_eq_bind, Option.bind_some,
    if_neg (Nat.not_lt.mpr h.term_le), Raft.newTerm_lastIncludedIndex, Raft.newTerm_currentTerm h.term_le]
  by_cases hf : rf.lastIncludedIndex ≤ follower.lastIncludedIndex
  · rw [if_pos hf, decide_eq_false (Nat.not_lt.mpr hf), Raft.installSnapshotReply_taken h.leads rfl rfl, hmax]
    rfl
  · rw [if_neg hf, decide_eq_true (Nat.lt_of_not_le hf), Raft.installSnapshotReply_taken h.leads rfl rfl, hmax]
    rfl

theorem Behind.request (hn : rf.lastIncludedIndex < rf.nextIndex peer) :
    ∃ args, rf.replicateTo peer = some (some (.append args)) ∧ args.term = rf.currentTerm ∧
      args.prevLogIndex + 1 = rf.nextIndex peer ∧
      args.prevLogTerm = some (lastTerm LogEntry.term (l.take args.prevLogIndex)) := by
  have hle := h.next_le
  have hcall : rf.replicateTo peer = _ := Raft.replicateTo_eq h.leads
  rw [if_neg (Nat.not_le.mpr hn)] at hcall
  exact ⟨_, hcall, rfl, Nat.sub_add_cancel h.next_pos, h.compacts.termAt (by omega) (by omega)⟩

variable (hsort : Ascending l) (hst : SameStarts l m)
include hsort hst

/-- The leader's entries of the follower's conflicting term end before the conflict. -/
theorem Behind.conflict_lt {prev j : Nat}
    (h1 : follower.lastIncludedIndex ≤ prev) (h2 : prev ≤ m.length) (hl : prev ≤ l.length)
    (hne : follower.termAt prev ≠ some (lastTerm LogEntry.term (l.take prev)))
    (hj : rf.lastIncludedIndex < j) (hjl : j ≤ l.length) (heq : rf.termAt j = follower.termAt prev) : j < prev := by
  rw [h.follows.termAt h1 h2] at hne heq
  rw [h.compacts.termAt hj.le hjl] at heq
  obtain ⟨i, rfl⟩ : ∃ i, prev = i + 1 := by
    cases prev with
    | zero => simp at hne
    | succ i => exact ⟨i, rfl⟩
  obtain ⟨k, rfl⟩ : ∃ k, j = k + 1 := ⟨j - 1, by omega⟩
  have ha : l[i]? = some l[i] := List.getElem?_eq_getElem hl
  have hb : m[i]? = some m[i] := List.getElem?_eq_getElem h2
  have he : l[k]? = some l[k] := List.getElem?_eq_getElem hjl
  rw [lastTerm_take _ ha, lastTerm_take _ hb] at hne
  rw [lastTerm_take _ he, lastTerm_take _ hb] at heq
  have := hst.before_conflict hsort ha hb he (fun hab => hne (by rw [hab])) (Option.some.inj heq)
  omega

/-- A request is taken, or it moves `nextIndex`: past the snapshot of a follower that has
compacted more, down otherwise. -/
theorem Behind.append (hn : rf.lastIncludedIndex < rf.nextIndex peer) :
    (∃ rf' follower', rf.round peer follower = some (rf', follower', true)) ∨
    ∃ x, rf.round peer follower = some (rf.setNextIndex peer x, follower.newTerm rf.currentTerm, false) ∧ 1 ≤ x ∧
      (rf.nextIndex peer ≤ follower.lastIncludedIndex ∧ x = follower.lastIncludedIndex + 1 ∨
        follower.lastIncludedIndex + 1 < rf.nextIndex peer ∧ x < rf.nextIndex peer) := by
  obtain ⟨args, hcall, hterm, hprev, hprevTerm⟩ := h.request hn
  have hle := h.next_le
  have hlen := h.follows.lastLogIndex
  have hcut := h.follows.index_le
  unfold Raft.round Raft.appendEntries
  simp only [hcall, Option.bind_eq_bind, Option.bind_some, hterm, if_neg (Nat.not_lt.mpr h.term_le), hprevTerm,
    Raft.newTerm_lastIncludedIndex, Raft.newTerm_lastLogIndex, Raft.newTerm_currentTerm h.term_le]
  split_ifs with hb hs ht
  · refine Or.inr ⟨follower.lastIncludedIndex + 1, ?_, by omega, Or.inl ⟨by omega, rfl⟩⟩
    rw [Option.bind_some, Raft.appendEntriesReply_refused h.leads hterm rfl rfl]
    simp
  · refine Or.inr ⟨follower.lastLogIndex + 1, ?_, by omega, Or.inr ⟨by omega, by omega⟩⟩
    rw [Option.bind_some, Raft.appendEntriesReply_refused h.leads hterm rfl rfl]
    simp
  · have hconflict := h.newTerm.follows.termAt (i := args.prevLogIndex) (by simp; omega) (by omega)
    -- at the follower's snapshot the logs agree, so the conflict lies above it
    have habove : follower.lastIncludedIndex ≠ args.prevLogIndex := by
      intro heq
      rw [hconflict, ← heq, h.take_cut] at ht
      exact ht rfl
    have hback := Raft.backUp_le ((follower.newTerm rf.currentTerm).firstOfTerm_le
      ((follower.newTerm rf.currentTerm).termAt args.prevLogIndex) args.prevLogIndex) rf.lastLogIndex
      (fun j h1 h2 h3 => h.newTerm.conflict_lt hsort hst (by simp; omega) (by omega) (by omega) ht h1
        (by rw [← h.compacts.lastLogIndex]; exact h2) h3)
    rw [Option.bind_some, Raft.appendEntriesReply_refused h.leads hterm rfl rfl]
    rw [hconflict] at hback ⊢
    simp only [reduceCtorEq, if_false]
    exact Or.inr ⟨_, rfl, le_max_left _ _, Or.inr ⟨by omega, by omega⟩⟩
  · have hacc : ((follower.newTerm rf.currentTerm).acceptEntries args).isSome :=
      Raft.acceptEntries_isSome (by simpa using Nat.le_of_not_lt hb)
    obtain ⟨follower', hacc⟩ := Option.isSome_iff_exists.mp hacc
    rw [hacc]
    exact Or.inl ⟨_, _, rfl⟩

/-! ## Rounds until the follower takes one -/

theorem Behind.at_cut (hnext : rf.nextIndex peer = follower.lastIncludedIndex + 1) :
    ∃ rf' follower', rf.round peer follower = some (rf', follower', true) := by
  by_cases hn : rf.nextIndex peer ≤ rf.lastIncludedIndex
  · obtain ⟨rf', hr, -⟩ := h.install hn
    exact ⟨rf', _, by rw [hr, decide_eq_true (by omega)]⟩
  · rcases h.append hsort hst (Nat.lt_of_not_le hn) with htaken | ⟨x, -, -, hx⟩
    · exact htaken
    · omega

theorem Behind.below_cut (hn : rf.lastIncludedIndex < rf.nextIndex peer)
    (hle : rf.nextIndex peer ≤ follower.lastIncludedIndex + 1) (n : Nat) :
    Raft.catchesUp peer (n + 2) rf follower = true := by
  rcases h.append hsort hst hn with ⟨_, _, hr⟩ | ⟨x, hr, -, hx⟩
  · exact Raft.catchesUp_taken hr _
  · have hxe : x = follower.lastIncludedIndex + 1 := by omega
    have hnext := h.newTerm.setNextIndex (x := x) (by omega) (by have := h.included_le; omega)
    obtain ⟨_, _, hr'⟩ := hnext.at_cut hsort hst (by simp [Raft.setNextIndex, hxe])
    rw [Raft.catchesUp_refused hr]
    exact Raft.catchesUp_taken hr' _

/-- The measure is `nextIndex`; the moves upwards are the last two before the end. -/
theorem Behind.catchesUp {n : Nat} (hn : rf.nextIndex peer + 3 ≤ n) : Raft.catchesUp peer n rf follower = true := by
  induction n generalizing rf follower with
  | zero => omega
  | succ n ih =>
    by_cases hs : rf.nextIndex peer ≤ rf.lastIncludedIndex
    · obtain ⟨rf', hr, hb, hi, hx⟩ := h.install hs
      by_cases hlt : follower.lastIncludedIndex < rf.lastIncludedIndex
      · rw [decide_eq_true hlt] at hr
        exact Raft.catchesUp_taken hr n
      · rw [decide_eq_false hlt] at hr
        obtain ⟨k, rfl⟩ : ∃ k, n = k + 2 := ⟨n - 2, by omega⟩
        rw [Raft.catchesUp_refused hr]
        exact hb.below_cut hsort hst (by omega) (by simp; omega) k
    · have hlt := Nat.lt_of_not_le hs
      by_cases hcut : rf.nextIndex peer ≤ follower.lastIncludedIndex
      · obtain ⟨k, rfl⟩ : ∃ k, n = k + 1 := ⟨n - 1, by omega⟩
        exact h.below_cut hsort hst hlt (by omega) k
      · rcases h.append hsort hst hlt with ⟨_, _, hr⟩ | ⟨x, hr, hpos, hx⟩
        · exact Raft.catchesUp_taken hr n
        · rw [Raft.catchesUp_refused hr]
          refine ih (h.newTerm.setNextIndex hpos (by have := h.next_le; omega)) ?_
          simp only [Raft.setNextIndex, if_true]
          omega

end

theorem Raft.round_outdated (hl : rf.state = .leader) (ht : rf.currentTerm < follower.currentTerm) :
    rf.round peer follower = some (rf.stepDown follower.currentTerm, follower, false) := by
  unfold Raft.round
  simp only [Raft.replicateTo_eq hl, Option.bind_eq_bind, Option.bind_some]
  by_cases hn : rf.nextIndex peer ≤ rf.lastIncludedIndex
  · simp [hn, Raft.installSnapshot, Raft.installSnapshotReply, ht]
  · simp [hn, Raft.appendEntries, Raft.appendEntriesReply, ht]

theorem backup_converges (hl : rf.state = .leader) (hc : rf.Compacts l) (hf : follower.Compacts m)
    (hsort : Ascending l) (hst : SameStarts l m)
    (hcut : m.take follower.lastIncludedIndex <+: l) (hpos : 1 ≤ rf.nextIndex peer)
    (hle : rf.nextIndex peer ≤ rf.lastLogIndex + 1) :
    (follower.currentTerm ≤ rf.currentTerm → Raft.catchesUp peer (rf.nextIndex peer + 3) rf follower = true) ∧
    (rf.currentTerm < follower.currentTerm →
      rf.round peer follower = some (rf.stepDown follower.currentTerm, follower, false)) := by
  constructor
  · intro ht
    rw [hc.lastLogIndex] at hle
    have h : Behind peer l m rf follower := ⟨hl, ht, hc, hf, hcut, hpos, hle⟩
    exact h.catchesUp hsort hst le_rfl
  · intro ht
    exact Raft.round_outdated hl ht

/-! ### Two compacted logs with several conflicting terms -/

def leaderLog : List (LogEntry Nat) := [1, 1, 1, 4, 4].map fun t => ⟨t, 0⟩

def followerLog : List (LogEntry Nat) := [1, 1, 2, 2, 3].map fun t => ⟨t, 0⟩

/-- What a server of that term has on disk when it has compacted the first entry. -/
def savedLog (N term : Nat) (l : List (LogEntry Nat)) : Persister Nat Unit :=
  ⟨(⟨term, none, l.drop 1, 1, 1⟩ : HardState N Nat).encode, ()⟩

def longLeader (me : Fin N) : Raft N Nat Unit :=
  { (Raft.make me (savedLog N 4 leaderLog) : Raft N Nat Unit) with
    state := .leader
    nextIndex := fun _ => 6 }

def longFollower (me : Fin N) (term : Nat) : Raft N Nat Unit := Raft.make me (savedLog N term followerLog)

theorem longLeader_compacts (me : Fin N) : (longLeader me).Compacts leaderLog :=
  ⟨by change 1 ≤ 5; decide, rfl, rfl⟩

theorem longFollower_compacts (me : Fin N) (term : Nat) : (longFollower me term).Compacts followerLog :=
  ⟨by change 1 ≤ 5; decide, rfl, rfl⟩

theorem leaderLog_ascending : Ascending leaderLog := by
  unfold Ascending
  decide

theorem longLogs_starts : SameStarts leaderLog followerLog := by
  unfold SameStarts
  decide

theorem longLeader_catchesUp :
    (longLeader (0 : Fin 2)).nextIndex 1 = 6 ∧ Raft.catchesUp 1 9 (longLeader (0 : Fin 2)) (longFollower 1 3) = true :=
  ⟨rfl, (backup_converges rfl (longLeader_compacts 0) (longFollower_compacts 1 3) leaderLog_ascending longLogs_starts
    (by decide) (by decide) (by decide)).1 (by decide)⟩

/-- A follower of term 5 refuses every request of term 4. -/
theorem longLeader_outdated :
    (longLeader (0 : Fin 2)).state = .leader ∧ (longLeader (0 : Fin 2)).Compacts leaderLog ∧
    (longFollower (1 : Fin 2) 5).Compacts followerLog ∧ Ascending leaderLog ∧ Ascending followerLog ∧
    (∀ i < 5, (leaderLog[i]?.map LogEntry.term = followerLog[i]?.map LogEntry.term) →
      leaderLog.take (i + 1) = followerLog.take (i + 1)) ∧
    SameStarts leaderLog followerLog ∧ followerLog.take (longFollower (1 : Fin 2) 5).lastIncludedIndex <+: leaderLog ∧
    1 ≤ (longLeader (0 : Fin 2)).nextIndex 1 ∧
    (longLeader (0 : Fin 2)).nextIndex 1 ≤ (longLeader (0 : Fin 2)).lastLogIndex + 1 ∧
    ∀ n, Raft.catchesUp 1 n (longLeader (0 : Fin 2)) (longFollower 1 5) = false := by
  refine ⟨rfl, longLeader_compacts 0, longFollower_compacts 1 5, leaderLog_ascending, by unfold Ascending; decide,
    by decide, longLogs_starts, by decide, by decide, by decide, ?_⟩
  intro n
  cases n with
  | zero => rfl
  | succ n =>
    have hr : (longLeader (0 : Fin 2)).round 1 (longFollower 1 5) =
        some ((longLeader 0).stepDown 5, longFollower 1 5, false) := Raft.round_outdated rfl (by decide)
    rw [Raft.catchesUp_refused hr]
    exact Raft.catchesUp_follower (by decide) n

end

end DistLab
