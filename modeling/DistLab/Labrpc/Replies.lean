import DistLab.Labrpc.Network

/-!
# Replies of the network

A call runs its handler at most once and returns at most once. If it returns a
reply, then the handler gave this reply, and after that the server was still the
one that had been looked up. So a server that was deleted before its handler was
done never gets a reply through: what it wrote to a persister that the next server
does not see is not acknowledged.
-/

namespace DistLab

/-! ## Ranks -/

section
variable {End Name Ptr Reply : Type} [DecidableEq Ptr]

def CallPhase.rank : CallPhase Name Ptr Reply → Nat
  | .sending => 0
  | .accepted => 1
  | .found _ => 2
  | .waiting _ => 3
  | .left _ _ => 4
  | .replying _ => 5
  | .returned _ => 6

def handlerRank : Option (HandlerState Ptr Reply) → Nat
  | none => 0
  | some (.starting _) => 1
  | some .running => 2
  | some (.returned _) => 3
  | some .gone => 4

def RpcCall.Fresh (c : RpcCall End Name Ptr Reply) : Prop := c.phase.rank ≤ 2 → c.handler = none

variable {rn : RpcNetwork End Name Ptr Reply} {c c' : RpcCall End Name Ptr Reply} {st : CallStep Reply}

/-- The goroutines of a call only go on, and nothing changes the end it came from. -/
theorem RpcCall.step_rank (hf : c.Fresh) (h : c.step rn st = some c') :
    c'.Fresh ∧ c'.endname = c.endname ∧ c.phase.rank ≤ c'.phase.rank ∧
      handlerRank c.handler ≤ handlerRank c'.handler := by
  obtain ⟨e, phase, handler⟩ := c
  unfold Fresh at hf ⊢
  cases st with
  | destroyed =>
    simp only [step] at h
    split at h <;> cases h
    simp [CallPhase.rank]
  | accept =>
    simp only [step] at h
    split at h <;> cases h
    simp_all [CallPhase.rank]
  | read =>
    simp only [step] at h
    split at h
    · split at h <;> cases h <;> simp_all [CallPhase.rank]
    · cases h
  | dropRequest =>
    simp only [step] at h
    split at h
    · split at h <;> cases h
      simp_all [CallPhase.rank]
    · cases h
  | launch =>
    simp only [step] at h
    split at h <;> cases h
    simp_all [CallPhase.rank, handlerRank]
  | dispatch =>
    simp only [step] at h
    split at h <;> cases h
    simp_all [handlerRank]
  | finish reply =>
    simp only [step] at h
    split at h <;> cases h
    simp_all [handlerRank]
  | take =>
    simp only [step, take] at h
    split at h
    · cases h
      split <;> simp_all [CallPhase.rank, handlerRank]
    · cases h
  | poll =>
    simp only [step] at h
    split at h
    · cases h
      split <;> simp_all [CallPhase.rank]
    · cases h
  | decide drop =>
    simp only [step] at h
    split at h <;> cases h
    simp_all [CallPhase.rank]
  | reply =>
    simp only [step] at h
    split at h <;> cases h
    simp_all [CallPhase.rank]

theorem RpcCall.read_rank (h : c.step rn .read = some c') : c.phase.rank = 1 ∧ 2 ≤ c'.phase.rank := by
  simp only [step] at h
  split at h
  · rename_i hp
    split at h <;> cases h <;> simp [hp, CallPhase.rank]
  · cases h

theorem RpcCall.dispatch_rank (h : c.step rn .dispatch = some c') :
    handlerRank c.handler = 1 ∧ handlerRank c'.handler = 2 := by
  simp only [step] at h
  split at h <;> cases h
  rename_i hh
  simp [hh, handlerRank]

theorem RpcCall.return_rank (hst : st = .reply ∨ st = .destroyed) (h : c.step rn st = some c') :
    c.phase.rank < 6 ∧ c'.phase.rank = 6 := by
  rcases hst with rfl | rfl
  · simp only [step] at h
    split at h <;> cases h
    rename_i hp
    simp [hp, CallPhase.rank]
  · simp only [step] at h
    split at h <;> cases h
    rename_i hp _
    simp [hp, CallPhase.rank]

end

/-! ## Along a run -/

section
variable {End Name Ptr Reply : Type} [DecidableEq End] [DecidableEq Name] [DecidableEq Ptr]

namespace RpcRun

variable (r : RpcRun End Name Ptr Reply)

theorem fresh (k i : Nat) (c : RpcCall End Name Ptr Reply) (hc : (r.state k).calls[i]? = some c) : c.Fresh := by
  have hstep : ∀ (rn : RpcNetwork End Name Ptr Reply) a rn', (∀ (i : Nat) c, rn.calls[i]? = some c → c.Fresh) →
      True → rn.step a = some rn' → ∀ (i : Nat) c, rn'.calls[i]? = some c → c.Fresh := by
    intro rn a rn' ih _ ha i c hc
    cases hold : rn.calls[i]? with
    | none => exact fun _ => (RpcNetwork.step_new ha hold hc).2
    | some d =>
      rcases RpcNetwork.step_at ha hold with ⟨hsame, -⟩ | ⟨st, d', -, hst, hnew⟩
      · obtain rfl : d = c := Option.some.inj (hsame.symm.trans hc)
        exact ih i d hold
      · obtain rfl : d' = c := Option.some.inj (hnew.symm.trans hc)
        exact (RpcCall.step_rank (ih i d hold) hst).1
  exact r.invariant r.meets_true (by simp [RpcNetwork.init]) hstep k i c hc

theorem call_mono {j k i : Nat} (hjk : j ≤ k) {c : RpcCall End Name Ptr Reply} (hc : (r.state j).calls[i]? = some c) :
    ∃ d, (r.state k).calls[i]? = some d ∧ d.endname = c.endname ∧ c.phase.rank ≤ d.phase.rank ∧
      handlerRank c.handler ≤ handlerRank d.handler := by
  induction k, hjk using Nat.le_induction with
  | base => exact ⟨c, hc, rfl, Nat.le_refl _, Nat.le_refl _⟩
  | succ k _ ih =>
    obtain ⟨d, hd, he, hp, hh⟩ := ih
    rcases r.next_cases k with ⟨-, hs⟩ | ⟨a, -, ha⟩
    · exact ⟨d, by rw [hs, hd], he, hp, hh⟩
    · rcases RpcNetwork.step_at ha hd with ⟨hsame, -⟩ | ⟨st, d', -, hst, hnew⟩
      · exact ⟨d, hsame, he, hp, hh⟩
      · obtain ⟨-, he', hp', hh'⟩ := RpcCall.step_rank (r.fresh k i d hd) hst
        exact ⟨d', hnew, he'.trans he, hp.trans hp', hh.trans hh'⟩

theorem step_of_act {k i : Nat} {st : CallStep Reply} (h : r.act k = some (.step i st)) :
    ∃ c c', (r.state k).calls[i]? = some c ∧ c.step (r.state k) st = some c' ∧
      (r.state (k + 1)).calls[i]? = some c' := by
  have ha := r.next_some h
  cases hold : (r.state k).calls[i]? with
  | none =>
    simp only [RpcNetwork.step, hold] at ha
    cases ha
  | some c =>
    rcases RpcNetwork.step_at ha hold with ⟨-, hne⟩ | ⟨st', c', he, hst, hnew⟩
    · exact absurd rfl (hne st)
    · cases he
      exact ⟨c, c', rfl, hst, hnew⟩

/-- A step that moves a rank past where it starts from is taken once. -/
theorem step_once {P : CallStep Reply → Prop} {rank : RpcCall End Name Ptr Reply → Nat} {m : Nat}
    (hmono : ∀ {c d : RpcCall End Name Ptr Reply}, c.phase.rank ≤ d.phase.rank →
      handlerRank c.handler ≤ handlerRank d.handler → rank c ≤ rank d)
    (hrank : ∀ {rn : RpcNetwork End Name Ptr Reply} {c c' : RpcCall End Name Ptr Reply} {st}, P st →
      c.step rn st = some c' → rank c < m ∧ m ≤ rank c')
    {i j k : Nat} {st st' : CallStep Reply} (hP : P st) (hP' : P st') (hj : r.act j = some (.step i st))
    (hk : r.act k = some (.step i st')) : j = k := by
  -- whichever comes first has moved the rank to `m` when the other comes
  have hlt : ∀ {j k : Nat} {st st'}, P st → P st' → r.act j = some (.step i st) → r.act k = some (.step i st') →
      ¬ j < k := by
    intro j k st st' hP hP' hj hk hjk
    obtain ⟨c, c', -, hst, hc'⟩ := r.step_of_act hj
    obtain ⟨d, d', hd, hst', -⟩ := r.step_of_act hk
    obtain ⟨e, he, -, hp, hh⟩ := r.call_mono (Nat.succ_le_of_lt hjk) hc'
    obtain rfl : e = d := Option.some.inj (he.symm.trans hd)
    have h1 := (hrank hP hst).2
    have h2 := (hrank hP' hst').1
    have h3 := hmono hp hh
    omega
  rcases Nat.lt_trichotomy j k with h | h | h
  · exact absurd h (hlt hP hP' hj hk)
  · exact h
  · exact absurd h (hlt hP' hP hk hj)

theorem read_once {i j k : Nat} (hj : r.act j = some (.step i .read)) (hk : r.act k = some (.step i .read)) : j = k :=
  r.step_once (P := fun st => st = .read) (m := 2) (fun hp _ => hp)
    (fun hP h => by subst hP; have := RpcCall.read_rank h; omega) rfl rfl hj hk

theorem dispatch_once {i j k : Nat} (hj : r.act j = some (.step i .dispatch))
    (hk : r.act k = some (.step i .dispatch)) : j = k :=
  r.step_once (P := fun st => st = .dispatch) (m := 2) (fun _ hh => hh)
    (fun hP h => by subst hP; have := RpcCall.dispatch_rank h; omega) rfl rfl hj hk

theorem return_once {i j k : Nat} {st st' : CallStep Reply} (hst : st = .reply ∨ st = .destroyed)
    (hst' : st' = .reply ∨ st' = .destroyed) (hj : r.act j = some (.step i st)) (hk : r.act k = some (.step i st')) :
    j = k :=
  r.step_once (P := fun st => st = .reply ∨ st = .destroyed) (m := 6) (fun hp _ => hp)
    (fun hP h => by have := RpcCall.return_rank hP h; omega) hst hst' hj hk

/-! ## Where a reply comes from -/

/-- Before `k` the server of call `i` was looked up. -/
def LookedUp (i k : Nat) (info : EndInfo Name Ptr) : Prop :=
  ∃ j < k, r.act j = some (.step i .read) ∧
    ∃ c, (r.state j).calls[i]? = some c ∧ (r.state j).readEndnameInfo c.endname = some info

/-- Then the handler was called on that server. -/
def Dispatched (i k : Nat) (info : EndInfo Name Ptr) : Prop :=
  ∃ j < k, r.act j = some (.step i .dispatch) ∧ r.LookedUp i j info ∧
    ∃ c, (r.state j).calls[i]? = some c ∧ c.handler = some (.starting info.server)

/-- Then the handler returned this reply. -/
def Finished (i k : Nat) (info : EndInfo Name Ptr) (y : Reply) : Prop :=
  ∃ j < k, r.act j = some (.step i (.finish y)) ∧ r.Dispatched i j info

/-- Then the server was still there. -/
def Served (i k : Nat) (info : EndInfo Name Ptr) (y : Reply) : Prop :=
  ∃ j < k, (∃ drop, r.act j = some (.step i (.decide drop))) ∧ r.Finished i j info y ∧
    (r.state j).servers info.servername = some info.server ∧
    ∃ c, (r.state j).calls[i]? = some c ∧ (r.state j).enabled c.endname = true

def Traced (i k : Nat) (c : RpcCall End Name Ptr Reply) : Prop :=
  match c.phase with
  | .sending => c.handler = none
  | .accepted => c.handler = none
  | .found info => c.handler = none ∧ r.LookedUp i k info
  | .waiting info => r.LookedUp i k info ∧ (c.handler = some (.starting info.server) ∨
      (c.handler = some .running ∧ r.Dispatched i k info) ∨
      ∃ y, c.handler = some (.returned y) ∧ r.Finished i k info y)
  | .left info reply => ∀ y, reply = some y → r.Finished i k info y
  | .replying msg => ∀ y, msg = some y → ∃ info, r.Served i k info y
  | .returned msg => ∀ y, msg = some y → ∃ info, r.Served i k info y

variable {r} {i k : Nat} {info : EndInfo Name Ptr} {y : Reply}

theorem LookedUp.succ (h : r.LookedUp i k info) : r.LookedUp i (k + 1) info := by
  obtain ⟨j, hj, h⟩ := h
  exact ⟨j, Nat.lt_succ_of_lt hj, h⟩

theorem Dispatched.succ (h : r.Dispatched i k info) : r.Dispatched i (k + 1) info := by
  obtain ⟨j, hj, h⟩ := h
  exact ⟨j, Nat.lt_succ_of_lt hj, h⟩

theorem Finished.succ (h : r.Finished i k info y) : r.Finished i (k + 1) info y := by
  obtain ⟨j, hj, h⟩ := h
  exact ⟨j, Nat.lt_succ_of_lt hj, h⟩

theorem Served.succ (h : r.Served i k info y) : r.Served i (k + 1) info y := by
  obtain ⟨j, hj, h⟩ := h
  exact ⟨j, Nat.lt_succ_of_lt hj, h⟩

theorem Traced.succ {c : RpcCall End Name Ptr Reply} (h : r.Traced i k c) : r.Traced i (k + 1) c := by
  unfold Traced at h ⊢
  split
  · rename_i hp
    rwa [hp] at h
  · rename_i hp
    rwa [hp] at h
  · rename_i info hp
    rw [hp] at h
    exact ⟨h.1, h.2.succ⟩
  · rename_i info hp
    rw [hp] at h
    refine ⟨h.1.succ, h.2.imp_right fun h => ?_⟩
    rcases h with ⟨hh, hd⟩ | ⟨y, hh, hf⟩
    · exact Or.inl ⟨hh, hd.succ⟩
    · exact Or.inr ⟨y, hh, hf.succ⟩
  · rename_i info reply hp
    rw [hp] at h
    exact fun y hy => (h y hy).succ
  · rename_i msg hp
    rw [hp] at h
    intro y hy
    obtain ⟨info, hs⟩ := h y hy
    exact ⟨info, hs.succ⟩
  · rename_i msg hp
    rw [hp] at h
    intro y hy
    obtain ⟨info, hs⟩ := h y hy
    exact ⟨info, hs.succ⟩

/-- A handler alone moves; its call waits for it or has left it behind. -/
theorem Traced.setHandler {c : RpcCall End Name Ptr Reply} (h : r.Traced i k c) {s s' : HandlerState Ptr Reply}
    (hp : c.handler = some s)
    (hw : ∀ info, r.LookedUp i k info → (s = .starting info.server ∨ (s = .running ∧ r.Dispatched i k info) ∨
        ∃ y, s = .returned y ∧ r.Finished i k info y) →
      s' = .starting info.server ∨ (s' = .running ∧ r.Dispatched i (k + 1) info) ∨
        ∃ y, s' = .returned y ∧ r.Finished i (k + 1) info y) :
    r.Traced i (k + 1) { c with handler := some s' } := by
  have hs := h.succ
  unfold Traced at h hs ⊢
  dsimp only
  split
  · rename_i hph
    rw [hph] at h
    rw [h] at hp
    cases hp
  · rename_i hph
    rw [hph] at h
    rw [h] at hp
    cases hp
  · rename_i info hph
    rw [hph] at h
    rw [h.1] at hp
    cases hp
  · rename_i info hph
    rw [hph, hp] at h
    simp only [Option.some.injEq] at h ⊢
    exact ⟨h.1.succ, hw info h.1 h.2⟩
  · rename_i info reply hph
    rwa [hph] at hs
  · rename_i msg hph
    rwa [hph] at hs
  · rename_i msg hph
    rwa [hph] at hs

theorem Traced.dispatch {c : RpcCall End Name Ptr Reply} (h : r.Traced i k c) (hact : r.act k = some (.step i .dispatch))
    (hc : (r.state k).calls[i]? = some c) {p : Ptr} (hp : c.handler = some (.starting p)) :
    r.Traced i (k + 1) { c with handler := some .running } := by
  refine h.setHandler hp fun info hl hh => Or.inr (Or.inl ⟨rfl, k, Nat.lt_succ_self k, hact, hl, c, hc, ?_⟩)
  rcases hh with hh | ⟨hh, -⟩ | ⟨y, hh, -⟩
  · rw [hp, hh]
  · cases hh
  · cases hh

theorem Traced.finish {c : RpcCall End Name Ptr Reply} (h : r.Traced i k c)
    (hact : r.act k = some (.step i (.finish y))) (hp : c.handler = some .running) :
    r.Traced i (k + 1) { c with handler := some (.returned y) } := by
  refine h.setHandler hp fun info hl hh => Or.inr (Or.inr ⟨y, rfl, k, Nat.lt_succ_self k, hact, ?_⟩)
  rcases hh with hh | ⟨-, hd⟩ | ⟨z, hh, -⟩
  · cases hh
  · exact hd
  · cases hh

theorem Traced.take {c : RpcCall End Name Ptr Reply} (h : r.Traced i k c) (hp : c.handler = some (.returned y)) :
    r.Traced i (k + 1) (c.take y) := by
  have hs := h.succ
  cases hph : c.phase with
  | sending =>
    simp only [Traced, hph] at h
    rw [h] at hp
    cases hp
  | accepted =>
    simp only [Traced, hph] at h
    rw [h] at hp
    cases hp
  | found info =>
    simp only [Traced, hph] at h
    rw [h.1] at hp
    cases hp
  | waiting info =>
    simp only [Traced, hph] at hs
    simp only [Traced, RpcCall.take, hph]
    intro z hz
    cases hz
    rcases hs.2 with hh | ⟨hh, -⟩ | ⟨z, hh, hf⟩
    · rw [hp] at hh
      cases hh
    · rw [hp] at hh
      cases hh
    · rw [hp] at hh
      cases hh
      exact hf
  | left info reply =>
    simp only [Traced, hph] at hs
    simpa only [Traced, RpcCall.take, hph] using hs
  | replying msg =>
    simp only [Traced, hph] at hs
    simpa only [Traced, RpcCall.take, hph] using hs
  | returned msg =>
    simp only [Traced, hph] at hs
    simpa only [Traced, RpcCall.take, hph] using hs

theorem Traced.decide {c : RpcCall End Name Ptr Reply} (h : r.Traced i k c) {drop : Bool}
    (hact : r.act k = some (.step i (.decide drop))) (hc : (r.state k).calls[i]? = some c) {reply : ReplyMsg Reply}
    (hp : c.phase = .left info reply) :
    r.Traced i (k + 1) { c with phase := .replying (c.answer (r.state k) info reply drop) } := by
  simp only [Traced, hp] at h
  simp only [Traced, RpcCall.answer]
  intro z hz
  split at hz
  · cases hz
  · rename_i halive
    split at hz
    · cases hz
    · simp only [RpcNetwork.isServerDead, Bool.or_eq_true, Bool.not_eq_true', bne_iff_ne, ne_eq, not_or,
        Bool.not_eq_false, not_not] at halive
      exact ⟨info, k, Nat.lt_succ_self k, ⟨drop, hact⟩, h z hz, halive.2, c, hc, halive.1⟩

theorem Traced.step {c c' : RpcCall End Name Ptr Reply} {st : CallStep Reply} (h : r.Traced i k c)
    (hact : r.act k = some (.step i st)) (hc : (r.state k).calls[i]? = some c)
    (hst : c.step (r.state k) st = some c') : r.Traced i (k + 1) c' := by
  have hs := h.succ
  cases st with
  | destroyed =>
    simp only [RpcCall.step] at hst
    split at hst <;> cases hst
    simp [Traced]
  | accept =>
    simp only [RpcCall.step] at hst
    split at hst <;> cases hst
    rename_i hp _
    simpa only [Traced, hp] using hs
  | read =>
    simp only [RpcCall.step] at hst
    split at hst
    · rename_i hp
      simp only [Traced, hp] at h
      split at hst <;> cases hst
      · rename_i info hinfo
        exact ⟨h, k, Nat.lt_succ_self k, hact, c, hc, hinfo⟩
      · simp [Traced]
    · cases hst
  | dropRequest =>
    simp only [RpcCall.step] at hst
    split at hst
    · split at hst <;> cases hst
      simp [Traced]
    · cases hst
  | launch =>
    simp only [RpcCall.step] at hst
    split at hst <;> cases hst
    rename_i info hp
    simp only [Traced, hp] at hs
    exact ⟨hs.2, Or.inl rfl⟩
  | dispatch =>
    simp only [RpcCall.step] at hst
    split at hst <;> cases hst
    exact h.dispatch hact hc ‹_›
  | finish y =>
    simp only [RpcCall.step] at hst
    split at hst <;> cases hst
    exact h.finish hact ‹_›
  | take =>
    simp only [RpcCall.step] at hst
    split at hst <;> cases hst
    exact h.take ‹_›
  | poll =>
    simp only [RpcCall.step] at hst
    split at hst
    · cases hst
      split
      · simp [Traced]
      · exact hs
    · cases hst
  | decide drop =>
    simp only [RpcCall.step] at hst
    split at hst <;> cases hst
    exact h.decide hact hc ‹_›
  | reply =>
    simp only [RpcCall.step] at hst
    split at hst <;> cases hst
    rename_i msg hp
    simp only [Traced, hp] at hs
    exact hs

variable (r) in
theorem traced (k : Nat) : ∀ i c, (r.state k).calls[i]? = some c → r.Traced i k c := by
  induction k with
  | zero =>
    intro i c hc
    rw [r.start] at hc
    cases hc
  | succ k ih =>
    intro i c hc
    rcases r.next_cases k with ⟨-, hs⟩ | ⟨a, hact, ha⟩
    · rw [hs] at hc
      exact (ih i c hc).succ
    · cases hold : (r.state k).calls[i]? with
      | none =>
        obtain ⟨hp, hh⟩ := RpcNetwork.step_new ha hold hc
        simp only [Traced, hp]
        exact hh
      | some d =>
        rcases RpcNetwork.step_at ha hold with ⟨hsame, -⟩ | ⟨st, d', rfl, hst, hnew⟩
        · obtain rfl : d = c := Option.some.inj (hsame.symm.trans hc)
          exact (ih i d hold).succ
        · obtain rfl : d' = c := Option.some.inj (hnew.symm.trans hc)
          exact (ih i d hold).step hact hold hst

theorem LookedUp.unique {k' : Nat} {info' : EndInfo Name Ptr} (h : r.LookedUp i k info) (h' : r.LookedUp i k' info') :
    info = info' := by
  obtain ⟨j, -, hj, c, hc, hinfo⟩ := h
  obtain ⟨j', -, hj', c', hc', hinfo'⟩ := h'
  obtain rfl := r.read_once hj hj'
  obtain rfl : c = c' := Option.some.inj (hc.symm.trans hc')
  exact Option.some.inj (hinfo.symm.trans hinfo')

theorem deleted {d : Nat} {n : Name} (hd : r.act d = some (.deleteServer n)) {p : Ptr}
    (hfresh : ∀ k, d < k → r.act k ≠ some (.addServer n p)) : ∀ k, d < k → (r.state k).servers n ≠ some p := by
  intro k hk
  induction k, Nat.succ_le_of_lt hk using Nat.le_induction with
  | base =>
    have ha := r.next_some hd
    simp only [RpcNetwork.step, Option.some.injEq] at ha
    simp [← ha]
  | succ k hdk ih =>
    rcases r.next_cases k with ⟨-, hs⟩ | ⟨a, hact, ha⟩
    · rw [hs]
      exact ih hdk
    · exact RpcNetwork.step_servers ha (ih hdk) fun he => hfresh k hdk (he ▸ hact)

end RpcRun

/-- A call runs its handler at most once and returns at most once, and the reply it
returns is the one the handler gave, on the server that was looked up and that was
still there, and connected, after the handler was done. -/
theorem call_served_once (r : RpcRun End Name Ptr Reply) :
    (∀ i j k, r.act j = some (.step i .dispatch) → r.act k = some (.step i .dispatch) → j = k) ∧
      (∀ i j k st st', st = .reply ∨ st = .destroyed → st' = .reply ∨ st' = .destroyed →
        r.act j = some (.step i st) → r.act k = some (.step i st') → j = k) ∧
      ∀ k i c y, (r.state k).calls[i]? = some c → c.phase = .returned (some y) → ∃ info, r.Served i k info y := by
  refine ⟨fun i j k => r.dispatch_once, fun i j k st st' hst hst' => r.return_once hst hst', fun k i c y hc hp => ?_⟩
  have h := r.traced k i c hc
  simp only [RpcRun.Traced, hp] at h
  exact h y rfl

/-- If the server is deleted before the handler is done, or the handler never is,
and that server is not added again, the call never returns a reply. -/
theorem no_reply_after_delete (r : RpcRun End Name Ptr Reply) {d : Nat} {info : EndInfo Name Ptr}
    (hd : r.act d = some (.deleteServer info.servername))
    (hfresh : ∀ k, d < k → r.act k ≠ some (.addServer info.servername info.server)) {i j : Nat}
    (hread : r.LookedUp i j info) (hlate : ∀ f y, r.act f = some (.step i (.finish y)) → d < f) :
    ∀ k c z, (r.state k).calls[i]? = some c → c.phase ≠ .returned (some z) := by
  intro k c z hc hp
  have h := r.traced k i c hc
  simp only [RpcRun.Traced, hp] at h
  obtain ⟨info', m, -, -, ⟨f, hfm, hf, e, -, -, hlook, -⟩, hserver, -⟩ := h z rfl
  obtain rfl := hread.unique hlook
  exact RpcRun.deleted hd hfresh m ((hlate f z hf).trans hfm) hserver

end

/-- One call; `during` is what happens while its handler runs. -/
def oneCallActs (during : List (RpcAct Nat Nat Nat Nat)) : List (RpcAct Nat Nat Nat Nat) :=
  [.makeEnd 0, .addServer 5 1, .connect 0 5, .enable 0 true, .call 0, .step 0 .accept, .step 0 .read, .step 0 .launch,
   .step 0 .dispatch] ++ during ++ [.step 0 (.finish 8), .step 0 .take, .step 0 (.decide false), .step 0 .reply]

theorem answeredCall_exec : (exec RpcNetwork.step RpcNetwork.init (oneCallActs [.step 0 .poll])).isSome = true := by
  decide +kernel

def answeredCall : RpcRun Nat Nat Nat Nat :=
  Run.ofList (oneCallActs [.step 0 .poll]) (Option.some_get answeredCall_exec).symm

theorem answeredCall_served : ∃ info, answeredCall.Served 0 14 info 8 :=
  (call_served_once answeredCall).2.2 14 0 ⟨0, .returned (some 8), some .gone⟩ 8 (by decide +kernel) rfl

theorem crashedServer_exec :
    (exec RpcNetwork.step RpcNetwork.init (oneCallActs [.deleteServer 5, .addServer 5 2])).isSome = true := by
  decide +kernel

/-- The server crashes and comes back while the handler runs. -/
def crashedServer : RpcRun Nat Nat Nat Nat :=
  Run.ofList (oneCallActs [.deleteServer 5, .addServer 5 2]) (Option.some_get crashedServer_exec).symm

theorem crashedServer_no_reply : crashedServer.act 14 = some (.step 0 .reply) ∧
    ∀ k c z, (crashedServer.state k).calls[0]? = some c → c.phase ≠ .returned (some z) := by
  have hread : crashedServer.LookedUp 0 7 ⟨5, 1, true⟩ :=
    ⟨6, by decide, rfl, ⟨0, .accepted, none⟩, by decide +kernel, by decide +kernel⟩
  have hdelete : crashedServer.act 9 = some (.deleteServer 5) := rfl
  have hfresh : ∀ k, 9 < k → crashedServer.act k ≠ some (.addServer 5 1) := by
    intro k hlt hk
    have hmem : RpcAct.addServer 5 1 ∈ (oneCallActs [.deleteServer 5, .addServer 5 2]).drop 9 :=
      List.mem_of_getElem? (i := k - 9) (by rw [List.getElem?_drop, Nat.add_sub_cancel' hlt.le]; exact hk)
    simp [oneCallActs] at hmem
  have hlate : ∀ f y, crashedServer.act f = some (.step 0 (.finish y)) → 9 < f := by
    intro f y hf
    by_contra hle
    have hmem : RpcAct.step 0 (.finish y) ∈ (oneCallActs [.deleteServer 5, .addServer 5 2]).take 10 :=
      List.mem_of_getElem? (i := f) (by rw [List.getElem?_take_of_lt (by omega)]; exact hf)
    simp [oneCallActs] at hmem
  exact ⟨rfl, no_reply_after_delete crashedServer hdelete hfresh hread hlate⟩

end DistLab
