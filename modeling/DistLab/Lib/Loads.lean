import Mathlib.Algebra.BigOperators.Group.Finset.Piecewise
import Mathlib.Algebra.Group.Action.Defs
import Mathlib.Algebra.Order.BigOperators.Group.Finset
import Mathlib.Data.Fintype.Card
import Mathlib.Logic.Equiv.Basic
import Mathlib.Order.Interval.Finset.Nat

/-!
# Even assignments

Items are assigned to owners. An assignment is even if no owner has two items more
than another; then every owner has the quotient or one more, and as many as the
remainder have one more. An even assignment can also be given by rank: the owners
that come first have one more.
-/

namespace DistLab

section
variable {S G : Type*} [Fintype S] [DecidableEq G]

def load (f : S → G) (g : G) : Nat := (Finset.univ.filter fun s => f s = g).card

def moved (f f' : S → G) : Nat := (Finset.univ.filter fun s => f' s ≠ f s).card

variable {f f' : S → G} {K A : Finset G} {g : G}

theorem sum_load (f : S → G) (A : Finset G) : ∑ g ∈ A, load f g = (Finset.univ.filter fun s => f s ∈ A).card := by
  rw [Finset.card_eq_sum_card_fiberwise (f := f) (t := A) (by simp [Set.MapsTo])]
  refine Finset.sum_congr rfl fun g hg => ?_
  rw [load, Finset.filter_filter]
  congr 1
  ext s
  simp only [Finset.mem_filter, Finset.mem_univ, true_and]
  exact ⟨fun h => ⟨h ▸ hg, h⟩, fun h => h.2⟩

theorem sum_load_all (h : ∀ s, f s ∈ K) : ∑ g ∈ K, load f g = Fintype.card S := by
  rw [sum_load, Finset.filter_true_of_mem fun s _ => h s]
  rfl

theorem card_outside (f : S → G) (A : Finset G) :
    (Finset.univ.filter fun s => f s ∉ A).card + ∑ g ∈ A, load f g = Fintype.card S := by
  rw [sum_load, Nat.add_comm, Finset.card_filter_add_card_filter_not, Finset.card_univ]

/-! ## Evenness -/

structure EvenOn (f : S → G) (K : Finset G) : Prop where
  mem : ∀ s, f s ∈ K
  close : ∀ g ∈ K, ∀ g' ∈ K, load f g ≤ load f g' + 1

instance (f : S → G) (K : Finset G) : Decidable (EvenOn f K) :=
  decidable_of_iff ((∀ s, f s ∈ K) ∧ ∀ g ∈ K, ∀ g' ∈ K, load f g ≤ load f g' + 1)
    ⟨fun h => ⟨h.1, h.2⟩, fun h => ⟨h.mem, h.close⟩⟩

theorem EvenOn.le_load (h : EvenOn f K) (hg : g ∈ K) : Fintype.card S / K.card ≤ load f g := by
  by_contra hlt
  have hpos : 0 < K.card := Finset.card_pos.mpr ⟨g, hg⟩
  -- nobody has more than the quotient, and this one has less
  have hsum : ∑ g ∈ K, load f g < ∑ _g ∈ K, Fintype.card S / K.card := by
    refine Finset.sum_lt_sum (fun g' hg' => ?_) ⟨g, hg, Nat.lt_of_not_le hlt⟩
    have := h.close g' hg' g hg
    omega
  rw [sum_load_all h.mem, Finset.sum_const, smul_eq_mul] at hsum
  have := Nat.mul_div_le (Fintype.card S) K.card
  omega

theorem EvenOn.load_le (h : EvenOn f K) (hg : g ∈ K) : load f g ≤ Fintype.card S / K.card + 1 := by
  by_contra hlt
  have hpos : 0 < K.card := Finset.card_pos.mpr ⟨g, hg⟩
  have hsum : ∑ _g ∈ K, (Fintype.card S / K.card + 1) < ∑ g ∈ K, load f g := by
    refine Finset.sum_lt_sum (fun g' hg' => ?_) ⟨g, hg, Nat.lt_of_not_le hlt⟩
    have := h.close g hg g' hg'
    omega
  rw [sum_load_all h.mem, Finset.sum_const, smul_eq_mul] at hsum
  have := Nat.lt_mul_div_succ (Fintype.card S) hpos
  omega

omit [DecidableEq G] in
theorem sum_quotient {w : G → Nat} {q : Nat} (h : ∀ g ∈ A, w g = q ∨ w g = q + 1) :
    ∑ g ∈ A, w g = A.card * q + (A.filter fun g => w g = q + 1).card := by
  rw [Finset.card_filter, ← smul_eq_mul, ← Finset.sum_const, ← Finset.sum_add_distrib]
  refine Finset.sum_congr rfl fun g hg => ?_
  rcases h g hg with hq | hq <;> simp [hq]

theorem EvenOn.cases (h : EvenOn f K) (hg : g ∈ K) :
    load f g = Fintype.card S / K.card ∨ load f g = Fintype.card S / K.card + 1 := by
  have := h.le_load hg
  have := h.load_le hg
  omega

/-- As many owners as the remainder have one more. -/
theorem EvenOn.card_heavy (h : EvenOn f K) :
    (K.filter fun g => load f g = Fintype.card S / K.card + 1).card = Fintype.card S % K.card := by
  have hsum := sum_quotient (w := load f) fun g hg => h.cases hg
  rw [sum_load_all h.mem] at hsum
  have := Nat.div_add_mod (Fintype.card S) K.card
  omega

theorem EvenOn.sum_le (h : EvenOn f K) (hA : A ⊆ K) :
    ∑ g ∈ A, load f g ≤ A.card * (Fintype.card S / K.card) + min A.card (Fintype.card S % K.card) := by
  rw [sum_quotient fun g hg => h.cases (hA hg), ← h.card_heavy]
  have hall := Finset.card_filter_le A fun g => load f g = Fintype.card S / K.card + 1
  have hheavy := Finset.card_le_card (Finset.filter_subset_filter (fun g => load f g = Fintype.card S / K.card + 1) hA)
  omega

/-! ## One exchange -/

variable [DecidableEq S]

theorem load_comp_swap (f : S → G) (s t : S) (g : G) : load (f ∘ Equiv.swap s t) g = load f g :=
  Finset.card_equiv (Equiv.swap s t) fun x => by simp

theorem load_update_self {s : S} (h : f s ≠ g) : load (Function.update f s g) g = load f g + 1 := by
  have hset : (Finset.univ.filter fun x => Function.update f s g x = g) =
      insert s (Finset.univ.filter fun x => f x = g) := by
    ext x
    by_cases hx : x = s
    · simp [hx]
    · simp [hx]
  rw [load, hset, Finset.card_insert_of_notMem (by simp [h])]
  rfl

theorem load_update_old {s : S} (h : f s ≠ g) : load (Function.update f s g) (f s) + 1 = load f (f s) := by
  have hset : (Finset.univ.filter fun x => Function.update f s g x = f s) =
      (Finset.univ.filter fun x => f x = f s).erase s := by
    ext x
    by_cases hx : x = s
    · simp [hx, Ne.symm h]
    · simp [hx]
  rw [load, hset, Finset.card_erase_add_one (by simp)]
  rfl

theorem load_update_of_ne {s : S} {g' : G} (h : g' ≠ g) (h' : g' ≠ f s) :
    load (Function.update f s g) g' = load f g' := by
  unfold load
  congr 1
  ext x
  by_cases hx : x = s
  · simp [hx, Ne.symm h, Ne.symm h']
  · simp [hx]

/-- An owner that lost an item and has not more than any other could have kept it instead
of a new owner. -/
theorem EvenOn.exists_fewer {f₀ : S → G} (h : EvenOn f K) (hf₀ : ∀ s, f₀ s ∈ A) {heavy light : G}
    (hnew : heavy ∉ A) (hfull : load f heavy = Fintype.card S / K.card + 1)
    (hlight : light ∈ K) (hold : light ∈ A) (hleast : load f light = Fintype.card S / K.card)
    (hlost : load f light < load f₀ light) : ∃ f', EvenOn f' K ∧ moved f₀ f' < moved f₀ f := by
  obtain ⟨s, hs, hs'⟩ : ∃ s, f₀ s = light ∧ f s ≠ light := by
    by_contra hnone
    simp only [not_exists, not_and, not_not] at hnone
    refine absurd (Finset.card_le_card fun s hs => ?_) (Nat.not_le.mpr hlost)
    simp only [Finset.mem_filter, Finset.mem_univ, true_and] at hs ⊢
    exact hnone s hs
  obtain ⟨t, ht⟩ : ∃ t, f t = heavy := by
    by_contra hnone
    simp only [not_exists] at hnone
    have hzero : load f heavy = 0 := Finset.card_eq_zero.mpr (Finset.filter_false_of_mem fun t _ => hnone t)
    omega
  -- `t` takes the place of `s`, and `s` goes back
  have hswap : (f ∘ Equiv.swap s t) s = heavy := by simp [ht]
  have hne : (f ∘ Equiv.swap s t) s ≠ light := by
    rw [hswap]
    rintro rfl
    exact hnew hold
  refine ⟨Function.update (f ∘ Equiv.swap s t) s light, ⟨fun x => ?_, ?_⟩, ?_⟩
  · by_cases hx : x = s
    · simpa [hx] using hlight
    · simpa [hx] using h.mem _
  · have hloads : ∀ g ∈ K, load (Function.update (f ∘ Equiv.swap s t) s light) g = Fintype.card S / K.card ∨
        load (Function.update (f ∘ Equiv.swap s t) s light) g = Fintype.card S / K.card + 1 := by
      intro g hg
      by_cases hgl : g = light
      · rw [hgl, load_update_self hne, load_comp_swap, hleast]
        exact Or.inr rfl
      · by_cases hgh : g = heavy
        · have hdrop := load_update_old hne
          rw [hswap, load_comp_swap, hfull] at hdrop
          rw [hgh]
          exact Or.inl (Nat.succ_injective hdrop)
        · rw [load_update_of_ne hgl (by rwa [hswap]), load_comp_swap]
          exact h.cases hg
    intro g hg g' hg'
    have := hloads g hg
    have := hloads g' hg'
    omega
  · refine Finset.card_lt_card ⟨fun x hx => ?_, fun hsub => ?_⟩
    · simp only [Finset.mem_filter, Finset.mem_univ, true_and] at hx ⊢
      by_cases hxs : x = s
      · simp [hxs, hs] at hx
      · by_cases hxt : x = t
        · rw [hxt, ht]
          intro heq
          exact hnew (heq ▸ hf₀ t)
        · simpa [hxs, hxt, Equiv.swap_apply_of_ne_of_ne hxs hxt] using hx
    · have hmem := hsub (Finset.mem_filter.mpr ⟨Finset.mem_univ s, by rwa [hs]⟩)
      simp [hs] at hmem

end

/-! ## Ranks -/

section
variable {G : Type*} [LinearOrder G] {K K' A : Finset G} {g g' : G} {n e : Nat}

def rank (K : Finset G) (g : G) : Nat := (K.filter (· < g)).card

theorem rank_lt (hg : g ∈ K) : rank K g < K.card := by
  refine Finset.card_lt_card (Finset.filter_ssubset.mpr ⟨g, hg, lt_irrefl g⟩)

theorem rank_lt_rank (hg : g ∈ K) (h : g < g') : rank K g < rank K g' := by
  refine Finset.card_lt_card ⟨fun x hx => ?_, fun hsub => ?_⟩
  · simp only [Finset.mem_filter] at hx ⊢
    exact ⟨hx.1, hx.2.trans h⟩
  · have hmem := hsub (Finset.mem_filter.mpr ⟨hg, h⟩)
    exact lt_irrefl g (Finset.mem_filter.mp hmem).2

theorem rank_injOn (K : Finset G) : Set.InjOn (rank K) K := by
  intro g hg g' hg' h
  rcases lt_trichotomy g g' with hlt | heq | hlt
  · exact absurd h (rank_lt_rank hg hlt).ne
  · exact heq
  · exact absurd h.symm (rank_lt_rank hg' hlt).ne

theorem rank_mono (h : K ⊆ K') (g : G) : rank K g ≤ rank K' g :=
  Finset.card_le_card (Finset.filter_subset_filter _ h)

theorem image_rank (K : Finset G) : K.image (rank K) = Finset.range K.card := by
  refine Finset.eq_of_subset_of_card_le (fun i hi => ?_) ?_
  · obtain ⟨g, hg, rfl⟩ := Finset.mem_image.mp hi
    exact Finset.mem_range.mpr (rank_lt hg)
  · rw [Finset.card_range, Finset.card_image_of_injOn (rank_injOn K)]

theorem card_filter_rank (he : e ≤ K.card) : (K.filter fun g => rank K g < e).card = e := by
  have himage : (K.filter fun g => rank K g < e).image (rank K) = Finset.range e := by
    ext i
    simp only [Finset.mem_image, Finset.mem_filter, Finset.mem_range]
    constructor
    · rintro ⟨g, ⟨-, hlt⟩, rfl⟩
      exact hlt
    · intro hi
      have hmem : i ∈ K.image (rank K) := by
        rw [image_rank]
        exact Finset.mem_range.mpr (hi.trans_le he)
      obtain ⟨g, hg, rfl⟩ := Finset.mem_image.mp hmem
      exact ⟨g, ⟨hg, hi⟩, rfl⟩
  have hinj : Set.InjOn (rank K) (K.filter fun g => rank K g < e) :=
    (rank_injOn K).mono (Finset.coe_subset.mpr (Finset.filter_subset _ K))
  calc (K.filter fun g => rank K g < e).card
    _ = ((K.filter fun g => rank K g < e).image (rank K)).card := (Finset.card_image_of_injOn hinj).symm
    _ = e := by rw [himage, Finset.card_range]

theorem rank_of_pairwise {l : List G} (h : l.Pairwise (· < ·)) {k : Nat} (hk : l[k]? = some g) :
    rank l.toFinset g = k := by
  obtain ⟨hlt, rfl⟩ := List.getElem?_eq_some_iff.mp hk
  have hfilter : l.toFinset.filter (· < l[k]) = (l.take k).toFinset := by
    ext x
    simp only [Finset.mem_filter, List.mem_toFinset, List.mem_take_iff_getElem]
    rw [List.pairwise_iff_getElem] at h
    constructor
    · rintro ⟨hx, hlt'⟩
      obtain ⟨j, hj, rfl⟩ := List.getElem_of_mem hx
      refine ⟨j, ?_, rfl⟩
      by_contra hjk
      rcases (show k ≤ j by omega).lt_or_eq with hkj | rfl
      · exact lt_asymm hlt' (h k j hlt hj hkj)
      · exact lt_irrefl _ hlt'
    · rintro ⟨j, hj, rfl⟩
      exact ⟨List.getElem_mem _, h j k (by omega) hlt (by omega)⟩
  have hnodup : l.Nodup := h.imp ne_of_lt
  rw [rank, hfilter, List.toFinset_card_of_nodup (hnodup.sublist (List.take_sublist k l)), List.length_take]
  omega

/-- What an owner gets of `n` items when the first ones get one more. -/
def share (n : Nat) (K : Finset G) (g : G) : Nat := n / K.card + if rank K g < n % K.card then 1 else 0

theorem share_cases (n : Nat) (K : Finset G) (g : G) : share n K g = n / K.card ∨ share n K g = n / K.card + 1 := by
  unfold share
  split <;> simp

theorem sum_share (n : Nat) (K A : Finset G) :
    ∑ g ∈ A, share n K g = A.card * (n / K.card) + (A.filter fun g => rank K g < n % K.card).card := by
  simp only [share, Finset.sum_add_distrib, Finset.sum_const, smul_eq_mul, Finset.card_filter]

theorem le_sum_share (hA : A ⊆ K)
    (h : (∀ g ∈ K, g ∉ A → n % K.card ≤ rank K g) ∨ ∀ g ∈ A, rank K g < n % K.card) :
    A.card * (n / K.card) + min A.card (n % K.card) ≤ ∑ g ∈ A, share n K g := by
  rw [sum_share]
  refine Nat.add_le_add_left ?_ _
  rcases h with hlast | hfirst
  · rcases K.eq_empty_or_nonempty with rfl | hne
    · simp [Finset.subset_empty.mp hA]
    · have hmod := Nat.mod_lt n (Finset.card_pos.mpr hne)
      refine (Nat.min_le_right _ _).trans ((card_filter_rank hmod.le).ge.trans ?_)
      refine Finset.card_le_card fun g hg => ?_
      simp only [Finset.mem_filter] at hg ⊢
      refine ⟨?_, hg.2⟩
      by_contra hout
      exact absurd (hlast g hg.1 hout) (Nat.not_le.mpr hg.2)
  · rw [Finset.filter_true_of_mem hfirst]
    exact Nat.min_le_left _ _

omit [LinearOrder G] in
/-- With more owners the quotient shrinks, or the remainder does. -/
theorem quotient_lt_or_remainder_le (h : K ⊆ K') (hpos : 0 < K.card) (n : Nat) :
    n / K'.card < n / K.card ∨ n / K'.card = n / K.card ∧ n % K'.card ≤ n % K.card := by
  have hcard := Finset.card_le_card h
  rcases (Nat.div_le_div_left hcard hpos : n / K'.card ≤ n / K.card).lt_or_eq with hlt | heq
  · exact Or.inl hlt
  · have hmul : K.card * (n / K'.card) ≤ K'.card * (n / K'.card) := Nat.mul_le_mul_right _ hcard
    have h1 := Nat.div_add_mod n K.card
    have h2 := Nat.div_add_mod n K'.card
    rw [← heq] at h1
    exact Or.inr ⟨heq, by omega⟩

/-- With more owners, nobody gets more than before. -/
theorem share_anti (h : K ⊆ K') (hg : g ∈ K) (n : Nat) : share n K' g ≤ share n K g := by
  have hrank := rank_mono h g
  unfold share
  rcases quotient_lt_or_remainder_le h (Finset.card_pos.mpr ⟨g, hg⟩) n with hlt | ⟨heq, hle⟩
  · split <;> omega
  · rw [heq]
    split <;> split <;> omega

/-- If one of those who have come gets one more and one of those who were there does not,
then one of these had more than it gets now. -/
theorem exists_share_lt (h : K ⊆ K') (hg' : g' ∈ K') (hnew : g' ∉ K) (hfirst : rank K' g' < n % K'.card)
    (hg : g ∈ K) (hlast : n % K'.card ≤ rank K' g) :
    ∃ x ∈ K, n % K'.card ≤ rank K' x ∧ n / K'.card < share n K x := by
  have hpos : 0 < K.card := Finset.card_pos.mpr ⟨g, hg⟩
  rcases quotient_lt_or_remainder_le h hpos n with hlt | ⟨heq, hle⟩
  · exact ⟨g, hg, hlast, hlt.trans_le (Nat.le_add_right _ _)⟩
  · -- at least as many had one more as have it now, and one of those who have it is new
    have hsub : (K.filter fun x => rank K' x < n % K'.card) ⊂ K'.filter fun x => rank K' x < n % K'.card := by
      refine ⟨Finset.filter_subset_filter _ h, fun hsub => ?_⟩
      exact hnew (Finset.mem_filter.mp (hsub (Finset.mem_filter.mpr ⟨hg', hfirst⟩))).1
    have hfew : (K.filter fun x => rank K' x < n % K'.card).card < (K.filter fun x => rank K x < n % K.card).card := by
      have hlt := Finset.card_lt_card hsub
      rw [card_filter_rank (Nat.mod_lt n (hpos.trans_le (Finset.card_le_card h))).le] at hlt
      rw [card_filter_rank (Nat.mod_lt n hpos).le]
      exact hlt.trans_le hle
    obtain ⟨x, hx, hx'⟩ := Finset.exists_mem_notMem_of_card_lt_card hfew
    simp only [Finset.mem_filter, not_and] at hx hx'
    refine ⟨x, hx.1, Nat.le_of_not_lt (hx' hx.1), ?_⟩
    rw [share, if_pos hx.2, ← heq]
    exact Nat.lt_succ_self _

end

end DistLab
