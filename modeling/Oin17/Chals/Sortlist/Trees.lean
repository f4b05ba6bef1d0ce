import Oin17.Chals.Sortlist.Shape

namespace Oin17.Chals.Sortlist
open Cint Leonardo Loop

namespace Smooth

/-- The trees while elements are added: only the last two can be next to each
other in size. -/
structure Built (k : Nat) (ks : List Nat) : Prop where
  room : Room (k :: ks)
  gaps : ks.Pairwise fun i j => i + 2 ≤ j
  zero : k = 0 → ∃ js, ks = 1 :: js

section Lists
variable {k m : Nat} {ks : List Nat}

theorem built_one : Built 1 [] := by
  refine ⟨⟨List.pairwise_singleton .., Or.inl fun j hj => ?_⟩, List.Pairwise.nil, nofun⟩
  rw [List.mem_singleton.mp hj]
  omega

theorem built_zero_one : Built 0 [1] := by
  refine ⟨⟨List.pairwise_pair.mpr Nat.one_pos, Or.inl fun j hj => ?_⟩, List.pairwise_singleton ..,
    fun _ => ⟨[], rfl⟩⟩
  simp only [List.mem_cons, List.not_mem_nil, or_false] at hj
  omega

theorem leaf_lt (h : 0 < k) : leaf k < k := by
  unfold leaf
  split <;> omega

theorem leaf_lt_two (k : Nat) : leaf k < 2 := by
  unfold leaf
  split <;> omega

/-- Either the last two trees are joined next, or the next element is a tree by
itself. -/
theorem Built.cases (h : Built k ks) :
    (∃ js, ks = (k + 1) :: js ∧ ∀ j ∈ js, k + 3 ≤ j) ∨ 0 < k ∧ ∀ j ∈ ks, k + 2 ≤ j := by
  cases ks with
  | nil =>
    refine Or.inr ⟨Nat.pos_of_ne_zero fun h0 => ?_, nofun⟩
    obtain ⟨js, hjs⟩ := h.zero h0
    cases hjs
  | cons i js =>
    have hi := h.room.lt i List.mem_cons_self
    have hjs := (List.pairwise_cons.mp h.gaps).1
    by_cases hik : i = k + 1
    · subst hik
      exact Or.inl ⟨js, rfl, hjs⟩
    · refine Or.inr ⟨Nat.pos_of_ne_zero fun h0 => ?_, fun j hj => ?_⟩
      · obtain ⟨js', hjs'⟩ := h.zero h0
        obtain ⟨rfl, -⟩ := List.cons.inj hjs'
        omega
      · rcases List.mem_cons.mp hj with rfl | hj
        · omega
        · have := hjs j hj
          omega

theorem Built.join (h : Built k ((k + 1) :: ks)) (hks : ∀ j ∈ ks, k + 3 ≤ j) :
    Built (k + 2) ks := by
  refine ⟨⟨List.pairwise_cons.mpr ⟨fun j hj => hks j hj, h.room.tail.tail.rising⟩, ?_⟩,
    (List.pairwise_cons.mp h.gaps).2, nofun⟩
  rcases h.room.fits with hall | he | he
  · have hk := hall (k + 1) (by simp)
    have hrest : ∀ j ∈ ks, j ≤ 63 := fun j hj => hall j (by simp [hj])
    by_cases hk' : k + 2 ≤ 63
    · refine Or.inl fun j hj => ?_
      rcases List.mem_cons.mp hj with rfl | hj
      · exact hk'
      · exact hrest j hj
    · cases ks with
      | nil => exact Or.inr (Or.inl (by rw [show k + 2 = 64 by omega]))
      | cons j js =>
        have h₁ := hks j List.mem_cons_self
        have h₂ := hrest j List.mem_cons_self
        omega
  · cases he
  · obtain ⟨rfl, he⟩ := List.cons.inj he
    cases he

theorem Built.add (h : Built k ks) (h0 : 0 < k) (hks : ∀ j ∈ ks, k + 2 ≤ j)
    (hfit : ¬ (k = 1 ∧ ks = [64])) : Built (leaf k) (k :: ks) := by
  have hleaf := leaf_lt h0
  refine ⟨⟨List.pairwise_cons.mpr ⟨fun j hj => ?_, h.room.rising⟩, ?_⟩,
    List.pairwise_cons.mpr ⟨hks, h.gaps⟩, fun hz => ?_⟩
  · rcases List.mem_cons.mp hj with rfl | hj
    · exact hleaf
    · exact Nat.lt_trans hleaf (h.room.lt j hj)
  · rcases h.room.fits with hall | he | he
    · refine Or.inl fun j hj => ?_
      rcases List.mem_cons.mp hj with rfl | hj
      · have := leaf_lt_two k
        omega
      · exact hall j hj
    · obtain ⟨rfl, rfl⟩ := List.cons.inj he
      exact Or.inr (Or.inr rfl)
    · exact absurd (List.cons.inj he) hfit
  · refine ⟨ks, ?_⟩
    unfold leaf at hz
    split at hz
    · next hk => rw [hk]
    · cases hz

theorem size_gaps (h : (k :: ks).Pairwise fun i j => i + 2 ≤ j) (h0 : 0 < k)
    (hm : ∀ j ∈ k :: ks, j ≤ m) : size (k :: ks) + leo (k - 1) < leo (m + 1) := by
  obtain ⟨k, rfl⟩ : ∃ i, k = i + 1 := ⟨k - 1, by omega⟩
  have htwo : leo (k + 2) = leo (k + 1) + leo k + 1 := rfl
  rw [Nat.add_sub_cancel]
  induction ks generalizing k with
  | nil =>
    have hk := hm (k + 1) List.mem_cons_self
    have hle : leo (k + 2) ≤ leo (m + 1) := leo_mono (by omega)
    simp only [size]
    omega
  | cons i is ih =>
    obtain ⟨hgap, htail⟩ := List.pairwise_cons.mp h
    have hi := hgap i List.mem_cons_self
    obtain ⟨i, rfl⟩ : ∃ j, i = j + 1 := ⟨i - 1, by omega⟩
    have hle : leo (k + 2) ≤ leo i := leo_mono (by omega)
    have hrest := ih i htail (by omega) (fun j hj => hm j (List.mem_cons_of_mem _ hj)) rfl
    have hsize : size ((k + 1) :: (i + 1) :: is) = size ((i + 1) :: is) + leo (k + 1) := rfl
    omega

/-- As many elements as there are bits for. -/
theorem Built.size_le (h : Built k ks) : size (k :: ks) ≤ leo 64 + 1 := by
  rcases h.room.fits with hall | he | he
  · cases ks with
    | nil =>
      have hle : leo k ≤ leo 64 := leo_mono (Nat.le_succ_of_le (hall k List.mem_cons_self))
      simp only [size]
      omega
    | cons i is =>
      have hi := h.room.lt i List.mem_cons_self
      have hgap : size (i :: is) + leo (i - 1) < leo 64 := size_gaps (m := 63) h.gaps (by omega)
        fun j hj => hall j (List.mem_cons_of_mem k hj)
      have hle : leo k ≤ leo (i - 1) := leo_mono (by omega)
      have hsize : size (k :: i :: is) = size (i :: is) + leo k := rfl
      omega
  · rw [he]
    exact Nat.le_of_eq (Nat.zero_add _) |>.trans (Nat.le_succ _)
  · rw [he, size, size, size, Nat.zero_add]
    exact Nat.le_refl _

end Lists

section Passes
variable {s t : State} {n fuel k : Nat} {ks : List Nat} {rev : Bool}

/-- What one more element makes of the trees: with all the bits in use, the
greatest tree is lost. -/
theorem grow_shape (hs : Shape s k ks) (hb : Built k ks) (h : grow fuel n rev s = some t) :
    ∃ j js, Shape t j js ∧ Built j js ∧ t.q = s.q ∧
      (size (j :: js) = size (k :: ks) + 1 ∨ size (j :: js) + leo 64 = size (k :: ks) + 1) := by
  rcases hb.cases with ⟨js, rfl, hjs⟩ | ⟨h0, hks⟩
  · rw [grow_join hs hjs] at h
    obtain ⟨ht, hq, -⟩ := join_shape hs hb.room hjs h
    have hsize : size (k :: (k + 1) :: js) = size js + leo (k + 1) + leo k := rfl
    have hsize' : size ((k + 2) :: js) = size js + (leo (k + 1) + leo k + 1) := rfl
    exact ⟨k + 2, js, ht, hb.join hjs, hq, Or.inl (by omega)⟩
  · rw [grow_add hs hks] at h
    by_cases hfit : k = 1 ∧ ks = [64]
    · obtain ⟨rfl, rfl⟩ := hfit
      obtain ⟨ht, hq⟩ := add_lost hs h
      refine ⟨0, [1], ht, built_zero_one, hq, Or.inr ?_⟩
      simp only [size]
      rw [show leo 0 = 1 from rfl, show leo 1 = 1 from rfl]
      omega
    · have hadd := hb.add h0 hks hfit
      obtain ⟨ht, hq, -⟩ := add_shape hs h0 hadd.room h
      have hone := leo_one (leaf_lt_two k)
      have hsize : size (leaf k :: k :: ks) = size (k :: ks) + leo (leaf k) := rfl
      exact ⟨leaf k, k :: ks, ht, hadd, hq, Or.inl (by omega)⟩

/-- What taking an element makes of the trees. -/
theorem shrink_shape (hs : Shape s k ks) (hroom : Room (k :: ks))
    (h : shrink fuel n rev s = some t) : ∃ j js, Shape t j js ∧ Room (j :: js) ∧ t.q = s.q ∧
      size (j :: js) + 1 = size (k :: ks) := by
  unfold shrink at h
  rcases leo_cases k with ⟨hlt, hone⟩ | ⟨hle, hbig⟩
  · rw [hs.b, if_pos hone] at h
    cases ks with
    | nil =>
      rw [drop_last fuel hs] at h
      cases h
    | cons j js =>
      rw [drop_eq fuel hs hroom] at h
      split at h
      · obtain rfl := Option.some.inj h
        have hsize : size (k :: j :: js) = size (j :: js) + leo k := rfl
        exact ⟨j, js, ⟨rfl, rfl, rfl⟩, hroom.tail, rfl, by omega⟩
      · cases h
  · obtain ⟨k, rfl⟩ := Nat.exists_eq_add_of_le' hle
    rw [hs.b, if_neg (by omega), if_pos (by omega)] at h
    obtain ⟨ht, hq⟩ := split_shape hs hroom h
    have hsize : size (k :: (k + 1) :: ks) = size ks + leo (k + 1) + leo k := rfl
    have hsize' : size ((k + 2) :: ks) = size ks + (leo (k + 1) + leo k + 1) := rfl
    exact ⟨k, (k + 1) :: ks, ht, hroom.split, hq, by omega⟩

/-- The trees that there are bits for have no more than the elements so far. -/
def Seen (n : Nat) (s : State) : Prop :=
  ∃ k ks, Shape s k ks ∧ Built k ks ∧ size (k :: ks) ≤ s.q ∧ s.q ≤ n

theorem build_pass_seen (hn : n < 2 ^ 64) (hs : Seen n s)
    (h : buildBody fuel n rev s = some (.inl t)) : Seen n t := by
  obtain ⟨k, ks, hshape, hb, hsize, hle⟩ := hs
  unfold buildBody at h
  split at h
  · next hlt =>
    obtain ⟨u, hgrow, h⟩ := Option.bind_eq_some_iff.mp h
    obtain rfl := Sum.inl.inj (Option.some.inj h)
    have hs₁ : Shape { s with r1 := s.r } k ks := ⟨hshape.p, hshape.b, hshape.c⟩
    obtain ⟨j, js, hu, hj, hq, hgrown⟩ := grow_shape hs₁ hb hgrow
    have huq : u.q = s.q := hq
    have hincr : incr u.q = s.q + 1 := by
      rw [huq]
      exact incr_small (by omega)
    refine ⟨j, js, ⟨hu.p, hu.b, hu.c⟩, hj, ?_, ?_⟩
    · show size (j :: js) ≤ incr u.q
      omega
    · show incr u.q ≤ n
      omega
  · cases h

theorem build_leave (h : buildBody fuel n rev s = some (.inr t)) : t = s ∧ n ≤ s.q := by
  unfold buildBody at h
  split at h
  · obtain ⟨u, -, h⟩ := Option.bind_eq_some_iff.mp h
    cases h
  · next hle => exact ⟨(Sum.inr.inj (Option.some.inj h)).symm, not_lt.mp hle⟩

/-- More elements than the trees have are still to be taken. -/
def Lost (s : State) : Prop :=
  ∃ k ks, Shape s k ks ∧ Room (k :: ks) ∧ size (k :: ks) < s.q ∧ s.q < 2 ^ 64

theorem size_pos (k : Nat) (ks : List Nat) : 0 < size (k :: ks) := by
  have := leo_pos k
  rw [size]
  omega

theorem sort_pass_lost (hs : Lost s) (h : sortBody fuel n rev s = some (.inl t)) : Lost t := by
  obtain ⟨k, ks, hshape, hroom, hlt, hq⟩ := hs
  have hdecr : decr s.q = s.q - 1 := decr_pos (Nat.zero_lt_of_lt hlt) hq
  unfold sortBody at h
  split at h
  · obtain ⟨u, hshrink, h⟩ := Option.map_eq_some_iff.mp h
    obtain rfl := Sum.inl.inj h
    have hs₁ : Shape { s with q := decr s.q } k ks := ⟨hshape.p, hshape.b, hshape.c⟩
    obtain ⟨j, js, hu, hj, hq', hsize⟩ := shrink_shape hs₁ hroom hshrink
    have huq : u.q = s.q - 1 := hq'.trans hdecr
    exact ⟨j, js, hu, hj, by omega, by omega⟩
  · cases h

theorem sort_stays_lost (hs : Lost s) : sortBody fuel n rev s ≠ some (.inr t) := by
  obtain ⟨k, ks, -, -, hlt, -⟩ := hs
  have := size_pos k ks
  rw [sortBody, if_pos (by omega)]
  intro h
  obtain ⟨u, -, h⟩ := Option.map_eq_some_iff.mp h
  cases h

end Passes

end Smooth

/-- With more elements than there are bits for, the program does not come back. -/
theorem smoothsort64_never (fuel : Nat) (a : Nums) (rev : Bool) (h : leo 64 + 1 < n)
    (hn : n < 2 ^ 64) : smoothsort64 fuel a n rev = none := by
  apply Option.eq_none_iff_forall_ne_some.mpr
  intro r hr
  unfold smoothsort64 at hr
  obtain ⟨s, hbuild, hr⟩ := Option.bind_eq_some_iff.mp hr
  obtain ⟨t, htrinkle, hr⟩ := Option.bind_eq_some_iff.mp hr
  obtain ⟨u, hsort, -⟩ := Option.bind_eq_some_iff.mp hr
  have hbuilt : Smooth.Seen n s ∧ n ≤ s.q := by
    apply run_partial (Smooth.Seen n) (fun s => Smooth.Seen n s ∧ n ≤ s.q) _ _ _ hbuild
    · intro v w hv hpass
      exact Smooth.build_pass_seen hn hv hpass
    · intro v w hv hleave
      obtain ⟨rfl, hle⟩ := Smooth.build_leave hleave
      exact ⟨hv, hle⟩
    · exact ⟨1, [], ⟨rfl, rfl, rfl⟩, Smooth.built_one, Nat.le_refl 1, Nat.one_le_of_lt h⟩
  obtain ⟨⟨k, ks, hshape, hb, -, hq⟩, hle⟩ := hbuilt
  have hkept := Smooth.trinkle_kept htrinkle
  have hlost : Smooth.Lost t := by
    have hsize := hb.size_le
    have htq : t.q = s.q := hkept.q
    exact ⟨k, ks, ⟨hkept.p.trans hshape.p, hkept.b.trans hshape.b, hkept.c.trans hshape.c⟩,
      hb.room, by omega, by omega⟩
  rw [run_never Smooth.Lost (fun _ _ => Smooth.sort_pass_lost)
    (fun _ _ => Smooth.sort_stays_lost) fuel hlost] at hsort
  cases hsort

end Oin17.Chals.Sortlist
