import Oin17.Chals.Sortlist.Sift

namespace Oin17.Chals.Sortlist
open Cint Leonardo Loop Memory Rearrange

namespace Smooth

/-- The first elements are in trees, and the root of the last one is still to sink. -/
structure Growing (rev : Bool) (n : Nat) (a₀ : Nums) (s : State) (k : Nat) (ks : List Nat) :
    Prop where
  shape : Shape s k ks
  built : Built k ks
  q : s.q = size (k :: ks)
  r : s.r + 1 = s.q
  le : s.q ≤ n
  moved : Moved 0 n a₀ s.a
  begun : Begun (key rev) n s.a k ks

section Build
variable {rev : Bool} {n fuel k : Nat} {ks : List Nat} {a₀ : Nums} {s : State}

theorem Growing.root (h : Growing rev n a₀ s k ks) : s.r = root k (size ks) := by
  have hr := h.r
  have hq := h.q
  have := root_succ k (size ks)
  rw [size] at hq
  omega

theorem sift_last (h : Growing rev n a₀ s k ks) (hn : n < 2 ^ 63) (hf : n + 65 < fuel) :
    ∃ t, sift fuel n rev { s with r1 := s.r, b1 := s.b, c1 := s.c } = some t ∧
      t.a = sink (key rev) (s.a s.r) k (size ks) s.a := by
  have hr := h.root
  have hr' := h.r
  have hle := h.le
  have hole : Hole { s with r1 := s.r, b1 := s.b, c1 := s.c } k (size ks) :=
    ⟨hr, h.shape.b, h.shape.c⟩
  have hk := h.built.room.le k List.mem_cons_self
  exact sift_spec rev hole (by omega) hn hk (by omega)

theorem join_spec (h : Growing rev n a₀ s k ks) (hn : n < 2 ^ 63) (hf : n + 65 < fuel) :
    ∃ t, joinTrees fuel n rev { s with r1 := s.r } = some t ∧
      t.a = sink (key rev) (s.a s.r) k (size ks) s.a := by
  obtain ⟨u, hsift, hu⟩ := sift_last h hn hf
  apply Exists.intro
  constructor
  · simp only [joinTrees, hsift, Option.bind_eq_bind, Option.bind_some]
    rfl
  · exact hu

theorem trinkle_last (h : Growing rev n a₀ s k ks) (hn : n < 2 ^ 63) (hf : n + 65 < fuel) :
    ∃ t, trinkle fuel n rev { s with r1 := s.r } = some t ∧
      t.a = Leonardo.settle (key rev) (s.a s.r) (k :: ks) s.a := by
  have hr := h.root
  have hr' := h.r
  have hle := h.le
  have hp : s.p = 2 ^ 0 * mask k ks := by
    rw [h.shape.p, Nat.pow_zero, Nat.one_mul]
  exact trinkle_spec rev (s := { s with r1 := s.r }) hr (Nat.add_zero k) hp h.shape.b h.shape.c
    h.built.room (by omega) hn hf

theorem add_spec (hs : Shape s k ks) (h0 : 0 < k) (hk : k ≤ 64) (hf : 64 < fuel)
    {u : State} (h : settle fuel n rev s = some u) :
    ∃ t, addTree fuel n rev s = some t ∧ t.a = u.a := by
  have hu := (settle_kept h).shape hs
  have hrun := single_run fuel u.p h0 hk
  rw [if_pos (by omega), ← hu.b, ← hu.c] at hrun
  apply Exists.intro
  constructor
  · simp only [addTree, h, hrun, Option.bind_eq_bind, Option.bind_some]
    rfl
  · rfl

theorem Growing.sunk (h : Growing rev n a₀ s k ks) :
    Moved 0 n s.a (sink (key rev) (s.a s.r) k (size ks) s.a) := by
  obtain ⟨-, hm⟩ := sink_spec (s.a s.r) h.begun.kids
  have hq := h.q
  have hle := h.le
  rw [size] at hq
  rw [h.root, Function.update_eq_self] at hm
  rw [h.root]
  exact hm.mono (Nat.zero_le _) (by omega)

/-- When the last tree stays, those before it are in order. -/
theorem Growing.row (h : Growing rev n a₀ s k ks)
    (hn : ∀ k' ks', ks = k' :: ks' → n ≤ size ks + leo (k' - 1)) : Row (key rev) s.a ks := by
  apply h.begun.row h.built.gaps _ hn
  intro j hj
  exact Nat.zero_lt_of_lt (h.built.room.lt j hj)

theorem Growing.settled (h : Growing rev n a₀ s k ks) (hrow : Row (key rev) s.a ks) :
    Row (key rev) (Leonardo.settle (key rev) (s.a s.r) (k :: ks) s.a) (k :: ks) ∧
      Moved 0 n s.a (Leonardo.settle (key rev) (s.a s.r) (k :: ks) s.a) := by
  obtain ⟨hrow', hm⟩ := settle_spec (s.a s.r) h.begun.kids hrow
  have hq := h.q
  have hle := h.le
  rw [h.root, Function.update_eq_self] at hm
  refine ⟨hrow', ?_⟩
  rw [h.root]
  exact hm.mono (Nat.le_refl 0) (by omega)

theorem Growing.next {t : State} {j : Nat} {js : List Nat} (h : Growing rev n a₀ s k ks)
    (hlt : s.q < n) (hn : n < 2 ^ 63) (hs : Shape t j js) (hb : Built j js)
    (htq : t.q = s.q) (htr : t.r = s.r) (hsize : size (j :: js) = size (k :: ks) + 1)
    (hm : Moved 0 n s.a t.a) (hbegun : Begun (key rev) n t.a j js) :
    Growing rev n a₀ { t with r := incr t.r, q := incr t.q } j js := by
  have hq := h.q
  have hr := h.r
  have hincr : incr t.q = s.q + 1 := by
    rw [htq]
    exact incr_small (by omega)
  have hincr' : incr t.r = s.r + 1 := by
    rw [htr]
    exact incr_small (by omega)
  refine ⟨⟨hs.p, hs.b, hs.c⟩, hb, ?_, ?_, ?_, h.moved.trans hm, hbegun⟩
  · exact hincr.trans (by omega)
  · show incr t.r + 1 = incr t.q
    omega
  · show incr t.q ≤ n
    omega

/-- The last tree is put in order, in the row when it is to stay there. -/
theorem settle_begun (h : Growing rev n a₀ s k ks) (hn : n < 2 ^ 63)
    (hf : n + 65 < fuel) (h0 : 0 < k) (hks : ∀ j ∈ ks, k + 2 ≤ j) :
    ∃ u, settle fuel n rev { s with r1 := s.r } = some u ∧ Moved 0 n s.a u.a ∧
      Begun (key rev) n u.a (leaf k) (k :: ks) := by
  have hk := h.built.room.le k List.mem_cons_self
  have hq := h.q
  have hle := h.le
  obtain ⟨m, rfl⟩ : ∃ m, k = m + 1 := ⟨k - 1, by omega⟩
  have hc : s.c = leo m := h.shape.c
  have hsmall := leo_small (k := m) (by omega)
  have hsum : add s.q s.c = size ((m + 1) :: ks) + leo m := by
    rw [hq, hc]
    exact add_small (by omega)
  by_cases hpart : add s.q s.c < n
  · obtain ⟨u, hsift, hu⟩ := sift_last h hn hf
    refine ⟨u, by rw [settle, if_pos hpart, hsift], ?_, ?_⟩
    · rw [hu]
      exact h.sunk
    · rw [hu]
      exact h.begun.part (leaf_lt_two _) (by rwa [Nat.add_sub_cancel, ← hsum])
  · have hrow : Row (key rev) s.a ks := by
      apply h.row
      rintro k' ks' rfl
      have hk' := hks k' List.mem_cons_self
      have hleo : leo (m + 2) ≤ leo (k' - 1) := leo_mono (by omega)
      have hbig : size ((m + 1) :: k' :: ks') = size (k' :: ks') + leo (m + 1) := rfl
      rw [leo] at hleo
      omega
    obtain ⟨u, htrinkle, hu⟩ := trinkle_last h hn hf
    refine ⟨u, by rw [settle, if_neg hpart, htrinkle], ?_, ?_⟩
    · rw [hu]
      exact (h.settled hrow).2
    · rw [hu]
      exact h.begun.stay (leaf_lt_two _) hrow

theorem grow_spec (h : Growing rev n a₀ s k ks) (hlt : s.q < n) (hn : n ≤ leo 64 + 1)
    (hf : n + 65 < fuel) : ∃ t j js, grow fuel n rev { s with r1 := s.r } = some t ∧
      t.q = s.q ∧ Growing rev n a₀ { t with r := incr t.r, q := incr t.q } j js := by
  have hn' : n < 2 ^ 63 := by
    have := leo_small (k := 64) (by omega)
    omega
  have hs : Shape { s with r1 := s.r } k ks := ⟨h.shape.p, h.shape.b, h.shape.c⟩
  rcases h.built.cases with ⟨js, rfl, hjs⟩ | ⟨h0, hks⟩
  · obtain ⟨t, hjoin, ha⟩ := join_spec h hn' hf
    obtain ⟨hshape, htq, htr⟩ := join_shape hs h.built.room hjs hjoin
    refine ⟨t, k + 2, js, by rw [grow_join hs hjs, hjoin], htq, ?_⟩
    apply h.next hlt hn' hshape (h.built.join hjs) htq htr
    · simp only [size, leo]
      omega
    · rw [ha]
      exact h.sunk
    · rw [ha]
      exact h.begun.join
  · have hfit : ¬ (k = 1 ∧ ks = [64]) := by
      rintro ⟨rfl, rfl⟩
      have hfull : size [1, 64] = leo 64 + 1 := by
        rw [size, size, size, Nat.zero_add, leo]
      have := h.q
      omega
    have hadd := h.built.add h0 hks hfit
    have hone := leo_one (leaf_lt_two k)
    obtain ⟨u, hsettle, hm, hbegun⟩ := settle_begun h hn' hf h0 hks
    obtain ⟨t, ht, ha⟩ := add_spec hs h0 (h.built.room.le k List.mem_cons_self) (by omega) hsettle
    obtain ⟨hshape, htq, htr⟩ := add_shape hs h0 hadd.room ht
    refine ⟨t, leaf k, k :: ks, by rw [grow_add hs hks, ht], htq, ?_⟩
    rw [← ha] at hm hbegun
    apply h.next hlt hn' hshape hadd htq htr _ hm hbegun
    rw [size, hone]

theorem build_pass (h : Growing rev n a₀ s k ks) (hlt : s.q < n) (hn : n ≤ leo 64 + 1)
    (hf : n + 65 < fuel) : ∃ t j js, buildBody fuel n rev s = some (.inl t) ∧
      t.q = s.q + 1 ∧ Growing rev n a₀ t j js := by
  obtain ⟨t, j, js, hgrow, hq, hnext⟩ := grow_spec h hlt hn hf
  have hsmall := leo_small (k := 64) (by omega)
  refine ⟨_, j, js, ?_, ?_, hnext⟩
  · rw [buildBody, if_pos hlt, hgrow]
    rfl
  · show incr t.q = s.q + 1
    rw [hq, incr_small (by omega)]

theorem build_run {fuel' : Nat} (h : Growing rev n a₀ s k ks) (hn : n ≤ leo 64 + 1)
    (hw : n + 65 < fuel') (hf : n - s.q < fuel) :
    ∃ t j js, run (buildBody fuel' n rev) fuel s = some t ∧ t.q = n ∧ Growing rev n a₀ t j js := by
  induction fuel generalizing s k ks with
  | zero => omega
  | succ fuel ih =>
    by_cases hlt : s.q < n
    · obtain ⟨t, j, js, hs, hq, hnext⟩ := build_pass h hlt hn hw
      obtain ⟨u, i, is, hrun, hu⟩ := ih hnext (by omega)
      exact ⟨u, i, is, by rw [run_pass hs, hrun], hu⟩
    · have hs : buildBody fuel' n rev s = some (.inr s) := by
        rw [buildBody, if_neg hlt]
      have hle := h.le
      exact ⟨s, k, ks, run_leave hs fuel, by omega, h⟩

end Build

/-- The elements that are not taken are a row of trees. -/
structure Taking (rev : Bool) (n : Nat) (a₀ : Nums) (s : State) (k : Nat) (ks : List Nat) :
    Prop where
  shape : Shape s k ks
  room : Room (k :: ks)
  q : s.q = size (k :: ks)
  r : s.r + 1 = s.q
  moved : Moved 0 n a₀ s.a
  taken : Leonardo.Taken (key rev) n s.a (k :: ks)

section Take
variable {rev : Bool} {n fuel k : Nat} {ks : List Nat} {a₀ : Nums} {s : State}

theorem drop_spec (h : Taking rev n a₀ s k ks) (hq : 1 < s.q) (hk : k < 2) (hn : n < 2 ^ 63)
    (hf : 64 < fuel) :
    ∃ t j js, dropTree fuel { s with q := decr s.q } = some t ∧ Taking rev n a₀ t j js ∧
      t.q + 1 = s.q := by
  have hsq := h.q
  have hsr := h.r
  have hle := h.taken.le
  have hone := leo_one hk
  cases ks with
  | nil =>
    rw [size, size, hone] at hsq
    omega
  | cons j js =>
    have hj := h.room.le j (by simp)
    have hsize : size (k :: j :: js) = size (j :: js) + leo k := rfl
    have hs : Shape { s with q := decr s.q } k (j :: js) := ⟨h.shape.p, h.shape.b, h.shape.c⟩
    have hdrop := drop_eq fuel hs h.room
    rw [if_pos (by omega)] at hdrop
    have hdq : decr s.q = s.q - 1 := decr_pos (by omega) (by omega)
    have hdr : decr s.r = s.r - 1 := decr_pos (by omega) (by omega)
    refine ⟨_, j, js, hdrop, ⟨⟨rfl, rfl, rfl⟩, h.room.tail, ?_, ?_, h.moved, h.taken.drop hk⟩, ?_⟩
    · show decr s.q = size (j :: js)
      omega
    · show decr s.r + 1 = decr s.q
      omega
    · show decr s.q + 1 = s.q
      omega

theorem left_spec (rev : Bool) (hs : Shape s (k + 2) ks) (hr : s.r = root (k + 2) (size ks))
    (hroom : Room ((k + 2) :: ks)) (hlt : root (k + 2) (size ks) < n) (hn : n < 2 ^ 63)
    (hf : n + 65 < fuel) : (atLeft s).r = root (k + 1) (size ks) ∧
      ∃ u, (if 0 < (atLeft s).p then semitrinkle fuel n rev (atLeft s) else some (atLeft s)) =
        some u ∧ u.a = semi (key rev) (k + 1) ks s.a := by
  have hk := hroom.le (k + 2) List.mem_cons_self
  have hroot := root_succ (k + 2) (size ks)
  have hroot' := root_succ (k + 1) (size ks)
  have hsmall := leo_small (k := k + 1) (by omega)
  have hmono : leo (k + 1) ≤ leo (k + 2) := leo_le_succ (k + 1)
  have hc : s.c = leo (k + 1) := hs.c
  have hleft : (atLeft s).r = root (k + 1) (size ks) := by
    have hadd : add (sub s.r s.b) s.c = root (k + 1) (size ks) := by
      rw [hs.b, hc, hr, add_sub_small (by omega) (by omega)]
      omega
    rwa [atLeft]
  have hp := atLeft_p hs hroom
  refine ⟨hleft, ?_⟩
  cases ks with
  | nil =>
    rw [if_neg (by rw [hp, mask]; omega)]
    exact ⟨_, rfl, rfl⟩
  | cons j js =>
    have hj := hroom.lt j List.mem_cons_self
    rw [mask, Nat.add_sub_cancel_left] at hp
    rw [if_pos (by rw [hp]; exact Nat.mul_pos (Nat.two_pow_pos _) (mask_pos j js))]
    exact semitrinkle_spec rev hleft (by omega) hp hs.b hs.c hroom.tail (by omega) hn hf

theorem split_spec (rev : Bool) (hs : Shape s (k + 2) ks) (hr : s.r = root (k + 2) (size ks))
    (hroom : Room ((k + 2) :: ks)) (hlt : root (k + 2) (size ks) < n) (hn : n < 2 ^ 63)
    (hf : n + 65 < fuel) : ∃ t, splitTree fuel n rev s = some t ∧
      t.a = semi (key rev) k ((k + 1) :: ks) (semi (key rev) (k + 1) ks s.a) ∧
      t.r = root k (size ((k + 1) :: ks)) := by
  obtain ⟨hleft, u, hu, hua⟩ := left_spec rev hs hr hroom hlt hn hf
  have hkept := left_kept hu
  have hright := atRight_shape (hkept.p.trans (atLeft_p hs hroom)) (hkept.b.trans hs.b)
    (hkept.c.trans hs.c) hroom
  have hk := hroom.le (k + 2) List.mem_cons_self
  have hroot := root_add_two k (size ks)
  have hroot₁ := root_succ (k + 1) (size ks)
  have hroot₂ := root_succ k (size ((k + 1) :: ks))
  have hsize : size ((k + 1) :: ks) = size ks + leo (k + 1) := rfl
  have hpos := leo_pos k
  have hr' : (atRight u).r = root k (size ((k + 1) :: ks)) := by
    have hc : u.down.c = leo k := hright.c
    have hadd : add u.r u.down.c = root k (size ((k + 1) :: ks)) := by
      rw [hkept.r, hleft, hc, add_small (by omega)]
      omega
    rwa [atRight]
  have hp : (atRight u).p = 2 ^ 0 * mask (k + 1) ks := by
    rw [hright.p, Nat.pow_zero, Nat.one_mul]
  obtain ⟨v, hv, hva⟩ := semitrinkle_spec rev hr' (Nat.add_zero (k + 1)) hp hright.b
    hright.c hroom.split.tail (by omega) hn hf
  have hkept' := semitrinkle_kept hv
  refine ⟨atBoth v, ?_, ?_, ?_⟩
  · rw [splitTree_eq, hu, Option.bind_some, hv, Option.bind_some]
  · have ha : (atRight u).a = u.a := by rw [atRight, State.down]
    have hb : (atBoth v).a = v.a := by rw [atBoth, State.down]
    rw [hb, hva, ha, hua]
  · have hb : (atBoth v).r = v.r := by rw [atBoth, State.down]
    rw [hb, hkept'.r, hr']

theorem split_pass (h : Taking rev n a₀ s (k + 2) ks) (hn : n < 2 ^ 63) (hf : n + 65 < fuel) :
    ∃ t j js, splitTree fuel n rev { s with q := decr s.q } = some t ∧ Taking rev n a₀ t j js ∧
      t.q + 1 = s.q := by
  have hsq := h.q
  have hsr := h.r
  have hle := h.taken.le
  have hroot := root_succ (k + 2) (size ks)
  have hbig : size ((k + 2) :: ks) = size ks + leo (k + 2) := rfl
  have hs : Shape { s with q := decr s.q } (k + 2) ks := ⟨h.shape.p, h.shape.b, h.shape.c⟩
  obtain ⟨t, ht, ha, hr⟩ := split_spec rev hs (by dsimp only; omega) h.room
    (by omega : _ < n) hn hf
  obtain ⟨hshape, htq⟩ := split_shape hs h.room ht
  have hdq : t.q = s.q - 1 := htq.trans (decr_pos (by omega) (by omega))
  obtain ⟨htaken, hm⟩ := h.taken.split
  have hroot₂ := root_add_two k (size ks)
  have hroot₃ := root_succ k (size ((k + 1) :: ks))
  have hsize : size ((k + 1) :: ks) = size ks + leo (k + 1) := rfl
  have hsize' : size (k :: (k + 1) :: ks) = size ((k + 1) :: ks) + leo k := rfl
  dsimp only at ha
  rw [← ha] at htaken hm
  exact ⟨t, k, (k + 1) :: ks, ht, ⟨hshape, h.room.split, by omega, by omega, h.moved.trans hm,
    htaken⟩, by omega⟩

theorem sort_pass (h : Taking rev n a₀ s k ks) (hq : 1 < s.q) (hn : n < 2 ^ 63)
    (hf : n + 65 < fuel) : ∃ t j js, sortBody fuel n rev s = some (.inl t) ∧
      Taking rev n a₀ t j js ∧ t.q + 1 = s.q := by
  have hb := h.shape.b
  rw [sortBody, if_pos hq, shrink]
  dsimp only
  rcases leo_cases k with ⟨hk, hone⟩ | ⟨hk, hbig⟩
  · obtain ⟨t, j, js, ht, hnext⟩ := drop_spec h hq hk hn (by omega : 64 < fuel)
    refine ⟨t, j, js, ?_, hnext⟩
    rw [if_pos (hb.trans hone), ht, Option.map_some]
  · obtain ⟨k, rfl⟩ := Nat.exists_eq_add_of_le' hk
    obtain ⟨t, j, js, ht, hnext⟩ := split_pass h hn hf
    refine ⟨t, j, js, ?_, hnext⟩
    rw [if_neg (by omega), if_pos (by omega), ht, Option.map_some]

theorem sort_run {fuel' : Nat} (h : Taking rev n a₀ s k ks) (hn : n < 2 ^ 63)
    (hw : n + 65 < fuel') (hf : s.q < fuel) :
    ∃ t j js, run (sortBody fuel' n rev) fuel s = some t ∧ Moved 0 n a₀ t.a ∧
      size (j :: js) ≤ 1 ∧ Leonardo.Taken (key rev) n t.a (j :: js) := by
  induction fuel generalizing s k ks with
  | zero => omega
  | succ fuel ih =>
    by_cases hq : 1 < s.q
    · obtain ⟨t, j, js, hs, hnext, htq⟩ := sort_pass h hq hn hw
      obtain ⟨u, i, is, hrun, hu⟩ := ih hnext (by omega)
      exact ⟨u, i, is, by rw [run_pass hs, hrun], hu⟩
    · have hsq := h.q
      have hs : sortBody fuel' n rev s = some (.inr { s with q := decr s.q }) := by
        rw [sortBody, if_neg hq]
      exact ⟨_, k, ks, run_leave hs fuel, h.moved, by omega, h.taken⟩

end Take

end Smooth

theorem smoothsort64_sorts (rev : Bool) (a : Nums) (hpos : 0 < n) (hn : n ≤ leo 64 + 1)
    (hf : n + 65 < fuel) :
    ∃ b, smoothsort64 fuel a n rev = some b ∧ Moved 0 n a b ∧ Ascends (key rev) 0 n b := by
  have hn' : n < 2 ^ 63 := by
    have := Smooth.leo_small (k := 64) (by omega)
    omega
  have hstart : Smooth.Growing rev n a
      { a := a, q := 1, r := 0, p := 1, b := 1, c := 1, r1 := 0, b1 := 0, c1 := 0 } 1 [] :=
    ⟨⟨rfl, rfl, rfl⟩, Smooth.built_one, rfl, rfl, hpos, Moved.refl .., Begun.start n a⟩
  obtain ⟨s, k, ks, hbuild, hq, hs⟩ := Smooth.build_run hstart hn hf
    (by dsimp only; omega : _ < fuel)
  have hrow : Row (key rev) s.a ks := by
    apply hs.row
    rintro k' ks' rfl
    have hk' := hs.built.room.lt k' List.mem_cons_self
    have hleo : leo k ≤ leo (k' - 1) := leo_mono (by omega)
    have hsize : size (k :: k' :: ks') = size (k' :: ks') + leo k := rfl
    have := hs.q
    omega
  obtain ⟨hrow', hm⟩ := hs.settled hrow
  obtain ⟨t, htrinkle, ha⟩ := Smooth.trinkle_last hs hn' hf
  have hkept := Smooth.trinkle_kept htrinkle
  rw [← ha] at hrow' hm
  have hsize : n = size (k :: ks) := hq.symm.trans hs.q
  have htaking : Smooth.Taking rev n a t k ks := by
    refine ⟨⟨hkept.p.trans hs.shape.p, hkept.b.trans hs.shape.b, hkept.c.trans hs.shape.c⟩,
      hs.built.room, hkept.q.trans hs.q, ?_, hs.moved.trans hm, ?_⟩
    · rw [hkept.q, hkept.r]
      exact hs.r
    · rw [hsize]
      exact hrow'.taken
  have htq : t.q = n := hkept.q.trans hq
  obtain ⟨u, j, js, hsort, hmoved, hone, htaken⟩ := Smooth.sort_run htaking hn' hf
    (by omega : _ < fuel)
  refine ⟨u.a, ?_, hmoved, fun x y _ hxy hy => htaken.taken x y (by omega) hy hxy⟩
  simp only [smoothsort64, hbuild, htrinkle, hsort, Option.bind_eq_bind, Option.bind_some]
  rfl

/-- With nothing to sort the first element is read. -/
theorem smoothsort64_zero (fuel : Nat) (a : Nums) (rev : Bool) :
    smoothsort64 fuel a 0 rev = none := by
  cases fuel with
  | zero => rfl
  | succ fuel => rfl

end Oin17.Chals.Sortlist
