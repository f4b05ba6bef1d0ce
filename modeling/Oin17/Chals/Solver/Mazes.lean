import Oin17.Chals.Shortpath.Placing

namespace Oin17.Chals.Solvers
open Cint Function Loop Memory

/-- The generator after a number of draws. -/
def after (rand : Rand γ) (g : γ) : Nat → γ
  | 0 => g
  | k + 1 => (rand (after rand g k)).2

def Yields (rand : Rand γ) (g : γ) (f : Nat → UInt64) : Prop :=
  ∀ k, (rand (after rand g k)).1 = f k

/-- The cell that the draws `2 * k` and `2 * k + 1` give, the row first. -/
def spot (f : Nat → UInt64) (size k : Nat) : Nat :=
  (f (2 * k)).toNat % size * size + (f (2 * k + 1)).toNat % size

/-- `k` is the first number from `a` on with `P`. -/
structure First (P : Nat → Prop) (a k : Nat) : Prop where
  le : a ≤ k
  holds : P k
  least : ∀ j, a ≤ j → j < k → ¬ P j

theorem First.unique (h : First P a k) (h' : First P a l) : k = l := by
  rcases Nat.lt_trichotomy k l with hlt | he | hlt
  · exact absurd h.holds (h'.least k h.le hlt)
  · exact he
  · exact absurd h'.holds (h.least l h'.le hlt)

theorem First.congr (h : First P a k) (hpq : ∀ j, a ≤ j → (P j ↔ Q j)) : First Q a k :=
  ⟨h.le, (hpq k h.le).mp h.holds, fun j hj hlt hq => h.least j hj hlt ((hpq j hj).mpr hq)⟩

/-- A grid with its walls, a start, a destination and blockers. -/
def maze (size src dst : Nat) (bl : List Nat) : Shortpath where
  max := size
  size := size
  grid i := if Border size i then wall else if i = src then srcMark else if i = dst then dstMark
    else if i ∈ bl then wall else blank
  sol _ := 0
  cells i := { x := col size i, y := row size i, c := -1, p := none, qn := none, qp := none }
  q := none
  src := src
  dst := dst

/-- The grid that is drawn: the start is the first cell off the border, the destination the
first other one after it, and the next `nblks` cells are blockers, save for these two. -/
def Drawn (f : Nat → UInt64) (size nblks : Nat) (m : Shortpath) : Prop :=
  ∃ a b, First (fun k => Inner size (spot f size k)) 0 a ∧
    First (fun k => Inner size (spot f size k) ∧ spot f size k ≠ spot f size a) (a + 1) b ∧
    m = maze size (spot f size a) (spot f size b)
      ((List.range nblks).map fun k => spot f size (b + 1 + k))

theorem Drawn.unique (h : Drawn f size nblks m) (h' : Drawn f size nblks m') : m = m' := by
  obtain ⟨a, b, ha, hb, rfl⟩ := h
  obtain ⟨a', b', ha', hb', rfl⟩ := h'
  obtain rfl := ha.unique ha'
  obtain rfl := hb.unique hb'
  rfl

/-- The same grid, as far as a search can tell. -/
structure Alike (m sp : Shortpath) : Prop where
  size : sp.size = m.size
  src : sp.src = m.src
  dst : sp.dst = m.dst
  grid : ∀ i, i < m.size * m.size → sp.grid i = m.grid i

theorem Alike.open_iff (h : Alike m sp) (i : Nat) : Open sp i ↔ Open m i := by
  rw [Open, Open, h.size]
  exact and_congr_right fun hi => by rw [h.grid i hi]

theorem Alike.graph (h : Alike m sp) : graph sp = graph m := by
  ext i j
  change Open sp i ∧ Open sp j ∧ Near sp.size i j ↔ Open m i ∧ Open m j ∧ Near m.size i j
  rw [h.open_iff, h.open_iff, h.size]

theorem Alike.canonical (h : Alike m sp) (path : List Nat) :
    Canonical sp path ↔ Canonical m path := by
  rw [Canonical, Canonical, h.graph, h.size, h.src, h.dst]

section Draws
variable {γ : Type} {rand : Rand γ} {g g' : γ} {f : Nat → UInt64} {n size : Nat}
  {sp sp' : Shortpath}

theorem draw_next (h : draw rand size g = some (v, g')) (hs : size < 2 ^ 31) :
    0 < size ∧ v = ((rand g).1.toNat % size : Nat) ∧ g' = (rand g).2 := by
  rw [draw] at h
  split at h
  · cases h
  · next h0 =>
    obtain ⟨rfl, rfl⟩ := Prod.mk.inj (Option.some.inj h)
    have hpos := Nat.pos_of_ne_zero h0
    have hlt := Nat.mod_lt (rand g).1.toNat hpos
    exact ⟨hpos, toInt_small (Nat.lt_trans hlt hs), rfl⟩

theorem drawSpot_at {s : Spot} (hy : Yields rand g f) (hs : size < 2 ^ 31)
    (h : drawSpot rand size (after rand g (2 * k)) = some (s, g')) :
    s.i = spot f size k ∧ g' = after rand g (2 * (k + 1)) := by
  obtain ⟨⟨y, g₁⟩, hdy, h⟩ := Option.bind_eq_some_iff.mp h
  obtain ⟨⟨x, g₂⟩, hdx, h⟩ := Option.bind_eq_some_iff.mp h
  obtain ⟨rfl, rfl⟩ := Prod.mk.inj (Option.some.inj h)
  obtain ⟨hpos, rfl, rfl⟩ := draw_next hdy hs
  obtain ⟨-, rfl, rfl⟩ := draw_next hdx hs
  have hrow := hy (2 * k)
  have hcol : (rand (rand (after rand g (2 * k))).2).1 = f (2 * k + 1) := hy (2 * k + 1)
  have hsq := square_lt hs
  have hlt := cell_lt (Nat.mod_lt (f (2 * k + 1)).toNat hpos) (Nat.mod_lt (f (2 * k)).toNat hpos)
  refine ⟨?_, rfl⟩
  rw [hrow, hcol]
  dsimp only
  have hr := Nat.mod_lt (f (2 * k)).toNat hpos
  have hc := Nat.mod_lt (f (2 * k + 1)).toNat hpos
  rw [toSize_natCast (by omega), toSize_natCast (by omega), indexofxy_small (by omega)]
  rfl

theorem drawSpot_next (hy : Yields rand g f) (hs : size < 2 ^ 31) (hpos : 0 < size) (k : Nat) :
    ∃ s, drawSpot rand size (after rand g (2 * k)) = some (s, after rand g (2 * (k + 1))) ∧
      s.i = spot f size k := by
  have hdraw : ∀ g, draw rand size g = some (toInt ((rand g).1.toNat % size), (rand g).2) :=
    fun g => if_neg (Nat.ne_of_gt hpos)
  obtain ⟨⟨s, g'⟩, h⟩ : ∃ r, drawSpot rand size (after rand g (2 * k)) = some r := by
    simp only [drawSpot, hdraw, Option.bind_eq_bind, Option.bind_some]
    exact ⟨_, rfl⟩
  obtain ⟨hi, rfl⟩ := drawSpot_at hy hs h
  exact ⟨s, h, hi⟩

/-- A placement loop draws until it finds a blank cell. -/
theorem place_first {s : Spot} (hy : Yields rand g f) (hs : sp.size < 2 ^ 31)
    (h : run (placeBody n rand sp) fuel (after rand g (2 * a)) = some (s, g')) :
    ∃ k, First (fun k => sp.grid (spot f sp.size k) = blank) a k ∧ s.i = spot f sp.size k ∧
      Lands sp.size s ∧ g' = after rand g (2 * (k + 1)) := by
  let I (t : γ) := ∃ j, a ≤ j ∧ t = after rand g (2 * j) ∧
    ∀ k, a ≤ k → k < j → sp.grid (spot f sp.size k) ≠ blank
  have hbody : ∀ j o, placeBody n rand sp (after rand g (2 * j)) = some o →
      (o = .inl (after rand g (2 * (j + 1))) ∧ sp.grid (spot f sp.size j) ≠ blank) ∨
      ∃ t : Spot, o = .inr (t, after rand g (2 * (j + 1))) ∧ t.i = spot f sp.size j ∧
        Lands sp.size t ∧ sp.grid (spot f sp.size j) = blank := by
    intro j o hb
    obtain ⟨⟨t, g₁⟩, hdraw, hb⟩ := Option.bind_eq_some_iff.mp hb
    obtain ⟨hi, rfl⟩ := drawSpot_at hy hs hdraw
    obtain ⟨c, hpeek, hb⟩ := Option.bind_eq_some_iff.mp hb
    obtain ⟨-, hc⟩ := peek_eq_some.mp hpeek
    rw [hi] at hc
    split at hb
    · next hne =>
      exact Or.inl ⟨(Option.some.inj hb).symm, by rwa [hc]⟩
    · next he =>
      exact Or.inr ⟨t, (Option.some.inj hb).symm, hi, drawSpot_lands hdraw hs,
        hc.trans (not_not.mp he)⟩
  refine run_partial I (fun r => ∃ k, First (fun k => sp.grid (spot f sp.size k) = blank) a k ∧
    r.1.i = spot f sp.size k ∧ Lands sp.size r.1 ∧ r.2 = after rand g (2 * (k + 1)))
    ?_ ?_ ⟨a, Nat.le_refl a, rfl, fun k hk hlt => by omega⟩ h
  · rintro t u ⟨j, hj, rfl, hleast⟩ hb
    rcases hbody j _ hb with ⟨ho, hne⟩ | ⟨t, ho, -⟩
    · obtain rfl := Sum.inl.inj ho
      refine ⟨j + 1, by omega, rfl, fun k hk hlt => ?_⟩
      rcases Nat.lt_succ_iff_lt_or_eq.mp hlt with hlt | rfl
      · exact hleast k hk hlt
      · exact hne
    · cases ho
  · rintro t r ⟨j, hj, rfl, hleast⟩ hb
    rcases hbody j _ hb with ⟨ho, -⟩ | ⟨t, ho, hi, hl, hblank⟩
    · cases ho
    · obtain rfl := Sum.inr.inj ho
      exact ⟨j, ⟨hj, hblank, hleast⟩, hi, hl, rfl⟩

/-- The coordinates in a cell that is marked tell a spot that falls on it. -/
theorem populated_falls {bl : List Nat} {s : Spot} (h : Populated size bl sp) (hl : Lands size s)
    (hi : i = sp.src ∨ i = sp.dst) :
    (sp.cells i).x = s.x ∧ (sp.cells i).y = s.y ↔ i = s.i := by
  obtain ⟨hix, hiy⟩ := h.cells i hi
  rw [hix, hiy, hl.x, hl.y]
  constructor
  · rintro ⟨hc, hr⟩
    exact cell_ext size (Int.ofNat_inj.mp hr) (Int.ofNat_inj.mp hc)
  · rintro rfl
    exact ⟨rfl, rfl⟩

/-- What the grid is after some of the blockers. -/
structure Blocked (f : Nat → UInt64) (size src dst b k : Nat) (sp : Shortpath) : Prop where
  populated : ∃ bl, Populated size bl sp
  start : sp.src = src
  goal : sp.dst = dst
  grid : ∀ i, i < size * size →
    sp.grid i = (maze size src dst ((List.range k).map fun k => spot f size (b + 1 + k))).grid i

theorem Blocked.pass {src dst b k : Nat} (h : Blocked f size src dst b k sp)
    (hy : Yields rand g f) (hs : size < 2 ^ 31)
    (hpass : blockPass n rand k (sp, after rand g (2 * (b + 1 + k))) = some (sp', g')) :
    Blocked f size src dst b (k + 1) sp' ∧ g' = after rand g (2 * (b + 1 + (k + 1))) := by
  obtain ⟨bl, hpop⟩ := h.populated
  obtain ⟨bl', -, hpop'⟩ := blockPass_populated hpop hpass hs
  obtain ⟨⟨s, g₁⟩, hdraw, hpass⟩ := Option.bind_eq_some_iff.mp hpass
  rw [hpop.size] at hdraw
  obtain ⟨hi, rfl⟩ := drawSpot_at hy hs hdraw
  have hl := drawSpot_lands hdraw hs
  have hmem : ∀ i, i ∈ (List.range (k + 1)).map (fun k => spot f size (b + 1 + k)) ↔
      i ∈ (List.range k).map (fun k => spot f size (b + 1 + k)) ∨ i = s.i := by
    intro i
    rw [List.range_succ, List.map_append, List.mem_append, hi, List.map_singleton,
      List.mem_singleton]
  have hfalls : ∀ i, i = sp.src ∨ i = sp.dst →
      ((sp.cells i).x = s.x ∧ (sp.cells i).y = s.y ↔ i = s.i) :=
    fun i hi => populated_falls hpop hl hi
  dsimp only at hpass
  simp only [hfalls sp.src (Or.inl rfl), hfalls sp.dst (Or.inr rfl)] at hpass
  have hkeep : s.i = src ∨ s.i = dst → ∀ i, i < size * size → sp.grid i =
      (maze size src dst ((List.range (k + 1)).map fun k => spot f size (b + 1 + k))).grid i := by
    intro hsd i hi
    rw [h.grid i hi]
    simp only [maze, hmem]
    by_cases hsi : i = s.i
    · rcases hsd with he | he <;> simp [hsi, he]
    · simp only [hsi, or_false]
  split at hpass
  · next he =>
    obtain ⟨rfl, rfl⟩ := Prod.mk.inj (Option.some.inj hpass)
    exact ⟨⟨⟨bl', hpop'⟩, h.start, h.goal, hkeep (Or.inl (he.symm.trans h.start))⟩, rfl⟩
  split at hpass
  · next he =>
    obtain ⟨rfl, rfl⟩ := Prod.mk.inj (Option.some.inj hpass)
    exact ⟨⟨⟨bl', hpop'⟩, h.start, h.goal, hkeep (Or.inr (he.symm.trans h.goal))⟩, rfl⟩
  next hsrc hdst =>
  rw [h.start] at hsrc
  rw [h.goal] at hdst
  obtain ⟨grid, hpoke, hpass⟩ := Option.bind_eq_some_iff.mp hpass
  obtain ⟨rfl, rfl⟩ := Prod.mk.inj (Option.some.inj hpass)
  obtain ⟨-, rfl⟩ := poke_eq_some.mp hpoke
  refine ⟨⟨⟨bl', hpop'⟩, h.start, h.goal, fun i hi => ?_⟩, rfl⟩
  dsimp only
  by_cases hsi : i = s.i
  · subst hsi
    rw [update_self]
    simp only [maze, hmem, or_true, if_true, Ne.symm hsrc, Ne.symm hdst, if_false, ite_self]
  · rw [update_of_ne hsi, h.grid i hi]
    simp only [maze, hmem, hsi, or_false]

theorem spot_lt (hpos : 0 < size) (f : Nat → UInt64) (k : Nat) : spot f size k < size * size :=
  cell_lt (Nat.mod_lt _ hpos) (Nat.mod_lt _ hpos)

theorem inner_pos (h : Inner size i) : 0 < size := by
  have := h.rows
  omega

/-- A placement loop ends where there is a blank cell to come. -/
theorem place_total (hy : Yields rand g f) (hs : sp.size < 2 ^ 31) (hpos : 0 < sp.size)
    (hn : sp.size * sp.size ≤ n) (h : First (fun k => sp.grid (spot f sp.size k) = blank) a k)
    (hf : k - a < fuel) : ∃ r, run (placeBody n rand sp) fuel (after rand g (2 * a)) = some r := by
  have hbody : ∀ v t, (∃ j, a ≤ j ∧ j ≤ k ∧ v = k - j ∧ t = after rand g (2 * j)) →
      (∃ t' u, placeBody n rand sp t = some (.inl t') ∧ u < v ∧
        ∃ j, a ≤ j ∧ j ≤ k ∧ u = k - j ∧ t' = after rand g (2 * j)) ∨
      ∃ r, placeBody n rand sp t = some (.inr r) ∧ True := by
    rintro v t ⟨j, hj, hjk, rfl, rfl⟩
    obtain ⟨s, hdraw, hi⟩ := drawSpot_next hy hs hpos j
    have hpeek : peek n sp.grid s.i = some (sp.grid (spot f sp.size j)) := by
      rw [hi]
      exact peek_some (Nat.lt_of_lt_of_le (spot_lt hpos f j) hn)
    have hbody : placeBody n rand sp (after rand g (2 * j)) =
        if sp.grid (spot f sp.size j) ≠ blank then some (.inl (after rand g (2 * (j + 1))))
        else some (.inr (s, after rand g (2 * (j + 1)))) := by
      simp only [placeBody, hdraw, hpeek, Option.bind_eq_bind, Option.bind_some]
      rfl
    by_cases hb : sp.grid (spot f sp.size j) = blank
    · rw [if_neg (not_not.mpr hb)] at hbody
      exact Or.inr ⟨_, hbody, trivial⟩
    · rw [if_pos hb] at hbody
      have hne : j ≠ k := fun he => hb (he ▸ h.holds)
      exact Or.inl ⟨_, _, hbody, by omega, j + 1, by omega, by omega, rfl, rfl⟩
  obtain ⟨r, hrun, -⟩ := run_total _ (fun _ => True) hbody ⟨a, Nat.le_refl a, h.le, rfl, rfl⟩ hf
  exact ⟨r, hrun⟩

theorem cleared_blank {grid : Buf} (h : Cleared size grid) (hi : i < size * size) :
    grid i = blank ↔ Inner size i := by
  rw [h i hi, Inner]
  by_cases hb : Border size i
  · simp [hb, wall, blank]
  · simp [hb, hi]

/-- With the start in it, the rest of a grid is as blank as before. -/
theorem marked_blank {grid : Buf} (h : Cleared size grid) (hi : i < size * size) :
    update grid j srcMark i = blank ↔ Inner size i ∧ i ≠ j := by
  by_cases he : i = j
  · rw [he, update_self]
    exact iff_of_false (by decide) fun h => h.2 rfl
  · rw [update_of_ne he, cleared_blank h hi]
    exact ⟨fun hi => ⟨hi, he⟩, fun hi => hi.1⟩

theorem start_placed (hy : Yields rand g f) (hs : sp.size < 2 ^ 31)
    (hgrid : Cleared sp.size sp.grid) (h : placeSrc fuel n rand sp g = some (sp', g')) :
    ∃ a, First (fun k => Inner sp.size (spot f sp.size k)) 0 a ∧ sp'.src = spot f sp.size a ∧
      sp'.size = sp.size ∧ sp'.grid = update sp.grid (spot f sp.size a) srcMark ∧
      g' = after rand g (2 * (a + 1)) := by
  obtain ⟨⟨s, g₁⟩, hrun, hmark⟩ := Option.bind_eq_some_iff.mp h
  obtain ⟨rfl, rfl⟩ := Prod.mk.inj (Option.some.inj hmark)
  obtain ⟨a, ha, hi, hl, rfl⟩ := place_first (a := 0) hy hs hrun
  have hpos : 0 < sp.size := by
    apply Nat.pos_of_ne_zero
    intro h0
    have := hl.inside
    rw [h0] at this
    omega
  refine ⟨a, ha.congr fun j _ => cleared_blank hgrid (spot_lt hpos f j), hi, rfl, ?_, rfl⟩
  rw [← hi]
  rfl

theorem goal_placed (hy : Yields rand g f) (hs : sp.size < 2 ^ 31) (hpos : 0 < sp.size)
    (hblank : ∀ i, i < sp.size * sp.size → (sp.grid i = blank ↔ Inner sp.size i ∧ i ≠ j))
    (h : placeDst fuel n rand sp (after rand g (2 * a)) = some (sp', g')) :
    ∃ b, First (fun k => Inner sp.size (spot f sp.size k) ∧ spot f sp.size k ≠ j) a b ∧
      sp'.src = sp.src ∧ sp'.dst = spot f sp.size b ∧ g' = after rand g (2 * (b + 1)) := by
  obtain ⟨⟨s, g₁⟩, hrun, hmark⟩ := Option.bind_eq_some_iff.mp h
  obtain ⟨rfl, rfl⟩ := Prod.mk.inj (Option.some.inj hmark)
  obtain ⟨b, hb, hi, -, rfl⟩ := place_first hy hs hrun
  exact ⟨b, hb.congr fun k _ => hblank _ (spot_lt hpos f k), rfl, hi, rfl⟩

/-- What `popgrid` builds is the grid that the numbers of the generator draw. -/
theorem popgrid_drawn (hy : Yields rand g f) (hs : sp.size < 2 ^ 31)
    (h : popgrid fuel n rand nblks sp g = some (sp', g')) :
    ∃ m, Drawn f sp.size nblks m ∧ Alike m sp' := by
  have hsq := square_lt hs
  obtain ⟨sp₁, hclr, hplace⟩ := Option.bind_eq_some_iff.mp h
  obtain ⟨⟨sp₂, g₂⟩, hsrc, hplace'⟩ := Option.bind_eq_some_iff.mp hplace
  obtain ⟨⟨sp₃, g₃⟩, hdst, hblocks⟩ := Option.bind_eq_some_iff.mp hplace'
  obtain ⟨-, grid, rfl, hgrid⟩ := clrgrid_some (by omega) hclr
  have hpop := place_populated hgrid hsrc hdst hs
  obtain ⟨a, ha, hstart, hsize, hmark, rfl⟩ :=
    start_placed hy (by exact hs) (by exact hgrid) hsrc
  have hpos : 0 < sp.size := inner_pos ha.holds
  obtain ⟨b, hb, hkeep, hgoal, rfl⟩ := goal_placed (j := spot f sp.size a) hy (hsize ▸ hs)
    (hsize ▸ hpos) (fun i hi => by
      rw [hsize] at hi ⊢
      rw [hmark]
      exact marked_blank hgrid hi) hdst
  rw [hsize] at hb hgoal
  have hfirst : Blocked f sp.size (spot f sp.size a) (spot f sp.size b) b 0 sp₃ :=
    ⟨⟨[], hpop⟩, hkeep.trans hstart, hgoal, fun i hi => by
      rw [hpop.grid i hi, hkeep, hstart, hgoal]
      rfl⟩
  have hlast := forRangeM_partial (fun k (r : Shortpath × γ) =>
      Blocked f sp.size (spot f sp.size a) (spot f sp.size b) b k r.1 ∧
        r.2 = after rand g (2 * (b + 1 + k))) ⟨hfirst, rfl⟩ (by
      intro k r u _ _ hr hpass
      obtain ⟨r, gr⟩ := r
      obtain ⟨hr, hg⟩ := hr
      obtain rfl : gr = after rand g (2 * (b + 1 + k)) := hg
      exact hr.pass hy hs hpass) hblocks
  rw [Nat.zero_add] at hlast
  obtain ⟨bl, hpop'⟩ := hlast.1.populated
  exact ⟨_, ⟨a, b, ha, hb, rfl⟩, hpop'.size, hlast.1.start, hlast.1.goal, hlast.1.grid⟩

theorem blockPass_some (rand : Rand γ) (h : Populated size bl sp) (hs : size < 2 ^ 31)
    (hn : size * size ≤ n) (k : Nat) (g : γ) : ∃ r, blockPass n rand k (sp, g) = some r := by
  have hpos : 0 < size := inner_pos h.src
  have hdraw : ∀ g, draw rand size g = some (toInt ((rand g).1.toNat % size), (rand g).2) :=
    fun g => if_neg (Nat.ne_of_gt hpos)
  obtain ⟨⟨s, g'⟩, hspot⟩ : ∃ r, drawSpot rand sp.size g = some r := by
    simp only [drawSpot, h.size, hdraw, Option.bind_eq_bind, Option.bind_some]
    exact ⟨_, rfl⟩
  have hl := drawSpot_lands (h.size ▸ hspot) hs
  have hin : s.i < n := Nat.lt_of_lt_of_le hl.inside hn
  simp only [blockPass, hspot, poke_some hin, Option.bind_eq_bind, Option.bind_some]
  split
  · exact ⟨_, rfl⟩
  · split
    · exact ⟨_, rfl⟩
    · exact ⟨_, rfl⟩

/-- A grid that the numbers draw is built, in room for it. -/
theorem popgrid_total (hy : Yields rand g f) (hs : sp.size < 2 ^ 31) (hn : sp.size * sp.size ≤ n)
    (h : Drawn f sp.size nblks m) :
    ∃ fuel₀, ∀ fuel, fuel₀ ≤ fuel → ∃ r, popgrid fuel n rand nblks sp g = some r := by
  obtain ⟨a, b, ha, hb, -⟩ := h
  have hpos : 0 < sp.size := inner_pos ha.holds
  have hsq := square_lt hs
  obtain ⟨grid, hclr, hgrid⟩ := clrgrid_spec hn (by omega) hpos
  refine ⟨b + 1, fun fuel hf => ?_⟩
  have hab := hb.le
  -- the start
  obtain ⟨⟨s, g₁⟩, hrun⟩ : ∃ r, run (placeBody n rand { sp with grid := grid }) fuel
      (after rand g (2 * 0)) = some r :=
    place_total hy hs hpos hn
      (ha.congr fun j _ => (cleared_blank hgrid (spot_lt hpos f j)).symm) (by omega)
  have hsrc : placeSrc fuel n rand { sp with grid := grid } g =
      some ({ { sp with grid := grid } with src := s.i }.mark s srcMark, g₁) := by
    have hrun' : run (placeBody n rand { sp with grid := grid }) fuel g = some (s, g₁) := hrun
    simp only [placeSrc, hrun', Option.bind_eq_bind, Option.bind_some]
    rfl
  obtain ⟨a', ha', hstart, hsize, hmark, rfl⟩ :=
    start_placed hy (by exact hs) (by exact hgrid) hsrc
  obtain rfl := ha.unique ha'
  obtain ⟨sp₁, hsp₁⟩ : ∃ sp₁, { { sp with grid := grid } with src := s.i }.mark s srcMark = sp₁ :=
    ⟨_, rfl⟩
  rw [hsp₁] at hsrc hstart hsize hmark
  have hsize₁ : sp₁.size = sp.size := hsize
  have hblank : ∀ i, i < sp.size * sp.size →
      (sp₁.grid i = blank ↔ Inner sp.size i ∧ i ≠ spot f sp.size a) := by
    intro i hi
    rw [hmark]
    exact marked_blank hgrid hi
  -- the destination
  obtain ⟨⟨t, g₂⟩, hrun₂⟩ : ∃ r, run (placeBody n rand sp₁) fuel
      (after rand g (2 * (a + 1))) = some r :=
    place_total hy (by rw [hsize₁]; exact hs) (by rw [hsize₁]; exact hpos)
      (by rw [hsize₁]; exact hn)
      (hb.congr fun j _ => by
        rw [hsize₁]
        exact (hblank _ (spot_lt hpos f j)).symm) (by omega)
  have hdst : placeDst fuel n rand sp₁ (after rand g (2 * (a + 1))) =
      some ({ sp₁ with dst := t.i }.mark t dstMark, g₂) := by
    simp only [placeDst, hrun₂, Option.bind_eq_bind, Option.bind_some]
    rfl
  have hpop := place_populated (by exact hgrid) hsrc hdst (by exact hs)
  -- the blockers
  obtain ⟨r, hblocks, -⟩ := forRangeM_total (a := 0) (n := nblks) (f := blockPass n rand)
    (s := ({ sp₁ with dst := t.i }.mark t dstMark, g₂))
    (fun _ (r : Shortpath × γ) => ∃ bl, Populated sp.size bl r.1) ⟨[], hpop⟩ (by
      intro k r _ _ hr
      obtain ⟨r, gr⟩ := r
      obtain ⟨bl, hr⟩ := hr
      obtain ⟨⟨u, gu⟩, hpass⟩ := blockPass_some rand hr hs hn k gr
      obtain ⟨bl', -, hu⟩ := blockPass_populated hr hpass hs
      exact ⟨_, hpass, bl', hu⟩)
  refine ⟨r, ?_⟩
  simp only [popgrid, hclr, hsrc, hdst, hblocks, Option.bind_eq_bind, Option.bind_some]

end Draws

end Oin17.Chals.Solvers
