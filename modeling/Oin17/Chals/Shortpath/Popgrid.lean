import Oin17.Chals.Resize
import Oin17.Chals.Shortpath.Grid

namespace Oin17.Chals
open Cint Loop Memory

/-! Memory is checked here: `n` is the number of entries of the grid and of the
cells, and an access outside of them has no result. -/

/-- `' '`, `'s'` and `'e'`. -/
def blank : UInt8 := 32
def srcMark : UInt8 := 115
def dstMark : UInt8 := 101

def memset (n : Nat) (b : Buf) (c : UInt8) (len : Nat) : Option Buf :=
  if len ≤ n then some fun i => if i < len then c else b i else none

/-- One pass of the loop over the walls, with `m` the last row and column. -/
def wallPass (n size m : Nat) (i : Nat) (grid : Buf) : Option Buf := do
  let grid ← poke n grid (indexofxy 0 i size) wall
  let grid ← poke n grid (indexofxy m i size) wall
  let grid ← poke n grid (indexofxy i 0 size) wall
  poke n grid (indexofxy i m size) wall

def clrgrid (n : Nat) (sp : Shortpath) : Option Shortpath := do
  let grid ← memset n sp.grid blank (mul sp.size sp.size)
  let grid ← forRangeM 0 sp.size (wallPass n sp.size (decr sp.size)) grid
  pure { sp with grid := grid }

/-- `mt64_rand`, for a generator with states `γ`. -/
abbrev Rand (γ : Type) := γ → UInt64 × γ

/-- `mt64_rand(mt) % sp->size`, kept in an `int`. -/
def draw (rand : Rand γ) (size : Nat) (g : γ) : Option (Int × γ) :=
  if size = 0 then none else some (toInt ((rand g).1.toNat % size), (rand g).2)

structure Spot where
  x : Int
  y : Int
  i : Nat

def drawSpot (rand : Rand γ) (size : Nat) (g : γ) : Option (Spot × γ) := do
  let (y, g) ← draw rand size g
  let (x, g) ← draw rand size g
  pure ({ x := x, y := y, i := indexofxy (toSize x) (toSize y) size }, g)

/-- One pass of a placement loop, which leaves with a blank cell. -/
def placeBody (n : Nat) (rand : Rand γ) (sp : Shortpath) (g : γ) : Option (γ ⊕ (Spot × γ)) := do
  let (s, g) ← drawSpot rand sp.size g
  let c ← peek n sp.grid s.i
  if c ≠ blank then pure (.inl g) else pure (.inr (s, g))

/-- The coordinates of the cell are set, and its mark in the grid. -/
def Shortpath.mark (sp : Shortpath) (s : Spot) (m : UInt8) : Shortpath :=
  { sp with grid := Function.update sp.grid s.i m }.upd s.i fun c => { c with x := s.x, y := s.y }

/-- The start position. -/
def placeSrc (fuel n : Nat) (rand : Rand γ) (sp : Shortpath) (g : γ) : Option (Shortpath × γ) := do
  let (s, g) ← run (placeBody n rand sp) fuel g
  pure ({ sp with src := s.i }.mark s srcMark, g)

/-- The destination. -/
def placeDst (fuel n : Nat) (rand : Rand γ) (sp : Shortpath) (g : γ) : Option (Shortpath × γ) := do
  let (s, g) ← run (placeBody n rand sp) fuel g
  pure ({ sp with dst := s.i }.mark s dstMark, g)

/-- One pass of the loop over the blockers. We can safely add over an existing
wall or blocker. -/
def blockPass (n : Nat) (rand : Rand γ) (_ : Nat) : Shortpath × γ → Option (Shortpath × γ)
  | (sp, g) => do
    let (s, g) ← drawSpot rand sp.size g
    let src := sp.cells sp.src
    let dst := sp.cells sp.dst
    if src.x = s.x ∧ src.y = s.y then pure (sp, g)
    else if dst.x = s.x ∧ dst.y = s.y then pure (sp, g)
    else do
      let grid ← poke n sp.grid s.i wall
      pure ({ sp with grid := grid }, g)

def popgrid (fuel n : Nat) (rand : Rand γ) (nblks : Nat) (sp : Shortpath) (g : γ) :
    Option (Shortpath × γ) := do
  let sp ← clrgrid n sp
  let (sp, g) ← placeSrc fuel n rand sp g
  let (sp, g) ← placeDst fuel n rand sp g
  forRangeM 0 nblks (blockPass n rand) (sp, g)

/-- The outer rows and columns of the grid. -/
def Border (size i : Nat) : Prop :=
  row size i = 0 ∨ row size i + 1 = size ∨ col size i = 0 ∨ col size i + 1 = size

instance (size i : Nat) : Decidable (Border size i) := by
  unfold Border
  infer_instance

/-- A grid with its walls and nothing else. -/
def Cleared (size : Nat) (grid : Buf) : Prop :=
  ∀ i, i < size * size → grid i = if Border size i then wall else blank

section Clear
variable {n size : Nat} {sp sp' : Shortpath}

theorem cell_lt {x y : Nat} (hx : x < size) (hy : y < size) : y * size + x < size * size := by
  have := Nat.mul_le_mul_right size (Nat.succ_le_of_lt hy)
  rw [Nat.succ_mul] at this
  omega

theorem eq_cell {x y : Nat} (hr : row size j = y) (hc : col size j = x) : j = y * size + x := by
  rw [← hr, ← hc]
  exact cell_eq size j

/-- The walls after `k` passes. -/
def Walls (size k : Nat) (j : Nat) : Prop :=
  (row size j = 0 ∨ row size j + 1 = size) ∧ col size j < k ∨
    (col size j = 0 ∨ col size j + 1 = size) ∧ row size j < k

instance (size k j : Nat) : Decidable (Walls size k j) := by
  unfold Walls
  infer_instance

theorem walls_succ (hk : k < size) : Walls size (k + 1) j ↔ Walls size k j ∨ j = k * size + 0 ∨
    j = k * size + (size - 1) ∨ j = 0 * size + k ∨ j = (size - 1) * size + k := by
  have hcell : ∀ x y, x < size → (j = y * size + x ↔ row size j = y ∧ col size j = x) := by
    intro x y hx
    constructor
    · rintro rfl
      exact ⟨row_mk hx y, col_mk hx y⟩
    · rintro ⟨hr, hc⟩
      exact eq_cell hr hc
  rw [hcell 0 k (by omega), hcell (size - 1) k (by omega), hcell k 0 hk, hcell k (size - 1) hk]
  unfold Walls
  omega

theorem wallPass_spec (hn : size * size ≤ n) (hs : size * size < 2 ^ 64) (hk : k < size)
    (grid : Buf) : ∃ grid', wallPass n size (size - 1) k grid = some grid' ∧
      ∀ j, grid' j = if j = k * size + 0 ∨ j = k * size + (size - 1) ∨ j = 0 * size + k ∨
        j = (size - 1) * size + k then wall else grid j := by
  have h1 : k * size + 0 < size * size := cell_lt (by omega) hk
  have h2 : k * size + (size - 1) < size * size := cell_lt (by omega) hk
  have h3 : 0 * size + k < size * size := cell_lt hk (by omega)
  have h4 : (size - 1) * size + k < size * size := cell_lt hk (by omega)
  simp only [wallPass, indexofxy_small (Nat.lt_trans h1 hs), indexofxy_small (Nat.lt_trans h2 hs),
    indexofxy_small (Nat.lt_trans h3 hs), indexofxy_small (Nat.lt_trans h4 hs),
    poke_some (Nat.lt_of_lt_of_le h1 hn), poke_some (Nat.lt_of_lt_of_le h2 hn),
    poke_some (Nat.lt_of_lt_of_le h3 hn), poke_some (Nat.lt_of_lt_of_le h4 hn),
    Option.bind_eq_bind, Option.bind_some]
  refine ⟨_, rfl, fun j => ?_⟩
  simp only [Function.update_apply]
  split_ifs <;> first | rfl | omega

/-- What one pass adds to the walls. -/
theorem wallPass_walls (hn : size * size ≤ n) (hs : size * size < 2 ^ 64) (hk : k < size)
    (h : ∀ j, j < size * size → grid j = if Walls size k j then wall else blank) :
    ∃ grid', wallPass n size (size - 1) k grid = some grid' ∧
      ∀ j, j < size * size → grid' j = if Walls size (k + 1) j then wall else blank := by
  obtain ⟨grid', hpass, hgrid'⟩ := wallPass_spec hn hs hk grid
  refine ⟨grid', hpass, fun j hj => ?_⟩
  rw [hgrid' j, h j hj]
  simp only [walls_succ hk (j := j)]
  by_cases hnew : j = k * size + 0 ∨ j = k * size + (size - 1) ∨ j = 0 * size + k ∨
      j = (size - 1) * size + k
  · rw [if_pos hnew, if_pos (Or.inr hnew)]
  · simp only [hnew, if_false, or_false]

/-- A grid that fits is cleared. -/
theorem clrgrid_spec (hn : sp.size * sp.size ≤ n) (hs : sp.size * sp.size < 2 ^ 64)
    (h0 : 0 < sp.size) :
    ∃ grid, clrgrid n sp = some { sp with grid := grid } ∧ Cleared sp.size grid := by
  have hdecr : decr sp.size = sp.size - 1 :=
    decr_pos h0 (Nat.lt_of_le_of_lt (Nat.le_mul_self _) hs)
  obtain ⟨grid, hrun, hgrid⟩ := forRangeM_total (a := 0) (n := sp.size)
    (f := wallPass n sp.size (sp.size - 1))
    (s := fun i => if i < mul sp.size sp.size then blank else sp.grid i)
    (fun k grid => ∀ j, j < sp.size * sp.size → grid j = if Walls sp.size k j then wall else blank)
    (fun j hj => by
      dsimp only
      rw [mul_small hs, if_pos hj, if_neg (by unfold Walls; omega)])
    (fun k grid _ hk hgrid => wallPass_walls hn hs (by omega) hgrid)
  refine ⟨grid, ?_, fun j hj => ?_⟩
  · rw [clrgrid, hdecr, memset, if_pos (by rw [mul_small hs]; exact hn)]
    simp only [Option.bind_eq_bind, Option.bind_some, hrun]
    rfl
  · have hr := row_lt hj
    have hc : col sp.size j < sp.size := Nat.mod_lt _ h0
    have hborder : Walls sp.size (0 + sp.size) j ↔ Border sp.size j := by
      unfold Walls Border
      omega
    rw [hgrid j hj]
    simp only [hborder]

/-- A cleared grid fitted. -/
theorem clrgrid_some (hs : sp.size * sp.size < 2 ^ 64) (h : clrgrid n sp = some sp') :
    sp.size * sp.size ≤ n ∧ ∃ grid, sp' = { sp with grid := grid } ∧ Cleared sp.size grid := by
  obtain ⟨b, hset, hrest⟩ := Option.bind_eq_some_iff.mp h
  obtain ⟨grid, -, hsp⟩ := Option.bind_eq_some_iff.mp hrest
  have hn : sp.size * sp.size ≤ n := by
    rw [memset, mul_small hs] at hset
    by_contra hn
    rw [if_neg hn] at hset
    cases hset
  refine ⟨hn, ?_⟩
  rcases Nat.eq_zero_or_pos sp.size with h0 | h0
  · exact ⟨grid, (Option.some.inj hsp).symm, fun j hj => by simp [h0] at hj⟩
  · obtain ⟨grid', hrun, hgrid⟩ := clrgrid_spec hn hs h0
    exact ⟨grid', Option.some.inj (h.symm.trans hrun), hgrid⟩

/-- The walls on the left run into every row, also where its number wraps. -/
theorem clrgrid_rows (h : clrgrid n sp = some sp') (hi : i < sp.size) :
    indexofxy 0 i sp.size < n := by
  obtain ⟨b, -, hrest⟩ := Option.bind_eq_some_iff.mp h
  obtain ⟨grid, hrun, -⟩ := Option.bind_eq_some_iff.mp hrest
  refine forRangeM_partial (fun k _ => ∀ i, i < k → indexofxy 0 i sp.size < n)
    (fun i hi => absurd hi (Nat.not_lt_zero i)) (fun k t u _ _ hk hpass i hi => ?_) hrun i
    (by omega)
  rcases Nat.lt_succ_iff_lt_or_eq.mp hi with hi | rfl
  · exact hk i hi
  · obtain ⟨_, hpoke, -⟩ := Option.bind_eq_some_iff.mp hpass
    exact (poke_eq_some.mp hpoke).1

/-- Where the products wrap, some row begins beyond half of the memory. -/
theorem rows_wrap (hs : size < 2 ^ 64) (hn : n ≤ 2 ^ 63)
    (h : ∀ i, i < size → indexofxy 0 i size < n) : size < 2 ^ 32 := by
  by_contra hw
  have hpos : 0 < size := by omega
  have hdiv := Nat.div_add_mod (2 ^ 64 - 1) size
  have hmod := Nat.mod_lt (2 ^ 64 - 1) hpos
  rw [Nat.mul_comm] at hdiv
  have hwide := Nat.mul_le_mul (not_lt.mp hw) (not_lt.mp hw)
  have hlt : (2 ^ 64 - 1) / size < size := Nat.div_lt_of_lt_mul (by omega)
  have hrow := h _ hlt
  rw [indexofxy_small (by omega)] at hrow
  have hone := h 1 (by omega)
  rw [indexofxy_small (by omega)] at hone
  omega

/-- The cells lie in memory, so their numbers are small. -/
theorem clrgrid_small (hn : n * cellSize < 2 ^ 64) (hs : sp.size < 2 ^ 64)
    (h : clrgrid n sp = some sp') : sp.size < 2 ^ 31 := by
  rw [cellSize] at hn
  have hlt := rows_wrap hs (by omega) fun i hi => clrgrid_rows h hi
  have hsq := Nat.mul_lt_mul'' hlt hlt
  obtain ⟨hfit, -⟩ := clrgrid_some (by omega) h
  by_contra hw
  have := Nat.mul_le_mul (not_lt.mp hw) (not_lt.mp hw)
  omega

end Clear

/-- A spot drawn within the grid. -/
structure Lands (size : Nat) (s : Spot) : Prop where
  inside : s.i < size * size
  x : s.x = col size s.i
  y : s.y = row size s.i

/-- A cell off the border. -/
def Inner (size i : Nat) : Prop := i < size * size ∧ ¬ Border size i

/-- What `popgrid` has built with blockers at `bl`. -/
structure Populated (size : Nat) (bl : List Nat) (sp : Shortpath) : Prop where
  src : Inner size sp.src
  dst : Inner size sp.dst
  distinct : sp.src ≠ sp.dst
  cells : ∀ i, i = sp.src ∨ i = sp.dst →
    (sp.cells i).x = col size i ∧ (sp.cells i).y = row size i
  grid : ∀ i, i < size * size → sp.grid i =
    if Border size i then wall else if i = sp.src then srcMark else if i = sp.dst then dstMark
    else if i ∈ bl then wall else blank
  size : sp.size = size

theorem Inner.rows (h : Inner size i) :
    0 < row size i ∧ row size i + 1 < size ∧ 0 < col size i ∧ col size i + 1 < size := by
  obtain ⟨hi, hb⟩ := h
  have hr := row_lt hi
  have hpos : 0 < size := by omega
  have hc : col size i < size := Nat.mod_lt _ hpos
  unfold Border at hb
  omega

theorem inner_mk {x y : Nat} (hx : 0 < x) (hx' : x + 1 < size) (hy : 0 < y) (hy' : y + 1 < size) :
    Inner size (y * size + x) := by
  refine ⟨cell_lt (by omega) (by omega), ?_⟩
  rw [Border, row_mk (by omega), col_mk (by omega)]
  omega

/-- Two places off the border need a grid of four. -/
theorem inner_four (hi : Inner size i) (hj : Inner size j) (hne : i ≠ j) : 4 ≤ size := by
  obtain ⟨hr, hr', hc, hc'⟩ := hi.rows
  obtain ⟨hs, hs', hd, hd'⟩ := hj.rows
  by_contra hlt
  exact hne (cell_ext size (by omega) (by omega))

section Place
variable {γ : Type} {rand : Rand γ} {g g' : γ} {n size : Nat} {sp sp' : Shortpath}

theorem draw_some (h : draw rand size g = some (v, g')) (hs : size < 2 ^ 31) :
    ∃ k, k < size ∧ v = k := by
  rw [draw] at h
  split at h
  · cases h
  · next h0 =>
    obtain ⟨rfl, -⟩ := Prod.mk.inj (Option.some.inj h)
    have hlt := Nat.mod_lt (rand g).1.toNat (Nat.pos_of_ne_zero h0)
    exact ⟨_, hlt, toInt_small (Nat.lt_trans hlt hs)⟩

theorem drawSpot_lands (h : drawSpot rand size g = some (s, g')) (hs : size < 2 ^ 31) :
    Lands size s := by
  obtain ⟨⟨_, g₁⟩, hdy, h⟩ := Option.bind_eq_some_iff.mp h
  obtain ⟨⟨_, g₂⟩, hdx, h⟩ := Option.bind_eq_some_iff.mp h
  obtain ⟨y, hy, rfl⟩ := draw_some hdy hs
  obtain ⟨x, hx, rfl⟩ := draw_some hdx hs
  obtain ⟨rfl, -⟩ := Prod.mk.inj (Option.some.inj h)
  have hlt := cell_lt hx hy
  have hsq := square_lt hs
  have hi : indexofxy (toSize x) (toSize y) size = y * size + x := by
    rw [toSize_natCast (by omega), toSize_natCast (by omega), indexofxy_small (by omega)]
  refine ⟨?_, ?_, ?_⟩
  · rw [hi]
    exact hlt
  · rw [hi, col_mk hx]
  · rw [hi, row_mk hx]

/-- A placement loop leaves with a blank cell. -/
theorem place_spec (h : run (placeBody n rand sp) fuel g = some (s, g')) (hs : sp.size < 2 ^ 31) :
    Lands sp.size s ∧ sp.grid s.i = blank := by
  refine run_partial (fun _ => True) (fun r => Lands sp.size r.1 ∧ sp.grid r.1.i = blank)
    (fun _ _ _ _ => trivial) (fun g r _ hb => ?_) trivial h
  obtain ⟨⟨t, g₁⟩, hdraw, hb⟩ := Option.bind_eq_some_iff.mp hb
  obtain ⟨c, hpeek, hb⟩ := Option.bind_eq_some_iff.mp hb
  split at hb
  · cases hb
  · next hc =>
    obtain rfl := Sum.inr.inj (Option.some.inj hb)
    exact ⟨drawSpot_lands hdraw hs, (peek_eq_some.mp hpeek).2.trans (not_not.mp hc)⟩

/-- With the start and the destination in place there is no blocker yet. -/
theorem place_populated (hgrid : Cleared sp.size sp.grid)
    (hsrc : placeSrc fuel n rand sp g = some (sp₁, g₁))
    (hdst : placeDst fuel n rand sp₁ g₁ = some (sp', g')) (hs : sp.size < 2 ^ 31) :
    Populated sp.size [] sp' := by
  obtain ⟨⟨s, g₂⟩, hrun, h⟩ := Option.bind_eq_some_iff.mp hsrc
  obtain ⟨rfl, rfl⟩ := Prod.mk.inj (Option.some.inj h)
  obtain ⟨⟨t, g₃⟩, hrun', h⟩ := Option.bind_eq_some_iff.mp hdst
  obtain ⟨rfl, rfl⟩ := Prod.mk.inj (Option.some.inj h)
  obtain ⟨hsin, hblank⟩ := place_spec hrun hs
  obtain ⟨htin, hblank'⟩ := place_spec hrun' hs
  have hgrid' : ∀ j, j < sp.size * sp.size → Function.update sp.grid s.i srcMark j = blank →
      j ≠ s.i ∧ ¬ Border sp.size j := by
    intro j hj hb
    have hne : j ≠ s.i := by
      rintro rfl
      rw [Function.update_self] at hb
      cases hb
    rw [Function.update_of_ne hne, hgrid j hj] at hb
    refine ⟨hne, fun hw => ?_⟩
    rw [if_pos hw] at hb
    cases hb
  obtain ⟨hne, hti⟩ := hgrid' t.i htin.inside hblank'
  have hsi : ¬ Border sp.size s.i := by
    intro hw
    rw [hgrid s.i hsin.inside, if_pos hw] at hblank
    cases hblank
  refine ⟨⟨hsin.inside, hsi⟩, ⟨htin.inside, hti⟩, hne.symm, ?_, fun j hj => ?_, rfl⟩
  · rintro j (rfl | rfl)
    · simp [Shortpath.mark, Shortpath.upd, hne.symm, hsin.x, hsin.y]
    · simp [Shortpath.mark, Shortpath.upd, hne, htin.x, htin.y]
  · by_cases hjt : j = t.i
    · simp [Shortpath.mark, Shortpath.upd, hjt, hti, hne]
    · by_cases hjs : j = s.i
      · simp [Shortpath.mark, Shortpath.upd, hjs, hsi, hne.symm]
      · simp [Shortpath.mark, Shortpath.upd, hjs, hjt, hgrid j hj]

/-- A blocker never takes the place of the start or of the destination. -/
theorem blockPass_populated (h : Populated size bl sp)
    (hpass : blockPass n rand k (sp, g) = some (sp', g')) (hs : size < 2 ^ 31) :
    ∃ bl', bl'.length ≤ bl.length + 1 ∧ Populated size bl' sp' := by
  obtain ⟨⟨s, g₁⟩, hdraw, hpass⟩ := Option.bind_eq_some_iff.mp hpass
  rw [h.size] at hdraw
  obtain ⟨hin, hx, hy⟩ := drawSpot_lands hdraw hs
  have hcell : ∀ i, i = sp.src ∨ i = sp.dst →
      ((sp.cells i).x = s.x ∧ (sp.cells i).y = s.y ↔ i = s.i) := by
    intro i hi
    obtain ⟨hix, hiy⟩ := h.cells i hi
    rw [hix, hiy, hx, hy]
    constructor
    · rintro ⟨hc, hr⟩
      exact cell_ext size (Int.ofNat_inj.mp hr) (Int.ofNat_inj.mp hc)
    · rintro rfl
      exact ⟨rfl, rfl⟩
  dsimp only at hpass
  simp only [hcell sp.src (Or.inl rfl), hcell sp.dst (Or.inr rfl)] at hpass
  split at hpass
  · obtain ⟨rfl, -⟩ := Prod.mk.inj (Option.some.inj hpass)
    exact ⟨bl, Nat.le_succ _, h⟩
  split at hpass
  · obtain ⟨rfl, -⟩ := Prod.mk.inj (Option.some.inj hpass)
    exact ⟨bl, Nat.le_succ _, h⟩
  next hsrc hdst =>
  obtain ⟨grid, hpoke, hpass⟩ := Option.bind_eq_some_iff.mp hpass
  obtain ⟨rfl, -⟩ := Prod.mk.inj (Option.some.inj hpass)
  obtain ⟨-, rfl⟩ := poke_eq_some.mp hpoke
  refine ⟨s.i :: bl, Nat.le_refl _, h.src, h.dst, h.distinct, h.cells, fun i hi => ?_, h.size⟩
  by_cases hsi : i = s.i
  · subst hsi
    simp [Ne.symm hsrc, Ne.symm hdst]
  · simp only [Function.update_of_ne hsi, h.grid i hi, List.mem_cons, hsi, false_or]

/-- What `popgrid` builds, whatever is drawn. -/
theorem popgrid_spec (h : popgrid fuel n rand nblks sp g = some (sp', g'))
    (hs : sp.size < 2 ^ 31) : ∃ bl, bl.length ≤ nblks ∧ Populated sp.size bl sp' := by
  have hsq := square_lt hs
  obtain ⟨sp₁, hclr, hplace⟩ := Option.bind_eq_some_iff.mp h
  obtain ⟨⟨sp₂, g₂⟩, hsrc, hplace'⟩ := Option.bind_eq_some_iff.mp hplace
  obtain ⟨⟨sp₃, g₃⟩, hdst, hblocks⟩ := Option.bind_eq_some_iff.mp hplace'
  obtain ⟨-, grid, rfl, hgrid⟩ := clrgrid_some (by omega) hclr
  have hplaced := place_populated hgrid hsrc hdst hs
  have hrun := forRangeM_partial
    (fun k (t : Shortpath × γ) => ∃ bl, bl.length ≤ k ∧ Populated sp.size bl t.1)
    (⟨[], Nat.le_refl 0, hplaced⟩ : ∃ bl : List Nat, bl.length ≤ 0 ∧ Populated sp.size bl sp₃)
    (fun k t u _ _ ⟨bl, hlen, hbl⟩ hpass => by
      obtain ⟨bl', hlen', hbl'⟩ := blockPass_populated hbl hpass hs
      exact ⟨bl', by omega, hbl'⟩) hblocks
  rwa [Nat.zero_add] at hrun

theorem Populated.walled (h : Populated size bl sp) (hs : size < 2 ^ 31) : Walled sp := by
  have hopen : ∀ i, i = sp.src ∨ i = sp.dst → Open sp i := by
    intro i hi
    have hin : Inner size i := by
      rcases hi with rfl | rfl
      · exact h.src
      · exact h.dst
    have hmark : srcMark ≠ wall ∧ dstMark ≠ wall := by decide
    refine ⟨by rw [h.size]; exact hin.1, ?_⟩
    rw [h.grid i hin.1, if_neg hin.2]
    rcases hi with rfl | rfl
    · rw [if_pos rfl]
      exact hmark.1
    · rw [if_neg (Ne.symm h.distinct), if_pos rfl]
      exact hmark.2
  refine ⟨?_, ?_, ?_, hopen _ (Or.inl rfl), hopen _ (Or.inr rfl), h.distinct⟩
  · rw [h.size]
    exact inner_four h.src h.dst h.distinct
  · rw [h.size]
    exact hs
  · rw [h.size]
    intro i hi hb
    exact (h.grid i hi).trans (if_pos hb)

end Place

end Oin17.Chals
