import Oin17.Chals.Shortpath.Correct
import Oin17.Chals.Shortpath.Popgrid

namespace Oin17.Chals
open Cint Loop Memory

/-- A placement loop can leave: one of the cells it may draw is blank. -/
def Vacant (n : Nat) (sp : Shortpath) : Prop :=
  ∃ x y, x < sp.size ∧ y < sp.size ∧ peek n sp.grid (indexofxy x y sp.size) = some blank

/-- Nothing is taken modulo zero, and whatever is drawn each of the two placement
loops begins with a cell to leave with. -/
structure Placing (n : Nat) (sp : Shortpath) : Prop where
  size : sp.size ≠ 0
  src : ∃ sp₁, clrgrid n sp = some sp₁ ∧ Vacant n sp₁
  dst : ∀ sp₁, clrgrid n sp = some sp₁ → ∀ (γ : Type) (rand : Rand γ) (g : γ) fuel sp₂ g',
    placeSrc fuel n rand sp₁ g = some (sp₂, g') → Vacant n sp₂

/-- The entries there are for a grid and for its cells. -/
def ShortpathMem.entries (sp : ShortpathMem) : Nat := min sp.grid (sp.cells / cellSize)

section Vacant
variable {n size : Nat} {sp : Shortpath} {grid : Buf}

/-- A generator for one spot: the row comes first. -/
def aim (x y : Nat) : Rand Bool := fun b => (.ofNat (if b then y else x), false)

theorem draw_aim {rand : Rand γ} (hr : (rand g).1 = .ofNat k) (hk : k < size)
    (hs : size < 2 ^ 31) : draw rand size g = some ((k : Int), (rand g).2) := by
  have hword : (UInt64.ofNat k).toNat = k :=
    UInt64.toNat_ofNat_of_lt' (Nat.lt_trans (Nat.lt_trans hk hs) (by decide))
  rw [draw, if_neg (by omega), hr, hword, Nat.mod_eq_of_lt hk, toInt_small (by omega)]

theorem placeBody_aim {x y : Nat} (hs : sp.size < 2 ^ 31) (hx : x < sp.size) (hy : y < sp.size)
    (hblank : peek n sp.grid (indexofxy x y sp.size) = some blank) :
    placeBody n (aim x y) sp true =
      some (.inr ({ x := x, y := y, i := indexofxy x y sp.size }, false)) := by
  have hdy : draw (aim x y) sp.size true = some ((y : Int), false) := draw_aim rfl hy hs
  have hdx : draw (aim x y) sp.size false = some ((x : Int), false) := draw_aim rfl hx hs
  have hspot : drawSpot (aim x y) sp.size true =
      some ({ x := x, y := y, i := indexofxy x y sp.size }, false) := by
    rw [drawSpot, hdy, Option.bind_eq_bind, Option.bind_some]
    change (draw (aim x y) sp.size false).bind _ = _
    rw [hdx, Option.bind_some]
    change some (_, false) = _
    rw [toSize_natCast (n := x) (by omega), toSize_natCast (n := y) (by omega)]
  simp only [placeBody, hspot, Option.bind_eq_bind, Option.bind_some, hblank, ne_eq,
    not_true_eq_false, if_false]
  rfl

theorem placeSrc_aim {x y : Nat} (hs : sp.size < 2 ^ 31) (hx : x < sp.size) (hy : y < sp.size)
    (hblank : peek n sp.grid (indexofxy x y sp.size) = some blank) :
    placeSrc 1 n (aim x y) sp true =
      some ({ sp with src := indexofxy x y sp.size }.mark
        { x := x, y := y, i := indexofxy x y sp.size } srcMark, false) := by
  rw [placeSrc, run_leave (placeBody_aim hs hx hy hblank), Option.bind_eq_bind, Option.bind_some]
  rfl

/-- In a grid that is clear but for one cell, the loop can leave with any other. -/
theorem vacant_inner (hgrid : Cleared size grid) (hn : size * size ≤ n) (hs : size < 2 ^ 31)
    (hsize : sp.size = size) (hkeep : ∀ j, j ≠ i → sp.grid j = grid j) (hj : Inner size j)
    (hne : j ≠ i) : Vacant n sp := by
  obtain ⟨hr, hr', hc, hc'⟩ := hj.rows
  have hlt := hj.1
  have hsq := square_lt hs
  refine ⟨col size j, row size j, by omega, by omega, ?_⟩
  rw [hsize, indexofxy_small (by rw [← cell_eq]; omega), ← cell_eq, peek_some (by omega),
    hkeep j hne, hgrid j hlt, if_neg hj.2]

end Vacant

/-- Both of the loops need a cell off the border, and the second one another. -/
theorem placing_iff (sp : Shortpath) (hn : n * cellSize < 2 ^ 64) (hs : sp.size < 2 ^ 64) :
    Placing n sp ↔ 4 ≤ sp.size ∧ sp.size * sp.size ≤ n := by
  constructor
  · rintro ⟨h0, ⟨sp₁, hclr, x, y, hx, hy, hblank⟩, hdst⟩
    have hsmall := clrgrid_small hn hs hclr
    have hsq := square_lt hsmall
    obtain ⟨hfit, grid, rfl, hgrid⟩ := clrgrid_some (by omega) hclr
    have hinner : ∀ x y, x < sp.size → y < sp.size → grid (indexofxy x y sp.size) = blank →
        Inner sp.size (indexofxy x y sp.size) := by
      intro x y hx hy hb
      have hlt := cell_lt hx hy
      rw [indexofxy_small (by omega)] at hb ⊢
      refine ⟨hlt, fun hw => ?_⟩
      rw [hgrid _ hlt, if_pos hw] at hb
      cases hb
    have hi := hinner x y hx hy (peek_eq_some.mp hblank).2
    -- the start is put there
    obtain ⟨x', y', hx', hy', hblank'⟩ :=
      hdst _ hclr Bool _ _ _ _ _ (placeSrc_aim hsmall hx hy hblank)
    obtain ⟨-, hblank'⟩ := peek_eq_some.mp hblank'
    have hne : indexofxy x' y' sp.size ≠ indexofxy x y sp.size := by
      intro he
      simp only [Shortpath.mark, Shortpath.upd, he, Function.update_self] at hblank'
      cases hblank'
    simp only [Shortpath.mark, Shortpath.upd, Function.update_of_ne hne] at hblank'
    exact ⟨inner_four (hinner x' y' hx' hy' hblank') hi hne, hfit⟩
  · rintro ⟨h4, hfit⟩
    rw [cellSize] at hn
    have hsmall : sp.size < 2 ^ 31 := by
      by_contra hw
      have := Nat.mul_le_mul (not_lt.mp hw) (not_lt.mp hw)
      omega
    have hsq := square_lt hsmall
    obtain ⟨grid, hclr, hgrid⟩ := clrgrid_spec hfit (by omega) (by omega)
    have hone : Inner sp.size (1 * sp.size + 1) := by
      apply inner_mk <;> omega
    have htwo : Inner sp.size (1 * sp.size + 2) := by
      apply inner_mk <;> omega
    refine ⟨by omega, ⟨_, hclr, ?_⟩, fun sp₁ hclr₁ γ rand g fuel sp₂ g' hrun => ?_⟩
    · exact vacant_inner (i := 1 * sp.size + 2) hgrid hfit hsmall rfl (fun _ _ => by rfl) hone
        (by omega)
    · obtain rfl := Option.some.inj (hclr.symm.trans hclr₁)
      obtain ⟨⟨s, g₁⟩, -, hmark⟩ := Option.bind_eq_some_iff.mp hrun
      obtain ⟨rfl, -⟩ := Prod.mk.inj (Option.some.inj hmark)
      have hkeep : ∀ j, j ≠ s.i → Function.update grid s.i srcMark j = grid j :=
        fun j hj => Function.update_of_ne hj ..
      by_cases hsi : 1 * sp.size + 1 = s.i
      · exact vacant_inner hgrid hfit hsmall rfl hkeep htwo (by omega)
      · exact vacant_inner hgrid hfit hsmall rfl hkeep hone hsi

section Granted
variable {al : ShortpathAlloc} {ws ws' : Option ShortpathMem}

theorem entries_le (m : ShortpathMem) : m.entries * cellSize ≤ m.cells :=
  Nat.le_trans (Nat.mul_le_mul_right cellSize (Nat.min_le_right _ _)) (Nat.div_mul_le_self _ _)

theorem ShortpathMem.Holds.entries {m : ShortpathMem} (h : m.Holds n) : n ≤ m.entries :=
  le_min h.grid ((Nat.le_div_iff_mul_le (Nat.zero_lt_succ 39)).mpr h.cells)

/-- Nothing keeps a grid from being too small. One that is wider than all before it
is well placed when the product of its sides does not wrap, and another one when
the blocks that are there have the room. -/
theorem placing_granted_iff (chl : Chal) (sp : Shortpath) (hws : (spMem ws).cells < 2 ^ 64)
    (h : shortpathResize al ws chl.size = (0, ws')) :
    Placing (spMem ws').entries { sp with size := chl.size.toNat } ↔ 4 ≤ chl.size.toNat ∧
      if chl.size ≤ (spMem ws).max then chl.size.toNat * chl.size.toNat ≤ (spMem ws).entries
      else chl.size.toNat < 2 ^ 32 := by
  have hs := chl.size.toNat_lt
  rcases shortpathResize_cases al ws chl.size with ⟨-, -, hrun⟩ | hrun
  · cases congrArg Prod.fst (hrun.symm.trans h)
  rw [h] at hrun
  by_cases hle : chl.size ≤ (spMem ws).max
  · rw [if_pos hle] at hrun ⊢
    obtain rfl := congrArg Prod.snd hrun
    exact placing_iff { sp with size := chl.size.toNat }
      (Nat.lt_of_le_of_lt (entries_le (spMem ws)) hws) hs
  · rw [if_neg hle] at hrun ⊢
    rcases shortpathGrow_spec al (spMem ws) chl.size with ⟨m, hgrow, -, hholds, -, hcells⟩ |
      ⟨m, hgrow, -⟩
    · rw [hgrow] at hrun
      obtain rfl := congrArg Prod.snd hrun
      have hsmall := Nat.lt_of_le_of_lt (entries_le m) hcells
      refine (placing_iff { sp with size := chl.size.toNat } hsmall hs).trans
        (and_congr_right fun _ => ⟨fun hfit => ?_, fun hlt => ?_⟩)
      · by_contra hw
        have := Nat.mul_le_mul (not_lt.mp hw) (not_lt.mp hw)
        rw [cellSize] at hsmall
        change chl.size.toNat * chl.size.toNat ≤ m.entries at hfit
        omega
      · rw [square_small hlt] at hholds
        exact hholds.entries
    · rw [hgrow] at hrun
      cases congrArg Prod.fst hrun

theorem placing_granted_wider :
    Placing (spMem (some { max := 26, grid := 676, sol := 676, cells := 27040 })).entries
        { smallGrid with size := { blankChal with size := 26 }.size.toNat } ↔
      4 ≤ { blankChal with size := 26 }.size.toNat ∧
        if { blankChal with size := 26 }.size ≤ (spMem (some expected)).max then
          { blankChal with size := 26 }.size.toNat * { blankChal with size := 26 }.size.toNat ≤
            (spMem (some expected)).entries
        else { blankChal with size := 26 }.size.toNat < 2 ^ 32 :=
  placing_granted_iff { blankChal with size := 26 } smallGrid
    (show (spMem (some expected)).cells < 2 ^ 64 by decide)
    (show shortpathResize .exact (some expected) 26 = _ by decide +kernel)

end Granted

/-- A message for a grid of size 0. -/
def emptyGrid : Buf :=
  store (fun _ => 0) 0 (bytes "\x7b\"challenge_name\":\"shortest_path\",\"grid_size\":0\x7d")

def emptyGridToks : List Token :=
  [⟨.object, 0, 48⟩, ⟨.string, 2, 16⟩, ⟨.string, 19, 32⟩, ⟨.string, 35, 44⟩, ⟨.primitive, 46, 47⟩]

/-- It is accepted and granted, and `popgrid` divides by its size. -/
theorem empty_grid_divides : ∃ chl,
    chalParse (fun _ => some emptyGridToks) emptyGrid 48 (fun _ => 0) (fun _ => 0) blankChal =
      some (0, chl) ∧ chl.type = chalSpath ∧
    shortpathResize .exact (some expected) chl.size = (0, some expected) ∧
    ∀ sp : Shortpath, ¬ Placing expected.entries { sp with size := chl.size.toNat } := by
  obtain ⟨chl, hparse, htype, hsize⟩ : ∃ chl, chalParse (fun _ => some emptyGridToks) emptyGrid 48
      (fun _ => 0) (fun _ => 0) blankChal = some (0, chl) ∧ chl.type = chalSpath ∧ chl.size = 0 :=
    ⟨_, rfl, rfl, rfl⟩
  refine ⟨chl, hparse, htype, ?_, fun sp h => h.size ?_⟩
  · rw [hsize]
    decide +kernel
  · rw [hsize]
    rfl

end Oin17.Chals
