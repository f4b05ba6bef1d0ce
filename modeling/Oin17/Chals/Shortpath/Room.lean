import Oin17.Chals.Shortpath.Trace

namespace Oin17.Chals
open Cint Loop Memory Utils

/-- Whatever the buffer for the solution holds, the search keeps to the bytes that
`shortpath_resize` gives to it. -/
def SolFits (fuel : Nat) (sp : Shortpath) : Prop :=
  ∀ sol, ∃ r sp', search fuel { sp with sol := sol } = some (r, sp') ∧
    ∀ j, sp.size * sp.size ≤ j → sp'.sol j = sol j

section Room
variable {sp sp' : Shortpath}

theorem solution_perm (h : p.Perm q) : (solution size p).length = (solution size q).length :=
  (h.flatMap_right _).length_eq

theorem Walled.fits_iff (hg : Walled sp) (hf : sp.size * sp.size < fuel) :
    SolFits fuel sp ↔
      ∀ path, Canonical sp path → (solution sp.size path).length < sp.size * sp.size := by
  have hg' : ∀ sol, Walled { sp with sol := sol } :=
    fun _ => ⟨hg.size, hg.bound, hg.border, hg.src, hg.dst, hg.distinct⟩
  constructor
  · intro hfits path hpath
    have hreach : (graph sp).Reachable sp.src sp.dst := Bfs.CanonicalPath.reachable hpath
    obtain ⟨r, sp', hrun, hout⟩ := hfits fun _ => 1
    obtain ⟨r', sp'', hrun', -, hyes⟩ := search_run (hg' fun _ => 1) hf
    obtain ⟨rfl, rfl⟩ := Prod.mk.inj (Option.some.inj (hrun.symm.trans hrun'))
    obtain ⟨path', q, hpath', hperm, -, -, hholds, -⟩ := hyes hreach
    obtain rfl : path = path' := Canonical.unique hg hpath hpath'
    by_contra hlen
    -- the NUL is where the ones should be
    have hnul := hholds.2
    rw [Nat.zero_add, hout _ (by rw [solution_perm hperm]; exact not_lt.mp hlen)] at hnul
    cases hnul
  · intro hlen sol
    obtain ⟨r, sp', hrun, hno, hyes⟩ := search_run (hg' sol) hf
    refine ⟨r, sp', hrun, fun j hj => ?_⟩
    by_cases hreach : (graph sp).Reachable sp.src sp.dst
    · obtain ⟨path, q, hpath, hperm, -, -, -, hout⟩ := hyes hreach
      have hlt := hlen path hpath
      rw [← solution_perm hperm] at hlt
      exact hout j (Nat.lt_of_lt_of_le hlt hj)
    · rw [(hno hreach).2]

end Room

/-- One byte for a cell is not enough for a path that winds through most of a grid
whose coordinates have two digits. The costs of the search are the `int` of the code in
grids of up to 46342 rows. -/
theorem sol_fits_iff {γ : Type} {rand : Rand γ} {g g' : γ} {n nblks : Nat} {sp sp' : Shortpath}
    (hn : n * cellSize < 2 ^ 64) (hs : sp.size < 2 ^ 64)
    (h : popgrid fuel n rand nblks sp g = some (sp', g')) (hf : sp.size * sp.size < fuel') :
    SolFits fuel' sp' ↔
      ∀ path, Canonical sp' path → (solution sp'.size path).length < sp'.size * sp'.size := by
  obtain ⟨sp₁, hclr, -⟩ := Option.bind_eq_some_iff.mp h
  have hsmall := clrgrid_small hn hs hclr
  obtain ⟨bl, -, hpop⟩ := popgrid_spec h hsmall
  exact (hpop.walled hsmall).fits_iff (by rw [hpop.size]; exact hf)

theorem sol_fits_small : ∃ sp' g',
    popgrid 1 16 stream 2 smallGrid [1, 1, 2, 2, 1, 1, 1, 2] = some (sp', g') ∧
    (SolFits 17 sp' ↔
      ∀ path, Canonical sp' path → (solution sp'.size path).length < sp'.size * sp'.size) := by
  obtain ⟨⟨sp', g'⟩, h⟩ := Option.isSome_iff_exists.mp
    (show (popgrid 1 16 stream 2 smallGrid [1, 1, 2, 2, 1, 1, 1, 2]).isSome by decide +kernel)
  exact ⟨sp', g', h, sol_fits_iff (by decide) (by decide) h (by decide)⟩

/-- The cells of a way that winds down a grid of 16: odd rows are walked through,
even rows only lead from one to the next, at alternate ends. -/
def winds (r c : Nat) : Prop :=
  1 ≤ r ∧ r < 14 ∧ 1 ≤ c ∧ c < 15 ∧ (r % 2 = 1 ∨ r % 4 = 2 ∧ c = 14 ∨ r % 4 = 0 ∧ c = 1)

instance (r c : Nat) : Decidable (winds r c) := by
  unfold winds
  infer_instance

/-- How far along the way a cell lies. -/
def windsAt (r c : Nat) : Nat :=
  (r - 1) / 2 * 15 + (if r % 2 = 0 then 14 else if r % 4 = 1 then c - 1 else 14 - c)

/-- The cell that far along. -/
def windsCell (k : Nat) : Nat :=
  (1 + 2 * (k / 15) + (if k % 15 = 14 then 1 else 0)) * 16 +
    if k / 15 % 2 = 0 then min (1 + k % 15) 14 else 14 - min (k % 15) 13

/-- Its two ends, and then a blocker for every other cell off the border. -/
def windsDraws : List UInt64 :=
  let blockers := (List.range 256).filter fun i =>
    ¬ Border 16 i ∧ ¬ winds (row 16 i) (col 16 i)
  [1, 1, 13, 14] ++ blockers.flatMap fun i => [.ofNat (row 16 i), .ofNat (col 16 i)]

/-- A grid of 16 with that way through it. -/
structure Winding (sp : Shortpath) : Prop where
  size : sp.size = 16
  src : sp.src = windsCell 0
  dst : sp.dst = windsCell 103
  grid : ∀ i, i < 256 → (sp.grid i ≠ wall ↔ winds (row 16 i) (col 16 i))

theorem windsDraws_popgrid : ∃ sp g,
    popgrid 1 256 stream 92 { smallGrid with size := 16 } windsDraws = some (sp, g) ∧
      Winding sp := by
  have hrun : (popgrid 1 256 stream 92 { smallGrid with size := 16 } windsDraws).any (fun r =>
      decide (r.1.size = 16 ∧ r.1.src = windsCell 0 ∧ r.1.dst = windsCell 103 ∧
        ∀ i, i < 256 → (r.1.grid i ≠ wall ↔ winds (row 16 i) (col 16 i)))) = true := by
    decide +kernel
  obtain ⟨⟨sp, g⟩, hpop, hsp⟩ := (Option.any_eq_true _ _).mp hrun
  obtain ⟨hsize, hsrc, hdst, hgrid⟩ := of_decide_eq_true hsp
  exact ⟨sp, g, hpop, hsize, hsrc, hdst, hgrid⟩

section Winding
variable {sp : Shortpath}

theorem Winding.open_iff (h : Winding sp) (i : Nat) :
    Open sp i ↔ i < 256 ∧ winds (row 16 i) (col 16 i) := by
  rw [Open, h.size]
  exact and_congr_right fun hi => h.grid i hi

theorem windsCell_winds : ∀ k, k < 104 →
    windsCell k < 256 ∧ winds (row 16 (windsCell k)) (col 16 (windsCell k)) := by
  decide +kernel

theorem windsCell_near : ∀ k, k < 103 → Near 16 (windsCell k) (windsCell (k + 1)) := by
  unfold Near
  decide +kernel

theorem windsCell_at : ∀ i, i < 256 → winds (row 16 i) (col 16 i) →
    windsCell (windsAt (row 16 i) (col 16 i)) = i := by
  decide +kernel

theorem windsAt_near (hi : winds r c) (hj : winds r' c')
    (h : c = c' ∧ (r + 1 = r' ∨ r' + 1 = r) ∨ r = r' ∧ (c + 1 = c' ∨ c' + 1 = c)) :
    windsAt r' c' ≤ windsAt r c + 1 := by
  unfold winds at hi hj
  unfold windsAt
  rcases h with ⟨rfl, rfl | rfl⟩ | ⟨rfl, h⟩
  · split_ifs <;> omega
  · split_ifs <;> omega
  · split_ifs <;> omega

theorem Winding.dist (h : Winding sp) (hk : k < 104) :
    (graph sp).Reachable sp.src (windsCell k) ∧ (graph sp).dist sp.src (windsCell k) ≤ k := by
  induction k with
  | zero =>
    rw [h.src]
    exact ⟨.refl _, by simp⟩
  | succ k ih =>
    obtain ⟨hr, hd⟩ := ih (by omega)
    have hadj : (graph sp).Adj (windsCell k) (windsCell (k + 1)) := by
      refine ⟨(h.open_iff _).mpr (windsCell_winds k (by omega)),
        (h.open_iff _).mpr (windsCell_winds (k + 1) hk), ?_⟩
      rw [h.size]
      exact windsCell_near k (by omega)
    have := Bfs.dist_adj_le hr hadj
    exact ⟨hr.trans hadj.reachable, by omega⟩

/-- There is no other way. -/
theorem Winding.path_eq (h : Winding sp) (hg : Walled sp) (hp : Canonical sp path) :
    path = (List.range' 0 104).map windsCell := by
  let f := fun i => windsAt (row 16 i) (col 16 i)
  have hsrc : f sp.src = 0 := by
    rw [h.src]
    decide
  have hdst : f sp.dst = 103 := by
    rw [h.dst]
    decide
  have hlen : path.length ≤ 104 := by
    rw [hp.short, h.dst]
    exact Nat.succ_le_succ (h.dist (by decide)).2
  have hlevels := Bfs.chain_levels (f := f) (hp.chain.imp fun i j hij => by
      obtain ⟨hi, hj, hnear⟩ := hij
      rw [h.size] at hnear
      exact windsAt_near ((h.open_iff i).mp hi).2 ((h.open_iff j).mp hj).2 hnear)
    hp.head hp.last (by rw [hsrc, hdst]; omega)
  have hmem := List.mem_map_of_mem (f := f) (List.mem_of_getLast? hp.last)
  rw [hsrc] at hlevels
  rw [hlevels, hdst, List.mem_range'_1] at hmem
  obtain hlen : path.length = 104 := by omega
  have hback : path.map (windsCell ∘ f) = path.map id := by
    refine List.map_congr_left fun i hi => ?_
    obtain ⟨hlt, hw⟩ := (h.open_iff i).mp (hp.open hg hi)
    exact windsCell_at i hlt hw
  rw [← hlen, ← hlevels, List.map_map, hback, List.map_id]

end Winding

/-- 104 cells take 276 digits, where there is room for 256. -/
theorem winding_overflows : ∃ sp g,
    popgrid 1 256 stream 92 { smallGrid with size := 16 } windsDraws = some (sp, g) ∧
      (∃ sp', search 257 sp = some (276, sp')) ∧ ¬ SolFits 257 sp := by
  obtain ⟨sp, g, hrun, hw⟩ := windsDraws_popgrid
  obtain ⟨bl, -, hpop⟩ := popgrid_spec hrun (by decide)
  have hg : Walled sp := hpop.walled (by decide)
  have hf : sp.size * sp.size < 257 := by
    rw [hw.size]
    decide
  have hdigits : (solution 16 ((List.range' 0 104).map windsCell)).length = 276 := by
    decide +kernel
  obtain ⟨r, sp', hsearch, -, hyes⟩ := search_run hg hf
  have hreach : (graph sp).Reachable sp.src sp.dst := by
    rw [hw.dst]
    exact (hw.dist (by decide)).1
  obtain ⟨path, q, hpath, -, hq, rfl, -⟩ := hyes hreach
  refine ⟨sp, g, hrun, ⟨sp', ?_⟩, fun hfits => ?_⟩
  · rw [hsearch, hq (by omega), hw.path_eq hg hpath, hw.size, hdigits]
    rfl
  · have hlt := (hg.fits_iff hf).mp hfits path hpath
    rw [hw.path_eq hg hpath, hw.size, hdigits] at hlt
    omega

end Oin17.Chals
