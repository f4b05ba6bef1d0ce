import Mathlib.Tactic.SplitIfs
import Oin17.Chals.Shortpath.Solution

namespace Oin17.Chals
open Cint Memory Utils

/-- What the caller of `search` relies on. -/
def SearchCorrect (sp : Shortpath) (r : Int) (sp' : Shortpath) : Prop :=
  (r = 0 ↔ ¬ (graph sp).Reachable sp.src sp.dst) ∧
    ((graph sp).Reachable sp.src sp.dst →
      ∃ path, Canonical sp path ∧ Holds sp'.sol 0 (solution sp.size path))

/-- The length of the solution passes through an `int`: a solution whose length
is a multiple of 2^32 is taken for no solution. -/
theorem search_correct_iff (sp : Shortpath) (fuel : Nat) (hg : Popgrid sp)
    (hf : sp.size * sp.size < fuel) :
    (∃ r sp', search fuel sp = some (r, sp') ∧ SearchCorrect sp r sp') ↔
      ∀ path, Canonical sp path → ¬ 2 ^ 32 ∣ (solution sp.size path).length := by
  obtain ⟨r, sp', hrun, hno, hyes⟩ := search_spec hg hf
  constructor
  · rintro ⟨r', sp'', hrun', hzero, -⟩ path hpath hdvd
    rw [hrun] at hrun'
    obtain ⟨rfl, rfl⟩ := Prod.mk.inj (Option.some.inj hrun')
    have hr := Bfs.CanonicalPath.reachable hpath
    obtain ⟨path', hpath', hlen, -⟩ := hyes hr
    obtain rfl := Canonical.unique hg.walled hpath hpath'
    exact hzero.mp (hlen.trans (toInt_eq_zero.mpr (Nat.mod_eq_zero_of_dvd hdvd))) hr
  · intro hlen
    refine ⟨r, sp', hrun, ⟨fun hr hreach => ?_, hno⟩, fun hreach => ?_⟩
    · obtain ⟨path, hpath, he, -⟩ := hyes hreach
      exact hlen path hpath (Nat.dvd_of_mod_eq_zero (toInt_eq_zero.mp (he ▸ hr)))
    · obtain ⟨path, hpath, -, hholds⟩ := hyes hreach
      exact ⟨path, hpath, hholds⟩

/-- The smallest grid: four free cells. -/
def smallGrid : Shortpath :=
  { max := 4, size := 4, grid := fun i => if i ∈ [5, 6, 9, 10] then 32 else wall, sol := fun _ => 0,
    cells := fun _ => ⟨0, 0, 0, none, none, none⟩, q := none, src := 5, dst := 10 }

theorem smallGrid_popgrid : Popgrid smallGrid :=
  ⟨by decide, by decide, by unfold row col; decide, ⟨by decide, by decide⟩,
    ⟨by decide, by decide⟩, by decide⟩

theorem search_correct_small :
    (∃ r sp', search 17 smallGrid = some (r, sp') ∧ SearchCorrect smallGrid r sp') ↔
      ∀ path, Canonical smallGrid path → ¬ 2 ^ 32 ∣ (solution smallGrid.size path).length :=
  search_correct_iff smallGrid 17 smallGrid_popgrid (by decide)

/-- The cells of a corridor that winds down the grid: even rows are walked
through, odd rows only lead from one to the next, at alternate ends. -/
def lane (r c : Nat) : Prop :=
  r = 10000 ∧ 9996 ≤ c ∧ c < 10000 ∨
    10000 ≤ r ∧ r < 46000 ∧ 10000 ≤ c ∧ c < 39999 ∧
      (r % 2 = 0 ∨ r % 4 = 1 ∧ c = 39998 ∨ r % 4 = 3 ∧ c = 10000)

instance (r c : Nat) : Decidable (lane r c) := by
  unfold lane
  infer_instance

/-- How far along the corridor a cell lies. -/
def along (r c : Nat) : Nat :=
  if c < 10000 then c - 9996
  else 4 + (r - 10000) / 2 * 30000 +
    (if r % 4 = 0 then c - 10000 else if r % 4 = 2 then 39998 - c else 29999)

/-- The cell that far along. -/
def laneRow (k : Nat) : Nat :=
  if k < 4 then 10000
  else 10000 + 2 * ((k - 4) / 30000) + (if (k - 4) % 30000 = 29999 then 1 else 0)

def laneCol (k : Nat) : Nat :=
  if k < 4 then 9996 + k
  else if (k - 4) / 30000 % 2 = 0 then min (10000 + (k - 4) % 30000) 39998
  else 39998 - min ((k - 4) % 30000) 29998

def laneCell (k : Nat) : Nat := laneRow k * 46340 + laneCol k

def corridor : Shortpath :=
  { max := 46340, size := 46340,
    grid := fun i => if lane (row 46340 i) (col 46340 i) then 32 else wall,
    sol := fun _ => 0, cells := fun _ => ⟨0, 0, 0, none, none, none⟩, q := none,
    src := laneCell 0, dst := laneCell 429496729 }

theorem corridor_open (i : Nat) :
    Open corridor i ↔ i < 46340 * 46340 ∧ lane (row 46340 i) (col 46340 i) := by
  unfold Open corridor
  by_cases h : lane (row 46340 i) (col 46340 i) <;> simp [h, wall]

theorem laneCell_coords (hk : k ≤ 429496729) :
    row 46340 (laneCell k) = laneRow k ∧ col 46340 (laneCell k) = laneCol k := by
  have hc : laneCol k < 46340 := by
    unfold laneCol
    split
    · omega
    · split <;> omega
  exact ⟨row_mk hc _, col_mk hc _⟩

theorem lane_laneCell (hk : k ≤ 429496729) : lane (laneRow k) (laneCol k) := by
  unfold lane laneRow laneCol
  split_ifs <;> omega

theorem laneCell_open (hk : k ≤ 429496729) : Open corridor (laneCell k) := by
  obtain ⟨hr, hc⟩ := laneCell_coords hk
  have hl := lane_laneCell hk
  rw [corridor_open, hr, hc]
  refine ⟨?_, hl⟩
  unfold laneCell
  unfold lane at hl
  omega

theorem along_laneCell (k : Nat) : along (laneRow k) (laneCol k) = k := by
  unfold along laneRow laneCol
  split_ifs <;> omega

/-- Two rows of the grid make 30000 cells of the corridor. -/
theorem lane_at (hm : m < 30000) (hk : k = 4 + 30000 * q + m) :
    laneRow k = 10000 + 2 * q + (if m = 29999 then 1 else 0) ∧
      laneCol k = if q % 2 = 0 then min (10000 + m) 39998 else 39998 - min m 29998 := by
  have h4 : ¬ k < 4 := by omega
  have hq : (k - 4) / 30000 = q := by omega
  have hm' : (k - 4) % 30000 = m := by omega
  unfold laneRow laneCol
  rw [if_neg h4, if_neg h4, hq, hm']
  exact ⟨rfl, rfl⟩

theorem laneCell_near (hk : k < 429496729) : Near 46340 (laneCell k) (laneCell (k + 1)) := by
  obtain ⟨hr, hc⟩ := laneCell_coords (Nat.le_of_lt hk)
  obtain ⟨hr', hc'⟩ := laneCell_coords hk
  rw [Near, hr, hc, hr', hc']
  by_cases h4 : k < 4
  · unfold laneRow laneCol
    simp only [if_pos h4]
    split_ifs <;> omega
  · obtain ⟨q, m, hm, he⟩ : ∃ q m, m < 30000 ∧ k = 4 + 30000 * q + m :=
      ⟨(k - 4) / 30000, (k - 4) % 30000, by omega, by omega⟩
    obtain ⟨hrow, hcol⟩ := lane_at hm he
    by_cases hlast : m + 1 < 30000
    · obtain ⟨hrow', hcol'⟩ := lane_at (k := k + 1) (q := q) hlast (by omega)
      rw [hrow, hcol, hrow', hcol', if_neg (by omega : ¬ m = 29999)]
      -- the numbers of the cells do not matter any more
      clear hk he hr hc hr' hc' hrow hcol hrow' hcol'
      split_ifs <;> omega
    · obtain rfl : m = 29999 := by omega
      obtain ⟨hrow', hcol'⟩ := lane_at (k := k + 1) (q := q + 1) (m := 0) (by omega) (by omega)
      rw [hrow, hcol, hrow', hcol', if_pos rfl, if_neg (by decide : ¬ 0 = 29999)]
      split_ifs <;> omega

/-- One move changes the place in the corridor by one. -/
theorem along_near (hi : lane r c) (hj : lane r' c')
    (h : c = c' ∧ (r + 1 = r' ∨ r' + 1 = r) ∨ r = r' ∧ (c + 1 = c' ∨ c' + 1 = c)) :
    along r' c' ≤ along r c + 1 := by
  unfold lane at hi hj
  unfold along
  rcases h with ⟨rfl, h⟩ | ⟨rfl, h⟩
  · -- between two rows, at the end of an odd one
    have hc : ¬ c < 10000 := by omega
    rw [if_neg hc, if_neg hc]
    rcases h with rfl | rfl
    · split_ifs <;> omega
    · split_ifs <;> omega
  · by_cases hr : r % 2 = 0
    · split_ifs <;> omega
    · omega

theorem corridor_dist (hk : k ≤ 429496729) :
    (graph corridor).Reachable corridor.src (laneCell k) ∧
      (graph corridor).dist corridor.src (laneCell k) ≤ k := by
  induction k with
  | zero => exact ⟨.refl _, by simp [corridor]⟩
  | succ k ih =>
    obtain ⟨hr, hd⟩ := ih (by omega)
    have hadj : (graph corridor).Adj (laneCell k) (laneCell (k + 1)) :=
      ⟨laneCell_open (by omega), laneCell_open hk, laneCell_near hk⟩
    have := Bfs.dist_adj_le hr hadj
    exact ⟨hr.trans hadj.reachable, by omega⟩

/-- The canonical path goes through the corridor cell by cell. -/
theorem corridor_levels (h : Canonical corridor path) :
    ∃ n, n = 429496726 ∧
      path.map (fun i => along (row 46340 i) (col 46340 i)) = List.range' 0 (n + 4) := by
  have hend := corridor_dist (Nat.le_refl _)
  have halong : ∀ k ≤ 429496729, along (row 46340 (laneCell k)) (col 46340 (laneCell k)) = k := by
    intro k hk
    obtain ⟨hr, hc⟩ := laneCell_coords hk
    rw [hr, hc, along_laneCell]
  have hsrc : along (row 46340 corridor.src) (col 46340 corridor.src) = 0 := halong 0 (by omega)
  have hdst : along (row 46340 corridor.dst) (col 46340 corridor.dst) = 429496729 :=
    halong 429496729 (by omega)
  have hlen : path.length ≤ 429496730 := by
    rw [h.short]
    exact Nat.succ_le_succ hend.2
  have hlevels := Bfs.chain_levels (f := fun i => along (row 46340 i) (col 46340 i))
    (h.chain.imp fun i j hij => along_near ((corridor_open i).mp hij.1).2
      ((corridor_open j).mp hij.2.1).2 hij.2.2) h.head h.last (by rw [hsrc, hdst]; exact hlen)
  have hmem := List.mem_map_of_mem (f := fun i => along (row 46340 i) (col 46340 i))
    (List.mem_of_getLast? h.last)
  rw [hsrc] at hlevels
  rw [hlevels, hdst, List.mem_range'_1] at hmem
  refine ⟨path.length - 4, by omega, ?_⟩
  rw [hlevels, Nat.sub_add_cancel (by omega)]

theorem decimal_length_step {n : Nat} (h : 10 ≤ n) :
    (decimal n).length = (decimal (n / 10)).length + 1 := by
  rw [← digits_pos (by omega), ← digits_pos (by omega), digits_step (by omega)]
  simp

theorem decimal_length_one {n : Nat} (h : n < 10) : (decimal n).length = 1 := by
  rw [decimal, List.length_map, Nat.toDigits_of_lt_base h]
  rfl

/-- Four cells take nine digits, and all the others ten. -/
theorem lane_text (h : lane r c) :
    (decimal r ++ decimal c).length = if along r c < 4 then 9 else 10 := by
  have hfour : ∀ n, 1000 ≤ n → n < 10000 → (decimal n).length = 4 := by
    intro n hlo hhi
    iterate 3 rw [decimal_length_step (by omega)]
    rw [decimal_length_one (by omega)]
  have hfive : ∀ n, 10000 ≤ n → n < 100000 → (decimal n).length = 5 := by
    intro n hlo hhi
    rw [decimal_length_step (by omega), hfour _ (by omega) (by omega)]
  unfold lane at h
  rw [List.length_append, hfive r (by omega) (by omega)]
  unfold along
  by_cases hc : c < 10000
  · rw [hfour c (by omega) hc, if_pos hc, if_pos (by omega)]
  · rw [hfive c (by omega) (by omega), if_neg hc, if_neg (by omega)]

theorem digits_sum (n : Nat) :
    ((List.range' 0 (n + 4)).map fun k => if k < 4 then 9 else 10).sum = 10 * n + 36 := by
  induction n with
  | zero => rfl
  | succ n ih =>
    rw [Nat.add_right_comm, List.range'_1_concat, List.map_append, List.sum_append, ih]
    simp
    omega

theorem corridor_length (h : Canonical corridor path) (hg : Popgrid corridor) :
    (solution corridor.size path).length = 2 ^ 32 := by
  have htext : ∀ i ∈ path, (decimal (row 46340 i) ++ decimal (col 46340 i)).length =
      if along (row 46340 i) (col 46340 i) < 4 then 9 else 10 :=
    fun i hi => lane_text ((corridor_open i).mp (h.open hg.walled hi)).2
  have hsum : (solution corridor.size path).length =
      ((path.map fun i => along (row 46340 i) (col 46340 i)).map
        fun k => if k < 4 then 9 else 10).sum := by
    rw [solution, List.length_flatMap, List.map_map]
    exact congrArg List.sum (List.map_congr_left htext)
  obtain ⟨n, hn, hlevels⟩ := corridor_levels h
  rw [hsum, hlevels, digits_sum]
  omega

theorem corridor_popgrid : Popgrid corridor := by
  refine ⟨by decide, by decide, fun i hi hb => ?_, laneCell_open (by omega),
    laneCell_open (Nat.le_refl _), ?_⟩
  · have hno : ¬ Open corridor i := by
      rw [corridor_open]
      rintro ⟨-, hl⟩
      unfold lane at hl
      have hs : corridor.size = 46340 := rfl
      rw [hs] at hb
      omega
    by_contra hw
    exact hno ⟨hi, hw⟩
  · intro he
    have hr : laneRow 0 = laneRow 429496729 := by
      rw [← (laneCell_coords (Nat.zero_le _)).1, ← (laneCell_coords (Nat.le_refl _)).1]
      exact congrArg _ he
    revert hr
    decide

/-- The solution has 2^32 digits, and `search` returns 0 for it. -/
theorem search_corridor :
    Popgrid corridor ∧ (graph corridor).Reachable corridor.src corridor.dst ∧
      ∃ sp', search (46340 * 46340 + 1) corridor = some (0, sp') ∧
        ¬ SearchCorrect corridor 0 sp' := by
  have hg := corridor_popgrid
  have hreach : (graph corridor).Reachable corridor.src corridor.dst :=
    (corridor_dist (Nat.le_refl _)).1
  obtain ⟨r, sp', hrun, -, hyes⟩ := search_spec hg
    (show corridor.size * corridor.size < 46340 * 46340 + 1 from Nat.lt_succ_self _)
  obtain ⟨path, hpath, hr, -⟩ := hyes hreach
  have hzero : r = 0 := by
    rw [hr, corridor_length hpath hg]
    decide
  subst hzero
  exact ⟨hg, hreach, sp', hrun, fun hc => hc.1.mp rfl hreach⟩

end Oin17.Chals
