import Mathlib.Combinatorics.SimpleGraph.Metric
import Mathlib.Tactic.Ring
import Oin17.Chals.Shortpath.Model

namespace Oin17.Chals
open Cint

def row (size i : Nat) : Nat := i / size

def col (size i : Nat) : Nat := i % size

/-- One move down, up, right or left. -/
def Near (size i j : Nat) : Prop :=
  col size i = col size j ∧ (row size i + 1 = row size j ∨ row size j + 1 = row size i) ∨
    row size i = row size j ∧ (col size i + 1 = col size j ∨ col size j + 1 = col size i)

/-- A cell of the grid that is neither wall nor blocker. -/
def Open (sp : Shortpath) (i : Nat) : Prop := i < sp.size * sp.size ∧ sp.grid i ≠ wall

/-- The cells one can move through, joined by the moves. -/
def graph (sp : Shortpath) : SimpleGraph Nat where
  Adj i j := Open sp i ∧ Open sp j ∧ Near sp.size i j
  symm := ⟨fun i j h => ⟨h.2.1, h.1, by
    rcases h.2.2 with ⟨he, hr⟩ | ⟨he, hc⟩
    · exact Or.inl ⟨he.symm, hr.symm⟩
    · exact Or.inr ⟨he.symm, hc.symm⟩⟩⟩
  loopless := ⟨fun i h => by
    rcases h.2.2 with ⟨_, h⟩ | ⟨_, h⟩ <;> omega⟩

/-- Lexicographic order of the coordinates, the row first. -/
def LexLe (size i j : Nat) : Prop :=
  row size i < row size j ∨ row size i = row size j ∧ col size i ≤ col size j

/-- What `popgrid` builds. -/
structure Popgrid (sp : Shortpath) : Prop where
  size : 4 ≤ sp.size
  bound : sp.size * sp.size < 2 ^ 31
  border : ∀ i, i < sp.size * sp.size →
    row sp.size i = 0 ∨ row sp.size i + 1 = sp.size ∨ col sp.size i = 0 ∨
      col sp.size i + 1 = sp.size →
    sp.grid i = wall
  src : Open sp sp.src
  dst : Open sp sp.dst
  distinct : sp.src ≠ sp.dst

/-- The same for all sizes that an `int` holds. -/
structure Walled (sp : Shortpath) : Prop where
  size : 4 ≤ sp.size
  bound : sp.size < 2 ^ 31
  border : ∀ i, i < sp.size * sp.size →
    row sp.size i = 0 ∨ row sp.size i + 1 = sp.size ∨ col sp.size i = 0 ∨
      col sp.size i + 1 = sp.size →
    sp.grid i = wall
  src : Open sp sp.src
  dst : Open sp sp.dst
  distinct : sp.src ≠ sp.dst

theorem Popgrid.walled (h : Popgrid sp) : Walled sp :=
  ⟨h.size, Nat.lt_of_le_of_lt (Nat.le_mul_self _) h.bound, h.border, h.src, h.dst, h.distinct⟩

theorem cell_eq (size i : Nat) : i = row size i * size + col size i := by
  rw [row, col, Nat.mul_comm, Nat.div_add_mod]

theorem row_mk {size x : Nat} (h : x < size) (y : Nat) : row size (y * size + x) = y := by
  rw [row, Nat.mul_comm, Nat.mul_add_div (by omega), Nat.div_eq_of_lt h, Nat.add_zero]

theorem col_mk {size x : Nat} (h : x < size) (y : Nat) : col size (y * size + x) = x := by
  rw [col, Nat.mul_comm, Nat.mul_add_mod, Nat.mod_eq_of_lt h]

theorem cell_ext (size : Nat) {i j : Nat} (hr : row size i = row size j)
    (hc : col size i = col size j) : i = j := by
  rw [cell_eq size i, cell_eq size j, hr, hc]

theorem row_lt {size i : Nat} (h : i < size * size) : row size i < size :=
  Nat.div_lt_of_lt_mul h

theorem lexLe_iff {size : Nat} (h : 0 < size) (i j : Nat) : LexLe size i j ↔ i ≤ j := by
  have hi : col size i < size := Nat.mod_lt _ h
  have hj : col size j < size := Nat.mod_lt _ h
  have hlt : ∀ a b, row size a < row size b → col size a < size → a < b := by
    intro a b hab ha
    rw [cell_eq size a, cell_eq size b]
    have := Nat.mul_le_mul_right size (Nat.succ_le_of_lt hab)
    rw [Nat.succ_mul] at this
    omega
  constructor
  · rintro (h | ⟨h, hc⟩)
    · exact Nat.le_of_lt (hlt i j h hi)
    · rw [cell_eq size i, cell_eq size j, h]
      omega
  · intro hle
    rcases Nat.lt_trichotomy (row size i) (row size j) with h | h | h
    · exact Or.inl h
    · refine Or.inr ⟨h, ?_⟩
      rw [cell_eq size i, cell_eq size j, h] at hle
      omega
    · exact absurd (hlt j i h hj) (by omega)

theorem indexofxy_small {x y width : Nat} (h : y * width + x < 2 ^ 64) :
    indexofxy x y width = y * width + x := Nat.mod_eq_of_lt h

theorem square_lt {size : Nat} (h : size < 2 ^ 31) : size * size < 2 ^ 62 := by
  have := Nat.mul_lt_mul'' h h
  omega

/-- The cell reached from `i` in a direction of `getneigh`. -/
def step (size i : Nat) : Nat → Nat
  | 0 => i + size
  | 1 => i - size
  | 2 => i + 1
  | _ => i - 1

section Inside
variable {sp : Shortpath}

theorem Walled.size_pos (h : Walled sp) : 0 < sp.size := Nat.lt_of_lt_of_le (by decide) h.size

/-- What is open lies off the border. -/
theorem Walled.inside (h : Walled sp) (hi : Open sp i) :
    0 < row sp.size i ∧ row sp.size i + 1 < sp.size ∧ 0 < col sp.size i ∧
      col sp.size i + 1 < sp.size := by
  have hr := row_lt hi.1
  have hc : col sp.size i < sp.size := Nat.mod_lt _ h.size_pos
  have hb := h.border i hi.1
  refine ⟨?_, ?_, ?_, ?_⟩ <;> by_contra hn <;> exact hi.2 (hb (by omega))

theorem step_down {size i : Nat} (h : 0 < size) :
    row size (step size i 0) = row size i + 1 ∧ col size (step size i 0) = col size i := by
  have hc : col size i < size := Nat.mod_lt _ h
  have he : step size i 0 = (row size i + 1) * size + col size i := by
    have := cell_eq size i
    rw [Nat.succ_mul, step]
    omega
  rw [he, row_mk hc, col_mk hc]
  exact ⟨rfl, rfl⟩

theorem step_up {size i : Nat} (h : 0 < size) (hr : 0 < row size i) :
    row size (step size i 1) + 1 = row size i ∧ col size (step size i 1) = col size i := by
  have hc : col size i < size := Nat.mod_lt _ h
  have he : step size i 1 = (row size i - 1) * size + col size i := by
    have hi := cell_eq size i
    have := Nat.succ_mul (row size i - 1) size
    rw [Nat.succ_eq_add_one, Nat.sub_add_cancel hr] at this
    rw [step]
    omega
  rw [he, row_mk hc, col_mk hc]
  exact ⟨by omega, rfl⟩

theorem step_right {size i : Nat} (hc : col size i + 1 < size) :
    row size (step size i 2) = row size i ∧ col size (step size i 2) = col size i + 1 := by
  have he : step size i 2 = row size i * size + (col size i + 1) := by
    rw [← Nat.add_assoc, ← cell_eq, step]
  rw [he, row_mk hc, col_mk hc]
  exact ⟨rfl, rfl⟩

theorem step_left {size i : Nat} (h : 0 < size) (hc : 0 < col size i) :
    row size (step size i 3) = row size i ∧ col size (step size i 3) + 1 = col size i := by
  have hlt : col size i < size := Nat.mod_lt _ h
  have he : step size i 3 = row size i * size + (col size i - 1) := by
    have := cell_eq size i
    change i - 1 = _
    omega
  rw [he, row_mk (by omega), col_mk (by omega)]
  exact ⟨rfl, by omega⟩

/-- The four directions lead to the neighbours. -/
theorem Walled.adj_iff (h : Walled sp) (hi : Open sp i) (j : Nat) :
    (graph sp).Adj i j ↔ Open sp j ∧ ∃ dir < ndirs, j = step sp.size i dir := by
  obtain ⟨hr0, hr1, hc0, hc1⟩ := h.inside hi
  have hs : 0 < sp.size := by omega
  obtain ⟨hd, hd'⟩ := step_down (i := i) hs
  obtain ⟨hu, hu'⟩ := step_up hs hr0
  obtain ⟨hr, hr'⟩ := step_right hc1
  obtain ⟨hl, hl'⟩ := step_left hs hc0
  constructor
  · rintro ⟨_, hj, ⟨hc, hr | hr⟩ | ⟨hr, hc | hc⟩⟩
    · exact ⟨hj, 0, by decide, cell_ext sp.size (by omega) (by omega)⟩
    · exact ⟨hj, 1, by decide, cell_ext sp.size (by omega) (by omega)⟩
    · exact ⟨hj, 2, by decide, cell_ext sp.size (by omega) (by omega)⟩
    · exact ⟨hj, 3, by decide, cell_ext sp.size (by omega) (by omega)⟩
  · rintro ⟨hj, dir, hdir, rfl⟩
    refine ⟨hi, hj, ?_⟩
    match dir, hdir with
    | 0, _ => exact Or.inl ⟨by omega, by omega⟩
    | 1, _ => exact Or.inl ⟨by omega, by omega⟩
    | 2, _ => exact Or.inr ⟨by omega, by omega⟩
    | 3, _ => exact Or.inr ⟨by omega, by omega⟩

theorem Walled.step_lt (h : Walled sp) (hi : Open sp i) (hdir : dir < ndirs) :
    step sp.size i dir < sp.size * sp.size := by
  obtain ⟨hr0, hr1, hc0, hc1⟩ := h.inside hi
  have hmul := Nat.mul_le_mul_right sp.size (Nat.succ_le_of_lt hr1)
  have he := cell_eq sp.size i
  have hs := Nat.succ_mul (row sp.size i) sp.size
  have hs' := Nat.succ_mul (row sp.size i + 1) sp.size
  simp only [Nat.succ_eq_add_one] at hmul hs hs'
  match dir, hdir with
  | 0, _ => simp only [step]; omega
  | 1, _ => simp only [step]; omega
  | 2, _ => simp only [step]; omega
  | 3, _ => simp only [step]; omega

end Inside

end Oin17.Chals
