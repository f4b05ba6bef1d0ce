import Oin17.Chals.Mku64str
import Oin17.Chals.Parse
import Oin17.Compat
import Oin17.Lib.Run

namespace Oin17.Chals
open Compat Memory Run

/-- `struct shortpath`, for the allocator: the width that was asked for, and the
bytes of the three blocks. A null pointer has none. -/
structure ShortpathMem where
  max : UInt64
  grid : Nat
  sol : Nat
  cells : Nat
  deriving DecidableEq

/-- `struct sortlist`, for the allocator. -/
structure SortlistMem where
  max : UInt64
  nums : Nat
  str : Nat
  mtmp : Nat
  deriving DecidableEq

/-- What `calloc` gives. -/
def ShortpathMem.cleared : ShortpathMem := { max := 0, grid := 0, sol := 0, cells := 0 }
def SortlistMem.cleared : SortlistMem := { max := 0, nums := 0, str := 0, mtmp := 0 }

/-- What the allocator makes of the calls of `shortpath_resize`. -/
structure ShortpathAlloc where
  calloc : Bool
  grid : Realloc
  sol : Realloc
  cells : Realloc

/-- What it makes of those of `sortlist_resize`. -/
structure SortlistAlloc where
  calloc : Bool
  nums : Realloc
  str : Realloc
  mtmp : Realloc

/-- A workspace that is not there yet is allocated. -/
def orCalloc (ok : Bool) (cleared : α) : Option α → Option α
  | none => if ok then some cleared else none
  | some sp => some sp

/-- `sizeof(struct cell)` -/
def cellSize : Nat := 40

/-- Growing the workspace, which stops at the first failure. -/
def shortpathGrow (al : ShortpathAlloc) (sp : ShortpathMem) (size : UInt64) : Int × ShortpathMem :=
  let gs := (size * size).toNat
  match reallocarray al.grid gs 1 with
  | none => (-1, sp)
  | some tmp =>
    let sp := { sp with grid := tmp }
    match reallocarray al.sol gs 1 with
    | none => (-1, sp)
    | some tmp =>
      let sp := { sp with sol := tmp }
      match reallocarray al.cells gs cellSize with
      | none => (-1, sp)
      | some tmp => (0, { sp with cells := tmp, max := size })

/-- `none` is a nil `slv->sp`. -/
def shortpathResize (al : ShortpathAlloc) (sp : Option ShortpathMem) (size : UInt64) :
    Int × Option ShortpathMem :=
  match orCalloc al.calloc .cleared sp with
  | none => (-1, none)
  | some sp =>
    if size ≤ sp.max then (0, some sp)
    else
      let (r, sp) := shortpathGrow al sp size
      (r, some sp)

def u64strlen : Nat := 20

/-- The sum that makes room for the NUL is a `size_t`. -/
def sortlistGrow (al : SortlistAlloc) (sl : SortlistMem) (nelems : UInt64) : Int × SortlistMem :=
  match reallocarray al.nums nelems.toNat 8 with
  | none => (-1, sl)
  | some tmp =>
    let sl := { sl with nums := tmp }
    match reallocarray al.str (nelems + 1).toNat u64strlen with
    | none => (-1, sl)
    | some tmp =>
      let sl := { sl with str := tmp }
      match reallocarray al.mtmp nelems.toNat 8 with
      | none => (-1, sl)
      | some tmp => (0, { sl with mtmp := tmp, max := nelems })

def sortlistResize (al : SortlistAlloc) (sl : Option SortlistMem) (nelems : UInt64) :
    Int × Option SortlistMem :=
  match orCalloc al.calloc .cleared sl with
  | none => (-1, none)
  | some sl =>
    if nelems ≤ sl.max then (0, some sl)
    else
      let (r, sl) := sortlistGrow al sl nelems
      (r, some sl)

/-- The workspaces of a solver. -/
structure SolverMem where
  prng : Bool
  sl : Option SortlistMem
  sp : Option ShortpathMem

structure SolverAlloc where
  prng : Bool
  /-- Whether `clock_gettime` succeeds. -/
  clock : Bool
  sl : SortlistAlloc
  sp : ShortpathAlloc

def solverResize (al : SolverAlloc) (slv : SolverMem) (chl : Chal) : Int × SolverMem :=
  let (r, sl) := sortlistResize al.sl slv.sl chl.size
  let slv := { slv with sl := sl }
  if r ≠ 0 then (-1, slv)
  else
    let (r, sp) := shortpathResize al.sp slv.sp chl.size
    (if r ≠ 0 then -1 else 0, { slv with sp := sp })

def slExpnums : UInt64 := 1000
def spExpsize : UInt64 := 25

/-- `c` is what the local of that name holds at first. The two parameters it
gets are the same word, and the second one stays. -/
def solverInit (al : SolverAlloc) (c : Chal) : Int × SolverMem :=
  let slv : SolverMem := { prng := false, sl := none, sp := none }
  let c := { c with size := slExpnums }
  let c := { c with size := spExpsize }
  if al.prng && al.clock then
    let (r, slv) := solverResize al { slv with prng := true } c
    if r = 0 then (0, slv) else (-1, { slv with prng := false })
  else (-1, slv)

/-- The workspace, where a nil pointer stands for an empty one. -/
def spMem (sp : Option ShortpathMem) : ShortpathMem := sp.getD .cleared

/-- The three buffers hold `n` entries. -/
structure ShortpathMem.Holds (sp : ShortpathMem) (n : Nat) : Prop where
  grid : n ≤ sp.grid
  sol : n ≤ sp.sol
  cells : n * cellSize ≤ sp.cells

/-- The buffers hold what `max` tells. -/
def ShortpathMem.Sound (sp : ShortpathMem) : Prop := sp.Holds (sp.max.toNat * sp.max.toNat)

/-- However the allocator answers, a grid of the size that was granted fits, and
a refusal leaves the workspace as good as it was. -/
def ResizeSound (sp : Option ShortpathMem) (size : UInt64) : Prop :=
  ∀ al r sp', shortpathResize al sp size = (r, sp') →
    r = 0 ∧ (spMem sp').Holds (size.toNat * size.toNat) ∨
      r = -1 ∧ (spMem sp').max = (spMem sp).max ∧ (spMem sp').Sound

section Shortpath
variable {al : ShortpathAlloc} {sp : ShortpathMem} {size : UInt64}

theorem ShortpathMem.Holds.mono (h : sp.Holds n) (hm : m ≤ n) : sp.Holds m := by
  refine ⟨Nat.le_trans hm h.grid, Nat.le_trans hm h.sol, ?_⟩
  exact Nat.le_trans (Nat.mul_le_mul_right cellSize hm) h.cells

theorem cleared_sound : ShortpathMem.cleared.Sound :=
  ⟨Nat.le_refl 0, Nat.le_refl 0, Nat.le_refl 0⟩

/-- What growing leaves: all the three blocks, or those that were there and some new ones. -/
theorem shortpathGrow_spec (al : ShortpathAlloc) (sp : ShortpathMem) (size : UInt64) :
    (∃ m, shortpathGrow al sp size = (0, m) ∧ m.max = size ∧ m.Holds (size * size).toNat ∧
      m.grid < 2 ^ 64 ∧ m.cells < 2 ^ 64) ∨
    ∃ m, shortpathGrow al sp size = (-1, m) ∧ m.max = sp.max ∧
      ∀ n, n ≤ (size * size).toNat → sp.Holds n → m.Holds n := by
  cases hg : reallocarray al.grid (size * size).toNat 1 with
  | none =>
    have hrun : shortpathGrow al sp size = (-1, sp) := by simp only [shortpathGrow, hg]
    exact Or.inr ⟨sp, hrun, rfl, fun _ _ h => h⟩
  | some g =>
    obtain ⟨hgrid, hgrid'⟩ := reallocarray_some hg
    rw [Nat.mul_one] at hgrid
    cases hs : reallocarray al.sol (size * size).toNat 1 with
    | none =>
      have hrun : shortpathGrow al sp size = (-1, { sp with grid := g }) := by
        simp only [shortpathGrow, hg, hs]
      refine Or.inr ⟨_, hrun, rfl, fun n hn h => ?_⟩
      exact ⟨Nat.le_trans hn hgrid, h.sol, h.cells⟩
    | some o =>
      obtain ⟨hsol, -⟩ := reallocarray_some hs
      rw [Nat.mul_one] at hsol
      cases hc : reallocarray al.cells (size * size).toNat cellSize with
      | none =>
        have hrun : shortpathGrow al sp size = (-1, { sp with grid := g, sol := o }) := by
          simp only [shortpathGrow, hg, hs, hc]
        refine Or.inr ⟨_, hrun, rfl, fun n hn h => ?_⟩
        exact ⟨Nat.le_trans hn hgrid, Nat.le_trans hn hsol, h.cells⟩
      | some c =>
        obtain ⟨hcells, hcells'⟩ := reallocarray_some hc
        have hrun : shortpathGrow al sp size =
            (0, { max := size, grid := g, sol := o, cells := c }) := by
          simp only [shortpathGrow, hg, hs, hc]
        exact Or.inl ⟨_, hrun, rfl, ⟨hgrid, hsol, hcells⟩, hgrid', hcells'⟩

/-- Where there is no workspace and none to be had, there is none after it. -/
theorem shortpathResize_cases (al : ShortpathAlloc) (sp : Option ShortpathMem) (size : UInt64) :
    sp = none ∧ al.calloc = false ∧ shortpathResize al sp size = (-1, none) ∨
      shortpathResize al sp size = if size ≤ (spMem sp).max then (0, some (spMem sp))
        else ((shortpathGrow al (spMem sp) size).1, some (shortpathGrow al (spMem sp) size).2) := by
  cases sp with
  | none =>
    cases hok : al.calloc with
    | false => exact Or.inl ⟨rfl, rfl, by simp [shortpathResize, orCalloc, hok]⟩
    | true =>
      refine Or.inr ?_
      simp only [shortpathResize, orCalloc, hok, if_true]
      rfl
  | some sp => exact Or.inr rfl

/-- The allocator that gives all that is asked for. -/
def ShortpathAlloc.exact : ShortpathAlloc :=
  { calloc := true, grid := .exact, sol := .exact, cells := .exact }

theorem exact_give (h : n * m < 2 ^ 64) : reallocarray .exact n m = some (n * m) := by
  rw [reallocarray_eq, if_neg (not_le.mpr h)]
  exact if_pos h

theorem exact_one (size : UInt64) :
    reallocarray .exact (size * size).toNat 1 = some (size * size).toNat := by
  have hlt := (size * size).toNat_lt
  rw [exact_give (by omega), Nat.mul_one]

theorem grow_exact_grants (sp : ShortpathMem) (h : (size * size).toNat * cellSize < 2 ^ 64) :
    shortpathGrow .exact sp size =
      (0, { max := size, grid := (size * size).toNat, sol := (size * size).toNat,
            cells := (size * size).toNat * cellSize }) := by
  simp only [shortpathGrow, ShortpathAlloc.exact, exact_one, exact_give h]

theorem grow_exact_fails (sp : ShortpathMem) (h : 2 ^ 64 ≤ (size * size).toNat * cellSize) :
    shortpathGrow .exact sp size =
      (-1, { sp with grid := (size * size).toNat, sol := (size * size).toNat }) := by
  have hcells : reallocarray .exact (size * size).toNat cellSize = none := by
    rw [reallocarray_eq, if_pos h]
  simp only [shortpathGrow, ShortpathAlloc.exact, exact_one, hcells]

theorem square_small (h : size.toNat < 2 ^ 32) :
    (size * size).toNat = size.toNat * size.toNat := by
  have hle : size.toNat * size.toNat ≤ (2 ^ 32 - 1) * (2 ^ 32 - 1) :=
    Nat.mul_le_mul (by omega) (by omega)
  rw [UInt64.toNat_mul]
  exact Nat.mod_eq_of_lt (by omega)

/-- Where a grid is granted the buffers hold it, and where it is refused they hold
what they held before. -/
theorem shortpathGrow_sound (hsp : sp.Sound) (hlt : sp.max.toNat ≤ size.toNat)
    (hcond : size.toNat < 2 ^ 32 ∨ 2 ^ 64 ≤ (size * size).toNat * cellSize ∧
      sp.max.toNat * sp.max.toNat ≤ (size * size).toNat) (al : ShortpathAlloc) :
    ∃ r m, shortpathGrow al sp size = (r, m) ∧
      (r = 0 ∧ m.Holds (size.toNat * size.toNat) ∨ r = -1 ∧ m.max = sp.max ∧ m.Sound) := by
  have hmul := Nat.mul_le_mul hlt hlt
  rcases shortpathGrow_spec al sp size with ⟨m, hgrow, -, hholds, -, hcells⟩ |
    ⟨m, hgrow, hmax, hkeep⟩
  · have hc := hholds.cells
    refine ⟨0, m, hgrow, Or.inl ⟨rfl, ?_⟩⟩
    rcases hcond with h | ⟨h, -⟩
    · rwa [square_small h] at hholds
    · omega
  · have hroom : sp.max.toNat * sp.max.toNat ≤ (size * size).toNat := by
      rcases hcond with h | ⟨-, h⟩
      · rwa [square_small h]
      · exact h
    refine ⟨-1, m, hgrow, Or.inr ⟨rfl, hmax, ?_⟩⟩
    rw [ShortpathMem.Sound, hmax]
    exact hkeep _ hroom hsp

/-- With the allocator that gives what it is asked for, a product that wraps is too
small for the grid, or for what was there before. -/
theorem exact_sound {sp : Option ShortpathMem} (h : ResizeSound sp size)
    (hle : ¬ size ≤ (spMem sp).max) (hwide : ¬ size.toNat < 2 ^ 32) :
    2 ^ 64 ≤ (size * size).toNat * cellSize ∧
      (spMem sp).max.toNat * (spMem sp).max.toNat ≤ (size * size).toNat := by
  have hgs : (size * size).toNat = size.toNat * size.toNat % 2 ^ 64 := UInt64.toNat_mul ..
  have hmul : 2 ^ 32 * 2 ^ 32 ≤ size.toNat * size.toNat :=
    Nat.mul_le_mul (not_lt.mp hwide) (not_lt.mp hwide)
  rcases shortpathResize_cases .exact sp size with ⟨-, hok, -⟩ | hrun
  · cases hok
  rw [if_neg hle] at hrun
  by_cases hbig : 2 ^ 64 ≤ (size * size).toNat * cellSize
  · rw [grow_exact_fails _ hbig] at hrun
    rcases h _ _ _ hrun with ⟨h0, -⟩ | ⟨-, -, hsound⟩
    · cases h0
    · exact ⟨hbig, hsound.grid⟩
  · rw [grow_exact_grants _ (not_le.mp hbig)] at hrun
    rcases h _ _ _ hrun with ⟨-, hholds⟩ | ⟨h0, -⟩
    · have hgrid : size.toNat * size.toNat ≤ (size * size).toNat := hholds.grid
      omega
    · cases h0

/-- The sizes are multiplied before `reallocarray` sees them. From 2^32 on the
product wraps, and grids that are too small are granted, unless the cells that
are asked for take too many bytes; then the blocks must not have shrunk. -/
theorem resize_sound_iff (sp : Option ShortpathMem) (size : UInt64) (hsp : (spMem sp).Sound) :
    ResizeSound sp size ↔ size ≤ (spMem sp).max ∨ size.toNat < 2 ^ 32 ∨
      2 ^ 64 ≤ (size * size).toNat * cellSize ∧
        (spMem sp).max.toNat * (spMem sp).max.toNat ≤ (size * size).toNat := by
  constructor
  · intro hall
    by_cases hle : size ≤ (spMem sp).max
    · exact Or.inl hle
    by_cases hsmall : size.toNat < 2 ^ 32
    · exact Or.inr (Or.inl hsmall)
    · exact Or.inr (Or.inr (exact_sound hall hle hsmall))
  · intro hcond al r sp' hrun
    rcases shortpathResize_cases al sp size with ⟨rfl, -, hrun'⟩ | hrun'
    · obtain ⟨rfl, rfl⟩ := Prod.mk.inj (hrun.symm.trans hrun')
      exact Or.inr ⟨rfl, rfl, cleared_sound⟩
    · rw [hrun'] at hrun
      by_cases hle : size ≤ (spMem sp).max
      · rw [if_pos hle] at hrun
        obtain ⟨rfl, rfl⟩ := Prod.mk.inj hrun
        exact Or.inl ⟨rfl, hsp.mono (Nat.mul_le_mul hle hle)⟩
      · rw [if_neg hle] at hrun
        have hlt : (spMem sp).max.toNat ≤ size.toNat := Nat.le_of_lt (UInt64.not_le.mp hle)
        obtain ⟨r', m, hgrow, hm⟩ := shortpathGrow_sound hsp hlt (hcond.resolve_left hle) al
        rw [hgrow] at hrun
        obtain ⟨rfl, rfl⟩ := Prod.mk.inj hrun
        exact hm

end Shortpath

/-- The two arrays hold `max` elements, and the string has room for as many and a NUL. -/
structure SortlistMem.Sound (sl : SortlistMem) : Prop where
  nums : sl.max.toNat * 8 ≤ sl.nums
  str : sl.max.toNat * u64strlen + 1 ≤ sl.str
  mtmp : sl.max.toNat * 8 ≤ sl.mtmp

/-- Whatever the elements are, their string and its NUL fit in `str`. -/
def SortlistMem.Fits (sl : SortlistMem) (nelems : UInt64) : Prop :=
  ∀ buf dst, (mku64str buf nelems.toNat dst).2 + 1 ≤ sl.str ∧
    ∀ i, sl.str ≤ i → (mku64str buf nelems.toNat dst).1 i = dst i

/-- A call of `sortlist_resize`, as a step. -/
def resizeStep (sl : Option SortlistMem) (call : UInt64 × SortlistAlloc) :
    Option (Option SortlistMem) :=
  some (sortlistResize call.2 sl call.1).2

section Sortlist
variable {al : SortlistAlloc} {sl : SortlistMem} {nelems : UInt64}

theorem SortlistMem.Sound.fits (h : sl.Sound) (hle : nelems ≤ sl.max) : sl.Fits nelems := by
  intro buf dst
  have hlen := written_length_le buf nelems.toNat
  have hstr := h.str
  have hle' : nelems.toNat ≤ sl.max.toNat := hle
  have hroom : (written buf nelems.toNat).length + 1 ≤ sl.str := by
    rw [u64strlen] at hstr
    omega
  rw [mku64str_spec]
  refine ⟨hroom, fun i hi => store_out dst _ ?_⟩
  right
  simp
  omega

/-- The sum for the NUL only wraps where the elements are too many already. -/
theorem succ_small (h : nelems.toNat * 8 < 2 ^ 64) : (nelems + 1).toNat = nelems.toNat + 1 := by
  rw [UInt64.toNat_add]
  exact Nat.mod_eq_of_lt (by simp; omega)

theorem sortlistGrow_spec (al : SortlistAlloc) (sl : SortlistMem) (nelems : UInt64) :
    (∃ m, sortlistGrow al sl nelems = (0, m) ∧ m.max = nelems ∧ m.Sound) ∨
    ∃ m, sortlistGrow al sl nelems = (-1, m) ∧ m.max = sl.max ∧
      (sl.Sound → sl.max ≤ nelems → m.Sound) := by
  cases hn : reallocarray al.nums nelems.toNat 8 with
  | none =>
    have hrun : sortlistGrow al sl nelems = (-1, sl) := by simp only [sortlistGrow, hn]
    exact Or.inr ⟨sl, hrun, rfl, fun h _ => h⟩
  | some n =>
    obtain ⟨hnums, hnums'⟩ := reallocarray_some hn
    have hsucc := succ_small (Nat.lt_of_le_of_lt hnums hnums')
    cases hs : reallocarray al.str (nelems + 1).toNat u64strlen with
    | none =>
      have hrun : sortlistGrow al sl nelems = (-1, { sl with nums := n }) := by
        simp only [sortlistGrow, hn, hs]
      refine Or.inr ⟨_, hrun, rfl, fun h hle => ⟨?_, h.str, h.mtmp⟩⟩
      exact Nat.le_trans (Nat.mul_le_mul_right 8 hle) hnums
    | some t =>
      obtain ⟨hstr, -⟩ := reallocarray_some hs
      rw [hsucc, Nat.succ_mul] at hstr
      have hroom : nelems.toNat * u64strlen + 1 ≤ t := by
        rw [u64strlen] at hstr ⊢
        omega
      cases hm : reallocarray al.mtmp nelems.toNat 8 with
      | none =>
        have hrun : sortlistGrow al sl nelems = (-1, { sl with nums := n, str := t }) := by
          simp only [sortlistGrow, hn, hs, hm]
        refine Or.inr ⟨_, hrun, rfl, fun h hle => ⟨?_, ?_, h.mtmp⟩⟩
        · exact Nat.le_trans (Nat.mul_le_mul_right 8 hle) hnums
        · have hmul := Nat.mul_le_mul_right u64strlen (UInt64.le_iff_toNat_le.mp hle)
          exact Nat.le_trans (Nat.succ_le_succ hmul) hroom
      | some b =>
        obtain ⟨hmtmp, -⟩ := reallocarray_some hm
        have hrun : sortlistGrow al sl nelems =
            (0, { max := nelems, nums := n, str := t, mtmp := b }) := by
          simp only [sortlistGrow, hn, hs, hm]
        exact Or.inl ⟨_, hrun, rfl, hnums, hroom, hmtmp⟩

/-- What one call does to a workspace. -/
theorem sortlistResize_spec (al : SortlistAlloc) (h : sl.Sound) (nelems : UInt64) :
    ∃ r m, sortlistResize al (some sl) nelems = (r, some m) ∧ m.Sound ∧
      (r ≠ 0 → m.max = sl.max) ∧ (r = 0 → nelems ≤ m.max) := by
  by_cases hle : nelems ≤ sl.max
  · refine ⟨0, sl, by simp [sortlistResize, orCalloc, hle], h, fun _ => rfl, fun _ => hle⟩
  · have hlt : sl.max ≤ nelems := UInt64.le_of_lt (UInt64.not_le.mp hle)
    rcases sortlistGrow_spec al sl nelems with ⟨m, hgrow, hmax, hsound⟩ | ⟨m, hgrow, hmax, hsound⟩
    · have hrun : sortlistResize al (some sl) nelems = (0, some m) := by
        simp [sortlistResize, orCalloc, hle, hgrow]
      exact ⟨0, m, hrun, hsound, fun h0 => absurd rfl h0, fun _ => UInt64.le_of_eq hmax.symm⟩
    · have hrun : sortlistResize al (some sl) nelems = (-1, some m) := by
        simp [sortlistResize, orCalloc, hle, hgrow]
      exact ⟨-1, m, hrun, hsound h hlt, fun _ => hmax, fun h0 => by cases h0⟩

theorem solverResize_sl {al : SolverAlloc} (h : solverResize al slv chl = (0, slv')) :
    sortlistResize al.sl slv.sl chl.size = (0, slv'.sl) := by
  rw [solverResize] at h
  cases hsl : sortlistResize al.sl slv.sl chl.size with
  | mk r sl =>
    rw [hsl] at h
    dsimp only at h
    by_cases hr : r = 0
    · rw [if_neg (not_not.mpr hr)] at h
      obtain ⟨-, rfl⟩ := Prod.mk.inj h
      rw [hr]
    · rw [if_pos hr] at h
      cases congrArg Prod.fst h

/-- A solver starts with a workspace for the dummy challenge. -/
theorem solverInit_sound {al : SolverAlloc} (h : solverInit al c = (0, slv)) :
    ∃ m, slv.sl = some m ∧ m.Sound := by
  have hsl : sortlistResize al.sl none spExpsize = (0, slv.sl) := by
    rw [solverInit] at h
    split at h
    · dsimp only at h
      split at h
      · next hr =>
        obtain ⟨-, rfl⟩ := Prod.mk.inj h
        exact solverResize_sl (Prod.ext hr rfl)
      · cases congrArg Prod.fst h
    · cases congrArg Prod.fst h
  rw [sortlistResize] at hsl
  split at hsl
  · cases congrArg Prod.fst hsl
  · next sl hsome =>
    have hcleared : sl = .cleared := by
      rw [orCalloc] at hsome
      split at hsome
      · exact (Option.some.inj hsome).symm
      · cases hsome
    rw [if_neg (by rw [hcleared]; decide)] at hsl
    rcases sortlistGrow_spec al.sl sl spExpsize with ⟨m, hgrow, -, hsound⟩ | ⟨m, hgrow, -⟩
    · rw [hgrow] at hsl
      exact ⟨m, (congrArg Prod.snd hsl).symm, hsound⟩
    · rw [hgrow] at hsl
      cases congrArg Prod.fst hsl

/-- In every run of calls the buffers keep to `max`. -/
theorem sortlist_room {al : SolverAlloc} (hinit : solverInit al c = (0, slv))
    (hrun : exec resizeStep slv.sl calls = some ws) :
    ∃ m, ws = some m ∧ m.Sound ∧
      ∀ al nelems r ws', sortlistResize al ws nelems = (r, ws') →
        ∃ m', ws' = some m' ∧ m'.Sound ∧ (r ≠ 0 → m'.max = m.max) ∧ (r = 0 → m'.Fits nelems) := by
  have hall : ∃ m, ws = some m ∧ m.Sound := by
    apply exec_inv (fun ws => ∃ m, ws = some m ∧ m.Sound) (fun _ => True) _
      (solverInit_sound hinit) (fun _ _ => trivial) hrun
    rintro _ ⟨nelems, al⟩ t ⟨m, rfl, hm⟩ - hstep
    obtain ⟨r, m', hresize, hm', -⟩ := sortlistResize_spec al hm nelems
    rw [resizeStep, hresize] at hstep
    exact ⟨m', (Option.some.inj hstep).symm, hm'⟩
  obtain ⟨m, rfl, hm⟩ := hall
  refine ⟨m, rfl, hm, fun al nelems r ws' hresize => ?_⟩
  obtain ⟨r', m', hresize', hm', hfail, hgrant⟩ := sortlistResize_spec al hm nelems
  obtain ⟨rfl, rfl⟩ := Prod.mk.inj (hresize.symm.trans hresize')
  exact ⟨m', rfl, hm', hfail, fun h0 => hm'.fits (hgrant h0)⟩

end Sortlist

def SolverAlloc.exact : SolverAlloc where
  prng := true
  clock := true
  sl := { calloc := true, nums := .exact, str := .exact, mtmp := .exact }
  sp := .exact

/-- A challenge with all its fields zero. -/
def blankChal : Chal :=
  { type := 0, lhash := fun _ => 0, left := 0, id := 0, pfix := fun _ => 0, plen := 0, size := 0
    nblks := 0 }

/-- A list of 30 elements after one that cannot be had. -/
theorem sortlist_room_thirty :
    ∃ m, some { max := 30, nums := 240, str := 620, mtmp := 240 : SortlistMem } = some m ∧
      m.Sound ∧ ∀ al nelems r ws',
        sortlistResize al (some { max := 30, nums := 240, str := 620, mtmp := 240 }) nelems =
          (r, ws') →
        ∃ m', ws' = some m' ∧ m'.Sound ∧ (r ≠ 0 → m'.max = m.max) ∧ (r = 0 → m'.Fits nelems) :=
  sortlist_room
    (show solverInit .exact blankChal = (0, (solverInit .exact blankChal).2) from
      Prod.ext (by decide +kernel) rfl)
    (show exec resizeStep _ [(2 ^ 64 - 1, SolverAlloc.exact.sl), (30, SolverAlloc.exact.sl)] = _ by
      decide +kernel)

/-- The workspace for grids of the expected size. -/
def expected : ShortpathMem := { max := 25, grid := 625, sol := 625, cells := 25000 }

theorem expected_sound : expected.Sound := ⟨by decide, by decide, by decide⟩

theorem resize_sound_wider :
    ResizeSound (some expected) 26 ↔ (26 : UInt64) ≤ 25 ∨ (26 : UInt64).toNat < 2 ^ 32 ∨
      2 ^ 64 ≤ ((26 : UInt64) * 26).toNat * cellSize ∧
        (25 : UInt64).toNat * (25 : UInt64).toNat ≤ ((26 : UInt64) * 26).toNat :=
  resize_sound_iff (some expected) 26 expected_sound

/-- A grid of size -1 is granted, in a block of one byte. -/
theorem resize_minus_one :
    ¬ ResizeSound (some expected) (.ofInt (strtol (bytes "-1"))) ∧
      shortpathResize .exact (some expected) (.ofInt (strtol (bytes "-1"))) =
        (0, some { max := .ofInt (-1), grid := 1, sol := 1, cells := 40 }) := by
  have hrun : shortpathResize .exact (some expected) (.ofInt (strtol (bytes "-1"))) =
      (0, some { max := .ofInt (-1), grid := 1, sol := 1, cells := 40 }) := by decide +kernel
  refine ⟨fun h => ?_, hrun⟩
  rcases h _ _ _ hrun with ⟨-, hholds⟩ | ⟨h0, -⟩
  · exact absurd hholds.grid (by decide)
  · cases h0

end Oin17.Chals
