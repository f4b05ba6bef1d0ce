import Oin17.Chals.Solver.Paths
import Oin17.Lib.Run

namespace Oin17.Chals.Solvers
open Crypto Function Memory Run Sortlist Utils

/-- The text that is asked for with a nonce: the numbers of its seed in order, or the canonical
path of the grid that they draw. -/
inductive Answer (sha256 : List UInt8 → Buf) (chl : Chal) (non : UInt64) : List UInt8 → Prop
  | list (ht : chl.type = chalSort ∨ chl.type = chalRsort) :
    Answer sha256 chl non (listText chl.type
      ((List.range chl.size.toNat).map (number (seedOf sha256 chl non))))
  | path (ht : chl.type = chalSpath)
    (hd : Drawn (number (seedOf sha256 chl non)) chl.size.toNat chl.nblks.toNat mz)
    (hp : Canonical mz path) : Answer sha256 chl non (solution mz.size path)

/-- The digest of the text begins with the prefix. -/
def Solves (sha256 : List UInt8 → Buf) (chl : Chal) (non : UInt64) : Prop :=
  ∃ text, Answer sha256 chl non text ∧ accepts (sha256 text) chl.pfix chl.plen = true

/-- A solver that `solver_init` has made, with anything in its buffers. -/
structure Fresh (slv : Solver) : Prop where
  made : ∃ al c, solverInit al c = (0, slv.mem)
  range : slv.nmin < slv.nmax

theorem chal_types {chl : Chal} (h : chl.type = chalSpath) :
    ¬ (chl.type = chalSort ∨ chl.type = chalRsort) := by
  rw [h]
  decide

theorem solves_list {chl : Chal} (ht : chl.type = chalSort ∨ chl.type = chalRsort) :
    Solves sha256 chl non ↔ accepts (sha256 (listText chl.type
      ((List.range chl.size.toNat).map (number (seedOf sha256 chl non))))) chl.pfix chl.plen := by
  constructor
  · rintro ⟨_, ⟨-⟩ | ⟨hs⟩, hacc⟩
    · exact hacc
    · exact absurd ht (chal_types hs)
  · intro hacc
    exact ⟨_, .list ht, hacc⟩

theorem solves_path {chl : Chal} (ht : chl.type = chalSpath)
    (hd : Drawn (number (seedOf sha256 chl non)) chl.size.toNat chl.nblks.toNat mz) :
    Solves sha256 chl non ↔ ∃ path, Canonical mz path ∧
      accepts (sha256 (solution mz.size path)) chl.pfix chl.plen := by
  constructor
  · rintro ⟨_, ⟨hl⟩ | ⟨-, hd', hp⟩, hacc⟩
    · exact absurd hl (chal_types ht)
    · obtain rfl := hd.unique hd'
      exact ⟨_, hp, hacc⟩
  · rintro ⟨path, hp, hacc⟩
    exact ⟨_, .path ht hd hp, hacc⟩

section Steps
variable {ι : Type} [DecidableEq ι]
variable {sha256 : List UInt8 → Buf} {qsort : Qsort} {build : Build}

/-- A solve changes the buffers of its solver and nothing else about it. -/
theorem sortlist_same {w w' : Prngs ι} {slv slv' : Solver}
    (h : sortlist sha256 qsort build fuel chl lh mtmp slv i w = some (r, slv', w')) :
    slv.Same slv' := by
  obtain ⟨m, -, h⟩ := Option.bind_eq_some_iff.mp h
  obtain ⟨w₁, -, h⟩ := Option.bind_eq_some_iff.mp h
  obtain ⟨-, -, h⟩ := Option.bind_eq_some_iff.mp h
  obtain ⟨-, -, h⟩ := Option.bind_eq_some_iff.mp h
  obtain ⟨nums, -, h⟩ := Option.bind_eq_some_iff.mp h
  obtain ⟨-, -, h⟩ := Option.bind_eq_some_iff.mp h
  obtain ⟨r₁, -, h⟩ := Option.bind_eq_some_iff.mp h
  obtain ⟨-, hrest⟩ := Prod.mk.inj (Option.some.inj h)
  obtain ⟨rfl, -⟩ := Prod.mk.inj hrest
  exact ⟨rfl, rfl, rfl, rfl⟩

theorem shortpath_same {w w' : Prngs ι} {slv slv' : Solver}
    (h : shortpath sha256 fuel chl lh slv i w = some (r, slv', w')) : slv.Same slv' := by
  obtain ⟨m, -, h⟩ := Option.bind_eq_some_iff.mp h
  obtain ⟨w₁, -, h⟩ := Option.bind_eq_some_iff.mp h
  obtain ⟨⟨sp, w₂⟩, -, h⟩ := Option.bind_eq_some_iff.mp h
  obtain ⟨⟨l, sp'⟩, -, h⟩ := Option.bind_eq_some_iff.mp h
  dsimp only at h
  split at h
  · obtain ⟨-, hrest⟩ := Prod.mk.inj (Option.some.inj h)
    obtain ⟨rfl, -⟩ := Prod.mk.inj hrest
    exact ⟨rfl, rfl, rfl, rfl⟩
  · obtain ⟨text, -, h⟩ := Option.bind_eq_some_iff.mp h
    obtain ⟨r₁, -, h⟩ := Option.bind_eq_some_iff.mp h
    obtain ⟨-, hrest⟩ := Prod.mk.inj (Option.some.inj h)
    obtain ⟨rfl, -⟩ := Prod.mk.inj hrest
    exact ⟨rfl, rfl, rfl, rfl⟩

theorem solve_same {w w' : Prngs ι} {slv slv' : Solver}
    (h : solve sha256 qsort build fuel chl lh mtmp slv i w = some (r, slv', w')) :
    slv.Same slv' := by
  rw [solve] at h
  split at h
  · exact sortlist_same h
  · split at h
    · exact shortpath_same h
    · cases h

/-- `P` holds of a solver whenever it is made or resized, and `Q` from its nonce on, for challenges
with `G`. -/
structure Kept (G : Chal → Prop) (P : ι → Solver → Prop) (Q : Chal → Solver → Prop) : Prop where
  same : slv.Same slv' → P i slv → P i slv'
  busy : slv.Same slv' → Q chl slv → Q chl slv'
  resize : G chl → P i slv → solverResize al slv.mem chl = (r, mem) →
    P i { slv with mem := mem } ∧ (r = 0 → ∀ sn,
      P i { slv with mem := mem, nonce := (getnonce sn slv.nmin slv.nmax).1 } ∧
      Q chl { slv with mem := mem, nonce := (getnonce sn slv.nmin slv.nmax).1 })

structure Held (G : Chal → Prop) (P : ι → Solver → Prop) (Q : Chal → Solver → Prop)
    (s : State ι) : Prop where
  chl : G s.chl
  solver : ∀ i, P i (s.slv i)
  busy : ∀ i, s.busy i = true → Q s.chl (s.slv i)

/-- The challenges that come have `G`. -/
def Act.Asks (G : Chal → Prop) : Act ι → Prop
  | .newchal chl => G chl
  | _ => True

variable {G : Chal → Prop} {P : ι → Solver → Prop} {Q : Chal → Solver → Prop} {s s' : State ι}

theorem begin_held (hk : Kept G P Q) (h : Held G P Q s) (hidle : s.busy i = false)
    (al : SolverAlloc) : Held G P Q (s.begin i al) := by
  rw [State.begin]
  cases hres : solverResize al (s.slv i).mem s.chl with
  | mk r mem =>
    obtain ⟨hsolver, hbusy⟩ := hk.resize h.chl (h.solver i) hres
    dsimp only
    by_cases hr : r = 0
    · obtain ⟨hs, hb⟩ := hbusy hr s.sn
      rw [if_neg (not_not.mpr hr)]
      refine ⟨h.chl, fun j => ?_, fun j hj => ?_⟩
      · by_cases hji : j = i
        · subst hji
          simpa using hs
        · simpa [hji] using h.solver j
      · by_cases hji : j = i
        · subst hji
          simpa using hb
        · simp only [update_of_ne hji] at hj ⊢
          exact h.busy j hj
    · rw [if_pos hr]
      refine ⟨h.chl, fun j => ?_, fun j hj => ?_⟩
      · by_cases hji : j = i
        · subst hji
          simpa using hsolver
        · simpa [hji] using h.solver j
      · have hji : j ≠ i := fun he => by
          rw [he] at hj
          exact absurd (hidle.symm.trans hj) (by decide)
        simpa [hji] using h.busy j hj

theorem finish_held (hk : Kept G P Q) (h : Held G P Q s) (hsame : (s.slv i).Same slv)
    (w : Prngs ι) : Held G P Q
      { s with prngs := w, slv := update s.slv i slv, busy := update s.busy i false } := by
  refine ⟨h.chl, fun j => ?_, fun j hj => ?_⟩
  · by_cases hji : j = i
    · subst hji
      simpa using hk.same hsame (h.solver j)
    · simpa [hji] using h.solver j
  · by_cases hji : j = i
    · subst hji
      simp at hj
    · simp only [update_of_ne hji] at hj ⊢
      exact h.busy j hj

variable [Fintype ι]

theorem step_held (hk : Kept G P Q) (h : Held G P Q s) (ha : a.Asks G)
    (hs : step sha256 qsort build s a = some s') : Held G P Q s' := by
  cases a with
  | newchal chl =>
    rw [step] at hs
    split at hs
    · next hidle =>
      obtain rfl := Option.some.inj hs
      exact ⟨ha, h.solver, fun j hj => absurd ((hidle j).symm.trans hj) (by decide)⟩
    · cases hs
  | «begin» i al =>
    rw [step] at hs
    split at hs
    · cases hs
    · next hidle =>
      obtain rfl := Option.some.inj hs
      exact begin_held hk h (Bool.eq_false_iff.mpr hidle) al
  | finish i fuel lh mtmp =>
    rw [step] at hs
    split at hs
    · next hbusy =>
      obtain ⟨⟨r, slv, w⟩, hsolve, rfl⟩ := Option.map_eq_some_iff.mp hs
      exact finish_held hk h (solve_same hsolve) w
    · cases hs

theorem run_held (hk : Kept G P Q) (h : Held G P Q s) (ha : ∀ a ∈ acts, a.Asks G)
    (hrun : exec (step sha256 qsort build) s acts = some s') : Held G P Q s' :=
  exec_inv (Held G P Q) (Act.Asks G) (fun _ _ _ h ha hs => step_held hk h ha hs) h ha hrun

end Steps

section Resizing
variable {slv slv' : SolverMem} {al : SolverAlloc}

theorem solverResize_parts (h : solverResize al slv chl = (r, slv')) :
    ∃ r₁, sortlistResize al.sl slv.sl chl.size = (r₁, slv'.sl) ∧
      (r ≠ 0 ∧ slv'.sp = slv.sp ∨ r₁ = 0 ∧ ∃ r₂,
        shortpathResize al.sp slv.sp chl.size = (r₂, slv'.sp) ∧ (r = 0 → r₂ = 0)) := by
  rw [solverResize] at h
  cases hsl : sortlistResize al.sl slv.sl chl.size with
  | mk r₁ sl =>
    rw [hsl] at h
    dsimp only at h
    split at h
    · obtain ⟨rfl, rfl⟩ := Prod.mk.inj h
      exact ⟨r₁, rfl, Or.inl ⟨by decide, rfl⟩⟩
    · next h₁ =>
      cases hsp : shortpathResize al.sp slv.sp chl.size with
      | mk r₂ sp =>
        rw [hsp] at h
        obtain ⟨rfl, rfl⟩ := Prod.mk.inj h
        refine ⟨r₁, rfl, Or.inr ⟨not_not.mp h₁, r₂, rfl, fun hr => ?_⟩⟩
        by_contra h₂
        rw [if_pos h₂] at hr
        cases hr

/-- What one call does to the workspace of a grid. -/
theorem shortpathResize_spec (al : ShortpathAlloc) {ws : Option ShortpathMem}
    (h : (spMem ws).Sound) (hs : size.toNat < 2 ^ 32)
    (hrun : shortpathResize al ws size = (r, ws')) : (spMem ws').Sound ∧
      (r = 0 → ∃ m, ws' = some m ∧ m.Holds (size.toNat * size.toNat)) := by
  rcases shortpathResize_cases al ws size with ⟨rfl, -, hcase⟩ | hcase
  · obtain ⟨rfl, rfl⟩ := Prod.mk.inj (hrun.symm.trans hcase)
    exact ⟨h, fun h0 => by cases h0⟩
  · rw [hcase] at hrun
    by_cases hle : size ≤ (spMem ws).max
    · rw [if_pos hle] at hrun
      obtain ⟨rfl, rfl⟩ := Prod.mk.inj hrun
      exact ⟨h, fun _ => ⟨_, rfl, h.mono (Nat.mul_le_mul hle hle)⟩⟩
    · rw [if_neg hle] at hrun
      obtain ⟨rfl, rfl⟩ := Prod.mk.inj hrun
      have hlt : (spMem ws).max.toNat ≤ size.toNat := Nat.le_of_lt (UInt64.not_le.mp hle)
      rcases shortpathGrow_spec al (spMem ws) size with ⟨m, hgrow, hmax, hholds, -⟩ |
        ⟨m, hgrow, hmax, hkeep⟩
      · rw [square_small hs] at hholds
        rw [hgrow]
        refine ⟨?_, fun _ => ⟨m, rfl, hholds⟩⟩
        change m.Holds (m.max.toNat * m.max.toNat)
        rwa [hmax]
      · rw [hgrow]
        refine ⟨?_, fun h0 => by cases h0⟩
        change m.Holds (m.max.toNat * m.max.toNat)
        rw [hmax]
        apply hkeep _ _ h
        rw [square_small hs]
        exact Nat.mul_le_mul hlt hlt

theorem solverInit_room (h : solverInit al c = (0, slv)) : (spMem slv.sp).Sound := by
  rw [solverInit] at h
  split at h
  · dsimp only at h
    split at h
    · next hr =>
      obtain ⟨-, rfl⟩ := Prod.mk.inj h
      obtain ⟨r₁, -, ⟨-, hsp⟩ | ⟨-, r₂, hsp, -⟩⟩ := solverResize_parts (Prod.ext hr rfl)
      · rw [hsp]
        exact cleared_sound
      · exact (shortpathResize_spec _ (show (spMem none).Sound from cleared_sound)
          (show spExpsize.toNat < 2 ^ 32 by decide) hsp).1
    · cases congrArg Prod.fst h
  · cases congrArg Prod.fst h

end Resizing

theorem getnonce_range {min max : UInt64} (h : min < max) (sn : UInt64) :
    min ≤ (getnonce sn min max).1 ∧ (getnonce sn min max).1 < max := by
  have hlt : min.toNat < max.toNat := h
  have hmax := max.toNat_lt
  have hwidth : (max - min).toNat = max.toNat - min.toNat :=
    UInt64.toNat_sub_of_le _ _ (Nat.le_of_lt hlt)
  have hmod := Nat.mod_lt (sn + chalNonceinc).toNat (Nat.sub_pos_of_lt hlt)
  have hnonce : (getnonce sn min max).1.toNat =
      (sn + chalNonceinc).toNat % (max.toNat - min.toNat) + min.toNat := by
    rw [getnonce, UInt64.toNat_add, UInt64.toNat_mod, hwidth]
    exact Nat.mod_eq_of_lt (by omega)
  rw [UInt64.le_iff_toNat_le, UInt64.lt_iff_toNat_lt, hnonce]
  omega

/-- The room for a list. -/
def ListRoom (slv : Solver) : Prop := ∃ m, slv.mem.sl = some m ∧ m.Sound

def ListReady (chl : Chal) (slv : Solver) : Prop :=
  ∃ m, slv.mem.sl = some m ∧ m.Sound ∧ chl.size ≤ m.max

/-- The room for a grid. -/
def PathRoom (slv : Solver) : Prop := (spMem slv.mem.sp).Sound

def PathReady (chl : Chal) (slv : Solver) : Prop :=
  ∃ m, slv.mem.sp = some m ∧ m.Holds (chl.size.toNat * chl.size.toNat)

def InRange (slv : Solver) : Prop := slv.nmin ≤ slv.nonce ∧ slv.nonce < slv.nmax

section Kept
variable {ι : Type}

theorem list_kept : Kept (fun _ => True) (fun (_ : ι) => ListRoom) ListReady where
  same h hp := by
    rw [ListRoom, h.mem]
    exact hp
  busy h hq := by
    rw [ListReady, h.mem]
    exact hq
  resize _ hp hres := by
    obtain ⟨m, hm, hsound⟩ := hp
    obtain ⟨r₁, hsl, hparts⟩ := solverResize_parts hres
    obtain ⟨r₂, m', hrun, hsound', -, hmax⟩ := sortlistResize_spec _ hsound _
    rw [hm] at hsl
    obtain ⟨rfl, hm'⟩ := Prod.mk.inj (hrun.symm.trans hsl)
    refine ⟨⟨m', hm'.symm, hsound'⟩, fun hr _ => ⟨⟨m', hm'.symm, hsound'⟩, m', hm'.symm,
      hsound', ?_⟩⟩
    rcases hparts with ⟨hr', -⟩ | ⟨h₁, -⟩
    · exact absurd hr hr'
    · exact hmax h₁

theorem path_kept :
    Kept (fun chl => chl.size.toNat < 2 ^ 32) (fun (_ : ι) => PathRoom) PathReady where
  same h hp := by
    rw [PathRoom, h.mem]
    exact hp
  busy h hq := by
    rw [PathReady, h.mem]
    exact hq
  resize hs hp hres := by
    obtain ⟨r₁, -, ⟨hr, hsp⟩ | ⟨-, r₂, hsp, hr₂⟩⟩ := solverResize_parts hres
    · refine ⟨?_, fun h0 => absurd h0 hr⟩
      rw [PathRoom, hsp]
      exact hp
    · obtain ⟨hsound, hready⟩ := shortpathResize_spec _ hp hs hsp
      exact ⟨hsound, fun hr _ => ⟨hsound, hready (hr₂ hr)⟩⟩

theorem range_kept {s₀ : ι → Solver} (h : ∀ i, (s₀ i).nmin < (s₀ i).nmax) :
    Kept (fun _ => True) (fun i slv => slv.nmin = (s₀ i).nmin ∧ slv.nmax = (s₀ i).nmax)
      fun _ => InRange where
  same hs hp := by rwa [hs.nmin, hs.nmax]
  busy hs hq := by rwa [InRange, hs.nmin, hs.nmax, hs.nonce]
  resize _ hp hres := by
    refine ⟨hp, fun _ sn => ⟨hp, getnonce_range ?_ sn⟩⟩
    rw [hp.1, hp.2]
    exact h _

end Kept

section Solved
variable {ι : Type} [DecidableEq ι] [Fintype ι]
variable {sha256 : List UInt8 → Buf} {qsort : Qsort} {build : Build} {s₀ s : State ι}

/-- What a finished solve reports. -/
theorem finish_spec (hbusy : s.busy i = true)
    (h : s.solve sha256 qsort build i fuel lh mtmp = some (r, slv, w))
    (hsame : (s.slv i).Same slv) :
    (∃ s', step sha256 qsort build s (.finish i fuel lh mtmp) = some s') ∧
      ∀ t, t ∈ s.reports sha256 qsort build (.finish i fuel lh mtmp) ↔
        r = 0 ∧ t = (s.chl.id, (s.slv i).nonce) := by
  constructor
  · rw [step, if_pos hbusy, h]
    exact ⟨_, rfl⟩
  · intro t
    rw [State.reports, h]
    by_cases hr : r = 0
    · subst hr
      simp [hsame.nonce]
    · refine iff_of_false ?_ fun ht => hr ht.1
      split
      · next hsome =>
        obtain ⟨rfl, -⟩ := Prod.mk.inj (Option.some.inj hsome)
        exact absurd rfl hr
      · exact List.not_mem_nil

theorem compare_some {chl : Chal} (d : Buf) (h : chl.plen ≤ sha256Len) :
    ∃ r, compare chl d = some r ∧ (r = 0 ↔ accepts d chl.pfix chl.plen) := by
  rw [compare, if_pos h]
  cases accepts d chl.pfix chl.plen with
  | true => exact ⟨0, rfl, by decide⟩
  | false => exact ⟨-1, rfl, by decide⟩

theorem nonce_in_range (hfresh : ∀ i, Fresh (s₀.slv i)) (hidle : ∀ i, s₀.busy i = false)
    (hrun : exec (step sha256 qsort build) s₀ acts = some s) (hbusy : s.busy i = true) :
    (s₀.slv i).nmin ≤ (s.slv i).nonce ∧ (s.slv i).nonce < (s₀.slv i).nmax := by
  have hrange := run_held (range_kept fun i => (hfresh i).range)
    ⟨trivial, fun i => ⟨rfl, rfl⟩, fun i hi => absurd ((hidle i).symm.trans hi) (by decide)⟩
    (fun a _ => by cases a <;> trivial) hrun
  obtain ⟨hlo, hhi⟩ := hrange.busy i hbusy
  obtain ⟨hmin, hmax⟩ := hrange.solver i
  exact ⟨hmin ▸ hlo, hmax ▸ hhi⟩

/-- In any run a solver of lists ends, within its blocks, and reports its nonce when it solves
the challenge, and only then. -/
theorem lists_solved (hfresh : ∀ i, Fresh (s₀.slv i)) (hidle : ∀ i, s₀.busy i = false)
    (hrun : exec (step sha256 qsort .mergesort) s₀ acts = some s) (hbusy : s.busy i = true)
    (ht : s.chl.type = chalSort ∨ s.chl.type = chalRsort) (hp : s.chl.plen ≤ sha256Len) :
    ((s₀.slv i).nmin ≤ (s.slv i).nonce ∧ (s.slv i).nonce < (s₀.slv i).nmax) ∧
      ∀ fuel lh mtmp,
        (∃ s', step sha256 qsort .mergesort s (.finish i fuel lh mtmp) = some s') ∧
        ∀ t, t ∈ s.reports sha256 qsort .mergesort (.finish i fuel lh mtmp) ↔
          Solves sha256 s.chl (s.slv i).nonce ∧ t = (s.chl.id, (s.slv i).nonce) := by
  have hlists := run_held list_kept ⟨trivial, fun i => by
    obtain ⟨al, c, hinit⟩ := (hfresh i).made
    exact solverInit_sound hinit,
    fun i hi => absurd ((hidle i).symm.trans hi) (by decide)⟩
    (fun a _ => by cases a <;> trivial) hrun
  refine ⟨nonce_in_range hfresh hidle hrun hbusy, fun fuel lh mtmp => ?_⟩
  obtain ⟨m, hm, hsound, hsize⟩ := hlists.busy i hbusy
  have hpasses : s.chl.size.toNat < passes s.chl fuel := by
    rw [passes]
    omega
  obtain ⟨slv, w, hsame, hlist⟩ :=
    sortlist_spec sha256 qsort ht hm hsound hsize hpasses lh mtmp i s.prngs
  obtain ⟨r, hcmp, hr⟩ := compare_some (sha256 (listText s.chl.type
    ((List.range s.chl.size.toNat).map (number (seedOf sha256 s.chl (s.slv i).nonce))))) hp
  rw [hcmp] at hlist
  have hsolve : s.solve sha256 qsort .mergesort i fuel lh mtmp = some (r, slv, w) := by
    rw [State.solve, solve, if_pos ht, hlist]
    rfl
  rw [solves_list ht, ← hr]
  exact finish_spec hbusy hsolve hsame

/-- A grid is solved when the loops that look for a cell have the passes that they need and its
text has the room; every report is then about a nonce that solves the challenge. -/
theorem paths_solved {m : ShortpathMem} (hfresh : ∀ i, Fresh (s₀.slv i))
    (hidle : ∀ i, s₀.busy i = false) (hs₀ : s₀.chl.size.toNat < 2 ^ 32)
    (hacts : ∀ a ∈ acts, a.Asks fun chl => chl.size.toNat < 2 ^ 32)
    (hrun : exec (step sha256 qsort build) s₀ acts = some s) (hbusy : s.busy i = true)
    (ht : s.chl.type = chalSpath) (hp : s.chl.plen ≤ sha256Len)
    (hm : (s.slv i).mem.sp = some m) (hsmall : m.sol < 2 ^ 31) :
    ((s₀.slv i).nmin ≤ (s.slv i).nonce ∧ (s.slv i).nonce < (s₀.slv i).nmax) ∧
    ((∃ mz, Fits sha256 s.chl (s.slv i).nonce m.sol mz) → ∃ fuel₀, ∀ fuel, fuel₀ ≤ fuel →
      ∀ lh mtmp, ∃ s', step sha256 qsort build s (.finish i fuel lh mtmp) = some s') ∧
    ∀ fuel lh mtmp s', step sha256 qsort build s (.finish i fuel lh mtmp) = some s' →
      (∃ mz, Fits sha256 s.chl (s.slv i).nonce m.sol mz) ∧
      ∀ t, t ∈ s.reports sha256 qsort build (.finish i fuel lh mtmp) ↔
        Solves sha256 s.chl (s.slv i).nonce ∧ t = (s.chl.id, (s.slv i).nonce) := by
  have hpaths := run_held path_kept ⟨hs₀, fun i => by
    obtain ⟨al, c, hinit⟩ := (hfresh i).made
    exact solverInit_room hinit,
    fun i hi => absurd ((hidle i).symm.trans hi) (by decide)⟩ hacts hrun
  obtain ⟨m', hm', hholds⟩ := hpaths.busy i hbusy
  obtain rfl := Option.some.inj (hm.symm.trans hm')
  have hroom : Room s.chl m := ⟨hholds, hsmall⟩
  have hpasses : ∀ fuel, s.chl.size.toNat * s.chl.size.toNat < passes s.chl fuel := by
    intro fuel
    rw [passes]
    omega
  have hsolve : ∀ fuel lh mtmp, s.solve sha256 qsort build i fuel lh mtmp =
      shortpath sha256 (passes s.chl fuel) s.chl lh (s.slv i) i s.prngs := by
    intro fuel lh mtmp
    rw [State.solve, solve, if_neg (chal_types ht), if_pos ht]
  refine ⟨nonce_in_range hfresh hidle hrun hbusy, ?_, ?_⟩
  · rintro ⟨mz, hfits⟩
    obtain ⟨fuel₀, htotal⟩ := shortpath_total hm hroom hfits hp i s.prngs
    refine ⟨fuel₀, fun fuel hf lh mtmp => ?_⟩
    have hle : fuel₀ ≤ passes s.chl fuel := by
      rw [passes]
      omega
    obtain ⟨⟨r, slv, w⟩, hrun'⟩ := htotal _ hle (hpasses fuel) lh
    rw [step, if_pos hbusy, hsolve, hrun']
    exact ⟨_, rfl⟩
  · intro fuel lh mtmp s' hs'
    rw [step, if_pos hbusy] at hs'
    obtain ⟨⟨r, slv, w⟩, hrun', -⟩ := Option.map_eq_some_iff.mp hs'
    have hpath := hrun'
    rw [hsolve] at hpath
    obtain ⟨hsame, mz, hfits, hr⟩ := shortpath_result hm hroom (hpasses fuel) hpath
    refine ⟨⟨mz, hfits⟩, ?_⟩
    rw [solves_path ht hfits.1, ← hr]
    exact (finish_spec hbusy hrun' hsame).2

end Solved

/-- Two solvers as they are made, with their own halves of the nonces. -/
def pair : State Bool where
  chl := blankChal
  sn := 0
  prngs := { gmt := { mt := .replicate nn 0, mti := 0 }, own := fun _ =>
    { mt := .replicate nn 0, mti := 0 } }
  slv i := { nmin := if i then 10 else 0, nmax := if i then 20 else 10, nonce := 0,
             mem := (solverInit .exact blankChal).2, nums := fun _ => 0, str := fun _ => 0,
             sp := smallGrid }
  busy _ := false

theorem pair_fresh (i : Bool) : Fresh (pair.slv i) := by
  have hinit : (solverInit .exact blankChal).1 = 0 := by decide +kernel
  refine ⟨⟨.exact, blankChal, Prod.ext hinit rfl⟩, ?_⟩
  revert i
  decide

/-- A hash and a `qsort` for the two. -/
def zeros : List UInt8 → Buf := fun _ _ => 0
def untouched : Qsort := fun a _ _ => a

/-- Both work on a list, the second one after the first has been given its nonce. -/
theorem lists_solved_pair : ∃ s, exec (step zeros untouched .mergesort) pair
      [.newchal { blankChal with size := 30 }, .begin false .exact, .begin true .exact] = some s ∧
    ((pair.slv true).nmin ≤ (s.slv true).nonce ∧ (s.slv true).nonce < (pair.slv true).nmax) ∧
      ∀ fuel lh mtmp,
        (∃ s', step zeros untouched .mergesort s (.finish true fuel lh mtmp) = some s') ∧
        ∀ t, t ∈ s.reports zeros untouched .mergesort (.finish true fuel lh mtmp) ↔
          Solves zeros s.chl (s.slv true).nonce ∧ t = (s.chl.id, (s.slv true).nonce) := by
  have hrun : (exec (step zeros untouched .mergesort) pair
      [.newchal { blankChal with size := 30 }, .begin false .exact, .begin true .exact]).any
        (fun s => decide (s.busy true = true ∧ s.chl.type = chalSort ∧
          s.chl.plen ≤ sha256Len)) = true := by
    decide +kernel
  obtain ⟨s, h, hs⟩ := (Option.any_eq_true _ _).mp hrun
  obtain ⟨hbusy, ht, hp⟩ := of_decide_eq_true hs
  exact ⟨s, h, lists_solved pair_fresh (fun _ => rfl) h hbusy (Or.inl ht) hp⟩

/-- A solver works on a grid that is wider than the expected ones. -/
theorem paths_solved_pair : ∃ s, ∃ m : ShortpathMem, exec (step zeros untouched .mergesort) pair
      [.newchal { blankChal with type := chalSpath, size := 26, nblks := 5 },
        .begin false .exact] = some s ∧
    ((pair.slv false).nmin ≤ (s.slv false).nonce ∧
      (s.slv false).nonce < (pair.slv false).nmax) ∧
    ((∃ mz, Fits zeros s.chl (s.slv false).nonce m.sol mz) → ∃ fuel₀, ∀ fuel, fuel₀ ≤ fuel →
      ∀ lh mtmp, ∃ s', step zeros untouched .mergesort s (.finish false fuel lh mtmp) = some s') ∧
    ∀ fuel lh mtmp s', step zeros untouched .mergesort s (.finish false fuel lh mtmp) = some s' →
      (∃ mz, Fits zeros s.chl (s.slv false).nonce m.sol mz) ∧
      ∀ t, t ∈ s.reports zeros untouched .mergesort (.finish false fuel lh mtmp) ↔
        Solves zeros s.chl (s.slv false).nonce ∧ t = (s.chl.id, (s.slv false).nonce) := by
  have hrun : (exec (step zeros untouched .mergesort) pair
      [.newchal { blankChal with type := chalSpath, size := 26, nblks := 5 },
        .begin false .exact]).any (fun s =>
          decide (s.busy false = true ∧ s.chl.type = chalSpath ∧ s.chl.plen ≤ sha256Len) &&
          (s.slv false).mem.sp.any fun m : ShortpathMem => decide (m.sol < 2 ^ 31)) = true := by
    decide +kernel
  obtain ⟨s, h, hs⟩ := (Option.any_eq_true _ _).mp hrun
  obtain ⟨hs, hmem⟩ := Bool.and_eq_true_iff.mp hs
  obtain ⟨hbusy, ht, hp⟩ := of_decide_eq_true hs
  obtain ⟨m, hm, hsmall⟩ := (Option.any_eq_true _ _).mp hmem
  refine ⟨s, m, h, paths_solved pair_fresh (fun _ => rfl) (by decide) ?_ h hbusy ht hp hm
    (of_decide_eq_true hsmall)⟩
  intro a ha
  simp only [List.mem_cons, List.not_mem_nil, or_false] at ha
  rcases ha with rfl | rfl
  · exact (by decide : (26 : UInt64).toNat < 2 ^ 32)
  · trivial

end Oin17.Chals.Solvers
