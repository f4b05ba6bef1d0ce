import Oin17.Chals.Solver.Runs

namespace Oin17.Chals.Solvers
open Compat Crypto Function Memory Sortlist Utils

/-- A block for the solution of less than 2 GiB. -/
def Solver.Small (slv : Solver) : Prop := ∀ m, slv.mem.sp = some m → m.sol < 2 ^ 31

/-- The allocator gives no larger one. -/
def Frugal (al : SolverAlloc) : Prop := ∀ n b, al.sp.sol.give n = some b → b < 2 ^ 31

/-- The room for a challenge, and a nonce in the range. -/
structure Equipped (chl : Chal) (slv : Solver) : Prop where
  list : ListReady chl slv
  path : PathReady chl slv
  range : InRange slv

/-- What is true of a solver between two solves. -/
structure Stocked (min max : UInt64) (slv : Solver) : Prop where
  list : ListRoom slv
  path : PathRoom slv
  nmin : slv.nmin = min
  nmax : slv.nmax = max

theorem fresh_stocked (h : Fresh slv) : Stocked slv.nmin slv.nmax slv := by
  obtain ⟨al, c, hinit⟩ := h.made
  exact ⟨solverInit_sound hinit, solverInit_room hinit, rfl, rfl⟩

section Kept
variable {ι : Type}

theorem solver_kept {s₀ : ι → Solver} (h : ∀ i, (s₀ i).nmin < (s₀ i).nmax) :
    Kept (fun chl => chl.size.toNat < 2 ^ 32)
      (fun i => Stocked (s₀ i).nmin (s₀ i).nmax) Equipped where
  same hs hp :=
    ⟨list_kept.same (i := ()) hs hp.list, path_kept.same (i := ()) hs hp.path,
      hs.nmin.trans hp.nmin, hs.nmax.trans hp.nmax⟩
  busy hs hq := by
    refine ⟨list_kept.busy (ι := ι) hs hq.list, path_kept.busy (ι := ι) hs hq.path, ?_⟩
    rw [InRange, hs.nmin, hs.nmax, hs.nonce]
    exact hq.range
  resize {chl i slv al r mem} hg hp hres := by
    obtain ⟨hlist, hlready⟩ := list_kept.resize (i := i) trivial hp.list hres
    obtain ⟨hpath, hpready⟩ := path_kept.resize (i := i) hg hp.path hres
    refine ⟨⟨hlist, hpath, hp.nmin, hp.nmax⟩, fun hr sn => ?_⟩
    obtain ⟨hlist', hq⟩ := hlready hr sn
    obtain ⟨hpath', hq'⟩ := hpready hr sn
    refine ⟨⟨hlist', hpath', hp.nmin, hp.nmax⟩, hq, hq', getnonce_range ?_ sn⟩
    rw [hp.nmin, hp.nmax]
    exact h i

end Kept

theorem compare_zero {chl : Chal} (h : compare chl d = some r) :
    r = 0 ↔ accepts d chl.pfix chl.plen = true := by
  rw [compare] at h
  split at h
  · obtain rfl := Option.some.inj h
    cases accepts d chl.pfix chl.plen with
    | true => decide
    | false => decide
  · cases h

section Solve
variable {ι : Type} [DecidableEq ι] {s : State ι}
variable {sha256 : List UInt8 → Buf} {qsort : Qsort}

/-- A solve that ends tells whether its nonce solves the challenge. -/
theorem solve_reports (hq : Equipped s.chl (s.slv i)) (hsmall : (s.slv i).Small)
    (h : s.solve sha256 qsort .mergesort i fuel lh mtmp = some (r, slv, w)) :
    (s.slv i).Same slv ∧ (r = 0 ↔ Solves sha256 s.chl (s.slv i).nonce) := by
  refine ⟨solve_same h, ?_⟩
  rw [State.solve, solve] at h
  split at h
  · next ht =>
    obtain ⟨m, hm, hsound, hsize⟩ := hq.list
    have hpasses : s.chl.size.toNat < passes s.chl fuel := by
      rw [passes]
      omega
    obtain ⟨slv', w', -, hlist⟩ :=
      sortlist_spec sha256 qsort ht hm hsound hsize hpasses lh mtmp i s.prngs
    rw [hlist] at h
    obtain ⟨r', hcmp, he⟩ := Option.map_eq_some_iff.mp h
    obtain ⟨rfl, -⟩ := Prod.mk.inj he
    rw [solves_list ht]
    exact compare_zero hcmp
  · split at h
    · next ht =>
      obtain ⟨m, hm, hholds⟩ := hq.path
      have hpasses : s.chl.size.toNat * s.chl.size.toNat < passes s.chl fuel := by
        rw [passes]
        omega
      obtain ⟨-, mz, hfits, hr⟩ := shortpath_result hm ⟨hholds, hsmall m hm⟩ hpasses h
      rw [solves_path ht hfits.1]
      exact hr
    · cases h

/-- What `begin` does, by whether the workspace has the room. -/
theorem begin_cases (s : State ι) (i : ι) (al : SolverAlloc) :
    (s.begin i al).chl = s.chl ∧ (∀ j, j ≠ i → (s.begin i al).slv j = s.slv j) ∧
      ((s.begin i al).slv i).mem = (solverResize al (s.slv i).mem s.chl).2 ∧
      (s.begin i al).busy = if (solverResize al (s.slv i).mem s.chl).1 = 0 then
        update s.busy i true else s.busy := by
  rw [State.begin]
  cases hres : solverResize al (s.slv i).mem s.chl with
  | mk r mem =>
    dsimp only
    by_cases hr : r = 0
    · rw [if_neg (not_not.mpr hr), if_pos hr]
      exact ⟨rfl, fun j hj => update_of_ne hj .., by simp, rfl⟩
    · rw [if_pos hr, if_neg hr]
      exact ⟨rfl, fun j hj => update_of_ne hj .., by simp, rfl⟩

end Solve

section Sizes
variable {al : SolverAlloc} {slv : Solver}

theorem reallocarray_give {al : Realloc} (h : reallocarray al n m = some b) :
    ∃ k, al.give k = some b := by
  rw [reallocarray_eq] at h
  split at h
  · cases h
  · exact ⟨_, h⟩

theorem shortpathGrow_sol (al : ShortpathAlloc) (sp : ShortpathMem) (size : UInt64) :
    (shortpathGrow al sp size).2.sol = sp.sol ∨
      ∃ k, al.sol.give k = some (shortpathGrow al sp size).2.sol := by
  unfold shortpathGrow
  dsimp only
  split
  · exact Or.inl rfl
  · split
    · exact Or.inl rfl
    · next hs =>
      obtain ⟨k, hk⟩ := reallocarray_give hs
      refine Or.inr ⟨k, ?_⟩
      split <;> exact hk

theorem shortpathResize_small (hal : Frugal al) (h : slv.Small)
    (hres : shortpathResize al.sp slv.mem.sp size = (r, some m)) : m.sol < 2 ^ 31 := by
  rcases shortpathResize_cases al.sp slv.mem.sp size with ⟨-, -, hcase⟩ | hcase
  · cases hres.symm.trans hcase
  · have hold : (spMem slv.mem.sp).sol < 2 ^ 31 := by
      cases hmem : slv.mem.sp with
      | none => exact (by decide : (0 : Nat) < 2 ^ 31)
      | some m₀ => exact h m₀ hmem
    rw [hcase] at hres
    split at hres
    · obtain ⟨-, hm⟩ := Prod.mk.inj hres
      rwa [← Option.some.inj hm]
    · obtain ⟨-, hm⟩ := Prod.mk.inj hres
      rw [← Option.some.inj hm]
      rcases shortpathGrow_sol al.sp (spMem slv.mem.sp) size with he | ⟨k, hk⟩
      · rwa [he]
      · exact hal k _ hk

theorem resize_small (hal : Frugal al) (h : slv.Small)
    (hres : solverResize al slv.mem chl = (r, mem)) : ∀ m, mem.sp = some m → m.sol < 2 ^ 31 := by
  intro m hm
  obtain ⟨r₁, -, ⟨-, hsp⟩ | ⟨-, r₂, hsp, -⟩⟩ := solverResize_parts hres
  · exact h m (hsp ▸ hm)
  · rw [hm] at hsp
    exact shortpathResize_small hal h hsp

end Sizes

end Oin17.Chals.Solvers
