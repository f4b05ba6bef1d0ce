import Oin17.Chals.Solver.Asked
import Oin17.Chals.Solver.Reports
import Oin17.Mine.Apart
import Oin17.Mine.Central

namespace Oin17.Mine
open Chals Chals.Solvers Compat Crypto Function Memory Run Sortlist Ws

/-- The miner, the connections and the threads, and what the solvers hold besides. -/
structure Rig where
  crew : Crew State
  sol : Solvers.State Nat

/-- A step of the miner or of a thread outside of the solvers, a callback of libwebsockets, and the
two parts of `__solve`. `ok` is what libwebsockets answers when the step connects. -/
inductive Move where
  | crew (ok : Bool) (a : Act)
  | callback (k : Nat) (rs : Reason)
  | begin (t : Nat) (al : SolverAlloc)
  | finish (t fuel : Nat) (lh : Buf) (mtmp : Nums)

/-- The steps that the solvers make. -/
def Act.solves : Act → Bool
  | .work _ a =>
    match a with
    | .call | .look | .find _ | .giveUp => true
    | .check | .notify => false
  | _ => false

section
variable (wallet : List UInt8) (jsmn : Jsmn) (sha256 : List UInt8 → Buf) (qsort : Qsort)

/-- The solvers have a pointer to the challenge of the miner. -/
def Rig.join (s : Rig) (c : Crew State) : Rig :=
  { crew := c, sol := { s.sol with chl := c.m.mchl.chal } }

/-- A thread calls its solver, which resizes its workspace and takes its nonce, or returns. -/
def Rig.begin (s : Rig) (t : Nat) (al : SolverAlloc) : Option Rig :=
  (s.crew.threads t).arg.bind fun i =>
    (s.crew.work t .call).bind fun c =>
      let (r, _) := solverResize al (s.sol.slv i).mem s.sol.chl
      let s := { s with sol := s.sol.begin i al }
      if r ≠ 0 then (c.work t .giveUp).map s.join else some (s.join c)

/-- The rest of it, up to the event. -/
def Rig.finish (s : Rig) (t fuel : Nat) (lh : Buf) (mtmp : Nums) : Option Rig :=
  (s.crew.threads t).arg.bind fun i =>
    (s.crew.work t .look).bind fun c =>
      (s.sol.solve sha256 qsort .mergesort i fuel lh mtmp).bind fun (r, slv, w) =>
        let sol := { s.sol with
          prngs := w
          slv := update s.sol.slv i slv
          busy := update s.sol.busy i false }
        (c.work t (if r = 0 then .find slv.nonce else .giveUp)).map { s with sol := sol }.join

def Rig.step (s : Rig) : Move → Option Rig
  | .crew ok a =>
    if a.solves then none else (s.crew.step (central wallet ok) jsmn a).map s.join
  | .callback k rs =>
    (callback s.crew.w k rs).map fun w => { s with crew := { s.crew with w := w } }
  | .begin t al => s.begin t al
  | .finish t fuel lh mtmp => s.finish sha256 qsort t fuel lh mtmp

end

/-- `mine` at its first wait, with the solvers that `init_mining` has made. -/
def Rig.init (w : State) (m : Miner) (busy : Nat → Bool) (sn : UInt64)
    (prngs : Prngs Nat) (slv : Nat → Solvers.Solver) : Rig where
  crew := Crew.init w m busy
  sol := { chl := m.mchl.chal, sn := sn, prngs := prngs, slv := slv, busy := fun _ => false }

/-- A thread is between the nonce and the result of solver `i`. -/
def Crew.Solving {ω : Type} (s : Crew ω) (t i : Nat) : Prop :=
  (s.threads t).arg = some i ∧ ∃ seen, (s.threads t).place = .solving seen

/-- The challenges that solvers run on, and that `mine` is about to put in place, have `P`. -/
structure Crew.Known {ω : Type} (P : Chal → Prop) (s : Crew ω) : Prop where
  runs : ∀ t, (s.threads t).arg.isSome → P s.m.mchl.chal
  next : match s.pc with
    | .wait => True
    | .drop chal _ | .stop chal _ _ => P chal
    | .start _ | .wake _ _ _ => P s.m.mchl.chal

section Crew
variable {ω : Type} {ca : Authority ω} {jsmn : Jsmn} {s s' : Crew ω} {P : Chal → Prop}

theorem step_work (s : Crew ω) (t : Nat) (a : Work) : s.step ca jsmn (.work t a) = s.work t a := by
  unfold Crew.step
  cases s.pc <;> rfl

theorem Crew.Known.work (h : s.Known P) (hw : s.Worked t s') : s'.Known P := by
  obtain ⟨hruns, hnext⟩ := h
  refine ⟨fun u harg => ?_, ?_⟩
  · rw [hw.m]
    apply hruns u
    by_cases hu : u = t
    · subst hu
      rwa [hw.arg] at harg
    · rwa [hw.others u hu] at harg
  · rw [hw.pc, hw.m]
    exact hnext

theorem Crew.Known.turn (h : s.Known P)
    (hread : ∀ ev c g chal v, a = .main ev c →
      handle ca jsmn s.w s.m c ev = some (.replace g chal, v) → P chal)
    (ht : s.Turn ca jsmn s' a) : s'.Known P := by
  obtain ⟨hruns, hnext⟩ := h
  cases ht with
  | pass hpc hpc' hr hm =>
    refine ⟨?_, by rw [hpc']; trivial⟩
    rw [hr.threads, hm.chal]
    exact hruns
  | replace hpc hpc' hr hm hh =>
    refine ⟨?_, by rw [hpc']; exact hread _ _ _ _ _ rfl hh⟩
    rw [hr.threads, hm.chal]
    exact hruns
  | @signal chal i u _ hpc hpc' _ _ ht _ hm _ =>
    rw [hpc] at hnext
    refine ⟨fun t harg => ?_, by rw [hpc']; exact hnext⟩
    rw [hm]
    rw [ht] at harg
    apply hruns t
    by_cases htu : t = u
    · subst htu
      rwa [update_self] at harg
    · rwa [update_of_ne htu] at harg
  | skip hpc hpc' _ hr hm =>
    rw [hpc] at hnext
    refine ⟨?_, by rw [hpc']; exact hnext⟩
    rw [hr.threads, hm, (dropSlv_frame _ _).2.1]
    exact hruns
  | overwrite hpc hpc' _ _ hm =>
    rw [hpc] at hnext
    refine ⟨fun _ _ => ?_, ?_⟩
    · rw [hm]
      exact hnext
    · rw [hpc', hm]
      exact hnext
  | stopped hpc hpc' _ ht _ hm _ =>
    rw [hpc] at hnext
    refine ⟨?_, by rw [hpc']; exact hnext⟩
    rw [ht, hm, (dropSlv_frame _ _).2.1]
    exact hruns
  | settle _ hpc' hr hchal _ _ =>
    refine ⟨?_, by rw [hpc']; trivial⟩
    rw [hr.threads, hchal]
    exact hruns
  | launch hpc hpc' _ _ _ _ _ hchal _ _ =>
    rw [hpc] at hnext
    refine ⟨fun _ _ => ?_, ?_⟩
    · rw [hchal]
      exact hnext
    · rw [hpc', hchal]
      exact hnext
  | started hpc hpc' _ hr hm =>
    rw [hpc] at hnext
    refine ⟨?_, ?_⟩
    · rw [hr.threads, hm]
      exact hruns
    · rw [hpc', hm]
      exact hnext
  | work hw _ => exact Crew.Known.work ⟨hruns, hnext⟩ hw

/-- A challenge that replaces another one was put in place after the solvers had been stopped. -/
theorem Crew.Turn.chal (ht : s.Turn ca jsmn s' a) :
    s'.m.mchl.chal = s.m.mchl.chal ∨ s'.pc = .start 0 := by
  cases ht with
  | pass _ _ _ hm | replace _ _ _ hm _ => exact Or.inl hm.chal
  | signal _ _ _ _ _ _ hm _ => exact Or.inl (by rw [hm])
  | skip _ _ _ _ hm | stopped _ _ _ _ _ hm _ =>
    rw [hm]
    exact Or.inl (dropSlv_frame _ _).2.1
  | overwrite _ hpc' _ _ _ => exact Or.inr hpc'
  | settle _ _ _ he _ _ | launch _ _ _ _ _ _ _ he _ _ => exact Or.inl he
  | started _ _ _ _ hm =>
    rw [hm]
    exact Or.inl rfl
  | work hw _ => exact Or.inl (by rw [hw.m])

/-- Steps outside of the solvers leave the threads that solve alone. -/
theorem Crew.Turn.solving (ht : s.Turn ca jsmn s' a) (h : s.Inv) (ha : a.solves = false)
    (t i : Nat) : s'.Solving t i ↔ s.Solving t i := by
  unfold Crew.Solving
  cases ht with
  | pass _ _ hr _ | replace _ _ hr _ _ | skip _ _ _ hr _ | overwrite _ _ _ hr _
  | settle _ _ hr _ _ _ | started _ _ _ hr _ => rw [hr.threads]
  | stopped _ _ _ ht _ _ _ => rw [ht]
  | @signal chal j u _ _ _ _ _ ht _ _ _ =>
    rw [ht]
    by_cases htu : t = u
    · subst htu
      rw [update_self]
    · rw [update_of_ne htu]
  | @launch j p u _ _ _ _ hrun ht _ _ _ _ =>
    rw [ht]
    by_cases htu : t = u
    · subst htu
      have hidle := h.asleep t hrun
      rw [update_self]
      simp [hidle]
    · rw [update_of_ne htu]
  | @work u b hw hd =>
    by_cases htu : t = u
    · subst htu
      rw [hw.arg]
      cases hd with
      | check h h' _ =>
        rcases h' with h' | h'
        · simp [h, h']
        · simp [h, h']
      | notify h h' _ => simp [h, h']
      | call | look | find | giveUp => cases ha
    · rw [hw.others t htu]

theorem Crew.Turn.finds (ht : s.Turn ca jsmn s' a) (ha : a.solves = false) :
    s'.finds = s.finds := by
  cases ht with
  | pass _ _ hr _ | replace _ _ hr _ _ | skip _ _ _ hr _ | overwrite _ _ _ hr _
  | settle _ _ hr _ _ _ | started _ _ _ hr _ => exact hr.finds
  | stopped _ _ _ _ _ _ hf | signal _ _ _ _ _ _ _ hf | launch _ _ _ _ _ _ _ _ _ hf => exact hf
  | work _ hd =>
    cases hd with
    | check _ _ hf | notify _ _ hf => exact hf
    | call | look | find | giveUp => cases ha

theorem Crew.Worked.trans {s'' : Crew ω} (h : s.Worked t s') (h' : s'.Worked t s'') :
    s.Worked t s'' := by
  refine ⟨h'.pc.trans h.pc, h'.m.trans h.m, h'.pools.trans h.pools, fun u hu => ?_,
    h'.arg.trans h.arg, h'.canrun.trans h.canrun, ?_⟩
  · exact (h'.others u hu).trans (h.others u hu)
  · rcases h'.running with he | he
    · rw [he]
      exact h.running
    · exact Or.inr (he.trans h.canrun)

theorem Crew.Apart.work (h : s.Apart) (hs : s.work t a = some s') (ca : Authority ω)
    (jsmn : Jsmn) : s'.Apart :=
  have hstep : s.step ca jsmn (.work t a) = some s' := (step_work s t a).trans hs
  h.step hstep

end Crew

/-- The invariant of the rig, where the challenges have `P` and the solvers were made as
`slv₀`. -/
structure Rig.Sound (P : Chal → Prop) (sha256 : List UInt8 → Buf)
    (slv₀ : Nat → Solvers.Solver) (s : Rig) : Prop where
  apart : s.crew.Apart
  known : s.crew.Known P
  chl : s.sol.chl = s.crew.m.mchl.chal
  busy : ∀ i, s.sol.busy i = true ↔ ∃ t, s.crew.Solving t i
  held : Held (fun chl => chl.size.toNat < 2 ^ 32)
    (fun i => Stocked (slv₀ i).nmin (slv₀ i).nmax) Equipped s.sol
  small : ∀ i, (s.sol.slv i).Small
  finds : ∀ n seen, (n, seen) ∈ s.crew.finds → ∀ c ∈ seen, P c ∧ 0 < n ∧ Solves sha256 c n

section Rig
variable {ca : Authority State} {wallet : List UInt8} {jsmn : Jsmn} {s s' : Rig} {P : Chal → Prop}
variable {sha256 : List UInt8 → Buf} {qsort : Qsort} {slv₀ : Nat → Solvers.Solver}

theorem Rig.Sound.crew (h : s.Sound P sha256 slv₀) (hP : ∀ c, P c → c.size.toNat < 2 ^ 32)
    (hread : ∀ ev x g chal v, a = .main ev x →
      handle ca jsmn s.crew.w s.crew.m x ev = some (.replace g chal, v) → P chal)
    (ha : a.solves = false) (hs : s.crew.step ca jsmn a = some c) :
    (s.join c).Sound P sha256 slv₀ := by
  have hturn := Crew.step_turn hs
  have hsolving := hturn.solving h.apart.inv ha
  have hknown := h.known.turn hread hturn
  refine ⟨h.apart.step hs, hknown, rfl, fun i => ?_, ?_, h.small, ?_⟩
  · exact (h.busy i).trans (exists_congr fun t => (hsolving t i).symm)
  · obtain ⟨hsize, hsolver, hbusy⟩ := h.held
    by_cases heq : c.m.mchl.chal = s.crew.m.mchl.chal
    · rw [h.chl, ← heq] at hsize hbusy
      exact ⟨hsize, hsolver, hbusy⟩
    · -- the challenge has been replaced, which no solver sees
      have hpc := hturn.chal.resolve_left heq
      have hnext := hknown.next
      rw [hpc] at hnext
      refine ⟨hP _ hnext, hsolver, fun i hi => ?_⟩
      obtain ⟨t, harg, seen, hplace⟩ := (h.busy i).mp hi
      exact absurd ⟨harg, by simp [hplace]⟩ (h.apart.written hs heq t i)
  · intro n seen hf
    apply h.finds n seen
    rwa [Rig.join, hturn.finds ha] at hf

/-- Steps of one thread in its solver. -/
theorem Rig.Sound.work {sol : Solvers.State Nat} {c : Crew State} (h : s.Sound P sha256 slv₀)
    (hapart : c.Apart) (hw : s.crew.Worked t c) (hin : s.crew.In t i)
    (hchl : sol.chl = s.sol.chl) (hbusy : sol.busy = update s.sol.busy i b)
    (hb : b = true ↔ ∃ seen, (c.threads t).place = .solving seen)
    (hheld : Held (fun chl => chl.size.toNat < 2 ^ 32)
      (fun i => Stocked (slv₀ i).nmin (slv₀ i).nmax) Equipped sol)
    (hsmall : ∀ i, (sol.slv i).Small)
    (hfinds : ∀ n seen, (n, seen) ∈ c.finds → ∀ c ∈ seen, P c ∧ 0 < n ∧ Solves sha256 c n) :
    Rig.Sound P sha256 slv₀ ({ s with sol := sol }.join c) := by
  have hsol : { sol with chl := c.m.mchl.chal } = sol := by
    rw [hw.m, ← h.chl, ← hchl]
  have harg : (c.threads t).arg = some i := hw.arg.trans hin.1
  refine ⟨hapart, h.known.work hw, rfl, fun j => ?_, ?_, hsmall, hfinds⟩
  · change sol.busy j = true ↔ ∃ u, c.Solving u j
    rw [hbusy]
    by_cases hj : j = i
    · subst hj
      rw [update_self, hb]
      constructor
      · exact fun hs => ⟨t, harg, hs⟩
      · rintro ⟨u, huarg, seen, hplace⟩
        have hut : u = t := by
          by_contra hne
          rw [hw.others u hne] at huarg hplace
          refine hne (h.apart.unique (h.apart.inv.runs ⟨huarg, ?_⟩) (h.apart.inv.runs hin))
          simp [hplace]
        exact ⟨seen, hut ▸ hplace⟩
    · rw [update_of_ne hj, h.busy j]
      refine exists_congr fun u => ?_
      by_cases hut : u = t
      · subst hut
        refine iff_of_false (fun hs => ?_) fun hs => ?_
        · exact hj (Option.some.inj (hs.1.symm.trans hin.1))
        · exact hj (Option.some.inj (hs.1.symm.trans harg))
      · unfold Crew.Solving
        rw [hw.others u hut]
  · change Held _ _ _ { sol with chl := c.m.mchl.chal }
    rwa [hsol]

theorem Rig.Sound.begin (h : s.Sound P sha256 slv₀) (hal : Frugal al)
    (hmin : ∀ i, (slv₀ i).nmin < (slv₀ i).nmax) (ca : Authority State) (jsmn : Jsmn)
    (hs : s.begin t al = some s') : s'.Sound P sha256 slv₀ := by
  obtain ⟨i, harg, hs⟩ := Option.bind_eq_some_iff.mp hs
  obtain ⟨c, hc, hs⟩ := Option.bind_eq_some_iff.mp hs
  have hw := Crew.work_worked hc
  have hapart := h.apart.work hc ca jsmn
  cases Crew.work_done hc with
  | call hplace hplace' hf =>
  have hin : s.crew.In t i := ⟨harg, by simp [hplace]⟩
  have hidle : s.sol.busy i = false := by
    apply Bool.eq_false_iff.mpr
    intro hbusy
    obtain ⟨u, huarg, seen, hsolving⟩ := (h.busy i).mp hbusy
    have hut : u = t := by
      refine h.apart.unique (h.apart.inv.runs ⟨huarg, ?_⟩) (h.apart.inv.runs hin)
      simp [hsolving]
    subst hut
    cases hplace.symm.trans hsolving
  obtain ⟨hchl, hothers, hmem, hbusy⟩ := begin_cases s.sol i al
  have hheld := begin_held (solver_kept hmin) h.held hidle al
  have hsmall : ∀ j, ((s.sol.begin i al).slv j).Small := by
    intro j
    by_cases hj : j = i
    · subst hj
      unfold Solvers.Solver.Small
      rw [hmem]
      exact resize_small hal (h.small j) rfl
    · rw [hothers j hj]
      exact h.small j
  dsimp only at hs
  split at hs
  · next hr =>
    obtain ⟨c', hc', rfl⟩ := Option.map_eq_some_iff.mp hs
    have hw' := Crew.work_worked hc'
    cases Crew.work_done hc' with
    | giveUp _ hidle' hf' =>
    rw [if_neg hr] at hbusy
    refine h.work (b := false) (hapart.work hc' ca jsmn) (hw.trans hw') hin hchl ?_ ?_ hheld
      hsmall ?_
    · rw [hbusy, ← hidle, update_eq_self]
    · simp [hidle']
    · rw [hf', hf]
      exact h.finds
  · next hr =>
    obtain rfl := Option.some.inj hs
    rw [if_pos (not_not.mp hr)] at hbusy
    refine h.work (b := true) hapart hw hin hchl hbusy ?_ hheld hsmall ?_
    · simp [hplace']
    · rw [hf]
      exact h.finds

theorem Rig.Sound.finish (h : s.Sound P sha256 slv₀) (hpos : ∀ i, 0 < (slv₀ i).nmin)
    (hmin : ∀ i, (slv₀ i).nmin < (slv₀ i).nmax) (ca : Authority State) (jsmn : Jsmn)
    (hs : s.finish sha256 qsort t fuel lh mtmp = some s') : s'.Sound P sha256 slv₀ := by
  obtain ⟨i, harg, hs⟩ := Option.bind_eq_some_iff.mp hs
  obtain ⟨c, hc, hs⟩ := Option.bind_eq_some_iff.mp hs
  obtain ⟨⟨r, slv, w⟩, hsolve, hs⟩ := Option.bind_eq_some_iff.mp hs
  obtain ⟨c', hc', rfl⟩ := Option.map_eq_some_iff.mp hs
  have hw := Crew.work_worked hc
  have hw' := Crew.work_worked hc'
  have hapart := h.apart.work hc ca jsmn
  cases Crew.work_done hc with
  | @look seen hplace hplace' hf =>
  have hin : s.crew.In t i := ⟨harg, by simp [hplace]⟩
  have hready := h.held.busy i ((h.busy i).mpr ⟨t, harg, seen, hplace⟩)
  obtain ⟨hsame, hr⟩ := solve_reports hready (h.small i) hsolve
  refine h.work (b := false) (hapart.work hc' ca jsmn) (hw.trans hw') hin rfl rfl ?_
    (finish_held (solver_kept hmin) h.held hsame w) (fun j => ?_) fun n seen' hmem => ?_
  · split at hc'
    · cases Crew.work_done hc' with
      | find _ hend _ => simp [hend]
    · cases Crew.work_done hc' with
      | giveUp _ hend _ => simp [hend]
  · by_cases hj : j = i
    · subst hj
      unfold Solvers.Solver.Small
      dsimp only
      rw [update_self, hsame.mem]
      exact h.small j
    · dsimp only
      rw [update_of_ne hj]
      exact h.small j
  · split at hc'
    · next hr0 =>
      cases Crew.work_done hc' with
      | @find seen'' _ hsolving hend hf' =>
      rw [hf', hf] at hmem
      rcases List.mem_append.mp hmem with hmem | hmem
      · exact h.finds n seen' hmem
      · obtain ⟨rfl, rfl⟩ := Prod.mk.inj (List.mem_singleton.mp hmem)
        -- all that the solver read of the challenge is what it is now
        have hsees := hapart.inv.sees t
        unfold Thread.Sees at hsees
        rw [hsolving] at hsees
        intro chl hchl
        have hmchl : chl = s.sol.chl := by
          rw [hsees.2.2 chl hchl, hw.m, h.chl]
        have hknown : P s.sol.chl := by
          rw [h.chl]
          apply h.known.runs t
          rw [harg]
          rfl
        rw [hmchl, hsame.nonce]
        refine ⟨hknown, ?_, hr.mp hr0⟩
        have hlo := hready.range.1
        rw [(h.held.solver i).nmin] at hlo
        exact UInt64.lt_of_lt_of_le (hpos i) hlo
    · cases Crew.work_done hc' with
      | giveUp _ _ hf' =>
      rw [hf', hf] at hmem
      exact h.finds n seen' hmem

end Rig

end Oin17.Mine
