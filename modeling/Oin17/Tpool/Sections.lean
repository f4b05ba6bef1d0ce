import Oin17.Tpool.Monitor

namespace Oin17.Tpool
open Dialogue Function Run Utils
open Utils.Futex (Serving Give Owned)

def nothing : Nat → Bool := fun _ => false

def only (t : Nat) : Nat → Bool := fun m => decide (m = t)

/-- The mutexes that thread `t` holds at a stage when it is out of the futex module. -/
def Stage.held (t : Nat) : Stage → Nat → Bool
  | .testing | .parking | .parked | .going | .gone => only t
  | .top | .calling | .fetching _ | .arguing _ | .loading _ _ | .exec _ _ _ => nothing

/-- The calls of the futex module that it may be in, with what it holds meanwhile. -/
def Stage.ops (t : Nat) : Stage → List (Futex.Op × (Nat → Bool))
  | .testing => [(.lock t, nothing), (.wait t t, nothing)]
  | .parked | .gone => [(.signal t, only t)]
  | .calling => [(.unlock t, nothing)]
  | .top | .parking | .going | .fetching _ | .arguing _ | .loading _ _ | .exec _ _ _ => []

def Phase.held : Phase → Nat → Bool
  | .locking _ t _ _ | .testing _ t _ _ => only t
  | .idle | .asking _ _ | .leaving _ _ _ _ => nothing

def Phase.ops : Phase → List (Futex.Op × (Nat → Bool))
  | .locking _ t _ _ => [(.lock t, nothing)]
  | .testing _ t _ _ => [(.signal t, only t), (.wait t t, nothing)]
  | .leaving _ t _ _ => [(.unlock t, nothing)]
  | .idle | .asking _ _ => []

/-- Each thread is in the calls that its place in its code makes, and holds what it has locked. -/
structure Machine.Orderly {n : Nat} (s : Machine n) : Prop where
  stage : ∀ t : Fin n, Serving s.fx (some t) ((s.stage t).ops t) ((s.stage t).held t)
  phase : Serving s.fx none s.phase.ops s.phase.held
  owned : ∃ o, Owned s.fx o

theorem only_self (t : Nat) : only t t = true := by
  simp [only]

theorem give_lock (t : Nat) (op : Futex.Op) (h : op.gives = some t) (m : Nat) :
    only t m = if op.gives = some m then true else nothing m := by
  rw [h, only, nothing]
  by_cases hm : m = t
  · simp [hm]
  · simp [hm, Ne.symm hm]

theorem stage_give (t : Nat) (g : Stage) : Give (g.ops t) (g.held t) := by
  cases g with
  | testing =>
    rintro p hp m
    rcases List.mem_cons.mp hp with rfl | hp
    · exact give_lock t _ rfl m
    · obtain rfl := List.mem_singleton.mp hp
      exact give_lock t _ rfl m
  | parked | gone | calling =>
    rintro p hp m
    obtain rfl := List.mem_singleton.mp hp
    rfl
  | _ => exact fun p hp => absurd hp List.not_mem_nil

theorem phase_give (g : Phase) : Give g.ops g.held := by
  cases g with
  | locking c t b k =>
    rintro p hp m
    obtain rfl := List.mem_singleton.mp hp
    exact give_lock t _ rfl m
  | testing c t b k =>
    rintro p hp m
    rcases List.mem_cons.mp hp with rfl | hp
    · rfl
    · obtain rfl := List.mem_singleton.mp hp
      exact give_lock t _ rfl m
  | leaving c t b p =>
    rintro p hp m
    obtain rfl := List.mem_singleton.mp hp
    rfl
  | _ => exact fun p hp => absurd hp List.not_mem_nil

theorem unlock_only (t : Nat) :
    (fun m => if some t = some m then false else only t m) = nothing := by
  funext m
  by_cases hm : m = t
  · simp [hm, nothing]
  · simp [only, nothing, hm]

section
variable {T : Type} {s : Futex.State T} {u : T} {ops : List (Futex.Op × (Nat → Bool))}
  {h : Nat → Bool}

theorem serving_out (hs : Serving s u ops h) (hp : s.pc u = .out r) : s.holds u = h := by
  rcases hs with ⟨-, hh⟩ | ⟨p, -, hd, -⟩
  · exact hh
  · rw [hp] at hd
    exact hd.elim

theorem serving_of_out (hp : ∃ r, s.pc u = .out r) (hh : s.holds u = h) : Serving s u ops h :=
  Or.inl ⟨hp, hh⟩

end

section
variable {n : Nat} {s s' : Machine n} {fx : Futex.State (Option (Fin n))} {u : Option (Fin n)}

theorem outside_out (h : s.outside u = true) : ∃ r, s.fx.pc u = .out r := by
  rw [Machine.outside] at h
  split at h
  · exact ⟨_, ‹_›⟩
  · cases h

theorem Machine.Orderly.phase_out (h : s.Orderly) (ho : s.fx.pc none = .out r) :
    s.fx.holds none = s.phase.held :=
  serving_out h.phase ho

theorem Machine.Orderly.stage_out {t : Fin n} (h : s.Orderly) (ho : s.fx.pc (some t) = .out r) :
    s.fx.holds (some t) = (s.stage t).held t :=
  serving_out (h.stage t) ho

theorem Machine.Orderly.idle_out (h : s.Orderly) (hp : s.phase = .idle) :
    ∃ r, s.fx.pc none = .out r := by
  rcases h.phase with ⟨ho, -⟩ | ⟨p, hm, -⟩
  · exact ho
  · rw [hp] at hm
    cases hm

/-- A step inside of the futex module. -/
theorem Machine.Orderly.inside {a : Futex.Act (Option (Fin n))} (h : s.Orderly)
    (hs : Futex.step s.fx a = some fx) (hc : ∀ u op, a ≠ .call u op) :
    ({ s with fx := fx } : Machine n).Orderly where
  stage t := (h.stage t).step (stage_give t _) hs (hc _)
  phase := h.phase.step (phase_give _) hs (hc _)
  owned := by
    obtain ⟨o, ho⟩ := h.owned
    obtain ⟨o', -, ho'⟩ := Futex.simulates_grant _ o _ fx ho hs
    exact ⟨o', ho'⟩

/-- The controlling thread goes on from one phase to another without a call. -/
theorem Machine.Orderly.turn (h : s.Orderly) (ho : ∃ r, s.fx.pc none = .out r)
    (hh : s.phase.held = g.held) (v : Vars) (e : Flags) :
    ({ s with vars := v, flags := e, phase := g } : Machine n).Orderly where
  stage := h.stage
  phase := by
    obtain ⟨r, hr⟩ := ho
    exact serving_of_out ⟨r, hr⟩ ((h.phase_out hr).trans hh)
  owned := h.owned

/-- The controlling thread makes a call. -/
theorem Machine.Orderly.enter {op : Futex.Op} (h : s.Orderly)
    (hs : Futex.step s.fx (.call none op) = some fx)
    (hm : (op, fun m => if op.needs = some m then false else s.phase.held m) ∈ g.ops) (e : Flags) :
    ({ s with flags := e, phase := g, fx := fx } : Machine n).Orderly where
  stage t := (h.stage t).step (stage_give t _) hs (by simp)
  phase := by
    obtain ⟨⟨r, hr⟩, -⟩ := Futex.step_call hs
    exact Serving.start (h.phase_out hr) hs hm
  owned := by
    obtain ⟨o, ho⟩ := h.owned
    obtain ⟨o', -, ho'⟩ := Futex.simulates_grant _ o _ fx ho hs
    exact ⟨o', ho'⟩

theorem stage_at (s : Machine n) (t : Fin n) (g : Stage) (u : Fin n) :
    (s.at t g).stage u = if u = t then g else s.stage u := by
  exact update_apply s.stage t g u

/-- A thread goes on from one stage to another without a call. -/
theorem Machine.Orderly.at {t : Fin n} (h : s.Orderly) (ho : ∃ r, s.fx.pc (some t) = .out r)
    (hh : (s.stage t).held t = g.held t) : (s.at t g).Orderly where
  stage u := by
    rw [stage_at]
    by_cases hu : u = t
    · subst hu
      rw [if_pos rfl]
      obtain ⟨r, hr⟩ := ho
      exact serving_of_out ⟨r, hr⟩ ((h.stage_out hr).trans hh)
    · rw [if_neg hu]
      exact h.stage u
  phase := h.phase
  owned := h.owned

/-- A thread makes a call. -/
theorem Machine.Orderly.call {t : Fin n} {op : Futex.Op} (h : s.Orderly)
    (hs : Futex.step s.fx (.call (some t) op) = some fx)
    (hm : (op, fun m => if op.needs = some m then false else (s.stage t).held t m) ∈ g.ops t)
    (e : Flags) : ({ s.at t g with flags := e, fx := fx } : Machine n).Orderly where
  stage u := by
    change Serving fx (some u) (((s.at t g).stage u).ops u) (((s.at t g).stage u).held u)
    rw [stage_at]
    by_cases hu : u = t
    · subst hu
      rw [if_pos rfl]
      obtain ⟨⟨r, hr⟩, -⟩ := Futex.step_call hs
      exact Serving.start (h.stage_out hr) hs hm
    · rw [if_neg hu]
      refine (h.stage u).step (stage_give u _) hs fun op' hc => hu ?_
      cases hc
      rfl
  phase := h.phase.step (phase_give _) hs (by simp)
  owned := by
    obtain ⟨o, ho⟩ := h.owned
    obtain ⟨o', -, ho'⟩ := Futex.simulates_grant _ o _ fx ho hs
    exact ⟨o', ho'⟩

end

section
variable {npools : UInt64} {s s' : Machine npools.toNat} {m : Move npools.toNat}

theorem futex_no_call {a : Futex.Act (Option (Fin n))} {m : Move n} (h : m.futex = some a)
    (u : Option (Fin n)) (op : Futex.Op) : a ≠ .call u op := by
  rintro rfl
  cases m <;> cases h

theorem turn_orderly (h : s.Orderly) (ht : Turn npools s m s') : s'.Orderly := by
  cases ht with
  | invoke hp hv => exact h.turn (h.idle_out hp) (by rw [hp]; rfl) _ _
  | ret hp ho => exact h.turn (outside_out ho) (by rw [hp]; rfl) _ _
  | look hp ho hv => exact h.turn (outside_out ho) (by rw [hp]; rfl) _ _
  | lock hp hs => exact h.enter hs (by rw [hp]; exact List.mem_cons_self) _
  | @start c t k fx hp hs => exact h.enter hs (by rw [hp]; exact List.mem_cons_self) _
  | stop hp ho => exact h.turn (outside_out ho) (by rw [hp]; rfl) _ _
  | @leave c t b k fx hp hr hs =>
    refine h.enter hs ?_ _
    rw [hp]
    exact List.mem_singleton.mpr (congrArg _ (unlock_only t))
  | @wait c t b k fx hp hr hs =>
    have := h.enter (g := s.phase) hs ?_ s.flags
    · exact this
    · rw [hp]
      exact List.mem_cons_of_mem _ (List.mem_singleton.mpr (congrArg _ (unlock_only t)))
  | resume hp ho hv => exact h.turn (outside_out ho) (by rw [hp]; rfl) _ _
  | @top fx t hg hs => exact h.call hs (by rw [hg]; exact List.mem_cons_self) s.flags
  | @test t hg ho =>
    refine h.at (outside_out ho) ?_
    rw [hg]
    split <;> rfl
  | @park fx t hg hs => exact h.call hs (by rw [hg]; exact List.mem_cons_self) _
  | @parked fx t hg hs =>
    refine h.call hs ?_ s.flags
    rw [hg]
    exact List.mem_cons_of_mem _ (List.mem_singleton.mpr (congrArg _ (unlock_only t)))
  | @go fx t hg hs => exact h.call hs (by rw [hg]; exact List.mem_cons_self) _
  | @gone fx t hg hs =>
    refine h.call hs ?_ s.flags
    rw [hg]
    exact List.mem_singleton.mpr (congrArg _ (unlock_only t))
  | call hg ho hp | argue hg ho hp => exact h.at (outside_out ho) (by rw [hg]; rfl)
  | fetch hg ho | load hg ho | done hg ho => exact h.at (outside_out ho) (by rw [hg]; rfl)
  | inside hm hs => exact h.inside hs (futex_no_call hm)

theorem init_orderly (n : Nat) : (Machine.init n).Orderly where
  stage _ := serving_of_out ⟨0, rfl⟩ rfl
  phase := serving_of_out ⟨0, rfl⟩ rfl
  owned := ⟨_, Futex.init_owned⟩

/-- A thread has its mutex at a stage where no call of it gives the mutex. -/
theorem Machine.Orderly.stage_holds {n : Nat} {s : Machine n} {u : Fin n} (h : s.Orderly)
    (hu : s.stage u = .parking ∨ s.stage u = .parked ∨ s.stage u = .going ∨ s.stage u = .gone) :
    s.fx.holds (some u) u = true := by
  have hheld : s.fx.holds (some u) = only u := by
    have hserve := h.stage u
    rcases hu with hu | hu | hu | hu <;> rw [hu] at hserve <;>
      rcases hserve with ⟨-, hh⟩ | ⟨p, hm, -, hh⟩
    all_goals try exact hh
    all_goals first | (cases hm; done) | (obtain rfl := List.mem_singleton.mp hm; exact hh)
  rw [hheld]
  exact only_self u

/-- The mutex of a thread keeps it and the controlling thread apart. -/
theorem Machine.Orderly.apart {n : Nat} {s : Machine n} (h : s.Orderly) {t : Fin n} {m : Nat}
    (hm : s.fx.Has (some t) m) : ¬ s.fx.Has none m := by
  obtain ⟨o, ho⟩ := h.owned
  intro hn
  cases (ho.has_iff hm).mp hn

end

end Oin17.Tpool
