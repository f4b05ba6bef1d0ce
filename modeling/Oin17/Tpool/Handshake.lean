import Oin17.Tpool.Workers

namespace Oin17.Tpool
open Dialogue Function Run

/-- The next step of the controlling thread is the return of `thread_stop`. -/
def Stopping (s : Crew) (t : Nat) : Prop :=
  (∃ c v k waiting, s.ctl = .busy c (.ask (.set t false) v k) waiting) ∧ s.flags.running t = false

/-- The step by which `thread_start` lets a thread run. -/
def Starting (t : Nat) (s : Crew) (a : Act) : Prop :=
  a = .main ∧ ∃ c v k, s.ctl = .busy c (.ask (.set t true) v k) false

/-- A thread that is not running and may not run. -/
def Quiet (t : Nat) (s : Crew) : Prop := s.flags.canrun t = false ∧ s.flags.running t = false

section Quietness
variable {npools : UInt64} {s s' : Crew} {t : Nat}

theorem resume_flags (h : s.resume c p = some s') : s'.flags = s.flags := by
  cases p with
  | crash => cases h
  | done r v =>
    obtain rfl := Option.some.inj h
    rfl
  | ask r v k =>
    obtain rfl := Option.some.inj h
    rfl

theorem shake_flags {q : Prop} [Decidable q]
    (h : (if q then s.resume c p else some { s with ctl := x }) = some s') : s'.flags = s.flags := by
  split at h
  · exact resume_flags h
  · obtain rfl := Option.some.inj h
    rfl

theorem main_flags (hm : s.main = some s') : s'.flags = s.flags ∨
    ∃ c t b v k, s.ctl = .busy c (.ask (.set t b) v k) false ∧ s'.flags = (s.setRun t b).flags := by
  obtain ⟨v, e, place, ctl⟩ := s
  cases ctl with
  | idle => cases hm
  | busy c p waiting =>
    cases p with
    | crash => cases hm
    | done r u =>
      obtain rfl := Option.some.inj hm
      exact Or.inl rfl
    | ask r u k =>
      cases r with
      | running t => exact Or.inl (resume_flags hm)
      | set t b =>
        cases waiting with
        | true => exact Or.inl (shake_flags hm)
        | false => exact Or.inr ⟨c, t, b, u, k, rfl, shake_flags hm⟩

/-- Only `thread_start` ends the quiet of a thread. -/
theorem quiet_step (h : Quiet t s) {a : Act} (ha : ¬ Starting t s a)
    (hs : crewStep npools s a = some s') : Quiet t s' := by
  cases a with
  | invoke c =>
    rw [crewStep] at hs
    split at hs
    · rw [Quiet, resume_flags hs]
      exact h
    · cases hs
  | main =>
    rcases main_flags hs with hf | ⟨c, u, b, v, k, hctl, hf⟩
    · rw [Quiet, hf]
      exact h
    · rw [Quiet, hf]
      refine ⟨?_, h.2⟩
      by_cases hu : t = u
      · subst hu
        cases b with
        | false => exact setRun_canrun s t false
        | true => exact absurd ⟨rfl, c, v, k, hctl⟩ ha
      · rw [Crew.setRun]
        simp only [update_of_ne hu]
        exact h.1
  | check u =>
    rw [crewStep] at hs
    split at hs
    · split at hs
      · obtain rfl := Option.some.inj hs
        refine ⟨h.1, ?_⟩
        by_cases hu : t = u
        · subst hu
          simp only [Crew.check, update_self]
          exact h.1
        · simp only [Crew.check, update_of_ne hu]
          exact h.2
      · cases hs
    · cases hs
  | call u =>
    rw [crewStep] at hs
    split at hs
    · obtain ⟨p, -, rfl⟩ := Option.map_eq_some_iff.mp hs
      exact h
    · cases hs
  | ret u =>
    rw [crewStep] at hs
    split at hs
    · obtain rfl := Option.some.inj hs
      exact h
    · cases hs

theorem quiet_run (h : Quiet t s) (hn : Steps (crewStep npools) (fun s a => ¬ Starting t s a) s as)
    (he : exec (crewStep npools) s as = some s') : Quiet t s' :=
  hn.last (Quiet t) (fun _ _ _ hq hs ha => quiet_step hq ha hs) h he

/-- The return of `thread_stop` leaves its thread quiet. -/
theorem Crew.Safe.stopping (h : s.Safe npools) (hs : Stopping s t) (hm : s.main = some s') :
    Quiet t s' := by
  obtain ⟨⟨c, v, k, waiting, hctl⟩, hrun⟩ := hs
  rcases main_flags hm with hf | ⟨c', u, b, v', k', hctl', hf⟩
  · rw [Quiet, hf]
    refine ⟨?_, hrun⟩
    have hready := h.ready
    rw [hctl] at hready
    cases hready with
    | waiting _ hc _ => exact hc
    | going hs _ _ => rw [hs t, hrun]
  · rw [hctl] at hctl'
    cases hctl'
    rw [Quiet, hf]
    exact ⟨setRun_canrun s t false, hrun⟩

theorem Crew.Safe.idle (h : s.Safe npools) (hq : Quiet t s) : s.place t = .idle := by
  by_contra hne
  have := h.running t hne
  rw [hq.2] at this
  cases this

/-- At the return of `tpool_stop` no thread runs for the pool. -/
theorem Crew.Safe.stopped (h : s.Safe npools) {id : Nat} (hid : id < npools.toNat)
    (hctl : s.ctl = .busy (.stop id) (.done r v) w) (hrun : s.flags.running t = true) :
    s.vars.pool t ≠ some id := by
  have hready := h.ready
  rw [hctl] at hready
  cases hready with
  | going _ hv hp =>
    obtain rfl : v = s.vars := hv
    obtain ⟨l, hl, hend⟩ := hp.2
    have hnil := hend id rfl (Int.natCast_nonneg id) (Int.ofNat_lt.mpr hid)
    intro hpool
    have := (hl.mem id t).mpr ⟨hrun, hpool⟩
    rw [Int.toNat_natCast] at hnil
    rw [hnil] at this
    cases this

end Quietness

/-- In any interleaving, a thread is out of every function from the return of
`thread_stop` to a later `thread_start`, and when `tpool_stop` returns no thread is in
the function of the pool. -/
theorem stop_is_final (npools : UInt64) (as : List Act) (s : Crew)
    (h : exec (crewStep npools) Crew.init as = some s) :
    (∀ t s', Stopping s t → crewStep npools s .main = some s' →
      ∀ bs u, Steps (crewStep npools) (fun s a => ¬ Starting t s a) s' bs →
        exec (crewStep npools) s' bs = some u → u.place t = .idle) ∧
    ∀ id : Nat, id < npools.toNat → ∀ r v w, s.ctl = .busy (.stop id) (.done r v) w →
      ∀ t, (∀ p f a, s.place t = .exec p f a →
          p ≠ id ∧ (s.vars.pools p).func = f ∧ (s.vars.pools p).arg = a) ∧
        (s.place t = .called → s.vars.pool t ≠ some id) := by
  have hsafe := crew_safe h
  constructor
  · intro t s' hs hm bs u hn hu
    have hsafe' : u.Safe npools := by
      apply exec_inv (fun s => s.Safe npools) (fun _ => True) ?_ (crewStep_safe hsafe hm)
        (fun _ _ => trivial) hu
      exact fun s a s' hs _ ha => crewStep_safe hs ha
    exact hsafe'.idle (quiet_run (hsafe.stopping hs hm) hn hu)
  · intro id hid r v w hctl t
    refine ⟨fun p f a ht => ?_, fun ht => ?_⟩
    · obtain ⟨hpool, hwork⟩ := hsafe.work t p f a ht
      have hrun := hsafe.running t (by simp [ht])
      refine ⟨fun he => ?_, hwork⟩
      exact hsafe.stopped hid hctl hrun (he ▸ hpool)
    · exact hsafe.stopped hid hctl (hsafe.running t (by simp [ht]))

/-- A stop that waits for the function to return. -/
theorem stop_after_return : ∃ s s', exec (crewStep 2) Crew.init [.invoke (.start 1 7 8), .main, .main,
      .check 0, .main, .main, .call 0, .invoke (.stop 0), .main, .ret 0, .check 0] = some s ∧
    crewStep 2 s .main = some s' ∧ s'.place 0 = .idle := by
  obtain ⟨s, h, hs, s', hm⟩ : ∃ s, exec (crewStep 2) Crew.init [.invoke (.start 1 7 8), .main, .main,
      .check 0, .main, .main, .call 0, .invoke (.stop 0), .main, .ret 0, .check 0] = some s ∧
      Stopping s 0 ∧ ∃ s', crewStep 2 s .main = some s' :=
    ⟨_, rfl, ⟨⟨_, _, _, _, rfl⟩, rfl⟩, _, rfl⟩
  exact ⟨s, s', h, hm, (stop_is_final 2 _ s h).1 0 s' hs hm [] s' trivial rfl⟩

end Oin17.Tpool
