import Oin17.Tpool.Handshake
import Oin17.Tpool.Refined
import Oin17.Tpool.Settled

namespace Oin17.Tpool
open Dialogue Function Run Refine Utils

section
variable {npools : UInt64} {s s' : Machine npools.toNat} {m : Move npools.toNat} {t : Nat}

/-- A thread that does not run and may not run, until it is started. -/
theorem turn_quiet (hs : s.Settled) (ho : s.Orderly) (ht : Turn npools s m s')
    (hq : s.flags.canrun t = false ∧ s.flags.running t = false)
    (hn : ∀ c k, s.phase ≠ .locking c t true k) :
    s'.flags.canrun t = false ∧ s'.flags.running t = false := by
  constructor
  · rcases turn_canrun ho ht t with hc | ⟨-, c, b, k, hp, -, hb, -⟩
    · rw [hc]
      exact hq.1
    · cases b with
      | true => exact absurd hp (hn c k)
      | false => exact hb
  · rcases turn_running ho ht t with hr | ⟨u, -, rfl, -, -, -, ⟨-, -, hr⟩ | ⟨hg, -, -⟩⟩
    · rw [hr]
      exact hq.2
    · exact hr
    · have := hs.going u hg
      rw [hq.1] at this
      cases this

theorem run_quiet {bs : List (Move npools.toNat)} (hs : s.Settled) (ho : s.Orderly)
    (hq : s.flags.canrun t = false ∧ s.flags.running t = false)
    (hn : Steps (machineStep npools) (fun s _ => ∀ c k, s.phase ≠ .locking c t true k) s bs)
    (he : exec (machineStep npools) s bs = some s') :
    s'.Settled ∧ s'.flags.running t = false := by
  induction bs generalizing s with
  | nil =>
    obtain rfl := Option.some.inj he
    exact ⟨hs, hq.2⟩
  | cons m bs ih =>
    obtain ⟨r, hr, he⟩ := Option.bind_eq_some_iff.mp he
    obtain ⟨hn', hn⟩ := hn r hr
    have ht := turn hr
    exact ih (turn_settled hs ho ht) (turn_orderly ho ht) (turn_quiet hs ho ht hq hn') hn he

/-- What the controlling thread writes on its way to a request is not what a thread that runs
reads. -/
theorem turn_keeps {a : Crew} (hf : s.Follows a) (hsafe : a.Safe npools)
    (ht : Turn npools s m s') : Keeps s.flags s.vars s'.vars := by
  have hctl := hf.ctl
  have hready := hsafe.ready
  have hrefl : Keeps s.flags s.vars s.vars := world.refl _ _
  cases ht with
  | invoke hp hv =>
    rw [hp] at hctl
    cases hctl with
    | idle hc hvars he =>
      rw [hc] at hready
      cases hready with
      | idle hl => exact he ▸ hvars ▸ sat_shows (code_sat hl _) (hvars.symm ▸ hv)
  | look hp ho hv =>
    rw [hp] at hctl
    cases hctl with
    | asking hc hvars he =>
      rw [hc] at hready
      cases hready with
      | going hs hw hsat =>
        obtain rfl := hw
        exact he ▸ hvars ▸ sat_shows hsat.2 (he.symm ▸ hv)
  | resume hp ho hv =>
    rw [hp] at hctl
    cases hctl with
    | leaving hc hs hk he =>
      obtain rfl := shows_unique hs hv
      exact he ▸ hk
  | _ => exact hrefl

/-- The threads read their pools without a lock, and there is no race: what a thread reads
between its lock and the end of its function stays as it is at every step of the others. -/
theorem reads_unraced (npools : UInt64) (as : List (Move npools.toNat)) (s : Machine npools.toNat)
    (h : exec (machineStep npools) (Machine.init _) as = some s) (m : Move npools.toNat)
    (s' : Machine npools.toNat) (hs : machineStep npools s m = some s') (t : Fin npools.toNat)
    (hout : (s.stage t).out = true) :
    s'.vars.pool t = s.vars.pool t ∧ ∀ p, s.vars.pool t = some p →
      (s'.vars.pools p).func = (s.vars.pools p).func ∧
        (s'.vars.pools p).arg = (s.vars.pools p).arg := by
  obtain ⟨ho, hset⟩ := run_settled h
  obtain ⟨a, -, -, hrel⟩ := simulates_crew.trace
    ⟨init_orderly _, Or.inr ⟨init_follows _, init_safe npools⟩⟩ h
  have ht := turn hs
  have hkeeps : Keeps s.flags s.vars s'.vars := by
    rcases hrel with hd | ⟨hf, hsafe⟩
    · rw [(doomed_turn hd ht).2.2]
      exact world.refl _ _
    · exact turn_keeps hf hsafe ht
  exact hkeeps t (hset.working t hout)

/-- A start of another pool while a thread is on its way to its function. -/
theorem reads_unraced_start : ∃ s s',
    exec (machineStep 2) (Machine.init _) (asked ++ answered ++ [.work 0, .work 0]) = some s ∧
    machineStep 2 s (.invoke (.start 1 9 9)) = some s' ∧ s'.vars.pool 0 = s.vars.pool 0 := by
  have hrun : (exec (machineStep 2) (Machine.init _) (asked ++ answered ++ [.work 0, .work 0])).any
      (fun s => (s.stage (0 : Fin 2)).out &&
        (machineStep 2 s (.invoke (.start 1 9 9))).isSome) = true := by decide +kernel
  obtain ⟨s, h, hs⟩ := (Option.any_eq_true _ _).mp hrun
  obtain ⟨hout, hsome⟩ := Bool.and_eq_true_iff.mp hs
  obtain ⟨s', hs'⟩ := Option.isSome_iff_exists.mp hsome
  exact ⟨s, s', h, hs', (reads_unraced 2 _ s h _ s' hs' (0 : Fin 2) hout).1⟩

/-- What `tpool_stop` and `thread_stop` promise does not rest on the mutexes to be right: when
`thread_stop` is past its last section its thread is out of every function until it is started
again, and when `tpool_stop` is done no thread is in the function of the pool. -/
theorem stops_last (npools : UInt64) (as : List (Move npools.toNat)) (s : Machine npools.toNat)
    (h : exec (machineStep npools) (Machine.init _) as = some s) :
    (∀ c (t : Fin npools.toNat) p, s.phase = .leaving c t false p → ∀ bs u,
      exec (machineStep npools) s bs = some u →
      Steps (machineStep npools) (fun s _ => ∀ c k, s.phase ≠ .locking c t true k) s bs →
      (u.stage t).out = false) ∧
    ∀ id : Nat, id < npools.toNat → ∀ r v, s.phase = .asking (.stop id) (.done r v) →
      ∀ t p f a, s.stage t = .exec p f a →
        p ≠ id ∧ (s.vars.pools p).func = f ∧ (s.vars.pools p).arg = a := by
  obtain ⟨ho, hs⟩ := run_settled h
  constructor
  · intro c t p hp bs u he hn
    obtain ⟨hu, hrun⟩ := run_quiet hs ho (hs.leaving c t false p hp) hn he
    by_contra hout
    have hwork := hu.working t
    rw [hrun] at hwork
    cases hg : u.stage t <;> rw [hg] at hout hwork <;> simp [Stage.out] at hout hwork
  · intro id hid r v hp t p f a hg
    obtain ⟨x, -, -, hrel⟩ := simulates_crew.trace
      ⟨init_orderly _, Or.inr ⟨init_follows _, init_safe npools⟩⟩ h
    obtain ⟨hf, hsafe⟩ := hrel.resolve_left (by rw [Machine.doomed, hp]; simp)
    have hctl := hf.ctl
    rw [hp] at hctl
    cases hctl with
    | asking hc hv he =>
      have hplace : x.place t = .exec p f a := hf.placed hg
      obtain ⟨hpool, hwork⟩ := hsafe.work t p f a hplace
      refine ⟨fun hpid => ?_, hv ▸ hwork⟩
      exact hsafe.stopped hid hc (hsafe.running t (by simp [hplace])) (hpid ▸ hpool)

end

/-- The thread that a stop is over for, at the end of its last section. -/
def Phase.stopped : Phase → Option Nat
  | .leaving _ t false _ => some t
  | _ => none

theorem stopped_leaving {g : Phase} (h : g.stopped = some t) : ∃ c p, g = .leaving c t false p := by
  cases g with
  | leaving c u b p =>
    cases b <;> simp [Phase.stopped] at h
    exact ⟨c, p, by rw [h]⟩
  | _ => cases h

/-- A stop that the thread answers once it is out of the function. -/
theorem stops_last_zero : ∃ s,
    exec (machineStep 2) (Machine.init _) (asked ++ answered ++ halted) = some s ∧
    (s.stage (0 : Fin 2)).out = false := by
  have hrun : (exec (machineStep 2) (Machine.init _) (asked ++ answered ++ halted)).any
      (fun s => s.phase.stopped = some 0) = true := by decide +kernel
  obtain ⟨s, h, hs⟩ := (Option.any_eq_true _ _).mp hrun
  obtain ⟨c, p, hp⟩ := stopped_leaving (of_decide_eq_true hs)
  exact ⟨s, h, (stops_last 2 _ s h).1 c (0 : Fin 2) p hp [] s rfl trivial⟩

end Oin17.Tpool
