import Oin17.Tpool.Sections
import Oin17.Utils.Futex.Signals

namespace Oin17.Tpool
open Dialogue Function Run Utils
open Utils.Futex (Serving)

/-- A thread that is past the test of `canrun` goes on by what it saw, and has a function to
run or has set `running` to 0. Between its sections the controlling thread finds the flags as
it left them, and a wait begins only where there is something to wait for. -/
structure Machine.Settled {n : Nat} (s : Machine n) : Prop where
  parked : ∀ t : Fin n, s.stage t = .parking ∨ s.stage t = .parked → s.flags.canrun t = false
  going : ∀ t : Fin n, s.stage t = .going → s.flags.canrun t = true
  working : ∀ t : Fin n, (s.stage t).out = true → s.flags.running t = true
  halted : ∀ t : Fin n, s.stage t = .parked ∨ (s.fx.pc (some t)).waits = true →
    s.flags.running t = false
  prewaits : ∀ t : Fin n, (s.fx.pc (some t)).prewaits = true → s.flags.canrun t = false
  testing : ∀ c t b k, s.phase = .testing c t b k → s.flags.canrun t = b ∧
    ((s.fx.pc none).prewaits = true → s.flags.running t ≠ b)
  leaving : ∀ c t b p, s.phase = .leaving c t b p → s.flags.canrun t = b ∧ s.flags.running t = b

theorem prewaits_holds {p : Futex.Pc} {op : Futex.Op} (h : p.prewaits = true)
    (hd : p.During op) : ∃ c m, op = .wait c m ∧ p.holds = some m := by
  cases p with
  | noting c m | checking c m v | binding c m v | rechecking c m v => exact ⟨c, m, hd, rfl⟩
  | peeking m k | freeing m k | unlocking m k =>
    cases k with
    | caller => cases h
    | wait c v => exact ⟨c, m, hd, rfl⟩
  | _ => cases h

section
variable {npools : UInt64} {s s' : Machine npools.toNat} {m : Move npools.toNat}

/-- What a step is for the futex module: nothing, or a step of it, which is a call of
`cond_wait` only where there is something to wait for. -/
theorem turn_fx (ht : Turn npools s m s') : s'.fx = s.fx ∨ ∃ a, Futex.step s.fx a = some s'.fx ∧
    (m.futex = some a ∨ ∃ u op, a = .call u op) ∧
    (∀ c x, a = .call none (.wait c x) →
      s'.phase = s.phase ∧ s'.flags = s.flags ∧
        ∃ c t b k, s.phase = .testing c t b k ∧ s.flags.running t ≠ b) ∧
    (∀ (t : Fin npools.toNat) c x, a = .call (some t) (.wait c x) → s.stage t = .parked) := by
  cases ht with
  | invoke | look | resume | ret | stop | test | call | fetch | argue | load | done =>
    exact Or.inl rfl
  | lock hp hs | start hp hs | leave hp hr hs | top hg hs | park hg hs | go hg hs | gone hg hs =>
    exact Or.inr ⟨_, hs, Or.inr ⟨_, _, rfl⟩, by simp, by simp⟩
  | @wait c t b k fx hp hr hs =>
    refine Or.inr ⟨_, hs, Or.inr ⟨_, _, rfl⟩, ?_, by simp⟩
    exact fun _ _ _ => ⟨rfl, rfl, c, t, b, k, hp, hr⟩
  | @parked fx t hg hs =>
    refine Or.inr ⟨_, hs, Or.inr ⟨_, _, rfl⟩, by simp, fun u c x hu => ?_⟩
    cases hu
    exact hg
  | inside hm hs =>
    have hc := futex_no_call hm
    exact Or.inr ⟨_, hs, Or.inl hm, fun c x h => absurd h (hc _ _),
      fun t c x h => absurd h (hc _ _)⟩

/-- `canrun` is set by the controlling thread, with the mutex. -/
theorem turn_canrun (ho : s.Orderly) (ht : Turn npools s m s') (x : Nat) :
    s'.flags.canrun x = s.flags.canrun x ∨ s.fx.holds none x = true ∧
      ∃ c b k, s.phase = .locking c x b k ∧ s'.phase = .testing c x b k ∧
        s'.flags.canrun x = b ∧ (b = true → s'.fx.pc none = .signalling x) := by
  have hset : ∀ {c t b k}, s.phase = .locking c t b k → (∃ r, s.fx.pc none = .out r) →
      update s.flags.canrun t b x = s.flags.canrun x ∨ s.fx.holds none x = true ∧ t = x := by
    rintro c t b k hp ⟨r, hr⟩
    by_cases hx : x = t
    · refine Or.inr ⟨?_, hx.symm⟩
      rw [ho.phase_out hr, hp, hx]
      exact only_self t
    · exact Or.inl (update_of_ne hx _ _)
  cases ht with
  | @start c t k fx hp hs =>
    refine (hset hp (Futex.step_call hs).1).imp_right ?_
    rintro ⟨hh, rfl⟩
    exact ⟨hh, c, true, k, hp, rfl, update_self _ _ _, fun _ => (Futex.step_call hs).2.1⟩
  | @stop c t k hp hout =>
    refine (hset hp (outside_out hout)).imp_right ?_
    rintro ⟨hh, rfl⟩
    exact ⟨hh, c, false, k, hp, rfl, update_self _ _ _, by simp⟩
  | _ => exact Or.inl rfl

/-- `running` is set by a thread, with its mutex. -/
theorem turn_running (ho : s.Orderly) (ht : Turn npools s m s') (x : Nat) :
    s'.flags.running x = s.flags.running x ∨ ∃ u : Fin npools.toNat, m = .work u ∧ x = u ∧
      s.fx.holds (some u) u = true ∧ s'.phase = s.phase ∧ s'.fx.pc (some u) = .signalling u ∧
      ((s.stage u = .parking ∧ s'.stage u = .parked ∧ s'.flags.running x = false) ∨
        (s.stage u = .going ∧ s'.stage u = .gone ∧ s'.flags.running x = true)) := by
  have hheld : ∀ {u : Fin npools.toNat}, (s.stage u).held u = only u →
      (∃ r, s.fx.pc (some u) = .out r) → s.fx.holds (some u) u = true := by
    rintro u hh ⟨r, hr⟩
    rw [ho.stage_out hr, hh]
    exact only_self u
  cases ht with
  | @park fx u hg hs =>
    by_cases hx : x = u
    · obtain ⟨hout, hpc, -⟩ := Futex.step_call hs
      refine Or.inr ⟨u, rfl, hx, hheld (by rw [hg]; rfl) hout, rfl, hpc, Or.inl ⟨hg, ?_, ?_⟩⟩
      · exact (stage_at _ u _ u).trans (if_pos rfl)
      · rw [hx]
        exact update_self _ _ _
    · exact Or.inl (update_of_ne hx _ _)
  | @go fx u hg hs =>
    by_cases hx : x = u
    · obtain ⟨hout, hpc, -⟩ := Futex.step_call hs
      refine Or.inr ⟨u, rfl, hx, hheld (by rw [hg]; rfl) hout, rfl, hpc, Or.inr ⟨hg, ?_, ?_⟩⟩
      · exact (stage_at _ u _ u).trans (if_pos rfl)
      · rw [hx]
        exact update_self _ _ _
    · exact Or.inl (update_of_ne hx _ _)
  | _ => exact Or.inl rfl

/-- How a thread goes from one stage to another. -/
inductive Advance (s s' : Machine npools.toNat) (u : Fin npools.toNat) : Stage → Stage → Prop where
  | same : Advance s s' u g g
  | top : Advance s s' u .top .testing
  | test (he : s'.flags = s.flags) :
      Advance s s' u .testing (if s.flags.canrun u then .going else .parking)
  | park (hr : s'.flags.running u = false) : Advance s s' u .parking .parked
  | parked : Advance s s' u .parked .testing
  | go (hr : s'.flags.running u = true) : Advance s s' u .going .gone
  | out (he : s'.flags = s.flags) (hg : g.out = true) (hg' : g'.out = true) :
      Advance s s' u g g'
  | done : Advance s s' u (.exec p f a) .top

theorem advance_at {t u : Fin npools.toNat} {g : Stage} {r : Machine npools.toNat}
    (h : u = t → Advance s s' u (s.stage u) g) (hr : r.stage = s.stage) :
    Advance s s' u (s.stage u) ((r.at t g).stage u) := by
  rw [stage_at, hr]
  by_cases hu : u = t
  · rw [if_pos hu]
    exact h hu
  · rw [if_neg hu]
    exact .same

theorem turn_stage (ht : Turn npools s m s') (u : Fin npools.toNat) :
    Advance s s' u (s.stage u) (s'.stage u) := by
  cases ht with
  | invoke | look | resume | ret | stop | lock | start | leave | wait | inside => exact .same
  | top hg hs =>
    refine advance_at (fun hu => ?_) rfl
    rw [hu, hg]
    exact .top
  | test hg ho =>
    refine advance_at (fun hu => ?_) rfl
    subst hu
    rw [hg]
    exact .test rfl
  | park hg hs =>
    refine advance_at (r := s.setRunning _ false) (fun hu => ?_) rfl
    subst hu
    rw [hg]
    exact .park (update_self _ _ _)
  | parked hg hs =>
    refine advance_at (fun hu => ?_) rfl
    rw [hu, hg]
    exact .parked
  | go hg hs =>
    refine advance_at (r := s.setRunning _ true) (fun hu => ?_) rfl
    subst hu
    rw [hg]
    exact .go (update_self _ _ _)
  | gone hg | call hg | fetch hg | argue hg | load hg =>
    refine advance_at (fun hu => ?_) rfl
    rw [hu, hg]
    exact .out rfl rfl rfl
  | done hg ho =>
    refine advance_at (fun hu => ?_) rfl
    rw [hu, hg]
    exact .done

/-- How the controlling thread gets to the test of `running`, and past it. -/
theorem turn_testing (ht : Turn npools s m s') (hp : s'.phase = .testing c t b k) :
    s.phase = .testing c t b k ∨
      s.phase = .locking c t b k ∧ s'.flags.canrun t = b ∧ (s'.fx.pc none).waits = false := by
  cases ht with
  | invoke | look | resume | ret | lock | leave => cases hp
  | start hp' hs =>
    cases hp
    refine Or.inr ⟨hp', update_self _ _ _, ?_⟩
    rw [(Futex.step_call hs).2.1]
    rfl
  | stop hp' ho =>
    cases hp
    obtain ⟨r, hr⟩ := outside_out ho
    refine Or.inr ⟨hp', update_self _ _ _, ?_⟩
    change (s.fx.pc none).waits = false
    rw [hr]
    rfl
  | _ => exact Or.inl hp

theorem turn_leaving (ht : Turn npools s m s') (hp : s'.phase = .leaving c t b p) :
    s.phase = .leaving c t b p ∨
      s'.flags = s.flags ∧ s.flags.running t = b ∧ ∃ k, s.phase = .testing c t b k := by
  cases ht with
  | invoke | look | resume | ret | lock | start | stop => cases hp
  | leave hp' hr hs =>
    cases hp
    exact Or.inr ⟨rfl, hr, _, hp'⟩
  | _ => exact Or.inl hp

theorem Machine.Orderly.prewaits_stage {u : Fin npools.toNat} (ho : s.Orderly)
    (h : (s.fx.pc (some u)).prewaits = true) : s.fx.Has (some u) u := by
  rcases ho.stage u with ⟨⟨r, hr⟩, -⟩ | ⟨p, hm, hd, -⟩
  · rw [hr] at h
    cases h
  · obtain ⟨c, x, hp, hx⟩ := prewaits_holds h hd
    cases hg : s.stage u <;> rw [hg] at hm <;> simp [Stage.ops] at hm
    all_goals rcases hm with rfl | rfl <;> cases hp
    exact Or.inr hx

theorem Machine.Orderly.prewaits_phase (ho : s.Orderly) (hp : s.phase = .testing c t b k)
    (h : (s.fx.pc none).prewaits = true) : s.fx.Has none t := by
  have hserve := ho.phase
  rw [hp] at hserve
  rcases hserve with ⟨⟨r, hr⟩, -⟩ | ⟨p, hm, hd, -⟩
  · rw [hr] at h
    cases h
  · obtain ⟨c, x, hop, hx⟩ := prewaits_holds h hd
    simp [Phase.ops] at hm
    rcases hm with rfl | rfl <;> cases hop
    exact Or.inr hx

theorem init_settled (n : Nat) : (Machine.init n).Settled where
  parked t h := by rcases h with h | h <;> cases h
  going t h := by cases h
  working t h := by cases h
  halted t h := by rcases h with h | h <;> cases h
  prewaits t h := by cases h
  testing c t b k h := by cases h
  leaving c t b p h := by cases h

theorem settled_parked (h : s.Settled) (ho : s.Orderly) (ht : Turn npools s m s')
    (t : Fin npools.toNat) (hg : s'.stage t = .parking ∨ s'.stage t = .parked) :
    s'.flags.canrun t = false := by
  have hadv := turn_stage ht t
  have hkeep : s.stage t = .parking ∨ s.stage t = .parked → s'.flags.canrun t = false := by
    intro hs
    rcases turn_canrun ho ht t with hc | ⟨hh, -⟩
    · rw [hc]
      exact h.parked t hs
    · refine absurd (Or.inl hh) (ho.apart (Or.inl (ho.stage_holds ?_)))
      exact hs.imp_right Or.inl
  generalize hs : s.stage t = g at hadv hkeep
  generalize s'.stage t = g' at hadv hg
  cases hadv with
  | same => exact hkeep hg
  | test he =>
    rw [he]
    split at hg
    · simp at hg
    · simp [*]
  | park hr => exact hkeep (Or.inl rfl)
  | out he hs hs' => rcases hg with rfl | rfl <;> cases hs'
  | _ => simp at hg

theorem settled_going (h : s.Settled) (ho : s.Orderly) (ht : Turn npools s m s')
    (t : Fin npools.toNat) (hg : s'.stage t = .going) : s'.flags.canrun t = true := by
  have hadv := turn_stage ht t
  have hkeep : s.stage t = .going → s'.flags.canrun t = true := by
    intro hs
    rcases turn_canrun ho ht t with hc | ⟨hh, -⟩
    · rw [hc]
      exact h.going t hs
    · refine absurd (Or.inl hh) (ho.apart (Or.inl (ho.stage_holds ?_)))
      exact Or.inr (Or.inr (Or.inl hs))
  rw [hg] at hadv
  generalize hs : s.stage t = g at hadv hkeep
  generalize hg' : Stage.going = g' at hadv
  cases hadv with
  | same => exact hkeep hg'.symm
  | test he =>
    rw [he]
    split at hg'
    · assumption
    · cases hg'
  | out he hs hs' => cases hg' ▸ hs'
  | _ => cases hg'

/-- A thread changes `running` only on its way between two stages. -/
theorem turn_running_stage (ho : s.Orderly) (ht : Turn npools s m s') (t : Fin npools.toNat)
    (hg : s'.stage t = s.stage t) : s'.flags.running t = s.flags.running t := by
  rcases turn_running ho ht t with hr | ⟨u, -, htu, -, -, -, hsteps⟩
  · exact hr
  · obtain rfl : t = u := Fin.ext htu
    rw [hg] at hsteps
    rcases hsteps with ⟨h, h', -⟩ | ⟨h, h', -⟩ <;> rw [h] at h' <;> cases h'

theorem settled_working (h : s.Settled) (ho : s.Orderly) (ht : Turn npools s m s')
    (t : Fin npools.toNat) (hg : (s'.stage t).out = true) : s'.flags.running t = true := by
  have hadv := turn_stage ht t
  have hkeep : s'.stage t = s.stage t → s'.flags.running t = true := by
    intro hs
    rw [turn_running_stage ho ht t hs]
    rw [hs] at hg
    exact h.working t hg
  have hold := h.working t
  generalize s.stage t = g at hadv hkeep hold
  generalize s'.stage t = g' at hadv hg hkeep
  cases hadv with
  | same => exact hkeep rfl
  | go hr => exact hr
  | out he hg hg' =>
    rw [he]
    exact hold hg
  | test he => split at hg <;> cases hg
  | _ => cases hg

/-- Where a thread that is still in a wait was in the same wait, unless it has just begun. -/
theorem turn_waits (ht : Turn npools s m s') (u : Option (Fin npools.toNat)) :
    (((s'.fx.pc u).waits = true → (s.fx.pc u).waits = true) ∧
      ((s'.fx.pc u).prewaits = true → (s.fx.pc u).prewaits = true)) ∨
    (∃ t : Fin npools.toNat, u = some t ∧ s.stage t = .parked) ∨
    (u = none ∧ s'.phase = s.phase ∧ s'.flags = s.flags ∧
      ∃ c t b k, s.phase = .testing c t b k ∧ s.flags.running t ≠ b) := by
  rcases turn_fx ht with hfx | ⟨a, hs, -, hnone, hsome⟩
  · rw [hfx]
    exact Or.inl ⟨id, id⟩
  · by_cases hc : ∀ c x, a ≠ .call u (.wait c x)
    · exact Or.inl (Futex.step_waits hs hc)
    · push Not at hc
      obtain ⟨c, x, rfl⟩ := hc
      cases u with
      | none => exact Or.inr (Or.inr ⟨rfl, hnone c x rfl⟩)
      | some t => exact Or.inr (Or.inl ⟨t, rfl, hsome t c x rfl⟩)

theorem settled_halted (h : s.Settled) (ho : s.Orderly) (ht : Turn npools s m s')
    (t : Fin npools.toNat) (hg : s'.stage t = .parked ∨ (s'.fx.pc (some t)).waits = true) :
    s'.flags.running t = false := by
  rcases turn_running ho ht t with hr | ⟨u, -, htu, -, -, hpc, hsteps⟩
  · rw [hr]
    rcases hg with hg | hw
    · have hadv := turn_stage ht t
      rw [hg] at hadv
      have hold := h.halted t
      generalize s.stage t = g at hadv hold
      generalize hg' : Stage.parked = g' at hadv
      cases hadv with
      | same => exact hold (Or.inl hg'.symm)
      | park hr' => rw [← hr, hr']
      | test he => split at hg' <;> cases hg'
      | out he hs hs' => cases hg' ▸ hs'
      | _ => cases hg'
    · rcases turn_waits ht (some t) with ⟨hold, -⟩ | ⟨u, hu, hs⟩ | ⟨hu, -⟩
      · exact h.halted t (Or.inr (hold hw))
      · cases hu
        exact h.halted t (Or.inl hs)
      · cases hu
  · obtain rfl : t = u := Fin.ext htu
    rcases hsteps with ⟨-, -, hr⟩ | ⟨-, hgone, -⟩
    · exact hr
    · rw [hgone, hpc] at hg
      rcases hg with hg | hg <;> cases hg

theorem settled_prewaits (h : s.Settled) (ho : s.Orderly) (ht : Turn npools s m s')
    (t : Fin npools.toNat) (hw : (s'.fx.pc (some t)).prewaits = true) :
    s'.flags.canrun t = false := by
  have hhas : s.flags.canrun t = false ∧ s.fx.Has (some t) t := by
    rcases turn_waits ht (some t) with ⟨-, hold⟩ | ⟨u, hu, hs⟩ | ⟨hu, -⟩
    · exact ⟨h.prewaits t (hold hw), ho.prewaits_stage (hold hw)⟩
    · cases hu
      exact ⟨h.parked _ (Or.inr hs), Or.inl (ho.stage_holds (Or.inr (Or.inl hs)))⟩
    · cases hu
  rcases turn_canrun ho ht t with hc | ⟨hh, -⟩
  · rw [hc]
    exact hhas.1
  · exact absurd (Or.inl hh) (ho.apart hhas.2)

theorem settled_testing (h : s.Settled) (ho : s.Orderly) (ht : Turn npools s m s')
    (hp : s'.phase = .testing c t b k) : s'.flags.canrun t = b ∧
      ((s'.fx.pc none).prewaits = true → s'.flags.running t ≠ b) := by
  rcases turn_testing ht hp with hs | ⟨-, hc, hw⟩
  · obtain ⟨hcan, hwait⟩ := h.testing c t b k hs
    refine ⟨?_, fun hw => ?_⟩
    · rcases turn_canrun ho ht t with hc | ⟨-, c', b', k', hl, -⟩
      · rw [hc, hcan]
      · rw [hs] at hl
        cases hl
    · rcases turn_waits ht none with ⟨-, hold⟩ | ⟨u, hu, -⟩ | ⟨-, -, he, c', t', b', k', hs', hr⟩
      · rcases turn_running ho ht t with hr | ⟨u, -, htu, hh, -⟩
        · rw [hr]
          exact hwait (hold hw)
        · refine absurd (ho.prewaits_phase hs (hold hw)) (ho.apart (t := u) (Or.inl ?_))
          rwa [htu]
      · cases hu
      · rw [hs] at hs'
        cases hs'
        rw [he]
        exact hr
  · exact ⟨hc, fun hw' => by rw [Futex.prewaits_waits hw'] at hw; cases hw⟩

theorem settled_leaving (h : s.Settled) (ho : s.Orderly) (ht : Turn npools s m s')
    (hp : s'.phase = .leaving c t b p) : s'.flags.canrun t = b ∧ s'.flags.running t = b := by
  rcases turn_leaving ht hp with hs | ⟨he, hr, k, hs⟩
  · obtain ⟨hcan, hrun⟩ := h.leaving c t b p hs
    constructor
    · rcases turn_canrun ho ht t with hc | ⟨-, c', b', k', hl, -⟩
      · rw [hc, hcan]
      · rw [hs] at hl
        cases hl
    · rcases turn_running ho ht t with hr | ⟨u, -, rfl, -, -, -, ⟨hg, -, hr⟩ | ⟨hg, -, hr⟩⟩
      · rw [hr, hrun]
      · rw [hr, ← hcan, h.parked u (Or.inl hg)]
      · rw [hr, ← hcan, h.going u hg]
  · rw [he]
    exact ⟨(h.testing c t b k hs).1, hr⟩

theorem turn_settled (h : s.Settled) (ho : s.Orderly) (ht : Turn npools s m s') : s'.Settled where
  parked := settled_parked h ho ht
  going := settled_going h ho ht
  working := settled_working h ho ht
  halted := settled_halted h ho ht
  prewaits := settled_prewaits h ho ht
  testing _ _ _ _ := settled_testing h ho ht
  leaving _ _ _ _ := settled_leaving h ho ht

theorem run_settled {as : List (Move npools.toNat)}
    (h : exec (machineStep npools) (Machine.init _) as = some s) : s.Orderly ∧ s.Settled := by
  refine exec_inv (fun s => s.Orderly ∧ s.Settled) (fun _ => True) ?_
    ⟨init_orderly _, init_settled _⟩ (fun _ _ => trivial) h
  rintro s m s' ⟨ho, hs⟩ - hstep
  exact ⟨turn_orderly ho (turn hstep), turn_settled hs ho (turn hstep)⟩

end

end Oin17.Tpool
