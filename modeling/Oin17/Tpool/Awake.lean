import Oin17.Tpool.Settled
import Oin17.Utils.Futex.Wakeups

namespace Oin17.Tpool
open Dialogue Function Run Utils
open Utils.Futex (Serving)

/-- The thread that the controlling thread makes a request to. -/
def Phase.partner : Phase → Option Nat
  | .locking _ t _ _ | .testing _ t _ _ | .leaving _ t _ _ => some t
  | .idle | .asking _ _ => none

/-- A thread is in a `FUTEX_WAIT` call. -/
def Machine.asleep {n : Nat} (s : Machine n) (u : Option (Fin n)) : Bool :=
  (s.fx.pc u).sleeps.isSome

/-- A signal by which `seq` gets back to what a thread in `cond_wait` has read of it. -/
def Machine.Laps {n : Nat} (s : Machine n) (m : Move n) : Prop :=
  match m.futex with
  | some a => Futex.Laps s.fx a
  | none => False

instance {n : Nat} (s : Machine n) (m : Move n) : Decidable (s.Laps m) := by
  rw [Machine.Laps]
  split <;> infer_instance

/-- Who waits for the other though there is nothing to wait for any more is about to hear of it. -/
structure Machine.Told {n : Nat} (s : Machine n) : Prop where
  worker : ∀ t : Fin n, s.flags.canrun t = true → s.fx.Dozes (some t) t →
    s.fx.Alerted (some t) t none
  main : ∀ (t : Fin n) c b k, s.phase = .testing c t b k → s.flags.running t = b →
    s.fx.Dozes none t → s.fx.Alerted none t (some t)

theorem init_told (n : Nat) : (Machine.init n).Told where
  worker t h := by cases h
  main t c b k h := by cases h

section
variable {npools : UInt64} {s s' : Machine npools.toNat} {m : Move npools.toNat}

theorem during_sleeps {p : Futex.Pc} {op : Futex.Op} (hd : p.During op)
    (hp : p.sleeps = some (.cv c)) : ∃ m, op = .wait c m := by
  cases p with
  | dozing x m =>
    cases hp
    exact ⟨m, hd⟩
  | _ => cases hp

/-- Only a thread and the controlling thread sleep on its condition variable. -/
theorem Machine.Orderly.sleepers (ho : s.Orderly) (t : Fin npools.toNat)
    (x : Option (Fin npools.toNat)) (hx : (s.fx.pc x).sleeps = some (.cv t)) :
    x = some t ∨ x = none := by
  cases x with
  | none => exact Or.inr rfl
  | some u =>
    refine Or.inl (congrArg some ?_)
    rcases ho.stage u with ⟨⟨r, hr⟩, -⟩ | ⟨p, hm, hd, -⟩
    · rw [hr] at hx
      cases hx
    · obtain ⟨x, hop⟩ := during_sleeps hd hx
      cases hg : s.stage u <;> rw [hg] at hm <;> simp [Stage.ops] at hm
      all_goals rcases hm with rfl | rfl <;> simp at hop
      exact Fin.ext hop.1

theorem turn_told (h : s.Told) (hs : s.Settled) (ho : s.Orderly) (ht : Turn npools s m s')
    (hlap : ¬ s.Laps m) : s'.Told := by
  have hfx : s'.fx = s.fx ∨ ∃ a, Futex.step s.fx a = some s'.fx ∧ ¬ Futex.Laps s.fx a := by
    refine (turn_fx ht).imp_right ?_
    rintro ⟨a, hstep, hm | ⟨u, op, rfl⟩, -⟩
    · rw [Machine.Laps, hm] at hlap
      exact ⟨a, hstep, hlap⟩
    · exact ⟨_, hstep, id⟩
  have hnoting : ∀ {u : Option (Fin npools.toNat)} {c x : Nat}, s.fx.pc u = .noting c x →
      (s.fx.pc u).prewaits = true := fun h => by rw [h]; rfl
  constructor
  · intro t hcan hd
    rcases turn_canrun ho ht t with hc | ⟨-, c, b, k, -, -, hb, hsig⟩
    · rw [hc] at hcan
      rcases hfx with hfx | ⟨a, hstep, hlap⟩
      · rw [hfx] at hd ⊢
        exact h.worker t hcan hd
      · refine Futex.alerted_step hstep hlap (fun x hx => ?_) (ho.sleepers t) (by simp)
          (h.worker t hcan) hd
        rw [hs.prewaits t (hnoting hx)] at hcan
        cases hcan
    · exact Or.inl (hsig (hb.symm.trans hcan))
  · intro t c b k hp hrun hd
    rcases turn_testing ht hp with hp' | ⟨-, -, hw⟩
    · rcases turn_running ho ht t with hr | ⟨u, -, htu, -, -, hsig, -⟩
      · rw [hr] at hrun
        rcases hfx with hfx | ⟨a, hstep, hlap⟩
        · rw [hfx] at hd ⊢
          exact h.main t c b k hp' hrun hd
        · refine Futex.alerted_step hstep hlap (fun x hx => ?_)
            (fun x hx => (ho.sleepers t x hx).symm) (by simp) (h.main t c b k hp' hrun) hd
          exact (hs.testing c t b k hp').2 (hnoting hx) hrun
      · obtain rfl : t = u := Fin.ext htu
        exact Or.inl hsig
    · rw [hd.waits] at hw
      cases hw

/-- The mutex that a call is about. -/
def mutexOf : Futex.Op → Option Nat
  | .lock m | .unlock m | .wait _ m => some m
  | .signal _ => none

theorem during_concerns {p : Futex.Pc} {op : Futex.Op} {x : Nat} (hd : p.During op)
    (hp : p.concerns x = true ∨ p.holds = some x) : mutexOf op = some x := by
  have hthen : ∀ (k : Futex.Then) (y : Nat), mutexOf (k.op y) = some y := fun k y => by
    cases k <;> rfl
  cases p with
  | out r => exact hd.elim
  | trying y i =>
    obtain rfl : op = .lock y := hd
    exact hp.elim (fun h => congrArg some (of_decide_eq_true h)) fun h => by cases h
  | taking y | blocking y | asleep y =>
    have hy : y = x := hp.elim of_decide_eq_true fun h => by cases h
    rcases hd with rfl | ⟨c, rfl⟩ <;> exact congrArg some hy
  | hoping y k i | calming y k | waking y k =>
    obtain rfl : op = k.op y := hd
    exact (hthen k y).trans (hp.elim (fun h => congrArg some (of_decide_eq_true h))
      fun h => by cases h)
  | peeking y k | freeing y k | unlocking y k =>
    obtain rfl : op = k.op y := hd
    exact (hthen k y).trans (hp.resolve_left fun h => by cases h)
  | noting c y | checking c y v | binding c y v | rechecking c y v =>
    obtain rfl : op = .wait c y := hd
    exact hp.resolve_left fun h => by cases h
  | waiting c y v | dozing c y =>
    obtain rfl : op = .wait c y := hd
    exact hp.elim (fun h => congrArg some (of_decide_eq_true h)) fun h => by cases h
  | signalling c | rousing c => exact hp.elim (fun h => by cases h) fun h => by cases h

/-- A thread has nothing to do with the mutexes of the others. -/
theorem Machine.Orderly.own_mutex (ho : s.Orderly) {u : Fin npools.toNat} {x : Nat}
    (h : (s.fx.pc (some u)).concerns x = true ∨ s.fx.Has (some u) x) : x = u := by
  rcases ho.stage u with ⟨⟨r, hr⟩, hh⟩ | ⟨p, hm, hd, hh⟩
  · rw [Futex.State.Has, hr, hh] at h
    rcases h with h | h | h
    · cases h
    · cases hg : s.stage u <;> rw [hg] at h <;> first | exact of_decide_eq_true h | cases h
    · cases h
  · have hop : mutexOf p.1 = some x → x = u := by
      intro hx
      cases hg : s.stage u <;> rw [hg] at hm <;> simp [Stage.ops] at hm
      all_goals rcases hm with rfl | rfl <;> simp [mutexOf] at hx
      all_goals exact hx.symm
    rcases h with h | h | h
    · exact hop (during_concerns hd (Or.inl h))
    · rw [hh] at h
      cases hg : s.stage u <;> rw [hg] at hm <;> simp [Stage.ops] at hm
      all_goals rcases hm with rfl | rfl <;> first | exact of_decide_eq_true h | cases h
    · exact hop (during_concerns hd (Or.inr h))

theorem during_asleep {p : Futex.Pc} {op : Futex.Op} (hd : p.During op)
    (hp : p.sleeps.isSome = true) : (∃ x, mutexOf op = some x ∧ p = .asleep x) ∨
      ∃ c x, op = .wait c x ∧ p = .dozing c x := by
  cases p with
  | asleep x =>
    rcases hd with rfl | ⟨c, rfl⟩
    · exact Or.inl ⟨x, rfl, rfl⟩
    · exact Or.inl ⟨x, rfl, rfl⟩
  | dozing c x => exact Or.inr ⟨c, x, hd, rfl⟩
  | _ => cases hp

theorem asleep_stage (ho : s.Orderly) {t : Fin npools.toNat} (h : s.asleep (some t) = true) :
    s.fx.holds (some t) = nothing ∧
      (s.fx.pc (some t) = .asleep t ∨ s.fx.pc (some t) = .dozing t t) := by
  rcases ho.stage t with ⟨⟨r, hr⟩, -⟩ | ⟨p, hm, hd, hh⟩
  · rw [Machine.asleep, hr] at h
    cases h
  · have hsleep := during_asleep hd h
    cases hg : s.stage t <;> rw [hg] at hm <;> simp [Stage.ops] at hm
    all_goals rcases hm with rfl | rfl <;> simp [mutexOf] at hsleep
    all_goals exact ⟨hh, by simp [hsleep]⟩

theorem asleep_phase (ho : s.Orderly) {t : Nat} (hp : s.phase.partner = some t)
    (h : s.asleep none = true) : s.fx.holds none = nothing ∧ (s.fx.pc none = .asleep t ∨
      s.fx.pc none = .dozing t t ∧ ∃ c b k, s.phase = .testing c t b k) := by
  rcases ho.phase with ⟨⟨r, hr⟩, -⟩ | ⟨p, hm, hd, hh⟩
  · rw [Machine.asleep, hr] at h
    cases h
  · have hsleep := during_asleep hd h
    cases hg : s.phase <;> rw [hg] at hm hp <;> simp [Phase.ops, Phase.partner] at hm hp
    all_goals subst hp
    all_goals rcases hm with rfl | rfl <;> simp [mutexOf] at hsleep
    all_goals exact ⟨hh, by simp [hsleep]⟩

/-- A mutex that has a sleeper is not left to two threads that are both asleep. -/
theorem not_abandoned (ho : s.Orderly) (haw : s.fx.Awaited) {t : Fin npools.toNat}
    (hnone : s.fx.holds none = nothing) (hsome : s.fx.holds (some t) = nothing)
    (ha : s.asleep none = true) (ha' : s.asleep (some t) = true) (u : Option (Fin npools.toNat))
    (hu : s.fx.pc u = .asleep t) : False := by
  have hidle : ∀ v, s.asleep v = true → (s.fx.pc v).pends t = false ∧
      (s.fx.pc v).relaxes t = false ∧ (s.fx.pc v).holds = none := fun v hv => by
    obtain ⟨w, hw⟩ := Option.isSome_iff_exists.mp hv
    exact ⟨(Futex.sleeps_idle hw t).1, (Futex.sleeps_idle hw t).2, (Futex.sleeps_holds hw).1⟩
  -- who has to do with the mutex is one of the two
  have hwho : ∀ v, (s.fx.pc v).concerns t = true ∨ s.fx.Has v t → s.asleep v = true := by
    intro v hv
    cases v with
    | none => exact ha
    | some x =>
      obtain rfl : t = x := Fin.ext (ho.own_mutex hv)
      exact ha'
  rcases haw u t hu with ⟨v, hv⟩ | ⟨-, hl | ⟨v, hv⟩⟩
  · have := (hidle v (hwho v (Or.inl (Futex.pends_concerns hv).1))).1
    rw [hv] at this
    cases this
  · obtain ⟨o, hown⟩ := ho.owned
    have hne : o t ≠ none := fun h0 => by
      rw [(hown.locked t).mp h0] at hl
      cases hl
    obtain ⟨v, hv⟩ := Option.ne_none_iff_exists'.mp hne
    have hhas := (hown.owner t v).mp hv
    have hasleep := hwho v (Or.inr hhas)
    rcases hhas with hh | hh
    · cases v with
      | none =>
        rw [hnone] at hh
        cases hh
      | some x =>
        obtain rfl : t = x := Fin.ext (ho.own_mutex (Or.inr (Or.inl hh)))
        rw [hsome] at hh
        cases hh
    · rw [(hidle v hasleep).2.2] at hh
      cases hh
  · have := (hidle v (hwho v (Or.inl (Futex.relaxes_concerns hv).1))).2.1
    rw [hv] at this
    cases this

theorem not_both_asleep (ho : s.Orderly) (hs : s.Settled) (htold : s.Told) (haw : s.fx.Awaited)
    {t : Fin npools.toNat} (hp : s.phase.partner = some (t : Nat)) (ha : s.asleep none = true) :
    s.asleep (some t) = false := by
  by_contra hne
  have ha' : s.asleep (some t) = true := by simpa using hne
  obtain ⟨hnone, hmain⟩ := asleep_phase ho hp ha
  obtain ⟨hsome, hwork⟩ := asleep_stage ho ha'
  have hleft := not_abandoned ho haw hnone hsome ha ha'
  rcases hmain with hmain | ⟨hmain, c, b, k, hphase⟩
  · exact hleft none hmain
  · rcases hwork with hwork | hwork
    · exact hleft (some t) hwork
    · -- both wait for the other: one of them has nothing to wait for
      have hcan := (hs.testing c t b k hphase).1
      have hrun := hs.halted t (Or.inr (by rw [hwork]; rfl))
      cases b with
      | true =>
        rcases htold.worker t hcan (Or.inl ⟨t, hwork⟩) with h | ⟨h, -⟩ <;> rw [hmain] at h <;>
          cases h
      | false =>
        rcases htold.main t c false k hphase hrun (Or.inl ⟨t, hmain⟩) with h | ⟨h, -⟩ <;>
          rw [hwork] at h <;> cases h

theorem step_machine_awaited (ho : s.Orderly) (haw : s.fx.Awaited) (ht : Turn npools s m s') :
    s'.fx.Awaited := by
  rcases turn_fx ht with hfx | ⟨a, hs, -⟩
  · rw [hfx]
    exact haw
  · obtain ⟨o, hown⟩ := ho.owned
    exact Futex.step_awaited hown.valid haw hs

theorem run_told {as : List (Move npools.toNat)} (ho : s.Orderly) (hs : s.Settled) (h : s.Told)
    (haw : s.fx.Awaited) (hlap : Steps (machineStep npools) (fun s m => ¬ s.Laps m) s as)
    (he : exec (machineStep npools) s as = some s') :
    s'.Orderly ∧ s'.Settled ∧ s'.Told ∧ s'.fx.Awaited := by
  induction as generalizing s with
  | nil =>
    obtain rfl := Option.some.inj he
    exact ⟨ho, hs, h, haw⟩
  | cons m as ih =>
    obtain ⟨r, hr, he⟩ := Option.bind_eq_some_iff.mp he
    obtain ⟨hl, hlap⟩ := hlap r hr
    have ht := turn hr
    exact ih (turn_orderly ho ht) (turn_settled hs ho ht) (turn_told h hs ho ht hl)
      (step_machine_awaited ho haw ht) hlap he

/-- The handshakes do not deadlock: in any interleaving of the accesses to memory and the calls
of the kernel that the controlling thread and the threads make, with any wakeups for no reason,
a request finds the controlling thread or the thread that it is made to awake, as long as no
signals lap a wait. -/
theorem handshakes_awake (npools : UInt64) (as : List (Move npools.toNat))
    (s : Machine npools.toNat) (h : exec (machineStep npools) (Machine.init _) as = some s)
    (hlap : Steps (machineStep npools) (fun s m => ¬ s.Laps m) (Machine.init _) as)
    (t : Fin npools.toNat) (hp : s.phase.partner = some (t : Nat)) :
    ¬ (s.asleep none = true ∧ s.asleep (some t) = true) := by
  obtain ⟨ho, hs, htold, haw⟩ := run_told (init_orderly _) (init_settled _) (init_told _)
    (fun u x hu => by cases hu) hlap h
  rintro ⟨ha, ha'⟩
  rw [not_both_asleep ho hs htold haw hp ha] at ha'
  cases ha'

end

/-- The controlling thread sleeps, and the thread that it has started does not. -/
theorem handshakes_awake_asked : ∃ s, exec (machineStep 2) (Machine.init _) asked = some s ∧
    s.asleep none = true ∧ s.asleep (some (0 : Fin 2)) = false := by
  obtain ⟨s, h, hp, ha⟩ : ∃ s, exec (machineStep 2) (Machine.init _) asked = some s ∧
      s.phase.partner = some 0 ∧ s.asleep none = true := ⟨_, rfl, rfl, rfl⟩
  have hawake := handshakes_awake 2 asked s h (by decide) (0 : Fin 2) hp
  exact ⟨s, h, ha, by simpa [ha] using hawake⟩

end Oin17.Tpool
