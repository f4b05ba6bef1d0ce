import Oin17.Lib.Refine
import Oin17.Tpool.Sections

namespace Oin17.Tpool
open Dialogue Function Run Refine Utils

/-- Where the crew has a thread. It moves the thread when `running` is set, and to the function
at the first of the reads that find it. -/
def Stage.At (q : Place) : Stage → Prop
  | .gone | .calling => q = .called
  | .fetching p => ∃ f a, q = .exec p f a
  | .arguing f => ∃ p a, q = .exec p f a
  | .loading f p => ∃ a, q = .exec p f a
  | .exec p f a => q = .exec p f a
  | .top | .testing | .parking | .parked | .going => q = .idle

/-- The steps of the crew that a step of a thread is. -/
def Stage.acts (t : Nat) : Stage → List Act
  | .parking | .going => [.check t]
  | .calling => [.call t]
  | .exec _ _ _ => [.ret t]
  | .top | .testing | .parked | .gone | .fetching _ | .arguing _ | .loading _ _ => []

def crashes : Prog Req Bool Vars Int → Bool
  | .crash => true
  | _ => false

section
variable {n : Nat}

/-- The call is about to dereference a null pointer. -/
def Machine.doomed (s : Machine n) : Bool :=
  match s.phase with
  | .leaving _ _ _ p => crashes p
  | _ => false

/-- The steps of the crew that a step is: one for each test of `running` by the controlling
thread, which ends a section under the lock, and for each time that a thread sets it. -/
def Machine.acts (s : Machine n) : Move n → List Act
  | .invoke c => [.invoke c]
  | .main =>
    match s.phase with
    | .asking _ (.done _ _) | .asking _ (.ask (.running _) _ _) => [.main]
    | .testing _ t b k => if s.flags.running t = b ∧ crashes (k b) then [] else [.main]
    | _ => []
  | .work t => if s.doomed then [] else (s.stage t).acts t
  | _ => []

/-- What the crew knows of the controlling thread. It sets `canrun` at the end of the first
section of a handshake, and it is done with the handshake at the end of the last. -/
inductive Tracks (s : Machine n) (a : Crew) : Phase → Prop where
  | idle (hc : a.ctl = .idle) (hv : a.vars = s.vars) (he : a.flags = s.flags) : Tracks s a .idle
  | asking (hc : a.ctl = .busy c p false) (hv : a.vars = s.vars) (he : a.flags = s.flags) :
      Tracks s a (.asking c p)
  | locking (hc : a.ctl = .busy c (.ask (.set t b) v k) false) (hv : a.vars = s.vars)
      (he : a.flags = s.flags) : Tracks s a (.locking c t b k)
  | first (hc : a.ctl = .busy c (.ask (.set t b) v k) false) (hv : a.vars = s.vars)
      (he : (a.setRun t b).flags = s.flags) (hh : s.fx.holds none t = true) :
      Tracks s a (.testing c t b k)
  | waiting (hc : a.ctl = .busy c (.ask (.set t b) v k) true) (hv : a.vars = s.vars)
      (he : a.flags = s.flags) : Tracks s a (.testing c t b k)
  | leaving (hc : a.ctl = .busy c p false) (hs : Shows p a.vars) (hk : Keeps a.flags s.vars a.vars)
      (he : a.flags = s.flags) : Tracks s a (.leaving c t b p)

/-- The crew is where the threads are. -/
structure Machine.Follows (s : Machine n) (a : Crew) : Prop where
  ctl : Tracks s a s.phase
  place : ∀ t : Fin n, (s.stage t).At (a.place t)
  parking : ∀ t : Fin n, s.stage t = .parking → s.flags.canrun t = false
  going : ∀ t : Fin n, s.stage t = .going → s.flags.canrun t = true

theorem init_follows (n : Nat) : (Machine.init n).Follows Crew.init where
  ctl := .idle rfl rfl rfl
  place _ := rfl
  parking t h := by cases h
  going t h := by cases h

variable {s s' : Machine n} {a a' : Crew} {fx : Futex.State (Option (Fin n))}

theorem Tracks.running {g : Phase} (h : Tracks s a g) : a.flags.running = s.flags.running := by
  cases h with
  | @first c t b v k hc hv he hh =>
    have hrun : (a.setRun t b).flags.running = s.flags.running := by rw [he]
    exact hrun
  | idle hc hv he | asking hc hv he | locking hc hv he | waiting hc hv he | leaving hc hs hk he =>
    rw [he]

/-- A step that the crew does not see. -/
theorem Tracks.inside {g : Phase} (h : Tracks s a g) (hv : s'.vars = s.vars)
    (he : s'.flags = s.flags) (hh : ∀ m, s.fx.holds none m = true → s'.fx.holds none m = true) : Tracks s' a g := by
  cases h with
  | idle hc hv' he' => exact .idle hc (hv'.trans hv.symm) (he'.trans he.symm)
  | asking hc hv' he' => exact .asking hc (hv'.trans hv.symm) (he'.trans he.symm)
  | locking hc hv' he' => exact .locking hc (hv'.trans hv.symm) (he'.trans he.symm)
  | first hc hv' he' hh' => exact .first hc (hv'.trans hv.symm) (he'.trans he.symm) (hh _ hh')
  | waiting hc hv' he' => exact .waiting hc (hv'.trans hv.symm) (he'.trans he.symm)
  | leaving hc hs hk he' => exact .leaving hc hs (hv.symm ▸ hk) (he'.trans he.symm)

theorem Tracks.move {g : Phase} {place : Nat → Place} (h : Tracks s a g) :
    Tracks s { a with place := place } g := by
  cases h with
  | idle hc hv he => exact .idle hc hv he
  | asking hc hv he => exact .asking hc hv he
  | locking hc hv he => exact .locking hc hv he
  | first hc hv he hh => exact .first hc hv he hh
  | waiting hc hv he => exact .waiting hc hv he
  | leaving hc hs hk he => exact .leaving hc hs hk he

/-- A thread that has its mutex sees the flags of the crew. -/
theorem Machine.Follows.canrun {t : Fin n} (h : s.Follows a) (ho : s.Orderly)
    (ht : s.fx.holds (some t) t = true) : a.flags.canrun t = s.flags.canrun t := by
  have hctl := h.ctl
  generalize s.phase = g at hctl
  cases hctl with
  | @first c u b v k hc hv he hh =>
    have hne : (t : Nat) ≠ u := by
      rintro rfl
      exact ho.apart (Or.inl ht) (Or.inl hh)
    rw [← he, Crew.setRun]
    simp only [update_of_ne hne]
  | idle hc hv he | asking hc hv he | locking hc hv he | waiting hc hv he | leaving hc hs hk he =>
    rw [he]

/-- The part of the crew that the controlling thread does not change. -/
theorem Machine.Follows.rest (h : s.Follows a) (hctl : Tracks s' a' s'.phase)
    (hplace : a'.place = a.place) (hstage : s'.stage = s.stage)
    (hcan : ∀ t : Fin n, s.stage t = .parking ∨ s.stage t = .going →
      s'.flags.canrun t = s.flags.canrun t) : s'.Follows a' where
  ctl := hctl
  place t := by
    rw [hplace, hstage]
    exact h.place t
  parking t ht := by
    rw [hstage] at ht
    rw [hcan t (Or.inl ht)]
    exact h.parking t ht
  going t ht := by
    rw [hstage] at ht
    rw [hcan t (Or.inr ht)]
    exact h.going t ht

end

section
variable {npools : UInt64} {s s' : Machine npools.toNat} {a a' : Crew}

theorem exists_shows {p : Prog Req Bool Vars Int} (hp : crashes p = false) : ∃ v, Shows p v := by
  cases p with
  | crash => cases hp
  | done r v => exact ⟨v, rfl⟩
  | ask r v k => exact ⟨v, rfl⟩

/-- The test of `running` when it is as it should be. -/
theorem leave_follows {c : Call} {t : Nat} {b : Bool} {k : Bool → Prog Req Bool Vars Int}
    {fx : Futex.State (Option (Fin npools.toNat))} (h : s.Follows a) (hsafe : a.Safe npools)
    (hp : s.phase = .testing c t b k) (hr : s.flags.running t = b)
    (hk : crashes (k b) = false) : ∃ a', a.main = some a' ∧
      ({ s with phase := .leaving c t b (k b), fx := fx } : Machine npools.toNat).Follows a' := by
  have hctl := h.ctl
  rw [hp] at hctl
  have hrun : a.flags.running t = b := by rw [hctl.running, hr]
  cases hctl with
  | @first c t b v k hc hv he hh =>
    obtain ⟨u, hu⟩ := exists_shows hk
    refine ⟨_, ((main_first hc).trans (if_pos hrun)).trans (resume_shown hu _),
      h.rest ?_ rfl rfl fun _ _ => rfl⟩
    exact .leaving rfl hu (hv ▸ asked_keeps hsafe hc hu hrun) he
  | @waiting c t b v k hc hv he =>
    obtain ⟨u, hu⟩ := exists_shows hk
    refine ⟨_, ((main_waiting hc).trans (if_pos hrun)).trans (resume_shown hu _),
      h.rest ?_ rfl rfl fun _ _ => rfl⟩
    exact .leaving rfl hu (hv ▸ asked_keeps hsafe hc hu hrun) he

/-- The test of `running` when it is not. -/
theorem wait_follows {c : Call} {t : Nat} {b : Bool} {k : Bool → Prog Req Bool Vars Int}
    {fx : Futex.State (Option (Fin npools.toNat))} (h : s.Follows a)
    (hp : s.phase = .testing c t b k) (hr : s.flags.running t ≠ b) : ∃ a', a.main = some a' ∧
      ({ s with fx := fx } : Machine npools.toNat).Follows a' := by
  have hctl := h.ctl
  rw [hp] at hctl
  have hrun : a.flags.running t ≠ b := by rw [hctl.running]; exact hr
  cases hctl with
  | first hc hv he hh =>
    refine ⟨_, (main_first hc).trans (if_neg hrun), h.rest ?_ rfl rfl fun _ _ => rfl⟩
    rw [hp]
    exact .waiting rfl hv he
  | waiting hc hv he =>
    refine ⟨_, (main_waiting hc).trans (if_neg hrun), h.rest ?_ rfl rfl fun _ _ => rfl⟩
    rw [hp]
    exact .waiting rfl hv he

/-- While the controlling thread has a mutex, only other threads are about to set `running`. -/
theorem Machine.Orderly.other_mutex {t : Nat} {u : Fin npools.toNat} (ho : s.Orderly)
    (hu : s.stage u = .parking ∨ s.stage u = .going) (ht : s.fx.holds none t = true) :
    (u : Nat) ≠ t := by
  rintro rfl
  refine ho.apart (Or.inl (ho.stage_holds ?_)) (Or.inl ht)
  exact hu.imp_right fun hg => Or.inr (Or.inl hg)

/-- A thread that sets `running` to what `canrun` is. -/
theorem tracks_check {t : Nat} {b : Bool} {g : Phase} (h : Tracks s a g) (hsafe : a.Safe npools)
    (hb : a.flags.canrun t = b) (hv : s'.vars = s.vars)
    (he : s'.flags = (s.setRunning t b).flags)
    (hh : ∀ m, s.fx.holds none m = true → s'.fx.holds none m = true) :
    Tracks s' (a.check t) g := by
  have hflags : ∀ e : Flags, e = s.flags →
      ({ canrun := e.canrun, running := update e.running t b } : Flags) = s'.flags := by
    rintro e rfl
    exact he.symm
  have hcheck : (a.check t).flags =
      { canrun := a.flags.canrun, running := update a.flags.running t b } := by
    rw [Crew.check, hb]
  cases h with
  | idle hc hv' he' => exact .idle hc (hv'.trans hv.symm) (hcheck.trans (hflags _ he'))
  | asking hc hv' he' => exact .asking hc (hv'.trans hv.symm) (hcheck.trans (hflags _ he'))
  | locking hc hv' he' => exact .locking hc (hv'.trans hv.symm) (hcheck.trans (hflags _ he'))
  | @first c u b' v k hc hv' he' hh' =>
    refine .first hc (hv'.trans hv.symm) ?_ (hh _ hh')
    have := hflags _ he'
    rw [← this, Crew.setRun, hcheck]
    rfl
  | waiting hc hv' he' => exact .waiting hc (hv'.trans hv.symm) (hcheck.trans (hflags _ he'))
  | leaving hc hs hk he' =>
    refine .leaving hc hs ?_ (hcheck.trans (hflags _ he'))
    have hsame : (a.check t).flags = a.flags := by
      rw [hcheck, ← hb, going_steady hsafe hc t, update_eq_self]
    rw [hv, hsame]
    exact hk

section
variable {t : Fin npools.toNat} {g : Stage} {fx : Futex.State (Option (Fin npools.toNat))}

theorem Machine.Follows.placed (h : s.Follows a) (hg : s.stage t = g) : g.At (a.place t) :=
  hg ▸ h.place t

/-- A thread goes on from one stage to another. -/
theorem Machine.Follows.at {q : Place} (h : s.Follows a) (hq : g.At q)
    (hpark : g = .parking → s.flags.canrun t = false)
    (hgo : g = .going → s.flags.canrun t = true) :
    (s.at t g).Follows { a with place := update a.place t q } where
  ctl := (h.ctl.inside rfl rfl fun _ hm => hm : Tracks (s.at t g) a s.phase).move
  place u := by
    rw [stage_at]
    by_cases hu : u = t
    · subst hu
      simp only [if_pos, update_self]
      exact hq
    · simp only [if_neg hu, update_of_ne (Fin.val_ne_of_ne hu)]
      exact h.place u
  parking u hs := by
    rw [stage_at] at hs
    by_cases hu : u = t
    · rw [if_pos hu] at hs
      exact hu ▸ hpark hs
    · rw [if_neg hu] at hs
      exact h.parking u hs
  going u hs := by
    rw [stage_at] at hs
    by_cases hu : u = t
    · rw [if_pos hu] at hs
      exact hu ▸ hgo hs
    · rw [if_neg hu] at hs
      exact h.going u hs

/-- A step of a thread that the crew does not see. -/
theorem Machine.Follows.still (h : s.Follows a) (hg : g.At (a.place t))
    (hpark : g = .parking → s.flags.canrun t = false)
    (hgo : g = .going → s.flags.canrun t = true) : (s.at t g).Follows a := by
  have hat := h.at hg hpark hgo
  rwa [update_eq_self] at hat

theorem Machine.Follows.inside (h : s.Follows a)
    (hh : ∀ m, s.fx.holds none m = true → fx.holds none m = true) :
    ({ s with fx := fx } : Machine npools.toNat).Follows a :=
  h.rest (h.ctl.inside rfl rfl hh) rfl rfl fun _ _ => rfl

/-- The call of a thread does not take from what the controlling thread holds. -/
theorem worker_holds {op : Futex.Op} (hs : Futex.step s.fx (.call (some t) op) = some fx) (m : Nat)
    (hm : s.fx.holds none m = true) : fx.holds none m = true :=
  Futex.step_holds hs (by simp) hm

/-- A section of `thread_main` sets `running`. -/
theorem check_follows {b : Bool} (h : s.Follows a) (ho : s.Orderly) (hsafe : a.Safe npools)
    (hb : s.flags.canrun t = b) (hheld : (s.stage t).held t = only t)
    (hplace : a.place t = .idle) (hg : g = if b then .gone else .parked)
    (hs : Futex.step s.fx (.call (some t) (.signal t)) = some fx) :
    crewStep npools a (.check t) = some (a.check t) ∧
      ({ (s.setRunning t b).at t g with fx := fx } : Machine npools.toNat).Follows
        (a.check t) := by
  obtain ⟨⟨r, hr⟩, -⟩ := Futex.step_call hs
  have hholds : s.fx.holds (some t) t = true := by
    rw [ho.stage_out hr, hheld, only_self]
  have hcan : a.flags.canrun t = b := by rw [h.canrun ho hholds, hb]
  refine ⟨?_, tracks_check h.ctl hsafe hcan rfl rfl (worker_holds hs), fun u => ?_, fun u hu => ?_,
    fun u hu => ?_⟩
  · rw [crewStep, hplace]
    exact if_pos t.isLt
  · change (((s.setRunning t b).at t g).stage u).At ((a.check t).place u)
    rw [stage_at, Crew.check, hcan]
    by_cases hu : u = t
    · subst hu
      simp only [update_self, if_pos]
      rw [hg]
      cases b <;> rfl
    · rw [if_neg hu]
      simp only [update_of_ne (Fin.val_ne_of_ne hu)]
      exact h.place u
  · change ((s.setRunning t b).at t g).stage u = .parking at hu
    rw [stage_at] at hu
    split at hu
    · rw [hg] at hu
      cases b <;> cases hu
    · exact h.parking u hu
  · change ((s.setRunning t b).at t g).stage u = .going at hu
    rw [stage_at] at hu
    split at hu
    · rw [hg] at hu
      cases b <;> cases hu
    · exact h.going u hu

/-- A thread that runs reads from the variables what the crew does. -/
theorem Tracks.reads {g : Phase} (h : Tracks s a g) (ht : a.flags.running t = true) :
    a.vars.pool t = s.vars.pool t ∧ ∀ p, s.vars.pool t = some p →
      (a.vars.pools p).func = (s.vars.pools p).func ∧
        (a.vars.pools p).arg = (s.vars.pools p).arg := by
  cases h with
  | leaving hc hs hk he => exact hk t ht
  | idle hc hv he | asking hc hv he | locking hc hv he | first hc hv he hh | waiting hc hv he =>
    rw [hv]
    exact ⟨rfl, fun _ _ => ⟨rfl, rfl⟩⟩

/-- The reads of a thread in the function of the crew. -/
theorem Machine.Follows.reads {p : Nat} {f x : Addr} (h : s.Follows a) (hsafe : a.Safe npools)
    (hplace : a.place t = .exec p f x) :
    s.vars.pool t = some p ∧ (s.vars.pools p).func = f ∧ (s.vars.pools p).arg = x := by
  obtain ⟨hpool, hf, hx⟩ := hsafe.work t p f x hplace
  obtain ⟨hsame, hwork⟩ := h.ctl.reads (hsafe.running t (by simp [hplace]))
  have hp := hsame.symm.trans hpool
  obtain ⟨hf', hx'⟩ := hwork p hp
  exact ⟨hp, hf'.symm.trans hf, hx'.symm.trans hx⟩

theorem call_follows (h : s.Follows a) (hsafe : a.Safe npools) (hg : s.stage t = .calling)
    {p : Nat} (hp : s.vars.pool t = some p) :
    ∃ a', crewStep npools a (.call t) = some a' ∧ (s.at t (.fetching p)).Follows a' := by
  have hplace : a.place t = .called := h.placed hg
  have hrun : a.flags.running t = true := hsafe.running t (by simp [hplace])
  have hpool : a.vars.pool t = some p := (h.ctl.reads hrun).1.trans hp
  refine ⟨_, by rw [crewStep, hplace]; exact Option.map_eq_some_iff.mpr ⟨p, hpool, rfl⟩, ?_⟩
  exact h.at ⟨_, _, rfl⟩ (by simp) (by simp)

theorem ret_follows (h : s.Follows a) (hg : s.stage t = .exec p f x) :
    ∃ a', crewStep npools a (.ret t) = some a' ∧ (s.at t .top).Follows a' := by
  have hplace : a.place t = .exec p f x := h.placed hg
  exact ⟨_, by rw [crewStep, hplace], h.at rfl (by simp) (by simp)⟩

end

/-- The steps of the threads are steps of the crew, up to a null pointer. -/
theorem turn_follows {m : Move npools.toNat} (h : s.Follows a) (ho : s.Orderly)
    (hsafe : a.Safe npools) (hd : s.doomed = false) (ht : Turn npools s m s') :
    (s'.doomed = true ∧ s.acts m = []) ∨
      ∃ a', exec (crewStep npools) a (s.acts m) = some a' ∧ s'.Follows a' := by
  have hctl := h.ctl
  have one : ∀ {act a'}, crewStep npools a act = some a' →
      exec (crewStep npools) a [act] = some a' := fun hs => by rw [exec, hs]; rfl
  cases ht with
  | @invoke c v hp hshow =>
    rw [hp] at hctl
    cases hctl with
    | idle hc hv he =>
      refine Or.inr ⟨_, one (by rw [crewStep, hc, hv]; exact resume_shown hshow a), ?_⟩
      exact h.rest (.asking rfl rfl he) rfl rfl fun _ _ => rfl
  | @ret c r v hp hout =>
    rw [hp] at hctl
    cases hctl with
    | asking hc hv he =>
      refine Or.inr ⟨{ a with ctl := .idle }, ?_, h.rest (.idle rfl hv he) rfl rfl fun _ _ => rfl⟩
      rw [Machine.acts, hp]
      exact one (by rw [crewStep, Crew.main, hc])
  | @look c t v k w hp hout hshow =>
    rw [hp] at hctl
    cases hctl with
    | asking hc hv he =>
      rw [Machine.acts, hp]
      refine Or.inr ⟨_, one (by rw [crewStep, Crew.main, hc, he]; exact resume_shown hshow a), ?_⟩
      exact h.rest (.asking rfl rfl he) rfl rfl fun _ _ => rfl
  | @lock c t b v k fx hp hs =>
    rw [hp] at hctl
    cases hctl with
    | asking hc hv he =>
      refine Or.inr ⟨a, by rw [Machine.acts, hp]; rfl, ?_⟩
      exact h.rest (.locking hc hv he) rfl rfl fun _ _ => rfl
  | @start c t k fx hp hs =>
    rw [hp] at hctl
    obtain ⟨⟨r, hr⟩, -, -, hholds⟩ := Futex.step_call hs
    have hheld : s.fx.holds none t = true := by rw [ho.phase_out hr, hp]; exact only_self t
    cases hctl with
    | locking hc hv he =>
      refine Or.inr ⟨a, by rw [Machine.acts, hp]; rfl, h.rest (.first hc hv ?_ ?_) rfl rfl ?_⟩
      · rw [Crew.setRun, he]
        rfl
      · exact (hholds t).trans hheld
      · exact fun u hu => update_of_ne (ho.other_mutex hu hheld) _ _
  | @stop c t k hp hout =>
    rw [hp] at hctl
    obtain ⟨r, hr⟩ := outside_out hout
    have hheld : s.fx.holds none t = true := by rw [ho.phase_out hr, hp]; exact only_self t
    cases hctl with
    | locking hc hv he =>
      refine Or.inr ⟨a, by rw [Machine.acts, hp]; rfl, h.rest (.first hc hv ?_ hheld) rfl rfl ?_⟩
      · rw [Crew.setRun, he]
        rfl
      · exact fun u hu => update_of_ne (ho.other_mutex hu hheld) _ _
  | @leave c t b k fx hp hr hs =>
    cases hk : crashes (k b) with
    | true =>
      refine Or.inl ⟨hk, ?_⟩
      rw [Machine.acts, hp]
      exact if_pos ⟨hr, hk⟩
    | false =>
      obtain ⟨a', ha, hf⟩ := leave_follows h hsafe hp hr hk
      refine Or.inr ⟨a', ?_, hf⟩
      rw [Machine.acts, hp]
      simp only [hk, Bool.false_eq_true, and_false, if_false]
      exact one ha
  | @wait c t b k fx hp hr hs =>
    obtain ⟨a', ha, hf⟩ := wait_follows h hp hr
    refine Or.inr ⟨a', ?_, hf⟩
    rw [Machine.acts, hp]
    simp only [hr, false_and, if_false]
    exact one ha
  | @resume c t b p v hp hout hv =>
    rw [hp] at hctl
    cases hctl with
    | leaving hc hs hk he =>
      refine Or.inr ⟨a, by rw [Machine.acts, hp]; rfl, h.rest ?_ rfl rfl fun _ _ => rfl⟩
      exact .asking hc (shows_unique hs hv) he
  | @top fx t hg hs =>
    refine Or.inr ⟨a, by simp only [Machine.acts, hd, hg]; rfl, ?_⟩
    have hplace := h.placed hg
    exact (h.still (g := .testing) hplace (by simp) (by simp)).inside (worker_holds hs)
  | @test t hg hout =>
    refine Or.inr ⟨a, by simp only [Machine.acts, hd, hg]; rfl, ?_⟩
    have hplace := h.placed hg
    cases hcan : s.flags.canrun t with
    | true => exact h.still (g := .going) hplace (by simp) fun _ => hcan
    | false => exact h.still (g := .parking) hplace (fun _ => hcan) (by simp)
  | @park fx t hg hs =>
    obtain ⟨ha, hf⟩ := check_follows h ho hsafe (h.parking t hg) (by rw [hg]; rfl)
      (h.placed hg) rfl hs
    refine Or.inr ⟨_, ?_, hf⟩
    simp only [Machine.acts, hd, hg]
    exact one ha
  | @parked fx t hg hs =>
    refine Or.inr ⟨a, by simp only [Machine.acts, hd, hg]; rfl, ?_⟩
    have hplace := h.placed hg
    exact (h.still (g := .testing) hplace (by simp) (by simp)).inside (worker_holds hs)
  | @go fx t hg hs =>
    obtain ⟨ha, hf⟩ := check_follows h ho hsafe (h.going t hg) (by rw [hg]; rfl)
      (h.placed hg) rfl hs
    refine Or.inr ⟨_, ?_, hf⟩
    simp only [Machine.acts, hd, hg]
    exact one ha
  | @gone fx t hg hs =>
    refine Or.inr ⟨a, by simp only [Machine.acts, hd, hg]; rfl, ?_⟩
    have hplace := h.placed hg
    exact (h.still (g := .calling) hplace (by simp) (by simp)).inside (worker_holds hs)
  | @call p t hg hout hp =>
    obtain ⟨a', ha, hf⟩ := call_follows h hsafe hg hp
    refine Or.inr ⟨a', ?_, hf⟩
    simp only [Machine.acts, hd, hg]
    exact one ha
  | @fetch p t hg hout =>
    obtain ⟨f, x, hplace⟩ := h.placed hg
    obtain ⟨-, hf, -⟩ := h.reads hsafe hplace
    refine Or.inr ⟨a, by simp only [Machine.acts, hd, hg]; rfl, ?_⟩
    exact h.still ⟨p, x, by rw [hplace, hf]⟩ (by simp) (by simp)
  | @argue f p t hg hout hp =>
    obtain ⟨q, x, hplace⟩ := h.placed hg
    obtain rfl : q = p := Option.some.inj ((h.reads hsafe hplace).1.symm.trans hp)
    refine Or.inr ⟨a, by simp only [Machine.acts, hd, hg]; rfl, ?_⟩
    exact h.still ⟨x, hplace⟩ (by simp) (by simp)
  | @load f p t hg hout =>
    obtain ⟨x, hplace⟩ := h.placed hg
    obtain ⟨-, -, hx⟩ := h.reads hsafe hplace
    refine Or.inr ⟨a, by simp only [Machine.acts, hd, hg]; rfl, ?_⟩
    exact h.still (g := .exec p f _) (hplace.trans (by rw [hx])) (by simp) (by simp)
  | @done p f x t hg hout =>
    obtain ⟨a', ha, hf⟩ := ret_follows h hg
    refine Or.inr ⟨a', ?_, hf⟩
    simp only [Machine.acts, hd, hg]
    exact one ha
  | inside hm hs =>
    refine Or.inr ⟨a, ?_, h.inside fun x => Futex.step_holds hs (futex_no_call hm none)⟩
    cases m <;> first | rfl | cases hm

theorem doomed_turn {m : Move npools.toNat} (hd : s.doomed = true) (ht : Turn npools s m s') :
    s'.doomed = true ∧ s.acts m = [] ∧ s'.vars = s.vars := by
  have hphase : ∀ {g}, s.phase = g → (∀ c t b p, g ≠ .leaving c t b p) → False := by
    intro g hg hne
    rw [Machine.doomed, hg] at hd
    split at hd
    · exact hne _ _ _ _ rfl
    · cases hd
  cases ht with
  | invoke hp | ret hp | look hp | lock hp | start hp | stop hp | leave hp | wait hp =>
    exact (hphase hp (by simp)).elim
  | @resume c t b p v hp ho hv =>
    rw [Machine.doomed, hp] at hd
    cases p with
    | crash => exact hv.elim
    | _ => cases hd
  | inside hm hs =>
    refine ⟨hd, ?_, rfl⟩
    cases m <;> first | rfl | cases hm
  | _ => exact ⟨hd, by rw [Machine.acts, hd]; rfl, rfl⟩

/-- What relates the threads to the crew, until a null pointer ends the program. -/
def Machine.Matches (s : Machine npools.toNat) (a : Crew) : Prop :=
  s.Orderly ∧ (s.doomed = true ∨ s.Follows a ∧ a.Safe npools)

theorem simulates_crew :
    Simulates (machineStep npools) (crewStep npools) Machine.acts Machine.Matches := by
  rintro s a m s' ⟨ho, hrel⟩ hs
  have ht := turn hs
  have ho' := turn_orderly ho ht
  cases hd : s.doomed with
  | true =>
    obtain ⟨hd', hacts, -⟩ := doomed_turn hd ht
    exact ⟨a, by rw [hacts]; rfl, ho', Or.inl hd'⟩
  | false =>
    obtain ⟨hf, hsafe⟩ := hrel.resolve_left (by simp [hd])
    rcases turn_follows hf ho hsafe hd ht with ⟨hd', hacts⟩ | ⟨a', ha, hf'⟩
    · exact ⟨a, by rw [hacts]; rfl, ho', Or.inl hd'⟩
    · refine ⟨a', ha, ho', Or.inr ⟨hf', ?_⟩⟩
      exact exec_inv (fun a => a.Safe npools) (fun _ => True)
        (fun _ _ _ h _ hstep => crewStep_safe h hstep) hsafe (fun _ _ => trivial) ha

/-- The locked sections are atomic: any interleaving of the accesses to memory that the threads
make, through the mutexes and condition variables of the futex module, is an interleaving of
whole sections, in which the threads are where they are and the flags are as they are. -/
theorem machine_refines (npools : UInt64) (as : List (Move npools.toNat))
    (s : Machine npools.toNat) (h : exec (machineStep npools) (Machine.init _) as = some s) :
    s.doomed = true ∨ ∃ a,
      exec (crewStep npools) Crew.init
        (trace (machineStep npools) Machine.acts (Machine.init _) as) = some a ∧
      a.flags.running = s.flags.running ∧ (∀ t : Fin npools.toNat, (s.stage t).At (a.place t)) ∧
      Tracks s a s.phase := by
  obtain ⟨a, ha, -, hrel⟩ := simulates_crew.trace
    ⟨init_orderly _, Or.inr ⟨init_follows _, init_safe npools⟩⟩ h
  exact hrel.imp_right fun ⟨hf, _⟩ => ⟨a, ha, hf.ctl.running, hf.place, hf.ctl⟩

end

/-- A call that returns while its function is called again. -/
theorem machine_refines_started : ∃ s a,
    exec (machineStep 2) (Machine.init _) (asked ++ answered) = some s ∧
    exec (crewStep 2) Crew.init
      (trace (machineStep 2) Machine.acts (Machine.init _) (asked ++ answered)) = some a ∧
    a.flags.running 0 = true := by
  have hrun : (exec (machineStep 2) (Machine.init _) (asked ++ answered)).any
      (fun s => !s.doomed && s.flags.running 0) = true := by decide +kernel
  obtain ⟨s, h, hs⟩ := (Option.any_eq_true _ _).mp hrun
  simp only [Bool.and_eq_true, Bool.not_eq_true'] at hs
  obtain ⟨a, ha, hr, -⟩ := (machine_refines 2 _ s h).resolve_left (by simp [hs.1])
  exact ⟨s, a, h, ha, by rw [hr, hs.2]⟩

end Oin17.Tpool
