import Oin17.Tpool.Runs

namespace Oin17.Tpool
open Dialogue Function

/-- Where `thread_main` is: before or in the wait of its loop, past the lock, or in the
function that it read from its pool. -/
inductive Place where
  | idle
  | called
  | exec (p : Nat) (func arg : Addr)

/-- What the controlling thread does: nothing, or a call, which waits under the lock
of a thread when `waiting`. -/
inductive Ctl where
  | idle
  | busy (c : Call) (p : Prog Req Bool Vars Int) (waiting : Bool)

structure Crew where
  vars : Vars
  flags : Flags
  place : Nat → Place
  ctl : Ctl

/-- A step of the controlling thread, or of a thread: the section under its lock up to its
wait, the call of its function, or the return. A wait may end at any time. -/
inductive Act where
  | invoke (c : Call)
  | main
  | check (t : Nat)
  | call (t : Nat)
  | ret (t : Nat)

/-- The controlling thread goes on to its next request. There is no next state when it
dereferences a null thread. -/
def Crew.resume (s : Crew) (c : Call) : Prog Req Bool Vars Int → Option Crew
  | .done r v => some { s with vars := v, ctl := .busy c (.done r v) false }
  | .crash => none
  | .ask r v k => some { s with vars := v, ctl := .busy c (.ask r v k) false }

def Crew.setRun (s : Crew) (t : Nat) (b : Bool) : Crew :=
  { s with flags := { s.flags with canrun := update s.flags.canrun t b } }

/-- A step of the controlling thread. In the locked section of `thread_stop` or
`thread_start`, `canrun` is set once and then `running` is awaited. -/
def Crew.main (s : Crew) : Option Crew :=
  match s.ctl with
  | .idle => none
  | .busy _ (.done _ _) _ => some { s with ctl := .idle }
  | .busy _ .crash _ => none
  | .busy c (.ask (.running t) _ k) _ => s.resume c (k (s.flags.running t))
  | .busy c (.ask (.set t b) v k) waiting =>
    let s := if waiting then s else s.setRun t b
    if s.flags.running t = b then s.resume c (k b)
    else some { s with ctl := .busy c (.ask (.set t b) v k) true }

/-- The section of `thread_main` under the lock, after which it waits or goes on. -/
def Crew.check (s : Crew) (t : Nat) : Crew :=
  { s with
    flags := { s.flags with running := update s.flags.running t (s.flags.canrun t) }
    place := update s.place t (if s.flags.canrun t then .called else .idle) }

/-- `th->pool->func(th->pool->arg)` -/
def Crew.call (s : Crew) (t : Nat) : Option Crew :=
  (s.vars.pool t).map fun p =>
    { s with place := update s.place t (.exec p (s.vars.pools p).func (s.vars.pools p).arg) }

def crewStep (npools : UInt64) (s : Crew) : Act → Option Crew
  | .invoke c =>
    match s.ctl with
    | .idle => s.resume c (c.code npools s.vars)
    | .busy _ _ _ => none
  | .main => s.main
  | .check t =>
    match s.place t with
    | .idle => if t < npools.toNat then some (s.check t) else none
    | _ => none
  | .call t =>
    match s.place t with
    | .called => s.call t
    | _ => none
  | .ret t =>
    match s.place t with
    | .exec _ _ _ => some { s with place := update s.place t .idle }
    | _ => none

/-- The threads are created and no call has been made. -/
def Crew.init : Crew :=
  { vars := Tpool.init.1, flags := Tpool.init.2, place := fun _ => .idle, ctl := .idle }

/-- What holds when a call returns. -/
def Ends (npools : UInt64) (c : Call) (_ : Int) (v : Vars) (e : Flags) : Prop :=
  ∃ l, Sound npools.toNat v e l ∧
    ∀ id, c = .stop id → 0 ≤ id → id < npools.toNat → l id.toNat = []

/-- The state that a program shows to its surroundings. -/
def Shows (p : Prog Req Bool Vars Int) (v : Vars) : Prop :=
  match p with
  | .done _ u => u = v
  | .crash => False
  | .ask _ u _ => u = v

/-- The controlling thread and the flags agree: outside of a handshake a thread runs when
it may, and what is left of the call is right once the handshake is over. -/
inductive Ready (npools : UInt64) (v : Vars) (e : Flags) : Ctl → Prop where
  | idle (h : Sound npools.toNat v e l) : Ready npools v e .idle
  | going (hs : ∀ u, e.canrun u = e.running u) (hv : Shows p v)
      (h : p.Sat world True (Ends npools c) v e) : Ready npools v e (.busy c p false)
  | waiting (hs : ∀ u, u ≠ t → e.canrun u = e.running u) (hc : e.canrun t = b)
      (h : (k b).Sat world True (Ends npools c) v (e.set t b)) :
      Ready npools v e (.busy c (.ask (.set t b) v k) true)

/-- A thread is in a function only while it runs, and that of the pool it is in. -/
structure Crew.Safe (npools : UInt64) (s : Crew) : Prop where
  ready : Ready npools s.vars s.flags s.ctl
  running : ∀ t, s.place t ≠ .idle → s.flags.running t = true
  work : ∀ t p f a, s.place t = .exec p f a →
    s.vars.pool t = some p ∧ (s.vars.pools p).func = f ∧ (s.vars.pools p).arg = a

theorem init_safe (npools : UInt64) : Crew.init.Safe npools where
  ready := .idle (init_sound npools.toNat)
  running t h := absurd rfl h
  work t p f a h := by cases h

section Steps
variable {npools : UInt64} {s s' : Crew} {c : Call} {t : Nat}

theorem code_sat (h : Sound npools.toNat v e l) (c : Call) :
    (c.code npools v).Sat world True (Ends npools c) v e := by
  cases c with
  | start max func arg =>
    apply ((sat_tpoolStart h max func arg).weaken fun _ => trivial).mono
    rintro r v' e' (⟨-, rfl, rfl, -⟩ | ⟨p, -, -, -, l', hs'⟩)
    · exact ⟨l, h, fun id hid => by cases hid⟩
    · exact ⟨l', hs'.sound, fun id hid => by cases hid⟩
  | stop id =>
    apply ((sat_tpoolStop h id).weaken False.elim).mono
    rintro r v' e' (⟨-, rfl, rfl, hout⟩ | ⟨-, -, -, l', hs'⟩)
    · refine ⟨l, h, fun id' hid h0 hlt => ?_⟩
      cases hid
      omega
    · refine ⟨l', hs'.sound, fun id' hid _ _ => ?_⟩
      cases hid
      exact hs'.stopped

theorem set_eq_self {e : Flags} (hc : e.canrun t = b) (hr : e.running t = b) : e.set t b = e := by
  have hc' : update e.canrun t b = e.canrun := hc ▸ update_eq_self t e.canrun
  have hr' : update e.running t b = e.running := hr ▸ update_eq_self t e.running
  rw [Flags.set, hc', hr']

/-- Going on keeps the work of the threads that run. -/
theorem resume_safe (hs : ∀ u, s.flags.canrun u = s.flags.running u)
    (hrun : ∀ t, s.place t ≠ .idle → s.flags.running t = true)
    (hwork : ∀ t p f a, s.place t = .exec p f a →
      s.vars.pool t = some p ∧ (s.vars.pools p).func = f ∧ (s.vars.pools p).arg = a)
    {p : Prog Req Bool Vars Int} (hp : p.Sat world True (Ends npools c) s.vars s.flags)
    (h : s.resume c p = some s') : s'.Safe npools := by
  have hkept : ∀ v, world.Keeps s.flags s.vars v → ∀ t q f a, s.place t = .exec q f a →
      v.pool t = some q ∧ (v.pools q).func = f ∧ (v.pools q).arg = a := by
    intro v hv t q f a ht
    obtain ⟨hpool, hf, ha⟩ := hwork t q f a ht
    obtain ⟨hpool', hkeep⟩ := hv t (hrun t (by rw [ht]; simp))
    obtain ⟨hf', ha'⟩ := hkeep q hpool
    exact ⟨hpool'.trans hpool, hf'.trans hf, ha'.trans ha⟩
  cases p with
  | crash => cases h
  | done r v =>
    obtain rfl := Option.some.inj h
    exact ⟨.going hs rfl ⟨world.refl _ _, hp.2⟩, hrun, hkept v hp.1⟩
  | ask r v k =>
    obtain rfl := Option.some.inj h
    exact ⟨.going hs rfl ⟨world.refl _ _, hp.2⟩, hrun, hkept v hp.1⟩

theorem setRun_settled (hs : ∀ u, u ≠ t → s.flags.canrun u = s.flags.running u) (u : Nat)
    (hu : u ≠ t) : (s.setRun t b).flags.canrun u = (s.setRun t b).flags.running u := by
  rw [Crew.setRun]
  simp only [update_of_ne hu]
  exact hs u hu

theorem setRun_set (s : Crew) (t : Nat) (b : Bool) :
    (s.setRun t b).flags.set t b = s.flags.set t b := by
  simp only [Crew.setRun, Flags.set, update_idem]

theorem setRun_canrun (s : Crew) (t : Nat) (b : Bool) : (s.setRun t b).flags.canrun t = b := by
  rw [Crew.setRun]
  exact update_self t b s.flags.canrun

/-- The end of a locked section, or one more wait. -/
theorem shake_safe (hs : ∀ u, u ≠ t → s.flags.canrun u = s.flags.running u)
    (hc : s.flags.canrun t = b)
    (hrun : ∀ t, s.place t ≠ .idle → s.flags.running t = true)
    (hwork : ∀ t p f a, s.place t = .exec p f a →
      s.vars.pool t = some p ∧ (s.vars.pools p).func = f ∧ (s.vars.pools p).arg = a)
    (hk : (k b).Sat world True (Ends npools c) s.vars (s.flags.set t b))
    (h : (if s.flags.running t = b then s.resume c (k b)
      else some { s with ctl := .busy c (.ask (.set t b) s.vars k) true }) = some s') :
    s'.Safe npools := by
  by_cases hr : s.flags.running t = b
  · rw [if_pos hr] at h
    rw [set_eq_self hc hr] at hk
    refine resume_safe (fun u => ?_) hrun hwork hk h
    by_cases hu : u = t
    · rw [hu, hc, hr]
    · exact hs u hu
  · rw [if_neg hr] at h
    obtain rfl := Option.some.inj h
    exact ⟨.waiting hs hc hk, hrun, hwork⟩

theorem main_safe (h : s.Safe npools) (hm : s.main = some s') : s'.Safe npools := by
  obtain ⟨v, e, place, ctl⟩ := s
  obtain ⟨hready, hrun, hwork⟩ := h
  dsimp only at hready
  cases hready with
  | idle => cases hm
  | waiting hs hc hk => exact shake_safe hs hc hrun hwork hk hm
  | @going p c hs hv hp =>
    cases p with
    | crash => cases hm
    | done r u =>
      obtain rfl := Option.some.inj hm
      obtain rfl : u = v := hv
      obtain ⟨l, hl, -⟩ := hp.2
      exact ⟨.idle hl, hrun, hwork⟩
    | ask r u k =>
      obtain rfl : u = v := hv
      cases r with
      | running t => exact resume_safe hs hrun hwork hp.2 hm
      | set t b =>
        refine shake_safe (s := Crew.setRun ⟨u, e, place, _⟩ t b)
          (setRun_settled fun w _ => hs w) (setRun_canrun _ t b) hrun hwork ?_ hm
        rw [setRun_set]
        exact hp.2

/-- Under its lock a thread makes `running` follow `canrun`. -/
theorem check_safe (h : s.Safe npools) (t : Nat) : (s.check t).Safe npools := by
  obtain ⟨v, e, place, ctl⟩ := s
  obtain ⟨hready, hrun, hwork⟩ := h
  dsimp only at hready hrun hwork
  refine ⟨?_, fun u hu => ?_, fun u p f a hu => ?_⟩
  · have hsame : e.canrun t = e.running t →
        { e with running := update e.running t (e.canrun t) } = e := by
      intro hs
      rw [hs, update_eq_self]
    cases hready with
    | idle hl =>
      rw [Crew.check, hsame (hl.flags t)]
      exact .idle hl
    | going hs hv hp =>
      rw [Crew.check, hsame (hs t)]
      exact .going hs hv hp
    | @waiting t' b k c hs hc hk =>
      by_cases ht : t = t'
      · subst ht
        refine .waiting (fun u hu => ?_) hc ?_
        · simp only [Crew.check, update_of_ne hu]
          exact hs u hu
        · simp only [Crew.check, Flags.set, update_idem]
          exact hk
      · rw [Crew.check, hsame (hs t ht)]
        exact .waiting hs hc hk
  · by_cases he : u = t
    · subst he
      simp only [Crew.check, update_self] at hu ⊢
      split at hu
      · next hc => exact hc
      · exact absurd rfl hu
    · simp only [Crew.check, update_of_ne he] at hu ⊢
      exact hrun u hu
  · by_cases he : u = t
    · subst he
      simp only [Crew.check, update_self] at hu
      split at hu <;> cases hu
    · simp only [Crew.check, update_of_ne he] at hu
      exact hwork u p f a hu

theorem move_safe (h : s.Safe npools) (ht : s.place t ≠ .idle)
    (hq : ∀ p f a, q = .exec p f a →
      s.vars.pool t = some p ∧ (s.vars.pools p).func = f ∧ (s.vars.pools p).arg = a) :
    Crew.Safe npools { s with place := update s.place t q } := by
  refine ⟨h.ready, fun u hu => ?_, fun u p f a hu => ?_⟩
  · by_cases he : u = t
    · exact he ▸ h.running t ht
    · simp only [update_of_ne he] at hu
      exact h.running u hu
  · by_cases he : u = t
    · subst he
      simp only [update_self] at hu
      exact hq p f a hu
    · simp only [update_of_ne he] at hu
      exact h.work u p f a hu

/-- Every step, of either side, keeps the crew safe. -/
theorem crewStep_safe (h : s.Safe npools) {a : Act} (hs : crewStep npools s a = some s') :
    s'.Safe npools := by
  cases a with
  | invoke c =>
    rw [crewStep] at hs
    split at hs
    · next hctl =>
      obtain ⟨l, hl⟩ : ∃ l, Sound npools.toNat s.vars s.flags l := by
        have hready := h.ready
        rw [hctl] at hready
        cases hready with
        | idle hl => exact ⟨_, hl⟩
      exact resume_safe hl.flags h.running h.work (code_sat hl c) hs
    · cases hs
  | main => exact main_safe h hs
  | check t =>
    rw [crewStep] at hs
    split at hs
    · split at hs
      · exact Option.some.inj hs ▸ check_safe h t
      · cases hs
    · cases hs
  | call t =>
    rw [crewStep] at hs
    split at hs
    · next hplace =>
      obtain ⟨p, hp, rfl⟩ := Option.map_eq_some_iff.mp hs
      refine move_safe h (by simp [hplace]) fun p' f a he => ?_
      obtain ⟨rfl, rfl, rfl⟩ := Place.exec.inj he
      exact ⟨hp, rfl, rfl⟩
    · cases hs
  | ret t =>
    rw [crewStep] at hs
    split at hs
    · next hplace =>
      obtain rfl := Option.some.inj hs
      exact move_safe h (by simp [hplace]) fun p f a he => by cases he
    · cases hs

end Steps

theorem crew_safe {npools : UInt64} {s : Crew}
    (h : Run.exec (crewStep npools) Crew.init as = some s) : s.Safe npools := by
  apply Run.exec_inv (fun s => s.Safe npools) (fun _ => True) ?_ (init_safe npools)
    (fun _ _ => trivial) h
  exact fun s a s' hs _ ha => crewStep_safe hs ha

section Shown
variable {npools : UInt64} {a : Crew}

theorem resume_shown {c : Call} {p : Prog Req Bool Vars Int} {v : Vars} (hv : Shows p v)
    (a : Crew) : a.resume c p = some { a with vars := v, ctl := .busy c p false } := by
  cases p with
  | crash => exact hv.elim
  | done r u =>
    obtain rfl : u = v := hv
    rfl
  | ask r u k =>
    obtain rfl : u = v := hv
    rfl

theorem sat_shows {p : Prog Req Bool Vars Int} {B : Prop} {Q : Int → Vars → Flags → Prop}
    {v w : Vars} {e : Flags} (h : p.Sat world B Q v e) (hw : Shows p w) : Keeps e v w := by
  cases p with
  | crash => exact hw.elim
  | done r u =>
    obtain rfl : u = w := hw
    exact h.1
  | ask r u k =>
    obtain rfl : u = w := hw
    exact h.1

/-- What is left of a call whose thread is asked to stop or to run keeps the work of the threads
that run once it is done with the thread. -/
theorem asked_keeps {c : Call} {t : Nat} {b w : Bool} {v u : Vars}
    {k : Bool → Prog Req Bool Vars Int} (hsafe : a.Safe npools)
    (hc : a.ctl = .busy c (.ask (.set t b) v k) w) (hu : Shows (k b) u)
    (hr : a.flags.running t = b) : Keeps a.flags a.vars u := by
  have hready := hsafe.ready
  rw [hc] at hready
  have hkeep : Keeps (a.flags.set t b) a.vars u := by
    cases hready with
    | going hs hv hp =>
      obtain rfl : v = a.vars := hv
      exact sat_shows hp.2 hu
    | waiting hs hc hk => exact sat_shows hk hu
  intro x hx
  refine hkeep x ?_
  rw [Flags.set, ← hr, update_eq_self]
  exact hx

theorem main_first {c : Call} {t : Nat} {b : Bool} {v : Vars} {k : Bool → Prog Req Bool Vars Int}
    (hc : a.ctl = .busy c (.ask (.set t b) v k) false) : a.main =
      if a.flags.running t = b then (a.setRun t b).resume c (k b)
      else some { a.setRun t b with ctl := .busy c (.ask (.set t b) v k) true } := by
  simp only [Crew.main, hc]
  rfl

theorem main_waiting {c : Call} {t : Nat} {b : Bool} {v : Vars} {k : Bool → Prog Req Bool Vars Int}
    (hc : a.ctl = .busy c (.ask (.set t b) v k) true) : a.main =
      if a.flags.running t = b then a.resume c (k b)
      else some { a with ctl := .busy c (.ask (.set t b) v k) true } := by
  simp only [Crew.main, hc]
  rfl

theorem shows_unique {p : Prog Req Bool Vars Int} {v w : Vars} (hv : Shows p v) (hw : Shows p w) :
    v = w := by
  cases p with
  | crash => exact hv.elim
  | done r u => exact hv.symm.trans hw
  | ask r u k => exact hv.symm.trans hw

theorem going_steady {a : Crew} (hsafe : a.Safe npools) (hc : a.ctl = .busy c p false) (t : Nat) :
    a.flags.canrun t = a.flags.running t := by
  have hready := hsafe.ready
  rw [hc] at hready
  cases hready with
  | going hs hv hp => exact hs t

end Shown

end Oin17.Tpool
