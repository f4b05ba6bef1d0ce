import Oin17.Lib.Refine
import Oin17.Mine.Calling

namespace Oin17.Mine
open Chals Function Memory Refine Run

section
variable {ω : Type} {ca : Authority ω} {jsmn : Jsmn} {npools : UInt64} {busy : Nat → Bool}
variable {s s' : Plant ω} {a b : Crew ω}

theorem check_flags {tp : Tpool.Crew} (h : tp.Safe npools) (t : Nat) :
    (tp.check t).flags = tp.flags ∨ ∃ c b v k, tp.ctl = .busy c (.ask (.set t b) v k) true := by
  have hsame : tp.flags.canrun t = tp.flags.running t → (tp.check t).flags = tp.flags := by
    intro hs
    rw [Tpool.Crew.check, hs, update_eq_self]
  have hready := h.ready
  generalize tp.ctl = ctl at hready ⊢
  cases hready with
  | idle hl => exact Or.inl (hsame (hl.flags t))
  | going hs _ _ => exact Or.inl (hsame (hs t))
  | @waiting u b k c hs hc hk =>
    by_cases ht : t = u
    · subst ht
      exact Or.inr ⟨_, _, _, _, rfl⟩
    · exact Or.inl (hsame (hs t ht))

theorem Phase.check {tp : Tpool.Crew} (hsafe : tp.Safe npools) (t : Nat)
    (h : Phase npools busy st m tp.vars tp.flags tp.ctl pc am pools) :
    Phase npools busy st m tp.vars (tp.check t).flags tp.ctl pc am pools := by
  rcases check_flags hsafe t with he | ⟨c, b, v, k, hctl⟩
  · rwa [he]
  · have hset : (tp.check t).flags.set t b = tp.flags.set t b := by
      simp only [Tpool.Crew.check, Tpool.Flags.set, update_idem]
    cases h with
    | still _ hc => cases hctl.symm.trans hc
    | asked _ _ hc => cases hctl.symm.trans hc
    | stopped _ _ hc => cases hctl.symm.trans hc
    | seeking _ _ hc => cases hctl.symm.trans hc
    | started _ _ hc => cases hctl.symm.trans hc
    | stopping hst hpc hc hm hpos hk hl =>
      cases hctl.symm.trans hc
      exact .stopping hst hpc hc hm hpos hk (hset ▸ hl)
    | starting hst hpc hc hm hr hk hl =>
      cases hctl.symm.trans hc
      exact .starting hst hpc hc hm hr hk (hset ▸ hl)

theorem check_place (s : Plant ω) (t u : Nat) : Plant.place { s with tp := s.tp.check t } u =
    if u = t then if s.tp.flags.canrun t then .called else .idle else s.place u := by
  by_cases hu : u = t
  · subst hu
    simp only [Plant.place, Tpool.Crew.check, update_self, if_true]
    cases s.tp.flags.canrun u <;> rfl
  · simp only [Plant.place, Tpool.Crew.check, update_of_ne hu, if_neg hu]

theorem check_mirrors (h : Mirrors npools busy s a) (hs : s.tpool npools (.check t) = some s') :
    ∃ b, exec (Crew.step ca jsmn) a (s.acts busy (.check t)) = some b ∧
      Mirrors npools busy s' b := by
  obtain ⟨tp, htp, rfl⟩ := Option.map_eq_some_iff.mp hs
  have hsafe := Tpool.crewStep_safe h.safe htp
  rw [Tpool.crewStep] at htp
  split at htp
  swap
  · cases htp
  next hidle =>
  split at htp
  swap
  · cases htp
  obtain rfl := Option.some.inj htp
  have hplace : s.place t = .idle := by
    rw [Plant.place, hidle]
  have hphase := h.phase.check h.safe t
  rw [Plant.acts]
  cases hbusy : busy t with
  | true =>
    have hne : ∀ u, busy u = false → u ≠ t := by
      intro u hu he
      rw [he, hbusy] at hu
      cases hu
    exact ⟨a, rfl, h.world, h.events, h.finds, hsafe, hphase,
      h.mates.check (fun _ => hplace) (fun u hu => (if_neg (hne u hu)).symm)
        fun u _ => check_place s t u, h.apart, h.manned, h.jobs⟩
  | false =>
    have hidle' := (h.mates.own t hbusy).2.2.trans hplace
    have hstep : a.step ca jsmn (.work t .check) = some (a.setThread t Thread.check) := by
      simp [Crew.step, Crew.work, hidle']
    refine ⟨_, exec_one.trans hstep, h.world, h.events, h.finds, hsafe, hphase,
      h.mates.check (fun _ => hplace) (fun u _ => ?_) fun u _ => check_place s t u,
      h.apart.step hstep, h.manned.step hstep, h.jobs⟩
    by_cases hu : u = t
    · rw [if_pos hu, hu, setThread_self]
    · rw [if_neg hu, setThread_ne a _ hu]

theorem call_mirrors (h : Mirrors npools busy s a)
    (hs : (s.setWork t .called).tpool npools (.call t) = some s') : Mirrors npools busy s' a := by
  obtain ⟨tp, htp, rfl⟩ := Option.map_eq_some_iff.mp hs
  have hsafe := Tpool.crewStep_safe h.safe htp
  rw [Tpool.crewStep] at htp
  split at htp
  swap
  · cases htp
  next hplace =>
  have hcalled : s.tp.place t = .called := hplace
  obtain ⟨p, hp, rfl⟩ := Option.map_eq_some_iff.mp htp
  refine ⟨h.world, h.events, h.finds, hsafe, h.phase, h.mates.move (fun _ => ⟨rfl, rfl, rfl⟩) ?_,
    h.apart, h.manned, h.jobs⟩
  intro u hu
  rw [(h.mates.own u hu).2.2]
  by_cases hut : u = t
  · subst hut
    simp [Plant.place, Plant.setWork, hcalled]
  · simp [Plant.place, Plant.setWork, update_of_ne hut]

/-- A thread in a function is not busy with another one when the function is a solver's. -/
theorem Mirrors.exec (h : Mirrors npools busy s a) (ht : s.tp.place t = .exec p f i) :
    if f = solverSolve then busy t = false ∧ (a.threads t).Runs i else busy t = true := by
  obtain ⟨hpool, rfl, rfl⟩ := h.safe.work t p f i ht
  have hrun := h.safe.running t (by simp [ht])
  obtain ⟨hother, hown⟩ := h.mates.work t p (Or.inr hrun) hpool
  split
  · next hf =>
    have hbusy : busy t = false := Bool.eq_false_iff.mpr fun hb => hother hb hf
    exact ⟨hbusy, (hown hbusy).2, Or.inr ((h.mates.own t hbusy).2.1.trans hrun)⟩
  · next hf => exact Bool.of_not_eq_false fun hb => hf (hown hb).1

theorem ret_mirrors (h : Mirrors npools busy s a) (hm : s.mayReturn t = true)
    (hs : s.tpool npools (.ret t) = some s') : Mirrors npools busy s' a := by
  obtain ⟨tp, htp, rfl⟩ := Option.map_eq_some_iff.mp hs
  have hsafe := Tpool.crewStep_safe h.safe htp
  rw [Tpool.crewStep] at htp
  split at htp
  swap
  · cases htp
  next p f i hexec =>
  obtain rfl := Option.some.inj htp
  refine ⟨h.world, h.events, h.finds, hsafe, h.phase, h.mates.move (fun _ => ⟨rfl, rfl, rfl⟩) ?_,
    h.apart, h.manned, h.jobs⟩
  intro u hu
  rw [(h.mates.own u hu).2.2]
  by_cases hut : u = t
  · subst hut
    have hf : f = solverSolve := by
      by_contra hne
      have hbusy := h.exec hexec
      rw [if_neg hne, hu] at hbusy
      cases hbusy
    have hidle : s.work u = .idle := by
      rw [Plant.mayReturn, hexec] at hm
      cases hw : s.work u with
      | idle => rfl
      | called | solving | solved => simp [hw, hf] at hm
    simp [Plant.place, hexec, hidle]
  · simp [Plant.place, update_of_ne hut]

/-- The two miners differ in what a call of the pool's has not come to yet. -/
theorem Phase.miner (h : Phase npools busy st m v e ctl pc am pools) :
    (∃ jobs, am = { m with jobs := jobs }) ∨ ∃ i, pc = .start i ∧ m = am.prepared i := by
  cases h with
  | still _ _ hm | asked _ _ _ hm | stopping _ _ _ hm | stopped _ _ _ hm => exact Or.inl ⟨_, hm⟩
  | starting _ _ _ hm | started _ _ _ hm => exact Or.inl ⟨_, hm⟩
  | seeking _ hpc _ hm => exact Or.inr ⟨_, hpc, hm⟩

/-- The crew has the challenge. -/
theorem Mirrors.chal (h : Mirrors npools busy s a) : a.m.mchl.chal = s.m.mchl.chal := by
  rcases h.phase.miner with ⟨jobs, hm⟩ | ⟨i, -, hm⟩
  · rw [hm]
  · rw [hm]
    rfl

theorem Mirrors.submits (h : Mirrors npools busy s a) (id n : UInt64) (ok : Bool) :
    .submit id n ok ∈ s.m.log ↔ .submit id n ok ∈ a.m.log := by
  rcases h.phase.miner with ⟨jobs, hm⟩ | ⟨i, -, hm⟩
  · rw [hm]
  · rw [hm]
    simp [Miner.prepared]

/-- The solver that a thread runs is not the one that is started next. -/
theorem Mirrors.slvs (h : Mirrors npools busy s a) (hr : (a.threads t).Runs i) :
    a.m.mchl.slvs i = s.m.mchl.slvs i := by
  rcases h.phase.miner with ⟨jobs, hm⟩ | ⟨j, hpc, hm⟩
  · rw [hm]
  · have hpaired := h.apart.paired
    unfold Crew.Paired at hpaired
    rw [hpc] at hpaired
    have hne : i ≠ j := Nat.ne_of_lt (hpaired t i hr).bound
    rw [hm]
    exact (update_of_ne hne _ _).symm

/-- A thread goes on in a solver. -/
theorem Mirrors.place (h : Mirrors npools busy s a) (ht : s.tp.place t = .exec p f i)
    {q : Place} {fs : List (UInt64 × List Chal)} {es : List (UInt64 × UInt64)}
    (hrun : a.step ca jsmn act = some
      { a.setThread t fun th => { th with place := q } with finds := fs, events := es }) :
    Mirrors npools busy { s.setWork t q with finds := fs, events := es }
      { a.setThread t fun th => { th with place := q } with finds := fs, events := es } := by
  refine ⟨h.world, rfl, rfl, h.safe, h.phase, h.mates.move (fun u => ?_) (fun u hu => ?_),
    h.apart.step hrun, h.manned.step hrun, h.jobs⟩
  · by_cases hut : u = t
    · rw [hut, setThread_self]
      exact ⟨rfl, rfl, rfl⟩
    · rw [setThread_ne a _ hut]
      exact ⟨rfl, rfl, rfl⟩
  · by_cases hut : u = t
    · subst hut
      simp [Plant.place, Plant.setWork, ht]
    · dsimp only
      rw [setThread_ne a _ hut, (h.mates.own u hu).2.2]
      simp [Plant.place, Plant.setWork, update_of_ne hut]

theorem work_mirrors (h : Mirrors npools busy s a) (ht : s.tp.place t = .exec p solverSolve i)
    (hs : s.solve t i act = some s') : ∃ b, a.step ca jsmn (.work t act) = some b ∧
      Mirrors npools busy s' b := by
  have hexec := h.exec ht
  rw [if_pos rfl] at hexec
  obtain ⟨hbusy, hruns⟩ := hexec
  have hplace : (a.threads t).place = s.work t := by
    rw [(h.mates.own t hbusy).2.2, Plant.place, ht]
  have hstep : a.step ca jsmn (.work t act) = a.work t act := by
    cases hpc : a.pc <;> rfl
  unfold Plant.solve at hs
  split at hs
  · next hw =>
    rw [hw] at hplace
    split at hs
    · next hchl =>
      obtain rfl := Option.some.inj hs
      have hrun : a.work t .call = some
          { a.setThread t fun th => { th with place := .solving [s.m.mchl.chal] } with
            finds := s.finds, events := s.events } := by
        simp only [Crew.work, hplace, hruns.1, h.slvs hruns, h.chal, if_pos hchl, ← h.finds,
          ← h.events]
        rfl
      exact ⟨_, hstep.trans hrun, h.place ht (hstep.trans hrun)⟩
    · cases hs
  · next seen hw =>
    rw [hw] at hplace
    obtain rfl := Option.some.inj hs
    have hrun : a.work t .look = some
        { a.setThread t fun th => { th with place := .solving (seen ++ [s.m.mchl.chal]) } with
          finds := s.finds, events := s.events } := by
      simp only [Crew.work, hplace, h.chal, ← h.finds, ← h.events]
      rfl
    exact ⟨_, hstep.trans hrun, h.place ht (hstep.trans hrun)⟩
  · next n seen hw =>
    rw [hw] at hplace
    obtain rfl := Option.some.inj hs
    have hrun : a.work t (.find n) = some
        { a.setThread t fun th => { th with place := .solved n seen } with
          finds := s.finds ++ [(n, seen)], events := s.events } := by
      simp only [Crew.work, hplace, ← h.finds, ← h.events]
      rfl
    exact ⟨_, hstep.trans hrun, h.place ht (hstep.trans hrun)⟩
  · next seen hw =>
    rw [hw] at hplace
    obtain rfl := Option.some.inj hs
    have hrun : a.work t .giveUp = some
        { a.setThread t fun th => { th with place := .idle } with
          finds := s.finds, events := s.events } := by
      simp only [Crew.work, hplace, ← h.finds, ← h.events]
      rfl
    exact ⟨_, hstep.trans hrun, h.place ht (hstep.trans hrun)⟩
  · next n seen hw =>
    rw [hw] at hplace
    obtain rfl := Option.some.inj hs
    have hrun : a.work t .notify = some
        { a.setThread t fun th => { th with place := .idle } with
          finds := s.finds, events := s.events ++ [(s.m.mchl.chal.id, n)] } := by
      simp only [Crew.work, hplace, h.chal, ← h.finds, ← h.events]
      rfl
    exact ⟨_, hstep.trans hrun, h.place ht (hstep.trans hrun)⟩
  · cases hs

theorem step_mirrors (h : Mirrors npools busy s a) (hs : s.step ca jsmn npools act = some s') :
    ∃ b, exec (Crew.step ca jsmn) a (s.acts busy act) = some b ∧ Mirrors npools busy s' b := by
  cases act with
  | main ev c =>
    rw [Plant.step] at hs
    split at hs
    · next hst =>
      obtain ⟨b, hb, hmirrors⟩ := main_mirrors h hst hs
      exact ⟨b, exec_one.trans hb, hmirrors⟩
    · cases hs
  | drop added =>
    rw [Plant.step] at hs
    split at hs
    · next hst => exact drop_mirrors h hst hs
    · cases hs
  | start =>
    rw [Plant.step] at hs
    split at hs
    · next hst => exact start_mirrors h hst hs
    · cases hs
  | pool => exact pool_mirrors h hs
  | returned => exact returned_mirrors h hs
  | check t => exact check_mirrors h hs
  | call t => exact ⟨a, rfl, call_mirrors h hs⟩
  | ret t =>
    rw [Plant.step] at hs
    split at hs
    · next hm => exact ⟨a, rfl, ret_mirrors h hm hs⟩
    · cases hs
  | work t act =>
    rw [Plant.step] at hs
    split at hs
    · next hexec =>
      split at hs
      · next hf =>
        obtain ⟨b, hb, hmirrors⟩ := work_mirrors h (hf ▸ hexec) hs
        exact ⟨b, exec_one.trans hb, hmirrors⟩
      · cases hs
    · cases hs

end

/-- The pool as `mine` finds it: no call is under way, and the threads that run have pools of their
own and functions that are not a solver's. -/
structure Fit (npools : UInt64) (tp : Tpool.Crew) : Prop where
  idle : tp.ctl = .idle
  safe : tp.Safe npools
  single : ∃ active l, Tpool.Single npools (tp.vars, tp.flags) active l
  other : ∀ t p, tp.flags.running t = true → tp.vars.pool t = some p →
    (tp.vars.pools p).func ≠ solverSolve

/-- What the plant has in common with the crew. -/
structure Plant.Shown {ω : Type} (s : Plant ω) (a : Crew ω) : Prop where
  world : a.w = s.w
  chal : a.m.mchl.chal = s.m.mchl.chal
  submits : ∀ id n ok, .submit id n ok ∈ s.m.log ↔ .submit id n ok ∈ a.m.log
  events : a.events = s.events
  finds : a.finds = s.finds
  solving : ∀ t p i, s.tp.place t = .exec p solverSolve i →
    (a.threads t).arg = some i ∧ (a.threads t).running = true ∧ (a.threads t).place = s.work t

section Runs
variable {ω : Type} {ca : Authority ω} {jsmn : Jsmn} {npools : UInt64} {busy : Nat → Bool}
variable {s s' : Plant ω} {a : Crew ω} {tp : Tpool.Crew}

theorem init_mirrors (h : Fit npools tp) (w : ω) (uq sk : Int) (b : Buf) :
    Mirrors npools tp.flags.running (Plant.init w (begun uq sk b) tp)
      (Crew.init w (begun uq sk b) tp.flags.running) := by
  obtain ⟨active, l, hs⟩ := h.single
  have hflags : ∀ t, tp.flags.canrun t = tp.flags.running t := hs.sound.flags
  refine ⟨rfl, rfl, rfl, h.safe, .still rfl h.idle rfl ⟨active, l, hs, fun q t => ?_⟩,
    ⟨fun t ht => ?_, fun t ht => ⟨(hflags t).trans ht, ht⟩, fun t p ht hp => ?_⟩,
    Crew.init_apart w uq sk b _, Crew.init_manned w uq sk b _, nofun⟩
  · refine iff_of_false nofun fun hq => ?_
    obtain ⟨-, hl, ht⟩ := hq
    have hrun : tp.flags.running t = true :=
      ((hs.sound.mem q.toNat t).mp (hl ▸ List.mem_cons_self)).1
    cases hrun.symm.trans ht
  · have hidle : tp.place t = .idle := by
      by_contra hne
      cases (h.safe.running t hne).symm.trans ht
    simp [Crew.init, Plant.init, Plant.place, hidle, ht, hflags t]
  · have hrun : tp.flags.running t = true := by
      rcases ht with ht | ht
      · exact (hflags t).symm.trans ht
      · exact ht
    refine ⟨fun _ => h.other t p hrun hp, fun hb => ?_⟩
    cases hrun.symm.trans hb

theorem Mirrors.shown (h : Mirrors npools busy s a) : s.Shown a := by
  refine ⟨h.world, h.chal, h.submits, h.events, h.finds, fun t p i ht => ?_⟩
  have hexec := h.exec ht
  rw [if_pos rfl] at hexec
  have hrun := h.safe.running t (by simp [ht])
  obtain ⟨-, hown, hplace⟩ := h.mates.own t hexec.1
  refine ⟨hexec.2.1, hown.trans hrun, ?_⟩
  rw [hplace, Plant.place, ht]

/-- Two threads are not in the function of one solver, and the challenge only changes when none
has anything left to do in one. -/
def Plant.Separate (ca : Authority ω) (jsmn : Jsmn) (npools : UInt64) (s : Plant ω) : Prop :=
  (∀ t u p q i, s.tp.place t = .exec p solverSolve i →
      s.tp.place u = .exec q solverSolve i → t = u) ∧
    ∀ act s', s.step ca jsmn npools act = some s' → s'.m.mchl.chal ≠ s.m.mchl.chal →
      ∀ t p i, s.tp.place t = .exec p solverSolve i → s.work t = .idle

theorem Plant.acts_short (busy : Nat → Bool) (s : Plant ω) (act : PlantAct) :
    s.acts busy act = [] ∨ ∃ x, s.acts busy act = [x] := by
  unfold Plant.acts
  cases act with
  | main _ _ | work _ _ => exact Or.inr ⟨_, rfl⟩
  | call _ | ret _ => exact Or.inl rfl
  | drop _ | start | pool | returned | check _ => grind

theorem Mirrors.separate (h : Mirrors npools busy s a) : s.Separate ca jsmn npools := by
  refine ⟨fun t u p q i ht hu => ?_, fun act s' hs hchal t p i ht => ?_⟩
  · have htrun := h.exec ht
    have hurun := h.exec hu
    rw [if_pos rfl] at htrun hurun
    exact h.apart.unique htrun.2 hurun.2
  · obtain ⟨b, hb, hm⟩ := step_mirrors h hs
    rcases s.acts_short busy act with hnone | ⟨x, hone⟩
    · rw [hnone] at hb
      obtain rfl := Option.some.inj hb
      exact absurd (hm.chal.symm.trans h.chal) hchal
    · rw [hone, exec_one] at hb
      rw [← hm.chal, ← h.chal] at hchal
      by_contra hne
      obtain ⟨harg, -, hplace⟩ := h.shown.solving t p i ht
      exact h.apart.written hb hchal t i ⟨harg, hplace ▸ hne⟩

end Runs

/-- In every run of the miner over the pools of `tpool.c`, in any interleaving of its code, of the
calls of the pool and of the threads, the miner, its messages and what the solvers find are those of
a run of the crew, whose pools have a thread each from one step on to another. -/
theorem plant_refines {ω : Type} (ca : Authority ω) (jsmn : Jsmn) (npools : UInt64) (w : ω)
    (uq sk : Int) (b : Buf) (tp : Tpool.Crew) (hfit : Fit npools tp) (acts : List PlantAct)
    (s : Plant ω)
    (h : exec (Plant.step ca jsmn npools) (Plant.init w (begun uq sk b) tp) acts = some s) :
    ∃ a, exec (Crew.step ca jsmn) (Crew.init w (begun uq sk b) tp.flags.running)
      (trace (Plant.step ca jsmn npools) (Plant.acts tp.flags.running)
        (Plant.init w (begun uq sk b) tp) acts) = some a ∧ s.Shown a := by
  have hsim : Simulates (Plant.step ca jsmn npools) (Crew.step ca jsmn)
      (Plant.acts tp.flags.running) (Mirrors npools tp.flags.running) :=
    fun s a act s' hm hs => step_mirrors hm hs
  obtain ⟨a, ha, hm⟩ := hsim.trace (init_mirrors hfit w uq sk b) h
  exact ⟨a, ha, hm.shown⟩

/-- The pool of two threads, one of which is in a function that is not a solver's. -/
def dispatching : List Tpool.Act := [.invoke (.start 1 0 0), .main, .main, .check 0, .main, .main]

def dispatched : Tpool.Crew := (exec (Tpool.crewStep 2) Tpool.Crew.init dispatching).getD .init

theorem dispatched_fit : Fit 2 dispatched := by
  have hrun : exec (Tpool.crewStep 2) Tpool.Crew.init dispatching = some dispatched := rfl
  refine ⟨rfl, Tpool.crew_safe hrun, ?_, ?_⟩
  · have hinit : Tpool.Single 2 Tpool.init ∅ fun _ => [] :=
      ⟨Tpool.init_sound 2, fun p => by simp, fun p hp => by simp at hp, rfl⟩
    have hcall : exec (Tpool.track 2) (Tpool.init, ∅) [.start 1 0 0] =
        some ((dispatched.vars, dispatched.flags), {0}) := rfl
    have husage : Each (Tpool.track 2) Tpool.Usage (Tpool.init, ∅) [.start 1 0 0] :=
      ⟨rfl, fun _ _ => trivial⟩
    obtain ⟨l, hl⟩ := Tpool.run_single hinit husage hcall
    exact ⟨_, l, hl⟩
  · intro t p ht hp
    have hzero : t = 0 := by
      have hflags : dispatched.flags.running = update (fun _ => false) 0 true := rfl
      by_contra hne
      rw [hflags, update_of_ne hne] at ht
      cases ht
    subst hzero
    obtain rfl := Option.some.inj (hp.symm.trans (show _ = some 0 from rfl))
    decide

def shortWork : List PlantAct :=
  [.main (.wsock 0 Ws.qnoteConn) someCalls, .main (.wsock 0 Ws.qnoteRead) someCalls, .drop true,
    .start, .pool, .pool, .pool, .check 1, .call 1, .pool, .returned, .start, .returned,
    .work 1 .call, .work 1 (.find 30000000), .work 1 .notify, .ret 1,
    .main (.solvr 5 30000000) someCalls]

theorem plant_refines_short : ∃ s a,
    exec (Plant.step (responding (response '5')) responseToks 2)
      (Plant.init () (begun 0 0 fun _ => 0) dispatched) shortWork = some s ∧
    exec (Crew.step (responding (response '5')) responseToks)
      (Crew.init () (begun 0 0 fun _ => 0) dispatched.flags.running)
      (trace (Plant.step (responding (response '5')) responseToks 2)
        (Plant.acts dispatched.flags.running) (Plant.init () (begun 0 0 fun _ => 0) dispatched)
        shortWork) = some a ∧
    s.Shown a ∧ .submit 5 30000000 true ∈ a.m.log := by
  have hrun : (exec (Plant.step (responding (response '5')) responseToks 2)
      (Plant.init () (begun 0 0 fun _ => 0) dispatched) shortWork).any
        (fun s => .submit 5 30000000 true ∈ s.m.log) = true := by decide +kernel
  obtain ⟨s, hs, hlog⟩ := (Option.any_eq_true _ _).mp hrun
  obtain ⟨a, ha, hshown⟩ :=
    plant_refines _ _ 2 () 0 0 _ dispatched dispatched_fit shortWork s hs
  exact ⟨s, a, hs, ha, hshown, (hshown.submits 5 30000000 true).mp (of_decide_eq_true hlog)⟩

/-- In every run of the miner over the pools of `tpool.c`, a solver's workspace and generator are
used by one thread at a time, and the challenge changes under none. -/
theorem plant_apart {ω : Type} (ca : Authority ω) (jsmn : Jsmn) (npools : UInt64) (w : ω)
    (uq sk : Int) (b : Buf) (tp : Tpool.Crew) (hfit : Fit npools tp) (acts : List PlantAct) :
    Always (Plant.step ca jsmn npools) (Plant.Separate ca jsmn npools)
      (Plant.init w (begun uq sk b) tp) acts := by
  apply always_inv fun s => ∃ a, Mirrors npools tp.flags.running s a
  · intro s act s' h hs
    obtain ⟨a, hm⟩ := h
    obtain ⟨b, -, hm'⟩ := step_mirrors hm hs
    exact ⟨b, hm'⟩
  · intro s h
    obtain ⟨a, hm⟩ := h
    exact hm.separate
  · exact ⟨_, init_mirrors hfit w uq sk b⟩

theorem plant_apart_short : ∃ s,
    exec (Plant.step (responding (response '5')) responseToks 2)
      (Plant.init () (begun 0 0 fun _ => 0) dispatched) (shortWork.take 14) = some s ∧
    s.mayReturn 1 = false ∧ s.Separate (responding (response '5')) responseToks 2 := by
  have hrun : (exec (Plant.step (responding (response '5')) responseToks 2)
      (Plant.init () (begun 0 0 fun _ => 0) dispatched) (shortWork.take 14)).any
        (fun s => s.mayReturn 1 = false) = true := by decide +kernel
  obtain ⟨s, hs, hworks⟩ := (Option.any_eq_true _ _).mp hrun
  exact ⟨s, hs, of_decide_eq_true hworks,
    (plant_apart _ _ 2 () 0 0 _ dispatched dispatched_fit (shortWork.take 14)).last hs⟩

end Oin17.Mine
