import Oin17.Mine.Plant

namespace Oin17.Mine
open Chals Dialogue Function

/-- The pools whose one thread is not `busy` with another function. -/
def Owns (busy : Nat → Bool) (l : Nat → List Nat) (pools : Int → Option Nat) : Prop :=
  ∀ q t, pools q = some t ↔ 0 ≤ q ∧ l q.toNat = [t] ∧ busy t = false

/-- What the pool is between two calls, and the pools of the crew. -/
def Level (npools : UInt64) (busy : Nat → Bool) (v : Tpool.Vars) (e : Tpool.Flags)
    (pools : Int → Option Nat) : Prop :=
  ∃ active l, Tpool.Single npools (v, e) active l ∧ Owns busy l pools

/-- What `tpool_start` returns, and the pools when it does. -/
structure Begun (npools : UInt64) (busy : Nat → Bool) (pools : Int → Option Nat) (r : Int)
    (v : Tpool.Vars) (e : Tpool.Flags) : Prop where
  refused : r < 0 → Level npools busy v e pools
  free : 0 ≤ r → pools r = none
  started : 0 ≤ r → ∀ t, v.pool t = some r.toNat → e.running t = true → busy t = false →
    Level npools busy v e (update pools r (some t))

/-- Before the crew does what a call of `mine` is for. -/
def Stage.pc : Stage → Pc
  | .wait => .wait
  | .drop chal i | .stop chal i => .drop chal i
  | .start i | .launch i => .start i

/-- How far a call of `mine` is, and what the crew has done of it: it stops or starts a thread when
the thread is told to. -/
inductive Phase (npools : UInt64) (busy : Nat → Bool) (st : Stage) (m : Miner) (v : Tpool.Vars)
    (e : Tpool.Flags) (ctl : Tpool.Ctl) (pc : Pc) (am : Miner) (pools : Int → Option Nat) : Prop
  | still (hpc : pc = st.pc) (hc : ctl = .idle) (hm : am = m) (hl : Level npools busy v e pools)
  | asked (hst : st = .stop chal i) (hpc : pc = .drop chal i)
      (hc : ctl = .busy c (.ask (.set t false) v k) false) (hm : am = m) (hi : i < m.mchl.nslv)
      (hpos : 0 ≤ (m.mchl.slvs i).pool) (hp : pools (m.mchl.slvs i).pool = some t)
      (hrun : e.running t = true) (hbusy : busy t = false) (hk : k false = .done 0 u)
      (hl : Level npools busy u (e.set t false) (update pools (m.mchl.slvs i).pool none))
  | stopping (hst : st = .stop chal i) (hpc : pc = .stop chal i t)
      (hc : ctl = .busy c (.ask (.set t false) v k) true) (hm : am = m)
      (hpos : 0 ≤ (m.mchl.slvs i).pool) (hk : k false = .done 0 u)
      (hl : Level npools busy u (e.set t false) (update pools (m.mchl.slvs i).pool none))
  | stopped (hst : st = .stop chal i) (hpc : pc = .stop chal i t)
      (hc : ctl = .busy c (.done 0 v) false) (hm : am = m) (hpos : 0 ≤ (m.mchl.slvs i).pool)
      (hrun : e.running t = false)
      (hl : Level npools busy v e (update pools (m.mchl.slvs i).pool none))
  | seeking (hst : st = .launch i) (hpc : pc = .start i) (hc : ctl = .busy c p false)
      (hm : m = am.prepared i) (hi : i < maxslv) (hp : Tpool.Seeks e solverSolve i p)
      (hrun : p.atomic Tpool.Flags.answer e = some (r, u, f)) (hb : Begun npools busy pools r u f)
  | starting (hst : st = .launch i) (hpc : pc = .wake i r t)
      (hc : ctl = .busy c (.ask (.set t true) v k) true)
      (hm : am = { m with jobs := update m.jobs r (some i) }) (hr : 0 ≤ r)
      (hk : k true = .done r u) (hl : Level npools busy u (e.set t true) pools)
  | started (hst : st = .launch i) (hpc : pc = .wake i r t)
      (hc : ctl = .busy c (.done r v) false)
      (hm : am = { m with jobs := update m.jobs r (some i) }) (hr : 0 ≤ r)
      (hrun : e.running t = true) (hl : Level npools busy v e pools)

/-- The flags and places of the threads that are not `busy` with other functions, and what the
threads are for. -/
structure Mates (busy : Nat → Bool) (v : Tpool.Vars) (e : Tpool.Flags) (place : Nat → Place)
    (threads : Nat → Thread) : Prop where
  own : ∀ t, busy t = false → (threads t).canrun = e.canrun t ∧
    (threads t).running = e.running t ∧ (threads t).place = place t
  other : ∀ t, busy t = true → e.canrun t = true ∧ e.running t = true
  work : ∀ t p, e.canrun t = true ∨ e.running t = true → v.pool t = some p →
    (busy t = true → (v.pools p).func ≠ solverSolve) ∧
      (busy t = false → (v.pools p).func = solverSolve ∧ (threads t).arg = some (v.pools p).arg)

section
variable {ω : Type}

/-- Where the crew has a thread. -/
def Plant.place (s : Plant ω) (t : Nat) : Place :=
  match s.tp.place t with
  | .idle => .idle
  | .called => .called
  | .exec _ _ _ => s.work t

/-- The steps of the crew for a step of the plant. -/
def Plant.acts (busy : Nat → Bool) (s : Plant ω) : PlantAct → List Act
  | .main ev c => [.main ev c]
  | .drop added =>
    match s.stage with
    | .drop _ i =>
      if i < s.m.mchl.nslv ∧ 0 ≤ (s.m.mchl.slvs i).pool then [] else [.drop added]
    | _ => []
  | .start =>
    match s.stage with
    | .start i => if i < maxslv then [] else [.start 0 0]
    | _ => []
  | .pool =>
    match s.tp.ctl with
    | .busy _ (.ask (.set t true) v _) false => [.start ((v.pool t).getD 0 : Nat) t]
    | .busy _ (.ask (.set _ false) _ _) false => [.drop true]
    | _ => []
  | .returned =>
    match s.stage, s.tp.ctl with
    | .stop _ _, _ => [.stopped]
    | .launch _, .busy _ (.done r _) _ => if r < 0 then [.start r 0] else [.started]
    | _, _ => []
  | .check t => if busy t then [] else [.work t .check]
  | .call _ | .ret _ => []
  | .work t a => [.work t a]

structure Mirrors (npools : UInt64) (busy : Nat → Bool) (s : Plant ω) (a : Crew ω) : Prop where
  world : a.w = s.w
  events : a.events = s.events
  finds : a.finds = s.finds
  safe : s.tp.Safe npools
  phase : Phase npools busy s.stage s.m s.tp.vars s.tp.flags s.tp.ctl a.pc a.m a.pools
  mates : Mates busy s.tp.vars s.tp.flags s.place a.threads
  apart : a.Apart
  manned : a.Manned
  jobs : ∀ p, (s.m.jobs p).isSome → (a.pools p).isSome

end

section Calls
variable {npools : UInt64} {busy : Nat → Bool} {v : Tpool.Vars} {e : Tpool.Flags}
variable {pools : Int → Option Nat} {l l' : Nat → List Nat}

theorem Owns.start (h : Owns busy l pools) (hr : 0 ≤ r) (hl : l' r.toNat = [t])
    (ht : busy t = false) (ho : ∀ q : Nat, (q : Int) ≠ r → l' q = l q) :
    Owns busy l' (update pools r (some t)) := by
  intro q u
  by_cases hq : q = r
  · subst hq
    rw [update_self, hl]
    constructor
    · intro he
      obtain rfl := Option.some.inj he
      exact ⟨hr, rfl, ht⟩
    · intro he
      rw [(List.cons.inj he.2.1).1]
  · rw [update_of_ne hq, h]
    refine and_congr_right fun hpos => ?_
    rw [ho q.toNat (by omega)]

theorem Owns.stop (h : Owns busy l pools) (hl : l' p.toNat = [])
    (ho : ∀ q, q ≠ p.toNat → l' q = l q) (hpos : 0 ≤ p) : Owns busy l' (update pools p none) := by
  intro q u
  by_cases hq : q = p
  · subst hq
    rw [update_self, hl]
    simp
  · rw [update_of_ne hq, h]
    refine and_congr_right fun hq' => ?_
    rw [ho q.toNat (by omega)]

theorem Level.stop {p : Int} (h : Level npools busy v e pools) (hp : pools p = some t) : ∃ u,
    Tpool.Call.code npools (.stop p) v = .ask (.set t false) v (fun _ => .done 0 u) ∧
      e.running t = true ∧ busy t = false ∧
        Level npools busy u (e.set t false) (update pools p none) := by
  obtain ⟨active, l, hs, ho⟩ := h
  obtain ⟨hpos, hl, hbusy⟩ := (ho p t).mp hp
  have hcode := hs.stop_code hpos hl
  refine ⟨_, hcode, ((hs.sound.mem p.toNat t).mp (hl ▸ List.mem_cons_self)).1, hbusy, ?_⟩
  have hactive : p.toNat ∈ active := (hs.mem p.toNat).mpr (by simp [hl])
  obtain ⟨r, s', hrun, -, l', hs', hl'⟩ := hs.stop hpos hactive
  rw [Tpool.Call.run, hcode] at hrun
  obtain ⟨-, rfl⟩ := Prod.mk.inj (Option.some.inj hrun)
  have hnil : l' p.toNat = [] := by
    by_contra hne
    have := (hs'.mem p.toNat).mpr hne
    simp at this
  exact ⟨_, l', hs', ho.stop hnil hl' hpos⟩

theorem Level.start (h : Level npools busy v e pools) (func arg : Tpool.Addr) : ∃ r u e',
    (Tpool.Call.code npools (.start 1 func arg) v).atomic Tpool.Flags.answer e = some (r, u, e') ∧
      Tpool.Seeks e func arg (Tpool.Call.code npools (.start 1 func arg) v) ∧
      Begun npools busy pools r u e' := by
  obtain ⟨active, l, hs, ho⟩ := h
  obtain ⟨r, ⟨u, e'⟩, hrun, hout, l', hs', hl'⟩ := hs.start func arg
  refine ⟨r, u, e', hrun, hs.seeks func arg, fun hr => ?_, fun hr => ?_,
    fun hr t hpool ht hbusy => ?_⟩
  · rw [if_neg (not_le.mpr hr)] at hs'
    refine ⟨active, l', hs', ?_⟩
    have he : l' = l := funext fun q => hl' q (by omega)
    rwa [he]
  · cases hp : pools r with
    | none => rfl
    | some t =>
      obtain ⟨-, hl, -⟩ := (ho r t).mp hp
      exact absurd ((hs.mem r.toNat).mpr (by simp [hl])) (hout.2.1 hr).1
  · rw [if_pos hr] at hs'
    have hmem : t ∈ l' r.toNat := (hs'.sound.mem r.toNat t).mpr ⟨ht, hpool⟩
    obtain ⟨x, hx⟩ := List.length_eq_one_iff.mp (hs'.length (Finset.mem_insert_self r.toNat active))
    rw [hx] at hmem
    obtain rfl := List.mem_singleton.mp hmem
    exact ⟨_, l', hs', ho.start hr hx hbusy hl'⟩

end Calls

section Threads
variable {npools : UInt64} {busy : Nat → Bool} {v v' : Tpool.Vars} {e : Tpool.Flags}
variable {place place' : Nat → Place} {threads threads' : Nat → Thread} {u : Nat}

/-- Threads that run keep their work, and between two requests no other one may run. -/
theorem Mates.keep (h : Mates busy v e place threads) (hs : ∀ t, e.canrun t = e.running t)
    (hk : Tpool.Keeps e v v') : Mates busy v' e place threads := by
  refine ⟨h.own, h.other, fun t p ht hp => ?_⟩
  have hrun : e.running t = true := by
    rcases ht with ht | ht
    · exact (hs t).symm.trans ht
    · exact ht
  obtain ⟨hpool, hwork⟩ := hk t hrun
  rw [hpool] at hp
  obtain ⟨hfunc, harg⟩ := hwork p hp
  rw [hfunc, harg]
  exact h.work t p ht hp

theorem Mates.free (h : Mates busy v e place threads) (hu : e.running u = false) :
    busy u = false := by
  by_contra hb
  have hrun := (h.other u (Bool.of_not_eq_false hb)).2
  rw [hu] at hrun
  cases hrun

/-- A thread looks at `canrun`. -/
theorem Mates.check (h : Mates busy v e place threads) (hp : busy u = false → place u = .idle)
    (hth : ∀ t, busy t = false → threads' t = if t = u then (threads t).check else threads t)
    (hpl : ∀ t, busy t = false →
      place' t = if t = u then if e.canrun u then .called else .idle else place t) :
    Mates busy v { e with running := update e.running u (e.canrun u) } place' threads' := by
  have hmay : ∀ t, e.canrun t = true ∨ update e.running u (e.canrun u) t = true →
      e.canrun t = true ∨ e.running t = true := by
    intro t ht
    by_cases htu : t = u
    · subst htu
      rw [update_self, or_self] at ht
      exact Or.inl ht
    · rwa [update_of_ne htu] at ht
  refine ⟨fun t ht => ?_, fun t ht => ?_, fun t p ht hp => ⟨?_, fun hb => ?_⟩⟩
  · obtain ⟨hcan, hrun, hplace⟩ := h.own t ht
    rw [hth t ht, hpl t ht]
    by_cases htu : t = u
    · subst htu
      simp only [if_true, update_self, Thread.check, hcan]
      cases hc : e.canrun t with
      | true => exact ⟨rfl, rfl, rfl⟩
      | false => exact ⟨rfl, rfl, hplace.trans (hp ht)⟩
    · simp only [if_neg htu, update_of_ne htu]
      exact ⟨hcan, hrun, hplace⟩
  · obtain ⟨hcan, hrun⟩ := h.other t ht
    refine ⟨hcan, ?_⟩
    by_cases htu : t = u
    · subst htu
      simpa only [update_self] using hcan
    · simpa only [update_of_ne htu] using hrun
  · exact (h.work t p (hmay t ht) hp).1
  · obtain ⟨hfunc, harg⟩ := (h.work t p (hmay t ht) hp).2 hb
    refine ⟨hfunc, ?_⟩
    rw [hth t hb]
    split
    · rw [(threads t).check_cases.2.1, harg]
    · exact harg

/-- A thread goes on in a function. -/
theorem Mates.move (h : Mates busy v e place threads)
    (hth : ∀ t, (threads' t).canrun = (threads t).canrun ∧
      (threads' t).running = (threads t).running ∧ (threads' t).arg = (threads t).arg)
    (hpl : ∀ t, busy t = false → (threads' t).place = place' t) :
    Mates busy v e place' threads' := by
  refine ⟨fun t ht => ?_, h.other, fun t p ht hp => ?_⟩
  · obtain ⟨hcan, hrun, -⟩ := h.own t ht
    obtain ⟨hcan', hrun', -⟩ := hth t
    exact ⟨hcan'.trans hcan, hrun'.trans hrun, hpl t ht⟩
  · rw [(hth t).2.2]
    exact h.work t p ht hp

/-- A thread that is not busy is told to stop. -/
theorem Mates.stop (h : Mates busy v e place threads) (hu : busy u = false) :
    Mates busy v { e with canrun := update e.canrun u false } place
      (update threads u { threads u with canrun := false }) := by
  have hne : ∀ t, busy t = true → t ≠ u := by
    intro t ht he
    rw [he, hu] at ht
    cases ht
  refine ⟨fun t ht => ?_, fun t ht => ?_, fun t p ht hp => ?_⟩
  · obtain ⟨hcan, hrun, hplace⟩ := h.own t ht
    by_cases htu : t = u
    · subst htu
      simp only [update_self]
      exact ⟨trivial, hrun, hplace⟩
    · simp only [update_of_ne htu]
      exact ⟨hcan, hrun, hplace⟩
  · simpa only [update_of_ne (hne t ht)] using h.other t ht
  · by_cases htu : t = u
    · subst htu
      simp only [update_self] at ht ⊢
      exact h.work t p (ht.imp_left nofun) hp
    · simp only [update_of_ne htu] at ht ⊢
      exact h.work t p ht hp

/-- A thread that does not run is told to, and has its work. -/
theorem Mates.start (h : Mates busy v e place threads) (hu : e.running u = false)
    (hwork : ∀ p, v.pool u = some p → (v.pools p).func = solverSolve ∧ (v.pools p).arg = i) :
    Mates busy v { e with canrun := update e.canrun u true } place
      (update threads u { threads u with canrun := true, arg := some i }) := by
  have hne : ∀ t, busy t = true → t ≠ u := by
    intro t ht he
    rw [he, h.free hu] at ht
    cases ht
  refine ⟨fun t ht => ?_, fun t ht => ?_, fun t p ht hp => ?_⟩
  · obtain ⟨hcan, hrun, hplace⟩ := h.own t ht
    by_cases htu : t = u
    · subst htu
      simp only [update_self]
      exact ⟨trivial, hrun, hplace⟩
    · simp only [update_of_ne htu]
      exact ⟨hcan, hrun, hplace⟩
  · simpa only [update_of_ne (hne t ht)] using h.other t ht
  · by_cases htu : t = u
    · subst htu
      obtain ⟨hfunc, harg⟩ := hwork p hp
      simp only [update_self]
      exact ⟨fun hb => absurd rfl (hne t hb), fun _ => ⟨hfunc, congrArg some harg.symm⟩⟩
    · simp only [update_of_ne htu] at ht ⊢
      exact h.work t p ht hp

end Threads

end Oin17.Mine
