import Oin17.Mine.Turns

namespace Oin17.Mine
open Chals Function Memory Run

/-- A thread that runs solver `i`, or is told to. -/
def Thread.Runs (th : Thread) (i : Nat) : Prop :=
  th.arg = some i ∧ (th.canrun = true ∨ th.running = true)

/-- The pool of solver `k`, one from `lo` up to `hi`, has the thread. -/
structure Assigned (h : Chl) (pools : Int → Option Nat) (lo hi t k : Nat) : Prop where
  least : lo ≤ k
  bound : k < hi
  pool : 0 ≤ (h.slvs k).pool
  thread : pools (h.slvs k).pool = some t

/-- At each point of `mine`, a thread that runs a solver is the one of the solver's pool. -/
def Crew.Paired {ω : Type} (s : Crew ω) : Prop :=
  match s.pc with
  | .wait => ∀ t k, (s.threads t).Runs k → Assigned s.m.mchl s.pools 0 s.m.mchl.nslv t k
  | .drop _ i | .stop _ i _ =>
    ∀ t k, (s.threads t).Runs k → Assigned s.m.mchl s.pools i s.m.mchl.nslv t k
  | .start i => ∀ t k, (s.threads t).Runs k → Assigned s.m.mchl s.pools 0 i t k
  | .wake i _ u => ∀ t k, (s.threads t).Runs k →
      t = u ∧ k = i ∨ Assigned s.m.mchl s.pools 0 i t k

structure Crew.Apart {ω : Type} (s : Crew ω) : Prop where
  inv : s.Inv
  paired : s.Paired
  awake : ∀ t, (s.threads t).canrun = true →
    (s.threads t).running = true ∨ ∃ i p, s.pc = .wake i p t

/-- The solvers from `lo` up to `hi` that have a pool have one of their own, with a thread. -/
structure Staffed (h : Chl) (pools : Int → Option Nat) (lo hi : Nat) : Prop where
  thread : ∀ k, lo ≤ k → k < hi → 0 ≤ (h.slvs k).pool → pools (h.slvs k).pool ≠ none
  apart : ∀ j k, lo ≤ j → j < hi → lo ≤ k → k < hi → 0 ≤ (h.slvs j).pool →
    (h.slvs j).pool = (h.slvs k).pool → j = k

/-- At each point of `mine`, the solvers that it has started and not stopped are staffed. -/
def Crew.Manned {ω : Type} (s : Crew ω) : Prop :=
  match s.pc with
  | .wait => Staffed s.m.mchl s.pools 0 s.m.mchl.nslv
  | .drop _ i | .stop _ i _ => Staffed s.m.mchl s.pools i s.m.mchl.nslv
  | .start i => Staffed s.m.mchl s.pools 0 i
  | .wake i p _ => Staffed s.m.mchl s.pools 0 i ∧ s.pools p ≠ none ∧
      ∀ k < i, (s.m.mchl.slvs k).pool ≠ p

/-- A thread is in the function of a solver. -/
def Crew.In {ω : Type} (s : Crew ω) (t i : Nat) : Prop :=
  (s.threads t).arg = some i ∧ (s.threads t).place ≠ .idle

section
variable {ω : Type} {ca : Authority ω} {jsmn : Jsmn} {s s' : Crew ω}

theorem Assigned.congr {h h' : Chl} (ha : Assigned h pools lo hi t k)
    (hslv : (h'.slvs k).pool = (h.slvs k).pool) (hlo : lo' ≤ k) (hhi : k < hi')
    (hpools : pools (h.slvs k).pool = some t → pools' (h.slvs k).pool = some t) :
    Assigned h' pools' lo' hi' t k := by
  refine ⟨hlo, hhi, ?_, ?_⟩
  · rw [hslv]
    exact ha.pool
  · rw [hslv]
    exact hpools ha.thread

/-- Another solver is left when one is dropped. -/
theorem Assigned.drop (ha : Assigned g.mchl pools i g.mchl.nslv t k) (hk : k ≠ i)
    (hpools : pools (g.mchl.slvs k).pool = some t → pools' (g.mchl.slvs k).pool = some t) :
    Assigned (dropSlv i g).mchl pools' (i + 1) (dropSlv i g).mchl.nslv t k := by
  obtain ⟨-, -, -, hn, hslvs⟩ := dropSlv_frame i g
  have hlo := ha.least
  refine ha.congr ?_ (by omega) ?_ hpools
  · rw [hslvs k hk]
  · rw [hn]
    exact ha.bound

theorem Crew.Worked.runs (hw : s.Worked t s') (h : (s'.threads u).Runs k) :
    (s.threads u).Runs k := by
  by_cases hu : u = t
  · subst hu
    obtain ⟨harg, hact⟩ := h
    rw [hw.arg] at harg
    rw [hw.canrun] at hact
    refine ⟨harg, ?_⟩
    rcases hact with hcan | hrun
    · exact Or.inl hcan
    · rcases hw.running with he | he
      · exact Or.inr (he ▸ hrun)
      · exact Or.inl (he ▸ hrun)
  · rwa [hw.others u hu] at h

theorem Crew.Apart.paired_turn (h : s.Apart) (ht : s.Turn ca jsmn s' a) : s'.Paired := by
  have hp := h.paired
  have hheld := h.inv.held
  unfold Crew.Paired at hp ⊢
  unfold Crew.Held at hheld
  cases ht with
  | pass hpc hpc' hr hm =>
    rw [hpc] at hp
    rw [hpc', hr.threads, hr.pools, hm.nslv]
    intro t k hrun
    have ha := hp t k hrun
    exact ha.congr (by rw [hm.slvs]) ha.least ha.bound id
  | replace hpc hpc' hr hm _ =>
    rw [hpc] at hp
    rw [hpc', hr.threads, hr.pools, hm.nslv]
    intro t k hrun
    have ha := hp t k hrun
    exact ha.congr (by rw [hm.slvs]) ha.least ha.bound id
  | @signal chal i u _ hpc hpc' hpool hu ht hpools hm _ =>
    rw [hpc] at hp
    rw [hpc', ht, hpools, hm]
    intro t k hrun
    apply hp t k
    by_cases htu : t = u
    · subst htu
      rw [update_self] at hrun
      exact ⟨hrun.1, Or.inr (hrun.2.resolve_left (by simp))⟩
    · rwa [update_of_ne htu] at hrun
  | skip hpc hpc' hpool hr hm =>
    rw [hpc] at hp
    rw [hpc', hr.threads, hr.pools, hm]
    intro t k hrun
    have ha := hp t k hrun
    refine ha.drop (fun hk => ?_) id
    subst hk
    cases (hpool ha.pool).symm.trans ha.thread
  | overwrite hpc hpc' hi hr hm =>
    rw [hpc] at hp
    rw [hpc', hr.threads]
    intro t k hrun
    have ha := hp t k hrun
    have hlo := ha.least
    have hhi := ha.bound
    omega
  | @stopped chal i u hpc hpc' hrun ht hpools hm _ =>
    rw [hpc] at hp hheld
    obtain ⟨-, hcan, hu⟩ := hheld
    rw [hpc', ht, hpools, hm]
    intro t k hruns
    have ha := hp t k hruns
    -- the thread that stopped runs no solver, and no other one was in its pool
    have hpool : (s.m.mchl.slvs k).pool ≠ (s.m.mchl.slvs i).pool := by
      intro he
      have hthread := ha.thread
      rw [he, hu] at hthread
      obtain rfl := Option.some.inj hthread
      rcases hruns.2 with hact | hact
      · cases hcan.symm.trans hact
      · cases hrun.symm.trans hact
    refine ha.drop (fun hk => hpool (by rw [hk])) fun hthread => ?_
    rwa [update_of_ne hpool]
  | settle hpc hpc' hr _ hn hslvs =>
    rw [hpc] at hp
    rw [hpc', hr.threads, hr.pools, hn]
    intro t k hrun
    have ha := hp t k hrun
    exact ha.congr (hslvs k ha.bound) ha.least ha.bound id
  | @launch i p u hpc hpc' hpos hfree hrun ht hpools _ hslvs _ =>
    rw [hpc] at hp
    rw [hpc', ht, hpools]
    intro t k hruns
    by_cases htu : t = u
    · subst htu
      rw [update_self] at hruns
      exact Or.inl ⟨rfl, (Option.some.inj hruns.1).symm⟩
    · rw [update_of_ne htu] at hruns
      have ha := hp t k hruns
      refine Or.inr (ha.congr (hslvs k) ha.least ha.bound fun hthread => ?_)
      have hne : (s.m.mchl.slvs k).pool ≠ p := by
        rintro rfl
        cases hfree.symm.trans hthread
      rwa [update_of_ne hne]
  | @started i p u hpc hpc' hrun hr hm =>
    rw [hpc] at hp hheld
    obtain ⟨-, hpos, hu⟩ := hheld
    rw [hpc', hr.threads, hr.pools, hm]
    intro t k hruns
    rcases hp t k hruns with ⟨rfl, rfl⟩ | ha
    · have hself : ((s.m.mchl.setPool k p).slvs k).pool = p := by
        simp [Chl.setPool, Chl.setSlv]
      refine ⟨Nat.zero_le _, Nat.lt_succ_self _, ?_, ?_⟩
      · rwa [hself]
      · rwa [hself]
    · have hhi := ha.bound
      refine ha.congr ?_ ha.least (by omega) id
      rw [setPool_ne (by omega)]
  | @work t _ hw _ =>
    rw [hw.pc, hw.m, hw.pools]
    cases hpc : s.pc with
    | wait | drop | stop | start | wake =>
      rw [hpc] at hp
      exact fun u k hruns => hp u k (hw.runs hruns)

theorem Crew.Apart.awake_turn (h : s.Apart) (ht : s.Turn ca jsmn s' a) (t : Nat)
    (hcan : (s'.threads t).canrun = true) :
    (s'.threads t).running = true ∨ ∃ i p, s'.pc = .wake i p t := by
  have hrest : s'.threads = s.threads → (∀ i p, s.pc ≠ .wake i p t) →
      (s'.threads t).running = true := by
    intro hth hpc
    rw [hth] at hcan ⊢
    rcases h.awake t hcan with hrun | ⟨i, p, hw⟩
    · exact hrun
    · exact absurd hw (hpc i p)
  cases ht with
  | pass hpc _ hr _ | replace hpc _ hr _ _ | skip hpc _ _ hr _ | overwrite hpc _ _ hr _
  | settle hpc _ hr _ _ _ =>
    refine Or.inl (hrest hr.threads fun i p hw => ?_)
    cases hpc.symm.trans hw
  | stopped hpc _ _ ht _ _ _ =>
    refine Or.inl (hrest ht fun i p hw => ?_)
    cases hpc.symm.trans hw
  | @signal chal i u _ hpc _ _ _ ht _ _ _ =>
    rw [ht] at hcan ⊢
    by_cases htu : t = u
    · subst htu
      rw [update_self] at hcan
      cases hcan
    · rw [update_of_ne htu] at hcan ⊢
      rcases h.awake t hcan with hrun | ⟨_, _, hw⟩
      · exact Or.inl hrun
      · cases hpc.symm.trans hw
  | @launch i p u hpc hpc' _ _ _ ht _ _ _ _ =>
    rw [ht] at hcan ⊢
    by_cases htu : t = u
    · subst htu
      exact Or.inr ⟨i, p, hpc'⟩
    · rw [update_of_ne htu] at hcan ⊢
      rcases h.awake t hcan with hrun | ⟨_, _, hw⟩
      · exact Or.inl hrun
      · cases hpc.symm.trans hw
  | @started i p u hpc _ hrun hr _ =>
    rw [hr.threads] at hcan ⊢
    rcases h.awake t hcan with hrun' | ⟨_, _, hw⟩
    · exact Or.inl hrun'
    · cases hpc.symm.trans hw
      exact Or.inl hrun
  | @work u _ hw _ =>
    rw [hw.pc]
    by_cases htu : t = u
    · subst htu
      rw [hw.canrun] at hcan
      refine (h.awake t hcan).imp_left fun hrun => ?_
      rcases hw.running with he | he
      · exact he.trans hrun
      · exact he.trans hcan
    · rw [hw.others t htu] at hcan ⊢
      exact h.awake t hcan

theorem Crew.Apart.step (h : s.Apart) (hs : s.step ca jsmn a = some s') : s'.Apart :=
  ⟨h.inv.step hs, h.paired_turn (Crew.step_turn hs), h.awake_turn (Crew.step_turn hs)⟩

theorem Staffed.congr {h h' : Chl} (hs : Staffed h pools lo hi)
    (hslv : ∀ k, lo' ≤ k → k < hi' → (h'.slvs k).pool = (h.slvs k).pool) (hlo : lo ≤ lo')
    (hhi : hi' ≤ hi) (hpools : ∀ k, lo' ≤ k → k < hi' → 0 ≤ (h.slvs k).pool →
      pools (h.slvs k).pool ≠ none → pools' (h.slvs k).pool ≠ none) :
    Staffed h' pools' lo' hi' where
  thread k hk hk' hpos := by
    have he := hslv k hk hk'
    rw [he] at hpos ⊢
    exact hpools k hk hk' hpos (hs.thread k (by omega) (by omega) hpos)
  apart j k hj hj' hk hk' hpos he := by
    rw [hslv j hj hj', hslv k hk hk'] at he
    rw [hslv j hj hj'] at hpos
    exact hs.apart j k (by omega) (by omega) (by omega) (by omega) hpos he

/-- Another solver is left when one is dropped. -/
theorem Staffed.drop (hs : Staffed g.mchl pools i g.mchl.nslv)
    (hpools : ∀ k, i < k → k < g.mchl.nslv → 0 ≤ (g.mchl.slvs k).pool →
      pools (g.mchl.slvs k).pool ≠ none → pools' (g.mchl.slvs k).pool ≠ none) :
    Staffed (dropSlv i g).mchl pools' (i + 1) (dropSlv i g).mchl.nslv := by
  obtain ⟨-, -, -, hn, hslvs⟩ := dropSlv_frame i g
  rw [hn]
  refine hs.congr (fun k hk _ => ?_) (Nat.le_succ i) le_rfl fun k hk hk' => hpools k hk hk'
  rw [hslvs k (by omega)]

theorem Crew.Manned.step (h : s.Manned) (hs : s.step ca jsmn a = some s') : s'.Manned := by
  unfold Crew.Manned at h ⊢
  cases Crew.step_turn hs with
  | pass hpc hpc' hr hm | replace hpc hpc' hr hm _ =>
    rw [hpc] at h
    rw [hpc', hr.pools, hm.nslv]
    exact h.congr (fun k _ _ => by rw [hm.slvs]) le_rfl le_rfl fun _ _ _ _ => id
  | signal hpc hpc' _ _ _ hpools hm _ =>
    rw [hpc] at h
    rw [hpc', hpools, hm]
    exact h
  | skip hpc hpc' _ hr hm =>
    rw [hpc] at h
    rw [hpc', hr.pools, hm]
    exact h.drop fun _ _ _ _ => id
  | overwrite hpc hpc' _ hr _ =>
    rw [hpc']
    exact ⟨fun _ _ hk => absurd hk (Nat.not_lt_zero _),
      fun _ _ _ hj => absurd hj (Nat.not_lt_zero _)⟩
  | @stopped chal i u hpc hpc' _ _ hpools hm _ =>
    rw [hpc] at h
    rw [hpc', hpools, hm]
    refine h.drop fun k hk hk' hpos hne => ?_
    have hother : (s.m.mchl.slvs k).pool ≠ (s.m.mchl.slvs i).pool := by
      intro he
      have := h.apart k i (by omega) hk' le_rfl (by omega) hpos he
      omega
    rwa [update_of_ne hother]
  | settle hpc hpc' hr _ hn hslvs =>
    rw [hpc] at h
    rw [hpc', hr.pools, hn]
    exact h.congr (fun k _ hk => hslvs k hk) le_rfl le_rfl fun _ _ _ _ => id
  | @launch i p u hpc hpc' hpos hfree _ _ hpools _ hslvs _ =>
    rw [hpc] at h
    rw [hpc', hpools]
    have hother : ∀ k < i, (s.m.mchl.slvs k).pool ≠ p := by
      intro k hk he
      refine h.thread k (Nat.zero_le k) hk ?_ ?_
      · rwa [he]
      · rw [he, hfree]
    refine ⟨h.congr (fun k _ _ => hslvs k) le_rfl le_rfl fun k _ hk _ hne => ?_, ?_, fun k hk => ?_⟩
    · rwa [update_of_ne (hother k hk)]
    · rw [update_self]
      exact Option.some_ne_none u
    · rw [hslvs]
      exact hother k hk
  | @started i p u hpc hpc' _ hr hm =>
    rw [hpc] at h
    obtain ⟨h, hp, hother⟩ := h
    rw [hpc', hr.pools, hm]
    have hself : ((s.m.mchl.setPool i p).slvs i).pool = p := by
      simp [Chl.setPool, Chl.setSlv]
    have hrest : ∀ k, k < i → ((s.m.mchl.setPool i p).slvs k).pool = (s.m.mchl.slvs k).pool :=
      fun k hk => by rw [setPool_ne (by omega)]
    have hcase : ∀ k, k < i + 1 → k = i ∨ k < i := fun k hk => by omega
    refine ⟨fun k _ hk hpos => ?_, fun j k _ hj _ hk hpos he => ?_⟩
    · rcases hcase k hk with rfl | hk
      · rwa [hself]
      · rw [hrest k hk] at hpos ⊢
        exact h.thread k (Nat.zero_le k) hk hpos
    · rcases hcase j hj with rfl | hj <;> rcases hcase k hk with rfl | hk
      · rfl
      · rw [hself, hrest k hk] at he
        exact absurd he.symm (hother k hk)
      · rw [hself, hrest j hj] at he
        exact absurd he (hother j hj)
      · rw [hrest j hj] at hpos he
        rw [hrest k hk] at he
        exact h.apart j k (Nat.zero_le j) hj (Nat.zero_le k) hk hpos he
  | @work t _ hw _ =>
    rw [hw.pc, hw.m, hw.pools]
    exact h

theorem Crew.Apart.unique (h : s.Apart) (ht : (s.threads t).Runs k) (hu : (s.threads u).Runs k) :
    t = u := by
  have hp := h.paired
  unfold Crew.Paired at hp
  have hone : ∀ {lo hi}, Assigned s.m.mchl s.pools lo hi t k →
      Assigned s.m.mchl s.pools lo hi u k → t = u := fun ha hb =>
    Option.some.inj (ha.thread.symm.trans hb.thread)
  cases hpc : s.pc with
  | wait | drop | stop | start =>
    rw [hpc] at hp
    exact hone (hp t k ht) (hp u k hu)
  | wake i p v =>
    rw [hpc] at hp
    rcases hp t k ht with ⟨rfl, rfl⟩ | ha
    · rcases hp u k hu with ⟨rfl, -⟩ | hb
      · rfl
      · exact absurd hb.bound (lt_irrefl k)
    · rcases hp u k hu with ⟨rfl, rfl⟩ | hb
      · exact absurd ha.bound (lt_irrefl k)
      · exact hone ha hb

theorem Crew.Inv.runs (h : s.Inv) (hin : s.In t i) : (s.threads t).Runs i := by
  refine ⟨hin.1, Or.inr ?_⟩
  by_contra hrun
  exact hin.2 (h.asleep t (Bool.eq_false_iff.mpr hrun))

theorem Crew.init_apart (w : ω) (uq sk : Int) (b : Buf) (busy : Nat → Bool) :
    (Crew.init w (begun uq sk b) busy).Apart := by
  refine ⟨Crew.init_inv w uq sk b busy, fun t k hrun => ?_, fun t hcan => Or.inl hcan⟩
  cases hrun.1

theorem Crew.init_manned (w : ω) (uq sk : Int) (b : Buf) (busy : Nat → Bool) :
    (Crew.init w (begun uq sk b) busy).Manned :=
  ⟨fun _ _ hk => absurd hk (Nat.not_lt_zero _), fun _ _ _ hj => absurd hj (Nat.not_lt_zero _)⟩

/-- The challenge is only written when no thread is in a solver. -/
theorem Crew.Apart.written (h : s.Apart) (hs : s.step ca jsmn a = some s')
    (hchal : s'.m.mchl.chal ≠ s.m.mchl.chal) (t i : Nat) : ¬ s.In t i := by
  intro hin
  have hruns := h.inv.runs hin
  have hp := h.paired
  unfold Crew.Paired at hp
  cases Crew.step_turn hs with
  | pass _ _ _ hm | replace _ _ _ hm _ => exact hchal hm.chal
  | signal _ _ _ _ _ _ hm _ => exact hchal (by rw [hm])
  | skip _ _ _ _ hm | stopped _ _ _ _ _ hm _ =>
    rw [hm] at hchal
    exact hchal (dropSlv_frame _ _).2.1
  | overwrite hpc _ hi _ _ =>
    rw [hpc] at hp
    have ha := hp t i hruns
    have hlo := ha.least
    have hhi := ha.bound
    omega
  | settle _ _ _ he _ _ | launch _ _ _ _ _ _ _ he _ _ => exact hchal he
  | started _ _ _ _ hm => exact hchal (by rw [hm]; rfl)
  | work hw _ => exact hchal (by rw [hw.m])

/-- No solver is run by two threads, and none is run while the challenge is overwritten. -/
def Crew.Separate (ca : Authority ω) (jsmn : Jsmn) (s : Crew ω) : Prop :=
  (∀ t u i, s.In t i → s.In u i → t = u) ∧
    ∀ a s', s.step ca jsmn a = some s' → s'.m.mchl.chal ≠ s.m.mchl.chal → ∀ t i, ¬ s.In t i

/-- In every run of the miner and the threads, a solver's workspace and generator are used by one
thread at a time, and the challenge changes under none. -/
theorem solvers_apart (ca : Authority ω) (jsmn : Jsmn) (w : ω) (uq sk : Int) (b : Buf)
    (busy : Nat → Bool) (as : List Act) :
    Always (Crew.step ca jsmn) (Crew.Separate ca jsmn) (Crew.init w (begun uq sk b) busy) as := by
  apply always_inv Crew.Apart _ (fun _ _ _ h hs => h.step hs) _ (Crew.init_apart w uq sk b busy)
  intro s h
  refine ⟨fun t u i ht hu => h.unique (h.inv.runs ht) (h.inv.runs hu), fun a s' hs hchal => ?_⟩
  exact h.written hs hchal

end

end Oin17.Mine
