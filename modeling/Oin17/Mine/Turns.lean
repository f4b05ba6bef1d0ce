import Oin17.Mine.Found

namespace Oin17.Mine
open Chals Function

/-- The threads and their pools are left alone, and so is what was found. -/
structure Crew.Rests {ω : Type} (s s' : Crew ω) : Prop where
  threads : s'.threads = s.threads
  pools : s'.pools = s.pools
  finds : s'.finds = s.finds

/-- The miner has the same challenge, solvers and pools. -/
structure Chl.Same (h h' : Chl) : Prop where
  chal : h'.chal = h.chal
  slvs : h'.slvs = h.slvs
  nslv : h'.nslv = h.nslv

/-- A step of a thread, by what it leaves of it. -/
structure Crew.Worked {ω : Type} (s : Crew ω) (t : Nat) (s' : Crew ω) : Prop where
  pc : s'.pc = s.pc
  m : s'.m = s.m
  pools : s'.pools = s.pools
  others : ∀ u, u ≠ t → s'.threads u = s.threads u
  arg : (s'.threads t).arg = (s.threads t).arg
  canrun : (s'.threads t).canrun = (s.threads t).canrun
  running : (s'.threads t).running = (s.threads t).running ∨
    (s'.threads t).running = (s.threads t).canrun

/-- The same, by the part of the program that the thread runs. -/
inductive Crew.Done {ω : Type} (s : Crew ω) (t : Nat) (s' : Crew ω) : Work → Prop where
  | check (h : (s.threads t).place = .idle)
    (h' : (s'.threads t).place = .idle ∨ (s'.threads t).place = .called)
    (hf : s'.finds = s.finds) : Done s t s' .check
  | call (h : (s.threads t).place = .called)
    (h' : (s'.threads t).place = .solving [s.m.mchl.chal]) (hf : s'.finds = s.finds) :
    Done s t s' .call
  | look (h : (s.threads t).place = .solving seen)
    (h' : (s'.threads t).place = .solving (seen ++ [s.m.mchl.chal])) (hf : s'.finds = s.finds) :
    Done s t s' .look
  | find (h : (s.threads t).place = .solving seen) (h' : (s'.threads t).place = .solved n seen)
    (hf : s'.finds = s.finds ++ [(n, seen)]) : Done s t s' (.find n)
  | giveUp (h : (s.threads t).place = .solving seen) (h' : (s'.threads t).place = .idle)
    (hf : s'.finds = s.finds) : Done s t s' .giveUp
  | notify (h : (s.threads t).place = .solved n seen) (h' : (s'.threads t).place = .idle)
    (hf : s'.finds = s.finds) : Done s t s' .notify

/-- What a step does to the threads, the pools and what the miner knows of them. -/
inductive Crew.Turn {ω : Type} (ca : Authority ω) (jsmn : Jsmn) (s s' : Crew ω) : Act → Prop where
  | pass (hpc : s.pc = .wait) (hpc' : s'.pc = .wait) (hr : s.Rests s')
    (hm : s.m.mchl.Same s'.m.mchl) : Turn ca jsmn s s' (.main ev c)
  | replace (hpc : s.pc = .wait) (hpc' : s'.pc = .drop chal 0) (hr : s.Rests s')
    (hm : s.m.mchl.Same s'.m.mchl) (hh : handle ca jsmn s.w s.m c ev = some (.replace g chal, v)) :
    Turn ca jsmn s s' (.main ev c)
  | signal (hpc : s.pc = .drop chal i) (hpc' : s'.pc = .stop chal i u)
    (hpool : 0 ≤ (s.m.mchl.slvs i).pool) (hu : s.pools (s.m.mchl.slvs i).pool = some u)
    (ht : s'.threads = update s.threads u { s.threads u with canrun := false })
    (hp : s'.pools = s.pools) (hm : s'.m = s.m) (hf : s'.finds = s.finds) :
    Turn ca jsmn s s' (.drop added)
  | skip (hpc : s.pc = .drop chal i) (hpc' : s'.pc = .drop chal (i + 1))
    (hpool : 0 ≤ (s.m.mchl.slvs i).pool → s.pools (s.m.mchl.slvs i).pool = none)
    (hr : s.Rests s') (hm : s'.m.mchl = (dropSlv i s.m.toMining).mchl) :
    Turn ca jsmn s s' (.drop added)
  | overwrite (hpc : s.pc = .drop chal i) (hpc' : s'.pc = .start 0) (hi : s.m.mchl.nslv ≤ i)
    (hr : s.Rests s') (hm : s'.m.mchl = { s.m.mchl with chal := chal }) :
    Turn ca jsmn s s' (.drop added)
  | stopped (hpc : s.pc = .stop chal i u) (hpc' : s'.pc = .drop chal (i + 1))
    (hrun : (s.threads u).running = false) (ht : s'.threads = s.threads)
    (hp : s'.pools = update s.pools (s.m.mchl.slvs i).pool none)
    (hm : s'.m.mchl = (dropSlv i s.m.toMining).mchl) (hf : s'.finds = s.finds) :
    Turn ca jsmn s s' .stopped
  | settle (hpc : s.pc = .start i) (hpc' : s'.pc = .wait) (hr : s.Rests s')
    (hchal : s'.m.mchl.chal = s.m.mchl.chal) (hn : s'.m.mchl.nslv = i)
    (hslvs : ∀ k, k < i → (s'.m.mchl.slvs k).pool = (s.m.mchl.slvs k).pool) :
    Turn ca jsmn s s' (.start p u)
  | launch (hpc : s.pc = .start i) (hpc' : s'.pc = .wake i p u) (hpos : 0 ≤ p)
    (hfree : s.pools p = none) (hrun : (s.threads u).running = false)
    (ht : s'.threads = update s.threads u { s.threads u with canrun := true, arg := some i })
    (hp : s'.pools = update s.pools p (some u)) (hchal : s'.m.mchl.chal = s.m.mchl.chal)
    (hslvs : ∀ k, (s'.m.mchl.slvs k).pool = (s.m.mchl.slvs k).pool) (hf : s'.finds = s.finds) :
    Turn ca jsmn s s' (.start p u)
  | started (hpc : s.pc = .wake i p u) (hpc' : s'.pc = .start (i + 1))
    (hrun : (s.threads u).running = true) (hr : s.Rests s')
    (hm : s'.m.mchl = s.m.mchl.setPool i p) : Turn ca jsmn s s' .started
  | work (hw : s.Worked t s') (hd : s.Done t s' a) : Turn ca jsmn s s' (.work t a)

section
variable {ω : Type} {ca : Authority ω} {jsmn : Jsmn} {s s' : Crew ω}

theorem Chl.Same.refl (h : Chl) : h.Same h := ⟨rfl, rfl, rfl⟩

theorem setThread_worked (f : Thread → Thread) (harg : (f (s.threads t)).arg = (s.threads t).arg)
    (hcan : (f (s.threads t)).canrun = (s.threads t).canrun)
    (hrun : (f (s.threads t)).running = (s.threads t).running ∨
      (f (s.threads t)).running = (s.threads t).canrun)
    (finds : List (UInt64 × List Chal)) (events : List (UInt64 × UInt64)) :
    s.Worked t { s.setThread t f with finds := finds, events := events } := by
  refine ⟨rfl, rfl, rfl, fun u hu => setThread_ne s f hu, ?_, ?_, ?_⟩
  all_goals
    dsimp only
    rw [setThread_self]
    assumption

theorem setPlace_worked (s : Crew ω) (t : Nat) (place : Place)
    (finds : List (UInt64 × List Chal)) (events : List (UInt64 × UInt64)) :
    s.Worked t { s.setThread t fun th => { th with place := place } with
      finds := finds, events := events } :=
  setThread_worked (fun th => { th with place := place }) rfl rfl (Or.inl rfl) finds events

theorem Crew.work_worked (hs : s.work t a = some s') : s.Worked t s' := by
  unfold Crew.work at hs
  split at hs
  · obtain rfl := Option.some.inj hs
    obtain ⟨hcan, harg, hcase⟩ := (s.threads t).check_cases
    refine setThread_worked Thread.check harg hcan ?_ s.finds s.events
    unfold Thread.check
    cases h : (s.threads t).canrun <;> simp
  · split at hs
    · cases hs
    · split at hs
      · obtain rfl := Option.some.inj hs
        exact setPlace_worked s t _ s.finds s.events
      · cases hs
  · obtain rfl := Option.some.inj hs
    exact setPlace_worked s t _ s.finds s.events
  · obtain rfl := Option.some.inj hs
    exact setPlace_worked s t _ _ s.events
  · obtain rfl := Option.some.inj hs
    exact setPlace_worked s t _ s.finds s.events
  · obtain rfl := Option.some.inj hs
    exact setPlace_worked s t _ s.finds _
  · cases hs

theorem Crew.work_done (hs : s.work t a = some s') : s.Done t s' a := by
  unfold Crew.work at hs
  split at hs
  · next hplace =>
    obtain rfl := Option.some.inj hs
    refine .check hplace ?_ rfl
    rw [setThread_self]
    rcases (s.threads t).check_cases.2.2 with ⟨-, -, he⟩ | ⟨-, he⟩
    · exact Or.inr he
    · exact Or.inl (he.trans hplace)
  · next hplace =>
    split at hs
    · cases hs
    · split at hs
      · obtain rfl := Option.some.inj hs
        exact .call hplace (by rw [setThread_self]) rfl
      · cases hs
  · next hplace =>
    obtain rfl := Option.some.inj hs
    exact .look hplace (by rw [setThread_self]) rfl
  · next hplace =>
    obtain rfl := Option.some.inj hs
    refine .find hplace ?_ rfl
    dsimp only
    rw [setThread_self]
  · next hplace =>
    obtain rfl := Option.some.inj hs
    exact .giveUp hplace (by rw [setThread_self]) rfl
  · next hplace =>
    obtain rfl := Option.some.inj hs
    refine .notify hplace ?_ rfl
    dsimp only
    rw [setThread_self]
  · cases hs

theorem Pass.same {m m' : Miner} (h : Pass ca w m m' ev) : m.mchl.Same m'.mchl := by
  cases h with
  | quiet hm _ _ =>
    rw [hm]
    exact .refl _
  | error hm _ | sent _ _ _ hm _ | delayed _ _ hm _ =>
    rw [hm]
    exact ⟨rfl, rfl, rfl⟩

theorem Crew.main_turn (hpc : s.pc = .wait) (hs : s.main ca jsmn ev c = some s') :
    s.Turn ca jsmn s' (.main ev c) := by
  unfold Crew.main at hs
  split at hs
  swap
  · cases hs
  obtain ⟨⟨n, w⟩, hn, hs⟩ := Option.bind_eq_some_iff.mp hs
  have hkeeps : (∀ m₁ chal, n ≠ .replace m₁ chal) →
      (follow ca w c n).map (fun r => { s with w := r.2, m := r.1 }) = some s' →
        s.Turn ca jsmn s' (.main ev c) := by
    intro hne hs
    obtain ⟨⟨m', w'⟩, hf, rfl⟩ := Option.map_eq_some_iff.mp hs
    exact .pass hpc hpc ⟨rfl, rfl, rfl⟩ (handle_pass hn hf hne).same
  cases n with
  | wait m => exact hkeeps (by simp) hs
  | restart m => exact hkeeps (by simp) hs
  | quit => exact hkeeps (by simp) hs
  | replace m chal =>
    obtain rfl := Option.some.inj hs
    have hm : m.mchl = s.m.mchl := congrArg Mining.mchl (handle_replace hn).1
    refine .replace hpc rfl ⟨rfl, rfl, rfl⟩ ?_ hn
    dsimp only
    rw [hm]
    exact .refl _

theorem Crew.drop_turn (hpc : s.pc = .drop chal i) (hs : s.drop chal i added = some s') :
    s.Turn ca jsmn s' (.drop added) := by
  unfold Crew.drop at hs
  split at hs
  · split at hs
    · next u hu =>
      obtain rfl := Option.some.inj hs
      split at hu
      · cases hu
      · next hpool => exact .signal hpc rfl (not_lt.mp hpool) hu rfl rfl rfl rfl
    · next hu =>
      obtain rfl := Option.some.inj hs
      refine .skip hpc rfl (fun hpos => ?_) ⟨rfl, rfl, rfl⟩ rfl
      rwa [if_neg (not_lt.mpr hpos)] at hu
  · next hi =>
    split at hs
    · obtain rfl := Option.some.inj hs
      exact .overwrite hpc rfl (not_lt.mp hi) ⟨rfl, rfl, rfl⟩ rfl
    · cases hs

theorem Crew.start_turn (hpc : s.pc = .start i) (hs : s.start i p u = some s') :
    s.Turn ca jsmn s' (.start p u) := by
  unfold Crew.start at hs
  split at hs
  swap
  · obtain rfl := Option.some.inj hs
    exact .settle hpc rfl ⟨rfl, rfl, rfl⟩ rfl rfl fun _ _ => rfl
  obtain ⟨g, hg, hs⟩ := Option.bind_eq_some_iff.mp hs
  obtain ⟨hm, -, -⟩ := solverStart_frame hg
  have hchal : g.mchl.chal = s.m.mchl.chal := by
    rw [hm]
    rfl
  have hpool : ∀ k, (g.mchl.slvs k).pool = (s.m.mchl.slvs k).pool := by
    intro k
    rw [hm]
    exact prepare_pool s.m.mchl s.m.uq i k
  split at hs
  · split at hs
    · cases hs
    obtain rfl := Option.some.inj hs
    refine .settle hpc rfl ⟨rfl, rfl, rfl⟩ hchal rfl fun k hk => ?_
    have hslv : (g.mchl.setPool i p).slvs k = g.mchl.slvs k := setPool_ne (by omega)
    exact (congrArg Slv.pool hslv).trans (hpool k)
  next hpos =>
  split at hs
  · cases hs
  next hfree =>
  obtain ⟨hpnone, hurun⟩ := not_or.mp hfree
  obtain rfl := Option.some.inj hs
  exact .launch hpc rfl (not_lt.mp hpos) (Option.not_isSome_iff_eq_none.mp hpnone)
    (Bool.eq_false_iff.mpr hurun) rfl rfl hchal hpool rfl

theorem Crew.step_turn (hs : s.step ca jsmn a = some s') : s.Turn ca jsmn s' a := by
  unfold Crew.step at hs
  split at hs
  · next hpc => exact Crew.main_turn hpc hs
  · next hpc => exact Crew.drop_turn hpc hs
  · next chal i u hpc =>
    unfold Crew.stopped at hs
    split at hs
    · cases hs
    next hrun =>
    obtain rfl := Option.some.inj hs
    exact .stopped hpc rfl (Bool.eq_false_iff.mpr hrun) rfl rfl rfl rfl
  · next hpc => exact Crew.start_turn hpc hs
  · next i p u hpc =>
    unfold Crew.started at hs
    split at hs
    · next hrun =>
      obtain rfl := Option.some.inj hs
      exact .started hpc rfl hrun ⟨rfl, rfl, rfl⟩ rfl
    · cases hs
  · exact .work (Crew.work_worked hs) (Crew.work_done hs)
  · cases hs

end

end Oin17.Mine
