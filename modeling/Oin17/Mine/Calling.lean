import Oin17.Mine.Mirror

namespace Oin17.Mine
open Chals Dialogue Function Run

section
variable {ω : Type} {ca : Authority ω} {jsmn : Jsmn} {npools : UInt64} {busy : Nat → Bool}
variable {s s' : Plant ω} {a b : Crew ω}

/-- Between two calls of the pool's. -/
theorem Mirrors.still (h : Mirrors npools busy s a) (hst : ∀ chal i, s.stage ≠ .stop chal i)
    (hst' : ∀ i, s.stage ≠ .launch i) : a.pc = s.stage.pc ∧ s.tp.ctl = .idle ∧ a.m = s.m ∧
      Level npools busy s.tp.vars s.tp.flags a.pools := by
  cases h.phase with
  | still hpc hc hm hl => exact ⟨hpc, hc, hm, hl⟩
  | asked hst'' => exact absurd hst'' (hst _ _)
  | stopping hst'' => exact absurd hst'' (hst _ _)
  | stopped hst'' => exact absurd hst'' (hst _ _)
  | seeking hst'' => exact absurd hst'' (hst' _)
  | starting hst'' => exact absurd hst'' (hst' _)
  | started hst'' => exact absurd hst'' (hst' _)

theorem triggered_iff (h : Mirrors npools busy s a) (ev : Uevent) :
    s.triggered ev = true ↔ a.Triggered ev := by
  cases ev with
  | solvr ident data => simp [Plant.triggered, Crew.Triggered, h.events]
  | wsock ident fflags | other => simp [Plant.triggered, Crew.Triggered]

/-- A pass, by whether the challenge is replaced. -/
theorem Plant.main_cases (hs : s.main ca jsmn ev c = some s') : s.triggered ev = true ∧
    ((∃ m chal v, handle ca jsmn s.w s.m c ev = some (.replace m chal, v) ∧
        s' = { s with w := v, m := m, stage := .drop chal 0 }) ∨
      ∃ n v m w, handle ca jsmn s.w s.m c ev = some (n, v) ∧ (∀ g chal, n ≠ .replace g chal) ∧
        follow ca v c n = some (m, w) ∧ s' = { s with w := w, m := m }) := by
  unfold Plant.main at hs
  split at hs
  swap
  · cases hs
  next htrig =>
  obtain ⟨⟨n, v⟩, hn, hs⟩ := Option.bind_eq_some_iff.mp hs
  refine ⟨htrig, ?_⟩
  cases n with
  | replace m chal => exact Or.inl ⟨m, chal, v, hn, (Option.some.inj hs).symm⟩
  | wait m | restart m | quit =>
    obtain ⟨⟨m, w⟩, hf, rfl⟩ := Option.map_eq_some_iff.mp hs
    exact Or.inr ⟨_, v, m, w, hn, nofun, hf, rfl⟩

theorem Crew.main_replace (ht : a.Triggered ev)
    (hn : handle ca jsmn a.w a.m c ev = some (.replace g chal, v)) :
    a.main ca jsmn ev c = some { a with w := v, m := g, pc := .drop chal 0 } := by
  rw [Crew.main, if_pos ht, hn]
  rfl

theorem Crew.main_follow (ht : a.Triggered ev) (hn : handle ca jsmn a.w a.m c ev = some (n, v))
    (hne : ∀ g chal, n ≠ .replace g chal) (hf : follow ca v c n = some (g, x)) :
    a.main ca jsmn ev c = some { a with w := x, m := g } := by
  rw [Crew.main, if_pos ht, hn]
  cases n with
  | replace g' chal => exact absurd rfl (hne g' chal)
  | wait g' | restart g' | quit => simp only [Option.bind_some, hf, Option.map_some]

theorem main_mirrors (h : Mirrors npools busy s a) (hst : s.stage = .wait)
    (hs : s.main ca jsmn ev c = some s') :
    ∃ b, a.step ca jsmn (.main ev c) = some b ∧ Mirrors npools busy s' b := by
  obtain ⟨hpc, hc, hm, hl⟩ := h.still (by simp [hst]) (by simp [hst])
  rw [hst, Stage.pc] at hpc
  obtain ⟨htrig, hs⟩ := Plant.main_cases hs
  have htrig := (triggered_iff h ev).mp htrig
  have hstep : a.step ca jsmn (.main ev c) = a.main ca jsmn ev c := by
    simp only [Crew.step, hpc]
  rw [hstep]
  rcases hs with ⟨m, chal, v, hn, rfl⟩ | ⟨n, v, m, w, hn, hne, hf, rfl⟩
  · rw [← h.world, ← hm] at hn
    have hrun := Crew.main_replace htrig hn
    refine ⟨_, hrun, rfl, h.events, h.finds, h.safe, .still rfl hc rfl hl, h.mates,
      h.apart.step (hstep.trans hrun), h.manned.step (hstep.trans hrun), ?_⟩
    have hjobs : m.jobs = s.m.jobs := by rw [(handle_replace hn).1, hm]
    dsimp only
    rw [hjobs]
    exact h.jobs
  · have hjobs : m.jobs = s.m.jobs := handle_jobs hn hf hne
    rw [← h.world, ← hm] at hn
    have hrun := Crew.main_follow htrig hn hne hf
    refine ⟨_, hrun, rfl, h.events, h.finds, h.safe, .still ?_ hc rfl hl, h.mates,
      h.apart.step (hstep.trans hrun), h.manned.step (hstep.trans hrun), ?_⟩
    · dsimp only
      rw [hst, hpc, Stage.pc]
    · dsimp only
      rw [hjobs]
      exact h.jobs

theorem invoke_some {tp u : Tpool.Crew} {v : Tpool.Vars} (hc : tp.ctl = .idle)
    (hv : Tpool.Shows (c.code npools tp.vars) v)
    (hs : Tpool.crewStep npools tp (.invoke c) = some u) :
    u = { tp with vars := v, ctl := .busy c (c.code npools tp.vars) false } := by
  rw [Tpool.crewStep, hc] at hs
  exact (Option.some.inj ((Tpool.resume_shown hv tp).symm.trans hs)).symm

theorem drop_mirrors (h : Mirrors npools busy s a) (hst : s.stage = .drop chal i)
    (hs : s.drop npools chal i added = some s') :
    ∃ b, exec (Crew.step ca jsmn) a (s.acts busy (.drop added)) = some b ∧
      Mirrors npools busy s' b := by
  obtain ⟨hpc, hc, hm, hl⟩ := h.still (by simp [hst]) (by simp [hst])
  rw [hst, Stage.pc] at hpc
  have hstep : a.step ca jsmn (.drop added) = a.drop chal i added := by
    simp only [Crew.step, hpc]
  unfold Plant.drop at hs
  simp only [Plant.acts, hst]
  split at hs
  · next hi =>
    split at hs
    · next hneg =>
      obtain rfl := Option.some.inj hs
      rw [if_neg fun hpos => not_lt.mpr hpos.2 hneg]
      have hdrop : a.drop chal i added = some { a with pc := .drop chal (i + 1) } := by
        rw [Crew.drop, hm, if_pos hi, if_pos hneg, dropSlv, if_pos hneg, ← hm]
      have hrun := hstep.trans hdrop
      exact ⟨_, exec_one.trans hrun, h.world, h.events, h.finds, h.safe, .still rfl hc hm hl,
        h.mates, h.apart.step hrun, h.manned.step hrun, h.jobs⟩
    · next hpos =>
      rw [if_pos ⟨hi, not_lt.mp hpos⟩]
      obtain ⟨tp, htp, rfl⟩ := Option.map_eq_some_iff.mp hs
      have hstaff : Staffed s.m.mchl a.pools i s.m.mchl.nslv := by
        have hmanned := h.manned
        unfold Crew.Manned at hmanned
        rw [hpc, hm] at hmanned
        exact hmanned
      obtain ⟨t, ht⟩ := Option.ne_none_iff_exists'.mp (hstaff.thread i le_rfl hi (not_lt.mp hpos))
      obtain ⟨u, hcode, hrun, hbusy, hlevel⟩ := hl.stop ht
      have hsafe := Tpool.crewStep_safe h.safe htp
      have hv : Tpool.Shows (Tpool.Call.code npools (.stop (s.m.mchl.slvs i).pool) s.tp.vars)
          s.tp.vars := by
        rw [hcode]
        rfl
      obtain rfl := invoke_some hc hv htp
      have hctl := congrArg (Tpool.Ctl.busy (.stop (s.m.mchl.slvs i).pool) · false) hcode
      exact ⟨a, rfl, h.world, h.events, h.finds, hsafe,
        .asked rfl hpc hctl hm hi (not_lt.mp hpos) ht hrun hbusy rfl hlevel,
        h.mates, h.apart, h.manned, h.jobs⟩
  · next hi =>
    split at hs
    · next hadded =>
      obtain rfl := Option.some.inj hs
      rw [if_neg fun hlt => hi hlt.1]
      have hdrop : a.drop chal i added = some
          { a with m := { a.m with mchl := { a.m.mchl with chal := chal } }, pc := .start 0 } := by
        rw [Crew.drop, hm, if_neg hi, if_pos hadded]
      have hrun := hstep.trans hdrop
      refine ⟨_, exec_one.trans hrun, h.world, h.events, h.finds, h.safe, .still rfl hc ?_ hl,
        h.mates, h.apart.step hrun, h.manned.step hrun, h.jobs⟩
      dsimp only
      rw [hm]
    · cases hs

theorem start_mirrors (h : Mirrors npools busy s a) (hst : s.stage = .start i)
    (hs : s.start npools i = some s') :
    ∃ b, exec (Crew.step ca jsmn) a (s.acts busy .start) = some b ∧ Mirrors npools busy s' b := by
  obtain ⟨hpc, hc, hm, hl⟩ := h.still (by simp [hst]) (by simp [hst])
  rw [hst, Stage.pc] at hpc
  unfold Plant.start at hs
  simp only [Plant.acts, hst]
  split at hs
  · next hi =>
    rw [if_pos hi]
    obtain ⟨tp, htp, rfl⟩ := Option.map_eq_some_iff.mp hs
    obtain ⟨r, u, f, hrun, hseeks, hbegun⟩ := hl.start solverSolve i
    have hsafe := Tpool.crewStep_safe h.safe htp
    obtain ⟨v, hv⟩ := hseeks.shows
    obtain rfl := invoke_some hc hv htp
    have hkeep : Tpool.Keeps s.tp.flags s.tp.vars v := by
      obtain ⟨active, l, hsingle, -⟩ := hl
      exact Tpool.sat_shows (Tpool.code_sat hsingle.sound _) hv
    have hsteady : ∀ t, s.tp.flags.canrun t = s.tp.flags.running t := by
      obtain ⟨active, l, hsingle, -⟩ := hl
      exact hsingle.sound.flags
    refine ⟨a, rfl, h.world, h.events, h.finds, hsafe, ?_, h.mates.keep hsteady hkeep, h.apart,
      h.manned, h.jobs⟩
    refine .seeking rfl hpc rfl ?_ hi hseeks hrun hbegun
    rw [hm]
  · next hi =>
    obtain rfl := Option.some.inj hs
    rw [if_neg hi]
    have hstep : a.step ca jsmn (.start 0 0) = some
        { a with m := { a.m with mchl := { a.m.mchl with nslv := i } }, pc := .wait } := by
      simp only [Crew.step, hpc, Crew.start, if_neg hi]
    refine ⟨_, exec_one.trans hstep, h.world, h.events, h.finds, h.safe, .still rfl hc ?_ hl,
      h.mates, h.apart.step hstep, h.manned.step hstep, h.jobs⟩
    rw [hm]

/-- The thread that the controlling thread waits for has what was asked of it. -/
theorem shake_done {tp u : Tpool.Crew} {v : Tpool.Vars}
    {k : Bool → Prog Tpool.Req Bool Tpool.Vars Int} (hsafe : tp.Safe npools) (hc : tp.ctl = .busy c (.ask (.set t x) tp.vars k) true)
    (hk : k x = .done r v) (hs : tp.main = some u) : u = tp ∨ tp.flags.running t = x ∧
      u = { tp with vars := v, ctl := .busy c (.done r v) false } ∧
      tp.flags.set t x = tp.flags ∧ (∀ t, tp.flags.canrun t = tp.flags.running t) ∧
      Tpool.Keeps tp.flags tp.vars v := by
  have hready := hsafe.ready
  rw [hc] at hready
  rw [Tpool.main_waiting hc] at hs
  split at hs
  · next hrun =>
    have hv : Tpool.Shows (k x) v := by
      rw [hk]
      rfl
    rw [Tpool.resume_shown hv tp, hk] at hs
    cases hready with
    | waiting hrest hcan _ =>
      refine Or.inr ⟨hrun, (Option.some.inj hs).symm, Tpool.set_eq_self hcan hrun, fun w => ?_,
        Tpool.asked_keeps hsafe hc hv hrun⟩
      by_cases hw : w = t
      · rw [hw, hcan, hrun]
      · exact hrest w hw
  · left
    rw [← Option.some.inj hs, ← hc]

theorem Crew.start_launch {p : Int} (hi : i < maxslv) (hp : 0 ≤ p) (hj : a.m.jobs p = none)
    (hfree : a.pools p = none) (ht : (a.threads t).running = false) : a.start i p t = some
      { a.setThread t fun th => { th with canrun := true, arg := some i } with
        m := { a.m.prepared i with jobs := update a.m.jobs p (some i) }
        pools := update a.pools p (some t)
        pc := .wake i p t } := by
  simp [Crew.start, solverStart, hi, not_lt.mpr hp, hj, hfree, ht, Miner.prepared]

theorem main_look {tp : Tpool.Crew} (hc : tp.ctl = .busy c (.ask (.running t) v k) x) :
    tp.main = tp.resume c (k (tp.flags.running t)) := by
  simp only [Tpool.Crew.main, hc]

theorem pool_mirrors (h : Mirrors npools busy s a)
    (hs : s.step ca jsmn npools .pool = some s') :
    ∃ b, exec (Crew.step ca jsmn) a (s.acts busy .pool) = some b ∧ Mirrors npools busy s' b := by
  rw [Plant.step] at hs
  split at hs
  swap
  · cases hs
  next c q v k w hctl =>
  obtain ⟨tp, htp, rfl⟩ := Option.map_eq_some_iff.mp hs
  have hsafe := Tpool.crewStep_safe h.safe htp
  have hmain : s.tp.main = some tp := htp
  cases h.phase with
  | still _ hc _ _ => cases hctl.symm.trans hc
  | stopped _ _ hc => cases hctl.symm.trans hc
  | started _ _ hc => cases hctl.symm.trans hc
  | @asked chal i c t k u hst hpc hc hm hi hpos hp hrun hbusy hk hl =>
    rw [Tpool.main_first hc, if_neg (by simp [hrun])] at hmain
    obtain rfl := Option.some.inj hmain
    have hstep : a.step ca jsmn (.drop true) = some
        { a.setThread t fun th => { th with canrun := false } with pc := .stop chal i t } := by
      simp only [Crew.step, hpc, Crew.drop, hm, if_pos hi, if_neg (not_lt.mpr hpos), hp]
    rw [Plant.acts, hc]
    refine ⟨_, exec_one.trans hstep, h.world, h.events, h.finds, hsafe,
      .stopping hst rfl rfl hm hpos hk ?_, h.mates.stop hbusy, h.apart.step hstep,
      h.manned.step hstep, h.jobs⟩
    rw [Tpool.setRun_set]
    exact hl
  | stopping hst hpc hc hm hpos hk hl =>
    rw [Plant.acts, hc]
    rcases shake_done h.safe hc hk hmain with rfl | ⟨hrun, rfl, hset, hsteady, hkeep⟩
    · exact ⟨a, rfl, h⟩
    · rw [hset] at hl
      exact ⟨a, rfl, h.world, h.events, h.finds, hsafe, .stopped hst hpc rfl hm hpos hrun hl,
        h.mates.keep hsteady hkeep, h.apart, h.manned, h.jobs⟩
  | @seeking i c p r u f hst hpc hc hm hi hp hrun hb =>
    have hsteady := Tpool.going_steady h.safe hc
    have hready := h.safe.ready
    rw [hc] at hready
    cases hp with
    | full _ => cases hctl.symm.trans hc
    | @look k t v hp =>
      obtain ⟨x, hx⟩ := hp.shows
      have hkeep : Tpool.Keeps s.tp.flags s.tp.vars x := by
        cases hready with
        | going _ hv hsat =>
          obtain rfl : v = s.tp.vars := hv
          exact Tpool.sat_shows hsat.2 hx
      rw [main_look hc, Tpool.resume_shown hx] at hmain
      obtain rfl := Option.some.inj hmain
      rw [Plant.acts, hc]
      exact ⟨a, rfl, h.world, h.events, h.finds, hsafe, .seeking hst hpc rfl hm hi hp hrun hb,
        h.mates.keep hsteady hkeep, h.apart, h.manned, h.jobs⟩
    | @found t p k v x hidle hpool hwork hk hx =>
      obtain rfl : v = s.tp.vars := by
        cases hready with
        | going _ hv _ => exact hv
      have hend : some ((p : Int), x, s.tp.flags.set t true) = some (r, u, f) := by
        rw [← hrun, Prog.atomic]
        exact (congrArg (Prog.atomic Tpool.Flags.answer · (s.tp.flags.set t true)) hk).symm
      obtain ⟨rfl, rfl, rfl⟩ : (p : Int) = r ∧ x = u ∧ s.tp.flags.set t true = f := by
        simpa using hend
      have hpos : (0 : Int) ≤ p := Int.natCast_nonneg p
      have hbusy := h.mates.free hidle
      have hjobs : s.m.jobs p = none := by
        by_contra hne
        have := h.jobs p (Option.isSome_iff_ne_none.mpr hne)
        rw [hb.free hpos] at this
        cases this
      rw [Tpool.main_first hc, if_neg (by simp [hidle])] at hmain
      obtain rfl := Option.some.inj hmain
      rw [Plant.acts, hc]
      dsimp only
      rw [hpool, Option.getD_some]
      have hnone : a.m.jobs p = none := by
        rw [← hjobs, hm]
        rfl
      have hlaunch := Crew.start_launch hi hpos hnone (hb.free hpos)
        ((h.mates.own t hbusy).2.1.trans hidle)
      have hstep : a.step ca jsmn (.start p t) = a.start i p t := by
        simp only [Crew.step, hpc]
      rw [hlaunch] at hstep
      refine ⟨_, exec_one.trans hstep, h.world, h.events, h.finds, hsafe,
        .starting hst rfl rfl ?_ hpos hk ?_, h.mates.start hidle ?_, h.apart.step hstep,
        h.manned.step hstep, ?_⟩
      · dsimp only
        rw [hm]
        rfl
      · rw [Tpool.setRun_set]
        refine hb.started hpos t ?_ ?_ hbusy
        · rw [hx, hpool, Int.toNat_natCast]
        · simp [Tpool.Flags.set]
      · intro q hq
        obtain rfl := Option.some.inj (hpool.symm.trans hq)
        exact hwork
      · intro q hq
        dsimp only
        by_cases hqp : q = p
        · rw [hqp, update_self]
          rfl
        · rw [update_of_ne hqp]
          exact h.jobs q hq
  | starting hst hpc hc hm hr hk hl =>
    rw [Plant.acts, hc]
    rcases shake_done h.safe hc hk hmain with rfl | ⟨hrun, rfl, hset, hsteady, hkeep⟩
    · exact ⟨a, rfl, h⟩
    · rw [hset] at hl
      exact ⟨a, rfl, h.world, h.events, h.finds, hsafe, .started hst hpc rfl hm hr hrun hl,
        h.mates.keep hsteady hkeep, h.apart, h.manned, h.jobs⟩

theorem main_done {tp u : Tpool.Crew} (hc : tp.ctl = .busy c (.done r v) x)
    (hs : Tpool.crewStep npools tp .main = some u) : u = { tp with ctl := .idle } := by
  rw [Tpool.crewStep, Tpool.Crew.main, hc] at hs
  exact (Option.some.inj hs).symm

theorem stopped_mirrors (h : Mirrors npools busy s a) (hst : s.stage = .stop chal i)
    (hctl : s.tp.ctl = .busy c (.done r v) x)
    (hs : Tpool.crewStep npools s.tp .main = some tp) : ∃ b, a.step ca jsmn .stopped = some b ∧
      Mirrors npools busy { s with
        m := { s.m with toMining := dropSlv i s.m.toMining }
        stage := .drop chal (i + 1), tp := tp } b := by
  have hsafe := Tpool.crewStep_safe h.safe hs
  obtain rfl := main_done hctl hs
  cases h.phase with
  | still _ hc => cases hctl.symm.trans hc
  | asked _ _ hc => cases hctl.symm.trans hc
  | stopping _ _ hc => cases hctl.symm.trans hc
  | seeking hst' | starting hst' | started hst' => cases hst.symm.trans hst'
  | @stopped chal' j t _ hst' hpc hc hm hpos hrun hl =>
    obtain ⟨rfl, rfl⟩ := Stage.stop.inj (hst.symm.trans hst')
    have hstep : a.step ca jsmn .stopped = some { a with
        m := { a.m with toMining := dropSlv i a.m.toMining }
        pools := update a.pools (a.m.mchl.slvs i).pool none
        pc := .drop chal (i + 1) } := by
      have hown := (h.mates.own t (h.mates.free hrun)).2.1.trans hrun
      simp [Crew.step, hpc, Crew.stopped, hown]
    refine ⟨_, hstep, h.world, h.events, h.finds, hsafe, .still rfl rfl ?_ ?_, h.mates,
      h.apart.step hstep, h.manned.step hstep, fun q hq => ?_⟩
    · dsimp only
      rw [hm]
    · dsimp only
      rw [hm]
      exact hl
    · dsimp only at hq ⊢
      rw [dropSlv, if_neg (not_lt.mpr hpos)] at hq
      rw [hm]
      by_cases hqp : q = (s.m.mchl.slvs i).pool
      · simp [hqp] at hq
      · simp only [update_of_ne hqp] at hq ⊢
        exact h.jobs q hq

theorem started_mirrors (h : Mirrors npools busy s a) (hst : s.stage = .launch i)
    (hctl : s.tp.ctl = .busy c (.done r v) x) (hr : 0 ≤ r)
    (hs : Tpool.crewStep npools s.tp .main = some tp) : ∃ b, a.step ca jsmn .started = some b ∧
      Mirrors npools busy { s with
        m := { s.m with mchl := s.m.mchl.setPool i r, jobs := update s.m.jobs r (some i) }
        stage := .start (i + 1), tp := tp } b := by
  have hsafe := Tpool.crewStep_safe h.safe hs
  obtain rfl := main_done hctl hs
  cases h.phase with
  | still _ hc => cases hctl.symm.trans hc
  | asked _ _ hc => cases hctl.symm.trans hc
  | stopping _ _ hc => cases hctl.symm.trans hc
  | starting _ _ hc => cases hctl.symm.trans hc
  | stopped hst' => cases hst.symm.trans hst'
  | seeking _ _ hc _ _ hp =>
    cases hctl.symm.trans hc
    cases hp with
    | full hneg => omega
  | @started j r' t _ hst' hpc hc hm _ hrun hl =>
    obtain rfl := Stage.launch.inj (hst.symm.trans hst')
    cases hctl.symm.trans hc
    have hpool : a.pools r = some t := by
      have hheld := h.apart.inv.held
      unfold Crew.Held at hheld
      rw [hpc] at hheld
      exact hheld.2.2
    have hbusy : busy t = false := by
      obtain ⟨_, _, _, ho⟩ := hl
      exact ((ho r t).mp hpool).2.2
    have hstep : a.step ca jsmn .started = some
        { a with m := { a.m with mchl := a.m.mchl.setPool i r }, pc := .start (i + 1) } := by
      have hown := (h.mates.own t hbusy).2.1.trans hrun
      simp [Crew.step, hpc, Crew.started, hown]
    refine ⟨_, hstep, h.world, h.events, h.finds, hsafe, .still rfl rfl ?_ hl, h.mates,
      h.apart.step hstep, h.manned.step hstep, fun q hq => ?_⟩
    · dsimp only
      rw [hm]
    · by_cases hqr : q = r
      · rw [hqr, hpool]
        rfl
      · simp only [update_of_ne hqr] at hq
        exact h.jobs q hq

theorem refused_mirrors (h : Mirrors npools busy s a) (hst : s.stage = .launch i)
    (hctl : s.tp.ctl = .busy c (.done r v) x) (hr : r < 0) (hi : i ≠ 0)
    (hs : Tpool.crewStep npools s.tp .main = some tp) :
    ∃ b, a.step ca jsmn (.start r 0) = some b ∧ Mirrors npools busy { s with
      m := { s.m with mchl := { s.m.mchl.setPool i r with nslv := i } }
      stage := .wait, tp := tp } b := by
  have hsafe := Tpool.crewStep_safe h.safe hs
  obtain rfl := main_done hctl hs
  cases h.phase with
  | still _ hc => cases hctl.symm.trans hc
  | asked _ _ hc => cases hctl.symm.trans hc
  | stopping _ _ hc => cases hctl.symm.trans hc
  | starting _ _ hc => cases hctl.symm.trans hc
  | stopped hst' => cases hst.symm.trans hst'
  | started _ _ hc _ hpos =>
    cases hctl.symm.trans hc
    omega
  | @seeking j _ _ r' u f hst' hpc hc hm hlt hp hrun hb =>
    obtain rfl := Stage.launch.inj (hst.symm.trans hst')
    have hready := h.safe.ready
    rw [hc] at hready
    cases hctl.symm.trans hc
    obtain rfl : v = s.tp.vars := by
      cases hready with
      | going _ hv _ => exact hv
    cases hrun
    have hstep : a.step ca jsmn (.start r 0) = some { a with
        m := { a.m.prepared i with mchl := { (a.m.prepared i).mchl.setPool i r with nslv := i } }
        pc := .wait } := by
      simp [Crew.step, hpc, Crew.start, solverStart, hlt, hr, hi, Miner.prepared]
    refine ⟨_, hstep, h.world, h.events, h.finds, hsafe, .still rfl rfl ?_ (hb.refused hr), h.mates,
      h.apart.step hstep, h.manned.step hstep, h.jobs⟩
    dsimp only
    rw [hm]

theorem returned_mirrors (h : Mirrors npools busy s a) (hs : s.returned npools = some s') :
    ∃ b, exec (Crew.step ca jsmn) a (s.acts busy .returned) = some b ∧
      Mirrors npools busy s' b := by
  unfold Plant.returned at hs
  split at hs
  · next hst hctl =>
    obtain ⟨tp, htp, rfl⟩ := Option.map_eq_some_iff.mp hs
    obtain ⟨b, hb, hmirrors⟩ := stopped_mirrors h hst hctl htp
    rw [Plant.acts, hst]
    exact ⟨b, exec_one.trans hb, hmirrors⟩
  · next hst hctl =>
    simp only [Plant.acts, hst, hctl]
    split at hs
    · next hr =>
      rw [if_pos hr]
      split at hs
      · cases hs
      next hi =>
      obtain ⟨tp, htp, rfl⟩ := Option.map_eq_some_iff.mp hs
      obtain ⟨b, hb, hmirrors⟩ := refused_mirrors h hst hctl hr hi htp
      exact ⟨b, exec_one.trans hb, hmirrors⟩
    · next hr =>
      rw [if_neg hr]
      obtain ⟨tp, htp, rfl⟩ := Option.map_eq_some_iff.mp hs
      obtain ⟨b, hb, hmirrors⟩ := started_mirrors h hst hctl (not_lt.mp hr) htp
      exact ⟨b, exec_one.trans hb, hmirrors⟩
  · cases hs

end

end Oin17.Mine
