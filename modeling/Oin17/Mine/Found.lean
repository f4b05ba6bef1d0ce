import Oin17.Mine.Crew
import Oin17.Mine.Solved

namespace Oin17.Mine
open Chals Loop Memory Run Ws

/-- A solver found the nonce while all it read of the challenge was of that id. -/
def Found (finds : List (UInt64 × List Chal)) (id n : UInt64) : Prop :=
  ∃ seen, (n, seen) ∈ finds ∧ seen ≠ [] ∧ ∀ c ∈ seen, c.id = id

/-- No two submissions without a reset between them. -/
def Spaced (log : List Mark) : Prop := ∀ b, b <:+: log → .reset ∉ b → b.length ≤ 1

/-- A thread that runs a solver, or is told to. -/
def Thread.Active (th : Thread) : Prop := th.arg.isSome ∧ (th.canrun = true ∨ th.running = true)

/-- What a thread read of the challenge is what the challenge is. -/
def Thread.Sees (th : Thread) (chal : Chal) (finds : List (UInt64 × List Chal)) : Prop :=
  match th.place with
  | .solving seen => th.arg.isSome ∧ seen ≠ [] ∧ ∀ c ∈ seen, c = chal
  | .solved n seen => th.arg.isSome ∧ seen ≠ [] ∧ (∀ c ∈ seen, c = chal) ∧ (n, seen) ∈ finds
  | _ => True

/-- The pool of a solver from `lo` up to `hi` has the thread. -/
def Owned (slvs : Nat → Slv) (pools : Int → Option Nat) (lo hi t : Nat) : Prop :=
  ∃ k, lo ≤ k ∧ k < hi ∧ 0 ≤ (slvs k).pool ∧ pools (slvs k).pool = some t

section
variable {ω : Type} {ca : Authority ω} {jsmn : Jsmn} {s s' : Crew ω}

/-- At each point of `mine`, the pools that it knows have the active threads. -/
def Crew.Held (s : Crew ω) : Prop :=
  match s.pc with
  | .wait => ∀ t, (s.threads t).Active → Owned s.m.mchl.slvs s.pools 0 s.m.mchl.nslv t
  | .drop _ i => ∀ t, (s.threads t).Active → Owned s.m.mchl.slvs s.pools i s.m.mchl.nslv t
  | .stop _ i u =>
    (∀ t, (s.threads t).Active → Owned s.m.mchl.slvs s.pools i s.m.mchl.nslv t) ∧
      (s.threads u).canrun = false ∧ s.pools (s.m.mchl.slvs i).pool = some u
  | .start i => ∀ t, (s.threads t).Active → Owned s.m.mchl.slvs s.pools 0 i t
  | .wake i p u => (∀ t, (s.threads t).Active → t = u ∨ Owned s.m.mchl.slvs s.pools 0 i t) ∧
      0 ≤ p ∧ s.pools p = some u

structure Crew.Inv (s : Crew ω) : Prop where
  asleep : ∀ t, (s.threads t).running = false → (s.threads t).place = .idle
  sees : ∀ t, (s.threads t).Sees s.m.mchl.chal s.finds
  events : ∀ id n, (id, n) ∈ s.events → Found s.finds id n
  submitted : ∀ id n ok, .submit id n ok ∈ s.m.log → Found s.finds id n
  spaced : Spaced s.m.log
  clear : s.m.mchl.solved = 0 → sinceReset s.m.log = []
  held : s.Held

theorem Spaced.reset (h : Spaced log) : Spaced (log ++ [.reset]) := by
  intro b hb hr
  rcases List.infix_concat_iff.mp hb with hsuf | hin
  · rcases List.suffix_concat_iff.mp hsuf with rfl | ⟨t, rfl, -⟩
    · exact Nat.zero_le _
    · simp at hr
  · exact h b hin hr

theorem Spaced.submit (h : Spaced log) (hc : sinceReset log = []) (id n : UInt64) (ok : Bool) :
    Spaced (log ++ [.submit id n ok]) := by
  intro b hb hr
  rcases List.infix_concat_iff.mp hb with hsuf | hin
  · rcases List.suffix_concat_iff.mp hsuf with rfl | ⟨t, rfl, ht⟩
    · exact Nat.zero_le _
    · -- what is before it ends with a reset
      rcases List.eq_nil_or_concat t with rfl | ⟨t, x, rfl⟩
      · exact Nat.le_refl _
      · obtain ⟨l, rfl⟩ := ht
        have hx : x = .reset := by
          by_contra hx
          simp [sinceReset, hx] at hc
        simp [hx] at hr
  · exact h b hin hr

theorem Thread.Sees.congr {th th' : Thread} (h : th.Sees chal finds) (hp : th'.place = th.place)
    (ha : th'.arg = th.arg) : th'.Sees chal finds := by
  unfold Thread.Sees at h ⊢
  rw [hp, ha]
  exact h

theorem Thread.Sees.mono {th : Thread} (h : th.Sees chal finds) (hf : ∀ x ∈ finds, x ∈ finds') :
    th.Sees chal finds' := by
  unfold Thread.Sees at h ⊢
  split
  · next heq => rwa [heq] at h
  · next heq =>
    rw [heq] at h
    exact ⟨h.1, h.2.1, h.2.2.1, hf _ h.2.2.2⟩
  · trivial

theorem Found.mono {id : UInt64} (h : Found finds id n) (hf : ∀ x ∈ finds, x ∈ finds') :
    Found finds' id n := by
  obtain ⟨seen, hm, hseen⟩ := h
  exact ⟨seen, hf _ hm, hseen⟩

@[simp] theorem setThread_self (s : Crew ω) (t : Nat) (f : Thread → Thread) :
    (s.setThread t f).threads t = f (s.threads t) := Function.update_self ..

theorem setThread_ne (s : Crew ω) (f : Thread → Thread) (h : u ≠ t) :
    (s.setThread t f).threads u = s.threads u := Function.update_of_ne h ..

/-- What holds of the thread that is set, and of the others as they were. -/
theorem setThread_forall {P : Nat → Thread → Prop} {f : Thread → Thread}
    (ht : P t (f (s.threads t))) (h : ∀ u, u ≠ t → P u (s.threads u)) (u : Nat) :
    P u ((s.setThread t f).threads u) := by
  by_cases hu : u = t
  · subst hu
    rw [setThread_self]
    exact ht
  · rw [setThread_ne _ _ hu]
    exact h u hu

theorem Thread.check_cases (th : Thread) : th.check.canrun = th.canrun ∧ th.check.arg = th.arg ∧
    (th.canrun = true ∧ th.check.running = true ∧ th.check.place = .called ∨
      th.check.running = false ∧ th.check.place = th.place) := by
  unfold Thread.check
  split
  · next hcan => exact ⟨rfl, rfl, Or.inl ⟨hcan, rfl, rfl⟩⟩
  · exact ⟨rfl, rfl, Or.inr ⟨rfl, rfl⟩⟩

/-- A step of a thread does not make another one active. -/
theorem Crew.Held.work (h : s.Held) (hpc : s'.pc = s.pc) (hm : s'.m = s.m) (hp : s'.pools = s.pools)
    (hact : ∀ t, (s'.threads t).Active → (s.threads t).Active)
    (hcan : ∀ t, (s'.threads t).canrun = (s.threads t).canrun) : s'.Held := by
  unfold Crew.Held at h ⊢
  rw [hpc, hm, hp]
  cases hspc : s.pc with
  | wait | drop | start =>
    rw [hspc] at h
    exact fun t ht => h t (hact t ht)
  | stop chal i u =>
    rw [hspc] at h
    exact ⟨fun t ht => h.1 t (hact t ht), (hcan u).trans h.2.1, h.2.2⟩
  | wake i p u =>
    rw [hspc] at h
    exact ⟨fun t ht => h.1 t (hact t ht), h.2⟩

/-- What a step of a thread has to preserve. -/
theorem Crew.Inv.work_inv (h : s.Inv) (th : Thread) {finds : List (UInt64 × List Chal)}
    {events : List (UInt64 × UInt64)} (hcan : th.canrun = (s.threads t).canrun)
    (harg : th.arg = (s.threads t).arg)
    (hrun : th.running = true → (s.threads t).canrun = true ∨ (s.threads t).running = true)
    (hplace : th.running = false → th.place = .idle) (hsees : th.Sees s.m.mchl.chal finds)
    (hf : ∀ x ∈ s.finds, x ∈ finds) (hev : ∀ id n, (id, n) ∈ events → Found finds id n) :
    Crew.Inv { s.setThread t fun _ => th with finds := finds, events := events } := by
  refine ⟨?_, ?_, hev, fun id n ok hlog => (h.submitted id n ok hlog).mono hf, h.spaced, h.clear,
    h.held.work rfl rfl rfl ?_ ?_⟩
  · dsimp only
    apply setThread_forall (P := fun _ th => th.running = false → th.place = .idle) hplace
    exact fun u _ => h.asleep u
  · dsimp only
    apply setThread_forall (P := fun _ th => th.Sees s.m.mchl.chal finds) hsees
    exact fun u _ => (h.sees u).mono hf
  · dsimp only
    apply setThread_forall (P := fun u th => th.Active → (s.threads u).Active)
    · intro hact
      unfold Thread.Active at hact
      rw [harg, hcan] at hact
      exact ⟨hact.1, hact.2.elim Or.inl hrun⟩
    · exact fun _ _ hact => hact
  · dsimp only
    apply setThread_forall (P := fun u th => th.canrun = (s.threads u).canrun) hcan
    exact fun _ _ => rfl

/-- A thread that is not in the loop of `thread_main` runs. -/
theorem Crew.Inv.work_place (h : s.Inv) (hp : (s.threads t).place ≠ .idle) (place : Place)
    {finds : List (UInt64 × List Chal)} {events : List (UInt64 × UInt64)}
    (hsees : { s.threads t with place := place }.Sees s.m.mchl.chal finds)
    (hf : ∀ x ∈ s.finds, x ∈ finds) (hev : ∀ id n, (id, n) ∈ events → Found finds id n) :
    Crew.Inv { s.setThread t fun th => { th with place := place } with
      finds := finds, events := events } :=
  h.work_inv (t := t) { s.threads t with place := place } rfl rfl Or.inr
    (fun hr => absurd (h.asleep t hr) hp) hsees hf hev

theorem Crew.Inv.work (h : s.Inv) (hs : s.work t a = some s') : s'.Inv := by
  have hsees := h.sees t
  unfold Thread.Sees at hsees
  unfold Crew.work at hs
  split at hs
  · next hplace =>
    obtain rfl := Option.some.inj hs
    have hcheck := (s.threads t).check_cases
    refine h.work_inv (t := t) (s.threads t).check hcheck.1 hcheck.2.1 ?_ ?_ ?_
      (fun _ hx => hx) h.events
    all_goals rcases hcheck.2.2 with ⟨hcan, hrun, hpl⟩ | ⟨hrun, hpl⟩
    · exact fun _ => Or.inl hcan
    · rw [hrun]
      exact nofun
    · rw [hrun]
      exact nofun
    · exact fun _ => hpl.trans hplace
    · simp [Thread.Sees, hpl]
    · simp [Thread.Sees, hpl, hplace]
  · next hplace =>
    -- the first look at the challenge
    split at hs
    · cases hs
    next i harg =>
    split at hs
    · obtain rfl := Option.some.inj hs
      refine h.work_place (by simp [hplace]) (.solving [s.m.mchl.chal]) ?_ (fun _ hx => hx) h.events
      exact ⟨by rw [harg]; rfl, by simp, by simp⟩
    · cases hs
  · next seen hplace =>
    obtain rfl := Option.some.inj hs
    rw [hplace] at hsees
    obtain ⟨harg, -, hall⟩ := hsees
    refine h.work_place (by simp [hplace]) (.solving (seen ++ [s.m.mchl.chal]))
      ⟨harg, by simp, fun c hc => ?_⟩ (fun _ hx => hx) h.events
    rcases List.mem_append.mp hc with hc | hc
    · exact hall c hc
    · exact List.mem_singleton.mp hc
  · next n seen hplace =>
    obtain rfl := Option.some.inj hs
    rw [hplace] at hsees
    obtain ⟨harg, hne, hall⟩ := hsees
    have hmono : ∀ x ∈ s.finds, x ∈ s.finds ++ [(n, seen)] := fun _ => List.mem_append_left _
    exact h.work_place (by simp [hplace]) (.solved n seen) ⟨harg, hne, hall, by simp⟩ hmono
      fun id n' hev => (h.events id n' hev).mono hmono
  · next seen hplace =>
    obtain rfl := Option.some.inj hs
    exact h.work_place (by simp [hplace]) .idle trivial (fun _ hx => hx) h.events
  · next n seen hplace =>
    -- the event is for the challenge that the solver worked on
    obtain rfl := Option.some.inj hs
    rw [hplace] at hsees
    obtain ⟨-, hne, hall, hmem⟩ := hsees
    refine h.work_place (by simp [hplace]) .idle trivial (fun _ hx => hx) fun id n' hev => ?_
    rcases List.mem_append.mp hev with hev | hev
    · exact h.events id n' hev
    · obtain ⟨rfl, rfl⟩ := Prod.mk.inj (List.mem_singleton.mp hev)
      exact ⟨seen, hmem, hne, fun c hc => by rw [hall c hc]⟩
  · cases hs

/-- A pass of the loop of `mine` that keeps the challenge. -/
theorem Crew.Inv.pass (h : s.Inv) (hpc : s.pc = .wait) (htrig : s.Triggered ev)
    (hpass : Pass ca s.w s.m m' ev) (w' : ω) : Crew.Inv { s with w := w', m := m' } := by
  have hrest : ∀ h' : Chl, h' = s.m.mchl ∨ (∃ n, h' = { s.m.mchl with solved := n }) →
      h'.chal = s.m.mchl.chal ∧ h'.slvs = s.m.mchl.slvs ∧ h'.nslv = s.m.mchl.nslv := by
    rintro h' (rfl | ⟨n, rfl⟩) <;> exact ⟨rfl, rfl, rfl⟩
  have hkeep : ∀ {m : Miner}, m.mchl = s.m.mchl ∨ (∃ n, m.mchl = { s.m.mchl with solved := n }) →
      (∀ id n ok, .submit id n ok ∈ m.log → Found s.finds id n) → Spaced m.log →
      (m.mchl.solved = 0 → sinceReset m.log = []) → Crew.Inv { s with w := w', m := m } := by
    intro m hm hlog hspaced hclear
    obtain ⟨hchal, hslvs, hnslv⟩ := hrest m.mchl hm
    refine ⟨h.asleep, fun t => ?_, h.events, hlog, hspaced, hclear, ?_⟩
    · dsimp only
      rw [hchal]
      exact h.sees t
    · have hheld := h.held
      unfold Crew.Held at hheld ⊢
      dsimp only
      rw [hpc] at hheld ⊢
      rw [hslvs, hnslv]
      exact hheld
  cases hpass with
  | quiet hm hl hev =>
    refine hkeep (Or.inl hm) ?_ ?_ ?_
    · rw [hl]
      exact h.submitted
    · rw [hl]
      exact h.spaced
    · rw [hm, hl]
      exact h.clear
  | error hm hl =>
    refine hkeep (Or.inr ⟨0, hm⟩) (fun id n ok hmem => ?_) ?_ fun _ => ?_
    · rw [hl] at hmem
      exact h.submitted id n ok (by simpa using hmem)
    · rw [hl]
      exact h.spaced.reset
    · rw [hl, sinceReset_reset]
  | sent h0 hc hs hm hl =>
    refine hkeep (Or.inr ⟨1, hm⟩) (fun id n ok hmem => ?_) ?_ fun hz => ?_
    · rw [hl] at hmem
      rcases List.mem_append.mp hmem with hmem | hmem
      · exact h.submitted id n ok hmem
      · injection List.mem_singleton.mp hmem with hid hn
        rw [hid, hn]
        exact h.events _ _ htrig
    · rw [hl]
      exact h.spaced.submit (h.clear h0) _ _ _
    · rw [hm] at hz
      cases hz
  | delayed h0 hc hm hl =>
    refine hkeep (Or.inr ⟨1, hm⟩) ?_ ?_ fun hz => ?_
    · rw [hl]
      exact h.submitted
    · rw [hl]
      exact h.spaced
    · rw [hm] at hz
      cases hz

theorem Crew.Inv.main (h : s.Inv) (hpc : s.pc = .wait) (hs : s.main ca jsmn ev c = some s') :
    s'.Inv := by
  unfold Crew.main at hs
  split at hs
  swap
  · cases hs
  next htrig =>
  obtain ⟨⟨n, w⟩, hn, hs⟩ := Option.bind_eq_some_iff.mp hs
  have hkeeps : (∀ m₁ chal, n ≠ .replace m₁ chal) →
      (follow ca w c n).map (fun r => { s with w := r.2, m := r.1 }) = some s' → s'.Inv := by
    intro hne hs
    obtain ⟨⟨m', w'⟩, hf, rfl⟩ := Option.map_eq_some_iff.mp hs
    exact h.pass hpc htrig (handle_pass hn hf hne) w'
  cases n with
  | wait m => exact hkeeps (by simp) hs
  | restart m => exact hkeeps (by simp) hs
  | quit => exact hkeeps (by simp) hs
  | replace m chal =>
    obtain rfl := Option.some.inj hs
    obtain ⟨hm, -⟩ := handle_replace hn
    have hmchl : m.mchl = s.m.mchl := congrArg Mining.mchl hm
    have hlog : m.log = s.m.log := congrArg Mining.log hm
    refine ⟨h.asleep, fun t => ?_, h.events, ?_, ?_, ?_, ?_⟩
    · exact hmchl ▸ h.sees t
    · exact hlog ▸ h.submitted
    · exact hlog ▸ h.spaced
    · exact hmchl ▸ hlog ▸ h.clear
    · have hheld := h.held
      unfold Crew.Held at hheld ⊢
      dsimp only
      rw [hpc] at hheld
      rw [hmchl]
      exact hheld

theorem dropSlv_frame (i : Nat) (g : Mining) : (dropSlv i g).log = g.log ∧
    (dropSlv i g).mchl.chal = g.mchl.chal ∧ (dropSlv i g).mchl.solved = g.mchl.solved ∧
      (dropSlv i g).mchl.nslv = g.mchl.nslv ∧
      ∀ k, k ≠ i → (dropSlv i g).mchl.slvs k = g.mchl.slvs k := by
  unfold dropSlv
  dsimp only
  split
  · exact ⟨rfl, rfl, rfl, rfl, fun _ _ => rfl⟩
  · exact ⟨rfl, rfl, rfl, rfl, fun k hk => Function.update_of_ne hk ..⟩

/-- A solver whose pool does not have the thread is left out. -/
theorem Owned.skip (h : Owned slvs pools i hi t) (hslvs : ∀ k, k ≠ i → slvs' k = slvs k)
    (hno : 0 ≤ (slvs i).pool → pools (slvs i).pool ≠ some t)
    (hpools : ∀ p, pools p = some t → pools' p = some t) : Owned slvs' pools' (i + 1) hi t := by
  obtain ⟨k, hlo, hhi, hpos, hk⟩ := h
  have hki : k ≠ i := by
    rintro rfl
    exact hno hpos hk
  refine ⟨k, by omega, hhi, ?_, ?_⟩ <;> rw [hslvs k hki]
  · exact hpos
  · exact hpools _ hk

/-- The pass of `dropchal` for a solver, once its pool has no active thread. -/
theorem Crew.Inv.dropped (h : s.Inv) {pools : Int → Option Nat}
    (hheld : ∀ t, (s.threads t).Active →
      Owned (dropSlv i s.m.toMining).mchl.slvs pools (i + 1) s.m.mchl.nslv t) :
    Crew.Inv { s with
      m := { s.m with toMining := dropSlv i s.m.toMining }
      pools := pools
      pc := .drop chal (i + 1) } := by
  obtain ⟨hlog, hchal, hsolved, hnslv, -⟩ := dropSlv_frame i s.m.toMining
  refine ⟨h.asleep, fun t => ?_, h.events, ?_, ?_, ?_, ?_⟩
  · exact hchal ▸ h.sees t
  · exact hlog ▸ h.submitted
  · exact hlog ▸ h.spaced
  · exact hsolved ▸ hlog ▸ h.clear
  · unfold Crew.Held
    exact hnslv ▸ hheld

theorem Crew.Inv.drop (h : s.Inv) (hpc : s.pc = .drop chal i)
    (hs : s.drop chal i added = some s') : s'.Inv := by
  have hheld := h.held
  unfold Crew.Held at hheld
  rw [hpc] at hheld
  unfold Crew.drop at hs
  split at hs
  · split at hs
    · next u hu =>
      obtain rfl := Option.some.inj hs
      have hact : ∀ t, ((s.setThread u fun th => { th with canrun := false }).threads t).Active →
          (s.threads t).Active := by
        apply setThread_forall (P := fun t th => th.Active → (s.threads t).Active)
        · exact fun ht => ⟨ht.1, Or.inr (ht.2.resolve_left (by simp))⟩
        · exact fun _ _ ht => ht
      refine ⟨?_, ?_, h.events, h.submitted, h.spaced, h.clear, ?_⟩
      · dsimp only
        apply setThread_forall (P := fun _ th => th.running = false → th.place = .idle)
        · exact h.asleep u
        · exact fun t _ => h.asleep t
      · dsimp only
        apply setThread_forall (P := fun _ th => th.Sees s.m.mchl.chal s.finds)
        · exact (h.sees u).congr rfl rfl
        · exact fun t _ => h.sees t
      · refine ⟨fun t ht => hheld t (hact t ht), ?_, ?_⟩
        · dsimp only
          rw [setThread_self]
        · split at hu
          · cases hu
          · exact hu
    · next hu =>
      obtain rfl := Option.some.inj hs
      refine h.dropped fun t ht => ?_
      refine (hheld t ht).skip (dropSlv_frame i s.m.toMining).2.2.2.2 (fun hpos he => ?_)
        fun _ hp => hp
      rw [if_neg (not_lt.mpr hpos)] at hu
      rw [hu] at he
      cases he
  · next hi =>
    split at hs
    · -- no thread is active when the challenge is overwritten
      obtain rfl := Option.some.inj hs
      have hnone : ∀ t, ¬ (s.threads t).Active := by
        intro t ht
        obtain ⟨k, hlo, hhi, -⟩ := hheld t ht
        omega
      refine ⟨h.asleep, fun t => ?_, h.events, h.submitted, h.spaced, h.clear,
        fun t ht => absurd ht (hnone t)⟩
      have hsees := h.sees t
      have hrest : (s.threads t).arg.isSome → (s.threads t).place = .idle := by
        intro harg
        refine h.asleep t ?_
        by_contra hrun
        exact hnone t ⟨harg, Or.inr (Bool.not_eq_false _ ▸ hrun)⟩
      unfold Thread.Sees at hsees ⊢
      split
      · next hplace =>
        rw [hplace] at hsees
        rw [hrest hsees.1] at hplace
        cases hplace
      · next hplace =>
        rw [hplace] at hsees
        rw [hrest hsees.1] at hplace
        cases hplace
      · trivial
    · cases hs

theorem Crew.Inv.stopped (h : s.Inv) (hpc : s.pc = .stop chal i u)
    (hs : s.stopped chal i u = some s') : s'.Inv := by
  have hheld := h.held
  unfold Crew.Held at hheld
  rw [hpc] at hheld
  obtain ⟨howned, hcan, hu⟩ := hheld
  unfold Crew.stopped at hs
  split at hs
  · cases hs
  next hrun =>
  obtain rfl := Option.some.inj hs
  -- the thread that stopped is not active, and the pool had no other
  have hne : ∀ t, (s.threads t).Active → t ≠ u := by
    rintro t ⟨-, ht⟩ rfl
    rcases ht with ht | ht
    · rw [hcan] at ht
      cases ht
    · exact hrun ht
  refine h.dropped fun t ht => ?_
  refine (howned t ht).skip (dropSlv_frame i s.m.toMining).2.2.2.2 (fun _ he => ?_) fun p hp => ?_
  · rw [hu] at he
    exact hne t ht (Option.some.inj he).symm
  · have hpi : p ≠ (s.m.mchl.slvs i).pool := by
      rintro rfl
      rw [hu] at hp
      exact hne t ht (Option.some.inj hp).symm
    rwa [Function.update_of_ne hpi]

theorem setPool_ne {h : Chl} (hk : k ≠ i) : (h.setPool i p).slvs k = h.slvs k :=
  Function.update_of_ne hk ..

/-- Solvers below `i` keep their threads when only solver `i` changes. -/
theorem Owned.below (h : Owned slvs pools 0 i t)
    (hslvs : ∀ k, k ≠ i → (slvs' k).pool = (slvs k).pool)
    (hpools : ∀ p, pools p = some t → pools' p = some t) : Owned slvs' pools' 0 i t := by
  obtain ⟨k, hlo, hhi, hpos, hk⟩ := h
  refine ⟨k, hlo, hhi, ?_, ?_⟩ <;> rw [hslvs k (by omega)]
  · exact hpos
  · exact hpools _ hk

theorem prepare_pool (h : Chl) (uq : Int) (i k : Nat) :
    ((h.prepare uq i).slvs k).pool = (h.slvs k).pool := by
  by_cases hk : k = i
  · subst hk
    simp [Chl.prepare, Chl.setSlv]
  · have hslv : (h.prepare uq i).slvs k = h.slvs k := Function.update_of_ne hk ..
    rw [hslv]

theorem Crew.Inv.start (h : s.Inv) (hpc : s.pc = .start i) (hs : s.start i p u = some s') :
    s'.Inv := by
  have hheld := h.held
  unfold Crew.Held at hheld
  rw [hpc] at hheld
  unfold Crew.start at hs
  split at hs
  swap
  · obtain rfl := Option.some.inj hs
    exact ⟨h.asleep, h.sees, h.events, h.submitted, h.spaced, h.clear, hheld⟩
  obtain ⟨g, hg, hs⟩ := Option.bind_eq_some_iff.mp hs
  obtain ⟨hm, hlog, -⟩ := solverStart_frame hg
  have hchal : g.mchl.chal = s.m.mchl.chal := by
    rw [hm]
    rfl
  have hpool : ∀ k, (g.mchl.slvs k).pool = (s.m.mchl.slvs k).pool := by
    intro k
    rw [hm]
    exact prepare_pool s.m.mchl s.m.uq i k
  have hsub : ∀ id n ok, .submit id n ok ∈ g.log → Found s.finds id n := by
    intro id n ok hmem
    rw [hlog] at hmem
    exact h.submitted id n ok (by simpa using hmem)
  have hspaced : Spaced g.log := hlog ▸ h.spaced.reset
  have hclear : sinceReset g.log = [] := by
    rw [hlog, sinceReset_reset]
  split at hs
  · split at hs
    · cases hs
    obtain rfl := Option.some.inj hs
    refine ⟨h.asleep, fun t => ?_, h.events, hsub, hspaced, fun _ => hclear, fun t ht => ?_⟩
    · exact hchal ▸ h.sees t
    · refine (hheld t ht).below (fun k hk => ?_) fun _ hq => hq
      have hslv : (g.mchl.setPool i p).slvs k = g.mchl.slvs k := setPool_ne hk
      exact (congrArg Slv.pool hslv).trans (hpool k)
  next hpos =>
  split at hs
  · cases hs
  next hfree =>
  obtain ⟨hpnone, hurun⟩ := not_or.mp hfree
  obtain rfl := Option.some.inj hs
  have hplace : (s.threads u).place = .idle := h.asleep u (Bool.eq_false_iff.mpr hurun)
  refine ⟨?_, ?_, h.events, hsub, hspaced, fun _ => hclear, ?_, not_lt.mp hpos,
    Function.update_self ..⟩
  · dsimp only
    apply setThread_forall (P := fun _ th => th.running = false → th.place = .idle)
    · exact fun _ => hplace
    · exact fun t _ => h.asleep t
  · dsimp only
    rw [hchal]
    apply setThread_forall (P := fun _ th => th.Sees s.m.mchl.chal s.finds)
    · simp [Thread.Sees, hplace]
    · exact fun t _ => h.sees t
  · have howned : ∀ t, (s.threads t).Active →
        Owned g.mchl.slvs (Function.update s.pools p (some u)) 0 i t := by
      refine fun t ht => (hheld t ht).below (fun k _ => hpool k) fun q hq => ?_
      have hqp : q ≠ p := by
        rintro rfl
        rw [hq] at hpnone
        exact hpnone rfl
      rwa [Function.update_of_ne hqp]
    dsimp only
    apply setThread_forall (P := fun t th => th.Active → t = u ∨
      Owned g.mchl.slvs (Function.update s.pools p (some u)) 0 i t)
    · exact fun _ => Or.inl rfl
    · exact fun t _ ht => Or.inr (howned t ht)

theorem Crew.Inv.started (h : s.Inv) (hpc : s.pc = .wake i p u)
    (hs : s.started i p u = some s') : s'.Inv := by
  have hheld := h.held
  unfold Crew.Held at hheld
  rw [hpc] at hheld
  obtain ⟨howned, hpos, hu⟩ := hheld
  unfold Crew.started at hs
  split at hs
  swap
  · cases hs
  obtain rfl := Option.some.inj hs
  have hself : ((s.m.mchl.setPool i p).slvs i).pool = p := by
    simp [Chl.setPool, Chl.setSlv]
  refine ⟨h.asleep, h.sees, h.events, h.submitted, h.spaced, h.clear, fun t ht => ?_⟩
  rcases howned t ht with rfl | ⟨k, hlo, hhi, hk⟩
  · exact ⟨i, Nat.zero_le i, Nat.lt_succ_self i, by rw [hself]; exact hpos, by rw [hself]; exact hu⟩
  · have hki : (s.m.mchl.setPool i p).slvs k = s.m.mchl.slvs k := setPool_ne (by omega)
    exact ⟨k, hlo, by omega, by rw [hki]; exact hk⟩

theorem Crew.Inv.step (h : s.Inv) (hs : s.step ca jsmn a = some s') : s'.Inv := by
  unfold Crew.step at hs
  split at hs
  · next hpc => exact h.main hpc hs
  · next hpc => exact h.drop hpc hs
  · next hpc => exact h.stopped hpc hs
  · next hpc => exact h.start hpc hs
  · next hpc => exact h.started hpc hs
  · exact h.work hs
  · cases hs

theorem Crew.init_inv (w : ω) (uq sk : Int) (b : Buf) (busy : Nat → Bool) :
    (Crew.init w (begun uq sk b) busy).Inv := by
  refine ⟨fun t ht => ?_, fun t => ?_, nofun, nofun, fun l hl _ => ?_, fun _ => rfl, fun t ht => ?_⟩
  · have hbusy : busy t = false := ht
    simp [Crew.init, hbusy]
  · cases hbusy : busy t <;> simp [Thread.Sees, Crew.init, hbusy]
  · rw [List.infix_nil.mp hl]
    exact Nat.zero_le _
  · cases ht.1

/-- What is submitted was found for the challenge it is submitted for, and once only. -/
def Crew.Submitted (s : Crew ω) : Prop :=
  (∀ id n ok, .submit id n ok ∈ s.m.log → Found s.finds id n) ∧ Spaced s.m.log

/-- In every run of the miner and the threads: a nonce handed to `ca_submit` was
found by a solver that read nothing but a challenge of the id it is submitted for,
and there is one submission at most between two resets. -/
theorem submitted_found (ca : Authority ω) (jsmn : Jsmn) (w : ω) (uq sk : Int) (b : Buf)
    (busy : Nat → Bool) (as : List Act) :
    Always (Crew.step ca jsmn) Crew.Submitted (Crew.init w (begun uq sk b) busy) as :=
  always_inv Crew.Inv Crew.Submitted (fun _ _ _ h hs => h.step hs)
    (fun _ h => ⟨h.submitted, h.spaced⟩) (Crew.init_inv w uq sk b busy) as

end

end Oin17.Mine
