import Oin17.Utils.Futex.Exclusion

namespace Oin17.Utils.Futex
open Function Refine Run

/-- The next access takes the mutex, if it is free then, or wakes a thread that sleeps on it. -/
def Pc.pends (m : Nat) : Pc → Bool
  | .taking x | .waking x _ => x = m
  | _ => false

/-- In `mutex_unlock`, past the release. -/
def Pc.relaxes (m : Nat) : Pc → Bool
  | .hoping x _ _ | .calming x _ => x = m
  | _ => false

section Accesses
variable {s s' : Mem} {p q : Pc} {m : Nat}

theorem setLocked_contended (x : Nat) (h : 256 ≤ u) : 256 ≤ setLocked u x := by
  rw [setLocked]
  omega

/-- What an access does to the wakeup that the sleepers of a mutex wait for: it promises one,
or those that were promised stay. -/
inductive Keeping (m : Nat) (s : Mem) (p : Pc) (s' : Mem) (q : Pc) : Prop where
  | pends (h : q.pends m = true)
  | contends (h : s'.u m = 257)
  | keeps (hp : p.pends m = false) (hq : q ≠ .asleep m)
      (h : 256 ≤ s.u m → 256 ≤ s'.u m ∧
        (locked (s.u m) = 1 ∨ p.relaxes m = true → locked (s'.u m) = 1 ∨ q.relaxes m = true))

/-- An access that is about another mutex, or reads only. -/
theorem Keeping.same (hu : s'.u m = s.u m) (hp : p.pends m = false) (hq : q ≠ .asleep m)
    (hr : p.relaxes m = true → locked (s.u m) = 1 ∨ q.relaxes m = true) :
    Keeping m s p s' q := by
  refine .keeps hp hq fun h => ?_
  rw [hu]
  exact ⟨h, Or.rec Or.inl hr⟩

theorem pc_ne_asleep (k : Then) (x : Nat) : k.pc x ≠ .asleep m := by
  cases k <;> simp [Then.pc]

theorem access_keeping (hs : ∀ x, Valid (s.u x)) (h : s.access p = some (s', q)) (m : Nat) :
    Keeping m s p s' q := by
  cases p with
  | out | asleep | dozing | waking | rousing => cases h
  | trying x i =>
    cases h
    by_cases hx : x = m
    · subst hx
      obtain ⟨-, hl⟩ := (hs x).setLocked (x := 1) (by decide)
      refine .keeps rfl ?_ fun h => ?_
      · split <;> [simp; split <;> simp]
      · simp only [update_self]
        exact ⟨setLocked_contended _ h, fun _ => Or.inl hl⟩
    · refine .same (update_of_ne (Ne.symm hx) _ _) rfl ?_ fun h => by cases h
      split <;> [simp; split <;> simp]
  | taking x =>
    cases h
    by_cases hx : x = m
    · subst hx
      exact .contends (update_self x 257 s.u)
    · refine .same (update_of_ne (Ne.symm hx) _ _) (by simpa [Pc.pends] using hx) ?_
        fun h => by cases h
      split <;> simp
  | blocking x =>
    cases h
    by_cases hx : x = m
    · subst hx
      by_cases hu : s.u x = 257
      · exact .contends hu
      · rw [if_neg hu]
        exact .pends (by simp [Pc.pends])
    · refine .same rfl rfl ?_ fun h => by cases h
      split <;> simp [hx]
  | peeking x k =>
    cases h
    refine .same rfl rfl ?_ fun h => by cases h
    split <;> simp
  | freeing x k =>
    rw [Mem.access] at h
    by_cases hu : s.u x = 1
    · rw [if_pos hu] at h
      cases h
      by_cases hx : x = m
      · subst hx
        refine .keeps rfl (pc_ne_asleep k x) fun h => ?_
        omega
      · exact .same (update_of_ne (Ne.symm hx) _ _) rfl (pc_ne_asleep k x) fun h => by cases h
    · rw [if_neg hu] at h
      cases h
      exact .same rfl rfl (by simp) fun h => by cases h
  | unlocking x k =>
    cases h
    by_cases hx : x = m
    · subst hx
      refine .keeps rfl (by simp) fun h => ?_
      simp only [update_self]
      exact ⟨setLocked_contended _ h, fun _ => Or.inr (by simp [Pc.relaxes])⟩
    · exact .same (update_of_ne (Ne.symm hx) _ _) rfl (by simp) fun h => by cases h
  | hoping x k i =>
    cases h
    refine .same rfl rfl ?_ fun h => ?_
    · split <;> [exact pc_ne_asleep k x; split <;> simp]
    · have hx : x = m := by simpa [Pc.relaxes] using h
      subst hx
      have hlock := (hs x).locked
      by_cases hu : locked (s.u x) = 0
      · rw [if_neg (by omega)]
        refine Or.inr ?_
        split <;> simp [Pc.relaxes]
      · exact Or.inl (by omega)
  | calming x k =>
    cases h
    by_cases hx : x = m
    · exact .pends (by simpa [Pc.pends] using hx)
    · exact .same (update_of_ne (Ne.symm hx) _ _) rfl (by simp) fun h => by
        simp [Pc.relaxes, hx] at h
  | noting c x =>
    cases h
    exact .same rfl rfl (by simp) fun h => by cases h
  | checking c x v =>
    cases h
    refine .same rfl rfl ?_ fun h => by cases h
    split <;> simp
  | binding c x v =>
    cases h
    refine .same ?_ rfl (by simp) fun h => by cases h
    split <;> rfl
  | rechecking c x v =>
    cases h
    refine .same rfl rfl ?_ fun h => by cases h
    split <;> simp
  | waiting c x v =>
    cases h
    refine .same rfl rfl ?_ fun h => by cases h
    split <;> simp
  | signalling c =>
    cases h
    exact .same rfl rfl (by simp) fun h => by cases h

end Accesses

/-- Somebody will take the mutex, or wake a thread that sleeps on it: a thread that is about
to, the one that has it, or the one that gave it up. -/
def State.Pending {T : Type} (s : State T) (m : Nat) : Prop :=
  (∃ t, (s.pc t).pends m = true) ∨
  (256 ≤ s.mem.u m ∧ (locked (s.mem.u m) = 1 ∨ ∃ t, (s.pc t).relaxes m = true))

/-- No thread sleeps on a mutex for ever because of a wakeup that was missed. -/
def State.Awaited {T : Type} (s : State T) : Prop :=
  ∀ t m, s.pc t = .asleep m → s.Pending m

/-- A step that is no access to memory. -/
theorem State.Awaited.quiet {T : Type} {s s' : State T} (h : s.Awaited) (hu : s'.mem.u = s.mem.u)
    (hs : ∀ u m, s'.pc u = .asleep m → s.pc u = .asleep m)
    (hp : ∀ u v m, s'.pc u = .asleep m → (s.pc v).pends m = true →
      ∃ v, (s'.pc v).pends m = true)
    (hr : ∀ v m, (s.pc v).relaxes m = true → (s'.pc v).relaxes m = true) : s'.Awaited := by
  intro u m ha
  rw [State.Pending, hu]
  rcases h u m (hs u m ha) with ⟨v, hpend⟩ | ⟨hc, hl⟩
  · exact Or.inl (hp u v m ha hpend)
  · exact Or.inr ⟨hc, hl.imp_right fun ⟨v, hv⟩ => ⟨v, hr v m hv⟩⟩

section Threads
variable {T : Type} [DecidableEq T] {s s' : State T} {t u : T} {mem : Mem} {q : Pc} {m : Nat}

theorem State.Awaited.run (hv : ∀ x, Valid (s.mem.u x)) (h : s.Awaited)
    (ha : s.mem.access (s.pc t) = some (mem, q)) : (s.move t mem q).Awaited := by
  intro u m hu
  rw [move_pc] at hu
  have hself : ((s.move t mem q).pc t) = q := by rw [move_pc, goto_pc_self]
  have hne : ∀ v, v ≠ t → (s.move t mem q).pc v = s.pc v := fun v hvt => by
    rw [move_pc, goto_pc_of_ne s q hvt]
  rw [State.Pending, move_mem]
  cases access_keeping hv ha m with
  | pends hq => exact Or.inl ⟨t, hself.symm ▸ hq⟩
  | contends h257 =>
    rw [h257]
    exact Or.inr ⟨by decide, Or.inl rfl⟩
  | keeps hp hq hkeep =>
    -- the sleeper is another thread, which was promised a wakeup before
    have hut : u ≠ t := by
      rintro rfl
      rw [goto_pc_self] at hu
      exact hq hu
    rw [goto_pc_of_ne s q hut] at hu
    rcases h u m hu with ⟨v, hpend⟩ | ⟨hc, hl⟩
    · have hvt : v ≠ t := by
        rintro rfl
        rw [hp] at hpend
        cases hpend
      exact Or.inl ⟨v, (hne v hvt).symm ▸ hpend⟩
    · obtain ⟨hc', himp⟩ := hkeep hc
      refine Or.inr ⟨hc', ?_⟩
      rcases hl with hl | ⟨v, hr⟩
      · exact (himp (Or.inl hl)).imp_right fun hr => ⟨t, hself.symm ▸ hr⟩
      · by_cases hvt : v = t
        · subst hvt
          exact (himp (Or.inr hr)).imp_right fun hr => ⟨v, hself.symm ▸ hr⟩
        · exact Or.inr ⟨v, (hne v hvt).symm ▸ hr⟩

theorem start_ne_asleep (op : Op) (m : Nat) : op.start ≠ .asleep m := by
  cases op <;> simp [Op.start]

theorem State.Awaited.call (h : s.Awaited) (hp : s.pc t = .out r) (op : Op) (x : Option Nat)
    (b : Bool) : ((s.goto t op.start).hold t x b).Awaited := by
  have hne : ∀ v, v ≠ t → ((s.goto t op.start).hold t x b).pc v = s.pc v := fun v hv => by
    rw [hold_pc, goto_pc_of_ne s _ hv]
  refine h.quiet (by rw [hold_mem]; rfl) (fun u m ha => ?_) (fun u v m _ hv => ⟨v, ?_⟩)
    (fun v m hv => ?_)
  · by_cases hu : u = t
    · rw [hu, hold_pc, goto_pc_self] at ha
      exact absurd ha (start_ne_asleep op m)
    · rwa [hne u hu] at ha
  · rwa [hne]
    rintro rfl
    rw [hp] at hv
    cases hv
  · rwa [hne]
    rintro rfl
    rw [hp] at hv
    cases hv

/-- What a thread that may be woken up does not do. -/
theorem sleeps_idle {p : Pc} (h : p.sleeps = some w) (m : Nat) :
    p.pends m = false ∧ p.relaxes m = false := by
  cases p <;> first | exact ⟨rfl, rfl⟩ | cases h

theorem wakes_idle {p : Pc} (h : p.wakes = some (w, q)) (m : Nat) :
    p.relaxes m = false ∧ q ≠ .asleep m ∧ (p.pends m = true → w = .mutex m) := by
  cases p with
  | waking x k =>
    cases h
    exact ⟨rfl, pc_ne_asleep k x, fun h => by rw [of_decide_eq_true h]⟩
  | rousing c =>
    cases h
    exact ⟨rfl, by simp, fun h => by cases h⟩
  | _ => cases h

theorem wakes_awake {p : Pc} (h : p.wakes = some (w, q)) : p.sleeps = none := by
  cases p <;> first | rfl | cases h

theorem woken_ne_asleep (p : Pc) (m : Nat) : p.woken ≠ .asleep m := by
  cases p <;> simp [Pc.woken]

/-- Whom a thread wakes goes on to take the mutex that it waits for. -/
theorem woken_pends {p : Pc} (h : p.sleeps = some (.mutex m)) : p.woken.pends m = true := by
  cases p <;> cases h
  simp [Pc.woken, Pc.pends]

theorem State.Awaited.wake (h : s.Awaited) (hw : (s.pc t).wakes = some (w, q))
    (hu : (s.pc u).sleeps = some w) : ((s.goto u (s.pc u).woken).goto t q).Awaited := by
  have htu : u ≠ t := by
    rintro rfl
    rw [wakes_awake hw] at hu
    cases hu
  have ht : ((s.goto u (s.pc u).woken).goto t q).pc t = q := goto_pc_self _ t q
  have hu' : ((s.goto u (s.pc u).woken).goto t q).pc u = (s.pc u).woken := by
    rw [goto_pc_of_ne _ q htu, goto_pc_self]
  have hne : ∀ v, v ≠ t → v ≠ u → ((s.goto u (s.pc u).woken).goto t q).pc v = s.pc v :=
    fun v hvt hvu => by rw [goto_pc_of_ne _ q hvt, goto_pc_of_ne s _ hvu]
  refine h.quiet rfl (fun v m ha => ?_) (fun _ v m _ hv => ?_) (fun v m hv => ?_)
  · by_cases hvt : v = t
    · rw [hvt, ht] at ha
      exact absurd ha (wakes_idle hw m).2.1
    · by_cases hvu : v = u
      · rw [hvu, hu'] at ha
        exact absurd ha (woken_ne_asleep _ m)
      · rwa [hne v hvt hvu] at ha
  · by_cases hvt : v = t
    · rw [hvt] at hv
      have hwm := (wakes_idle hw m).2.2 hv
      exact ⟨u, by rw [hu']; exact woken_pends (hwm ▸ hu)⟩
    · by_cases hvu : v = u
      · rw [hvu, (sleeps_idle hu m).1] at hv
        cases hv
      · exact ⟨v, (hne v hvt hvu).symm ▸ hv⟩
  · by_cases hvt : v = t
    · rw [hvt, (wakes_idle hw m).1] at hv
      cases hv
    · by_cases hvu : v = u
      · rw [hvu, (sleeps_idle hu m).2] at hv
        cases hv
      · rwa [hne v hvt hvu]

/-- A wakeup that finds no sleeper was not waited for. -/
theorem State.Awaited.alone (h : s.Awaited) (hw : (s.pc t).wakes = some (w, q))
    (hu : ∀ u, (s.pc u).sleeps ≠ some w) : (s.goto t q).Awaited := by
  have hsame : ∀ v m, (s.goto t q).pc v = .asleep m → s.pc v = .asleep m := fun v m ha => by
    by_cases hvt : v = t
    · rw [hvt, goto_pc_self] at ha
      exact absurd ha (wakes_idle hw m).2.1
    · rwa [goto_pc_of_ne s q hvt] at ha
  refine h.quiet rfl hsame (fun x v m ha hv => ⟨v, ?_⟩) (fun v m hv => ?_)
  · by_cases hvt : v = t
    · rw [hvt] at hv
      refine absurd ?_ (hu x)
      rw [hsame x m ha, (wakes_idle hw m).2.2 hv]
      rfl
    · rwa [goto_pc_of_ne s q hvt]
  · by_cases hvt : v = t
    · rw [hvt, (wakes_idle hw m).1] at hv
      cases hv
    · rwa [goto_pc_of_ne s q hvt]

theorem State.Awaited.spurious (h : s.Awaited) (hw : (s.pc t).sleeps = some w) :
    (s.goto t (s.pc t).woken).Awaited := by
  refine h.quiet rfl (fun v m ha => ?_) (fun _ v m _ hv => ⟨v, ?_⟩) (fun v m hv => ?_)
  · by_cases hvt : v = t
    · rw [hvt, goto_pc_self] at ha
      exact absurd ha (woken_ne_asleep _ m)
    · rwa [goto_pc_of_ne s _ hvt] at ha
  · by_cases hvt : v = t
    · rw [hvt, (sleeps_idle hw m).1] at hv
      cases hv
    · rwa [goto_pc_of_ne s _ hvt]
  · by_cases hvt : v = t
    · rw [hvt, (sleeps_idle hw m).2] at hv
      cases hv
    · rwa [goto_pc_of_ne s _ hvt]

theorem step_awaited [Fintype T] {a : Act T} (hv : ∀ x, Valid (s.mem.u x)) (h : s.Awaited)
    (hs : step s a = some s') : s'.Awaited := by
  cases took hs with
  | call hp hn => exact h.call hp _ _ _
  | run ha => exact h.run hv ha
  | wake hw hu => exact h.wake hw hu
  | alone hw hu => exact h.alone hw hu
  | spurious hw => exact h.spurious hw

end Threads

/-- In `mutex_lock`, or in `cond_wait` to take the mutex again. -/
def Pc.wants (m : Nat) : Pc → Bool
  | .trying x _ | .taking x | .blocking x | .asleep x => x = m
  | _ => false

/-- In a call about a mutex that somebody else may take. -/
def Pc.concerns (m : Nat) : Pc → Bool
  | .trying x _ | .taking x | .blocking x | .asleep x => x = m
  | .hoping x _ _ | .calming x _ | .waking x _ => x = m
  | .waiting _ x _ | .dozing _ x => x = m
  | _ => false

/-- A bound on the accesses of a thread that concern a mutex, while it is free. -/
def Pc.rank (m : Nat) : Pc → Nat
  | .trying x _ | .taking x => if x = m then 1 else 2
  | .waiting _ x _ => if x = m then 3 else 2
  | .waking x _ => if x = m then 4 else 2
  | .calming x _ => if x = m then 5 else 2
  | .hoping x _ i => if x = m then 6 + (199 - i) else 2
  | _ => 2

theorem pends_concerns {p : Pc} (h : p.pends m = true) : p.concerns m = true ∧ p.sleeps = none := by
  cases p <;> first | exact ⟨h, rfl⟩ | cases h

theorem relaxes_concerns {p : Pc} (h : p.relaxes m = true) :
    p.concerns m = true ∧ p.sleeps = none := by
  cases p <;> first | exact ⟨h, rfl⟩ | cases h

theorem wants_concerns {p : Pc} (h : p.wants m = true) :
    p.concerns m = true ∧ (p = .asleep m ∨ p.sleeps = none) := by
  cases p with
  | asleep x => exact ⟨h, Or.inl (congrArg _ (of_decide_eq_true h))⟩
  | trying | taking | blocking => exact ⟨h, Or.inr rfl⟩
  | _ => cases h

theorem woken_wants {p : Pc} (h : p.wants m = true) : p.woken.wants m = true := by
  cases p <;> first | exact h | cases h

theorem wakes_wants {p : Pc} (h : p.wants m = true) : p.wakes = none := by
  cases p <;> first | rfl | cases h

/-- The threads that take a step that concerns a mutex. -/
def State.works {T : Type} (m : Nat) (s : State T) (a : Act T) : List T :=
  if (s.pc a.actor).concerns m then [a.actor] else []

theorem rank_le (m : Nat) (p : Pc) : p.rank m ≤ 205 := by
  cases p <;> simp only [Pc.rank] <;> first | omega | (split <;> omega)

theorem rank_pc (k : Then) (x m : Nat) : (k.pc x).rank m ≤ if x = m then 3 else 2 := by
  cases k <;> simp only [Then.pc, Pc.rank] <;> split <;> omega

/-- What a thread may still do about a mutex gets less with each of its accesses, while it
is free. -/
theorem access_rank {s s' : Mem} {p q : Pc} (hfree : locked (s.u m) = 0) (hp : p.holds ≠ some m)
    (ht : s.takes p ≠ some m) (h : s.access p = some (s', q)) :
    q.rank m + (if p.concerns m then 1 else 0) ≤ p.rank m := by
  cases p with
  | out | asleep | dozing | waking | rousing => cases h
  | trying x i =>
    cases h
    by_cases hx : x = m
    · subst hx
      exact absurd (if_pos hfree) ht
    · split <;> [simp [Pc.concerns, Pc.rank, hx]; split <;> simp [Pc.concerns, Pc.rank, hx]]
  | taking x =>
    cases h
    by_cases hx : x = m
    · subst hx
      refine absurd (if_pos ?_) ht
      rw [locked] at hfree
      omega
    · split <;> simp [Pc.concerns, Pc.rank, hx]
  | blocking x =>
    cases h
    by_cases hx : x = m
    · subst hx
      have hu : s.u x ≠ 257 := fun hu => by simp [hu, locked] at hfree
      simp [Pc.concerns, Pc.rank, hu]
    · split <;> simp [Pc.concerns, Pc.rank, hx]
  | peeking x k =>
    cases h
    split <;> simp [Pc.concerns, Pc.rank]
  | freeing x k =>
    have hx : x ≠ m := fun hx => hp (congrArg some hx)
    rw [Mem.access] at h
    split at h
    · cases h
      have := rank_pc k x m
      simpa [Pc.concerns, Pc.rank, hx] using this
    · cases h
      simp [Pc.concerns, Pc.rank]
  | unlocking x k =>
    cases h
    have hx : x ≠ m := fun hx => hp (congrArg some hx)
    simp [Pc.concerns, Pc.rank, hx]
  | hoping x k i =>
    cases h
    have hpc := rank_pc k x m
    by_cases hx : x = m
    · subst hx
      rw [if_neg (by simp [hfree])]
      simp only [Pc.concerns, decide_true, if_true]
      split <;> simp only [Pc.rank, if_true] <;> omega
    · have hr : (Pc.hoping x k i).rank m = 2 := by simp [Pc.rank, hx]
      rw [if_neg hx] at hpc
      simp only [Pc.concerns, hx, decide_false, Bool.false_eq_true, if_false, Nat.add_zero, hr]
      split
      · exact hpc
      · split <;> simp [Pc.rank, hx]
  | calming x k =>
    cases h
    by_cases hx : x = m <;> simp [Pc.concerns, Pc.rank, hx]
  | noting c x =>
    cases h
    simp [Pc.concerns, Pc.rank]
  | checking c x v =>
    cases h
    split <;> simp [Pc.concerns, Pc.rank]
  | binding c x v =>
    cases h
    simp [Pc.concerns, Pc.rank]
  | rechecking c x v =>
    cases h
    split <;> simp [Pc.concerns, Pc.rank]
  | waiting c x v =>
    cases h
    by_cases hx : x = m <;> split <;> simp [Pc.concerns, Pc.rank, hx]
  | signalling c =>
    cases h
    simp [Pc.concerns, Pc.rank]

section Runs
variable {T : Type} [DecidableEq T] {s s' : State T} {o : Nat → Option T} {m : Nat}

theorem goto_rank {t : T} {q : Pc} (h : q.rank m + c ≤ (s.pc t).rank m) (u : T) :
    ((s.goto t q).pc u).rank m + (if u = t then c else 0) ≤ (s.pc u).rank m := by
  by_cases hu : u = t
  · subst hu
    rw [goto_pc_self, if_pos rfl]
    exact h
  · rw [goto_pc_of_ne s q hu, if_neg hu]
    exact Nat.le_refl _

theorem start_rank (op : Op) (m : Nat) : op.start.rank m ≤ 2 := by
  cases op <;> simp only [Op.start, Pc.rank] <;> first | omega | (split <;> omega)

theorem sleeps_rank {p : Pc} (h : p.sleeps = some w) (m : Nat) :
    p.woken.rank m + (if p.concerns m then 1 else 0) ≤ p.rank m := by
  cases p with
  | asleep x => by_cases hx : x = m <;> simp [Pc.woken, Pc.rank, Pc.concerns, hx]
  | dozing c x => by_cases hx : x = m <;> simp [Pc.woken, Pc.rank, Pc.concerns, hx]
  | _ => cases h

theorem wakes_rank {p : Pc} (h : p.wakes = some (w, q)) (m : Nat) :
    q.rank m + (if p.concerns m then 1 else 0) ≤ p.rank m := by
  cases p with
  | waking x k =>
    cases h
    have := rank_pc k x m
    by_cases hx : x = m
    · have hr : (Pc.waking x k).rank m = 4 := by simp [Pc.rank, hx]
      rw [if_pos hx] at this
      rw [hr]
      split <;> omega
    · have hr : (Pc.waking x k).rank m = 2 := by simp [Pc.rank, hx]
      rw [if_neg hx] at this
      simpa [Pc.concerns, hx, hr] using this
  | rousing c =>
    cases h
    simp [Pc.concerns, Pc.rank]
  | _ => cases h

theorem works_count (m : Nat) (s : State T) (a : Act T) (u : T) : (s.works m a).count u =
    if u = a.actor then if (s.pc a.actor).concerns m then 1 else 0 else 0 := by
  rw [State.works]
  by_cases hu : u = a.actor
  · subst hu
    rw [if_pos rfl]
    split <;> simp
  · rw [if_neg hu]
    split
    · simp [Ne.symm hu]
    · simp

variable [Fintype T]

/-- While a mutex is free and nobody takes it, the accesses of a thread that concern it use up a
bound. -/
theorem step_rank {a : Act T} (h : Owned s o) (hm : o m = none)
    (ha : ∀ t, .acquire t m ∉ s.grants a) (hs : step s a = some s') (x : T) :
    (s'.pc x).rank m + (s.works m a).count x ≤ (s.pc x).rank m := by
  have hfree := (h.locked m).mp hm
  rw [works_count]
  cases took hs with
  | @call t r op hp hn =>
    rw [hold_pc, Act.actor, hp]
    apply goto_rank
    rw [hp]
    exact start_rank op m
  | @run t mem q hacc =>
    rw [move_pc]
    refine goto_rank (access_rank hfree (fun hp => h.free hfree t (Or.inr hp)) ?_ hacc) x
    intro (ht : s.mem.takes (s.pc t) = some m)
    exact ha t (by simp [State.grants, ht])
  | @wake t w q u hw hu =>
    have htu : t ≠ u := by
      rintro rfl
      rw [wakes_awake hw] at hu
      cases hu
    have hwoken : ((s.goto u (s.pc u).woken).pc x).rank m ≤ (s.pc x).rank m :=
      (Nat.le_add_right _ _).trans (goto_rank (sleeps_rank hu m) x)
    refine (goto_rank ?_ x).trans hwoken
    rw [goto_pc_of_ne s _ htu]
    exact wakes_rank hw m
  | alone hw hu => exact goto_rank (wakes_rank hw m) x
  | spurious hw => exact goto_rank (sleeps_rank hw m) x

/-- The thread that goes on next is not the caller, nor one that the kernel lets go for no
reason. -/
def Act.inside {T : Type} : Act T → Bool
  | .run _ | .wake _ _ => true
  | _ => false

theorem access_some (s : Mem) {p : Pc} (h : p.concerns m = true) (hs : p.sleeps = none)
    (hw : p.wakes = none) : ∃ x, s.access p = some x := by
  cases p with
  | asleep | dozing => cases hs
  | waking => cases hw
  | freeing x k =>
    rw [Mem.access]
    split <;> exact ⟨_, rfl⟩
  | out | rousing => cases h
  | _ => exact ⟨_, rfl⟩

/-- A thread that is neither asleep nor out of the calls about a mutex can go on. -/
theorem concerned_step (s : State T) {t : T} (h : (s.pc t).concerns m = true)
    (hs : (s.pc t).sleeps = none) :
    ∃ a s', a.inside = true ∧ a.actor = t ∧ step s a = some s' := by
  cases hw : (s.pc t).wakes with
  | none =>
    obtain ⟨x, hx⟩ := access_some s.mem h hs hw
    exact ⟨.run t, _, rfl, rfl, by rw [step, hx]; rfl⟩
  | some wq =>
    obtain ⟨w, q⟩ := wq
    by_cases hall : ∀ u, (s.pc u).sleeps ≠ some w
    · exact ⟨.wake t none, _, rfl, rfl, by simp only [step, hw]; exact if_pos hall⟩
    · obtain ⟨u, hu⟩ := not_forall_not.mp hall
      exact ⟨.wake t (some u), _, rfl, rfl, by simp only [step, hw]; exact if_pos hu⟩

/-- While a mutex is free, some thread that its waiters can count on is able to go on. -/
theorem Owned.goes_on (h : Owned s o) (haw : s.Awaited) (hm : o m = none) {t : T}
    (ht : (s.pc t).wants m = true) :
    ∃ a s', a.inside = true ∧ (s.pc a.actor).concerns m = true ∧ step s a = some s' := by
  have hfree := (h.locked m).mp hm
  have hgo : ∀ u, (s.pc u).concerns m = true → (s.pc u).sleeps = none →
      ∃ a s', a.inside = true ∧ (s.pc a.actor).concerns m = true ∧ step s a = some s' := by
    intro u hu hs
    obtain ⟨a, s', hin, hact, hstep⟩ := concerned_step s hu hs
    exact ⟨a, s', hin, hact.symm ▸ hu, hstep⟩
  obtain ⟨hc, hsleep | hs⟩ := wants_concerns ht
  · rcases haw t m hsleep with ⟨u, hu⟩ | ⟨-, hl | ⟨u, hu⟩⟩
    · obtain ⟨hc, hs⟩ := pends_concerns hu
      exact hgo u hc hs
    · omega
    · obtain ⟨hc, hs⟩ := relaxes_concerns hu
      exact hgo u hc hs
  · exact hgo t hc hs

omit [Fintype T] in
/-- A mutex that nobody acquires stays free. -/
theorem grants_none {gs : List (Grant T)} {o' : Nat → Option T} (hm : o m = none)
    (hg : ∀ t, .acquire t m ∉ gs) (h : exec grant o gs = some o') : o' m = none := by
  refine exec_inv (fun o => o m = none) (fun g => ∀ t, g ≠ .acquire t m) ?_ hm ?_ h
  · rintro o g o' ho hg hs
    cases g with
    | acquire t x =>
      rw [grant] at hs
      split at hs
      · cases hs
        have hx : m ≠ x := fun hx => hg t (by rw [hx])
        rw [update_of_ne hx, ho]
      · cases hs
    | release t x =>
      rw [grant] at hs
      split at hs
      · cases hs
        by_cases hx : m = x
        · rw [hx, update_self]
        · rw [update_of_ne hx, ho]
      · cases hs
  · rintro g hmem t rfl
    exact hg t hmem

theorem access_wants {s s' : Mem} {p q : Pc} (hp : p.wants m = true) (ht : s.takes p ≠ some m)
    (h : s.access p = some (s', q)) : q.wants m = true := by
  cases p with
  | trying x i =>
    cases h
    have hx : x = m := of_decide_eq_true hp
    subst hx
    rw [if_neg fun h0 => ht (if_pos h0)]
    split <;> simp [Pc.wants]
  | taking x =>
    cases h
    have hx : x = m := of_decide_eq_true hp
    subst hx
    rw [if_neg fun h0 => ht (if_pos h0)]
    simp [Pc.wants]
  | blocking x =>
    cases h
    split <;> exact hp
  | asleep x => cases h
  | _ => cases hp

/-- Nobody stops waiting for a mutex that he does not get. -/
theorem step_wants {a : Act T} {t : T} (ht : (s.pc t).wants m = true)
    (ha : .acquire t m ∉ s.grants a) (hs : step s a = some s') : (s'.pc t).wants m = true := by
  have hgoto : ∀ (s : State T) u q, (s.pc t).wants m = true → (u = t → q.wants m = true) →
      ((s.goto u q).pc t).wants m = true := by
    intro s u q hw hq
    by_cases hu : t = u
    · subst hu
      rw [goto_pc_self]
      exact hq rfl
    · rwa [goto_pc_of_ne s q hu]
  cases took hs with
  | @call u r op hp hn =>
    rw [hold_pc]
    refine hgoto s u _ ht fun hu => ?_
    rw [← hu, hp] at ht
    cases ht
  | @run u mem q hacc =>
    rw [move_pc]
    refine hgoto s u q ht fun hu => ?_
    subst hu
    exact access_wants ht (fun h => ha (by simp [State.grants, h])) hacc
  | @wake u w q v hw hv =>
    have hv' := hgoto s v (s.pc v).woken ht fun h => woken_wants (h ▸ ht)
    refine hgoto _ u q hv' fun hu => ?_
    rw [hu, wakes_wants ht] at hw
    cases hw
  | @alone u w q hw hu =>
    refine hgoto s u q ht fun hu => ?_
    rw [hu, wakes_wants ht] at hw
    cases hw
  | @spurious u w hw => exact hgoto s u _ ht fun h => woken_wants (h ▸ ht)

/-- A thread waits for a mutex that is free. -/
structure Waits (s : State T) (o : Nat → Option T) (t : T) (m : Nat) : Prop where
  owned : Owned s o
  awaited : s.Awaited
  free : o m = none
  wants : (s.pc t).wants m = true

theorem Waits.step {a : Act T} {t : T} (h : Waits s o t m) (ha : ∀ u, .acquire u m ∉ s.grants a)
    (hs : Futex.step s a = some s') : ∃ o', Waits s' o' t m := by
  obtain ⟨o', ho, ho'⟩ := simulates_grant s o a s' h.owned hs
  exact ⟨o', ho', step_awaited h.owned.valid h.awaited hs, grants_none h.free ha ho,
    step_wants h.wants (ha t) hs⟩

/-- The accesses of a thread in a run in which a free mutex is not taken. -/
theorem Waits.run {bs : List (Act T)} {t : T} (h : Waits s o t m)
    (hb : ∀ u, .acquire u m ∉ trace Futex.step State.grants s bs)
    (he : exec Futex.step s bs = some s') :
    (∀ x, (s'.pc x).rank m + (trace Futex.step (State.works m) s bs).count x ≤ (s.pc x).rank m) ∧
      ∃ o', Waits s' o' t m := by
  induction bs generalizing s o with
  | nil =>
    obtain rfl := Option.some.inj he
    exact ⟨fun _ => le_rfl, o, h⟩
  | cons b bs ih =>
    obtain ⟨s₁, hs, he⟩ := Option.bind_eq_some_iff.mp he
    rw [trace_cons hs] at hb ⊢
    simp only [List.mem_append, not_or] at hb
    obtain ⟨o₁, h₁⟩ := h.step (fun u => (hb u).1) hs
    obtain ⟨hrank, hw⟩ := ih h₁ (fun u => (hb u).2) he
    refine ⟨fun x => ?_, hw⟩
    have hstep := step_rank h.owned h.free (fun u => (hb u).1) hs x
    have hrun := hrank x
    rw [List.count_append]
    omega

theorem run_awaited {as : List (Act T)} (h : exec Futex.step (init T) as = some s) :
    (∃ o, Owned s o) ∧ s.Awaited := by
  refine exec_inv (fun s => (∃ o, Owned s o) ∧ s.Awaited) (fun _ => True) ?_
    ⟨⟨_, init_owned⟩, fun t m ht => by cases ht⟩ (fun _ _ => trivial) h
  rintro s a s' ⟨⟨o, ho⟩, haw⟩ - hs
  obtain ⟨o', -, ho'⟩ := simulates_grant s o a s' ho hs
  exact ⟨⟨o', ho'⟩, step_awaited ho.valid haw hs⟩

/-- No wakeup is missed: while a mutex is free and a thread waits for it, in whatever order
the threads go on and whatever they call, some thread that is in a call about the mutex can
go on, and one of them takes it before any of them has made more than 205 steps. -/
theorem free_mutex_taken (as : List (Act T)) (s : State T)
    (h : exec Futex.step (init T) as = some s) (m : Nat) (hfree : locked (s.mem.u m) = 0) (t : T)
    (ht : (s.pc t).wants m = true) (bs : List (Act T)) (s' : State T)
    (hs' : exec Futex.step s bs = some s')
    (hb : ∀ u, .acquire u m ∉ trace Futex.step State.grants s bs) :
    (∀ u, (trace Futex.step (State.works m) s bs).count u ≤ 205) ∧
      ∃ a s'', a.inside = true ∧ (s'.pc a.actor).concerns m = true ∧
        Futex.step s' a = some s'' := by
  obtain ⟨⟨o, ho⟩, haw⟩ := run_awaited h
  obtain ⟨hrank, o', hw⟩ := Waits.run ⟨ho, haw, (ho.locked m).mpr hfree, ht⟩ hb hs'
  refine ⟨fun u => ?_, hw.owned.goes_on hw.awaited hw.free hw.wants⟩
  exact (Nat.le_add_left _ _).trans ((hrank u).trans (rank_le m (s.pc u)))

end Runs

/-- A mutex that is unlocked while a thread tries to lock it. -/
theorem free_mutex_taken_two : ∃ s : State (Fin 2),
    exec Futex.step (init (Fin 2)) [.call 0 (.lock 7), .run 0, .call 1 (.lock 7), .run 1,
      .call 0 (.unlock 7), .run 0, .run 0] = some s ∧
    ∃ a s', a.inside = true ∧ (s.pc a.actor).concerns 7 = true ∧ Futex.step s a = some s' := by
  refine ⟨_, rfl, (free_mutex_taken (T := Fin 2) [.call 0 (.lock 7), .run 0, .call 1 (.lock 7),
    .run 1, .call 0 (.unlock 7), .run 0, .run 0] _ rfl 7 rfl 1 rfl [] _ rfl ?_).2⟩
  intro u hu
  cases hu

end Oin17.Utils.Futex
