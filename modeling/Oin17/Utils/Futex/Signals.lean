import Oin17.Utils.Futex.Calls

namespace Oin17.Utils.Futex
open Function Run

/-- The condition variable that `cond_wait` has read `seq` of, and what it read. -/
def Then.ticket : Then → Option (Nat × Nat)
  | .caller => none
  | .wait c v => some (c, v)

def Pc.ticket : Pc → Option (Nat × Nat)
  | .peeking _ k | .freeing _ k | .unlocking _ k => k.ticket
  | .hoping _ k _ | .calming _ k | .waking _ k => k.ticket
  | .checking c _ v | .binding c _ v | .rechecking c _ v | .waiting c _ v => some (c, v)
  | _ => none

/-- A thread sleeps in `cond_wait`, or will unless there is a signal before it does. -/
def State.Dozes {T : Type} (s : State T) (t : T) (c : Nat) : Prop :=
  (∃ m, s.pc t = .dozing c m) ∨ (s.pc t).ticket = some (c, s.mem.seq c)

/-- A signal is on its way, and reaches the thread if no other sleeps there. -/
def State.Alerted {T : Type} (s : State T) (t : T) (c : Nat) (u : T) : Prop :=
  s.pc u = .signalling c ∨ s.pc u = .rousing c ∧ ∃ m, s.pc t = .dozing c m

/-- A signal by which `seq` gets back to what a thread has read of it, in `cond_wait`. -/
def Laps {T : Type} (s : State T) : Act T → Prop
  | .run t =>
    match s.pc t with
    | .signalling c => ∃ u, (s.pc u).ticket = some (c, (s.mem.seq c + 1) % 2 ^ 32)
    | _ => False
  | _ => False

instance {T : Type} [Fintype T] (s : State T) (a : Act T) : Decidable (Laps s a) := by
  cases a with
  | run t =>
    rw [Laps]
    split <;> infer_instance
  | _ => exact instDecidableFalse

/-- In `cond_wait`, with the mutex. -/
def Pc.prewaits : Pc → Bool
  | .noting _ _ | .checking _ _ _ | .binding _ _ _ | .rechecking _ _ _ => true
  | .peeking _ k | .freeing _ k | .unlocking _ k => k.ticket.isSome
  | _ => false

/-- In `cond_wait`, before the thread is woken up. -/
def Pc.waits : Pc → Bool
  | .hoping _ k _ | .calming _ k | .waking _ k => k.ticket.isSome
  | .waiting _ _ _ | .dozing _ _ => true
  | p => p.prewaits

section Accesses
variable {s s' : Mem} {p q : Pc}

theorem pc_waits (k : Then) (m : Nat) : (k.pc m).waits = k.ticket.isSome := by
  cases k <;> rfl

theorem pc_prewaits (k : Then) (m : Nat) : (k.pc m).prewaits = false := by
  cases k <;> rfl

/-- An access leads into no wait that the thread is not in. -/
theorem access_waits (h : s.access p = some (s', q)) :
    (q.waits = true → p.waits = true) ∧ (q.prewaits = true → p.prewaits = true) := by
  cases p with
  | out | asleep | dozing | waking | rousing => cases h
  | trying m i =>
    cases h
    split <;> [simp [Pc.waits, Pc.prewaits]; split <;> simp [Pc.waits, Pc.prewaits]]
  | taking m =>
    cases h
    split <;> simp [Pc.waits, Pc.prewaits]
  | blocking m =>
    cases h
    split <;> simp [Pc.waits, Pc.prewaits]
  | peeking m k =>
    cases h
    split <;> exact ⟨id, id⟩
  | freeing m k =>
    rw [Mem.access] at h
    split at h
    · cases h
      rw [pc_waits, pc_prewaits]
      exact ⟨id, by simp⟩
    · cases h
      exact ⟨id, id⟩
  | unlocking m k =>
    cases h
    exact ⟨id, by simp [Pc.prewaits]⟩
  | hoping m k i =>
    cases h
    split
    · rw [pc_waits, pc_prewaits]
      exact ⟨id, by simp⟩
    · split <;> exact ⟨id, id⟩
  | calming m k =>
    cases h
    exact ⟨id, id⟩
  | noting c m | binding c m v | signalling c =>
    cases h
    exact ⟨id, id⟩
  | checking c m v =>
    cases h
    split <;> exact ⟨fun _ => rfl, fun _ => rfl⟩
  | rechecking c m v =>
    cases h
    split <;> exact ⟨fun _ => rfl, fun _ => rfl⟩
  | waiting c m v =>
    cases h
    split <;> simp [Pc.waits, Pc.prewaits]

theorem pc_ticket (k : Then) (m : Nat) : (k.pc m).ticket = k.ticket := by
  cases k <;> rfl

theorem pc_ne_dozing (k : Then) (m c x : Nat) : k.pc m ≠ .dozing c x := by
  cases k <;> simp [Then.pc]

/-- Only `cond_signal` changes `seq`. -/
theorem access_seq (h : s.access p = some (s', q)) (c : Nat) :
    s'.seq c = s.seq c ∨ p = .signalling c ∧ s'.seq c = (s.seq c + 1) % 2 ^ 32 := by
  cases p with
  | signalling x =>
    cases h
    by_cases hx : c = x
    · subst hx
      exact Or.inr ⟨rfl, update_self _ _ _⟩
    · exact Or.inl (update_of_ne hx _ _)
  | freeing m k =>
    rw [Mem.access] at h
    split at h <;> cases h <;> exact Or.inl rfl
  | binding x m v =>
    cases h
    split <;> exact Or.inl rfl
  | out | asleep | dozing | waking | rousing => cases h
  | _ =>
    cases h
    exact Or.inl rfl

/-- A thread does not get to sleep before it has read `seq`, nor when it has changed. -/
theorem access_dozes (h : s.access p = some (s', q)) (c : Nat)
    (hq : (∃ m, q = .dozing c m) ∨ q.ticket = some (c, s'.seq c)) :
    p.ticket = some (c, s.seq c) ∨ ∃ m, p = .noting c m := by
  cases p with
  | out | asleep | dozing | waking | rousing => cases h
  | trying m i =>
    cases h
    split at hq <;> [skip; split at hq] <;> simp [Pc.ticket] at hq
  | taking m =>
    cases h
    split at hq <;> simp [Pc.ticket] at hq
  | blocking m =>
    cases h
    split at hq <;> simp [Pc.ticket] at hq
  | peeking m k =>
    cases h
    split at hq <;> simpa [Pc.ticket] using hq
  | freeing m k =>
    rw [Mem.access] at h
    split at h
    · cases h
      simp only [pc_ne_dozing, exists_false, false_or, pc_ticket] at hq
      exact Or.inl hq
    · cases h
      simpa [Pc.ticket] using hq
  | unlocking m k =>
    cases h
    simpa [Pc.ticket] using hq
  | hoping m k i =>
    cases h
    split at hq
    · simp only [pc_ne_dozing, exists_false, false_or, pc_ticket] at hq
      exact Or.inl hq
    · split at hq <;> simpa [Pc.ticket] using hq
  | calming m k =>
    cases h
    simpa [Pc.ticket] using hq
  | noting x m =>
    cases h
    obtain ⟨rfl, -⟩ : x = c ∧ s.seq x = s.seq c := by simpa [Pc.ticket] using hq
    exact Or.inr ⟨m, rfl⟩
  | checking x m v =>
    cases h
    split at hq <;> simpa [Pc.ticket, Then.ticket] using hq
  | binding x m v =>
    cases h
    split at hq <;> simpa [Pc.ticket] using hq
  | rechecking x m v =>
    cases h
    split at hq <;> simp [Pc.ticket, Then.ticket] at hq ⊢
    exact hq
  | waiting x m v =>
    cases h
    split at hq
    · rename_i hv
      obtain rfl : x = c := by simpa [Pc.ticket] using hq
      exact Or.inl (by rw [hv]; rfl)
    · simp [Pc.ticket] at hq
  | signalling x =>
    cases h
    simp [Pc.ticket] at hq

end Accesses

theorem start_not_dozes (op : Op) : (∀ c m, op.start ≠ .dozing c m) ∧ op.start.ticket = none := by
  cases op <;> exact ⟨by simp [Op.start], rfl⟩

theorem woken_not_dozes {p : Pc} (h : p.sleeps = some w) :
    (∀ c m, p.woken ≠ .dozing c m) ∧ p.woken.ticket = none := by
  cases p <;> first | exact ⟨by simp [Pc.woken], rfl⟩ | cases h

theorem woken_sleeps (p : Pc) : p.woken.sleeps = none := by
  cases p <;> rfl

/-- What follows a wakeup of others is as near to sleep as before it. -/
theorem wakes_dozes {p : Pc} (h : p.wakes = some (w, q)) :
    (∀ c m, q ≠ .dozing c m) ∧ q.ticket = p.ticket := by
  cases p with
  | waking m k =>
    cases h
    exact ⟨fun c x => pc_ne_dozing k m c x, pc_ticket k m⟩
  | rousing c =>
    cases h
    exact ⟨by simp, rfl⟩
  | _ => cases h

theorem wakes_waits {p : Pc} (h : p.wakes = some (w, q)) :
    (q.waits = true → p.waits = true) ∧ q.prewaits = false := by
  cases p with
  | waking m k =>
    cases h
    rw [pc_waits, pc_prewaits]
    exact ⟨id, rfl⟩
  | rousing c =>
    cases h
    exact ⟨by simp [Pc.waits, Pc.prewaits], rfl⟩
  | _ => cases h

theorem woken_waits {p : Pc} (h : p.sleeps = some w) : p.woken.waits = false := by
  cases p <;> first | rfl | cases h

theorem prewaits_waits {p : Pc} (h : p.prewaits = true) : p.waits = true := by
  cases p <;> first | exact h | cases h

theorem State.Dozes.waits {T : Type} {s : State T} {t : T} {c : Nat} (h : s.Dozes t c) :
    (s.pc t).waits = true := by
  rcases h with ⟨m, h⟩ | h
  · rw [h]
    rfl
  · cases hp : s.pc t <;> rw [hp] at h <;> first | rfl | cases h |
      exact Option.isSome_iff_exists.mpr ⟨_, h⟩

section Steps
variable {T : Type} [DecidableEq T] [Fintype T] {s s' : State T} {a : Act T} {t u : T} {c : Nat}

/-- Only a call of `cond_wait` leads a thread into it. -/
theorem step_waits (h : step s a = some s') (hc : ∀ c m, a ≠ .call u (.wait c m)) :
    ((s'.pc u).waits = true → (s.pc u).waits = true) ∧
      ((s'.pc u).prewaits = true → (s.pc u).prewaits = true) := by
  have hno : ∀ {p : Pc}, p.waits = false → p.prewaits = false := fun {p} hw => by
    cases hp : p.prewaits with
    | false => rfl
    | true => rw [prewaits_waits hp] at hw; cases hw
  by_cases hu : u = a.actor
  · cases took h with
    | @call t r op hp hn =>
      obtain rfl : u = t := hu
      rw [hold_pc, goto_pc_self]
      cases op with
      | wait c m => exact absurd rfl (hc c m)
      | _ => simp [Op.start, Pc.waits, Pc.prewaits, Then.ticket]
    | @run t mem q ha =>
      obtain rfl : u = t := hu
      rw [move_pc, goto_pc_self]
      exact access_waits ha
    | @wake t w q v hw hv =>
      obtain rfl : u = t := hu
      rw [goto_pc_self, (wakes_waits hw).2]
      exact ⟨(wakes_waits hw).1, by simp⟩
    | @alone t w q hw hv =>
      obtain rfl : u = t := hu
      rw [goto_pc_self, (wakes_waits hw).2]
      exact ⟨(wakes_waits hw).1, by simp⟩
    | @spurious t w hw =>
      obtain rfl : u = t := hu
      rw [goto_pc_self, woken_waits hw, hno (woken_waits hw)]
      simp
  · rcases (step_others h hu).2 with hpc | ⟨hs, hpc⟩
    · rw [hpc]
      exact ⟨id, id⟩
    · obtain ⟨w, hw⟩ := Option.isSome_iff_exists.mp hs
      rw [hpc, woken_waits hw, hno (woken_waits hw)]
      simp

/-- The value of `seq` after a step. -/
theorem step_seq (h : step s a = some s') (c : Nat) :
    s'.mem.seq c = s.mem.seq c ∨
      s.pc a.actor = .signalling c ∧ s'.mem.seq c = (s.mem.seq c + 1) % 2 ^ 32 ∧
        a = .run a.actor := by
  cases took h with
  | call hp hn =>
    rw [hold_mem]
    exact Or.inl rfl
  | run ha =>
    rw [move_mem]
    exact (access_seq ha c).imp_right fun ⟨hp, hq⟩ => ⟨hp, hq, rfl⟩
  | _ => exact Or.inl rfl

omit [DecidableEq T] [Fintype T] in
theorem State.Dozes.congr (hd : s'.Dozes t c) (hpc : s'.pc t = s.pc t)
    (hseq : s'.mem.seq c = s.mem.seq c) : s.Dozes t c := by
  rw [State.Dozes, hpc, hseq] at hd
  exact hd

omit [DecidableEq T] [Fintype T] in
theorem not_dozes (hp : (∀ c m, s.pc t ≠ .dozing c m) ∧ (s.pc t).ticket = none) :
    ¬ s.Dozes t c := by
  rintro (⟨m, hd⟩ | hd)
  · exact hp.1 c m hd
  · rw [hp.2] at hd
    cases hd

/-- A thread that does not go on by itself gets near to sleep only if signals lap it. -/
theorem others_doze (h : step s a = some s') (hlap : ¬ Laps s a) (ht : t ≠ a.actor)
    (hd : s'.Dozes t c) : s.Dozes t c ∧ s'.pc t = s.pc t ∧
      (s'.mem.seq c = s.mem.seq c ∨ ∃ m, s.pc t = .dozing c m) := by
  have hpc : s'.pc t = s.pc t := by
    rcases (step_others h ht).2 with hpc | ⟨hs, hpc⟩
    · exact hpc
    · obtain ⟨w, hw⟩ := Option.isSome_iff_exists.mp hs
      exact absurd hd (not_dozes (hpc.symm ▸ woken_not_dozes hw))
  rcases step_seq h c with hseq | ⟨hp, hseq, ha⟩
  · exact ⟨hd.congr hpc hseq, hpc, Or.inl hseq⟩
  · rcases hd with ⟨m, hm⟩ | htick
    · exact ⟨Or.inl ⟨m, hpc ▸ hm⟩, hpc, Or.inr ⟨m, hpc ▸ hm⟩⟩
    · refine absurd ?_ hlap
      rw [ha, Laps, hp]
      exact ⟨t, by rw [← hpc, htick, hseq]⟩

/-- A thread gets near to sleep by reading `seq`. -/
theorem actor_dozes (h : step s a = some s') (ht : t = a.actor) (hd : s'.Dozes t c) :
    (s.Dozes t c ∨ ∃ m, s.pc t = .noting c m) ∧ s'.mem.seq c = s.mem.seq c ∧
      ∀ x m, s.pc t ≠ .dozing x m := by
  have hseq : s'.mem.seq c = s.mem.seq c := by
    rcases step_seq h c with hseq | ⟨hp, hseq, ha⟩
    · exact hseq
    · rw [ha] at h
      cases took h with
      | run hacc =>
        rw [hp] at hacc
        cases hacc
        refine absurd hd (not_dozes ?_)
        rw [move_pc, ht, goto_pc_self]
        exact ⟨by simp, rfl⟩
  cases took h with
  | @call u r op hp hn =>
    refine absurd hd (not_dozes ?_)
    obtain rfl : t = u := ht
    rw [hold_pc, goto_pc_self]
    exact start_not_dozes op
  | @run u mem q ha =>
    obtain rfl : t = u := ht
    refine ⟨?_, hseq, fun x m hx => by rw [hx] at ha; cases ha⟩
    rw [State.Dozes, move_pc, goto_pc_self, move_mem] at hd
    exact (access_dozes ha c hd).imp_left Or.inr
  | @wake u w q v hw hv =>
    obtain rfl : t = u := ht
    obtain ⟨hq, htick⟩ := wakes_dozes hw
    refine ⟨Or.inl (Or.inr ?_), hseq, fun x m hx => by rw [hx] at hw; cases hw⟩
    rcases hd with ⟨m, hm⟩ | hd
    · rw [goto_pc_self] at hm
      exact absurd hm (hq c m)
    · rwa [goto_pc_self, htick, hseq] at hd
  | @alone u w q hw hv =>
    obtain rfl : t = u := ht
    obtain ⟨hq, htick⟩ := wakes_dozes hw
    refine ⟨Or.inl (Or.inr ?_), hseq, fun x m hx => by rw [hx] at hw; cases hw⟩
    rcases hd with ⟨m, hm⟩ | hd
    · rw [goto_pc_self] at hm
      exact absurd hm (hq c m)
    · rwa [goto_pc_self, htick, hseq] at hd
  | @spurious u w hw =>
    obtain rfl : t = u := ht
    refine absurd hd (not_dozes ?_)
    rw [goto_pc_self]
    exact woken_not_dozes hw

theorem signal_step (h : step s a = some s') (hu : u = a.actor) (hp : s.pc u = .signalling c) :
    s'.pc u = .rousing c ∧ s'.mem.seq c ≠ s.mem.seq c := by
  cases took h with
  | @call t r op hp' hn =>
    obtain rfl : u = t := hu
    rw [hp] at hp'
    cases hp'
  | @run t mem q ha =>
    obtain rfl : u = t := hu
    rw [hp] at ha
    cases ha
    refine ⟨by rw [move_pc, goto_pc_self], ?_⟩
    rw [move_mem]
    simp only [update_self]
    omega
  | @wake t w q v hw hv =>
    obtain rfl : u = t := hu
    rw [hp] at hw
    cases hw
  | @alone t w q hw hv =>
    obtain rfl : u = t := hu
    rw [hp] at hw
    cases hw
  | @spurious t w hw =>
    obtain rfl : u = t := hu
    rw [hp] at hw
    cases hw

/-- A wakeup reaches the one thread that sleeps. -/
theorem rouse_step (h : step s a = some s') (hu : u = a.actor) (hp : s.pc u = .rousing c)
    (ht : (s.pc t).sleeps = some (.cv c))
    (hsole : ∀ x, (s.pc x).sleeps = some (.cv c) → x = t ∨ x = u) : (s'.pc t).sleeps = none := by
  cases took h with
  | @call t r op hp' hn =>
    obtain rfl : u = t := hu
    rw [hp] at hp'
    cases hp'
  | @run t mem q ha =>
    obtain rfl : u = t := hu
    rw [hp] at ha
    cases ha
  | @wake x w q v hw hv =>
    obtain rfl : u = x := hu
    rw [hp] at hw
    cases hw
    have hvu : v ≠ u := by
      rintro rfl
      rw [hp] at hv
      cases hv
    obtain rfl := (hsole v hv).resolve_right hvu
    rw [goto_pc_of_ne _ _ hvu, goto_pc_self]
    exact woken_sleeps _
  | @alone x w q hw hv =>
    obtain rfl : u = x := hu
    rw [hp] at hw
    cases hw
    exact absurd ht (hv t)
  | @spurious x w hw =>
    obtain rfl : u = x := hu
    rw [hp] at hw
    cases hw

/-- A signal that was on its way to the one sleeper, as the signaller is not asleep, stays so
until the sleeper is awake. -/
theorem alerted_step (h : step s a = some s') (hlap : ¬ Laps s a)
    (hnot : ∀ m, s.pc t ≠ .noting c m)
    (hsole : ∀ x, (s.pc x).sleeps = some (.cv c) → x = t ∨ x = u) (htu : t ≠ u)
    (halert : s.Dozes t c → s.Alerted t c u) (hd : s'.Dozes t c) : s'.Alerted t c u := by
  by_cases ht : t = a.actor
  · -- the waiter is not asleep, and goes on towards its sleep
    obtain ⟨hd', -, hawake⟩ := actor_dozes h ht hd
    have hdoze : s.Dozes t c := hd'.resolve_right fun ⟨m, hm⟩ => hnot m hm
    rcases halert hdoze with hu | ⟨-, m, hm⟩
    · have hpc : s'.pc u = s.pc u := by
        rcases (step_others h (ht ▸ htu.symm)).2 with hpc | ⟨hs, -⟩
        · exact hpc
        · rw [hu] at hs
          cases hs
      exact Or.inl (hpc.trans hu)
    · exact absurd hm (hawake c m)
  · obtain ⟨hdoze, hpct, hseq⟩ := others_doze h hlap ht hd
    by_cases hu : u = a.actor
    · rcases halert hdoze with hsig | ⟨hrouse, m, hm⟩
      · -- the signal: only a waiter that is asleep is still near to sleep after it
        obtain ⟨hpcu, hne⟩ := signal_step h hu hsig
        obtain ⟨m, hm⟩ := hseq.resolve_left hne
        exact Or.inr ⟨hpcu, m, hpct.trans hm⟩
      · -- the wakeup: it wakes the waiter
        have hwoken := rouse_step h hu hrouse (by rw [hm]; rfl) hsole
        rw [hpct, hm] at hwoken
        cases hwoken
    · have hpc : (s.pc u).sleeps = none → s'.pc u = s.pc u := fun hn => by
        rcases (step_others h hu).2 with hpc | ⟨hs, -⟩
        · exact hpc
        · rw [hn] at hs
          cases hs
      rcases halert hdoze with hsig | ⟨hrouse, m, hm⟩
      · exact Or.inl ((hpc (by rw [hsig]; rfl)).trans hsig)
      · exact Or.inr ⟨(hpc (by rw [hrouse]; rfl)).trans hrouse, m, hpct.trans hm⟩

end Steps

end Oin17.Utils.Futex
