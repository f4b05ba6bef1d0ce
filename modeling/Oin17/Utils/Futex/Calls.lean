import Oin17.Utils.Futex.Exclusion

namespace Oin17.Utils.Futex
open Function Run

def Then.op (m : Nat) : Then → Op
  | .caller => .unlock m
  | .wait c _ => .wait c m

/-- The calls that a thread can be in, by where it is. -/
def Pc.During (op : Op) : Pc → Prop
  | .out _ => False
  | .trying m _ => op = .lock m
  | .taking m | .blocking m | .asleep m => op = .lock m ∨ ∃ c, op = .wait c m
  | .peeking m k | .freeing m k | .unlocking m k => op = k.op m
  | .hoping m k _ | .calming m k | .waking m k => op = k.op m
  | .noting c m | .checking c m _ | .binding c m _ | .rechecking c m _ => op = .wait c m
  | .waiting c m _ | .dozing c m => op = .wait c m
  | .signalling c | .rousing c => op = .signal c

/-- The mutex that a call returns with. -/
def Op.gives : Op → Option Nat
  | .lock m | .wait _ m => some m
  | _ => none

section Accesses
variable {s s' : Mem} {p q : Pc} {op : Op}

theorem start_during (op : Op) : op.start.During op := by
  cases op <;> rfl

theorem pc_during (k : Then) (m : Nat) :
    (k.pc m).During (k.op m) ∨ k.pc m = .out 0 ∧ (k.op m).gives = none := by
  cases k with
  | caller => exact Or.inr ⟨rfl, rfl⟩
  | wait c v => exact Or.inl rfl

/-- An access of a call stays in it, or is its return. -/
theorem access_during (hp : p.During op) (h : s.access p = some (s', q)) :
    q.During op ∧ p.gains q = none ∨ ∃ r, q = .out r ∧ p.gains q = op.gives := by
  cases p with
  | out | asleep | dozing | waking | rousing => cases h
  | trying m i =>
    cases h
    obtain rfl : op = .lock m := hp
    split
    · exact Or.inr ⟨0, rfl, rfl⟩
    · split
      · exact Or.inl ⟨rfl, rfl⟩
      · exact Or.inl ⟨Or.inl rfl, rfl⟩
  | taking m =>
    cases h
    split
    · refine Or.inr ⟨0, rfl, ?_⟩
      rcases hp with rfl | ⟨c, rfl⟩ <;> rfl
    · exact Or.inl ⟨hp, rfl⟩
  | blocking m =>
    cases h
    split <;> exact Or.inl ⟨hp, rfl⟩
  | peeking m k =>
    cases h
    split <;> exact Or.inl ⟨hp, rfl⟩
  | freeing m k =>
    obtain rfl : op = k.op m := hp
    rw [Mem.access] at h
    split at h
    · cases h
      rcases pc_during k m with hk | ⟨hk, hg⟩
      · refine Or.inl ⟨hk, ?_⟩
        cases k <;> rfl
      · exact Or.inr ⟨0, hk, by rw [hk, hg]; rfl⟩
    · cases h
      exact Or.inl ⟨rfl, rfl⟩
  | unlocking m k =>
    cases h
    exact Or.inl ⟨hp, rfl⟩
  | hoping m k i =>
    cases h
    obtain rfl : op = k.op m := hp
    split
    · rcases pc_during k m with hk | ⟨hk, hg⟩
      · refine Or.inl ⟨hk, ?_⟩
        cases k <;> rfl
      · exact Or.inr ⟨0, hk, by rw [hk, hg]; rfl⟩
    · split <;> exact Or.inl ⟨rfl, rfl⟩
  | calming m k =>
    cases h
    exact Or.inl ⟨hp, rfl⟩
  | noting c m =>
    cases h
    exact Or.inl ⟨hp, rfl⟩
  | checking c m v =>
    cases h
    split <;> exact Or.inl ⟨hp, rfl⟩
  | binding c m v =>
    cases h
    exact Or.inl ⟨hp, rfl⟩
  | rechecking c m v =>
    cases h
    obtain rfl : op = .wait c m := hp
    split
    · exact Or.inl ⟨rfl, rfl⟩
    · exact Or.inr ⟨einval, rfl, rfl⟩
  | waiting c m v =>
    cases h
    obtain rfl : op = .wait c m := hp
    split
    · exact Or.inl ⟨rfl, rfl⟩
    · exact Or.inl ⟨Or.inr ⟨c, rfl⟩, rfl⟩
  | signalling c =>
    cases h
    exact Or.inl ⟨hp, rfl⟩

theorem woken_during (hp : p.During op) : p.woken.During op := by
  cases p with
  | dozing c m =>
    obtain rfl : op = .wait c m := hp
    exact Or.inr ⟨c, rfl⟩
  | _ => exact hp

theorem wakes_during (hp : p.During op) (h : p.wakes = some (w, q)) :
    q.During op ∨ ∃ r, q = .out r ∧ op.gives = none := by
  cases p with
  | waking m k =>
    cases h
    obtain rfl : op = k.op m := hp
    exact (pc_during k m).imp_right fun hk => ⟨0, hk⟩
  | rousing c =>
    cases h
    obtain rfl : op = .signal c := hp
    exact Or.inr ⟨0, rfl, rfl⟩
  | _ => cases h

end Accesses

section Steps
variable {T : Type} [DecidableEq T] [Fintype T] {s s' : State T} {a : Act T} {t u : T} {op : Op}

/-- What a call of another thread does to a thread is at most to wake it up. -/
theorem step_others (h : step s a = some s') (hu : u ≠ a.actor) : s'.holds u = s.holds u ∧
    (s'.pc u = s.pc u ∨ (s.pc u).sleeps.isSome ∧ s'.pc u = (s.pc u).woken) := by
  cases took h with
  | @call t r op hp hn =>
    replace hu : u ≠ t := hu
    refine ⟨funext fun m => ?_, Or.inl ?_⟩
    · rw [hold_holds, if_neg fun hc => hu hc.1]
      rfl
    · rw [hold_pc, goto_pc_of_ne s _ hu]
  | @run t mem q ha =>
    replace hu : u ≠ t := hu
    refine ⟨funext fun m => ?_, Or.inl ?_⟩
    · rw [move_holds, if_neg fun hc => hu hc.1]
    · rw [move_pc, goto_pc_of_ne s _ hu]
  | @wake t w q v hw hv =>
    replace hu : u ≠ t := hu
    refine ⟨rfl, ?_⟩
    rw [goto_pc_of_ne _ _ hu]
    by_cases huv : u = v
    · subst huv
      exact Or.inr ⟨by rw [hv]; rfl, goto_pc_self _ _ _⟩
    · exact Or.inl (goto_pc_of_ne s _ huv)
  | @alone t w q hw hv => exact ⟨rfl, Or.inl (goto_pc_of_ne s _ hu)⟩
  | @spurious t w hw => exact ⟨rfl, Or.inl (goto_pc_of_ne s _ hu)⟩

theorem step_call (h : step s (.call t op) = some s') : (∃ r, s.pc t = .out r) ∧
    s'.pc t = op.start ∧ s'.mem = s.mem ∧
    ∀ m, s'.holds t m = if op.needs = some m then false else s.holds t m := by
  cases took h with
  | @call t r op hp hn =>
    refine ⟨⟨r, hp⟩, by rw [hold_pc, goto_pc_self], by rw [hold_mem]; rfl, fun m => ?_⟩
    rw [hold_holds]
    simp [State.goto]

/-- A thread that is out of the calls stays so until it makes one. -/
theorem step_out (h : step s a = some s') (hp : s.pc u = .out r) (hc : ∀ op, a ≠ .call u op) :
    s'.pc u = .out r ∧ s'.holds u = s.holds u := by
  by_cases hu : u = a.actor
  · cases took h with
    | @call t r' op hp' hn =>
      obtain rfl : u = t := hu
      exact absurd rfl (hc op)
    | @run t mem q ha =>
      obtain rfl : u = t := hu
      rw [hp] at ha
      cases ha
    | @wake t w q v hw hv =>
      obtain rfl : u = t := hu
      rw [hp] at hw
      cases hw
    | @alone t w q hw hv =>
      obtain rfl : u = t := hu
      rw [hp] at hw
      cases hw
    | @spurious t w hw =>
      obtain rfl : u = t := hu
      rw [hp] at hw
      cases hw
  · obtain ⟨hh, hpc | ⟨hs, -⟩⟩ := step_others h hu
    · exact ⟨hpc.trans hp, hh⟩
    · rw [hp] at hs
      cases hs

/-- A call goes on, with what its thread held at its start, or it returns, and gives its mutex. -/
theorem step_during (h : step s a = some s') (hp : (s.pc u).During op) :
    (s'.pc u).During op ∧ s'.holds u = s.holds u ∨
    ∃ r, s'.pc u = .out r ∧
      ∀ m, s'.holds u m = if op.gives = some m then true else s.holds u m := by
  by_cases hu : u = a.actor
  · cases took h with
    | @call t r op' hp' hn =>
      obtain rfl : u = t := hu
      rw [hp'] at hp
      cases hp
    | @run t mem q ha =>
      obtain rfl : u = t := hu
      rw [move_pc, goto_pc_self]
      rcases access_during hp ha with ⟨hq, hg⟩ | ⟨r, hq, hg⟩
      · refine Or.inl ⟨hq, funext fun m => ?_⟩
        rw [move_holds, hg, if_neg (by simp)]
      · refine Or.inr ⟨r, hq, fun m => ?_⟩
        rw [move_holds, hg]
        simp
    | @wake t w q v hw hv =>
      obtain rfl : u = t := hu
      rw [goto_pc_self]
      refine (wakes_during hp hw).imp (fun hq => ⟨hq, rfl⟩) ?_
      rintro ⟨r, hq, hg⟩
      exact ⟨r, hq, fun m => by rw [hg, if_neg (by simp)]; rfl⟩
    | @alone t w q hw hv =>
      obtain rfl : u = t := hu
      rw [goto_pc_self]
      refine (wakes_during hp hw).imp (fun hq => ⟨hq, rfl⟩) ?_
      rintro ⟨r, hq, hg⟩
      exact ⟨r, hq, fun m => by rw [hg, if_neg (by simp)]; rfl⟩
    | @spurious t w hw =>
      obtain rfl : u = t := hu
      rw [goto_pc_self]
      exact Or.inl ⟨woken_during hp, rfl⟩
  · obtain ⟨hh, hpc | ⟨-, hpc⟩⟩ := step_others h hu
    · exact Or.inl ⟨hpc.symm ▸ hp, hh⟩
    · exact Or.inl ⟨hpc.symm ▸ woken_during hp, hh⟩

/-- Only a call takes a mutex from a thread. -/
theorem step_holds {m : Nat} (h : step s a = some s') (hc : ∀ op, a ≠ .call u op)
    (hm : s.holds u m = true) : s'.holds u m = true := by
  cases took h with
  | @call t r op hp hn =>
    have hu : u ≠ t := fun hu => hc op (by rw [hu])
    rw [hold_holds, if_neg fun h => hu h.1]
    exact hm
  | run ha =>
    rw [move_holds]
    split
    · rfl
    · exact hm
  | _ => exact hm

/-- A thread is out of the calls and holds the mutexes `h`, or is in one of the calls of a
list, each with the mutexes that the thread holds meanwhile. -/
def Serving {T : Type} (s : State T) (u : T) (ops : List (Op × (Nat → Bool))) (h : Nat → Bool) :
    Prop :=
  (∃ r, s.pc u = .out r) ∧ s.holds u = h ∨
    ∃ p ∈ ops, (s.pc u).During p.1 ∧ s.holds u = p.2

/-- All the calls of a list return with the mutexes `h`. -/
def Give (ops : List (Op × (Nat → Bool))) (h : Nat → Bool) : Prop :=
  ∀ p ∈ ops, ∀ m, h m = if p.1.gives = some m then true else p.2 m

theorem Serving.step {ops : List (Op × (Nat → Bool))} {h : Nat → Bool} (hserve : Serving s u ops h)
    (hops : Give ops h) (hs : Futex.step s a = some s') (hc : ∀ op, a ≠ .call u op) :
    Serving s' u ops h := by
  rcases hserve with ⟨⟨r, hp⟩, hh⟩ | ⟨p, hm, hp, hh⟩
  · obtain ⟨hp', hh'⟩ := step_out hs hp hc
    exact Or.inl ⟨⟨r, hp'⟩, hh'.trans hh⟩
  · rcases step_during hs hp with ⟨hp', hh'⟩ | ⟨r, hp', hh'⟩
    · exact Or.inr ⟨p, hm, hp', hh'.trans hh⟩
    · refine Or.inl ⟨⟨r, hp'⟩, funext fun m => ?_⟩
      rw [hh', hh, hops p hm m]

theorem Serving.start {ops : List (Op × (Nat → Bool))} {h f : Nat → Bool} (hh : s.holds u = f)
    (hs : Futex.step s (.call u op) = some s')
    (hm : (op, fun m => if op.needs = some m then false else f m) ∈ ops) :
    Serving s' u ops h := by
  obtain ⟨-, hp, -, hh'⟩ := step_call hs
  refine Or.inr ⟨_, hm, hp.symm ▸ start_during op, funext fun m => ?_⟩
  rw [hh', hh]

end Steps

end Oin17.Utils.Futex
