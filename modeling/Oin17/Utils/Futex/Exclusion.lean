import Oin17.Lib.Refine
import Oin17.Utils.Futex.Model

namespace Oin17.Utils.Futex
open Function Refine Run

/-- What happens to a mutex. -/
inductive Grant (T : Type) where
  | acquire (t : T) (m : Nat)
  | release (t : T) (m : Nat)

/-- What mutexes are for: each has an owner or none, and only the owner gives it up. -/
def grant {T : Type} [DecidableEq T] (o : Nat → Option T) : Grant T → Option (Nat → Option T)
  | .acquire t m => if o m = none then some (update o m (some t)) else none
  | .release t m => if o m = some t then some (update o m none) else none

/-- The mutex that an access locks. -/
def Mem.takes (s : Mem) : Pc → Option Nat
  | .trying m _ => if locked (s.u m) = 0 then some m else none
  | .taking m => if s.u m % 2 = 0 then some m else none
  | _ => none

/-- The mutex that an access unlocks. -/
def Mem.frees (s : Mem) : Pc → Option Nat
  | .freeing m _ => if s.u m = 1 then some m else none
  | .unlocking m _ => some m
  | _ => none

def State.grants {T : Type} (s : State T) : Act T → List (Grant T)
  | .run t => (s.mem.takes (s.pc t)).toList.map (.acquire t) ++
      (s.mem.frees (s.pc t)).toList.map (.release t)
  | _ => []

/-- The words that a mutex holds: `contended` and `locked` are 0 or 1, and the rest is 0. -/
def Valid (u : Nat) : Prop := u = 0 ∨ u = 1 ∨ u = 256 ∨ u = 257

/-- The mutex that a thread holds after a step from `p` to `q`, of those that the step is about. -/
def Pc.leaves (p : Pc) : Pc → Option Nat
  | .out r => p.gains (.out r)
  | q => q.holds

theorem leaves_of_holds {p q : Pc} (h : q.holds = some m) : p.leaves q = some m := by
  cases q <;> first | exact h | cases h

theorem gains_of_holds {p q : Pc} (h : q.holds = some m) : p.gains q = none := by
  cases q <;> first | (cases h; done) | (cases p <;> rfl)

theorem pc_holds (k : Then) (m : Nat) : (k.pc m).holds = none := by
  cases k <;> rfl

theorem Valid.setLocked (h : Valid u) (hx : x < 2) :
    Valid (setLocked u x) ∧ locked (setLocked u x) = x := by
  simp only [Valid, Futex.setLocked, locked] at h ⊢
  omega

theorem Valid.clear (h : Valid u) :
    Valid (clearContended u) ∧ locked (clearContended u) = locked u := by
  simp only [Valid, clearContended, locked] at h ⊢
  omega

theorem Valid.locked (h : Valid u) : locked u = u % 2 ∧ Futex.locked u < 2 := by
  simp only [Valid, Futex.locked] at h ⊢
  omega

/-- What an access does about the mutexes: it locks one that is free, unlocks one that the
thread holds, or neither. -/
inductive Locking (s : Mem) (p : Pc) (s' : Mem) (q : Pc) : Prop where
  | takes (m : Nat) (ht : s.takes p = some m) (hf : s.frees p = none)
      (hfree : locked (s.u m) = 0) (hp : p.holds = none) (hq : q.holds = none)
      (hl : p.leaves q = some m)
      (hu : ∀ x, locked (s'.u x) = if x = m then 1 else locked (s.u x))
  | frees (m : Nat) (ht : s.takes p = none) (hf : s.frees p = some m) (hp : p.holds = some m)
      (hl : p.leaves q = none) (hu : ∀ x, locked (s'.u x) = if x = m then 0 else locked (s.u x))
  | keeps (ht : s.takes p = none) (hf : s.frees p = none) (hl : p.leaves q = p.holds)
      (hu : ∀ x, locked (s'.u x) = locked (s.u x))

section Words
variable {s s' : Mem} {p q : Pc}

theorem valid_update {f : Nat → Nat} (h : ∀ x, Valid (f x)) (hu : Valid u) (x : Nat) :
    Valid (update f m u x) := by
  by_cases hx : x = m
  · rw [hx, update_self]
    exact hu
  · rw [update_of_ne hx]
    exact h x

theorem locked_update (f : Nat → Nat) (m u x : Nat) :
    locked (update f m u x) = if x = m then locked u else locked (f x) := by
  by_cases hx : x = m
  · rw [hx, update_self, if_pos rfl]
  · rw [update_of_ne hx, if_neg hx]

theorem locked_update_same (f : Nat → Nat) (m : Nat) (hu : locked u = locked (f m)) (x : Nat) :
    locked (update f m u x) = locked (f x) := by
  rw [locked_update, hu]
  split
  · rename_i hx
    rw [hx]
  · rfl

theorem leaves_pc (k : Then) (m : Nat) (hp : p.gains (.out 0) = none) :
    p.leaves (k.pc m) = none := by
  cases k with
  | caller => exact hp
  | wait c v => rfl

theorem access_locking (hs : ∀ x, Valid (s.u x)) (h : s.access p = some (s', q)) :
    (∀ x, Valid (s'.u x)) ∧ Locking s p s' q := by
  cases p with
  | out | asleep | dozing | waking | rousing => cases h
  | trying m i =>
    cases h
    obtain ⟨hv, hl⟩ := (hs m).setLocked (x := 1) (by decide)
    refine ⟨valid_update hs hv, ?_⟩
    by_cases hm : locked (s.u m) = 0
    · rw [if_pos hm]
      refine .takes m (if_pos hm) rfl hm rfl rfl rfl fun x => ?_
      rw [locked_update, hl]
    · have h1 : locked (s.u m) = 1 := by have := (hs m).locked; omega
      rw [if_neg hm]
      refine .keeps (if_neg hm) rfl ?_ (locked_update_same _ _ (hl.trans h1.symm))
      split <;> rfl
  | taking m =>
    cases h
    refine ⟨valid_update hs (.inr (.inr (.inr rfl))), ?_⟩
    have hlock := (hs m).locked
    by_cases hm : s.u m % 2 = 0
    · rw [if_pos hm]
      refine .takes m (if_pos hm) rfl (hlock.1.trans hm) rfl rfl rfl fun x => ?_
      rw [locked_update]
      rfl
    · rw [if_neg hm]
      refine .keeps (if_neg hm) rfl rfl (locked_update_same _ _ ?_)
      have : locked 257 = 1 := rfl
      omega
  | blocking m =>
    cases h
    refine ⟨hs, .keeps rfl rfl ?_ fun _ => rfl⟩
    split <;> rfl
  | peeking m k =>
    cases h
    refine ⟨hs, .keeps rfl rfl ?_ fun _ => rfl⟩
    split <;> rfl
  | freeing m k =>
    rw [Mem.access] at h
    by_cases hm : s.u m = 1
    · rw [if_pos hm] at h
      cases h
      refine ⟨valid_update hs (Or.inl rfl), .frees m rfl (if_pos hm) rfl (leaves_pc k m rfl) ?_⟩
      exact fun x => locked_update _ _ _ _
    · rw [if_neg hm] at h
      cases h
      exact ⟨hs, .keeps rfl (if_neg hm) rfl fun _ => rfl⟩
  | unlocking m k =>
    cases h
    obtain ⟨hv, hl⟩ := (hs m).setLocked (x := 0) (by decide)
    refine ⟨valid_update hs hv, .frees m rfl rfl rfl rfl fun x => ?_⟩
    rw [locked_update, hl]
  | hoping m k i =>
    cases h
    refine ⟨hs, .keeps rfl rfl ?_ fun _ => rfl⟩
    split
    · exact leaves_pc k m rfl
    · split <;> rfl
  | calming m k =>
    cases h
    obtain ⟨hv, hl⟩ := (hs m).clear
    exact ⟨valid_update hs hv, .keeps rfl rfl rfl (locked_update_same _ _ hl)⟩
  | noting c m =>
    cases h
    exact ⟨hs, .keeps rfl rfl rfl fun _ => rfl⟩
  | checking c m v =>
    cases h
    refine ⟨hs, .keeps rfl rfl ?_ fun _ => rfl⟩
    split <;> rfl
  | binding c m v =>
    cases h
    split
    · exact ⟨hs, .keeps rfl rfl rfl fun _ => rfl⟩
    · exact ⟨hs, .keeps rfl rfl rfl fun _ => rfl⟩
  | rechecking c m v =>
    cases h
    refine ⟨hs, .keeps rfl rfl ?_ fun _ => rfl⟩
    split <;> rfl
  | waiting c m v =>
    cases h
    refine ⟨hs, .keeps rfl rfl ?_ fun _ => rfl⟩
    split <;> rfl
  | signalling c =>
    cases h
    exact ⟨hs, .keeps rfl rfl rfl fun _ => rfl⟩

end Words

/-- A thread holds a mutex: it is between `mutex_lock` and `mutex_unlock` or `cond_wait`, or in
one of these two and has not unlocked it yet. -/
def State.Has (s : State T) (t : T) (m : Nat) : Prop :=
  s.holds t m = true ∨ (s.pc t).holds = some m

/-- The owners are those that hold the mutexes, whose words say whether there is one. -/
structure Owned (s : State T) (o : Nat → Option T) : Prop where
  valid : ∀ m, Valid (s.mem.u m)
  owner : ∀ m t, o m = some t ↔ s.Has t m
  locked : ∀ m, o m = none ↔ locked (s.mem.u m) = 0
  once : ∀ t m, (s.pc t).holds = some m → s.holds t m = false

theorem init_owned : Owned (init T) fun _ => none where
  valid _ := Or.inl rfl
  owner m t := by simp [State.Has, init, Pc.holds]
  locked m := by simp [init, Futex.locked]
  once t m h := by cases h

section Owners
variable {T : Type} {s : State T} {o : Nat → Option T} {t u : T}

theorem Owned.has_iff (h : Owned s o) (ht : s.Has t m) : s.Has u m ↔ u = t := by
  rw [← h.owner m u, (h.owner m t).mpr ht, Option.some.injEq, eq_comm]

/-- Nobody has a mutex that is free. -/
theorem Owned.free (h : Owned s o) (hm : Futex.locked (s.mem.u m) = 0) (t : T) : ¬ s.Has t m := by
  intro ht
  have := (h.locked m).mpr hm
  rw [(h.owner m t).mpr ht] at this
  cases this

end Owners

section Threads
variable {T : Type} [DecidableEq T] {s s' : State T} {o : Nat → Option T} {t u : T}
  {mem : Mem} {q : Pc} {op : Op}

@[simp] theorem goto_pc_self (s : State T) (t : T) (p : Pc) : (s.goto t p).pc t = p := by
  simp [State.goto]

theorem goto_pc_of_ne (s : State T) (p : Pc) (h : u ≠ t) : (s.goto t p).pc u = s.pc u := by
  simp [State.goto, h]

@[simp] theorem hold_pc (s : State T) (t : T) (m : Option Nat) (b : Bool) :
    (s.hold t m b).pc = s.pc := by
  cases m <;> rfl

@[simp] theorem hold_mem (s : State T) (t : T) (m : Option Nat) (b : Bool) :
    (s.hold t m b).mem = s.mem := by
  cases m <;> rfl

theorem hold_holds (s : State T) (t : T) (m : Option Nat) (b : Bool) (u : T) (x : Nat) :
    (s.hold t m b).holds u x = if u = t ∧ m = some x then b else s.holds u x := by
  cases m with
  | none => simp [State.hold]
  | some m =>
    by_cases hu : u = t
    · subst hu
      by_cases hx : m = x
      · subst hx
        simp [State.hold]
      · simp [State.hold, hx, update_of_ne (Ne.symm hx)]
    · simp [State.hold, hu]

@[simp] theorem move_mem (s : State T) (t : T) (mem : Mem) (q : Pc) : (s.move t mem q).mem = mem :=
  hold_mem _ _ _ _

@[simp] theorem move_pc (s : State T) (t : T) (mem : Mem) (q : Pc) :
    (s.move t mem q).pc = (s.goto t q).pc :=
  hold_pc _ _ _ _

theorem move_holds (s : State T) (t : T) (mem : Mem) (q : Pc) (u : T) (x : Nat) :
    (s.move t mem q).holds u x =
      if u = t ∧ (s.pc t).gains q = some x then true else s.holds u x :=
  hold_holds _ _ _ _ _ _

/-- A thread that moves holds what the move leaves it, beside what it held before. -/
theorem move_has (s : State T) (t : T) (mem : Mem) (q : Pc) (m : Nat) :
    (s.move t mem q).Has t m ↔ s.holds t m = true ∨ (s.pc t).leaves q = some m := by
  rw [State.Has, move_holds, move_pc, goto_pc_self]
  cases q with
  | out r => by_cases hg : (s.pc t).gains (.out r) = some m <;> simp [hg, Pc.leaves, Pc.holds]
  | _ => simp [Pc.leaves, Pc.gains]

theorem move_has_of_ne (s : State T) (mem : Mem) (q : Pc) (h : u ≠ t) (m : Nat) :
    (s.move t mem q).Has u m ↔ s.Has u m := by
  rw [State.Has, State.Has, move_holds, move_pc, goto_pc_of_ne s q h, if_neg (fun hc => h hc.1)]

theorem Owned.goto (h : Owned s o) (hp : (s.pc t).holds = none) (hq : q.holds = none) :
    Owned (s.goto t q) o where
  valid := h.valid
  owner m u := by
    rw [h.owner]
    by_cases hu : u = t
    · subst hu
      simp [State.Has, hp, hq, State.goto]
    · simp [State.Has, State.goto, hu]
  locked := h.locked
  once u m hm := by
    by_cases hu : u = t
    · subst hu
      rw [goto_pc_self, hq] at hm
      cases hm
    · rw [goto_pc_of_ne s q hu] at hm
      exact h.once u m hm

theorem start_holds (op : Op) : op.start.holds = op.needs := by
  cases op <;> rfl

/-- A call gives the mutex that it needs to the function. -/
theorem Owned.call (h : Owned s o) (hp : s.pc t = .out r) (hn : op.needs.all (s.holds t)) :
    Owned ((s.goto t op.start).hold t op.needs false) o where
  valid := by
    rw [hold_mem]
    exact h.valid
  owner m u := by
    rw [h.owner, State.Has, State.Has, hold_holds, hold_pc]
    by_cases hu : u = t
    · subst hu
      rw [goto_pc_self, start_holds, hp]
      by_cases hm : op.needs = some m
      · have hholds : s.holds u m = true := by simpa [hm] using hn
        simp [hm, hholds]
      · simp [hm, Pc.holds, State.goto]
    · simp [State.goto, hu]
  locked := by
    rw [hold_mem]
    exact h.locked
  once u m hm := by
    rw [hold_holds]
    rw [hold_pc] at hm
    by_cases hu : u = t
    · subst hu
      rw [goto_pc_self, start_holds] at hm
      rw [if_pos ⟨rfl, hm⟩]
    · rw [goto_pc_of_ne s _ hu] at hm
      rw [if_neg (fun hc => hu hc.1)]
      exact h.once u m hm

theorem Owned.move_once (h : Owned s o) (hlock : Locking s.mem (s.pc t) mem q) (u : T) (m : Nat)
    (hm : ((s.move t mem q).pc u).holds = some m) : (s.move t mem q).holds u m = false := by
  rw [move_pc] at hm
  rw [move_holds]
  by_cases hu : u = t
  · subst hu
    rw [goto_pc_self] at hm
    rw [gains_of_holds hm, if_neg (by simp)]
    have hl := leaves_of_holds (p := s.pc u) hm
    cases hlock with
    | takes _ _ _ _ _ hq => rw [hq] at hm; cases hm
    | frees _ _ _ _ hl' => rw [hl'] at hl; cases hl
    | keeps _ _ hl' => exact h.once u m (hl' ▸ hl)
  · rw [goto_pc_of_ne s q hu] at hm
    rw [if_neg (fun hc => hu hc.1)]
    exact h.once u m hm

/-- An access locks a mutex for nobody else's, unlocks the thread's own, or leaves all as it is. -/
theorem Owned.move (h : Owned s o) (ha : s.mem.access (s.pc t) = some (mem, q)) :
    ∃ o', exec grant o (s.grants (.run t)) = some o' ∧ Owned (s.move t mem q) o' := by
  obtain ⟨hv, hlock⟩ := access_locking h.valid ha
  have honce := h.move_once hlock
  cases hlock with
  | takes m ht hf hfree hp hq hl hu =>
    have hnone := (h.locked m).mpr hfree
    refine ⟨update o m (some t), ?_, ?_, fun x u => ?_, fun x => ?_, honce⟩
    · simp [State.grants, ht, hf, exec, grant, hnone]
    · exact fun x => (move_mem s t mem q).symm ▸ hv x
    · have hnot : ∀ u, ¬ s.Has u m := h.free hfree
      by_cases hut : u = t
      · subst hut
        rw [move_has, hl]
        by_cases hx : x = m
        · simp [hx]
        · rw [update_of_ne hx, h.owner, State.Has, hp]
          simp [Ne.symm hx]
      · rw [move_has_of_ne s mem q hut]
        by_cases hx : x = m
        · simp [hx, Ne.symm hut, hnot]
        · rw [update_of_ne hx, h.owner]
    · rw [move_mem, hu]
      by_cases hx : x = m
      · simp [hx]
      · rw [update_of_ne hx, if_neg hx, h.locked]
  | frees m ht hf hp hl hu =>
    have hhas : s.Has t m := Or.inr hp
    have hown := (h.owner m t).mpr hhas
    refine ⟨update o m none, ?_, ?_, fun x u => ?_, fun x => ?_, honce⟩
    · simp [State.grants, ht, hf, exec, grant, hown]
    · exact fun x => (move_mem s t mem q).symm ▸ hv x
    · by_cases hut : u = t
      · subst hut
        rw [move_has, hl]
        by_cases hx : x = m
        · simp [hx, h.once u m hp]
        · rw [update_of_ne hx, h.owner, State.Has, hp]
          simp [Ne.symm hx]
      · rw [move_has_of_ne s mem q hut]
        by_cases hx : x = m
        · simp [hx, h.has_iff hhas, hut]
        · rw [update_of_ne hx, h.owner]
    · rw [move_mem, hu]
      by_cases hx : x = m
      · simp [hx]
      · rw [update_of_ne hx, if_neg hx, h.locked]
  | keeps ht hf hl hu =>
    refine ⟨o, ?_, ?_, fun x u => ?_, fun x => ?_, honce⟩
    · simp [State.grants, ht, hf, exec]
    · exact fun x => (move_mem s t mem q).symm ▸ hv x
    · rw [h.owner]
      by_cases hut : u = t
      · subst hut
        rw [move_has, hl, State.Has]
      · rw [move_has_of_ne s mem q hut]
    · rw [move_mem, hu, h.locked]

theorem sleeps_holds {p : Pc} (h : p.sleeps = some a) :
    p.holds = none ∧ p.woken.holds = none := by
  cases p <;> first | (cases h; done) | exact ⟨rfl, rfl⟩

theorem wakes_holds {p : Pc} (h : p.wakes = some (a, q)) : p.holds = none ∧ q.holds = none := by
  cases p with
  | waking m k =>
    cases h
    exact ⟨rfl, pc_holds k m⟩
  | rousing c =>
    cases h
    exact ⟨rfl, rfl⟩
  | _ => cases h

variable [Fintype T]

/-- Every step of the threads is a step of the owners, or none. -/
theorem simulates_grant : Simulates (step (T := T)) grant State.grants Owned := by
  rintro s o a s' h hs
  cases took hs with
  | call hp hn => exact ⟨o, rfl, h.call hp hn⟩
  | run ha => exact h.move ha
  | @wake t w q u hw hu =>
    obtain ⟨hp, hq⟩ := wakes_holds hw
    obtain ⟨hp', hq'⟩ := sleeps_holds hu
    refine ⟨o, rfl, (h.goto hp' hq').goto ?_ hq⟩
    by_cases htu : t = u
    · subst htu
      rw [goto_pc_self]
      exact hq'
    · rw [goto_pc_of_ne s _ htu]
      exact hp
  | alone hw hu =>
    obtain ⟨hp, hq⟩ := wakes_holds hw
    exact ⟨o, rfl, h.goto hp hq⟩
  | spurious hw =>
    obtain ⟨hp, hq⟩ := sleeps_holds hw
    exact ⟨o, rfl, h.goto hp hq⟩

theorem run_owned {as : List (Act T)} (h : exec step (init T) as = some s) :
    ∃ o, exec grant (fun _ => none) (trace step State.grants (init T) as) = some o ∧ Owned s o :=
  simulates_grant.trace init_owned h

/-- In any interleaving of threads that unlock what they have locked, the mutexes are taken
and given up as by owners, one at a time, and the owner is the one thread that has the mutex. -/
theorem mutexes_owned (as : List (Act T)) (s : State T) (h : exec step (init T) as = some s) :
    ∃ o, exec grant (fun _ => none) (trace step State.grants (init T) as) = some o ∧
      ∀ m, (∀ t, o m = some t ↔ s.Has t m) ∧ (∀ t u, s.Has t m → s.Has u m → t = u) ∧
        (s.mem.u m ∈ [0, 1, 256, 257]) ∧ ((∃ t, s.Has t m) ↔ locked (s.mem.u m) = 1) := by
  obtain ⟨o, ho, hs⟩ := run_owned h
  refine ⟨o, ho, fun m => ⟨hs.owner m, fun t u ht hu => ?_, by simpa [Valid] using hs.valid m, ?_⟩⟩
  · exact (hs.has_iff hu).mp ht
  · have hlock := (hs.valid m).locked
    constructor
    · rintro ⟨t, ht⟩
      have : Futex.locked (s.mem.u m) ≠ 0 := fun h0 => hs.free h0 t ht
      omega
    · intro h1
      have hne : o m ≠ none := fun h0 => by
        have := (hs.locked m).mp h0
        omega
      obtain ⟨t, ht⟩ := Option.ne_none_iff_exists'.mp hne
      exact ⟨t, (hs.owner m t).mp ht⟩

end Threads

/-- A mutex that a thread takes over. -/
theorem mutexes_owned_two : ∃ o : Nat → Option (Fin 2),
    exec grant (fun _ => none) (trace step State.grants (init (Fin 2)) [.call 0 (.lock 7), .run 0,
      .call 0 (.unlock 7), .run 0, .run 0, .call 1 (.lock 7), .run 1]) = some o ∧
    o 7 = some 1 := by
  obtain ⟨o, ho, hm⟩ := mutexes_owned (T := Fin 2) [.call 0 (.lock 7), .run 0,
    .call 0 (.unlock 7), .run 0, .run 0, .call 1 (.lock 7), .run 1] _ rfl
  exact ⟨o, ho, ((hm 7).1 1).mpr (Or.inl rfl)⟩

end Oin17.Utils.Futex
