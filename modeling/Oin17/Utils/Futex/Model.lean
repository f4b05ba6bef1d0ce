import Mathlib.Algebra.Ring.Nat
import Mathlib.Data.Fintype.Basic
import Mathlib.Logic.Function.Basic
import Oin17.Lib.Run

namespace Oin17.Utils.Futex
open Function

def einval : Nat := 22

/-- `b.locked` of the word of a mutex, its lowest byte. -/
def locked (u : Nat) : Nat := u % 256

def setLocked (u x : Nat) : Nat := u / 256 * 256 + x

/-- The word after `b.contended = 0`, its second byte. -/
def clearContended (u : Nat) : Nat := u / 65536 * 65536 + u % 256

/-- Where `mutex_unlock` goes when it is done: to its caller, or on in `cond_wait`, which
has read `seq` of `c`. -/
inductive Then where
  | caller
  | wait (c s : Nat)
  deriving DecidableEq

/-- The next access to memory, or call of the kernel, of a thread. Mutexes and condition
variables are known by their addresses. -/
inductive Pc where
  /-- Outside of the module, and what the last call returned. -/
  | out (r : Nat)
  /-- `xchg8` of `mutex_lock`, after `i` tries. -/
  | trying (m i : Nat)
  /-- `xchg32` of `mutex_lock` and of `cond_wait`. -/
  | taking (m : Nat)
  /-- `FUTEX_WAIT` on the mutex. -/
  | blocking (m : Nat)
  /-- In that call. -/
  | asleep (m : Nat)
  /-- `1 == m->u` -/
  | peeking (m : Nat) (k : Then)
  /-- `cmpxchg(&m->u, 1, 0)` -/
  | freeing (m : Nat) (k : Then)
  /-- `m->b.locked = 0` -/
  | unlocking (m : Nat) (k : Then)
  /-- `0 != m->b.locked`, after `i` reads. -/
  | hoping (m : Nat) (k : Then) (i : Nat)
  /-- `m->b.contended = 0` -/
  | calming (m : Nat) (k : Then)
  /-- `FUTEX_WAKE` on the mutex. -/
  | waking (m : Nat) (k : Then)
  /-- `s = c->seq` -/
  | noting (c m : Nat)
  /-- `m != c->m`, before and after the mutex is bound. -/
  | checking (c m s : Nat)
  | binding (c m s : Nat)
  | rechecking (c m s : Nat)
  /-- `FUTEX_WAIT` on `c->seq`. -/
  | waiting (c m s : Nat)
  /-- In that call. -/
  | dozing (c m : Nat)
  /-- `atomic_add(&c->seq, 1)` -/
  | signalling (c : Nat)
  /-- `FUTEX_WAKE` on `c->seq`. -/
  | rousing (c : Nat)
  deriving DecidableEq

/-- The words of the mutexes, and the condition variables. -/
structure Mem where
  u : Nat → Nat
  m : Nat → Option Nat
  seq : Nat → Nat

def Then.pc (m : Nat) : Then → Pc
  | .caller => .out 0
  | .wait c s => .waiting c m s

/-- An access to memory, or a `FUTEX_WAIT`. Each of them is atomic, and seen by the
threads in one order. -/
def Mem.access (s : Mem) : Pc → Option (Mem × Pc)
  | .trying m i =>
    some ({ s with u := update s.u m (setLocked (s.u m) 1) },
      if locked (s.u m) = 0 then .out 0 else if i + 1 < 100 then .trying m (i + 1) else .taking m)
  | .taking m =>
    some ({ s with u := update s.u m 257 }, if s.u m % 2 = 0 then .out 0 else .blocking m)
  | .blocking m => some (s, if s.u m = 257 then .asleep m else .taking m)
  | .peeking m k => some (s, if s.u m = 1 then .freeing m k else .unlocking m k)
  | .freeing m k =>
    if s.u m = 1 then some ({ s with u := update s.u m 0 }, k.pc m) else some (s, .unlocking m k)
  | .unlocking m k => some ({ s with u := update s.u m (setLocked (s.u m) 0) }, .hoping m k 0)
  | .hoping m k i =>
    some (s, if locked (s.u m) ≠ 0 then k.pc m
      else if i + 1 < 200 then .hoping m k (i + 1) else .calming m k)
  | .calming m k => some ({ s with u := update s.u m (clearContended (s.u m)) }, .waking m k)
  | .noting c m => some (s, .checking c m (s.seq c))
  | .checking c m v => some (s, if s.m c = some m then .peeking m (.wait c v) else .binding c m v)
  | .binding c m v =>
    some (if s.m c = none then { s with m := update s.m c (some m) } else s, .rechecking c m v)
  | .rechecking c m v => some (s, if s.m c = some m then .peeking m (.wait c v) else .out einval)
  | .waiting c m v => some (s, if s.seq c = v then .dozing c m else .taking m)
  | .signalling c => some ({ s with seq := update s.seq c ((s.seq c + 1) % 2 ^ 32) }, .rousing c)
  | .out _ | .asleep _ | .dozing _ _ | .waking _ _ | .rousing _ => none

/-- What a thread sleeps on, which is a word of a mutex or of a condition variable. -/
inductive Word where
  | mutex (m : Nat)
  | cv (c : Nat)
  deriving DecidableEq

def Pc.sleeps : Pc → Option Word
  | .asleep m => some (.mutex m)
  | .dozing c _ => some (.cv c)
  | _ => none

/-- The end of a `FUTEX_WAIT`. -/
def Pc.woken : Pc → Pc
  | .asleep m => .taking m
  | .dozing _ m => .taking m
  | p => p

/-- A `FUTEX_WAKE`, and what follows it. -/
def Pc.wakes : Pc → Option (Word × Pc)
  | .waking m k => some (.mutex m, k.pc m)
  | .rousing c => some (.cv c, .out 0)
  | _ => none

/-- The mutex that a thread holds by where it is. -/
def Pc.holds : Pc → Option Nat
  | .peeking m _ | .freeing m _ | .unlocking m _ => some m
  | .noting _ m | .checking _ m _ | .binding _ m _ | .rechecking _ m _ => some m
  | _ => none

/-- The mutex that a thread holds when it goes on from `p` to `q`, if that is a return. -/
def Pc.gains (p q : Pc) : Option Nat :=
  match p, q with
  | .trying m _, .out _ | .taking m, .out _ | .rechecking _ m _, .out _ => some m
  | _, _ => none

inductive Op where
  | lock (m : Nat)
  | unlock (m : Nat)
  | wait (c m : Nat)
  | signal (c : Nat)
  deriving DecidableEq

def Op.start : Op → Pc
  | .lock m => .trying m 0
  | .unlock m => .peeking m .caller
  | .wait c m => .noting c m
  | .signal c => .signalling c

/-- The mutex that a caller must hold. -/
def Op.needs : Op → Option Nat
  | .unlock m | .wait _ m => some m
  | _ => none

/-- The threads `T`, and the mutexes that each of them holds as far as it knows. -/
structure State (T : Type) where
  mem : Mem
  pc : T → Pc
  holds : T → Nat → Bool

/-- A call, the next access of a thread, a `FUTEX_WAKE` with the thread that it wakes up,
if there is one, or the end of a `FUTEX_WAIT` for no reason. -/
inductive Act (T : Type) where
  | call (t : T) (op : Op)
  | run (t : T)
  | wake (t : T) (u : Option T)
  | spurious (t : T)

def Act.actor {T : Type} : Act T → T
  | .call t _ | .run t | .wake t _ | .spurious t => t

section
variable {T : Type} [DecidableEq T]

def State.hold (s : State T) (t : T) (m : Option Nat) (b : Bool) : State T :=
  match m with
  | none => s
  | some m => { s with holds := update s.holds t (update (s.holds t) m b) }

def State.goto (s : State T) (t : T) (p : Pc) : State T := { s with pc := update s.pc t p }

/-- The end of an access. -/
def State.move (s : State T) (t : T) (mem : Mem) (p : Pc) : State T :=
  { s.goto t p with mem := mem }.hold t ((s.pc t).gains p) true

variable [Fintype T]

def step (s : State T) : Act T → Option (State T)
  | .call t op =>
    match s.pc t with
    | .out _ =>
      if op.needs.all (s.holds t) then some ((s.goto t op.start).hold t op.needs false) else none
    | _ => none
  | .run t => (s.mem.access (s.pc t)).map fun (mem, p) => s.move t mem p
  | .wake t u =>
    match (s.pc t).wakes, u with
    | some (a, p), some u =>
      if (s.pc u).sleeps = some a then some ((s.goto u (s.pc u).woken).goto t p) else none
    | some (a, p), none => if ∀ u, (s.pc u).sleeps ≠ some a then some (s.goto t p) else none
    | none, _ => none
  | .spurious t => if (s.pc t).sleeps.isSome then some (s.goto t (s.pc t).woken) else none

/-- The steps by what happens in them. -/
inductive Took (s : State T) : Act T → State T → Prop where
  | call (hp : s.pc t = .out r) (hn : op.needs.all (s.holds t)) :
      Took s (.call t op) ((s.goto t op.start).hold t op.needs false)
  | run (ha : s.mem.access (s.pc t) = some (mem, q)) : Took s (.run t) (s.move t mem q)
  | wake (hw : (s.pc t).wakes = some (w, q)) (hu : (s.pc u).sleeps = some w) :
      Took s (.wake t (some u)) ((s.goto u (s.pc u).woken).goto t q)
  | alone (hw : (s.pc t).wakes = some (w, q)) (hu : ∀ u, (s.pc u).sleeps ≠ some w) :
      Took s (.wake t none) (s.goto t q)
  | spurious (hs : (s.pc t).sleeps = some w) : Took s (.spurious t) (s.goto t (s.pc t).woken)

theorem took {s s' : State T} {a : Act T} (h : step s a = some s') : Took s a s' := by
  cases a with
  | call t op =>
    rw [step] at h
    split at h
    · rename_i r hp
      split at h
      · rename_i hn
        cases h
        exact .call hp hn
      · cases h
    · cases h
  | run t =>
    obtain ⟨⟨mem, q⟩, ha, rfl⟩ := Option.map_eq_some_iff.mp h
    exact .run ha
  | wake t u =>
    cases hw : (s.pc t).wakes with
    | none => simp [step, hw] at h
    | some wq =>
      obtain ⟨w, q⟩ := wq
      cases u with
      | some u =>
        simp only [step, hw, Option.ite_none_right_eq_some, Option.some.injEq] at h
        obtain ⟨hu, rfl⟩ := h
        exact .wake hw hu
      | none =>
        simp only [step, hw, Option.ite_none_right_eq_some, Option.some.injEq] at h
        obtain ⟨hu, rfl⟩ := h
        exact .alone hw hu
  | spurious t =>
    simp only [step, Option.ite_none_right_eq_some, Option.some.injEq] at h
    obtain ⟨hs, rfl⟩ := h
    obtain ⟨w, hw⟩ := Option.isSome_iff_exists.mp hs
    exact .spurious hw

end

/-- No mutex is locked, and no thread is in the module. -/
def init (T : Type) : State T where
  mem := { u := fun _ => 0, m := fun _ => none, seq := fun _ => 0 }
  pc _ := .out 0
  holds _ _ := false

end Oin17.Utils.Futex
