import Mathlib.Logic.Function.Basic
import Oin17.Lib.Dialogue

namespace Oin17.Tpool
open Dialogue Function

abbrev Addr := Nat

/-- `struct pool`. Threads are known by their number. -/
structure Pool where
  max : Nat
  func : Addr
  arg : Addr
  nthreads : Nat
  threads : Option Nat

/-- What the calls of the module keep: the fields `pool` and `next` of the threads, the
pools and `njobs`. -/
structure Vars where
  pool : Nat → Option Nat
  next : Nat → Option Nat
  pools : Nat → Pool
  njobs : UInt64

/-- The fields of the threads that they share with the calls. -/
structure Flags where
  canrun : Nat → Bool
  running : Nat → Bool

/-- What a call asks of a thread: the locked section of `thread_stop` or `thread_start`,
which set `canrun` and wait for `running` to follow, or the value of `running`, which is
the answer to both. -/
inductive Req where
  | set (t : Nat) (canrun : Bool)
  | running (t : Nat)

abbrev Tp := Code Req Bool Vars

def Vars.setPool (s : Vars) (p : Nat) (f : Pool → Pool) : Vars :=
  { s with pools := update s.pools p (f (s.pools p)) }

/-- The end of `thread_stop`, for a thread of pool `p`. -/
def Vars.unlink (s : Vars) (t p : Nat) : Vars :=
  s.setPool p fun pl => { pl with threads := s.next t, nthreads := pl.nthreads - 1 }

/-- The beginning of `thread_start`. -/
def Vars.link (s : Vars) (t p : Nat) : Vars :=
  { s.setPool p fun pl => { pl with threads := some t, nthreads := pl.nthreads + 1 } with
    pool := update s.pool t (some p)
    next := update s.next t (s.pools p).threads }

def threadStop (t : Nat) : Tp Unit := do
  let _ ← ask (.set t false)
  match (← get).pool t with
  | none => crash
  | some p => modify (·.unlink t p)

def threadStart (t p : Nat) : Tp Unit := do
  modify (·.link t p)
  let _ ← ask (.set t true)

/-- The loop of `__start` that assigns threads, over the threads that are left. -/
def assign (pi : Nat) : List Nat → Tp Unit
  | [] => pure ()
  | i :: is => do
    let pl := (← get).pools pi
    if pl.nthreads = pl.max then pure ()
    else if ← ask (.running i) then assign pi is
    else do
      threadStart i pi
      assign pi is

/-- The loop of `__start` that steals a thread, over the pools that are left. -/
def steal : List Nat → Tp Unit
  | [] => pure ()
  | i :: is => do
    let pl := (← get).pools i
    if pl.nthreads = 1 then steal is
    else match pl.threads with
      | none => crash
      | some th => do
        threadStop th
        threadStart th i

section
variable (npools : UInt64)

/-- `__start` -/
def start (pi : Nat) : Tp Int := do
  if npools - (← get).njobs ≠ 0 then assign pi (List.range npools.toNat)
  else steal (List.range npools.toNat)
  modify fun s => { s with njobs := s.njobs + 1 }
  pure pi

def tpoolStart (max : Nat) (func arg : Addr) : Tp Int := do
  let s ← get
  match (List.range npools.toNat).find? fun p => (s.pools p).threads.isNone with
  | none => pure (-1)
  | some p => do
    modify (·.setPool p fun _ => ⟨max, func, arg, 0, none⟩)
    start npools p

/-- The inner loop of `redistribute_threads`: the first thread from `t` on that is not
running, or `npools`. -/
def nextIdle (t : Nat) : Nat → Tp Nat
  | 0 => pure t
  | n + 1 => do
    if ← ask (.running t) then nextIdle (t + 1) n else pure t

/-- The loop of `redistribute_threads` over the pools. There is no result when it is
out of threads, which ends the function. -/
def sharePass : List Nat → Nat → Nat → Tp (Option (Nat × Nat))
  | [], t, n => pure (some (t, n))
  | p :: ps, t, n => do
    let pl := (← get).pools p
    if pl.nthreads = 0 ∨ pl.nthreads = pl.max then sharePass ps t n
    else do
      let t ← nextIdle t (npools.toNat - t)
      if t < npools.toNat then
        threadStart t p
        sharePass ps t (n + 1)
      else pure none

/-- The passes of `redistribute_threads`. -/
def redistributeThreads : Nat → Nat → Tp Unit
  | 0, _ => crash
  | fuel + 1, t => do
    match ← sharePass npools (List.range npools.toNat) t 0 with
    | none => pure ()
    | some (t, n) => if n = 0 then pure () else redistributeThreads fuel t

/-- The loop of `tpool_stop`. -/
def stopThreads (id : Nat) : Nat → Tp Unit
  | 0 => crash
  | fuel + 1 => do
    match ((← get).pools id).threads with
    | none => pure ()
    | some th => do
      threadStop th
      stopThreads id fuel

/-- Each thread is stopped or started once at most, so that the two loops end within
as many passes and one more. -/
def tpoolStop (id : Int) : Tp Int := do
  if 0 ≤ id ∧ id < npools.toNat then do
    stopThreads id.toNat (npools.toNat + 1)
    redistributeThreads npools (npools.toNat + 1) 0
    modify fun s => { s with njobs := s.njobs - 1 }
    pure 0
  else pure (-1)

inductive Call where
  | start (max : Nat) (func arg : Addr)
  | stop (id : Int)

def Call.code : Call → Tp Int
  | .start max func arg => tpoolStart npools max func arg
  | .stop id => tpoolStop npools id

end

def Flags.set (e : Flags) (t : Nat) (b : Bool) : Flags :=
  { canrun := update e.canrun t b, running := update e.running t b }

/-- What a request leads to when the thread answers at once. -/
def Flags.answer : Req → Flags → Bool × Flags
  | .set t b, e => (b, e.set t b)
  | .running t, e => (e.running t, e)

/-- A call whose requests are met at once, with its result. -/
def Call.run (npools : UInt64) (c : Call) (s : Vars × Flags) : Option (Int × Vars × Flags) :=
  (c.code npools s.1).atomic Flags.answer s.2

/-- There is no next state when a null thread is dereferenced. -/
def step (npools : UInt64) (s : Vars × Flags) (c : Call) : Option (Vars × Flags) :=
  (c.run npools s).map Prod.snd

/-- The memory after `init_tpool`. -/
def init : Vars × Flags :=
  ({ pool := fun _ => none, next := fun _ => none, pools := fun _ => ⟨0, 0, 0, 0, none⟩, njobs := 0 },
    { canrun := fun _ => false, running := fun _ => false })

end Oin17.Tpool
