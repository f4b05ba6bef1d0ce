import Oin17.Mine.Model

namespace Oin17.Mine
open Chals

/-- Where a thread is: in the loop of `thread_main`, in the function of its pool,
or in a solver, with what it read of the challenge and the nonce it found. -/
inductive Place where
  | idle
  | called
  | solving (seen : List Chal)
  | solved (n : UInt64) (seen : List Chal)

/-- A thread of `tpool`. `arg` is the solver it runs, unless its pool has
another function. -/
structure Thread where
  canrun : Bool
  running : Bool
  arg : Option Nat
  place : Place

/-- The part of `thread_main` under the lock, after which it waits or calls the function. -/
def Thread.check (th : Thread) : Thread :=
  if th.canrun then { th with running := true, place := .called } else { th with running := false }

/-- Where `mine` is: at its wait, before the pass of `dropchal` or `startchal` for a
solver, or in the waits of `thread_stop` and `thread_start`. -/
inductive Pc where
  | wait
  | drop (chal : Chal) (i : Nat)
  | stop (chal : Chal) (i t : Nat)
  | start (i : Nat)
  | wake (i : Nat) (p : Int) (t : Nat)

/-- The miner and the threads. A pool of `tpool` has one thread at most here, since
all are started for one. -/
structure Crew (ω : Type) where
  w : ω
  m : Miner
  pc : Pc
  threads : Nat → Thread
  pools : Int → Option Nat
  /-- The events triggered so far, with their data. -/
  events : List (UInt64 × UInt64)
  /-- The nonces found so far, with what was read of the challenge. -/
  finds : List (UInt64 × List Chal)

/-- A step of a thread: its part of `thread_main`, the call of the
solver's function, one more look at the challenge, its two outcomes, and the event. -/
inductive Work where
  | check
  | call
  | look
  | find (n : UInt64)
  | giveUp
  | notify

inductive Act where
  | main (ev : Uevent) (c : Calls)
  | drop (added : Bool)
  | stopped
  | start (p : Int) (t : Nat)
  | started
  | work (t : Nat) (a : Work)

section
variable {ω : Type}

def Crew.setThread (s : Crew ω) (t : Nat) (f : Thread → Thread) : Crew ω :=
  { s with threads := Function.update s.threads t (f (s.threads t)) }

/-- `uevent` only delivers for a challenge what was triggered for it. -/
def Crew.Triggered (s : Crew ω) : Uevent → Prop
  | .solvr ident data => (ident, data) ∈ s.events
  | _ => True

instance (s : Crew ω) (ev : Uevent) : Decidable (s.Triggered ev) := by
  cases ev <;> unfold Crew.Triggered <;> infer_instance

/-- A pass of the loop of `mine`, which is not over when the challenge is replaced. -/
def Crew.main (ca : Authority ω) (jsmn : Jsmn) (s : Crew ω) (ev : Uevent) (c : Calls) :
    Option (Crew ω) :=
  if s.Triggered ev then
    (handle ca jsmn s.w s.m c ev).bind fun
      | (.replace m chal, w) => some { s with w := w, m := m, pc := .drop chal 0 }
      | (n, w) => (follow ca w c n).map fun (m, w) => { s with w := w, m := m }
  else none

/-- `dropchal` for solver `i`, up to the wait of `thread_stop`, or what follows it up
to the loop of `startchal`. -/
def Crew.drop (s : Crew ω) (chal : Chal) (i : Nat) (added : Bool) : Option (Crew ω) :=
  if i < s.m.mchl.nslv then
    match if (s.m.mchl.slvs i).pool < 0 then none else s.pools (s.m.mchl.slvs i).pool with
    | some t => some
        { s.setThread t fun th => { th with canrun := false } with pc := .stop chal i t }
    | none => some
        { s with m := { s.m with toMining := dropSlv i s.m.toMining }, pc := .drop chal (i + 1) }
  else if added then
    some { s with m := { s.m with mchl := { s.m.mchl with chal := chal } }, pc := .start 0 }
  else none

/-- The end of `thread_stop`, after which the pool has no thread. -/
def Crew.stopped (s : Crew ω) (chal : Chal) (i t : Nat) : Option (Crew ω) :=
  if (s.threads t).running then none
  else some { s with
    m := { s.m with toMining := dropSlv i s.m.toMining }
    pools := Function.update s.pools (s.m.mchl.slvs i).pool none
    pc := .drop chal (i + 1) }

/-- `startchal` for solver `i`, up to the wait of `thread_start`. A pool without a
thread and a thread that is not running are taken, where `tpool_start` succeeds. -/
def Crew.start (s : Crew ω) (i : Nat) (p : Int) (t : Nat) : Option (Crew ω) :=
  if i < maxslv then
    (solverStart { s.m.toMining with
        mchl := s.m.mchl.prepare s.m.uq i, log := s.m.log ++ [.reset] } i p).bind fun g =>
      if p < 0 then
        if i = 0 then none
        else some { s with
          m := { s.m with toMining := { g with mchl := { g.mchl.setPool i p with nslv := i } } }
          pc := .wait }
      else if (s.pools p).isSome ∨ (s.threads t).running then none
      else some { s.setThread t fun th => { th with canrun := true, arg := some i } with
        m := { s.m with toMining := g }
        pools := Function.update s.pools p (some t)
        pc := .wake i p t }
  else some { s with m := { s.m with mchl := { s.m.mchl with nslv := i } }, pc := .wait }

/-- The end of `thread_start`, after which the pool is known. -/
def Crew.started (s : Crew ω) (i : Nat) (p : Int) (t : Nat) : Option (Crew ω) :=
  if (s.threads t).running then
    some { s with m := { s.m with mchl := s.m.mchl.setPool i p }, pc := .start (i + 1) }
  else none

/-- A thread reads the challenge where `mine` keeps it. There is no next state where
its type is unknown, which ends the program. -/
def Crew.work (s : Crew ω) (t : Nat) (a : Work) : Option (Crew ω) :=
  match a, (s.threads t).place with
  | .check, .idle => some (s.setThread t Thread.check)
  | .call, .called =>
    match (s.threads t).arg with
    | none => none
    | some i =>
      if (s.m.mchl.slvs i).solvr.chl ∧ s.m.mchl.chal.type ≤ chalSpath then
        some (s.setThread t fun th => { th with place := .solving [s.m.mchl.chal] })
      else none
  | .look, .solving seen =>
    some (s.setThread t fun th => { th with place := .solving (seen ++ [s.m.mchl.chal]) })
  | .find n, .solving seen => some
      { s.setThread t fun th => { th with place := .solved n seen } with
        finds := s.finds ++ [(n, seen)] }
  | .giveUp, .solving _ => some (s.setThread t fun th => { th with place := .idle })
  | .notify, .solved n _ => some
      { s.setThread t fun th => { th with place := .idle } with
        events := s.events ++ [(s.m.mchl.chal.id, n)] }
  | _, _ => none

def Crew.step (ca : Authority ω) (jsmn : Jsmn) (s : Crew ω) (a : Act) : Option (Crew ω) :=
  match a, s.pc with
  | .main ev c, .wait => s.main ca jsmn ev c
  | .drop added, .drop chal i => s.drop chal i added
  | .stopped, .stop chal i t => s.stopped chal i t
  | .start p t, .start i => s.start i p t
  | .started, .wake i p t => s.started i p t
  | .work t a, _ => s.work t a
  | _, _ => none

/-- `mine` at its first wait. The threads that are `busy` run other functions. -/
def Crew.init (w : ω) (m : Miner) (busy : Nat → Bool) : Crew ω where
  w := w
  m := m
  pc := .wait
  threads t :=
    { canrun := busy t, running := busy t, arg := none, place := if busy t then .called else .idle }
  pools _ := none
  events := []
  finds := []

end

end Oin17.Mine
