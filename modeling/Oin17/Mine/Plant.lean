import Oin17.Mine.Apart
import Oin17.Tpool.Requests

namespace Oin17.Mine
open Chals Function

/-- The address of `solver_solve`, which other functions of threads do not have. -/
def solverSolve : Tpool.Addr := 1

/-- Where `mine` is: at its wait, before the pass of `dropchal` or `startchal` for a
solver, or in the call of `solver_stop` or `solver_start` for it. -/
inductive Stage where
  | wait
  | drop (chal : Chal) (i : Nat)
  | stop (chal : Chal) (i : Nat)
  | start (i : Nat)
  | launch (i : Nat)

/-- The miner, and the pools with all that `tpool.c` does for them. -/
structure Plant (ω : Type) where
  w : ω
  m : Miner
  stage : Stage
  tp : Tpool.Crew
  /-- Where the threads are that are in the function of a solver. -/
  work : Nat → Place
  events : List (UInt64 × UInt64)
  finds : List (UInt64 × List Chal)

/-- A step of `mine`, in its own code or in a call of the pool's, or of a thread, in `thread_main`
or in a solver. -/
inductive PlantAct where
  | main (ev : Uevent) (c : Calls)
  | drop (added : Bool)
  | start
  | pool
  | returned
  | check (t : Nat)
  | call (t : Nat)
  | ret (t : Nat)
  | work (t : Nat) (a : Work)

/-- What `startchal` does before it starts solver `i`. -/
def Miner.prepared (m : Miner) (i : Nat) : Miner :=
  { m with mchl := m.mchl.prepare m.uq i, log := m.log ++ [.reset] }

section
variable {ω : Type}

def Plant.setWork (s : Plant ω) (t : Nat) (place : Place) : Plant ω :=
  { s with work := update s.work t place }

def Plant.tpool (npools : UInt64) (s : Plant ω) (a : Tpool.Act) : Option (Plant ω) :=
  (Tpool.crewStep npools s.tp a).map fun tp => { s with tp := tp }

def Plant.triggered (s : Plant ω) : Uevent → Bool
  | .solvr ident data => s.events.contains (ident, data)
  | _ => true

/-- A pass of the loop of `mine`, which is not over when the challenge is replaced. -/
def Plant.main (ca : Authority ω) (jsmn : Jsmn) (s : Plant ω) (ev : Uevent) (c : Calls) :
    Option (Plant ω) :=
  if s.triggered ev then
    (handle ca jsmn s.w s.m c ev).bind fun
      | (.replace m chal, w) => some { s with w := w, m := m, stage := .drop chal 0 }
      | (n, w) => (follow ca w c n).map fun (m, w) => { s with w := w, m := m }
  else none

/-- `dropchal` for solver `i`, up to the call of `solver_stop`, or what follows it up to the loop
of `startchal`. -/
def Plant.drop (npools : UInt64) (s : Plant ω) (chal : Chal) (i : Nat) (added : Bool) :
    Option (Plant ω) :=
  if i < s.m.mchl.nslv then
    if (s.m.mchl.slvs i).pool < 0 then some { s with stage := .drop chal (i + 1) }
    else { s with stage := .stop chal i }.tpool npools (.invoke (.stop (s.m.mchl.slvs i).pool))
  else if added then
    some { s with m := { s.m with mchl := { s.m.mchl with chal := chal } }, stage := .start 0 }
  else none

/-- `startchal` for solver `i`, up to the call of `solver_start`. -/
def Plant.start (npools : UInt64) (s : Plant ω) (i : Nat) : Option (Plant ω) :=
  if i < maxslv then
    { s with m := s.m.prepared i, stage := .launch i }.tpool npools
      (.invoke (.start 1 solverSolve i))
  else some { s with m := { s.m with mchl := { s.m.mchl with nslv := i } }, stage := .wait }

/-- The end of `solver_stop` or `solver_start`. There is no next state where no solver could be
started, which ends the program. -/
def Plant.returned (npools : UInt64) (s : Plant ω) : Option (Plant ω) :=
  match s.stage, s.tp.ctl with
  | .stop chal i, .busy _ (.done _ _) _ =>
    { s with m := { s.m with toMining := dropSlv i s.m.toMining }
             stage := .drop chal (i + 1) }.tpool npools .main
  | .launch i, .busy _ (.done r _) _ =>
    if r < 0 then
      if i = 0 then none
      else { s with m := { s.m with mchl := { s.m.mchl.setPool i r with nslv := i } }
                    stage := .wait }.tpool npools .main
    else
      { s with m := { s.m with mchl := s.m.mchl.setPool i r, jobs := update s.m.jobs r (some i) }
               stage := .start (i + 1) }.tpool npools .main
  | _, _ => none

/-- A step in the function of a solver. There is no next state where the type of the challenge is
unknown, which ends the program. -/
def Plant.solve (s : Plant ω) (t i : Nat) (a : Work) : Option (Plant ω) :=
  match a, s.work t with
  | .call, .called =>
    if (s.m.mchl.slvs i).solvr.chl ∧ s.m.mchl.chal.type ≤ chalSpath then
      some (s.setWork t (.solving [s.m.mchl.chal]))
    else none
  | .look, .solving seen => some (s.setWork t (.solving (seen ++ [s.m.mchl.chal])))
  | .find n, .solving seen =>
    some { s.setWork t (.solved n seen) with finds := s.finds ++ [(n, seen)] }
  | .giveUp, .solving _ => some (s.setWork t .idle)
  | .notify, .solved n _ =>
    some { s.setWork t .idle with events := s.events ++ [(s.m.mchl.chal.id, n)] }
  | _, _ => none

/-- A solver's function returns when it has nothing left to do, and another one at any time. -/
def Plant.mayReturn (s : Plant ω) (t : Nat) : Bool :=
  match s.tp.place t, s.work t with
  | .exec _ _ _, .idle => true
  | .exec _ f _, _ => f ≠ solverSolve
  | _, _ => false

def Plant.step (ca : Authority ω) (jsmn : Jsmn) (npools : UInt64) (s : Plant ω) :
    PlantAct → Option (Plant ω)
  | .main ev c =>
    match s.stage with
    | .wait => s.main ca jsmn ev c
    | _ => none
  | .drop added =>
    match s.stage with
    | .drop chal i => s.drop npools chal i added
    | _ => none
  | .start =>
    match s.stage with
    | .start i => s.start npools i
    | _ => none
  | .pool =>
    match s.tp.ctl with
    | .busy _ (.ask _ _ _) _ => s.tpool npools .main
    | _ => none
  | .returned => s.returned npools
  | .check t => s.tpool npools (.check t)
  | .call t => (s.setWork t .called).tpool npools (.call t)
  | .ret t => if s.mayReturn t then s.tpool npools (.ret t) else none
  | .work t a =>
    match s.tp.place t with
    | .exec _ f i => if f = solverSolve then s.solve t i a else none
    | _ => none

/-- `mine` at its first wait, with the pool as it is then. -/
def Plant.init (w : ω) (m : Miner) (tp : Tpool.Crew) : Plant ω where
  w := w
  m := m
  stage := .wait
  tp := tp
  work _ := .idle
  events := []
  finds := []

end

end Oin17.Mine
