import Oin17.Chals.Parse
import Oin17.Lib.Run
import Oin17.Ws.Model

namespace Oin17.Mine
open Chals Loop Memory Ws

abbrev maxslv : Nat := 4

def noncemin : UInt64 := 30000000
def noncemax : UInt64 := 99999999 + 1

structure Solver where
  /-- Whether it points at `mchl.chal`, or nowhere. -/
  chl : Bool
  uq : Int
  nmin : UInt64
  nmax : UInt64

structure Slv where
  solvr : Solver
  pool : Int

/-- There are `maxslv` of `slvs`. -/
structure Chl where
  chal : Chal
  solved : Nat
  nslv : Nat
  slvs : Nat → Slv

/-- A reset of `solved`, or a nonce handed to `ca_submit` for the challenge of
that id, and whether it was sent. -/
inductive Mark where
  | reset
  | submit (id n : UInt64) (ok : Bool)
  deriving DecidableEq

structure Mining where
  uq : Int
  mchl : Chl
  /-- The solvers that the pools of threads run. -/
  jobs : Int → Option Nat
  /-- What happened so far, which the code does not keep. -/
  log : List Mark

def Chl.setSlv (h : Chl) (i : Nat) (f : Slv → Slv) : Chl :=
  { h with slvs := Function.update h.slvs i (f (h.slvs i)) }

def Chl.setPool (h : Chl) (i : Nat) (p : Int) : Chl := h.setSlv i fun s => { s with pool := p }

/-- What `startchal` sets before it starts solver `i`. -/
def Chl.prepare (h : Chl) (uq : Int) (i : Nat) : Chl :=
  { h.setSlv i fun s => { s with solvr := { s.solvr with chl := true, uq := uq } } with solved := 0 }

/-- The results of the calls that depend on what is outside of the miner, and
what the memory it reads before writing it holds. -/
structure Calls where
  /-- The challenge of `handle_newchal`. -/
  chal : Chal
  /-- The buffers of `parse_toks`. -/
  k : Buf
  v : Buf
  /-- Whether the challenge's notifications are registered for, now or before. -/
  added : Bool
  /-- The results of `solver_start`. -/
  starts : Nat → Int
  /-- Whether a new socket is registered for. -/
  registered : Bool

/-- One pass of the loop of `dropchal`. -/
def dropSlv (i : Nat) (g : Mining) : Mining :=
  let p := (g.mchl.slvs i).pool
  if p < 0 then g
  else { g with jobs := Function.update g.jobs p none, mchl := g.mchl.setPool i (-1) }

/-- The events of the old challenge are not reported any more after it, which
what `uevent` delivers does not depend on. -/
def dropchal (g : Mining) : Mining := forRange 0 g.mchl.nslv dropSlv g

/-- `solver_start`. There is no next state where a pool in use is given. -/
def solverStart (g : Mining) (i : Nat) (p : Int) : Option Mining :=
  if p < 0 then some g
  else if (g.jobs p).isSome then none
  else some { g with jobs := Function.update g.jobs p (some i) }

/-- The loop of `startchal` from solver `i` on, with the count of the solvers started. -/
def startSlvs (starts : Nat → Int) : Nat → Nat → Mining → Option (Nat × Mining)
  | 0, i, g => some (i, g)
  | n + 1, i, g =>
    let g := { g with mchl := g.mchl.prepare g.uq i, log := g.log ++ [.reset] }
    (solverStart g i (starts i)).bind fun g =>
      let g := { g with mchl := g.mchl.setPool i (starts i) }
      if starts i < 0 then some (i, g) else startSlvs starts n (i + 1) g

def startchal (g : Mining) (c : Calls) : Option (Int × Mining) :=
  if c.added = false then some (-1, g)
  else (startSlvs c.starts maxslv 0 g).map fun (i, g) =>
    (if i = 0 then -1 else 0, { g with mchl := { g.mchl with nslv := i } })

/-- `handle_newchal` up to `dropchal`: its result, or a new challenge. -/
def newchal (jsmn : Jsmn) (g : Mining) (buf : Buf) (len : Nat) (c : Calls) : Option (Int ⊕ Chal) :=
  (chalParse jsmn buf len c.k c.v c.chal).map fun (r, chal) =>
    if r ≠ 0 then .inl (-1)
    else if chal.id = g.mchl.chal.id then .inl 0
    else .inr chal

/-- The rest of `handle_newchal`. -/
def replacechal (g : Mining) (chal : Chal) (c : Calls) : Option (Int × Mining) :=
  let g := dropchal g
  startchal { g with mchl := { g.mchl with chal := chal } } c

def handleNewchal (jsmn : Jsmn) (g : Mining) (buf : Buf) (len : Nat) (c : Calls) :
    Option (Int × Mining) :=
  (newchal jsmn g buf len c).bind fun
    | .inl r => some (r, g)
    | .inr chal => replacechal g chal c

/-- What `mine` uses of the central authority, over the state of its connections. -/
structure Authority (ω : Type) where
  connect : ω → Int → Option (Int × ω)
  close : ω → Int → Option ω
  curchal : ω → Int → Option (Int × ω)
  submit : ω → Int → UInt64 → Option (Int × ω)
  recv : ω → Int → Buf → Option (Int × Buf × ω)

/-- The variables of `mine`, and those of the module. -/
structure Miner extends Mining where
  sk : Int
  conned : Bool
  b : Buf

/-- An event that `uevent` delivers. -/
inductive Uevent where
  | wsock (ident : Int) (fflags : Nat)
  | solvr (ident data : UInt64)
  | other

/-- How `mine` goes on: waiting, restarting, starting on a new challenge or quitting. -/
inductive Next where
  | wait (m : Miner)
  | restart (m : Miner)
  | replace (m : Miner) (chal : Chal)
  | quit

section
variable {ω : Type} (ca : Authority ω) (jsmn : Jsmn)

/-- What is done about a response of `len` bytes in `b`. -/
def respond (m : Miner) (len : Nat) (c : Calls) : Option Next :=
  let s := cstr m.b maxmsglen
  if bytes "last_solution_hash" <:+: s then
    (newchal jsmn m.toMining m.b len c).map fun
      | .inl r => if r ≠ 0 then .quit else .wait m
      | .inr chal => .replace m chal
  else if bytes "\"error\"" <:+: s then
    some (.wait { m with mchl := { m.mchl with solved := 0 }, log := m.log ++ [.reset] })
  else some (.wait m)

def sendnonce (w : ω) (sk : Int) (non : UInt64) : Option (Int × ω) :=
  (ca.submit w sk non).map fun (r, w) => (if r ≠ 0 then -1 else 0, w)

/-- What is done about a solution. -/
def solution (w : ω) (m : Miner) (ident data : UInt64) : Option (Next × ω) :=
  if ident ≠ m.mchl.chal.id then some (.wait m, w)
  else if m.mchl.solved ≠ 0 then some (.wait m, w)
  else
    let m := { m with mchl := { m.mchl with solved := 1 } }
    if m.conned then
      (sendnonce ca w m.sk data).map fun (r, w) =>
        (.wait { m with log := m.log ++ [.submit m.mchl.chal.id data (r = 0)] }, w)
    else some (.wait m, w)

/-- One pass of the loop of `mine`, up to the replacement of the challenge. -/
def handle (w : ω) (m : Miner) (c : Calls) : Uevent → Option (Next × ω)
  | .wsock ident fflags =>
    if m.sk ≠ ident then some (.wait m, w)
    else if qnoteClosed &&& fflags ≠ 0 then some (.restart m, w)
    else if qnoteConn &&& fflags ≠ 0 then
      let m := { m with conned := true }
      (ca.curchal w m.sk).map fun (r, w) => (if r ≠ 0 then .restart m else .wait m, w)
    else
      (ca.recv w m.sk m.b).bind fun (l, b, w) =>
        let m := { m with b := b }
        if l < 0 then some (.restart m, w)
        else (respond jsmn m l.toNat c).map fun n => (n, w)
  | .solvr ident data => solution ca w m ident data
  | .other => some (.wait m, w)

/-- From `L_START` up to the wait. There is no next state where `mine` returns. -/
def start (w : ω) (m : Miner) (c : Calls) : Option (Miner × ω) :=
  (ca.connect w m.uq).bind fun (sk, w) =>
    if sk < 0 ∨ c.registered = false then none
    else some ({ m with conned := false, sk := sk }, w)

/-- What follows a pass: from `L_RESTART` up to the wait, or the rest of `handle_newchal`. -/
def follow (w : ω) (c : Calls) : Next → Option (Miner × ω)
  | .wait m => some (m, w)
  | .restart m => (ca.close w m.sk).bind fun w => start ca w m c
  | .replace m chal => (replacechal m.toMining chal c).bind fun (r, g) =>
      if r ≠ 0 then none else some ({ m with toMining := g }, w)
  | .quit => none

/-- One pass of the loop of `mine`, back to the wait. -/
def mine (m : Miner × ω) (ev : Uevent × Calls) : Option (Miner × ω) :=
  (handle ca jsmn m.2 m.1 ev.2 ev.1).bind fun (n, w) => follow ca w ev.2 n

end

/-- A challenge in memory that is all zeros. -/
def Chal.zero : Chal where
  type := 0
  lhash _ := 0
  left := 0
  id := 0
  pfix _ := 0
  plen := 0
  size := 0
  nblks := 0

/-- What `init_mining` leaves when it succeeds, with the uqueue `uq`. -/
def initMining (uq : Int) : Mining where
  uq := uq
  mchl :=
    { chal := Chal.zero, solved := 0, nslv := 0
      slvs := (forRange 0 maxslv (fun i (s : UInt64 × (Nat → Slv)) =>
        let r := (noncemax - noncemin) / 4
        (s.1 + r, Function.update s.2 i
          { (s.2 i) with solvr := { (s.2 i).solvr with nmin := s.1, nmax := s.1 + r } }))
        (noncemin, fun _ => { solvr := { chl := false, uq := 0, nmin := 0, nmax := 0 }, pool := 0 })).2 }
  jobs _ := none
  log := []

end Oin17.Mine
