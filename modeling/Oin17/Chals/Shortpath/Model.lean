import Oin17.Lib.Cint
import Oin17.Lib.Loop
import Oin17.Lib.Memory
import Oin17.Utils.U64str

namespace Oin17.Chals
open Cint Loop Memory Utils

/-- The number of directions we can move. -/
def ndirs : Nat := 4

/-- `'x'`, the character of a wall or a blocker. -/
def wall : UInt8 := 120

/-- A pointer to a cell is its index in the cells array, and nil is `none`. -/
structure Cell where
  x : Int
  y : Int
  /-- Cost from src. -/
  c : Int
  /-- Parent. -/
  p : Option Nat
  qn : Option Nat
  qp : Option Nat

structure Shortpath where
  /-- The maximum grid width we can solve. -/
  max : Nat
  /-- The current challenge's grid width. -/
  size : Nat
  grid : Buf
  /-- Solution string buffer. -/
  sol : Buf
  cells : Nat → Cell
  q : Option Nat
  src : Nat
  dst : Nat

/-- Assigning through a pointer to a cell. -/
def Shortpath.upd (sp : Shortpath) (i : Nat) (f : Cell → Cell) : Shortpath :=
  { sp with cells := Function.update sp.cells i (f (sp.cells i)) }

def costcmp (a b : Cell) : Int :=
  if a.c ≠ b.c then a.c - b.c
  else if a.y ≠ b.y then a.y - b.y
  else a.x - b.x

/-- One pass of the scan in `qadd`, at `p`. -/
def qaddBody (sp : Shortpath) (cl p : Nat) : Option (Nat ⊕ Shortpath) :=
  match (sp.cells p).qn with
  | some n =>
    if 0 < costcmp (sp.cells n) (sp.cells cl) then
      -- insertion p,cl,p->qn
      let sp := sp.upd cl fun c => { c with qn := some n, qp := some p }
      let sp := sp.upd n fun c => { c with qp := some cl }
      some (.inr (sp.upd p fun c => { c with qn := some cl }))
    else some (.inl n)
  | none =>
    -- tail
    let sp := sp.upd p fun c => { c with qn := some cl }
    some (.inr (sp.upd cl fun c => { c with qp := some p, qn := none }))

def qadd (fuel : Nat) (sp : Shortpath) (cl : Nat) : Option Shortpath :=
  match sp.q with
  | none => some ({ sp with q := some cl }.upd cl fun c => { c with qp := none, qn := none })
  | some h =>
    if 0 < costcmp (sp.cells h) (sp.cells cl) then
      -- the head costs more, replace
      let sp := sp.upd cl fun c => { c with qn := some h, qp := none }
      some ({ sp with q := some cl }.upd h fun c => { c with qp := some cl })
    else run (qaddBody sp cl) fuel h

def qpop (sp : Shortpath) : Option Nat × Shortpath :=
  match sp.q with
  | none => (none, sp)
  | some p =>
    let next := (sp.cells p).qn
    let sp := { sp with q := next }.upd p fun c => { c with qn := none }
    match next with
    | none => (some p, sp)
    | some h => (some p, sp.upd h fun c => { c with qp := none })

/-- A cell is queued if it is the head or has a previous cell. -/
def qfind (sp : Shortpath) (cl : Nat) : Bool := sp.q == some cl || (sp.cells cl).qp.isSome

/-- One pass of the scan in `qdel`, at `p`. -/
def qdelBody (sp : Shortpath) (cl p : Nat) : Option (Nat ⊕ Shortpath) :=
  match (sp.cells p).qn with
  | none => some (.inr sp)
  | some n =>
    if cl = n then
      let next := (sp.cells cl).qn
      let sp := sp.upd p fun c => { c with qn := next }
      let sp := match next with
        | none => sp
        | some m => sp.upd m fun c => { c with qp := some p }
      some (.inr (sp.upd cl fun c => { c with qn := none, qp := none }))
    else some (.inl n)

def qdel (fuel : Nat) (sp : Shortpath) (cl : Nat) : Option Shortpath :=
  if qfind sp cl = false then some sp
  else match sp.q with
    | none => some sp
    | some h =>
      if cl = h then
        let next := (sp.cells cl).qn
        let sp := { sp with q := next }
        match next with
        | none => some sp
        | some m => some (sp.upd m fun c => { c with qp := none })
      else run (qdelBody sp cl) fuel h

def indexofxy (x y width : Nat) : Nat := (y * width + x) % 2 ^ 64

/-- The inner `none` is a cell we cannot move to; the outer one is the exit on
an unexpected direction. -/
def getneigh (sp : Shortpath) (cl : Cell) (dir : Nat) : Option (Option Nat) :=
  let x := toSize cl.x
  let y := toSize cl.y
  let go (x y : Nat) : Option (Option Nat) :=
    let i := indexofxy x y sp.size
    if sp.grid i ≠ wall then some (some i) else some none
  match dir with
  | 0 => go x (incr y)
  | 1 => go x (decr y)
  | 2 => go (incr x) y
  | 3 => go (decr x) y
  | _ => none

def searchInit (sp : Shortpath) : Shortpath :=
  let sp := forRange 0 sp.size (fun y sp => forRange 0 sp.size (fun x sp =>
    sp.upd (indexofxy x y sp.size) fun _ =>
      { x := toInt x, y := toInt y, c := -1, p := none, qn := none, qp := none }) sp) sp
  { sp with q := none }

/-- The body of the loop over the directions, from the popped cell `cur`. -/
def relax (fuel : Nat) (cur : Nat) (sp : Shortpath) (dir : Nat) : Option Shortpath := do
  match ← getneigh sp (sp.cells cur) dir with
  | none => pure sp
  | some nei =>
    if 0 > (sp.cells nei).c ∨ (sp.cells cur).c + 1 < (sp.cells nei).c then
      let sp := sp.upd nei fun c => { c with c := (sp.cells cur).c + 1 }
      let sp ← qdel fuel sp nei
      let sp ← qadd fuel sp nei
      pure (sp.upd nei fun c => { c with p := some cur })
    else pure sp

/-- One pass of the main loop of `search`. It leaves with the last cell popped. -/
def searchBody (fuel : Nat) (sp : Shortpath) : Option (Shortpath ⊕ (Option Nat × Shortpath)) :=
  match qpop sp with
  | (none, sp) => some (.inr (none, sp))
  | (some cur, sp) =>
    if cur = sp.dst then some (.inr (some cur, sp))
    else ((List.range ndirs).foldlM (relax fuel cur) sp).map .inl

/-- Emptying the queue. -/
def drainBody (sp : Shortpath) : Option (Shortpath ⊕ Shortpath) :=
  match qpop sp with
  | (none, sp) => some (.inr sp)
  | (some _, sp) => some (.inl sp)

/-- Walking the parents, each cell one cheaper than the one before it. -/
def reverseBody (fuel : Nat) (s : Nat × Nat × Shortpath) :
    Option ((Nat × Nat × Shortpath) ⊕ (Nat × Nat × Shortpath)) :=
  let (cur, i, sp) := s
  if sp.src = cur then some (.inr s)
  else do
    let sp ← qadd fuel (sp.upd cur fun c => { c with c := toInt i }) cur
    let next ← (sp.cells cur).p
    pure (.inl (next, decr i, sp))

/-- Writing the coordinates of the cells in the order of the queue. -/
def writeBody (s : Nat × Shortpath) : Option ((Nat × Shortpath) ⊕ (Nat × Shortpath)) :=
  let (i, sp) := s
  match qpop sp with
  | (none, sp) => some (.inr (i, sp))
  | (some cur, sp) =>
    let (sol, n) := u64str (toSize (sp.cells cur).y) sp.sol i
    let i := i + n
    let (sol, n) := u64str (toSize (sp.cells cur).x) sol i
    let i := i + n
    some (.inl (i, { sp with sol := Function.update sol i 0 }))

/-- The length of the solution is a `size_t`, returned as an `int`. -/
def search (fuel : Nat) (sp : Shortpath) : Option (Int × Shortpath) := do
  let sp := searchInit sp
  let sp := sp.upd sp.src fun c => { c with c := 0 }
  let sp ← qadd fuel sp sp.src
  let (cur, sp) ← run (searchBody fuel) fuel sp
  if cur ≠ some sp.dst then pure (0, sp)
  else
    let sp ← run drainBody fuel sp
    let (cur, i, sp) ← run (reverseBody fuel) fuel (sp.dst, 2 ^ 64 - 1, sp)
    let sp ← qadd fuel (sp.upd cur fun c => { c with c := toInt i }) cur
    let (i, sp) ← run writeBody fuel (0, sp)
    pure (toInt i, { sp with sol := Function.update sp.sol i 0 })

end Oin17.Chals
