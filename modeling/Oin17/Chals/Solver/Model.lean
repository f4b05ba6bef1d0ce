import Oin17.Chals.Mkseed
import Oin17.Chals.Shortpath.Placing
import Oin17.Chals.Sortlist.Model
import Oin17.Crypto.Mt64

namespace Oin17.Chals

def chalNonceinc : UInt64 := 3917

/-- The nonce, and the shared counter after `__sync_add_and_fetch`. -/
def getnonce (sn min max : UInt64) : UInt64 × UInt64 :=
  let sn := sn + chalNonceinc
  (sn % (max - min) + min, sn)

theorem getnonce_counter (hw : sn.toNat + 3917 < 2 ^ 64) (min max : UInt64) :
    (getnonce sn min max).2.toNat = sn.toNat + 3917 := by
  rw [getnonce, UInt64.toNat_add]
  exact Nat.mod_eq_of_lt hw

/-- Where the sums do not wrap. -/
theorem getnonce_nonce {min max : UInt64} (hw : sn.toNat + 3917 < 2 ^ 64)
    (hm : max.toNat = min.toNat + r) (hr : 0 < r) :
    (getnonce sn min max).1.toNat = (sn.toNat + 3917) % r + min.toNat := by
  have hle : min ≤ max := UInt64.le_iff_toNat_le.mpr (by omega)
  have hwidth : (max - min).toNat = r := by
    rw [UInt64.toNat_sub_of_le _ _ hle]
    omega
  have hlt : (sn.toNat + 3917) % r < r := Nat.mod_lt _ hr
  have hmax := max.toNat_lt
  have hsum := getnonce_counter hw min max
  rw [getnonce] at hsum ⊢
  rw [UInt64.toNat_add, UInt64.toNat_mod, hwidth, hsum]
  exact Nat.mod_eq_of_lt (by omega)

end Oin17.Chals

namespace Oin17.Chals.Solvers
open Cint Crypto Function Loop Memory Sortlist Utils

/-- `struct solver`. The buffers go on behind their blocks, of which `mem` has the sizes. -/
structure Solver where
  nmin : UInt64
  nmax : UInt64
  nonce : UInt64
  mem : SolverMem
  nums : Nums
  str : Buf
  sp : Shortpath

/-! `search`, with `n` the size of the block for the solution. -/

def writeBodyIn (n : Nat) (s : Nat × Shortpath) :
    Option ((Nat × Shortpath) ⊕ (Nat × Shortpath)) :=
  let (i, sp) := s
  match qpop sp with
  | (none, sp) => some (.inr (i, sp))
  | (some cur, sp) => do
    let (sol, k) ← u64strIn n (toSize (sp.cells cur).y) sp.sol i
    let i := i + k
    let (sol, k) ← u64strIn n (toSize (sp.cells cur).x) sol i
    let i := i + k
    let sol ← poke n sol i 0
    pure (.inl (i, { sp with sol := sol }))

def searchIn (n fuel : Nat) (sp : Shortpath) : Option (Int × Shortpath) := do
  let sp := searchInit sp
  let sp := sp.upd sp.src fun c => { c with c := 0 }
  let sp ← qadd fuel sp sp.src
  let (cur, sp) ← run (searchBody fuel) fuel sp
  if cur ≠ some sp.dst then pure (0, sp)
  else
    let sp ← run drainBody fuel sp
    let (cur, i, sp) ← run (reverseBody fuel) fuel (sp.dst, 2 ^ 64 - 1, sp)
    let sp ← qadd fuel (sp.upd cur fun c => { c with c := toInt i }) cur
    let (i, sp) ← run (writeBodyIn n) fuel (0, sp)
    let sol ← poke n sp.sol i 0
    pure (toInt i, { sp with sol := sol })

section
variable {ι : Type} [DecidableEq ι]
variable (sha256 : List UInt8 → Buf) (qsort : Qsort) (build : Build)

/-- `memcmp(d, chl->pfix, chl->plen)`, of two arrays of the size of a digest. -/
def compare (chl : Chal) (d : Buf) : Option Int :=
  if chl.plen ≤ sha256Len then some (if accepts d chl.pfix chl.plen then 0 else -1) else none

/-- `mt64_seed(slv->prng, mkseed(lh, slv->nonce))`, with what `lh` holds at first. -/
def seedPrng (chl : Chal) (lh : Buf) (slv : Solver) (i : ι) (w : Prngs ι) : Option (Prngs ι) := do
  let lh := store lh 0 (load chl.lhash 0 sha256Dlen)
  let (seed, _) ← mkseed sha256 lhLen lh slv.nonce
  pure (mt64Seed (some i) seed w)

/-- `sortlist` from its nonce on, for solver `i`. The second workspace holds what the last
sort has left in it. -/
def sortlist (fuel : Nat) (chl : Chal) (lh : Buf) (mtmp : Nums) (slv : Solver) (i : ι)
    (w : Prngs ι) : Option (Int × Solver × Prngs ι) := do
  let m ← slv.mem.sl
  let nelems := chl.size.toNat
  let w ← seedPrng sha256 chl lh slv i w
  guard (nelems * 8 ≤ m.nums)
  let (nums, w) := mt64Randn (some i) slv.nums nelems w
  guard (nelems * 8 ≤ m.mtmp)
  let nums ← sort qsort build fuel chl { nums := nums, mtmp := mtmp }
  -- make the solution
  let (str, l) := mku64str nums nelems slv.str
  guard (l < m.str)
  let r ← compare chl (sha256 (load str 0 l))
  pure (r, { slv with nums := nums, str := str }, w)

/-- `shortpath` from its nonce on. -/
def shortpath (fuel : Nat) (chl : Chal) (lh : Buf) (slv : Solver) (i : ι) (w : Prngs ι) :
    Option (Int × Solver × Prngs ι) := do
  let m ← slv.mem.sp
  let sp := { slv.sp with size := chl.size.toNat }
  let w ← seedPrng sha256 chl lh slv i w
  let (sp, w) ← popgrid fuel m.entries (mt64Rand (some i)) chl.nblks.toNat sp w
  let (l, sp) ← searchIn m.sol fuel sp
  if l = 0 then pure (-1, { slv with sp := sp }, w)
  else
    let text ← loadIn m.sol sp.sol 0 (toSize l)
    let r ← compare chl (sha256 text)
    pure (r, { slv with sp := sp }, w)

/-- `__solver_solve` past the nonce. Another type of challenge ends the program. -/
def solve (fuel : Nat) (chl : Chal) (lh : Buf) (mtmp : Nums) (slv : Solver) (i : ι)
    (w : Prngs ι) : Option (Int × Solver × Prngs ι) :=
  if chl.type = chalSort ∨ chl.type = chalRsort then
    sortlist sha256 qsort build fuel chl lh mtmp slv i w
  else if chl.type = chalSpath then shortpath sha256 fuel chl lh slv i w
  else none

/-- The solvers, the challenge that they have a pointer to, the generators and the counter of
`getnonce`. A solver is busy from its nonce to the end of `__solve`. -/
structure State (ι : Type) where
  chl : Chal
  sn : UInt64
  prngs : Prngs ι
  slv : ι → Solver
  busy : ι → Bool

/-- A new challenge, which comes when no solver runs, and the two parts of `__solve`. -/
inductive Act (ι : Type) where
  | newchal (chl : Chal)
  | begin (i : ι) (al : SolverAlloc)
  | finish (i : ι) (fuel : Nat) (lh : Buf) (mtmp : Nums)

/-- The workspace is resized and the nonce is taken. -/
def State.begin (s : State ι) (i : ι) (al : SolverAlloc) : State ι :=
  let (r, mem) := solverResize al (s.slv i).mem s.chl
  let slv := { s.slv i with mem := mem }
  if r ≠ 0 then { s with slv := update s.slv i slv }
  else
    let (n, sn) := getnonce s.sn slv.nmin slv.nmax
    { s with
      sn := sn
      slv := update s.slv i { slv with nonce := n }
      busy := update s.busy i true }

/-- The loops over the elements of a list or over the cells of a grid have enough passes, and
the loops that look for a cell by chance `fuel` at least. -/
def passes (chl : Chal) (fuel : Nat) : Nat :=
  chl.size.toNat * chl.size.toNat + chl.size.toNat + 1 + fuel

def State.solve (s : State ι) (i : ι) (fuel : Nat) (lh : Buf) (mtmp : Nums) :
    Option (Int × Solver × Prngs ι) :=
  Solvers.solve sha256 qsort build (passes s.chl fuel) s.chl lh mtmp (s.slv i) i s.prngs

variable [Fintype ι]

def step (s : State ι) : Act ι → Option (State ι)
  | .newchal chl => if ∀ i, s.busy i = false then some { s with chl := chl } else none
  | .begin i al => if s.busy i then none else some (s.begin i al)
  | .finish i fuel lh mtmp =>
    if s.busy i then (s.solve sha256 qsort build i fuel lh mtmp).map fun (_, slv, w) =>
      { s with prngs := w, slv := update s.slv i slv, busy := update s.busy i false }
    else none

/-- The solutions that `__solve` reports: the number of the challenge, and the nonce. -/
def State.reports (s : State ι) : Act ι → List (UInt64 × UInt64)
  | .finish i fuel lh mtmp =>
    match s.solve sha256 qsort build i fuel lh mtmp with
    | some (0, slv, _) => [(s.chl.id, slv.nonce)]
    | _ => []
  | _ => []

end

end Oin17.Chals.Solvers
