import Oin17.Chals.Parse
import Oin17.Lib.Cint
import Oin17.Lib.Rearrange

namespace Oin17.Chals.Sortlist
open Cint Loop Memory Rearrange

/-- The elements of an array, of which the functions get the count. Every access
is checked against that count. -/
abbrev Nums := Nat → UInt64

/-! `lib/utils/heapsort64.c`, `fuel` bounds the passes of every loop. The indices
here and in the next file are less than four times a count, and do not wrap. -/

namespace Heap

/-- `__cmp` -/
def cmp (a b : UInt64) (rev : Bool) : Bool := if rev then b < a else a ≤ b

/-- The child that goes up, of `c` and the one behind it. -/
def pick (n cnt : Nat) (rev : Bool) (buf : Nums) (c : Nat) : Option Nat :=
  if c + 1 < cnt then do
    let x ← peek n buf (c + 1)
    let y ← peek n buf c
    pure (if rev then if x < y then c + 1 else c else if y < x then c + 1 else c)
  else some c

/-- One pass of the loop that sinks `t` from `i` on, with `c` the first child. -/
def sinkBody (n cnt : Nat) (rev : Bool) (t : UInt64) :
    Nums × Nat × Nat → Option ((Nums × Nat × Nat) ⊕ (Nums × Nat))
  | (buf, i, c) =>
    if c < cnt then do
      let c ← pick n cnt rev buf c
      let x ← peek n buf c
      if cmp x t rev then pure (.inr (buf, i))
      else do
        let buf ← poke n buf i x
        pure (.inl (buf, c, c * 2 + 1))
    else pure (.inr (buf, i))

/-- One pass of the outer loop, which builds the heap until `p` is 0 and takes
its top away from then on. -/
def heapBody (fuel n : Nat) (rev : Bool) :
    Nums × Nat × Nat → Option ((Nums × Nat × Nat) ⊕ Nums)
  | (buf, cnt, p) =>
    if 0 < p then do
      let t ← peek n buf (p - 1)
      let (buf, i) ← run (sinkBody n cnt rev t) fuel (buf, p - 1, (p - 1) * 2 + 1)
      let buf ← poke n buf i t
      pure (.inl (buf, cnt, p - 1))
    else if decr cnt = 0 then pure (.inr buf)
    else do
      let t ← peek n buf (decr cnt)
      let x ← peek n buf 0
      let buf ← poke n buf (decr cnt) x
      let (buf, i) ← run (sinkBody n (decr cnt) rev t) fuel (buf, 0, 1)
      let buf ← poke n buf i t
      pure (.inl (buf, decr cnt, 0))

end Heap

def heapsort64 (fuel : Nat) (buf : Nums) (cnt : Nat) (rev : Bool) : Option Nums :=
  run (Heap.heapBody fuel cnt rev) fuel (buf, cnt, cnt / 2)

/-! `lib/utils/mergesort64.c` -/

namespace Merge

/-- `__cmp` -/
def cmp (a b : UInt64) (rev : Bool) : Bool := if rev then b < a else a < b

/-- Whether the next element is the left run's. -/
def fromLeft (n : Nat) (src : Nums) (r e : Nat) (rev : Bool) (i j : Nat) : Option Bool :=
  if i < r then
    if e ≤ j then some true
    else do
      let x ← peek n src i
      let y ← peek n src j
      pure (cmp x y rev)
  else some false

structure Runs where
  dst : Nums
  i : Nat
  j : Nat
  k : Nat

def mergeBody (n : Nat) (src : Nums) (r e : Nat) (rev : Bool) (s : Runs) :
    Option (Runs ⊕ Nums) :=
  if s.k < e then do
    let left ← fromLeft n src r e rev s.i s.j
    if left then do
      let x ← peek n src s.i
      let dst ← poke n s.dst s.k x
      pure (.inl { dst := dst, i := s.i + 1, j := s.j, k := s.k + 1 })
    else do
      let x ← peek n src s.j
      let dst ← poke n s.dst s.k x
      pure (.inl { dst := dst, i := s.i, j := s.j + 1, k := s.k + 1 })
  else pure (.inr s.dst)

def merge (fuel n : Nat) (src dst : Nums) (l r e : Nat) (rev : Bool) : Option Nums :=
  run (mergeBody n src r e rev) fuel { dst := dst, i := l, j := r, k := l }

/-- Merging the runs of `i` elements in pairs. -/
def pairsBody (fuel cnt : Nat) (src : Nums) (i : Nat) (rev : Bool) :
    Nums × Nat → Option ((Nums × Nat) ⊕ Nums)
  | (tmp, j) =>
    if j < cnt then do
      let tmp ← merge fuel cnt src tmp j (min (j + i) cnt) (min (j + 2 * i) cnt) rev
      pure (.inl (tmp, j + 2 * i))
    else pure (.inr tmp)

def copyBody (cnt : Nat) (tmp : Nums) : Nums × Nat → Option ((Nums × Nat) ⊕ Nums)
  | (src, j) =>
    if j < cnt then do
      let x ← peek cnt tmp j
      let src ← poke cnt src j x
      pure (.inl (src, j + 1))
    else pure (.inr src)

def widthBody (fuel cnt : Nat) (rev : Bool) :
    Nums × Nums × Nat → Option ((Nums × Nums × Nat) ⊕ Nums)
  | (src, tmp, i) =>
    if i < cnt then do
      let tmp ← run (pairsBody fuel cnt src i rev) fuel (tmp, 0)
      let src ← run (copyBody cnt tmp) fuel (src, 0)
      pure (.inl (src, tmp, 2 * i))
    else pure (.inr src)

end Merge

def mergesort64 (fuel : Nat) (src tmp : Nums) (cnt : Nat) (rev : Bool) : Option Nums :=
  run (Merge.widthBody fuel cnt rev) fuel (src, tmp, 1)

/-! `lib/utils/smoothsort64.c` -/

namespace Smooth

/-- `__cmp` and `cmp` -/
def cmp0 (a b : UInt64) : Int := if a < b then -1 else if a = b then 0 else 1
def cmp (a b : UInt64) (rev : Bool) : Int := if rev then 0 - cmp0 a b else cmp0 a b

structure State where
  a : Nums
  q : Nat
  r : Nat
  p : Nat
  b : Nat
  c : Nat
  r1 : Nat
  b1 : Nat
  c1 : Nat

def up (a b : Nat) : Nat × Nat := (add (add a b) 1, a)
def down (a b : Nat) : Nat × Nat := (b, sub (sub a b) 1)

def State.down (s : State) : State :=
  { s with b := (Smooth.down s.b s.c).1, c := (Smooth.down s.b s.c).2 }

def State.down1 (s : State) : State :=
  { s with b1 := (Smooth.down s.b1 s.c1).1, c1 := (Smooth.down s.b1 s.c1).2 }

/-- `t` goes to the hole, unless that is where it came from. -/
def fill (n r0 : Nat) (t : UInt64) (s : State) : Option State :=
  if sub s.r1 r0 ≠ 0 then do
    let a ← poke n s.a s.r1 t
    pure { s with a := a }
  else some s

def siftBody (n : Nat) (rev : Bool) (t : UInt64) (s : State) : Option (State ⊕ State) :=
  if 2 < s.b1 then do
    let r2 := add (sub s.r1 s.b1) s.c1
    let x ← peek n s.a (sub s.r1 1)
    let y ← peek n s.a r2
    let (r2, s) := if 0 ≤ cmp x y rev then (sub s.r1 1, s.down1) else (r2, s)
    let x ← peek n s.a r2
    if cmp x t rev < 0 then pure (.inl { s with b1 := 1 })
    else do
      let a ← poke n s.a s.r1 x
      pure (.inl { s with a := a, r1 := r2 }.down1)
  else pure (.inr s)

def sift (fuel n : Nat) (rev : Bool) (s : State) : Option State := do
  let r0 := s.r1
  let t ← peek n s.a r0
  let s ← run (siftBody n rev t) fuel s
  fill n r0 t s

/-- A bitmap of the trees, and the sizes `b` and `c` for its first bit. -/
structure Bits where
  p : Nat
  b : Nat
  c : Nat

/-- One pass of a loop that looks for the next tree. -/
def nextBody (s : Bits) : Option (Bits ⊕ Bits) :=
  if s.p &&& 1 = 0 then
    some (.inl { p := s.p >>> 1, b := (up s.b s.c).1, c := (up s.b s.c).2 })
  else some (.inr s)

/-- Whether there is no tree before the one whose bit is the first of `p1`, or
`t` is not before the root `r3` of that tree. -/
def inPlace (n : Nat) (rev : Bool) (a : Nums) (p1 r3 : Nat) (t : UInt64) : Option Bool :=
  if p1 = 1 then some true
  else do
    let x ← peek n a r3
    pure (decide (cmp x t rev < 0))

def trinkleBody (fuel n : Nat) (rev : Bool) (t : UInt64) :
    Nat × State → Option ((Nat × State) ⊕ State)
  | (p1, s) =>
    if 0 < p1 then do
      let m ← run nextBody fuel { p := p1, b := s.b1, c := s.c1 }
      let p1 := m.p
      let s := { s with b1 := m.b, c1 := m.c }
      let r3 := sub s.r1 s.b1
      let stop ← inPlace n rev s.a p1 r3 t
      if stop then pure (.inl (0, s))
      else
        let p1 := p1 - 1
        if s.b1 = 1 then do
          let x ← peek n s.a r3
          let a ← poke n s.a s.r1 x
          pure (.inl (p1, { s with a := a, r1 := r3 }))
        else if 3 ≤ s.b1 then do
          let r2 := add (sub s.r1 s.b1) s.c1
          let x ← peek n s.a (sub s.r1 1)
          let y ← peek n s.a r2
          let (r2, s, p1) := if 0 ≤ cmp x y rev then
            (sub s.r1 1, s.down1, (p1 <<< 1) % 2 ^ 64) else (r2, s, p1)
          let x ← peek n s.a r2
          let y ← peek n s.a r3
          if cmp x y rev < 0 then do
            let a ← poke n s.a s.r1 y
            pure (.inl (p1, { s with a := a, r1 := r3 }))
          else do
            let a ← poke n s.a s.r1 x
            pure (.inl (0, { s with a := a, r1 := r2 }.down1))
        else pure (.inl (p1, s))
    else pure (.inr s)

def trinkle (fuel n : Nat) (rev : Bool) (s : State) : Option State := do
  let r0 := s.r1
  let t ← peek n s.a r0
  let s ← run (trinkleBody fuel n rev t) fuel (s.p, { s with b1 := s.b, c1 := s.c })
  let s ← fill n r0 t s
  sift fuel n rev s

/-- The elements are exchanged by three exclusive ors. -/
def semitrinkle (fuel n : Nat) (rev : Bool) (s : State) : Option State := do
  let s := { s with r1 := sub s.r s.c }
  let x ← peek n s.a s.r1
  let y ← peek n s.a s.r
  if 0 ≤ cmp x y rev then do
    let a := s.a
    let a ← poke n a s.r (a s.r ^^^ a s.r1)
    let a ← poke n a s.r1 (a s.r1 ^^^ a s.r)
    let a ← poke n a s.r (a s.r ^^^ a s.r1)
    trinkle fuel n rev { s with a := a }
  else pure s

/-- One pass of the loop that goes down to a tree of one element. -/
def singleBody (s : Bits) : Option (Bits ⊕ Bits) :=
  let m : Bits := { p := (s.p <<< 1) % 2 ^ 64, b := (down s.b s.c).1, c := (down s.b s.c).2 }
  if 1 < m.b then some (.inl m) else some (.inr m)

/-- Two trees become one with the next element. -/
def joinTrees (fuel n : Nat) (rev : Bool) (s : State) : Option State := do
  let s ← sift fuel n rev { s with b1 := s.b, c1 := s.c }
  let t := add (add s.b s.c) 1
  pure { s with p := incr s.p >>> 2, b := add (add s.b t) 1, c := t }

/-- The last tree is put in order, among all of them when it is to stay. -/
def settle (fuel n : Nat) (rev : Bool) (s : State) : Option State :=
  if add s.q s.c < n then sift fuel n rev { s with b1 := s.b, c1 := s.c }
  else trinkle fuel n rev s

/-- The next element becomes a tree. -/
def addTree (fuel n : Nat) (rev : Bool) (s : State) : Option State := do
  let s ← settle fuel n rev s
  let m ← run singleBody fuel { p := s.p, b := s.b, c := s.c }
  pure { s with p := incr m.p, b := m.b, c := m.c }

def grow (fuel n : Nat) (rev : Bool) (s : State) : Option State :=
  if s.p &&& 7 = 3 then joinTrees fuel n rev s
  else if s.p &&& 3 = 1 then addTree fuel n rev s
  else some s

def buildBody (fuel n : Nat) (rev : Bool) (s : State) : Option (State ⊕ State) :=
  if s.q < n then do
    let s ← grow fuel n rev { s with r1 := s.r }
    pure (.inl { s with r := incr s.r, q := incr s.q })
  else some (.inr s)

/-- A tree of one element goes. -/
def dropTree (fuel : Nat) (s : State) : Option State := do
  let m ← run nextBody fuel { p := decr s.p, b := s.b, c := s.c }
  pure { s with r := decr s.r, p := m.p, b := m.b, c := m.c }

/-- The root of a tree goes, and leaves two trees. -/
def splitTree (fuel n : Nat) (rev : Bool) (s : State) : Option State := do
  let s := { s with p := decr s.p, r := add (sub s.r s.b) s.c }
  let s ← if 0 < s.p then semitrinkle fuel n rev s else some s
  let s := s.down
  let s := { s with p := incr ((s.p <<< 1) % 2 ^ 64), r := add s.r s.c }
  let s ← semitrinkle fuel n rev s
  let s := s.down
  pure { s with p := incr ((s.p <<< 1) % 2 ^ 64) }

def shrink (fuel n : Nat) (rev : Bool) (s : State) : Option State :=
  if s.b = 1 then dropTree fuel s
  else if 2 < s.b then splitTree fuel n rev s
  else some s

def sortBody (fuel n : Nat) (rev : Bool) (s : State) : Option (State ⊕ State) :=
  if 1 < s.q then (shrink fuel n rev { s with q := decr s.q }).map .inl
  else some (.inr { s with q := decr s.q })

end Smooth

def smoothsort64 (fuel : Nat) (a : Nums) (n : Nat) (rev : Bool) : Option Nums := do
  let s : Smooth.State :=
    { a := a, q := 1, r := 0, p := 1, b := 1, c := 1, r1 := 0, b1 := 0, c1 := 0 }
  let s ← run (Smooth.buildBody fuel n rev) fuel s
  let s ← Smooth.trinkle fuel n rev { s with r1 := s.r }
  let s ← run (Smooth.sortBody fuel n rev) fuel s
  pure s.a

/-! `lib/chals/sortlist.c` -/

/-- A comparison function that `qsort` calls: it gets two pointers, and may look
at what they point to. -/
abbrev Compar := (UInt64 → UInt64) → UInt64 → UInt64 → Int

/-- `__sort` -/
def sortCompar : Compar := fun _ a b => if a < b then -1 else if b < a then 1 else 0

/-- `__rsort` -/
def rsortCompar : Compar := fun _ a b => if b < a then -1 else if a < b then 1 else 0

/-- `qsort` of the C library, for elements of 8 bytes. -/
abbrev Qsort := Nums → Nat → Compar → Nums

/-- The build-time choice. -/
inductive Build where
  | quicksort | heapsort | mergesort | smoothsort
  deriving DecidableEq

structure Workspace where
  nums : Nums
  mtmp : Nums

/-- `sort`. There is no result for another type of challenge, which ends the
program. -/
def sort (qsort : Qsort) (build : Build) (fuel : Nat) (chl : Chal) (sl : Workspace) :
    Option Nums :=
  let nelems := chl.size.toNat
  if chl.type = chalSort then
    match build with
    | .quicksort => some (qsort sl.nums nelems sortCompar)
    | .heapsort => heapsort64 fuel sl.nums nelems false
    | .mergesort => mergesort64 fuel sl.nums sl.mtmp nelems false
    | .smoothsort => smoothsort64 fuel sl.nums nelems false
  else if chl.type = chalRsort then
    match build with
    | .quicksort => some (qsort sl.nums nelems rsortCompar)
    | .heapsort => heapsort64 fuel sl.nums nelems true
    | .mergesort => mergesort64 fuel sl.nums sl.mtmp nelems true
    | .smoothsort => smoothsort64 fuel sl.nums nelems true
  else none

end Oin17.Chals.Sortlist
