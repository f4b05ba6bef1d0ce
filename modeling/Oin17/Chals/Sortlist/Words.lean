import Oin17.Chals.Sortlist.Mergesort
import Oin17.Chals.Sortlist.Smoothsort

namespace Oin17.Chals.Sortlist
open Cint Leonardo Loop Memory Rearrange

/-! `heapsort64` and `mergesort64` as they compute their indices, in words of 64
bits. -/

namespace Words

namespace Heap
open Sortlist.Heap (cmp)

def pick (n cnt : Nat) (rev : Bool) (buf : Nums) (c : Nat) : Option Nat :=
  if add c 1 < cnt then do
    let x ← peek n buf (add c 1)
    let y ← peek n buf c
    pure (if rev then if x < y then incr c else c else if y < x then incr c else c)
  else some c

def sinkBody (n cnt : Nat) (rev : Bool) (t : UInt64) :
    Nums × Nat × Nat → Option ((Nums × Nat × Nat) ⊕ (Nums × Nat))
  | (buf, i, c) =>
    if c < cnt then do
      let c ← pick n cnt rev buf c
      let x ← peek n buf c
      if cmp x t rev then pure (.inr (buf, i))
      else do
        let buf ← poke n buf i x
        pure (.inl (buf, c, add (mul c 2) 1))
    else pure (.inr (buf, i))

def heapBody (fuel n : Nat) (rev : Bool) :
    Nums × Nat × Nat → Option ((Nums × Nat × Nat) ⊕ Nums)
  | (buf, cnt, p) =>
    if 0 < p then do
      let t ← peek n buf (decr p)
      let (buf, i) ← run (sinkBody n cnt rev t) fuel (buf, decr p, add (mul (decr p) 2) 1)
      let buf ← poke n buf i t
      pure (.inl (buf, cnt, decr p))
    else if decr cnt = 0 then pure (.inr buf)
    else do
      let t ← peek n buf (decr cnt)
      let x ← peek n buf 0
      let buf ← poke n buf (decr cnt) x
      let (buf, i) ← run (sinkBody n (decr cnt) rev t) fuel (buf, p, add (mul p 2) 1)
      let buf ← poke n buf i t
      pure (.inl (buf, decr cnt, p))

end Heap

def heapsort64 (fuel : Nat) (buf : Nums) (cnt : Nat) (rev : Bool) : Option Nums :=
  run (Heap.heapBody fuel cnt rev) fuel (buf, cnt, cnt / 2)

namespace Merge
open Sortlist.Merge (fromLeft Runs)

def mergeBody (n : Nat) (src : Nums) (r e : Nat) (rev : Bool) (s : Runs) :
    Option (Runs ⊕ Nums) :=
  if s.k < e then do
    let left ← fromLeft n src r e rev s.i s.j
    if left then do
      let x ← peek n src s.i
      let dst ← poke n s.dst s.k x
      pure (.inl { dst := dst, i := incr s.i, j := s.j, k := incr s.k })
    else do
      let x ← peek n src s.j
      let dst ← poke n s.dst s.k x
      pure (.inl { dst := dst, i := s.i, j := incr s.j, k := incr s.k })
  else pure (.inr s.dst)

def merge (fuel n : Nat) (src dst : Nums) (l r e : Nat) (rev : Bool) : Option Nums :=
  run (mergeBody n src r e rev) fuel { dst := dst, i := l, j := r, k := l }

def pairsBody (fuel cnt : Nat) (src : Nums) (i : Nat) (rev : Bool) :
    Nums × Nat → Option ((Nums × Nat) ⊕ Nums)
  | (tmp, j) =>
    if j < cnt then do
      let tmp ← merge fuel cnt src tmp j (min (add j i) cnt) (min (add j (mul 2 i)) cnt) rev
      pure (.inl (tmp, add j (mul 2 i)))
    else pure (.inr tmp)

def copyBody (cnt : Nat) (tmp : Nums) : Nums × Nat → Option ((Nums × Nat) ⊕ Nums)
  | (src, j) =>
    if j < cnt then do
      let x ← peek cnt tmp j
      let src ← poke cnt src j x
      pure (.inl (src, incr j))
    else pure (.inr src)

def widthBody (fuel cnt : Nat) (rev : Bool) :
    Nums × Nums × Nat → Option ((Nums × Nums × Nat) ⊕ Nums)
  | (src, tmp, i) =>
    if i < cnt then do
      let tmp ← run (pairsBody fuel cnt src i rev) fuel (tmp, 0)
      let src ← run (copyBody cnt tmp) fuel (src, 0)
      pure (.inl (src, tmp, mul 2 i))
    else pure (.inr src)

end Merge

def mergesort64 (fuel : Nat) (src tmp : Nums) (cnt : Nat) (rev : Bool) : Option Nums :=
  run (Merge.widthBody fuel cnt rev) fuel (src, tmp, 1)

namespace Heap
variable {n cnt c p : Nat} {rev : Bool} {buf : Nums} {t : UInt64}

theorem pick_eq (hc : c < cnt) (hn : cnt ≤ 2 ^ 61) :
    pick n cnt rev buf c = Sortlist.Heap.pick n cnt rev buf c := by
  have hadd : add c 1 = c + 1 := add_small (by omega)
  have hincr : incr c = c + 1 := incr_small (by omega)
  rw [pick, Sortlist.Heap.pick, hadd, hincr]

/-- The first child of a node that is there. -/
theorem child_eq (hp : p < 2 ^ 61) : add (mul p 2) 1 = p * 2 + 1 := by
  rw [mul_small (by omega), add_small (by omega)]

theorem sinkBody_eq (hn : n ≤ 2 ^ 61) (hcnt : cnt ≤ 2 ^ 61) :
    sinkBody n cnt rev t = Sortlist.Heap.sinkBody n cnt rev t := by
  funext ⟨buf, i, c⟩
  by_cases hc : c < cnt
  · simp only [sinkBody, Sortlist.Heap.sinkBody, if_pos hc, pick_eq hc hcnt]
    cases Sortlist.Heap.pick n cnt rev buf c with
    | none => rfl
    | some d =>
      -- the child that was read is one of the elements
      by_cases hd : d < n
      · simp [hd, child_eq (Nat.lt_of_lt_of_le hd hn)]
      · simp [not_lt.mp hd]
  · simp only [sinkBody, Sortlist.Heap.sinkBody, if_neg hc]

theorem heapBody_eq (fuel : Nat) (hn : n ≤ 2 ^ 61) (hp : p ≤ n) (hcnt : 0 < cnt) (hle : cnt ≤ n) :
    Sortlist.Heap.heapBody fuel n rev (buf, cnt, p) = heapBody fuel n rev (buf, cnt, p) := by
  have hdecr : decr cnt = cnt - 1 := decr_pos hcnt (by omega)
  by_cases h0 : 0 < p
  · have hdp : decr p = p - 1 := decr_pos h0 (by omega)
    simp only [heapBody, Sortlist.Heap.heapBody, if_pos h0, hdp, child_eq (p := p - 1) (by omega),
      sinkBody_eq hn (Nat.le_trans hle hn)]
  · obtain rfl : p = 0 := by omega
    have hless : decr cnt ≤ 2 ^ 61 := by omega
    simp only [heapBody, Sortlist.Heap.heapBody, if_neg h0, child_eq (p := 0) (by omega),
      sinkBody_eq hn hless, Nat.zero_mul, Nat.zero_add]

/-- What a pass leaves of the two counts. -/
theorem heapBody_counts {fuel : Nat} {s : Nums × Nat × Nat} (hn : n ≤ 2 ^ 61) (hp : p ≤ n)
    (hcnt : 0 < cnt) (hle : cnt ≤ n)
    (h : Sortlist.Heap.heapBody fuel n rev (buf, cnt, p) = some (.inl s)) :
    s.2.2 ≤ n ∧ 0 < s.2.1 ∧ s.2.1 ≤ n := by
  have hdecr : decr cnt = cnt - 1 := decr_pos hcnt (by omega)
  rw [Sortlist.Heap.heapBody] at h
  split at h
  · simp only [Option.bind_eq_bind, Option.bind_eq_some_iff, Option.pure_def, Option.some.injEq,
      Sum.inl.injEq] at h
    obtain ⟨t, -, ⟨b, i⟩, -, b', -, rfl⟩ := h
    exact ⟨by dsimp only; omega, hcnt, hle⟩
  · split at h
    · cases h
    · simp only [Option.bind_eq_bind, Option.bind_eq_some_iff, Option.pure_def, Option.some.injEq,
        Sum.inl.injEq] at h
      obtain ⟨t, -, x, -, b, -, ⟨b', i⟩, -, b'', -, rfl⟩ := h
      exact ⟨Nat.zero_le n, by dsimp only; omega, by dsimp only; omega⟩

end Heap

theorem heapsort64_eq (fuel : Nat) (buf : Nums) (rev : Bool) (hpos : 0 < n) (hn : n ≤ 2 ^ 61) :
    heapsort64 fuel buf n rev = Sortlist.heapsort64 fuel buf n rev := by
  symm
  apply run_congr (fun s => s.2.2 ≤ n ∧ 0 < s.2.1 ∧ s.2.1 ≤ n)
  · rintro ⟨b, cnt, p⟩ ⟨hp, hcnt, hle⟩
    exact Heap.heapBody_eq fuel hn hp hcnt hle
  · rintro ⟨b, cnt, p⟩ s ⟨hp, hcnt, hle⟩ h
    exact Heap.heapBody_counts hn hp hcnt hle h
  · exact ⟨Nat.div_le_self n 2, hpos, Nat.le_refl n⟩

namespace Merge
variable {n w r e j : Nat} {rev : Bool} {src tmp : Nums}

/-- An element was read at each index that is counted up. -/
theorem mergeBody_eq (hn : n ≤ 2 ^ 61) (he : e ≤ n) :
    mergeBody n src r e rev = Sortlist.Merge.mergeBody n src r e rev := by
  funext s
  by_cases hk : s.k < e
  · have hik : incr s.k = s.k + 1 := incr_small (by omega)
    simp only [mergeBody, Sortlist.Merge.mergeBody, if_pos hk, hik]
    cases Sortlist.Merge.fromLeft n src r e rev s.i s.j with
    | none => rfl
    | some left =>
      cases left with
      | false =>
        by_cases hj : s.j < n
        · have hij : incr s.j = s.j + 1 := incr_small (by omega)
          simp [hij]
        · simp [not_lt.mp hj]
      | true =>
        by_cases hi : s.i < n
        · have hii : incr s.i = s.i + 1 := incr_small (by omega)
          simp [hii]
        · simp [not_lt.mp hi]
  · simp only [mergeBody, Sortlist.Merge.mergeBody, if_neg hk]

theorem pairsBody_eq (fuel : Nat) (hn : n ≤ 2 ^ 61) (hw : w < n) :
    pairsBody fuel n src w rev = Sortlist.Merge.pairsBody fuel n src w rev := by
  funext ⟨tmp, j⟩
  have hmul : mul 2 w = 2 * w := mul_small (by omega)
  by_cases hj : j < n
  · have hone : add j w = j + w := add_small (by omega)
    have htwo : add j (2 * w) = j + 2 * w := add_small (by omega)
    simp only [pairsBody, Sortlist.Merge.pairsBody, if_pos hj, hmul, hone, htwo, merge,
      Sortlist.Merge.merge, mergeBody_eq hn (Nat.min_le_right _ _)]
  · simp only [pairsBody, Sortlist.Merge.pairsBody, if_neg hj]

theorem copyBody_eq (hn : n ≤ 2 ^ 61) : copyBody n tmp = Sortlist.Merge.copyBody n tmp := by
  funext ⟨src, j⟩
  by_cases hj : j < n
  · have hincr : incr j = j + 1 := incr_small (by omega)
    simp only [copyBody, Sortlist.Merge.copyBody, if_pos hj, hincr]
  · simp only [copyBody, Sortlist.Merge.copyBody, if_neg hj]

theorem widthBody_eq (fuel : Nat) (hn : n ≤ 2 ^ 61) :
    widthBody fuel n rev = Sortlist.Merge.widthBody fuel n rev := by
  funext ⟨src, tmp, w⟩
  by_cases hw : w < n
  · have hmul : mul 2 w = 2 * w := mul_small (by omega)
    simp only [widthBody, Sortlist.Merge.widthBody, if_pos hw, pairsBody_eq fuel hn hw,
      copyBody_eq hn, hmul]
  · simp only [widthBody, Sortlist.Merge.widthBody, if_neg hw]

end Merge

theorem mergesort64_eq (fuel : Nat) (src tmp : Nums) (rev : Bool) (hn : n ≤ 2 ^ 61) :
    mergesort64 fuel src tmp n rev = Sortlist.mergesort64 fuel src tmp n rev := by
  rw [mergesort64, Sortlist.mergesort64, Merge.widthBody_eq fuel hn]

end Words

/-- The first `n` elements are those of `a` in order, and no other element is
touched. -/
structure Sorted (rev : Bool) (n : Nat) (a b : Nums) : Prop where
  perm : (part b 0 n).Perm (part a 0 n)
  order : ∀ i j, i < j → j < n → if rev then b j ≤ b i else b i ≤ b j
  rest : ∀ i, n ≤ i → b i = a i

theorem key_le_iff (rev : Bool) (x y : UInt64) :
    key rev x ≤ key rev y ↔ if rev then y ≤ x else x ≤ y := by
  cases rev <;> simp [key, UInt64.le_iff_toNat_le]

theorem Sorted.of_ascends {rev : Bool} (hp : (part b 0 n).Perm (part a 0 n))
    (hb : Ascends (key rev) 0 n b) (hrest : ∀ i, n ≤ i → b i = a i) : Sorted rev n a b :=
  ⟨hp, fun i j hij hj => (key_le_iff rev (b i) (b j)).mp (hb i j (Nat.zero_le i) hij hj), hrest⟩

theorem Sorted.of_moved {rev : Bool} (hm : Moved 0 n a b) (hb : Ascends (key rev) 0 n b) :
    Sorted rev n a b :=
  .of_ascends hm.perm hb fun _ hi => hm.out (Or.inr hi)

theorem heapsort64_sorted (rev : Bool) (a : Nums) (hpos : 0 < n) (hn : 8 * n < 2 ^ 64)
    (hf : 2 * n < fuel) : ∃ b, Words.heapsort64 fuel a n rev = some b ∧ Sorted rev n a b := by
  obtain ⟨b, hs, hm, hb⟩ := heapsort64_sorts rev a hpos (by omega) hf
  refine ⟨b, ?_, .of_moved hm hb⟩
  rw [Words.heapsort64_eq fuel a rev hpos (by omega), hs]

theorem heapsort64_sorted_two :
    ∃ b, Words.heapsort64 5 (fun i => if i = 0 then 2 else 1) 2 false = some b ∧
      Sorted false 2 (fun i => if i = 0 then 2 else 1) b :=
  heapsort64_sorted false _ (by decide) (by decide) (by decide)

theorem mergesort64_sorted (rev : Bool) (a tmp : Nums) (hn : n ≤ 2 ^ 61) (hf : n < fuel) :
    ∃ b, Words.mergesort64 fuel a tmp n rev = some b ∧ Sorted rev n a b := by
  obtain ⟨b, hs, hp, hb, hrest⟩ := mergesort64_sorts rev a tmp n hf
  refine ⟨b, ?_, .of_ascends hp hb hrest⟩
  rw [Words.mergesort64_eq fuel a tmp rev hn, hs]

theorem mergesort64_sorted_three :
    ∃ b, Words.mergesort64 4 (fun i => if i = 0 then 2 else 1) (fun _ => 7) 3 true = some b ∧
      Sorted true 3 (fun i => if i = 0 then 2 else 1) b :=
  mergesort64_sorted true _ _ (by decide) (by decide)

/-- A row of `leo 64 + 1` elements is the longest whose trees fit the 64 bits of `p`. -/
theorem smoothsort64_sorted (rev : Bool) (a : Nums) (hpos : 0 < n) (hn : n ≤ leo 64 + 1)
    (hf : n + 65 < fuel) : ∃ b, smoothsort64 fuel a n rev = some b ∧ Sorted rev n a b := by
  obtain ⟨b, hs, hm, hb⟩ := smoothsort64_sorts rev a hpos hn hf
  exact ⟨b, hs, .of_moved hm hb⟩

theorem smoothsort64_sorted_two :
    ∃ b, smoothsort64 68 (fun i => if i = 0 then 2 else 1) 2 false = some b ∧
      Sorted false 2 (fun i => if i = 0 then 2 else 1) b :=
  smoothsort64_sorted false _ (by decide) (by have := leo_pos 64; omega) (by decide)

example : 2 ^ 40 ≤ leo 64 + 1 := by simp [leo]

end Oin17.Chals.Sortlist
