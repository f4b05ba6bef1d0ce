import Oin17.Chals.Solver.Model
import Oin17.Chals.Sortlist.Sort

namespace Oin17.Chals.Solvers
open Crypto Memory Rearrange Sortlist Utils

/-- The seed that a nonce gives. -/
def seedOf (sha256 : List UInt8 → Buf) (chl : Chal) (non : UInt64) : UInt64 :=
  digestWord (sha256 (load chl.lhash 0 sha256Dlen ++ Utils.digits non.toNat))

/-- The numbers that are drawn after a seed. -/
def number (seed : UInt64) (k : Nat) : UInt64 := temper (word seed (312 + k))

/-- The text of a list of numbers, in the order that is asked for. -/
def listText (type : UInt8) (l : List UInt64) : List UInt8 :=
  (inOrder type l).flatMap fun x => Utils.digits x.toNat

/-- `slv'` is the same solver, with other contents of its buffers. -/
structure Solver.Same (slv slv' : Solver) : Prop where
  nonce : slv'.nonce = slv.nonce
  mem : slv'.mem = slv.mem
  nmin : slv'.nmin = slv.nmin
  nmax : slv'.nmax = slv.nmax

theorem seedPrng_spec [DecidableEq ι] (sha256 : List UInt8 → Buf) (chl : Chal) (lh : Buf)
    (slv : Solver) (i : ι) (w : Prngs ι) : seedPrng sha256 chl lh slv i w =
      some (mt64Seed (some i) (seedOf sha256 chl slv.nonce) w) := by
  have hlen : (load chl.lhash 0 sha256Dlen).length = sha256Dlen := load_length ..
  have hmsg : load (store lh 0 (load chl.lhash 0 sha256Dlen)) 0 sha256Dlen =
      load chl.lhash 0 sha256Dlen := by
    conv_lhs => rw [← hlen]
    exact load_store ..
  rw [seedPrng, mkseed, seedMessage_spec, hmsg]
  rfl

theorem written_part (b : Nums) (n : Nat) :
    written b n = (part b 0 n).flatMap fun x => Utils.digits x.toNat := by
  rw [written, part, List.flatMap_map, List.range_eq_range']

/-- The numbers that are drawn are those of the seed, whatever the generator was before. -/
theorem drawn_numbers [DecidableEq ι] (seed : UInt64) (nums : Nums) (n : Nat) (i : ι)
    (w : Prngs ι) : part (mt64Randn (some i) nums n (mt64Seed (some i) seed w)).1 0 n =
      (List.range n).map (number seed) := by
  have hdraw := (randn_ready (seeded_ready (some i) seed w) nums n).1
  rw [part, List.range_eq_range']
  refine List.map_congr_left fun k hk => ?_
  have hlt : k < n := by simpa using hk
  rw [hdraw k, if_pos hlt]
  rfl

/-- Where the blocks are large enough, `sortlist` compares the digest of the text of the
numbers in order, and nothing that a solver holds from before has a part in it. -/
theorem sortlist_spec [DecidableEq ι] (sha256 : List UInt8 → Buf) (qsort : Qsort) {chl : Chal}
    {slv : Solver} {m : SortlistMem}
    (ht : chl.type = chalSort ∨ chl.type = chalRsort) (hmem : slv.mem.sl = some m)
    (hm : m.Sound) (hsize : chl.size ≤ m.max) (hf : chl.size.toNat < fuel) (lh : Buf)
    (mtmp : Nums) (i : ι) (w : Prngs ι) : ∃ slv' w', slv.Same slv' ∧
      sortlist sha256 qsort .mergesort fuel chl lh mtmp slv i w =
        (compare chl (sha256 (listText chl.type
          ((List.range chl.size.toNat).map (number (seedOf sha256 chl slv.nonce)))))).map
          fun r => (r, slv', w') := by
  have hle : chl.size.toNat * 8 ≤ m.max.toNat * 8 := Nat.mul_le_mul_right 8 hsize
  have hnums : chl.size.toNat * 8 ≤ m.nums := hle.trans hm.nums
  have hmtmp : chl.size.toNat * 8 ≤ m.mtmp := hle.trans hm.mtmp
  have hdrawn := drawn_numbers (seedOf sha256 chl slv.nonce) slv.nums chl.size.toNat i w
  obtain ⟨nums, hn⟩ : ∃ nums, mt64Randn (some i) slv.nums chl.size.toNat
      (mt64Seed (some i) (seedOf sha256 chl slv.nonce) w) = nums := ⟨_, rfl⟩
  rw [hn] at hdrawn
  obtain ⟨b, hsort, hp, hb, -⟩ := mergesort64_sorts (rev chl) nums.1 mtmp chl.size.toNat hf
  have hpart : part b 0 chl.size.toNat = inOrder chl.type
      ((List.range chl.size.toNat).map (number (seedOf sha256 chl slv.nonce))) := by
    rw [inOrder_eq ht, ← hdrawn]
    exact part_sorted (key_injective _) hp hb
  have htext : written b chl.size.toNat = listText chl.type
      ((List.range chl.size.toNat).map (number (seedOf sha256 chl slv.nonce))) := by
    rw [written_part, hpart, listText]
  have hroom := (hm.fits hsize b slv.str).1
  rw [mku64str_spec] at hroom
  have hload : load (store slv.str 0 (written b chl.size.toNat ++ [0])) 0
      (written b chl.size.toNat).length = written b chl.size.toNat := by
    rw [store_append, Nat.zero_add]
    rw [load_store_out _ _ (by omega)]
    exact load_store ..
  refine ⟨{ slv with nums := b, str := store slv.str 0 (written b chl.size.toNat ++ [0]) },
    nums.2, ⟨rfl, rfl, rfl, rfl⟩, ?_⟩
  have hsort' : sort qsort .mergesort fuel chl { nums := nums.1, mtmp := mtmp } = some b := by
    rw [sort_eq ht, hsort]
  have hlt : (written b chl.size.toNat).length < m.str := hroom
  rw [sortlist, hmem, ← htext]
  simp only [Option.bind_eq_bind, Option.bind_some, seedPrng_spec, guard, hnums, hmtmp, hlt,
    if_true, Option.pure_def, hn, hsort', mku64str_spec, hload]
  cases compare chl (sha256 (written b chl.size.toNat)) <;> rfl

end Oin17.Chals.Solvers
