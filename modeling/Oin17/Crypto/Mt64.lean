import Mathlib.Algebra.Order.Ring.Int
import Oin17.Lib.Loop
import Oin17.Lib.Memory

set_option linter.style.nameCheck false

namespace Oin17.Crypto
open Loop Memory

abbrev nn : Nat := 312
abbrev mm : Nat := 156
/-- Most significant 33 bits. -/
def um : UInt64 := 0xFFFFFFFF80000000
/-- Least significant 31 bits. -/
def lm : UInt64 := 0x000000007FFFFFFF
def seedMul : UInt64 := 6364136223846793005

def mag01 (i : UInt64) : UInt64 := if i = 0 then 0 else 0xb5026f5aa96619e9

structure Mt64 where
  mt : Vector UInt64 nn
  mti : Nat

/-- The PRNG states of the process: the shared one, which a nil pointer
selects, and those the solvers own. -/
structure Prngs (ι : Type) where
  gmt : Mt64
  own : ι → Mt64

def Prngs.get (w : Prngs ι) : Option ι → Mt64
  | none => w.gmt
  | some i => w.own i

def Prngs.set [DecidableEq ι] (w : Prngs ι) (m : Mt64) : Option ι → Prngs ι
  | none => { w with gmt := m }
  | some i => { w with own := Function.update w.own i m }

/-- One pass of the seeding loop. -/
def seedWord (i : Nat) (p : Vector UInt64 nn) : Vector UInt64 nn :=
  wr p i (seedMul * (rd p (i - 1) ^^^ (rd p (i - 1) >>> 62)) + UInt64.ofNat i)

def __mt64Seed (mt : Mt64) (seed : UInt64) : Mt64 :=
  { mt := forRange 1 (nn - 1) seedWord (wr mt.mt 0 seed), mti := nn }

/-- `(MT64_MM - MT64_NN)` is a negative `int`, added to a `size_t`. -/
def backIndex (i : Nat) : Nat := (i + (2 ^ 64 - (nn - mm))) % 2 ^ 64

/-- What the refill writes, from the word that gives the high bits, the one
that gives the low bits and the one that is mixed in. -/
def twist (hi lo mix : UInt64) : UInt64 :=
  let x := (hi &&& um) ||| (lo &&& lm)
  mix ^^^ (x >>> 1) ^^^ mag01 (x &&& 1)

def refillFront (i : Nat) (p : Vector UInt64 nn) : Vector UInt64 nn :=
  wr p i (twist (rd p i) (rd p (i + 1)) (rd p (i + mm)))

def refillBack (i : Nat) (p : Vector UInt64 nn) : Vector UInt64 nn :=
  wr p i (twist (rd p i) (rd p (i + 1)) (rd p (backIndex i)))

def refillLast (p : Vector UInt64 nn) : Vector UInt64 nn :=
  wr p (nn - 1) (twist (rd p (nn - 1)) (rd p 0) (rd p (mm - 1)))

/-- The block refill of `__mt64_rand`, in place. -/
def refill (p : Vector UInt64 nn) : Vector UInt64 nn :=
  refillLast (forRange (nn - mm) (mm - 1) refillBack (forRange 0 (nn - mm) refillFront p))

def temper (x : UInt64) : UInt64 :=
  let x := x ^^^ ((x >>> 29) &&& 0x5555555555555555)
  let x := x ^^^ ((x <<< 17) &&& 0x71D67FFFEDA60000)
  let x := x ^^^ ((x <<< 37) &&& 0xFFF7EEE000000000)
  x ^^^ (x >>> 43)

def __mt64Rand (mt : Mt64) : UInt64 × Mt64 :=
  let mt :=
    if nn ≤ mt.mti then
      -- a state that was never seeded gets the default seed first
      let mt := if nn + 1 = mt.mti then __mt64Seed mt 5489 else mt
      { mt := refill mt.mt, mti := 0 : Mt64 }
    else mt
  (temper (rd mt.mt mt.mti), { mt with mti := mt.mti + 1 })

section Pointers
variable {ι : Type} [DecidableEq ι]

def mt64Seed (mt : Option ι) (seed : UInt64) (w : Prngs ι) : Prngs ι :=
  w.set (__mt64Seed (w.get mt) seed) mt

def mt64Rand (mt : Option ι) (w : Prngs ι) : UInt64 × Prngs ι :=
  let r := __mt64Rand (w.get mt)
  (r.1, w.set r.2 mt)

def mt64Randn (mt : Option ι) (buf : Nat → UInt64) (len : Nat) (w : Prngs ι) :
    (Nat → UInt64) × Prngs ι :=
  forRange 0 len (fun i s =>
    let r := mt64Rand mt s.2
    (Function.update s.1 i r.1, r.2)) (buf, w)

end Pointers

/-- The words of the MT19937-64 recurrence. -/
def word (seed : UInt64) : Nat → UInt64
  | 0 => seed
  | n + 1 =>
    if n + 1 < 312 then
      (6364136223846793005 : UInt64) * (word seed n ^^^ (word seed n >>> 62)) + UInt64.ofNat (n + 1)
    else
      let k := n + 1 - 312
      let y := (word seed k &&& um) ||| (word seed (k + 1) &&& lm)
      word seed (k + 156) ^^^ (y >>> 1) ^^^ (if y % 2 = 1 then 0xb5026f5aa96619e9 else 0)
termination_by n => n
decreasing_by all_goals omega

/-- The states a PRNG passes through when it is called and called again. -/
def drawn [DecidableEq ι] (mt : Option ι) (w : Prngs ι) : Nat → Prngs ι
  | 0 => w
  | k + 1 => (mt64Rand mt (drawn mt w k)).2

theorem word_zero (seed : UInt64) : word seed 0 = seed := by
  rw [word]

theorem word_seed (seed : UInt64) {n : Nat} (h : n + 1 < 312) :
    word seed (n + 1) =
      seedMul * (word seed n ^^^ (word seed n >>> 62)) + UInt64.ofNat (n + 1) := by
  rw [word, if_pos h]
  rfl

theorem mag01_odd (y : UInt64) :
    mag01 (y &&& 1) = if y % 2 = 1 then 0xb5026f5aa96619e9 else 0 := by
  have hy : y &&& 1 = y % 2 := by
    apply UInt64.toNat_inj.mp
    simp
  have hcase : y % 2 = 0 ∨ y % 2 = 1 := by
    rcases Nat.mod_two_eq_zero_or_one y.toNat with h | h
    · exact Or.inl (UInt64.toNat_inj.mp (by simpa using h))
    · exact Or.inr (UInt64.toNat_inj.mp (by simpa using h))
  rw [hy]
  rcases hcase with h | h <;> simp [mag01, h]

/-- The recurrence, in the form the refill computes it. -/
theorem word_twist (seed : UInt64) (n : Nat) :
    word seed (n + 312) = twist (word seed n) (word seed (n + 1)) (word seed (n + 156)) := by
  rw [show n + 312 = (n + 311) + 1 from rfl, word, if_neg (by omega)]
  simp only [show n + 311 + 1 - 312 = n by omega, twist, mag01_odd]

/-- The array holds the `b`-th block of 312 words. -/
def Block (seed : UInt64) (b : Nat) (p : Vector UInt64 nn) : Prop :=
  ∀ i, i < 312 → rd p i = word seed (312 * b + i)

/-- The refill has written the words below `i`; the others are still old. -/
def Refilled (seed : UInt64) (b i : Nat) (p : Vector UInt64 nn) : Prop :=
  ∀ j, j < 312 → rd p j = word seed (312 * (if j < i then b + 1 else b) + j)

theorem seed_block (mt : Mt64) (seed : UInt64) : Block seed 0 (__mt64Seed mt seed).mt := by
  let I := fun (i : Nat) (p : Vector UInt64 nn) => ∀ j, j < i → rd p j = word seed j
  have hI : I (1 + 311) (__mt64Seed mt seed).mt := by
    apply forRange_inv I
    · intro j hj
      have : j = 0 := by omega
      subst this
      rw [rd_wr_self _ _ (by decide), word_zero]
    · intro i p hl hi hp j hj
      unfold seedWord
      by_cases hji : i = j
      · subst hji
        obtain ⟨k, rfl⟩ : ∃ k, i = k + 1 := ⟨i - 1, by omega⟩
        rw [rd_wr_self _ _ (by change _ < 312; omega), word_seed seed (by omega)]
        rw [show k + 1 - 1 = k by omega, hp k (by omega)]
      · rw [rd_wr_ne _ _ hji]
        exact hp j (by omega)
  intro i hi
  rw [hI i (by omega)]
  congr 1
  omega

theorem Refilled.old (h : Refilled seed b i p) (hj : i ≤ j) (hn : j < 312) :
    rd p j = word seed (312 * b + j) := by
  rw [h j hn, if_neg (by omega)]

theorem Refilled.new (h : Refilled seed b i p) (hj : j < i) (hn : j < 312) :
    rd p j = word seed (312 * (b + 1) + j) := by
  rw [h j hn, if_pos hj]

/-- Writing the recurrence's word at `i` moves the border past `i`. -/
theorem Refilled.write (h : Refilled seed b i p) (hi : i < 312)
    (hv : v = word seed (312 * b + i + 312)) : Refilled seed b (i + 1) (wr p i v) := by
  intro j hj
  by_cases hji : i = j
  · subst hji
    rw [rd_wr_self _ _ hi, if_pos (by omega), hv]
    congr 1
    omega
  · rw [rd_wr_ne _ _ hji, h j hj]
    by_cases hlt : j < i
    · rw [if_pos hlt, if_pos (by omega)]
    · rw [if_neg hlt, if_neg (by omega)]

/-- Front: all three words read are old. -/
theorem Refilled.front (h : Refilled seed b i p) (hi : i < 156) :
    Refilled seed b (i + 1) (refillFront i p) := by
  apply h.write (by omega)
  rw [h.old (Nat.le_refl i) (by omega), h.old (j := i + 1) (by omega) (by omega)]
  rw [h.old (j := i + 156) (by omega) (by omega), word_twist]
  simp only [Nat.add_assoc]

theorem backIndex_eq {i : Nat} (hl : 156 ≤ i) (hi : i < 311) : backIndex i = i - 156 := by
  change (i + (2 ^ 64 - 156)) % 2 ^ 64 = i - 156
  omega

/-- Back: the wrapped index reads a word already refilled. -/
theorem Refilled.back (h : Refilled seed b i p) (hl : 156 ≤ i) (hi : i < 311) :
    Refilled seed b (i + 1) (refillBack i p) := by
  apply h.write (by omega)
  rw [h.old (Nat.le_refl i) (by omega), h.old (j := i + 1) (by omega) (by omega)]
  rw [backIndex_eq hl hi, h.new (j := i - 156) (by omega) (by omega), word_twist]
  rw [show 312 * (b + 1) + (i - 156) = 312 * b + i + 156 by omega]
  simp only [Nat.add_assoc]

/-- Last: the low bits come from the new first word. -/
theorem Refilled.last (h : Refilled seed b 311 p) : Refilled seed b 312 (refillLast p) := by
  apply h.write (i := 311) (by decide)
  change twist (rd p 311) (rd p 0) (rd p 155) = _
  rw [h.old (j := 311) (by decide) (by decide), h.new (j := 0) (by decide) (by decide)]
  rw [h.new (j := 155) (by decide) (by decide), word_twist]
  rfl

theorem refill_block (h : Block seed b p) : Block seed (b + 1) (refill p) := by
  have hstart : Refilled seed b 0 p := by
    intro j hj
    rw [if_neg (by omega)]
    exact h j hj
  have hfront : Refilled seed b 156 (forRange 0 156 refillFront p) :=
    forRange_inv (Refilled seed b) hstart fun i t _ hi ht => ht.front (by omega)
  have hback : Refilled seed b 311 (forRange 156 155 refillBack (forRange 0 156 refillFront p)) :=
    forRange_inv (Refilled seed b) hfront fun i t hl hi ht => ht.back hl (by omega)
  intro i hi
  exact hback.last.new hi hi

/-- The next output is the tempered word `n`. -/
def Ready (seed : UInt64) (n : Nat) (m : Mt64) : Prop :=
  ∃ b, Block seed b m.mt ∧ m.mti ≤ 312 ∧ 312 * b + m.mti = n

theorem seed_ready (mt : Mt64) (seed : UInt64) : Ready seed 312 (__mt64Seed mt seed) :=
  ⟨0, seed_block mt seed, Nat.le_refl 312, rfl⟩

theorem rand_ready (h : Ready seed n m) :
    (__mt64Rand m).1 = temper (word seed n) ∧ Ready seed (n + 1) (__mt64Rand m).2 := by
  obtain ⟨b, hb, hle, hn⟩ := h
  by_cases hfull : nn ≤ m.mti
  · have hmti : m.mti = 312 := Nat.le_antisymm hle hfull
    have hne : ¬ nn + 1 = m.mti := by rw [hmti]; decide
    simp only [__mt64Rand, hfull, hne, if_true, if_false]
    have hnew := refill_block hb
    have hword : 312 * (b + 1) + 0 = n := by omega
    refine ⟨?_, b + 1, hnew, Nat.le_of_ble_eq_true rfl, ?_⟩
    · rw [hnew 0 (by decide), hword]
    · change 312 * (b + 1) + 1 = n + 1
      omega
  · have hlt : m.mti < 312 := Nat.lt_of_not_le hfull
    simp only [__mt64Rand, hfull, if_false]
    refine ⟨?_, b, hb, hlt, ?_⟩
    · rw [hb m.mti hlt, hn]
    · change 312 * b + (m.mti + 1) = n + 1
      omega

section Sequence
variable {ι : Type} [DecidableEq ι]

@[simp] theorem Prngs.get_set (w : Prngs ι) (m : Mt64) (mt : Option ι) :
    (w.set m mt).get mt = m := by
  cases mt <;> simp [Prngs.get, Prngs.set]

theorem seeded_ready (mt : Option ι) (seed : UInt64) (w : Prngs ι) :
    Ready seed 312 ((mt64Seed mt seed w).get mt) := by
  rw [mt64Seed, Prngs.get_set]
  exact seed_ready _ seed

theorem draw_ready {mt : Option ι} {w : Prngs ι} (h : Ready seed n (w.get mt)) :
    (mt64Rand mt w).1 = temper (word seed n) ∧ Ready seed (n + 1) ((mt64Rand mt w).2.get mt) := by
  simp only [mt64Rand, Prngs.get_set]
  exact rand_ready h

theorem drawn_ready {mt : Option ι} {w : Prngs ι} (h : Ready seed n (w.get mt)) (k : Nat) :
    Ready seed (n + k) ((drawn mt w k).get mt) := by
  induction k with
  | zero => exact h
  | succ k ih => exact (draw_ready ih).2

/-- The array fill is the same sequence of single draws. -/
theorem randn_ready {mt : Option ι} {w : Prngs ι} (h : Ready seed n (w.get mt))
    (buf : Nat → UInt64) (len : Nat) :
    (∀ i, (mt64Randn mt buf len w).1 i = if i < len then temper (word seed (n + i)) else buf i) ∧
      (mt64Randn mt buf len w).2 = drawn mt w len := by
  let I := fun (i : Nat) (s : (Nat → UInt64) × Prngs ι) =>
    (∀ j, s.1 j = if j < i then temper (word seed (n + j)) else buf j) ∧ s.2 = drawn mt w i
  have hI : I (0 + len) (mt64Randn mt buf len w) := by
    apply forRange_inv I ⟨fun j => rfl, rfl⟩
    rintro i ⟨c, v⟩ _ _ ⟨hc, rfl⟩
    refine ⟨fun j => ?_, rfl⟩
    dsimp only at hc ⊢
    by_cases hji : j = i
    · subst hji
      simp [(draw_ready (drawn_ready h j)).1]
    · rw [Function.update_of_ne hji, hc j]
      by_cases hlt : j < i
      · rw [if_pos hlt, if_pos (by omega)]
      · rw [if_neg hlt, if_neg (by omega)]
  simpa [I] using hI

/-- Through any number of refills, the `k`-th draw after seeding is word
`312 + k` of the recurrence, tempered. Filling an array stores the next ones
in order, leaves the rest of the array alone and counts as that many draws. -/
theorem mt64_recurrence (mt : Option ι) (seed : UInt64) (w : Prngs ι) (k : Nat) :
    (mt64Rand mt (drawn mt (mt64Seed mt seed w) k)).1 = temper (word seed (312 + k)) ∧
    ∀ (buf : Nat → UInt64) (len : Nat),
      (∀ i, (mt64Randn mt buf len (drawn mt (mt64Seed mt seed w) k)).1 i =
        if i < len then temper (word seed (312 + k + i)) else buf i) ∧
      (mt64Randn mt buf len (drawn mt (mt64Seed mt seed w) k)).2 =
        drawn mt (drawn mt (mt64Seed mt seed w) k) len := by
  have hk := drawn_ready (seeded_ready mt seed w) k
  exact ⟨(draw_ready hk).1, fun buf len => randn_ready hk buf len⟩

end Sequence

end Oin17.Crypto
