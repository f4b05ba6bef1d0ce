import Oin17.Utils.U64str

namespace Oin17.Chals
open Loop Memory Utils

/-- One pass of the loop of `mku64str`, over the buffer and the offset in it. A
buffer that holds the string is too short for the offset to wrap. -/
def appendU64 (buf : Nat → UInt64) (i : Nat) (s : Buf × Nat) : Buf × Nat :=
  let (dst, n) := u64str (buf i).toNat s.1 s.2
  (dst, s.2 + n)

/-- Convert an array of u64 to a string. -/
def mku64str (buf : Nat → UInt64) (cnt : Nat) (dst : Buf) : Buf × Nat :=
  let (dst, o) := forRange 0 cnt (appendU64 buf) (dst, 0)
  (Function.update dst o 0, o)

/-- The elements in decimal, one behind the other. -/
def decimals (buf : Nat → UInt64) (cnt : Nat) : List UInt8 :=
  (List.range cnt).flatMap fun i => decimal (buf i).toNat

/-- What is written of them: nothing for a zero. -/
def written (buf : Nat → UInt64) (cnt : Nat) : List UInt8 :=
  (List.range cnt).flatMap fun i => Utils.digits (buf i).toNat

section
variable {buf : Nat → UInt64} {cnt : Nat}

theorem written_succ (buf : Nat → UInt64) (cnt : Nat) :
    written buf (cnt + 1) = written buf cnt ++ Utils.digits (buf cnt).toNat := by
  simp [written, List.range_succ, List.flatMap_append]

theorem decimals_succ (buf : Nat → UInt64) (cnt : Nat) :
    decimals buf (cnt + 1) = decimals buf cnt ++ decimal (buf cnt).toNat := by
  simp [decimals, List.range_succ, List.flatMap_append]

theorem appendU64_store (dst : Buf) (text : List UInt8) (i : Nat) :
    appendU64 buf i (store dst 0 text, text.length) =
      (store dst 0 (text ++ Utils.digits (buf i).toNat),
        (text ++ Utils.digits (buf i).toNat).length) := by
  simp [appendU64, u64str_spec, store_append]

/-- The string and its NUL; no other byte of the buffer changes. -/
theorem mku64str_spec (buf : Nat → UInt64) (cnt : Nat) (dst : Buf) :
    mku64str buf cnt dst =
      (store dst 0 (written buf cnt ++ [0]), (written buf cnt).length) := by
  have hloop : forRange 0 cnt (appendU64 buf) (dst, 0) =
      (store dst 0 (written buf cnt), (written buf cnt).length) := by
    induction cnt with
    | zero => simp [forRange, written, store_nil]
    | succ cnt ih => rw [forRange, ih, Nat.zero_add, appendU64_store, written_succ]
  simp only [mku64str, hloop, store_append, Nat.zero_add]
  rw [← store_cons, store_nil]

theorem digits_length_le_decimal (n : Nat) : (Utils.digits n).length ≤ (decimal n).length := by
  unfold Utils.digits
  split
  · exact Nat.zero_le _
  · exact Nat.le_refl _

theorem decimal_length_le (hk : 0 < k) (h : n < 10 ^ k) : (decimal n).length ≤ k := by
  rw [decimal, List.length_map]
  exact (Nat.length_toDigits_le_iff (by decide) hk).mpr h

/-- A 64-bit number has at most 20 digits. -/
theorem digits_length_le (x : UInt64) : (Utils.digits x.toNat).length ≤ 20 := by
  have hlt := x.toNat_lt
  exact (digits_length_le_decimal x.toNat).trans (decimal_length_le (by decide) (by omega))

theorem written_length_le (buf : Nat → UInt64) (cnt : Nat) :
    (written buf cnt).length ≤ 20 * cnt := by
  induction cnt with
  | zero => simp [written]
  | succ cnt ih =>
    have hdigits := digits_length_le (buf cnt)
    rw [written_succ, List.length_append]
    omega

theorem decimal_length_pos (n : Nat) : 0 < (decimal n).length := by
  simp [decimal, Nat.length_toDigits_pos]

theorem written_eq (h : ∀ i, i < cnt → buf i ≠ 0) : written buf cnt = decimals buf cnt := by
  induction cnt with
  | zero => rfl
  | succ cnt ih =>
    have hpos : 0 < (buf cnt).toNat := by
      apply Nat.pos_of_ne_zero
      intro h0
      exact h cnt (Nat.lt_succ_self cnt) (UInt64.toNat_inj.mp h0)
    rw [written_succ, decimals_succ, digits_pos hpos, ih fun i hi => h i (by omega)]

theorem written_length_le_decimals (buf : Nat → UInt64) (cnt : Nat) :
    (written buf cnt).length ≤ (decimals buf cnt).length := by
  induction cnt with
  | zero => exact Nat.le_refl 0
  | succ cnt ih =>
    have := digits_length_le_decimal (buf cnt).toNat
    rw [written_succ, decimals_succ, List.length_append, List.length_append]
    omega

/-- The digit of a zero is missing from the string. -/
theorem written_length_lt (hi : i < cnt) (h0 : buf i = 0) :
    (written buf cnt).length < (decimals buf cnt).length := by
  induction cnt with
  | zero => omega
  | succ cnt ih =>
    have hall := written_length_le_decimals buf cnt
    have hlast := digits_length_le_decimal (buf cnt).toNat
    rw [written_succ, decimals_succ, List.length_append, List.length_append]
    by_cases hic : i = cnt
    · subst hic
      have hpos := decimal_length_pos (buf i).toNat
      have hnone : (Utils.digits (buf i).toNat).length = 0 := by simp [h0, Utils.digits]
      omega
    · have := ih (by omega)
      omega

/-- `mku64str` writes the decimal representations and one NUL, and nothing else,
exactly when no element is zero. -/
theorem mku64str_decimal_iff (buf : Nat → UInt64) (cnt : Nat) (dst : Buf) :
    mku64str buf cnt dst = (store dst 0 (decimals buf cnt ++ [0]), (decimals buf cnt).length) ↔
      ∀ i, i < cnt → buf i ≠ 0 := by
  rw [mku64str_spec]
  constructor
  · intro h i hi h0
    have := written_length_lt hi h0
    exact Nat.ne_of_lt this (congrArg Prod.snd h)
  · intro h
    rw [written_eq h]

end

/-- A zero between two ones: the string is `11`, not `101`. -/
theorem mku64str_zero :
    ¬ mku64str (fun i => if i = 1 then 0 else 1) 3 (fun _ => 0) =
        (store (fun _ => 0) 0 (decimals (fun i => if i = 1 then 0 else 1) 3 ++ [0]),
          (decimals (fun i => if i = 1 then 0 else 1) 3).length) ∧
      decimals (fun i => if i = 1 then 0 else 1) 3 = bytes "101" ∧
      load (mku64str (fun i => if i = 1 then 0 else 1) 3 fun _ => 0).1 0 3 = bytes "11" ++ [0] := by
  refine ⟨fun h => ?_, by decide, ?_⟩
  · rw [mku64str_spec] at h
    exact absurd (congrArg Prod.snd h) (by decide)
  · rw [mku64str_spec]
    decide

end Oin17.Chals
