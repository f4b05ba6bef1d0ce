import Mathlib.Algebra.Order.Ring.Int

namespace Oin17.Cint

/-- A `size_t` kept in an `int`. -/
def toInt (n : Nat) : Int :=
  if n % 2 ^ 32 < 2 ^ 31 then (n % 2 ^ 32 : Nat) else (n % 2 ^ 32 : Nat) - 2 ^ 32

/-- An `int` used as a `size_t` or as a `uint64_t`. -/
def toSize (n : Int) : Nat := (n % 2 ^ 64).toNat

/-- `n++` and `n--` on a `size_t`. -/
def incr (n : Nat) : Nat := (n + 1) % 2 ^ 64
def decr (n : Nat) : Nat := (n + (2 ^ 64 - 1)) % 2 ^ 64

/-- Sums and differences of a `size_t`. -/
def add (a b : Nat) : Nat := (a + b) % 2 ^ 64
def sub (a b : Nat) : Nat := (a + (2 ^ 64 - b)) % 2 ^ 64

/-- Products of a `size_t`. -/
def mul (a b : Nat) : Nat := (a * b) % 2 ^ 64

theorem toInt_small {n : Nat} (h : n < 2 ^ 31) : toInt n = n := by
  unfold toInt
  omega

/-- Counting down from `(size_t)-1` gives the negative numbers. -/
theorem toInt_neg {k : Nat} (h0 : 0 < k) (h : k < 2 ^ 31) : toInt (2 ^ 64 - k) = -(k : Int) := by
  unfold toInt
  omega

theorem toInt_eq_zero {n : Nat} : toInt n = 0 ↔ n % 2 ^ 32 = 0 := by
  unfold toInt
  omega

theorem toSize_natCast {n : Nat} (h : n < 2 ^ 64) : toSize n = n := by
  unfold toSize
  omega

theorem incr_small {n : Nat} (h : n + 1 < 2 ^ 64) : incr n = n + 1 := Nat.mod_eq_of_lt h

theorem decr_pos {n : Nat} (h0 : 0 < n) (h : n < 2 ^ 64) : decr n = n - 1 := by
  unfold decr
  omega

theorem add_small {a b : Nat} (h : a + b < 2 ^ 64) : add a b = a + b := Nat.mod_eq_of_lt h

theorem mul_small {a b : Nat} (h : a * b < 2 ^ 64) : mul a b = a * b := Nat.mod_eq_of_lt h

theorem sub_small {a b : Nat} (hb : b ≤ a) (h : a < 2 ^ 64) : sub a b = a - b := by
  unfold sub
  omega

theorem add_sub_small {a b c : Nat} (hb : b ≤ a + c) (h : a + c < 2 ^ 64) :
    add (sub a b) c = a + c - b := by
  unfold add sub
  omega

theorem sub_eq_zero {a b : Nat} (ha : a < 2 ^ 64) (hb : b < 2 ^ 64) : sub a b = 0 ↔ a = b := by
  unfold sub
  omega

end Oin17.Cint
