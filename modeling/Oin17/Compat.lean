import Mathlib.Algebra.Order.Ring.Int

namespace Oin17.Compat

/-- `realloc`, which gives a block of at least the bytes it is asked for or fails.
A block lies inside the address space. -/
structure Realloc where
  give : Nat → Option Nat
  enough : give n = some b → n ≤ b
  inside : give n = some b → b < 2 ^ 64

/-- The allocator that gives what it is asked for. -/
def Realloc.exact : Realloc where
  give n := if n < 2 ^ 64 then some n else none
  enough h := by
    split at h
    · exact Nat.le_of_eq (Option.some.inj h)
    · cases h
  inside h := by
    split at h
    · next hn => rwa [← Option.some.inj h]
    · cases h

/-- The allocator that has nothing left. -/
def Realloc.fails : Realloc where
  give _ := none
  enough h := by cases h
  inside h := by cases h

def sizeMax : Nat := 2 ^ 64 - 1

/-- This is sqrt(SIZE_MAX+1). -/
def mulNoOverflow : Nat := 2 ^ 32

/-- The size of the new block. The old one stays where there is none. -/
def reallocarray (realloc : Realloc) (nmemb size : Nat) : Option Nat :=
  if (mulNoOverflow ≤ nmemb ∨ mulNoOverflow ≤ size) ∧ 0 < nmemb ∧ sizeMax / nmemb < size then none
  else realloc.give ((size * nmemb) % 2 ^ 64)

/-- The product is taken where it does not wrap. -/
theorem reallocarray_eq (realloc : Realloc) (nmemb size : Nat) :
    reallocarray realloc nmemb size =
      if 2 ^ 64 ≤ nmemb * size then none else realloc.give (nmemb * size) := by
  unfold reallocarray mulNoOverflow sizeMax
  rw [Nat.mul_comm size nmemb]
  by_cases hbig : 2 ^ 64 ≤ nmemb * size
  · have hpos : 0 < nmemb := by
      apply Nat.pos_of_ne_zero
      rintro rfl
      omega
    have hone : 2 ^ 32 ≤ nmemb ∨ 2 ^ 32 ≤ size := by
      by_contra hlt
      have hsmall : nmemb * size ≤ (2 ^ 32 - 1) * (2 ^ 32 - 1) :=
        Nat.mul_le_mul (by omega) (by omega)
      omega
    have hdiv : (2 ^ 64 - 1) / nmemb < size := by
      rw [Nat.div_lt_iff_lt_mul hpos, Nat.mul_comm]
      omega
    rw [if_pos hbig, if_pos ⟨hone, hpos, hdiv⟩]
  · rw [if_neg hbig, if_neg, Nat.mod_eq_of_lt (by omega)]
    rintro ⟨-, hpos, hlt⟩
    rw [Nat.div_lt_iff_lt_mul hpos, Nat.mul_comm] at hlt
    omega

theorem reallocarray_some {realloc : Realloc} (h : reallocarray realloc nmemb size = some b) :
    nmemb * size ≤ b ∧ b < 2 ^ 64 := by
  rw [reallocarray_eq] at h
  split at h
  · cases h
  · exact ⟨realloc.enough h, realloc.inside h⟩

end Oin17.Compat
