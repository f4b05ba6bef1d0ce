import Mathlib.Tactic.IntervalCases
import Oin17.Lib.Loop
import Oin17.Lib.Memory

namespace Oin17.Utils
open Loop Memory

/-- The three statements that swap two bytes without a temporary. -/
def swapXor (b : Buf) (p q : Nat) : Buf :=
  let b := Function.update b p (b p ^^^ b q)
  let b := Function.update b q (b q ^^^ b p)
  Function.update b p (b p ^^^ b q)

/-- Reverses the `l` bytes at `o`. The wrapped `l--` of an empty string is
never used. -/
def strnrev (b : Buf) (o l : Nat) : Buf :=
  forRange 0 (l / 2) (fun i b => swapXor b (o + i) (o + (l - 1 - i))) b

def u64strLoop (buf : Buf) (o i val : Nat) : Buf × Nat :=
  if val = 0 then (buf, i)
  else u64strLoop (Function.update buf (o + i) (UInt8.ofNat (48 + val % 10))) o (i + 1) (val / 10)
termination_by val

/-- Writes at `o` and returns the number of bytes written, with no NUL. -/
def u64str (val : Nat) (buf : Buf) (o : Nat) : Buf × Nat :=
  let (buf, i) := u64strLoop buf o 0 val
  (strnrev buf o i, i)

section Array
variable (n : Nat)

/-- The same four in an array of `n` bytes. They have no result when they leave it. -/
def swapXorIn (b : Buf) (p q : Nat) : Option Buf := do
  let b ← poke n b p ((← peek n b p) ^^^ (← peek n b q))
  let b ← poke n b q ((← peek n b q) ^^^ (← peek n b p))
  poke n b p ((← peek n b p) ^^^ (← peek n b q))

def strnrevIn (b : Buf) (o l : Nat) : Option Buf :=
  forRangeM 0 (l / 2) (fun i b => swapXorIn n b (o + i) (o + (l - 1 - i))) b

def u64strLoopIn (buf : Buf) (o i val : Nat) : Option (Buf × Nat) :=
  if val = 0 then some (buf, i)
  else (poke n buf (o + i) (UInt8.ofNat (48 + val % 10))).bind fun buf =>
    u64strLoopIn buf o (i + 1) (val / 10)
termination_by val

def u64strIn (val : Nat) (buf : Buf) (o : Nat) : Option (Buf × Nat) := do
  let (buf, i) ← u64strLoopIn n buf o 0 val
  let buf ← strnrevIn n buf o i
  pure (buf, i)

end Array

/-- The usual decimal representation, in ASCII. -/
def decimal (n : Nat) : List UInt8 := (Nat.toDigits 10 n).map fun c => UInt8.ofNat c.toNat

/-- What `u64str` writes: the decimal representation, but nothing for zero. -/
def digits (n : Nat) : List UInt8 := if n = 0 then [] else decimal n

theorem digitChar_ascii (d : Nat) (h : d < 10) :
    UInt8.ofNat (Nat.digitChar d).toNat = UInt8.ofNat (48 + d) := by
  interval_cases d <;> rfl

/-- The last digit comes off the end, as the loop takes it. -/
theorem digits_step {n : Nat} (h : n ≠ 0) :
    digits n = digits (n / 10) ++ [UInt8.ofNat (48 + n % 10)] := by
  have hdigit := digitChar_ascii (n % 10) (Nat.mod_lt _ (by omega))
  unfold digits decimal
  rw [if_neg h, Nat.toDigits_eq_if (by omega)]
  by_cases hlt : n < 10
  · have hmod : n % 10 = n := Nat.mod_eq_of_lt hlt
    rw [if_pos hlt, if_pos (by omega)]
    rw [hmod] at hdigit ⊢
    simp [hdigit]
  · rw [if_neg hlt, if_neg (by omega)]
    simp [hdigit]

theorem digits_pos {n : Nat} (h : 0 < n) : digits n = decimal n := by
  rw [digits, if_neg (by omega)]

theorem swapXor_eq (b : Buf) {p q : Nat} (h : p ≠ q) :
    swapXor b p q = Function.update (Function.update b p (b q)) q (b p) := by
  have hback (x y : UInt8) : y ^^^ (x ^^^ y) = x := by
    rw [UInt8.xor_comm x y, ← UInt8.xor_assoc, UInt8.xor_self, UInt8.zero_xor]
  have hforth (x y : UInt8) : x ^^^ y ^^^ x = y := by
    rw [UInt8.xor_comm x y, UInt8.xor_assoc, UInt8.xor_self, UInt8.xor_zero]
  funext i
  by_cases hq : i = q
  · subst hq
    simp only [swapXor, Function.update_self, Function.update_of_ne h, Function.update_of_ne h.symm,
      hback]
  · by_cases hp : i = p
    · subst hp
      simp only [swapXor, Function.update_self, Function.update_of_ne h,
        Function.update_of_ne h.symm, hback, hforth]
    · simp [swapXor, Function.update_of_ne hp, Function.update_of_ne hq]

/-- After `i` swaps the outer `i` bytes on each side have changed places. -/
def Swapped (b : Buf) (o l i : Nat) (c : Buf) : Prop :=
  ∀ k, c k = if o ≤ k ∧ k < o + l ∧ (k < o + i ∨ o + (l - i) ≤ k) then b (o + (l - 1 - (k - o)))
    else b k

theorem Swapped.step (h : Swapped b o l i c) (hi : i < l / 2) :
    Swapped b o l (i + 1) (swapXor c (o + i) (o + (l - 1 - i))) := by
  have hlow : c (o + i) = b (o + i) := by
    rw [h, if_neg (by omega)]
  have hhigh : c (o + (l - 1 - i)) = b (o + (l - 1 - i)) := by
    rw [h, if_neg (by omega)]
  rw [swapXor_eq c (by omega), hlow, hhigh]
  intro k
  by_cases hq : k = o + (l - 1 - i)
  · rw [hq, Function.update_self, if_pos (by omega)]
    congr 1
    omega
  · rw [Function.update_of_ne hq]
    by_cases hp : k = o + i
    · rw [hp, Function.update_self, if_pos (by omega)]
      congr 1
      omega
    · rw [Function.update_of_ne hp, h k]
      by_cases hin : o ≤ k ∧ k < o + l ∧ (k < o + i ∨ o + (l - i) ≤ k)
      · rw [if_pos hin, if_pos (by omega)]
      · rw [if_neg hin, if_neg (by omega)]

theorem strnrev_store (b : Buf) (o : Nat) (bs : List UInt8) :
    strnrev (store b o bs) o bs.length = store b o bs.reverse := by
  have hend : Swapped (store b o bs) o bs.length (0 + bs.length / 2)
      (strnrev (store b o bs) o bs.length) := by
    apply forRange_inv (Swapped (store b o bs) o bs.length)
    · intro k
      rw [if_neg (by omega)]
    · intro i c _ hi hc
      exact hc.step (by omega)
  funext k
  rw [hend k]
  by_cases hin : o ≤ k ∧ k < o + bs.length
  · obtain ⟨j, rfl⟩ : ∃ j, k = o + j := ⟨k - o, by omega⟩
    have hj : j < bs.length := by omega
    rw [store_in b bs.reverse (by simpa using hj), List.getElem_reverse]
    by_cases hmid : o + j < o + (0 + bs.length / 2) ∨ o + (bs.length - (0 + bs.length / 2)) ≤ o + j
    · rw [if_pos (by omega), store_in b bs (by omega)]
      congr 1
      omega
    · rw [if_neg (by omega), store_in b bs hj]
      congr 1
      omega
  · rw [if_neg (by omega), store_out b bs (by omega), store_out b _ (by simp; omega)]

theorem u64strLoop_spec (buf : Buf) (o i val : Nat) :
    u64strLoop buf o i val =
      (store buf (o + i) (digits val).reverse, i + (digits val).length) := by
  induction val using Nat.strongRecOn generalizing buf i with
  | ind val ih =>
    rw [u64strLoop]
    by_cases h : val = 0
    · simp [h, digits, store_nil]
    · rw [if_neg h, ih (val / 10) (by omega), digits_step h]
      rw [List.reverse_append, List.reverse_singleton, List.singleton_append]
      rw [← store_cons, List.length_append, List.length_singleton]
      rw [Nat.add_assoc o i 1]
      congr 1
      omega

/-- The string and its length; no other byte of the buffer changes. -/
theorem u64str_spec (val : Nat) (buf : Buf) (o : Nat) :
    u64str val buf o = (store buf o (digits val), (digits val).length) := by
  have h := strnrev_store buf o (digits val).reverse
  rw [List.length_reverse, List.reverse_reverse] at h
  simp only [u64str, u64strLoop_spec, Nat.add_zero, Nat.zero_add, h]

theorem digits_eq_nil {n : Nat} : digits n = [] ↔ n = 0 := by
  constructor
  · intro h
    by_contra hn
    rw [digits_step hn] at h
    simp at h
  · rintro rfl
    rfl

/-- The digits tell the number. -/
theorem digits_inj {n m : Nat} (h : digits n = digits m) : n = m := by
  induction n using Nat.strongRecOn generalizing m with
  | ind n ih =>
    by_cases hn : n = 0
    · rw [digits_eq_nil.mpr hn, eq_comm, digits_eq_nil] at h
      omega
    · have hm : m ≠ 0 := fun hm => hn (digits_eq_nil.mp (h.trans (digits_eq_nil.mpr hm)))
      rw [digits_step hn, digits_step hm] at h
      obtain ⟨hinit, hlast⟩ := List.append_inj' h rfl
      have hdiv := ih (n / 10) (by omega) hinit
      have hmod := congrArg UInt8.toNat (List.singleton_inj.mp hlast)
      simp only [UInt8.toNat_ofNat'] at hmod
      omega

/-- There are no leading zeros. -/
theorem digits_head (n : Nat) : (digits n).head? ≠ some 48 := by
  induction n using Nat.strongRecOn with
  | ind n ih =>
    by_cases hn : n = 0
    · simp [digits_eq_nil.mpr hn]
    · by_cases hdiv : n / 10 = 0
      · rw [digits_step hn, digits_eq_nil.mpr hdiv]
        intro h
        have h := congrArg UInt8.toNat (Option.some.inj h)
        simp only [UInt8.toNat_ofNat'] at h
        change (48 + n % 10) % 256 = 48 at h
        omega
      · have hih := ih (n / 10) (by omega)
        obtain ⟨c, l, hl⟩ := List.exists_cons_of_ne_nil (mt digits_eq_nil.mp hdiv)
        rw [digits_step hn, hl]
        rwa [hl] at hih

theorem swapXorIn_eq (b : Buf) (hp : p < n) (hq : q < n) :
    swapXorIn n b p q = some (swapXor b p q) := by
  simp only [swapXorIn, peek_some hp, peek_some hq, poke_some hp, poke_some hq,
    Option.bind_eq_bind, Option.bind_some, swapXor]

theorem strnrevIn_eq (b : Buf) (h : o + l ≤ n) : strnrevIn n b o l = some (strnrev b o l) :=
  forRangeM_eq (fun i b _ hi => swapXorIn_eq b (by omega) (by omega)) b

theorem u64strLoopIn_eq (buf : Buf) (h : o + i + (digits val).length ≤ n) :
    u64strLoopIn n buf o i val = some (u64strLoop buf o i val) := by
  induction val using Nat.strongRecOn generalizing buf i with
  | ind val ih =>
    rw [u64strLoopIn, u64strLoop]
    by_cases hv : val = 0
    · rw [if_pos hv, if_pos hv]
    · rw [digits_step hv, List.length_append, List.length_singleton] at h
      rw [if_neg hv, if_neg hv, poke_some (by omega), Option.bind_some]
      exact ih (val / 10) (by omega) _ (by omega)

/-- With room for the digits nothing else is touched. -/
theorem u64strIn_eq (buf : Buf) (h : o + (digits val).length ≤ n) :
    u64strIn n val buf o = some (u64str val buf o) := by
  have hloop : u64strLoopIn n buf o 0 val = some (u64strLoop buf o 0 val) :=
    u64strLoopIn_eq buf h
  have hi : (u64strLoop buf o 0 val).2 = (digits val).length := by
    rw [u64strLoop_spec, Nat.zero_add]
  rw [← hi] at h
  simp only [u64strIn, hloop, Option.bind_eq_bind, Option.bind_some, strnrevIn_eq _ h, u64str]
  rfl

theorem swapXorIn_sub (h : swapXorIn n b p q = some c) : c = swapXor b p q := by
  have hp : p < n := by
    by_contra hp
    rw [swapXorIn, peek_none (not_lt.mp hp)] at h
    cases h
  have hq : q < n := by
    by_contra hq
    rw [swapXorIn, peek_some hp, Option.bind_eq_bind, Option.bind_some,
      peek_none (not_lt.mp hq)] at h
    cases h
  rw [swapXorIn_eq b hp hq] at h
  exact (Option.some.inj h).symm

theorem u64strLoopIn_sub (h : u64strLoopIn n buf o i val = some r) :
    r = u64strLoop buf o i val := by
  induction val using Nat.strongRecOn generalizing buf i with
  | ind val ih =>
    rw [u64strLoopIn] at h
    rw [u64strLoop]
    by_cases hv : val = 0
    · rw [if_pos hv] at h ⊢
      exact (Option.some.inj h).symm
    · rw [if_neg hv] at h ⊢
      obtain ⟨buf', hpoke, h⟩ := Option.bind_eq_some_iff.mp h
      obtain ⟨-, rfl⟩ := poke_eq_some.mp hpoke
      exact ih (val / 10) (by omega) h

/-- Where it does not leave the array, it writes what `u64str` does. -/
theorem u64strIn_sub (h : u64strIn n val buf o = some r) : r = u64str val buf o := by
  obtain ⟨⟨b, i⟩, hloop, h⟩ := Option.bind_eq_some_iff.mp h
  obtain ⟨c, hrev, h⟩ := Option.bind_eq_some_iff.mp h
  obtain rfl := Option.some.inj h
  have hi := u64strLoopIn_sub hloop
  have hc : c = strnrev b o i := forRangeM_sub (fun _ _ _ hs => swapXorIn_sub hs) hrev
  rw [u64str, ← hi, hc]

end Oin17.Utils
