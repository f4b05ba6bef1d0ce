import Oin17.Lib.Loop
import Oin17.Lib.Memory

namespace Oin17.Compat
open Loop Memory

/-- One pass of the copying loop, over `i` and the destination. -/
def copyBody (src : Buf) (dlen : Nat) : Nat × Buf → Option (Nat × Buf ⊕ Nat × Buf)
  | (i, dst) =>
    if dlen ≤ i then some (.inr (i, dst))
    else
      let dst := Function.update dst i (src i)
      if src i = 0 then some (.inr (i, dst)) else some (.inl (i + 1, dst))

/-- One pass of the loop that counts what is left of the source. -/
def countBody (src : Buf) (i : Nat) : Option (Nat ⊕ Nat) :=
  if src i = 0 then some (.inr i) else some (.inl (i + 1))

def strlcpy (fuel : Nat) (dst src : Buf) (dlen : Nat) : Option (Nat × Buf) := do
  let (i, dst) ← if dlen ≠ 0 then run (copyBody src (dlen - 1)) fuel (0, dst) else some (0, dst)
  let i ← run (countBody src) fuel i
  return (i, dst)

theorem copyBody_full (h : dlen ≤ i) : copyBody src dlen (i, dst) = some (.inr (i, dst)) :=
  if_pos h

theorem copyBody_nul (h : i < dlen) (hz : src i = 0) :
    copyBody src dlen (i, dst) = some (.inr (i, Function.update dst i 0)) := by
  simp [copyBody, Nat.not_le.mpr h, hz]

theorem copyBody_pass (h : i < dlen) (hne : src i ≠ 0) :
    copyBody src dlen (i, dst) = some (.inl (i + 1, Function.update dst i (src i))) := by
  simp [copyBody, Nat.not_le.mpr h, hne]

/-- The loop copies the NUL like any other byte, so only where there is room for it. -/
theorem copy_run (hs : Holds src o s) (h0 : 0 ∉ s) (hf : s.length < fuel) (dst : Buf) (n : Nat) :
    run (copyBody src (o + n)) fuel (o, dst) =
      some (o + min s.length n, store dst o ((s ++ [0]).take n)) := by
  revert dst n
  refine Holds.scan (P := fun o s fuel => ∀ dst n, run (copyBody src (o + n)) fuel (o, dst) =
    some (o + min s.length n, store dst o ((s ++ [0]).take n))) ?_ ?_ hs h0 hf
  · intro o fuel hz dst n
    cases n with
    | zero =>
      rw [run_leave (copyBody_full (Nat.le_of_eq (Nat.add_zero o))), List.take_zero, store_nil]
      rfl
    | succ n =>
      rw [run_leave (copyBody_nul (by omega) hz), List.nil_append, List.take_succ_cons,
        List.take_nil, ← store_cons, store_nil]
      simp
  · rintro o c t fuel rfl hne ih dst n
    cases n with
    | zero =>
      rw [run_leave (copyBody_full (Nat.le_of_eq (Nat.add_zero o))), List.take_zero, store_nil,
        Nat.min_zero]
      rfl
    | succ n =>
      have hrest := ih (Function.update dst o (src o)) n
      rw [Nat.add_assoc, Nat.add_comm 1 n] at hrest
      rw [run_pass (copyBody_pass (by omega) hne), hrest, store_cons, List.cons_append,
        List.take_succ_cons, List.length_cons, Nat.succ_min_succ, Nat.add_right_comm, Nat.add_assoc]

theorem count_run (hs : Holds src o s) (h0 : 0 ∉ s) (hf : s.length < fuel) :
    run (countBody src) fuel o = some (o + s.length) := by
  refine Holds.scan (P := fun o s fuel => run (countBody src) fuel o = some (o + s.length))
    ?_ ?_ hs h0 hf
  · intro o fuel hz
    have hleave : countBody src o = some (.inr o) := if_pos hz
    exact run_leave hleave fuel
  · rintro o c t fuel rfl hne ih
    have hpass : countBody src o = some (.inl (o + 1)) := if_neg hne
    rw [run_pass hpass, ih, List.length_cons, Nat.add_right_comm, Nat.add_assoc]

/-- What `strlcpy` does with a destination of any size. -/
theorem strlcpy_eq (hs : Holds src 0 s) (h0 : 0 ∉ s) (hf : s.length < fuel) (dst : Buf)
    (dlen : Nat) : strlcpy fuel dst src dlen =
      some (s.length, store dst 0 ((s ++ [0]).take (dlen - 1))) := by
  have hcount : ∀ i ≤ s.length, run (countBody src) fuel i = some s.length := by
    intro i hi
    have hrest := hs.drop hi
    rw [Nat.zero_add] at hrest
    rw [count_run hrest (fun hz => h0 (List.mem_of_mem_drop hz)) (by rw [List.length_drop]; omega),
      List.length_drop, Nat.add_sub_cancel' hi]
  unfold strlcpy
  by_cases hd : dlen = 0
  · subst hd
    simp [hcount 0 (Nat.zero_le _), store_nil]
  · have hcopy := copy_run hs h0 hf dst (dlen - 1)
    rw [Nat.zero_add, Nat.zero_add] at hcopy
    simp [hd, hcopy, hcount _ (Nat.min_le_left _ _)]

/-- A string cut to the size of its destination, which is otherwise left alone. -/
def Copied (fuel : Nat) (dst src : Buf) (dlen : Nat) (s : List UInt8) : Prop :=
  ∃ out, strlcpy fuel dst src dlen = some (s.length, out) ∧
    Holds out 0 (s.take (dlen - 1)) ∧ ∀ i, dlen ≤ i → out i = dst i

/-- The NUL of a string that does not fit is left to what the destination had there. -/
theorem strlcpy_iff (dst src : Buf) (dlen : Nat) (s : List UInt8) (hs : Holds src 0 s)
    (h0 : 0 ∉ s) (hd : 1 ≤ dlen) (hf : s.length < fuel) :
    Copied fuel dst src dlen s ↔ s.length + 1 < dlen ∨ dst (dlen - 1) = 0 := by
  have hout : ∀ i, dlen ≤ i → store dst 0 ((s ++ [0]).take (dlen - 1)) i = dst i := by
    intro i hi
    apply store_out
    rw [List.length_take]
    omega
  have hspec : Copied fuel dst src dlen s ↔
      Holds (store dst 0 ((s ++ [0]).take (dlen - 1))) 0 (s.take (dlen - 1)) := by
    rw [Copied, strlcpy_eq hs h0 hf]
    constructor
    · rintro ⟨out, hrun, hold, -⟩
      cases hrun
      exact hold
    · exact fun hold => ⟨_, rfl, hold, hout⟩
  rw [hspec]
  by_cases hfit : s.length + 1 < dlen
  · rw [List.take_of_length_le (by simp; omega), List.take_of_length_le (by omega)]
    exact iff_of_true (holds_store dst s) (Or.inl hfit)
  · have hlen : (s.take (dlen - 1)).length = dlen - 1 := by
      rw [List.length_take]
      omega
    have hcut : (s ++ [0]).take (dlen - 1) = s.take (dlen - 1) :=
      List.take_append_of_le_length (by omega)
    rw [hcut, Holds, load_store, hlen, Nat.zero_add, store_out _ _ (by omega)]
    simp [hfit]

/-- Three characters and their NUL in five bytes. -/
theorem strlcpy_iff_abc :
    Copied 4 (fun _ => 7) (fun i => [97, 98, 99].getD i 0) 5 [97, 98, 99] ↔
      3 + 1 < 5 ∨ (7 : UInt8) = 0 :=
  strlcpy_iff (fun _ => 7) _ 5 [97, 98, 99] ⟨by decide, by decide⟩ (by decide) (by decide)
    (by decide)

/-- `ab` does not fit two bytes, and the second one stays as it was. -/
theorem strlcpy_ab :
    ((strlcpy 3 (fun _ => 7) (fun i => [97, 98].getD i 0) 2).map fun r => (r.1, load r.2 0 3)) =
      some (2, [97, 7, 7]) ∧
    ¬ Copied 3 (fun _ => 7) (fun i => [97, 98].getD i 0) 2 [97, 98] := by
  refine ⟨by decide, ?_⟩
  rintro ⟨out, hrun, hold, -⟩
  have hone : ((strlcpy 3 (fun _ => 7) (fun i => [97, 98].getD i 0) 2).map fun r => r.2 1) =
      some 7 := by decide
  rw [hrun] at hone
  have hz : out 1 = 0 := hold.2
  simp [hz] at hone

end Oin17.Compat
