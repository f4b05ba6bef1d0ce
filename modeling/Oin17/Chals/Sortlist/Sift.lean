import Oin17.Chals.Sortlist.Heapsort
import Oin17.Chals.Sortlist.Trees

namespace Oin17.Chals.Sortlist
open Cint Leonardo Loop Memory Rearrange

namespace Smooth

theorem cmp_nonneg (x y : UInt64) (rev : Bool) : 0 ≤ cmp x y rev ↔ key rev y ≤ key rev x := by
  have hlt := UInt64.lt_iff_toNat_lt (a := x) (b := y)
  have heq := UInt64.toNat_inj (a := x) (b := y)
  cases rev <;> simp only [cmp, cmp0, key, if_true, Bool.false_eq_true, if_false, hlt, ← heq] <;>
    split <;> (try split) <;> omega

theorem cmp_neg (x y : UInt64) (rev : Bool) : cmp x y rev < 0 ↔ key rev x < key rev y := by
  rw [← not_le, cmp_nonneg, not_le]

/-- A hole at the root of the tree of order `k` from cell `st` on. -/
structure Hole (s : State) (k st : Nat) : Prop where
  r1 : s.r1 = root k st
  b1 : s.b1 = leo k
  c1 : s.c1 = below k

section Sink
variable {s : State} {n fuel k st r0 : Nat} {rev : Bool} {t : UInt64}

theorem Hole.left (h : Hole s (k + 2) st) (hn : root (k + 2) st < 2 ^ 63) (hk : k ≤ 64) :
    add (sub s.r1 s.b1) s.c1 = root (k + 1) st := by
  have hroot := root_succ (k + 2) st
  have hleft := root_succ (k + 1) st
  have hsmall := leo_small (k := k + 1) (by omega)
  have hc1 : s.c1 = leo (k + 1) := h.c1
  rw [h.r1, h.b1, hc1, add_sub_small (by omega) (by omega)]
  omega

theorem Hole.right (h : Hole s (k + 2) st) (hn : root (k + 2) st < 2 ^ 63) :
    sub s.r1 1 = root k (st + leo (k + 1)) := by
  have hroot := root_add_two k st
  have hright := root_succ k (st + leo (k + 1))
  have hpos := leo_pos (k + 1)
  rw [h.r1, sub_small (by omega) (by omega)]
  omega

theorem Hole.down (h : Hole s (k + 2) st) (hk : k ≤ 64) :
    s.down1 = { s with b1 := leo (k + 1), c1 := below (k + 1) } := by
  rw [State.down1, h.b1, h.c1, down_leo (by omega)]

/-- The tree that the hole goes down to. -/
theorem Hole.choose (rev : Bool) (h : Hole s (k + 2) st) (hn : root (k + 2) st < 2 ^ 63)
    (hk : k ≤ 64) :
    (if 0 ≤ cmp (s.a (root k (st + leo (k + 1)))) (s.a (root (k + 1) st)) rev then
      (sub s.r1 1, s.down1) else (add (sub s.r1 s.b1) s.c1, s)) =
    (root (pick (key rev) s.a k st).1 (pick (key rev) s.a k st).2,
      { s with
        b1 := leo ((pick (key rev) s.a k st).1 + 1)
        c1 := below ((pick (key rev) s.a k st).1 + 1) }) := by
  simp only [cmp_nonneg, h.left hn hk, h.right hn, h.down hk]
  unfold pick
  split
  · rfl
  · rw [← h.b1, ← h.c1]

/-- One pass of `sift`: `t` stays, or the root of the tree that is picked comes up. -/
theorem sift_pass (rev : Bool) (t : UInt64) (h : Hole s (k + 2) st) (hlt : root (k + 2) st < n)
    (hn : n < 2 ^ 63) (hk : k ≤ 64) :
    let c := pick (key rev) s.a k st
    (key rev (s.a (root c.1 c.2)) < key rev t ∧ ∃ u, siftBody n rev t s = some (.inl u) ∧
      u.a = s.a ∧ u.r1 = s.r1 ∧ u.b1 = 1) ∨
    (¬ key rev (s.a (root c.1 c.2)) < key rev t ∧ ∃ u, siftBody n rev t s = some (.inl u) ∧
      u.a = Function.update s.a (root (k + 2) st) (s.a (root c.1 c.2)) ∧ Hole u c.1 c.2) := by
  have hchoose := h.choose rev (by omega) hk
  have hplace := pick_lt (key rev) s.a k st
  have horder := pick_order (key rev) s.a k st
  have hb1 : 2 < s.b1 := by
    rw [h.b1]
    rcases leo_cases (k + 2) with h2 | h2 <;> omega
  have hroot := root_add_two k st
  have hl := root_succ (k + 1) st
  have hr := root_succ k (st + leo (k + 1))
  have hpos := leo_pos k
  generalize hc : pick (key rev) s.a k st = c at hchoose hplace horder ⊢
  have hcn : root c.1 c.2 < n := Nat.lt_trans hplace hlt
  have hrn : s.r1 < n := by rwa [h.r1]
  have hx : peek n s.a (sub s.r1 1) = some (s.a (root k (st + leo (k + 1)))) := by
    rw [h.right (by omega), peek_some (by omega)]
  have hy : peek n s.a (add (sub s.r1 s.b1) s.c1) = some (s.a (root (k + 1) st)) := by
    rw [h.left (by omega) hk, peek_some (by omega)]
  by_cases hstop : key rev (s.a (root c.1 c.2)) < key rev t
  · refine Or.inl ⟨hstop, { s with b1 := 1, c1 := below (c.1 + 1) }, ?_, rfl, rfl, rfl⟩
    simp only [siftBody, if_pos hb1, hx, hy, Option.bind_eq_bind, Option.bind_some, hchoose,
      peek_some hcn, if_pos ((cmp_neg ..).mpr hstop)]
    rfl
  · refine Or.inr ⟨hstop, { s with
      a := Function.update s.a s.r1 (s.a (root c.1 c.2))
      r1 := root c.1 c.2
      b1 := leo c.1
      c1 := below c.1 }, ?_, by rw [h.r1], rfl, rfl, rfl⟩
    simp only [siftBody, if_pos hb1, hx, hy, Option.bind_eq_bind, Option.bind_some, hchoose,
      peek_some hcn, if_neg (mt (cmp_neg ..).mp hstop), poke_some hrn]
    simp only [State.down1, down_leo (show c.1 ≤ 65 by omega)]
    rfl

theorem fill_eq (ht : s.r1 = r0 → s.a r0 = t) (hlt : s.r1 < n) (hn : n < 2 ^ 63)
    (h0 : r0 < 2 ^ 64) :
    fill n r0 t s = some { s with a := Function.update s.a s.r1 t } := by
  unfold fill
  split
  · rw [poke_some hlt]
    rfl
  · next heq =>
    have hr := (sub_eq_zero (by omega) h0).mp (not_not.mp heq)
    have hsame : Function.update s.a s.r1 t = s.a := by
      rw [hr, ← ht hr, Function.update_eq_self]
    rw [hsame]

theorem sift_run (rev : Bool) (t : UInt64) (h : Hole s k st) (hlt : root k st < n) (hn : n < 2 ^ 63)
    (hk : k ≤ 64) (hf : k + 1 < fuel) :
    ∃ u, run (siftBody n rev t) fuel s = some u ∧
      Function.update u.a u.r1 t = sink (key rev) t k st s.a ∧ u.r1 ≤ s.r1 ∧
      (u.r1 = s.r1 → u.a = s.a) := by
  induction k using Nat.strongRecOn generalizing s st fuel with
  | ind k ih =>
    obtain ⟨fuel, rfl⟩ : ∃ m, fuel = m + 1 := ⟨fuel - 1, by omega⟩
    rcases leo_cases k with ⟨hsmall, hone⟩ | ⟨hbig, -⟩
    · have hs : siftBody n rev t s = some (.inr s) := by
        have hb1 := h.b1
        rw [siftBody, if_neg (by omega)]
        rfl
      refine ⟨s, run_leave hs fuel, ?_, Nat.le_refl _, fun _ => rfl⟩
      rw [h.r1]
      match k, hsmall with
      | 0, _ => rw [sink]
      | 1, _ => rw [sink]
    · obtain ⟨k, rfl⟩ := Nat.exists_eq_add_of_le' hbig
      rw [sink]
      rcases sift_pass rev t h hlt hn (by omega) with ⟨hstop, u, hs, ha, hr, hb⟩ |
        ⟨hgo, u, hs, ha, hu⟩
      · obtain ⟨fuel, rfl⟩ : ∃ m, fuel = m + 1 := ⟨fuel - 1, by omega⟩
        have hs' : siftBody n rev t u = some (.inr u) := by
          rw [siftBody, if_neg (by omega)]
          rfl
        refine ⟨u, ?_, ?_, Nat.le_of_eq hr, fun _ => ha⟩
        · rw [run_pass hs, run_leave hs']
        · rw [if_pos hstop, ha, hr, h.r1]
      · have hplace := pick_lt (key rev) s.a k st
        have horder := pick_order (key rev) s.a k st
        obtain ⟨v, hrun, hv, hle, -⟩ := ih _ horder hu (Nat.lt_trans hplace hlt) (by omega)
          (by omega : _ < fuel)
        have hvr : v.r1 < s.r1 := by
          have hr := h.r1
          have hur := hu.r1
          omega
        refine ⟨v, ?_, ?_, Nat.le_of_lt hvr, fun he => absurd he (Nat.ne_of_lt hvr)⟩
        · rw [run_pass hs, hrun]
        · rw [if_neg hgo, hv, ha]

theorem sift_spec (rev : Bool) (h : Hole s k st) (hlt : root k st < n) (hn : n < 2 ^ 63)
    (hk : k ≤ 64) (hf : k + 1 < fuel) :
    ∃ u, sift fuel n rev s = some u ∧ u.a = sink (key rev) (s.a s.r1) k st s.a := by
  have hr := h.r1
  obtain ⟨u, hrun, hu, hle, hsame⟩ := sift_run rev (s.a s.r1) h hlt hn hk hf
  have hfill : fill n s.r1 (s.a s.r1) u =
      some { u with a := Function.update u.a u.r1 (s.a s.r1) } :=
    fill_eq (fun he => by rw [hsame he]) (by omega) hn (by omega)
  refine ⟨{ u with a := Function.update u.a u.r1 (s.a s.r1) }, ?_, hu⟩
  simp only [sift, peek_some (show s.r1 < n by omega), Option.bind_eq_bind, Option.bind_some, hrun,
    hfill]

end Sink

/-- A hole at the root of the first of these trees, and bits in which that tree
is found next. -/
structure Facing (p1 : Nat) (s : State) (k : Nat) (ks : List Nat) : Prop where
  r1 : s.r1 = root k (size ks)
  bits : ∃ i d, i + d = k ∧ p1 = 2 ^ d * mask k ks ∧ s.b1 = leo i ∧ s.c1 = below i

section Trinkle
variable {s : State} {n fuel k k' st p1 : Nat} {ks : List Nat} {rev : Bool} {t : UInt64}

/-- The bits that are passed over. -/
theorem trinkle_next (rev : Bool) (t : UInt64) (h : Facing p1 s k ks) (hroom : Room (k :: ks))
    (hf : 64 < fuel) : trinkleBody fuel n rev t (p1, s) =
      trinkleBody fuel n rev t (mask k ks, { s with b1 := leo k, c1 := below k }) := by
  obtain ⟨i, d, hid, rfl, hb, hc⟩ := h.bits
  have hk := hroom.le k List.mem_cons_self
  have hodd := mask_mod_two hroom.lt
  have hpos := mask_pos k ks
  have hnext := next_run fuel hid hk hodd
  have hhere := next_run fuel (Nat.add_zero k) hk hodd
  rw [if_pos (by omega)] at hnext hhere
  rw [Nat.pow_zero, Nat.one_mul] at hhere
  simp only [trinkleBody, hb, hc, hnext, hhere, if_pos hpos,
    if_pos (Nat.mul_pos (Nat.two_pow_pos d) hpos), Option.bind_eq_bind, Option.bind_some]

theorem Hole.before (h : Hole s k (size (k' :: ks))) (hn : root k (size (k' :: ks)) < 2 ^ 63) :
    sub s.r1 (leo k) = root k' (size ks) := by
  have hroot := root_succ k (size (k' :: ks))
  have hroot' := root_succ k' (size ks)
  have hpos := leo_pos k'
  rw [size] at *
  rw [h.r1, sub_small (by omega) (by omega)]
  omega

theorem Hole.same (h : Hole s k st) : { s with b1 := leo k, c1 := below k } = s := by
  rw [← h.b1, ← h.c1]

theorem inPlace_eq (a : Nums) (hlt : root k' (size ks) < n) (k : Nat) (rev : Bool) (t : UInt64) :
    inPlace n rev a (mask k (k' :: ks)) (root k' (size ks)) t =
      some (decide (key rev (a (root k' (size ks))) < key rev t)) := by
  have hpos := Nat.mul_pos (Nat.two_pow_pos (k' - k)) (mask_pos k' ks)
  have hone : mask k (k' :: ks) ≠ 1 := by
    rw [mask]
    omega
  rw [inPlace, if_neg hone, peek_some hlt]
  simp only [Option.bind_eq_bind, Option.bind_some, Option.pure_def, cmp_neg]

theorem next_here (hroom : Room (k :: ks)) (hf : 64 < fuel) :
    run nextBody fuel { p := mask k ks, b := leo k, c := below k } =
      some { p := mask k ks, b := leo k, c := below k } := by
  have hhere := next_run fuel (Nat.add_zero k) (hroom.le k List.mem_cons_self)
    (mask_mod_two hroom.lt)
  rwa [if_pos (by omega), Nat.pow_zero, Nat.one_mul] at hhere

/-- Nothing moves. -/
theorem trinkle_stay (h : Hole s k (size ks)) (hroom : Room (k :: ks)) (hf : 64 < fuel)
    (hlt : root k (size ks) < n) (hn : n < 2 ^ 63)
    (hstop : ∀ k' ks', ks = k' :: ks' → key rev (s.a (root k' (size ks'))) < key rev t) :
    trinkleBody fuel n rev t (mask k ks, s) = some (.inl (0, s)) := by
  have hin : inPlace n rev s.a (mask k ks) (sub s.r1 (leo k)) t = some true := by
    cases ks with
    | nil => rfl
    | cons k' ks =>
      have hroot := root_lt k' ks
      have hroot' := root_succ k (size (k' :: ks))
      have hpos := leo_pos k
      rw [h.before (by omega), inPlace_eq s.a (by omega), decide_eq_true (hstop k' ks rfl)]
  simp only [trinkleBody, if_pos (mask_pos k ks), h.b1, h.c1, next_here hroom hf,
    Option.bind_eq_bind, Option.bind_some, hin, if_true, h.same]
  rfl

/-- The root before comes to the hole. -/
theorem trinkle_left (h : Hole s k (size (k' :: ks))) (hroom : Room (k :: k' :: ks))
    (hf : 64 < fuel) (hlt : root k (size (k' :: ks)) < n) (hn : n < 2 ^ 63) (hk : k < 2)
    (hgo : ¬ key rev (s.a (root k' (size ks))) < key rev t) :
    trinkleBody fuel n rev t (mask k (k' :: ks), s) =
      some (.inl (mask k (k' :: ks) - 1, { s with
        a := Function.update s.a s.r1 (s.a (root k' (size ks)))
        r1 := root k' (size ks) })) := by
  have hone := leo_one hk
  have hroot := root_lt k' ks
  have hroot' := root_succ k (size (k' :: ks))
  have hr3 : root k' (size ks) < n := by omega
  have hrn : s.r1 < n := by rwa [h.r1]
  have hbefore := h.before (by omega)
  simp only [trinkleBody, if_pos (mask_pos k (k' :: ks)), h.b1, h.c1, next_here hroom hf,
    Option.bind_eq_bind, Option.bind_some, hbefore, inPlace_eq s.a hr3, decide_eq_false hgo,
    Bool.false_eq_true, if_false, if_pos hone, peek_some hr3, poke_some hrn]
  rw [← h.b1, ← h.c1]
  rfl

/-- The bits after the tree before was seen from the tree that is picked. -/
theorem mask_pick (hroom : Room ((k + 2) :: k' :: ks)) :
    mask (k + 2) (k' :: ks) - 1 = 2 ^ (k' - (k + 2)) * mask k' ks ∧
      ((mask (k + 2) (k' :: ks) - 1) <<< 1) % 2 ^ 64 = 2 ^ (k' - (k + 1)) * mask k' ks := by
  have hlt := hroom.split.tail.mask_lt
  have hk' := hroom.lt k' List.mem_cons_self
  have hpow : 2 ^ (k' - (k + 1)) * mask k' ks = 2 * (2 ^ (k' - (k + 2)) * mask k' ks) := by
    rw [show k' - (k + 1) = (k' - (k + 2)) + 1 by omega, Nat.pow_succ, Nat.mul_right_comm]
    omega
  rw [mask] at hlt
  rw [mask, Nat.add_sub_cancel_left, Nat.shiftLeft_eq]
  refine ⟨rfl, ?_⟩
  rw [Nat.mod_eq_of_lt (by omega), hpow]
  omega

theorem Hole.choose_bits (rev : Bool) (h : Hole s (k + 2) (size (k' :: ks)))
    (hroom : Room ((k + 2) :: k' :: ks)) (hn : root (k + 2) (size (k' :: ks)) < 2 ^ 63) :
    let c := pick (key rev) s.a k (size (k' :: ks))
    (if 0 ≤ cmp (s.a (root k (size (k' :: ks) + leo (k + 1))))
        (s.a (root (k + 1) (size (k' :: ks)))) rev then
      (sub s.r1 1, s.down1, ((mask (k + 2) (k' :: ks) - 1) <<< 1) % 2 ^ 64)
      else (add (sub s.r1 (leo (k + 2))) (below (k + 2)), s, mask (k + 2) (k' :: ks) - 1)) =
    (root c.1 c.2, { s with b1 := leo (c.1 + 1), c1 := below (c.1 + 1) },
      2 ^ (k' - (c.1 + 1)) * mask k' ks) := by
  have hk := hroom.le (k + 2) List.mem_cons_self
  obtain ⟨hleft, hright⟩ := mask_pick hroom
  have hl := h.left hn (by omega)
  rw [h.b1, h.c1] at hl
  simp only [cmp_nonneg, hl, h.right hn, h.down (show k ≤ 64 by omega), hright]
  unfold pick
  split
  · rfl
  · rw [hleft, h.same]

/-- The greatest of the roots next to the hole comes to it. -/
theorem trinkle_pick (h : Hole s (k + 2) (size (k' :: ks))) (hroom : Room ((k + 2) :: k' :: ks))
    (hf : 64 < fuel) (hlt : root (k + 2) (size (k' :: ks)) < n) (hn : n < 2 ^ 63)
    (hgo : ¬ key rev (s.a (root k' (size ks))) < key rev t) :
    let c := pick (key rev) s.a k (size (k' :: ks))
    trinkleBody fuel n rev t (mask (k + 2) (k' :: ks), s) =
      if key rev (s.a (root c.1 c.2)) < key rev (s.a (root k' (size ks))) then
        some (.inl (2 ^ (k' - (c.1 + 1)) * mask k' ks, { s with
          a := Function.update s.a s.r1 (s.a (root k' (size ks)))
          r1 := root k' (size ks)
          b1 := leo (c.1 + 1)
          c1 := below (c.1 + 1) }))
      else
        some (.inl (0, { s with
          a := Function.update s.a s.r1 (s.a (root c.1 c.2))
          r1 := root c.1 c.2
          b1 := leo c.1
          c1 := below c.1 })) := by
  have hk := hroom.le (k + 2) List.mem_cons_self
  have hchoose := h.choose_bits rev hroom (by omega)
  have hplace := pick_lt (key rev) s.a k (size (k' :: ks))
  have horder := pick_order (key rev) s.a k (size (k' :: ks))
  have hroot := root_lt k' ks
  have hroot' := root_add_two k (size (k' :: ks))
  have hl := root_succ (k + 1) (size (k' :: ks))
  have hr := root_succ k (size (k' :: ks) + leo (k + 1))
  have hpos := leo_pos k
  have hr3 : root k' (size ks) < n := by omega
  have hrn : s.r1 < n := by rwa [h.r1]
  have hbig : 2 ≤ k + 2 ∧ 3 ≤ leo (k + 2) := by
    rcases leo_cases (k + 2) with h2 | h2 <;> omega
  have hx : peek n s.a (sub s.r1 1) = some (s.a (root k (size (k' :: ks) + leo (k + 1)))) := by
    rw [h.right (by omega), peek_some (by omega)]
  have hy : peek n s.a (add (sub s.r1 (leo (k + 2))) (below (k + 2))) =
      some (s.a (root (k + 1) (size (k' :: ks)))) := by
    rw [← h.b1, ← h.c1, h.left (by omega) (by omega), peek_some (by omega)]
  generalize pick (key rev) s.a k (size (k' :: ks)) = c at hchoose hplace horder ⊢
  have hcn : root c.1 c.2 < n := Nat.lt_trans hplace hlt
  have hbefore := h.before (by omega)
  rw [hbefore] at hy hchoose
  simp only [trinkleBody, if_pos (mask_pos (k + 2) (k' :: ks)), h.b1, h.c1, next_here hroom hf,
    Option.bind_eq_bind, Option.bind_some, hbefore, inPlace_eq s.a hr3, decide_eq_false hgo,
    Bool.false_eq_true, if_false, if_neg (show leo (k + 2) ≠ 1 by omega), if_pos hbig.2, hx, hy,
    h.same, hchoose]
  simp only [peek_some hcn, peek_some hr3, poke_some hrn, Option.bind_some, cmp_neg, State.down1,
    down_leo (show c.1 ≤ 65 by omega), Option.pure_def]

/-- What one pass of `trinkle` does: it leaves `t` to sink into a tree, or goes on
with the tree before. -/
inductive Went (rev : Bool) (t : UInt64) (s : State) (k : Nat) (ks : List Nat) :
    Nat × State → Prop
  | stop (c : Nat × Nat) (u : State) (hole : Hole u c.1 c.2) (le : c.1 ≤ k)
      (eq : sink (key rev) t c.1 c.2 u.a = Leonardo.settle (key rev) t (k :: ks) s.a)
      (r1 : u.r1 ≤ s.r1) (same : u.r1 = s.r1 → u.a = s.a) : Went rev t s k ks (0, u)
  | left (k' : Nat) (ks' : List Nat) (p : Nat) (u : State) (eq : ks = k' :: ks')
      (facing : Facing p u k' ks') (r1 : u.r1 < s.r1)
      (same : Leonardo.settle (key rev) t (k' :: ks') u.a =
        Leonardo.settle (key rev) t (k :: ks) s.a) : Went rev t s k ks (p, u)

theorem Hole.trinkle_pass (rev : Bool) (t : UInt64) (h : Hole s k (size ks))
    (hroom : Room (k :: ks)) (hf : 64 < fuel) (hlt : root k (size ks) < n) (hn : n < 2 ^ 63) :
    ∃ m, trinkleBody fuel n rev t (mask k ks, s) = some (.inl m) ∧ Went rev t s k ks m := by
  by_cases hstop : ∀ k' ks', ks = k' :: ks' → key rev (s.a (root k' (size ks'))) < key rev t
  · refine ⟨_, trinkle_stay h hroom hf hlt hn hstop,
      .stop (k, size ks) s h (Nat.le_refl k) ?_ (Nat.le_refl _) fun _ => rfl⟩
    cases ks with
    | nil => rw [Leonardo.settle, size]
    | cons k' ks => rw [Leonardo.settle, if_pos (hstop k' ks rfl)]
  · obtain ⟨k', ks, rfl, hgo⟩ : ∃ k' ks', ks = k' :: ks' ∧
        ¬ key rev (s.a (root k' (size ks'))) < key rev t := by
      simpa using hstop
    have hr1 := h.r1
    have hroot := root_succ k (size (k' :: ks))
    have hpos := leo_pos k
    have hbefore : root k' (size ks) < s.r1 := by
      have := root_lt k' ks
      omega
    have hk' := hroom.lt k' List.mem_cons_self
    rcases leo_cases k with ⟨hsmall, -⟩ | ⟨hbig, -⟩
    · refine ⟨_, trinkle_left h hroom hf hlt hn hsmall hgo, .left k' ks _ _ rfl
        ⟨rfl, k, k' - k, by omega, ?_, h.b1, h.c1⟩ hbefore ?_⟩
      · rw [mask, Nat.add_sub_cancel_left]
      · rw [hr1, settle_two (key rev) t k k' ks s.a rfl, if_neg hgo, if_pos (Or.inl hsmall)]
    · obtain ⟨k, rfl⟩ := Nat.exists_eq_add_of_le' hbig
      have hpick := trinkle_pick h hroom hf hlt hn hgo
      have hplace := pick_lt (key rev) s.a k (size (k' :: ks))
      have horder := pick_order (key rev) s.a k (size (k' :: ks))
      have hsettle := settle_two (key rev) t (k + 2) k' ks s.a rfl
      rw [if_neg hgo, Nat.add_sub_cancel] at hsettle
      generalize pick (key rev) s.a k (size (k' :: ks)) = c at hpick hplace horder hsettle ⊢
      dsimp only at hpick
      by_cases hleft : key rev (s.a (root c.1 c.2)) < key rev (s.a (root k' (size ks)))
      · rw [if_pos hleft] at hpick
        refine ⟨_, hpick, .left k' ks _ _ rfl
          ⟨rfl, c.1 + 1, k' - (c.1 + 1), by omega, rfl, rfl, rfl⟩ hbefore ?_⟩
        rw [hsettle, if_pos (Or.inr hleft), hr1]
      · rw [if_neg hleft] at hpick
        refine ⟨_, hpick, .stop c _ ⟨rfl, rfl, rfl⟩ (by omega) ?_ (by dsimp only; omega)
          fun he => absurd he (by dsimp only; omega)⟩
        rw [hsettle, if_neg (by omega), hr1]

theorem trinkle_pass (rev : Bool) (t : UInt64) (h : Facing p1 s k ks) (hroom : Room (k :: ks))
    (hf : 64 < fuel) (hlt : root k (size ks) < n) (hn : n < 2 ^ 63) :
    ∃ m, trinkleBody fuel n rev t (p1, s) = some (.inl m) ∧
      Went rev t { s with b1 := leo k, c1 := below k } k ks m := by
  rw [trinkle_next rev t h hroom hf]
  exact Hole.trinkle_pass rev t ⟨h.r1, rfl, rfl⟩ hroom hf hlt hn

theorem trinkle_run {fuel' : Nat} (rev : Bool) (t : UInt64) (h : Facing p1 s k ks)
    (hroom : Room (k :: ks)) (hw : 64 < fuel') (hlt : root k (size ks) < n) (hn : n < 2 ^ 63)
    (hf : ks.length + 1 < fuel) :
    ∃ (u : State) (c : Nat × Nat), run (trinkleBody fuel' n rev t) fuel (p1, s) = some u ∧
      Hole u c.1 c.2 ∧ c.1 ≤ 64 ∧
      sink (key rev) t c.1 c.2 u.a = Leonardo.settle (key rev) t (k :: ks) s.a ∧
      u.r1 ≤ s.r1 ∧ (u.r1 = s.r1 → u.a = s.a) := by
  induction fuel generalizing k ks p1 s with
  | zero => omega
  | succ fuel ih =>
    obtain ⟨m, hs, hwent⟩ := trinkle_pass (n := n) rev t h hroom hw hlt hn
    rw [run_pass hs]
    cases hwent with
    | stop c u hole le eq r1 same =>
      obtain ⟨fuel, rfl⟩ : ∃ m, fuel = m + 1 := ⟨fuel - 1, by omega⟩
      refine ⟨u, c, run_leave rfl fuel, hole, ?_, eq, r1, same⟩
      exact Nat.le_trans le (hroom.le k List.mem_cons_self)
    | left k' js p u eq facing r1 same =>
      subst eq
      have hroot := root_lt k' js
      have hroot' := root_succ k (size (k' :: js))
      have hpos := leo_pos k
      rw [List.length_cons] at hf
      obtain ⟨v, c, hrun, hole, hc, hsink, hle, -⟩ := ih facing hroom.tail (by omega) (by omega)
      have hvr : v.r1 < s.r1 := Nat.lt_of_le_of_lt hle r1
      exact ⟨v, c, hrun, hole, hc, hsink.trans same, Nat.le_of_lt hvr,
        fun he => absurd he (Nat.ne_of_lt hvr)⟩

theorem trinkle_spec {i d : Nat} (rev : Bool) (hr : s.r1 = root k (size ks)) (hid : i + d = k)
    (hp : s.p = 2 ^ d * mask k ks) (hb : s.b = leo i) (hc : s.c = below i)
    (hroom : Room (k :: ks)) (hlt : root k (size ks) < n) (hn : n < 2 ^ 63) (hf : n + 65 < fuel) :
    ∃ u, trinkle fuel n rev s = some u ∧
      u.a = Leonardo.settle (key rev) (s.a s.r1) (k :: ks) s.a := by
  have hfacing : Facing s.p { s with b1 := s.b, c1 := s.c } k ks := ⟨hr, i, d, hid, hp, hb, hc⟩
  have hlen := length_le_size ks
  have hroot := root_succ k (size ks)
  have hpos := leo_pos k
  obtain ⟨u, c, hrun, hole, hc64, hsink, hle, hsame⟩ := trinkle_run (n := n) rev
    (s.a s.r1) hfacing hroom (by omega : 64 < fuel) hlt hn (by omega : _ < fuel)
  dsimp only at hsink hle hsame
  have hfill : fill n s.r1 (s.a s.r1) u =
      some { u with a := Function.update u.a u.r1 (s.a s.r1) } :=
    fill_eq (fun he => by rw [hsame he]) (by omega) hn (by omega)
  have hole' : Hole { u with a := Function.update u.a u.r1 (s.a s.r1) } c.1 c.2 :=
    ⟨hole.r1, hole.b1, hole.c1⟩
  have hr1 := hole.r1
  obtain ⟨v, hsift, hv⟩ := sift_spec rev hole' (by omega : _ < n) hn hc64
    (by omega : _ < fuel)
  refine ⟨v, ?_, ?_⟩
  · simp only [trinkle, peek_some (show s.r1 < n by omega), Option.bind_eq_bind, Option.bind_some,
      hrun, hfill, hsift]
  · rw [hv]
    dsimp only
    rw [Function.update_self, hr1, sink_hole, hsink]

/-- Three exclusive ors exchange two elements. -/
theorem xor_swap (a : Nums) {i j : Nat} (h : i ≠ j) :
    let a₁ := Function.update a i (a i ^^^ a j)
    let a₂ := Function.update a₁ j (a₁ j ^^^ a₁ i)
    Function.update a₂ i (a₂ i ^^^ a₂ j) =
      Function.update (Function.update a i (a j)) j (a i) := by
  have hx : a j ^^^ (a i ^^^ a j) = a i := by
    rw [UInt64.xor_comm (a i), ← UInt64.xor_assoc, UInt64.xor_self, UInt64.zero_xor]
  have hy : (a i ^^^ a j) ^^^ a i = a j := by
    rw [UInt64.xor_comm (a i), UInt64.xor_assoc, UInt64.xor_self, UInt64.xor_zero]
  simp only [Function.update_self, Function.update_of_ne h, Function.update_of_ne (Ne.symm h), hx,
    hy]
  rw [Function.update_comm h, Function.update_idem, Function.update_comm (Ne.symm h)]

theorem semitrinkle_spec {d : Nat} (rev : Bool) (hr : s.r = root k (size (k' :: ks)))
    (hid : k + 1 + d = k') (hp : s.p = 2 ^ d * mask k' ks) (hb : s.b = leo (k + 1))
    (hc : s.c = below (k + 1))
    (hroom : Room (k' :: ks)) (hlt : root k (size (k' :: ks)) < n) (hn : n < 2 ^ 63)
    (hf : n + 65 < fuel) :
    ∃ u, semitrinkle fuel n rev s = some u ∧ u.a = semi (key rev) k (k' :: ks) s.a := by
  have hroot := root_succ k (size (k' :: ks))
  have hroot' := root_succ k' (size ks)
  have hpos := leo_pos k
  have hsize : size (k' :: ks) = size ks + leo k' := rfl
  have hr1 : sub (root k (size (k' :: ks))) s.c = root k' (size ks) := by
    rw [hc, below, sub_small (by omega) (by omega)]
    omega
  have hne : root k (size (k' :: ks)) ≠ root k' (size ks) := by omega
  have hrn : root k' (size ks) < n := by omega
  rw [semi]
  by_cases hle : key rev (s.a (root k (size (k' :: ks)))) ≤ key rev (s.a (root k' (size ks)))
  · have hswap := xor_swap s.a hne
    dsimp only at hswap
    rw [if_pos hle]
    simp only [semitrinkle, hr1, hr, peek_some hrn, peek_some hlt, poke_some hlt, poke_some hrn,
      Option.bind_eq_bind, Option.bind_some, if_pos ((cmp_nonneg ..).mpr hle), hswap]
    obtain ⟨u, hu, ha⟩ := trinkle_spec rev (s := { s with
      a := Function.update (Function.update s.a (root k (size (k' :: ks)))
        (s.a (root k' (size ks)))) (root k' (size ks)) (s.a (root k (size (k' :: ks))))
      r := root k (size (k' :: ks))
      r1 := root k' (size ks) }) rfl hid hp hb hc hroom hrn hn hf
    refine ⟨u, hu, ?_⟩
    rw [ha]
    dsimp only
    rw [Function.update_self]
  · refine ⟨{ s with r1 := root k' (size ks) }, ?_, by rw [if_neg hle]⟩
    simp only [semitrinkle, hr1, hr, peek_some hrn, peek_some hlt, Option.bind_eq_bind,
      Option.bind_some, if_neg (mt (cmp_nonneg ..).mp hle)]
    rfl

end Trinkle

end Smooth

end Oin17.Chals.Sortlist
