import Oin17.Chals.Sortlist.Model

namespace Oin17.Chals.Sortlist
open Cint Loop Memory Rearrange

/-- The order to sort in, as that of the integers. -/
def key (rev : Bool) (x : UInt64) : Int := if rev then -(x.toNat : Int) else x.toNat

theorem key_lt_iff (rev : Bool) (x y : UInt64) :
    key rev x < key rev y ↔ if rev then y < x else x < y := by
  cases rev <;> simp [key, UInt64.lt_iff_toNat_lt]

theorem key_injective (rev : Bool) : Function.Injective (key rev) := by
  intro x y h
  apply UInt64.toNat_inj.mp
  cases rev <;> simp only [key, if_true, Bool.false_eq_true, if_false] at h <;> omega

namespace Heap

theorem cmp_true (h : cmp x t rev = true) : key rev x ≤ key rev t := by
  cases rev <;> simp only [cmp, key, if_true, Bool.false_eq_true, if_false, decide_eq_true_eq,
    UInt64.le_iff_toNat_le, UInt64.lt_iff_toNat_lt] at h ⊢ <;> omega

theorem cmp_false (h : ¬ cmp x t rev = true) : key rev t ≤ key rev x := by
  cases rev <;> simp only [cmp, key, if_true, Bool.false_eq_true, if_false, decide_eq_true_eq,
    UInt64.le_iff_toNat_le, UInt64.lt_iff_toNat_lt] at h ⊢ <;> omega

def Child (i c : Nat) : Prop := c = 2 * i + 1 ∨ c = 2 * i + 2

theorem Child.lt (h : Child i c) : i < c := by
  rcases h with rfl | rfl <;> omega

theorem Child.parent (h : Child i c) (h' : Child j c) : j = i := by
  rcases h with rfl | rfl <;> rcases h' with h' | h' <;> omega

/-- No element from `lo` on is before its children, of those below `hi`. -/
def Heaped (rev : Bool) (lo hi : Nat) (a : Nums) : Prop :=
  ∀ i c, lo ≤ i → Child i c → c < hi → key rev (a c) ≤ key rev (a i)

/-- The heap with `t` in its hole `i` may only be wrong at `i`. -/
structure Sinking (rev : Bool) (p cnt : Nat) (a₀ a : Nums) (i : Nat) : Prop where
  lo : p ≤ i
  hi : i < cnt
  moved : Moved p cnt a₀ a
  heaped : ∀ j c, p ≤ j → Child j c → c < cnt → j ≠ i → key rev (a c) ≤ key rev (a j)
  above : ∀ j c, p ≤ j → Child j i → Child i c → c < cnt → key rev (a c) ≤ key rev (a j)

section Sink
variable {rev : Bool} {p cnt n i c : Nat} {a a₀ buf : Nums} {t : UInt64}

/-- The first child of those that are there, in the order. -/
theorem pick_spec (rev : Bool) (buf : Nums) (hn : cnt ≤ n) (hc : c < cnt) (hodd : c = 2 * i + 1) :
    ∃ d, pick n cnt rev buf c = some d ∧ Child i d ∧ d < cnt ∧
      ∀ e, Child i e → e < cnt → key rev (buf e) ≤ key rev (buf d) := by
  unfold pick
  by_cases hc' : c + 1 < cnt
  · have hlt := key_lt_iff rev (buf c) (buf (c + 1))
    have hpick : (if rev then if buf (c + 1) < buf c then c + 1 else c
        else if buf c < buf (c + 1) then c + 1 else c) =
        if key rev (buf c) < key rev (buf (c + 1)) then c + 1 else c := by
      cases rev <;> simp only [hlt, if_true, Bool.false_eq_true, if_false]
    rw [if_pos hc', peek_some (by omega), peek_some (by omega)]
    refine ⟨_, rfl, ?_⟩
    rw [hpick]
    split
    · next h =>
      refine ⟨Or.inr (by omega), hc', fun e he _ => ?_⟩
      rcases he with rfl | rfl
      · rw [← hodd]
        omega
      · rw [show 2 * i + 2 = c + 1 by omega]
    · next h =>
      refine ⟨Or.inl hodd, hc, fun e he _ => ?_⟩
      rcases he with rfl | rfl
      · rw [← hodd]
      · rw [show 2 * i + 2 = c + 1 by omega]
        omega
  · rw [if_neg hc']
    refine ⟨c, rfl, Or.inl hodd, hc, fun e he hlt => ?_⟩
    rcases he with rfl | rfl
    · rw [← hodd]
    · omega

theorem Sinking.stop (h : Sinking rev p cnt a₀ a i)
    (hi : ∀ c, Child i c → c < cnt → key rev (a c) ≤ key rev (a i)) : Heaped rev p cnt a := by
  intro j c hj hc hlt
  by_cases hji : j = i
  · subst hji
    exact hi c hc hlt
  · exact h.heaped j c hj hc hlt hji

/-- The first child moves up, and the hole down. -/
theorem Sinking.step (h : Sinking rev p cnt a₀ (Function.update buf i t) i) (hc : Child i c)
    (hlt : c < cnt) (hle : key rev t ≤ key rev (buf c))
    (hmax : ∀ d, Child i d → d < cnt → key rev (buf d) ≤ key rev (buf c)) :
    Sinking rev p cnt a₀ (Function.update (Function.update buf i (buf c)) c t) c := by
  have hlo := h.lo
  have hci := hc.lt
  have hic : i ≠ c := Nat.ne_of_lt hci
  have hmid : Function.update (Function.update buf i (buf c)) c t i = buf c := by
    rw [Function.update_of_ne hic, Function.update_self]
  have hfar : ∀ e, e ≠ i → e ≠ c →
      Function.update (Function.update buf i (buf c)) c t e = Function.update buf i t e := by
    intro e hei hec
    rw [Function.update_of_ne hec, Function.update_of_ne hei, Function.update_of_ne hei]
  have hbuf : ∀ e, e ≠ i → Function.update buf i t e = buf e := fun e he =>
    Function.update_of_ne he ..
  refine ⟨by omega, hlt, ?_, fun j d hj hd hdlt hjc => ?_, fun j d hj hjc hd hdlt => ?_⟩
  · exact h.moved.trans (moved_hole hic hlo h.hi (by omega) hlt t)
  · have hjd := hd.lt
    by_cases hji : j = i
    · subst hji
      rw [hmid]
      by_cases hdc : d = c
      · rw [hdc, Function.update_self]
        exact hle
      · rw [hfar d (by omega) hdc, hbuf d (by omega)]
        exact hmax d hd hdlt
    · have hdc : d ≠ c := by
        rintro rfl
        exact hji (hc.parent hd)
      rw [hfar j hji hjc]
      by_cases hdi : d = i
      · subst hdi
        have := h.above j c hj hd hc hlt
        rw [hbuf c (Ne.symm hic)] at this
        rw [hmid]
        exact this
      · rw [hfar d hdi hdc]
        exact h.heaped j d hj hd hdlt hji
  · obtain rfl := hc.parent hjc
    have hcd := hd.lt
    have hold := h.heaped c d (by omega) hd hdlt (Ne.symm hic)
    rw [hmid, hfar d (by omega) (by omega)]
    rwa [hbuf c (Ne.symm hic)] at hold

/-- What one pass of the loop that sinks `t` does. -/
theorem sink_pass (hn : cnt ≤ n) (h : Sinking rev p cnt a₀ (Function.update buf i t) i) :
    (∃ c, i < c ∧ sinkBody n cnt rev t (buf, i, i * 2 + 1) =
        some (.inl (Function.update buf i (buf c), c, c * 2 + 1)) ∧
        Sinking rev p cnt a₀ (Function.update (Function.update buf i (buf c)) c t) c) ∨
      sinkBody n cnt rev t (buf, i, i * 2 + 1) = some (.inr (buf, i)) ∧
        Heaped rev p cnt (Function.update buf i t) := by
  have hbuf : ∀ e, Child i e → Function.update buf i t e = buf e := fun e he =>
    Function.update_of_ne (Nat.ne_of_gt he.lt) ..
  by_cases hc : i * 2 + 1 < cnt
  · obtain ⟨d, hd, hchild, hlt, hmax⟩ := pick_spec (i := i) rev buf hn hc (by omega)
    have hdn := Nat.lt_of_lt_of_le hlt hn
    have hin := Nat.lt_of_lt_of_le h.hi hn
    simp only [sinkBody, if_pos hc, hd, Option.bind_eq_bind, Option.bind_some, peek_some hdn,
      poke_some hin]
    by_cases hcmp : cmp (buf d) t rev = true
    · rw [if_pos hcmp]
      refine Or.inr ⟨rfl, h.stop fun e he helt => ?_⟩
      rw [hbuf e he, Function.update_self]
      exact Int.le_trans (hmax e he helt) (cmp_true hcmp)
    · rw [if_neg hcmp]
      exact Or.inl ⟨d, hchild.lt, rfl, h.step hchild hlt (cmp_false hcmp) hmax⟩
  · simp only [sinkBody, if_neg hc]
    refine Or.inr ⟨rfl, h.stop fun e he helt => ?_⟩
    rcases he with rfl | rfl <;> omega

/-- What the loop that sinks `t` leaves. -/
theorem sink_run (fuel : Nat) (hn : cnt ≤ n) (hf : cnt - i < fuel)
    (h : Sinking rev p cnt a₀ (Function.update buf i t) i) :
    ∃ b j, run (sinkBody n cnt rev t) fuel (buf, i, i * 2 + 1) = some (b, j) ∧ j < cnt ∧
      Heaped rev p cnt (Function.update b j t) ∧ Moved p cnt a₀ (Function.update b j t) := by
  induction fuel generalizing buf i with
  | zero => omega
  | succ fuel ih =>
    rcases sink_pass hn h with ⟨c, hic, hs, hstep⟩ | ⟨hs, hheap⟩
    · have hc := hstep.hi
      rw [run_pass hs]
      exact ih (by omega) hstep
    · exact ⟨buf, i, run_leave hs fuel, h.hi, hheap, h.moved⟩

theorem Heaped.top (h : Heaped rev 0 cnt a) (hi : i < cnt) : key rev (a i) ≤ key rev (a 0) := by
  induction i using Nat.strong_induction_on with
  | _ i ih =>
    by_cases h0 : i = 0
    · rw [h0]
    · have hchild : Child ((i - 1) / 2) i := by
        unfold Child
        omega
      have hup := ih ((i - 1) / 2) (by omega) (by omega)
      exact Int.le_trans (h _ i (Nat.zero_le _) hchild hi) hup

/-- Sinking the element in front of a heap makes a heap of the two. -/
theorem sinking_start (h : Heaped rev (i + 1) cnt buf) (hi : i < cnt) (t : UInt64) :
    Sinking rev i cnt (Function.update buf i t) (Function.update buf i t) i := by
  refine ⟨Nat.le_refl i, hi, Moved.refl .., fun j c hj hc hlt hji => ?_, fun j c hj hji _ _ => ?_⟩
  · have hjc := hc.lt
    rw [Function.update_of_ne (by omega), Function.update_of_ne hji]
    exact h j c (by omega) hc hlt
  · have := hji.lt
    omega

end Sink

section Passes
variable {rev : Bool} {n cnt p : Nat} {a a₀ : Nums}

/-- A pass that puts one more element on the heap. -/
theorem build_pass (fuel : Nat) (hn : cnt ≤ n) (hp : p < cnt) (hf : cnt < fuel)
    (h : Heaped rev (p + 1) cnt a) :
    ∃ b, heapBody fuel n rev (a, cnt, p + 1) = some (.inl (b, cnt, p)) ∧ Heaped rev p cnt b ∧
      Moved p cnt a b := by
  obtain ⟨b, j, hrun, hj, hheap, hmoved⟩ := sink_run fuel hn (by omega)
    (sinking_start h hp (a p))
  rw [Function.update_eq_self] at hmoved
  refine ⟨Function.update b j (a p), ?_, hheap, hmoved⟩
  have hpn : p < n := Nat.lt_of_lt_of_le hp hn
  have hjn : j < n := Nat.lt_of_lt_of_le hj hn
  simp only [heapBody, Nat.add_sub_cancel, if_pos (Nat.succ_pos p), peek_some hpn,
    Option.bind_eq_bind, Option.bind_some, hrun, poke_some hjn]
  rfl

/-- The heap is in front of what was taken from it, in order. -/
structure Taken (rev : Bool) (n cnt : Nat) (a₀ a : Nums) : Prop where
  pos : 0 < cnt
  le : cnt ≤ n
  moved : Moved 0 n a₀ a
  heap : Heaped rev 0 cnt a
  taken : ∀ i j, cnt ≤ j → j < n → i < j → key rev (a i) ≤ key rev (a j)

/-- A pass that takes the top of the heap. -/
theorem take_pass (fuel : Nat) (h : Taken rev n (cnt + 1) a₀ a) (hc : 0 < cnt) (hf : cnt < fuel)
    (hn : n < 2 ^ 64) :
    ∃ b, heapBody fuel n rev (a, cnt + 1, 0) = some (.inl (b, cnt, 0)) ∧
      Taken rev n cnt a₀ b := by
  have hle := h.le
  have hdecr : decr (cnt + 1) = cnt := decr_pos (Nat.succ_pos cnt) (by omega)
  have hcut : Heaped rev 1 cnt (Function.update a cnt (a 0)) := by
    intro i c hi hchild hlt
    have := hchild.lt
    rw [Function.update_of_ne (by omega), Function.update_of_ne (by omega)]
    exact h.heap i c (Nat.zero_le i) hchild (by omega)
  obtain ⟨b, j, hrun, hj, hheap, hmoved⟩ := sink_run (n := n) fuel (by omega) (by omega)
    (sinking_start hcut hc (a cnt))
  -- the top and the last element are exchanged before the latter sinks
  have hswap : Moved 0 (cnt + 1) a
      (Function.update (Function.update a cnt (a 0)) 0 (a cnt)) := by
    have hole : Moved 0 (cnt + 1) (Function.update a cnt (a cnt)) _ :=
      moved_hole (Nat.ne_of_gt hc) (Nat.zero_le _) (Nat.lt_succ_self _) (Nat.le_refl 0)
        (Nat.succ_pos _) (a cnt)
    rwa [Function.update_eq_self] at hole
  have hall := hswap.trans (hmoved.mono (Nat.le_refl 0) (Nat.le_succ cnt))
  refine ⟨Function.update b j (a cnt), ?_, hc, by omega, ?_, hheap, ?_⟩
  · have hrun' : run (sinkBody n cnt rev (a cnt)) fuel (Function.update a cnt (a 0), 0, 1) =
        some (b, j) := hrun
    have hcn : cnt < n := by omega
    have h0n : 0 < n := by omega
    have hjn : j < n := by omega
    simp only [heapBody, if_neg (Nat.lt_irrefl 0), hdecr, if_neg (Nat.ne_of_gt hc), peek_some hcn,
      peek_some h0n, poke_some hcn, Option.bind_eq_bind, Option.bind_some, hrun', poke_some hjn]
    rfl
  · exact h.moved.trans (hall.mono (Nat.le_refl 0) hle)
  · intro i k hk hkn hik
    by_cases hkc : k = cnt
    · subst hkc
      have htop : ∀ m, 0 ≤ m → m < k →
          key rev (Function.update (Function.update a k (a 0)) 0 (a k) m) ≤ key rev (a 0) := by
        intro m _ hm
        by_cases hm0 : m = 0
        · rw [hm0, Function.update_self]
          exact h.heap.top (Nat.lt_succ_self k)
        · rw [Function.update_of_ne hm0, Function.update_of_ne (Nat.ne_of_lt hm)]
          exact h.heap.top (Nat.lt_succ_of_lt hm)
      have hk' := hmoved.out (i := k) (Or.inr (Nat.le_refl k))
      rw [Function.update_of_ne (Nat.ne_of_gt hc), Function.update_self] at hk'
      rw [hk']
      exact hmoved.forall (P := fun x => key rev x ≤ key rev (a 0)) htop i (Nat.zero_le i) hik
    · rw [hall.out (i := k) (Or.inr (by omega))]
      by_cases hi : i < cnt + 1
      · exact hall.forall (P := fun x => key rev x ≤ key rev (a k))
          (fun m _ hm => h.taken m k (by omega) hkn (by omega)) i (Nat.zero_le i) hi
      · rw [hall.out (Or.inr (by omega))]
        exact h.taken i k (by omega) hkn hik

/-- Taking the elements one by one leaves them in order. -/
theorem take_run (fuel fuel' : Nat) (h : Taken rev n cnt a₀ a) (hf : cnt < fuel) (hw : n < fuel')
    (hn : n < 2 ^ 64) :
    ∃ b, run (heapBody fuel' n rev) fuel (a, cnt, 0) = some b ∧ Taken rev n 1 a₀ b := by
  induction fuel generalizing cnt a with
  | zero => omega
  | succ fuel ih =>
    have hpos := h.pos
    have hle := h.le
    obtain ⟨cnt, rfl⟩ := Nat.exists_eq_succ_of_ne_zero (Nat.ne_of_gt h.pos)
    by_cases hc : cnt = 0
    · subst hc
      refine ⟨a, run_leave ?_ fuel, h⟩
      simp [heapBody, decr]
    · obtain ⟨b, hs, hb⟩ := take_pass fuel' h (Nat.pos_of_ne_zero hc) (by omega) hn
      rw [run_pass hs]
      exact ih hb (by omega)

theorem build_run (fuel fuel' : Nat) (hp : p ≤ n) (hpos : 0 < n) (h : Heaped rev p n a)
    (hm : Moved 0 n a₀ a) (hf : p + n < fuel) (hw : n < fuel') (hn : n < 2 ^ 64) :
    ∃ b, run (heapBody fuel' n rev) fuel (a, n, p) = some b ∧ Taken rev n 1 a₀ b := by
  induction p generalizing a fuel with
  | zero =>
    exact take_run _ _ ⟨hpos, Nat.le_refl n, hm, h, fun i j _ _ _ => by omega⟩ (by omega) hw hn
  | succ p ih =>
    obtain ⟨fuel, rfl⟩ := Nat.exists_eq_succ_of_ne_zero (Nat.ne_of_gt (Nat.zero_lt_of_lt hf))
    obtain ⟨b, hs, hb, hmoved⟩ := build_pass fuel' (Nat.le_refl n) (by omega) hw h
    rw [run_pass hs]
    exact ih fuel (by omega) hb (hm.trans (hmoved.mono (Nat.zero_le p) (Nat.le_refl n))) (by omega)

end Passes

end Heap

theorem heapsort64_sorts (rev : Bool) (a : Nums) (hpos : 0 < n) (hn : n < 2 ^ 64)
    (hf : 2 * n < fuel) :
    ∃ b, heapsort64 fuel a n rev = some b ∧ Moved 0 n a b ∧ Ascends (key rev) 0 n b := by
  have hleaves : Heap.Heaped rev (n / 2) n a := by
    intro i c hi hc hlt
    rcases hc with rfl | rfl <;> omega
  obtain ⟨b, hrun, hb⟩ := Heap.build_run fuel fuel (Nat.div_le_self n 2) hpos
    hleaves (Moved.refl 0 n a) (by omega) (by omega) hn
  exact ⟨b, hrun, hb.moved, fun i j _ hij hj => hb.taken i j (by omega) hj hij⟩

/-- With nothing to sort the count wraps, and the element before it is read. -/
theorem heapsort64_zero (fuel : Nat) (a : Nums) (rev : Bool) : heapsort64 fuel a 0 rev = none := by
  unfold heapsort64
  cases fuel with
  | zero => rfl
  | succ fuel => simp [run, Heap.heapBody, decr]

end Oin17.Chals.Sortlist
