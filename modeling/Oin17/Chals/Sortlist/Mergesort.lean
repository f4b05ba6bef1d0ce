import Oin17.Chals.Sortlist.Heapsort

namespace Oin17.Chals.Sortlist
open Loop Memory Rearrange

namespace Merge

theorem cmp_eq (x y : UInt64) (rev : Bool) : cmp x y rev = decide (key rev x < key rev y) := by
  rw [Bool.eq_iff_iff, decide_eq_true_eq, key_lt_iff]
  cases rev <;> simp [cmp]

def before (rev : Bool) (x y : UInt64) : Bool := decide (key rev x < key rev y)

section Merge
variable {rev : Bool} {n l r e i j k : Nat} {src dst : Nums}

/-- One element comes from the run that `List.merge` takes it from. -/
theorem merge_pass (rev : Bool) (src dst : Nums) (hr : r ≤ n) (he : e ≤ n) (hi : i ≤ r)
    (hj : j ≤ e) (hk : k < e) (hrest : (r - i) + (e - j) = e - k) :
    ∃ i' j' x, mergeBody n src r e rev ⟨dst, i, j, k⟩ =
        some (.inl ⟨Function.update dst k x, i', j', k + 1⟩) ∧ i' ≤ r ∧ j' ≤ e ∧
      (r - i') + (e - j') = e - (k + 1) ∧
      (part src i (r - i)).merge (part src j (e - j)) (before rev) =
        x :: (part src i' (r - i')).merge (part src j' (e - j')) (before rev) := by
  have hkn : k < n := by omega
  have hleft : ∀ m, i + (m + 1) = r →
      part src i (r - i) = src i :: part src (i + 1) (r - (i + 1)) := by
    rintro m rfl
    rw [Nat.add_sub_cancel_left, part_cons]
    congr 2
    omega
  have hright : ∀ m, j + (m + 1) = e →
      part src j (e - j) = src j :: part src (j + 1) (e - (j + 1)) := by
    rintro m rfl
    rw [Nat.add_sub_cancel_left, part_cons]
    congr 2
    omega
  by_cases hir : i < r
  · have hin : i < n := by omega
    have hxs := hleft (r - i - 1) (by omega)
    by_cases hej : e ≤ j
    · refine ⟨i + 1, j, src i, ?_, hir, hj, by omega, ?_⟩
      · simp only [mergeBody, if_pos hk, fromLeft, if_pos hir, if_pos hej, Option.bind_eq_bind,
          Option.bind_some, if_true, peek_some hin, poke_some hkn]
        rfl
      · rw [hxs, Nat.sub_eq_zero_of_le hej, part_zero, List.merge_right, List.merge_right]
    · have hjn : j < n := by omega
      have hys := hright (e - j - 1) (by omega)
      by_cases hlt : key rev (src i) < key rev (src j)
      · refine ⟨i + 1, j, src i, ?_, hir, hj, by omega, ?_⟩
        · simp only [mergeBody, if_pos hk, fromLeft, if_pos hir, if_neg hej, Option.bind_eq_bind,
            Option.bind_some, Option.pure_def, cmp_eq, hlt, decide_true, if_true, peek_some hin,
            peek_some hjn, poke_some hkn]
        · rw [hxs, hys, List.cons_merge_cons_pos _ _ _ (decide_eq_true hlt)]
      · refine ⟨i, j + 1, src j, ?_, hi, by omega, by omega, ?_⟩
        · simp only [mergeBody, if_pos hk, fromLeft, if_pos hir, if_neg hej, Option.bind_eq_bind,
            Option.bind_some, Option.pure_def, cmp_eq, hlt, decide_false, Bool.false_eq_true,
            if_false, peek_some hin, peek_some hjn, poke_some hkn]
        · rw [hxs, hys, List.cons_merge_cons_neg _ _ _ (by simpa [before] using hlt)]
  · have hjn : j < n := by omega
    have hys := hright (e - j - 1) (by omega)
    refine ⟨i, j + 1, src j, ?_, hi, by omega, by omega, ?_⟩
    · simp only [mergeBody, if_pos hk, fromLeft, if_neg hir, Option.bind_eq_bind, Option.bind_some,
        Bool.false_eq_true, if_false, peek_some hjn, poke_some hkn]
      rfl
    · rw [hys, Nat.sub_eq_zero_of_le (not_lt.mp hir), part_zero, List.nil_merge, List.nil_merge]

theorem merge_run (rev : Bool) (src dst : Nums) (fuel : Nat) (hr : r ≤ n) (he : e ≤ n) (hi : i ≤ r)
    (hj : j ≤ e) (hk : k ≤ e) (hrest : (r - i) + (e - j) = e - k) (hf : e - k < fuel) :
    ∃ d, run (mergeBody n src r e rev) fuel ⟨dst, i, j, k⟩ = some d ∧
      part d k (e - k) = (part src i (r - i)).merge (part src j (e - j)) (before rev) ∧
      ∀ x, x < k ∨ e ≤ x → d x = dst x := by
  induction fuel generalizing dst i j k with
  | zero => omega
  | succ fuel ih =>
    by_cases hlt : k < e
    · obtain ⟨i', j', x, hs, hi', hj', hrest', hmerge⟩ :=
        merge_pass rev src dst hr he hi hj hlt hrest
      rw [run_pass hs]
      obtain ⟨d, hd, hpart, hout⟩ := ih (Function.update dst k x) hi' hj' hlt hrest' (by omega)
      refine ⟨d, hd, ?_, fun y hy => ?_⟩
      · have hk' : e - k = (e - (k + 1)) + 1 := by omega
        rw [hk', part_cons, hpart, hmerge, hout k (Or.inl (Nat.lt_succ_self k)),
          Function.update_self]
      · rw [hout y (by omega), Function.update_of_ne (by omega)]
    · have hke : e - k = 0 := by omega
      have hdone : mergeBody n src r e rev ⟨dst, i, j, k⟩ = some (.inr dst) := by
        simp only [mergeBody, if_neg hlt]
        rfl
      refine ⟨dst, run_leave hdone fuel, ?_, fun _ _ => rfl⟩
      have h₁ : r - i = 0 := by omega
      have h₂ : e - j = 0 := by omega
      rw [hke, h₁, h₂, part_zero, part_zero, part_zero, List.nil_merge]

/-- Two runs that are in order and next to each other become one. -/
theorem merge_spec (dst : Nums) (fuel : Nat) (hl : l ≤ r) (hr : r ≤ e) (he : e ≤ n) (hf : n < fuel)
    (h₁ : Ascends (key rev) l r src) (h₂ : Ascends (key rev) r e src) :
    ∃ d, merge fuel n src dst l r e rev = some d ∧ (part d l (e - l)).Perm (part src l (e - l)) ∧
      Ascends (key rev) l e d ∧ ∀ x, x < l ∨ e ≤ x → d x = dst x := by
  obtain ⟨d, hd, hpart, hout⟩ := merge_run rev src dst fuel (by omega) he hl hr
    (Nat.le_trans hl hr) (by omega) (by omega)
  refine ⟨d, hd, ?_, ?_, hout⟩
  · have hsplit : part src l (e - l) = part src l (r - l) ++ part src r (e - r) := by
      have := part_add src l (r - l) (e - r)
      rwa [Nat.add_sub_cancel' hl, show (r - l) + (e - r) = e - l by omega] at this
    rw [hpart, hsplit]
    exact List.merge_perm_append _
  · rw [← Nat.add_sub_cancel' (Nat.le_trans hl hr), ascends_iff, hpart]
    apply merge_pairwise
    · rw [← ascends_iff, Nat.add_sub_cancel' hl]
      exact h₁
    · rw [← ascends_iff, Nat.add_sub_cancel' hr]
      exact h₂

end Merge

/-- The runs of `w` elements are in order. -/
def Runs.Ordered (rev : Bool) (w n : Nat) (a : Nums) : Prop :=
  ∀ m, w ∣ m → Ascends (key rev) m (min (m + w) n) a

section Passes
variable {rev : Bool} {n w j : Nat} {src tmp a : Nums}

/-- The pairs before `j` are merged. -/
structure Paired (rev : Bool) (n w : Nat) (src tmp : Nums) (j : Nat) : Prop where
  even : 2 * w ∣ j
  perm : (part tmp 0 (min j n)).Perm (part src 0 (min j n))
  ordered : ∀ m, 2 * w ∣ m → m < j → Ascends (key rev) m (min (m + 2 * w) n) tmp

theorem pairs_pass (fuel : Nat) (h : Paired rev n w src tmp j) (hsrc : Runs.Ordered rev w n src)
    (hj : j < n) (hf : n < fuel) :
    ∃ t, pairsBody fuel n src w rev (tmp, j) = some (.inl (t, j + 2 * w)) ∧
      Paired rev n w src t (j + 2 * w) := by
  have hw : w ∣ j := Nat.dvd_trans (Nat.dvd_mul_left w 2) h.even
  have hnext : Ascends (key rev) (min (j + w) n) (min (j + 2 * w) n) src := by
    by_cases hjw : j + w < n
    · have := hsrc (j + w) (Nat.dvd_add hw (Nat.dvd_refl w))
      rwa [Nat.min_eq_left (Nat.le_of_lt hjw), Nat.two_mul, ← Nat.add_assoc]
    · intro x y hx hxy hy
      omega
  obtain ⟨t, hmerge, hperm, hasc, hout⟩ := merge_spec tmp fuel (by omega) (by omega) (by omega) hf
    (hsrc j hw) hnext
  refine ⟨t, ?_, Nat.dvd_add h.even (Nat.dvd_refl _), ?_, fun m hm hlt => ?_⟩
  · simp only [pairsBody, if_pos hj, hmerge, Option.bind_eq_bind, Option.bind_some]
    rfl
  · have hlen : min (j + 2 * w) n = j + (min (j + 2 * w) n - j) := by omega
    have hold := h.perm
    rw [Nat.min_eq_left (Nat.le_of_lt hj)] at hold
    rw [hlen, part_add, part_add, Nat.zero_add]
    refine List.Perm.append ?_ hperm
    rw [part_congr fun x _ hx => hout x (by omega)]
    exact hold
  · by_cases hmj : m < j
    · intro x y hx hxy hy
      -- a block before `j` ends before it
      have hle : m + 2 * w ≤ j := by
        obtain ⟨u, rfl⟩ := hm
        obtain ⟨v, rfl⟩ := h.even
        have huv : u + 1 ≤ v := Nat.lt_of_mul_lt_mul_left hmj
        have := Nat.mul_le_mul_left (2 * w) huv
        rwa [Nat.mul_succ] at this
      rw [hout x (by omega), hout y (by omega)]
      exact h.ordered m hm hmj x y hx hxy hy
    · have hmj' : m = j := by
        obtain ⟨u, rfl⟩ := hm
        obtain ⟨v, rfl⟩ := h.even
        have hu : u < v + 1 := by
          apply Nat.lt_of_mul_lt_mul_left (a := 2 * w)
          rwa [Nat.mul_succ]
        have hv : v ≤ u := by
          by_contra hlt'
          exact hmj (Nat.mul_lt_mul_of_pos_left (not_le.mp hlt') (by omega))
        rw [Nat.le_antisymm (Nat.lt_succ_iff.mp hu) hv]
      rw [hmj']
      exact hasc

theorem pairs_run (fuel fuel' : Nat) (h : Paired rev n w src tmp j)
    (hsrc : Runs.Ordered rev w n src) (hw : 0 < w) (hf : n - j < fuel) (hf' : n < fuel') :
    ∃ t, run (pairsBody fuel' n src w rev) fuel (tmp, j) = some t ∧
      (part t 0 n).Perm (part src 0 n) ∧ Runs.Ordered rev (2 * w) n t := by
  induction fuel generalizing tmp j with
  | zero => omega
  | succ fuel ih =>
    by_cases hj : j < n
    · obtain ⟨t, hs, ht⟩ := pairs_pass fuel' h hsrc hj hf'
      rw [run_pass hs]
      exact ih ht (by omega)
    · have hdone : pairsBody fuel' n src w rev (tmp, j) = some (.inr tmp) := by
        simp only [pairsBody, if_neg hj]
        rfl
      have hperm := h.perm
      rw [Nat.min_eq_right (not_lt.mp hj)] at hperm
      refine ⟨tmp, run_leave hdone fuel, hperm, fun m hm => ?_⟩
      by_cases hmj : m < j
      · exact h.ordered m hm hmj
      · intro x y hx hxy hy
        omega

theorem copy_run (fuel : Nat) (src tmp : Nums) (hj : j ≤ n) (hf : n - j < fuel) :
    ∃ s, run (copyBody n tmp) fuel (src, j) = some s ∧
      (∀ x, j ≤ x → x < n → s x = tmp x) ∧ ∀ x, x < j ∨ n ≤ x → s x = src x := by
  induction fuel generalizing src j with
  | zero => omega
  | succ fuel ih =>
    by_cases hlt : j < n
    · have hs : copyBody n tmp (src, j) = some (.inl (Function.update src j (tmp j), j + 1)) := by
        simp only [copyBody, if_pos hlt, peek_some hlt, poke_some hlt, Option.bind_eq_bind,
          Option.bind_some]
        rfl
      obtain ⟨s, hrun, hin, hout⟩ := ih (Function.update src j (tmp j)) hlt (by omega)
      rw [run_pass hs]
      refine ⟨s, hrun, fun x hl hu => ?_, fun x hx => ?_⟩
      · by_cases hxj : x = j
        · rw [hxj, hout j (by omega), Function.update_self]
        · exact hin x (by omega) hu
      · rw [hout x (by omega), Function.update_of_ne (by omega)]
    · have hs : copyBody n tmp (src, j) = some (.inr src) := by
        simp only [copyBody, if_neg hlt]
        rfl
      exact ⟨src, run_leave hs fuel, fun x _ _ => by omega, fun _ _ => rfl⟩

/-- What was sorted so far is the same elements, in runs of `w`. -/
structure Sorting (rev : Bool) (n w : Nat) (a src : Nums) : Prop where
  perm : (part src 0 n).Perm (part a 0 n)
  ordered : Runs.Ordered rev w n src
  outside : ∀ i, n ≤ i → src i = a i

theorem width_pass (fuel : Nat) (tmp : Nums) (h : Sorting rev n w a src) (hw : 0 < w) (hlt : w < n)
    (hf : n < fuel) :
    ∃ s t, widthBody fuel n rev (src, tmp, w) = some (.inl (s, t, 2 * w)) ∧
      Sorting rev n (2 * w) a s := by
  have hstart : Paired rev n w src tmp 0 :=
    ⟨Nat.dvd_zero _, by simp, fun m _ hm => absurd hm (Nat.not_lt_zero m)⟩
  obtain ⟨t, hpairs, hperm, hord⟩ := pairs_run fuel fuel hstart h.ordered hw hf hf
  obtain ⟨s, hcopy, hin, hout⟩ := copy_run fuel src t (Nat.zero_le n) hf
  refine ⟨s, t, ?_, ?_, fun m hm x y hx hxy hy => ?_, fun i hi => ?_⟩
  · simp only [widthBody, if_pos hlt, hpairs, hcopy, Option.bind_eq_bind, Option.bind_some]
    rfl
  · rw [part_congr fun x hx hxn => hin x hx (by omega)]
    exact hperm.trans h.perm
  · rw [hin x (Nat.zero_le x) (by omega), hin y (Nat.zero_le y) (by omega)]
    exact hord m hm x y hx hxy hy
  · rw [hout i (Or.inr hi)]
    exact h.outside i hi

theorem width_run (fuel fuel' : Nat) (tmp : Nums) (h : Sorting rev n w a src) (hw : 0 < w)
    (hf : n - w < fuel) (hf' : n < fuel') :
    ∃ s, run (widthBody fuel' n rev) fuel (src, tmp, w) = some s ∧
      (part s 0 n).Perm (part a 0 n) ∧ Ascends (key rev) 0 n s ∧ ∀ i, n ≤ i → s i = a i := by
  induction fuel generalizing src tmp w with
  | zero => omega
  | succ fuel ih =>
    by_cases hlt : w < n
    · obtain ⟨s, t, hs, hstep⟩ := width_pass fuel' tmp h hw hlt hf'
      rw [run_pass hs]
      exact ih t hstep (by omega) (by omega)
    · have hs : widthBody fuel' n rev (src, tmp, w) = some (.inr src) := by
        simp only [widthBody, if_neg hlt]
        rfl
      have hord := h.ordered 0 (Nat.dvd_zero w)
      rw [Nat.zero_add, Nat.min_eq_right (not_lt.mp hlt)] at hord
      exact ⟨src, run_leave hs fuel, h.perm, hord, h.outside⟩

end Passes

end Merge

theorem mergesort64_sorts (rev : Bool) (a tmp : Nums) (n : Nat) (hf : n < fuel) :
    ∃ b, mergesort64 fuel a tmp n rev = some b ∧ (part b 0 n).Perm (part a 0 n) ∧
      Ascends (key rev) 0 n b ∧ ∀ i, n ≤ i → b i = a i := by
  have hstart : Merge.Sorting rev n 1 a a := by
    refine ⟨List.Perm.refl _, fun m _ x y hx hxy hy => ?_, fun _ _ => rfl⟩
    omega
  exact Merge.width_run fuel fuel tmp hstart Nat.one_pos (by omega) hf

end Oin17.Chals.Sortlist
