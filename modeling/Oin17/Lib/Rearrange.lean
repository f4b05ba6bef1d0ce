import Mathlib.Data.Fin.Tuple.Sort
import Mathlib.Data.List.Nodup
import Mathlib.Data.List.Perm.Subperm
import Mathlib.Data.List.Sort
import Mathlib.Logic.Equiv.Basic
import Mathlib.Order.Basic

namespace Oin17.Rearrange

section
variable {α : Type} {a b c : Nat → α} {lo hi lo' hi' : Nat}

/-- The cells from `lo` to `hi` of `b` hold what those of `a` do, in any order,
and the other cells are the same. -/
def Moved (lo hi : Nat) (a b : Nat → α) : Prop :=
  ∃ σ : Equiv.Perm Nat, (∀ i, i < lo ∨ hi ≤ i → σ i = i) ∧ ∀ i, b i = a (σ i)

theorem Moved.refl (lo hi : Nat) (a : Nat → α) : Moved lo hi a a :=
  ⟨Equiv.refl Nat, fun _ _ => rfl, fun _ => rfl⟩

theorem Moved.symm (h : Moved lo hi a b) : Moved lo hi b a := by
  obtain ⟨σ, hσ, hb⟩ := h
  refine ⟨σ.symm, fun i hi => ?_, fun i => ?_⟩
  · rw [Equiv.symm_apply_eq, hσ i hi]
  · rw [hb, Equiv.apply_symm_apply]

theorem Moved.trans (h : Moved lo hi a b) (h' : Moved lo hi b c) : Moved lo hi a c := by
  obtain ⟨σ, hσ, hb⟩ := h
  obtain ⟨τ, hτ, hc⟩ := h'
  refine ⟨τ.trans σ, fun i hi => ?_, fun i => ?_⟩
  · rw [Equiv.trans_apply, hτ i hi, hσ i hi]
  · rw [hc, hb, Equiv.trans_apply]

theorem Moved.mono (h : Moved lo hi a b) (hlo : lo' ≤ lo) (hhi : hi ≤ hi') :
    Moved lo' hi' a b := by
  obtain ⟨σ, hσ, hb⟩ := h
  exact ⟨σ, fun i hi => hσ i (by omega), hb⟩

theorem Moved.out (h : Moved lo hi a b) (hi' : i < lo ∨ hi ≤ i) : b i = a i := by
  obtain ⟨σ, hσ, hb⟩ := h
  rw [hb, hσ i hi']

/-- What fixes the cells outside keeps those inside there. -/
theorem stays_inside {σ : Equiv.Perm Nat} (hσ : ∀ i, i < lo ∨ hi ≤ i → σ i = i) (i : Nat)
    (hl : lo ≤ i) (hu : i < hi) : lo ≤ σ i ∧ σ i < hi := by
  by_contra hout
  have := σ.injective (hσ (σ i) (by omega))
  omega

/-- What holds of all the cells holds of them in any order. -/
theorem Moved.forall {P : α → Prop} (h : Moved lo hi a b) (ha : ∀ i, lo ≤ i → i < hi → P (a i)) :
    ∀ i, lo ≤ i → i < hi → P (b i) := by
  obtain ⟨σ, hσ, hb⟩ := h
  intro i hl hu
  obtain ⟨hl', hu'⟩ := stays_inside hσ i hl hu
  rw [hb]
  exact ha _ hl' hu'

/-- Moving what is in cell `j` to cell `i`, and putting `t` in its place. -/
theorem moved_hole (hij : i ≠ j) (hli : lo ≤ i) (hui : i < hi) (hlj : lo ≤ j) (huj : j < hi)
    (t : α) :
    Moved lo hi (Function.update a i t)
      (Function.update (Function.update a i (a j)) j t) := by
  refine ⟨Equiv.swap i j, fun k hk => ?_, fun k => ?_⟩
  · exact Equiv.swap_apply_of_ne_of_ne (by omega) (by omega)
  · by_cases hkj : k = j
    · subst hkj
      rw [Function.update_self, Equiv.swap_apply_right, Function.update_self]
    · rw [Function.update_of_ne hkj]
      by_cases hki : k = i
      · subst hki
        rw [Function.update_self, Equiv.swap_apply_left, Function.update_of_ne (Ne.symm hkj)]
      · rw [Function.update_of_ne hki, Equiv.swap_apply_of_ne_of_ne hki hkj,
          Function.update_of_ne hki]

/-- The first `n` cells in the opposite order. -/
def reversed (n : Nat) (a : Nat → α) (i : Nat) : α := if i < n then a (n - 1 - i) else a i

theorem moved_reversed (n : Nat) (a : Nat → α) : Moved 0 n a (reversed n a) := by
  have hinv : Function.Involutive fun i => if i < n then n - 1 - i else i := by
    intro i
    by_cases hi : i < n
    · have hrev : n - 1 - i < n := by omega
      simp only [if_pos hi, if_pos hrev]
      omega
    · simp only [if_neg hi]
  refine ⟨hinv.toPerm _, fun i hi => ?_, fun i => ?_⟩
  · exact if_neg (by omega)
  · show reversed n a i = a (if i < n then n - 1 - i else i)
    rw [reversed]
    split <;> rfl

/-- `n` cells of an array, from `lo` on. -/
def part (a : Nat → α) (lo n : Nat) : List α := (List.range' lo n).map a

@[simp] theorem part_zero (a : Nat → α) (lo : Nat) : part a lo 0 = [] := rfl

theorem part_add (a : Nat → α) (lo m n : Nat) :
    part a lo (m + n) = part a lo m ++ part a (lo + m) n := by
  rw [part, part, part, ← List.map_append, List.range'_append_1]

theorem part_cons (a : Nat → α) (lo n : Nat) : part a lo (n + 1) = a lo :: part a (lo + 1) n := rfl

theorem part_congr (h : ∀ i, lo ≤ i → i < lo + n → a i = b i) : part a lo n = part b lo n := by
  apply List.map_congr_left
  intro i hi
  obtain ⟨hl, hu⟩ := List.mem_range'_1.mp hi
  exact h i hl hu

theorem Moved.perm (h : Moved 0 n a b) : (part b 0 n).Perm (part a 0 n) := by
  obtain ⟨σ, hσ, hb⟩ := h
  have hfun : b = a ∘ σ := funext hb
  have hrange : ((List.range' 0 n).map σ).Perm (List.range' 0 n) := by
    apply List.Subperm.perm_of_length_le
    · apply List.subperm_of_subset
      · exact List.Nodup.map σ.injective List.nodup_range'
      · intro i hi
        obtain ⟨j, hj, rfl⟩ := List.mem_map.mp hi
        rw [List.mem_range'_1] at hj ⊢
        have := (stays_inside hσ j (Nat.zero_le j) (by omega)).2
        omega
    · simp
  rw [part, part, hfun, ← List.map_map]
  exact hrange.map a

end

section
variable {α β : Type} [LinearOrder β] {key : α → β} {a b : Nat → α} {lo hi : Nat}

/-- The cells from `lo` to `hi` are in ascending order of their keys. -/
def Ascends (key : α → β) (lo hi : Nat) (a : Nat → α) : Prop :=
  ∀ i j, lo ≤ i → i < j → j < hi → key (a i) ≤ key (a j)

theorem ascends_iff : Ascends key lo (lo + n) a ↔
    (part a lo n).Pairwise fun x y => key x ≤ key y := by
  rw [part, List.pairwise_map]
  constructor
  · intro h
    apply List.Pairwise.imp_of_mem (R := (· < ·)) _ List.pairwise_lt_range'
    intro i j hi hj hij
    rw [List.mem_range'_1] at hi hj
    exact h i j hi.1 hij hj.2
  · intro h i j hi hij hj
    rw [List.pairwise_iff_getElem] at h
    have := h (i - lo) (j - lo) (by simp; omega) (by simp; omega) (by omega)
    rw [List.getElem_range', List.getElem_range', Nat.one_mul, Nat.one_mul] at this
    rwa [Nat.add_sub_cancel' hi, Nat.add_sub_cancel' (by omega)] at this

/-- Merging two lists that are in order, from the second one where their first
elements are equal. -/
theorem merge_pairwise {xs ys : List α} (hx : xs.Pairwise fun x y => key x ≤ key y)
    (hy : ys.Pairwise fun x y => key x ≤ key y) :
    (xs.merge ys fun x y => decide (key x < key y)).Pairwise fun x y => key x ≤ key y := by
  induction xs generalizing ys with
  | nil => rwa [List.nil_merge]
  | cons x xs ihx =>
    induction ys with
    | nil => rwa [List.merge_right]
    | cons y ys ihy =>
      obtain ⟨hx₁, hx₂⟩ := List.pairwise_cons.mp hx
      obtain ⟨hy₁, hy₂⟩ := List.pairwise_cons.mp hy
      by_cases hlt : key x < key y
      · rw [List.cons_merge_cons_pos _ _ _ (decide_eq_true hlt)]
        refine List.pairwise_cons.mpr ⟨fun z hz => ?_, ihx hx₂ hy⟩
        rcases List.mem_merge.mp hz with hz | hz
        · exact hx₁ z hz
        · rcases List.mem_cons.mp hz with rfl | hz
          · exact le_of_lt hlt
          · exact le_trans (le_of_lt hlt) (hy₁ z hz)
      · rw [List.cons_merge_cons_neg _ _ _ (by simpa using hlt)]
        refine List.pairwise_cons.mpr ⟨fun z hz => ?_, ihy hy₂⟩
        rcases List.mem_merge.mp hz with hz | hz
        · rcases List.mem_cons.mp hz with rfl | hz
          · exact not_lt.mp hlt
          · exact le_trans (not_lt.mp hlt) (hx₁ z hz)
        · exact hy₁ z hz

/-- There is an order of the cells in which they ascend. -/
theorem exists_ascends (key : α → β) (n : Nat) (a : Nat → α) :
    ∃ b, Moved 0 n a b ∧ Ascends key 0 n b := by
  let σ := Tuple.sort fun i : Fin n => key (a i)
  have hin : ∀ i (hi : i < n), σ.extendDomain Fin.equivSubtype i = (σ ⟨i, hi⟩ : Nat) := by
    intro i hi
    exact Equiv.Perm.extendDomain_apply_subtype σ Fin.equivSubtype hi
  refine ⟨fun i => a (σ.extendDomain Fin.equivSubtype i), ⟨_, fun i hi => ?_, fun _ => rfl⟩,
    fun i j _ hij hj => ?_⟩
  · exact Equiv.Perm.extendDomain_apply_not_subtype σ Fin.equivSubtype (by omega)
  · have hmono := Tuple.monotone_sort (fun i : Fin n => key (a i)) (a := ⟨i, by omega⟩)
      (b := ⟨j, hj⟩) (Nat.le_of_lt hij)
    dsimp only
    rw [hin i (by omega), hin j hj]
    exact hmono

/-- Cells that ascend in both directions are all the same. -/
theorem same_of_reversed (hkey : Function.Injective key) (ha : Ascends key 0 n a)
    (hr : Ascends key 0 n (reversed n a)) (hi : i < n) (hj : j < n) : a i = a j := by
  have hle : ∀ x y, x < y → y < n → a x = a y := by
    intro x y hxy hy
    have hback := hr (n - 1 - y) (n - 1 - x) (Nat.zero_le _) (by omega) (by omega)
    rw [reversed, reversed, if_pos (by omega), if_pos (by omega),
      show n - 1 - (n - 1 - y) = y by omega, show n - 1 - (n - 1 - x) = x by omega] at hback
    exact hkey (le_antisymm (ha x y (Nat.zero_le x) hxy hy) hback)
  rcases Nat.lt_trichotomy i j with hij | rfl | hij
  · exact hle i j hij hj
  · rfl
  · exact (hle j i hij hi).symm

theorem sort_pairwise (key : α → β) (l : List α) :
    (l.mergeSort fun x y => decide (key x ≤ key y)).Pairwise fun x y => key x ≤ key y := by
  have htrans : ∀ x y z : α, decide (key x ≤ key y) = true → decide (key y ≤ key z) = true →
      decide (key x ≤ key z) = true := by
    intro x y z hxy hyz
    exact decide_eq_true (le_trans (of_decide_eq_true hxy) (of_decide_eq_true hyz))
  have htotal : ∀ x y : α, (decide (key x ≤ key y) || decide (key y ≤ key x)) = true := by
    intro x y
    simpa using le_total (key x) (key y)
  apply (List.pairwise_mergeSort htrans htotal l).imp
  intro x y hxy
  exact of_decide_eq_true hxy

/-- There is one way to put the cells in order. -/
theorem part_sorted (hkey : Function.Injective key) (hp : (part b 0 n).Perm (part a 0 n))
    (hb : Ascends key 0 n b) :
    part b 0 n = (part a 0 n).mergeSort fun x y => decide (key x ≤ key y) := by
  rw [← Nat.zero_add n] at hb
  refine List.Perm.eq_of_pairwise ?_ (ascends_iff.mp hb) (sort_pairwise key _) ?_
  · intro x y _ _ hxy hyx
    exact hkey (le_antisymm hxy hyx)
  · exact hp.trans (List.mergeSort_perm ..).symm

theorem ascends_of_sorted
    (h : part b 0 n = (part a 0 n).mergeSort fun x y => decide (key x ≤ key y)) :
    Ascends key 0 n b := by
  rw [← Nat.zero_add n, ascends_iff, h]
  exact sort_pairwise key _

end

/-- Inserting into a list that is in a strict order, which need only tell the new element from
those of the list. -/
theorem pairwise_orderedInsert {α : Type} {r : α → α → Prop} [DecidableRel r] {x : α} {l : List α}
    (ht : ∀ a b c, r a b → r b c → r a c) (h : l.Pairwise r) (hx : ∀ b ∈ l, r x b ∨ r b x) :
    (l.orderedInsert r x).Pairwise r := by
  induction l with
  | nil => exact List.pairwise_singleton r x
  | cons b l ih =>
    obtain ⟨hb, hl⟩ := List.pairwise_cons.mp h
    by_cases hxb : r x b
    · rw [List.orderedInsert_cons_of_le _ _ hxb]
      refine List.pairwise_cons.mpr ⟨fun c hc => ?_, h⟩
      rcases List.mem_cons.mp hc with rfl | hc
      · exact hxb
      · exact ht x b c hxb (hb c hc)
    · have hbx : r b x := (hx b List.mem_cons_self).resolve_left hxb
      rw [List.orderedInsert_of_not_le _ _ hxb]
      refine List.pairwise_cons.mpr
        ⟨fun c hc => ?_, ih hl fun c hc => hx c (List.mem_cons_of_mem _ hc)⟩
      rcases (List.mem_orderedInsert r).mp hc with rfl | hc
      · exact hbx
      · exact hb c hc

end Oin17.Rearrange
