import Oin17.Chals.Sortlist.Mergesort
import Oin17.Chals.Sortlist.Smoothsort

namespace Oin17.Chals.Sortlist
open Leonardo Rearrange

/-- A comparison that looks at the two elements it gets pointers to, and at
nothing else, as a C library asks for. -/
def ByValue (cmp : Compar) (key : UInt64 → Int) : Prop :=
  ∀ mem p q, (cmp mem p q < 0 ↔ key (mem p) < key (mem q)) ∧
    (0 < cmp mem p q ↔ key (mem q) < key (mem p))

structure Conforms (qsort : Qsort) : Prop where
  moved : ∀ a n cmp, Moved 0 n a (qsort a n cmp)
  sorted : ∀ a n cmp key, ByValue cmp key → Ascends key 0 n (qsort a n cmp)

/-- The elements in the order that a challenge asks for. -/
def inOrder (type : UInt8) (l : List UInt64) : List UInt64 :=
  if type = chalSort then l.mergeSort fun x y => decide (x ≤ y)
  else l.mergeSort fun x y => decide (y ≤ x)

/-- `sort` leaves the elements in order and touches nothing else, whatever
`qsort` and the second workspace are. -/
def Meets (build : Build) (chl : Chal) (nums : Nums) : Prop :=
  ∀ qsort, Conforms qsort → ∀ mtmp, ∃ fuel b,
    sort qsort build fuel chl { nums := nums, mtmp := mtmp } = some b ∧
    part b 0 chl.size.toNat = inOrder chl.type (part nums 0 chl.size.toNat) ∧
    ∀ i, chl.size.toNat ≤ i → b i = nums i

/-- The lists that a build sorts. -/
def Suits (build : Build) (chl : Chal) (nums : Nums) : Prop :=
  match build with
  | .quicksort => ∀ i j, i < chl.size.toNat → j < chl.size.toNat → nums i = nums j
  | .heapsort => 0 < chl.size.toNat
  | .mergesort => True
  | .smoothsort => 0 < chl.size.toNat ∧ chl.size.toNat ≤ leo 64 + 1

section Comparisons
variable {chl : Chal}

/-- Whether a challenge asks for descending order. -/
def rev (chl : Chal) : Bool := decide (chl.type = chalRsort)

def compar (r : Bool) : Compar := if r then rsortCompar else sortCompar

theorem rev_sort (h : chl.type = chalSort) : rev chl = false := by
  rw [rev, h]
  decide

theorem rev_rsort (h : chl.type = chalRsort) : rev chl = true := decide_eq_true h

theorem inOrder_eq (h : chl.type = chalSort ∨ chl.type = chalRsort) (l : List UInt64) :
    inOrder chl.type l = l.mergeSort fun x y => decide (key (rev chl) x ≤ key (rev chl) y) := by
  rcases h with h | h
  · rw [rev_sort h, inOrder, if_pos h]
    simp [key, UInt64.le_iff_toNat_le]
  · have hne : ¬ chl.type = chalSort := by
      rw [h]
      decide
    rw [rev_rsort h, inOrder, if_neg hne]
    simp [key, UInt64.le_iff_toNat_le]

/-- What `sort` calls. -/
theorem sort_eq (h : chl.type = chalSort ∨ chl.type = chalRsort) (qsort : Qsort) (build : Build)
    (fuel : Nat) (sl : Workspace) : sort qsort build fuel chl sl =
      match build with
      | .quicksort => some (qsort sl.nums chl.size.toNat (compar (rev chl)))
      | .heapsort => heapsort64 fuel sl.nums chl.size.toNat (rev chl)
      | .mergesort => mergesort64 fuel sl.nums sl.mtmp chl.size.toNat (rev chl)
      | .smoothsort => smoothsort64 fuel sl.nums chl.size.toNat (rev chl) := by
  rcases h with h | h
  · rw [rev_sort h]
    cases build <;> simp only [sort, if_pos h, compar, Bool.false_eq_true, if_false]
  · have hne : ¬ chl.type = chalSort := by
      rw [h]
      decide
    rw [rev_rsort h]
    cases build <;> simp only [sort, if_neg hne, if_pos h, compar, if_true]

/-- The comparisons look at the pointers. -/
theorem compar_not_byValue (r : Bool) (key : UInt64 → Int) : ¬ ByValue (compar r) key := by
  intro h
  cases r with
  | false => exact absurd ((h (fun _ => 0) 0 1).1.mp (by decide)) (lt_irrefl _)
  | true => exact absurd ((h (fun _ => 0) 1 0).1.mp (by decide)) (lt_irrefl _)

end Comparisons

section Library

open Classical in
/-- A `qsort` that does what is asked of it, and `f` where nothing is. -/
noncomputable def qsortOr (f : Nums → Nat → Nums) : Qsort := fun a n cmp =>
  if h : ∃ key, ByValue cmp key then (exists_ascends h.choose n a).choose else f a n

/-- There is one order of the elements for a comparison. -/
theorem ByValue.le_iff {cmp : Compar} {key key' : UInt64 → Int} (h : ByValue cmp key)
    (h' : ByValue cmp key') (x y : UInt64) : key x ≤ key y ↔ key' x ≤ key' y := by
  have hxy := (h (fun p => if p = 0 then x else y) 0 1).2
  have hxy' := (h' (fun p => if p = 0 then x else y) 0 1).2
  simp only [if_true, show ¬ (1 : UInt64) = 0 by decide, if_false] at hxy hxy'
  rw [← not_lt, ← not_lt, ← hxy, hxy']

theorem conforms_qsortOr {f : Nums → Nat → Nums} (hf : ∀ a n, Moved 0 n a (f a n)) :
    Conforms (qsortOr f) := by
  refine ⟨fun a n cmp => ?_, fun a n cmp key hkey => ?_⟩
  · unfold qsortOr
    split
    · next h => exact (exists_ascends h.choose n a).choose_spec.1
    · exact hf a n
  · have h : ∃ key, ByValue cmp key := ⟨key, hkey⟩
    rw [qsortOr, dif_pos h]
    intro i j hi hij hj
    rw [hkey.le_iff h.choose_spec]
    exact (exists_ascends h.choose n a).choose_spec.2 i j hi hij hj

theorem qsortOr_compar (f : Nums → Nat → Nums) (a : Nums) (n : Nat) (r : Bool) :
    qsortOr f a n (compar r) = f a n :=
  dif_neg fun h => compar_not_byValue r h.choose h.choose_spec

end Library

section Builds
variable {chl : Chal} {nums b : Nums}

theorem in_order (h : chl.type = chalSort ∨ chl.type = chalRsort)
    (hm : Moved 0 chl.size.toNat nums b) (hb : Ascends (key (rev chl)) 0 chl.size.toNat b) :
    part b 0 chl.size.toNat = inOrder chl.type (part nums 0 chl.size.toNat) ∧
      ∀ i, chl.size.toNat ≤ i → b i = nums i := by
  rw [inOrder_eq h]
  exact ⟨part_sorted (key_injective _) hm.perm hb, fun i hi => hm.out (Or.inr hi)⟩

theorem ascends_of_in_order (h : chl.type = chalSort ∨ chl.type = chalRsort)
    (hb : part b 0 chl.size.toNat = inOrder chl.type (part nums 0 chl.size.toNat)) :
    Ascends (key (rev chl)) 0 chl.size.toNat b := by
  rw [inOrder_eq h] at hb
  exact ascends_of_sorted hb

theorem quicksort_meets_iff (h : chl.type = chalSort ∨ chl.type = chalRsort) :
    Meets .quicksort chl nums ↔ Suits .quicksort chl nums := by
  constructor
  · intro hmeets i j hi hj
    have hup : ∀ f : Nums → Nat → Nums, (∀ a n, Moved 0 n a (f a n)) →
        Ascends (key (rev chl)) 0 chl.size.toNat (f nums chl.size.toNat) := by
      intro f hf
      obtain ⟨fuel, b, hs, hb, -⟩ := hmeets (qsortOr f) (conforms_qsortOr hf) nums
      rw [sort_eq h] at hs
      obtain rfl := Option.some.inj hs
      rw [qsortOr_compar] at hb
      exact ascends_of_in_order h hb
    -- both the elements as they are and in the opposite order ascend
    have hid := hup (fun a _ => a) fun a n => Moved.refl 0 n a
    have hrev := hup (fun a n => reversed n a) fun a n => moved_reversed n a
    exact same_of_reversed (key_injective _) hid hrev hi hj
  · intro hsame qsort hq mtmp
    have hm := hq.moved nums chl.size.toNat (compar (rev chl))
    refine ⟨0, _, by rw [sort_eq h], in_order h hm fun i j _ hij hj => le_of_eq ?_⟩
    have hall := hm.forall (P := fun x => ∀ m, m < chl.size.toNat → x = nums m)
      fun i _ hi m hm => hsame i m hi hm
    rw [hall i (Nat.zero_le i) (by omega) j hj, hall j (Nat.zero_le j) hj j hj]

theorem heapsort_meets_iff (h : chl.type = chalSort ∨ chl.type = chalRsort) :
    Meets .heapsort chl nums ↔ Suits .heapsort chl nums := by
  constructor
  · intro hmeets
    apply Nat.pos_of_ne_zero
    intro h0
    obtain ⟨fuel, b, hs, -⟩ := hmeets _ (conforms_qsortOr fun a n => Moved.refl 0 n a) nums
    simp only [sort_eq h, h0, heapsort64_zero] at hs
    cases hs
  · intro hpos qsort _ mtmp
    obtain ⟨b, hs, hm, hb⟩ := heapsort64_sorts (rev chl) nums hpos chl.size.toNat_lt
      (Nat.lt_succ_self (2 * chl.size.toNat))
    exact ⟨_, b, by rw [sort_eq h, hs], in_order h hm hb⟩

theorem mergesort_meets (h : chl.type = chalSort ∨ chl.type = chalRsort) :
    Meets .mergesort chl nums := by
  intro qsort _ mtmp
  obtain ⟨b, hs, hp, hb, hout⟩ := mergesort64_sorts (rev chl) nums mtmp chl.size.toNat
    (Nat.lt_succ_self chl.size.toNat)
  refine ⟨_, b, by rw [sort_eq h, hs], ?_, hout⟩
  rw [inOrder_eq h]
  exact part_sorted (key_injective _) hp hb

theorem smoothsort_meets_iff (h : chl.type = chalSort ∨ chl.type = chalRsort) :
    Meets .smoothsort chl nums ↔ Suits .smoothsort chl nums := by
  constructor
  · intro hmeets
    obtain ⟨fuel, b, hs, -⟩ := hmeets _ (conforms_qsortOr fun a n => Moved.refl 0 n a) nums
    rw [sort_eq h] at hs
    constructor
    · apply Nat.pos_of_ne_zero
      intro h0
      simp only [h0, smoothsort64_zero] at hs
      cases hs
    · apply Nat.not_lt.mp
      intro hbig
      simp only [smoothsort64_never fuel nums (rev chl) hbig chl.size.toNat_lt] at hs
      cases hs
  · rintro ⟨hpos, hle⟩ qsort _ mtmp
    obtain ⟨b, hs, hm, hb⟩ := smoothsort64_sorts (rev chl) nums hpos hle
      (Nat.lt_succ_self (chl.size.toNat + 65))
    exact ⟨_, b, by rw [sort_eq h, hs], in_order h hm hb⟩

/-- The lists that the build-time choices sort: a comparison of addresses sorts
nothing, the heap and the row of trees need an element, and the row has no more
trees than a word has bits. -/
theorem sort_meets_iff (build : Build) (nums : Nums)
    (h : chl.type = chalSort ∨ chl.type = chalRsort) :
    Meets build chl nums ↔ Suits build chl nums := by
  cases build with
  | quicksort => exact quicksort_meets_iff h
  | heapsort => exact heapsort_meets_iff h
  | mergesort => exact iff_of_true (mergesort_meets h) trivial
  | smoothsort => exact smoothsort_meets_iff h

end Builds

/-- A challenge to sort `n` elements. -/
def ask (n : UInt64) : Chal :=
  { type := chalSort, lhash := fun _ => 0, left := 0, id := 0, pfix := fun _ => 0, plen := 0
    size := n, nblks := 0 }

theorem sort_meets_two : Meets .smoothsort (ask 2) fun i => if i = 0 then 2 else 1 := by
  apply (sort_meets_iff .smoothsort _ (Or.inl rfl)).mpr
  have hsize : (ask 2).size.toNat = 2 := rfl
  have := leo_pos 64
  exact ⟨by omega, by omega⟩

/-- Two elements that are not in order, and no element at all. -/
theorem sort_builds_fail :
    ¬ Meets .quicksort (ask 2) (fun i => if i = 0 then 2 else 1) ∧
      ¬ Meets .heapsort (ask 0) (fun _ => 0) ∧ ¬ Meets .smoothsort (ask 0) fun _ => 0 := by
  refine ⟨fun h => ?_, fun h => ?_, fun h => ?_⟩
  · have hsame := (quicksort_meets_iff (Or.inl rfl)).mp h 0 1 (by decide) (by decide)
    exact absurd hsame (by decide)
  · exact Nat.lt_irrefl 0 ((heapsort_meets_iff (Or.inl rfl)).mp h)
  · exact Nat.lt_irrefl 0 ((smoothsort_meets_iff (Or.inl rfl)).mp h).1

end Oin17.Chals.Sortlist
