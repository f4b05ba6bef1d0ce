import Oin17.Lib.Rearrange

namespace Oin17.Leonardo
open Rearrange

/-- The size of a tree of order `k`: a tree of order `k - 1`, one of order `k - 2`
and behind them their root. -/
def leo : Nat → Nat
  | 0 => 1
  | 1 => 1
  | k + 2 => leo (k + 1) + leo k + 1

theorem leo_pos (k : Nat) : 0 < leo k := by
  cases k with
  | zero => exact Nat.one_pos
  | succ k =>
    cases k with
    | zero => exact Nat.one_pos
    | succ k => exact Nat.succ_pos _

theorem leo_le_succ (k : Nat) : leo k ≤ leo (k + 1) := by
  cases k with
  | zero => exact Nat.le_refl 1
  | succ k =>
    rw [leo]
    omega

theorem leo_mono (h : j ≤ k) : leo j ≤ leo k := by
  induction h with
  | refl => exact Nat.le_refl _
  | step _ ih => exact Nat.le_trans ih (leo_le_succ _)

/-- The trees of order 0 and 1 have no tree under their root. -/
theorem leo_cases (k : Nat) : k < 2 ∧ leo k = 1 ∨ 2 ≤ k ∧ 3 ≤ leo k := by
  match k with
  | 0 => exact Or.inl ⟨by omega, rfl⟩
  | 1 => exact Or.inl ⟨by omega, rfl⟩
  | k + 2 =>
    have h₁ := leo_pos (k + 1)
    have h₂ := leo_pos k
    rw [leo]
    exact Or.inr ⟨by omega, by omega⟩

theorem leo_one (h : k < 2) : leo k = 1 := by
  rcases leo_cases k with ⟨-, hone⟩ | ⟨hle, -⟩
  · exact hone
  · omega

/-- The last cell of the tree of order `k` from cell `s` on. -/
def root (k s : Nat) : Nat := s + (leo k - 1)

theorem root_succ (k s : Nat) : root k s + 1 = s + leo k := by
  have := leo_pos k
  unfold root
  omega

theorem root_add_two (k s : Nat) : root (k + 2) s = s + leo (k + 1) + leo k := by
  have := root_succ (k + 2) s
  rw [leo] at this
  omega

/-- The cells that trees of these orders take, the last tree first. -/
def size : List Nat → Nat
  | [] => 0
  | k :: ks => size ks + leo k

theorem length_le_size (ks : List Nat) : ks.length ≤ size ks := by
  induction ks with
  | nil => exact Nat.le_refl 0
  | cons k ks ih =>
    have := leo_pos k
    rw [List.length_cons, size]
    omega

section Trees
variable {α β : Type} [LinearOrder β] (key : α → β)

/-- No element is before those in the trees under it. -/
def Heap (a : Nat → α) : Nat → Nat → Prop
  | 0, _ => True
  | 1, _ => True
  | k + 2, s => Heap a (k + 1) s ∧ Heap a k (s + leo (k + 1)) ∧
    key (a (root (k + 1) s)) ≤ key (a (root (k + 2) s)) ∧
    key (a (root k (s + leo (k + 1)))) ≤ key (a (root (k + 2) s))

/-- The trees under the root are heaps. -/
def Kids (a : Nat → α) : Nat → Nat → Prop
  | 0, _ => True
  | 1, _ => True
  | k + 2, s => Heap key a (k + 1) s ∧ Heap key a k (s + leo (k + 1))

/-- The order and the first cell of the tree under the root of a tree of order
`k + 2` whose root comes later. -/
def pick (a : Nat → α) (k s : Nat) : Nat × Nat :=
  if key (a (root (k + 1) s)) ≤ key (a (root k (s + leo (k + 1)))) then (k, s + leo (k + 1))
  else (k + 1, s)

theorem pick_order (a : Nat → α) (k s : Nat) : (pick key a k s).1 < k + 2 := by
  unfold pick
  split <;> simp

theorem pick_place (a : Nat → α) (k s : Nat) :
    s ≤ (pick key a k s).2 ∧ (pick key a k s).2 + leo (pick key a k s).1 ≤ root (k + 2) s := by
  rw [root_add_two]
  unfold pick
  split
  · exact ⟨Nat.le_add_right .., Nat.le_refl _⟩
  · exact ⟨Nat.le_refl s, Nat.le_add_right ..⟩

theorem pick_lt (a : Nat → α) (k s : Nat) :
    root (pick key a k s).1 (pick key a k s).2 < root (k + 2) s := by
  have hplace := pick_place key a k s
  have hroot := root_succ (pick key a k s).1 (pick key a k s).2
  omega

/-- Letting `t` sink into a tree with a hole for its root. -/
def sink (t : α) (k s : Nat) (a : Nat → α) : Nat → α :=
  match k with
  | 0 => Function.update a (root 0 s) t
  | 1 => Function.update a (root 1 s) t
  | k + 2 =>
    let c := pick key a k s
    if key (a (root c.1 c.2)) < key t then Function.update a (root (k + 2) s) t
    else sink t c.1 c.2 (Function.update a (root (k + 2) s) (a (root c.1 c.2)))
termination_by k
decreasing_by exact pick_order key a k s

variable {key} {a b F : Nat → α} {k s : Nat} {t : α}

theorem Heap.kids (h : Heap key a k s) : Kids key a k s := by
  cases k with
  | zero => trivial
  | succ k =>
    cases k with
    | zero => trivial
    | succ k => exact ⟨h.1, h.2.1⟩

/-- A heap is about the cells of its tree alone. -/
theorem Heap.congr (h : Heap key a k s) (hb : ∀ i, s ≤ i → i < s + leo k → b i = a i) :
    Heap key b k s := by
  induction k using leo.induct generalizing s with
  | case1 | case2 => trivial
  | case3 k ih₁ ih₂ =>
    obtain ⟨hleft, hright, hl, hr⟩ := h
    have hroot := root_add_two k s
    have hrl := root_succ (k + 1) s
    have hrr := root_succ k (s + leo (k + 1))
    have h₁ := leo_pos (k + 1)
    have h₂ := leo_pos k
    rw [leo] at hb
    refine ⟨ih₁ hleft fun i hi hlt => hb i hi (by omega),
      ih₂ hright fun i hi hlt => hb i (by omega) (by omega), ?_, ?_⟩
    · rw [hb _ (by omega) (by omega), hb _ (by omega) (by omega)]
      exact hl
    · rw [hb _ (by omega) (by omega), hb _ (by omega) (by omega)]
      exact hr

theorem Kids.congr (h : Kids key a k s) (hb : ∀ i, s ≤ i → i < root k s → b i = a i) :
    Kids key b k s := by
  cases k with
  | zero => trivial
  | succ k =>
    cases k with
    | zero => trivial
    | succ k =>
      rw [root_add_two] at hb
      exact ⟨h.1.congr fun i hi hlt => hb i hi (by omega),
        h.2.congr fun i hi hlt => hb i (by omega) (by omega)⟩

/-- The root of a heap comes last. -/
theorem Heap.max (h : Heap key a k s) (i : Nat) (hs : s ≤ i) (hi : i < s + leo k) :
    key (a i) ≤ key (a (root k s)) := by
  induction k using leo.induct generalizing s with
  | case1 | case2 =>
    have his : i = s := by
      rw [leo] at hi
      omega
    rw [his]
    exact le_refl _
  | case3 k ih₁ ih₂ =>
    obtain ⟨hleft, hright, hl, hr⟩ := h
    have hroot := root_add_two k s
    rw [leo] at hi
    by_cases hil : i < s + leo (k + 1)
    · exact le_trans (ih₁ hleft hs hil) hl
    · by_cases hir : i < s + leo (k + 1) + leo k
      · exact le_trans (ih₂ hright (by omega) hir) hr
      · rw [show i = root (k + 2) s by omega]

/-- The tree that is picked is one of the two under the root. -/
theorem pick_spec (h : Kids key a (k + 2) s) :
    let c := pick key a k s
    Heap key a c.1 c.2 ∧ s ≤ c.2 ∧ c.2 + leo c.1 ≤ root (k + 2) s ∧
      key (a (root (k + 1) s)) ≤ key (a (root c.1 c.2)) ∧
      key (a (root k (s + leo (k + 1)))) ≤ key (a (root c.1 c.2)) := by
  obtain ⟨hs, hR⟩ := pick_place key a k s
  have hmax : Heap key a (pick key a k s).1 (pick key a k s).2 ∧
      key (a (root (k + 1) s)) ≤ key (a (root (pick key a k s).1 (pick key a k s).2)) ∧
      key (a (root k (s + leo (k + 1)))) ≤
        key (a (root (pick key a k s).1 (pick key a k s).2)) := by
    unfold pick
    split
    · next hle => exact ⟨h.2, hle, le_refl _⟩
    · next hlt => exact ⟨h.1, le_refl _, le_of_lt (not_le.mp hlt)⟩
  exact ⟨hmax.1, hs, hR, hmax.2⟩

/-- What is in the hole does not matter. -/
theorem sink_hole (t : α) (k s : Nat) (a : Nat → α) (x : α) :
    sink key t k s (Function.update a (root k s) x) = sink key t k s a := by
  match k with
  | 0 => simp only [sink, Function.update_idem]
  | 1 => simp only [sink, Function.update_idem]
  | k + 2 =>
    have hroot := root_add_two k s
    have h₁ := root_succ (k + 1) s
    have h₂ := root_succ k (s + leo (k + 1))
    have hpos := leo_pos k
    have hpick : pick key (Function.update a (root (k + 2) s) x) k s = pick key a k s := by
      unfold pick
      rw [Function.update_of_ne (by omega), Function.update_of_ne (by omega)]
    have hlt := pick_lt key a k s
    rw [sink, sink]
    simp only [hpick, Function.update_of_ne (Nat.ne_of_lt hlt), Function.update_idem]

theorem Heap.pick_le (h : Heap key a (k + 2) s) :
    key (a (root (pick key a k s).1 (pick key a k s).2)) ≤ key (a (root (k + 2) s)) := by
  obtain ⟨-, hs, hR, -, -⟩ := pick_spec h.kids
  have hr := root_succ (pick key a k s).1 (pick key a k s).2
  have hpos := leo_pos (pick key a k s).1
  have hRs := root_succ (k + 2) s
  exact h.max _ (by omega) (by omega)

/-- A root that is not before those under it. -/
theorem Kids.heap {c : Nat × Nat} (h : Kids key a (k + 2) s) (hc : pick key a k s = c)
    (hF : ∀ i, s ≤ i → i < root (k + 2) s → F i = a i)
    (hle : key (a (root c.1 c.2)) ≤ key (F (root (k + 2) s))) : Heap key F (k + 2) s := by
  obtain ⟨-, -, -, hl, hr⟩ := hc ▸ pick_spec h
  obtain ⟨hleft, hright⟩ := h.congr hF
  have hR := root_add_two k s
  have hrl := root_succ (k + 1) s
  have hrr := root_succ k (s + leo (k + 1))
  have h₁ := leo_pos (k + 1)
  have h₂ := leo_pos k
  refine ⟨hleft, hright, ?_, ?_⟩
  · rw [hF _ (by omega) (by omega)]
    exact le_trans hl hle
  · rw [hF _ (by omega) (by omega)]
    exact le_trans hr hle

/-- The root of the tree that is picked goes up, and what is left of the tree is
made a heap again. -/
theorem heap_of_pick {c : Nat × Nat} (h : Kids key a (k + 2) s) (hc : pick key a k s = c)
    (hF : ∀ i, s ≤ i → i < root (k + 2) s → i < c.2 ∨ c.2 + leo c.1 ≤ i → F i = a i)
    (hroot : F (root (k + 2) s) = a (root c.1 c.2)) (hheap : Heap key F c.1 c.2)
    (hmax : ∀ i, c.2 ≤ i → i < c.2 + leo c.1 → key (F i) ≤ key (a (root c.1 c.2))) :
    Heap key F (k + 2) s := by
  obtain ⟨-, -, -, hl, hr⟩ := hc ▸ pick_spec h
  have hR := root_add_two k s
  have hrl := root_succ (k + 1) s
  have hrr := root_succ k (s + leo (k + 1))
  have h₁ := leo_pos (k + 1)
  have h₂ := leo_pos k
  rw [← hroot] at hl hr hmax
  unfold pick at hc
  split at hc
  · subst hc
    dsimp only at hF hmax hheap
    refine ⟨h.1.congr fun i hi hlt => hF i hi (by omega) (Or.inl hlt), hheap, ?_, ?_⟩
    · rw [hF _ (by omega) (by omega) (Or.inl (by omega))]
      exact hl
    · exact hmax _ (by omega) (by omega)
  · subst hc
    dsimp only at hF hmax hheap
    refine ⟨hheap, h.2.congr fun i hi hlt => hF i (by omega) (by omega) (Or.inr hi), ?_, ?_⟩
    · exact hmax _ (by omega) (by omega)
    · rw [hF _ (by omega) (by omega) (Or.inr (by omega))]
      exact hr

/-- What is in the hole at the root of the tree that is picked, and what is made
of that tree. -/
theorem climb_pick {c : Nat × Nat} (h : Kids key a (k + 2) s) (hc : pick key a k s = c)
    (ht : key t ≤ key (a (root c.1 c.2))) (hheap : Heap key F c.1 c.2)
    (hm : Moved c.2 (c.2 + leo c.1) (Function.update (Function.update a (root (k + 2) s)
      (a (root c.1 c.2))) (root c.1 c.2) t) F) :
    Heap key F (k + 2) s ∧ F (root (k + 2) s) = a (root c.1 c.2) ∧
      Moved s (s + leo (k + 2)) (Function.update a (root (k + 2) s) t) F := by
  obtain ⟨hchild, hs, hR, -, -⟩ := hc ▸ pick_spec h
  have hcr := root_succ c.1 c.2
  have hpos := leo_pos c.1
  have hsR := root_succ (k + 2) s
  have hF : ∀ i, i < c.2 ∨ c.2 + leo c.1 ≤ i → F i =
      Function.update a (root (k + 2) s) (a (root c.1 c.2)) i := by
    intro i hi
    rw [hm.out hi, Function.update_of_ne (by omega)]
  have hroot : F (root (k + 2) s) = a (root c.1 c.2) := by
    rw [hF _ (Or.inr hR), Function.update_self]
  refine ⟨heap_of_pick h hc (fun i _ hi hout => ?_) hroot hheap ?_, hroot, ?_⟩
  · rw [hF i hout, Function.update_of_ne (by omega)]
  · apply hm.forall (P := fun x => key x ≤ key (a (root c.1 c.2)))
    intro i hi hlt
    by_cases hir : i = root c.1 c.2
    · rw [hir, Function.update_self]
      exact ht
    · rw [Function.update_of_ne hir, Function.update_of_ne (by omega)]
      exact hchild.max i hi hlt
  · apply Moved.trans (moved_hole (j := root c.1 c.2) (by omega) (by omega) (by omega) (by omega)
      (by omega) t)
    exact hm.mono hs (by omega)

theorem sink_spec (t : α) (h : Kids key a k s) :
    Heap key (sink key t k s a) k s ∧
      Moved s (s + leo k) (Function.update a (root k s) t) (sink key t k s a) := by
  induction k using Nat.strongRecOn generalizing s a with
  | ind k ih =>
    cases k with
    | zero =>
      rw [sink]
      exact ⟨trivial, Moved.refl ..⟩
    | succ k =>
      cases k with
      | zero =>
        rw [sink]
        exact ⟨trivial, Moved.refl ..⟩
      | succ k =>
        rw [sink]
        have hpick := pick_spec h
        have horder := pick_order key a k s
        generalize hc : pick key a k s = c at hpick horder ⊢
        obtain ⟨hchild, hs, hR, hl, hr⟩ := hpick
        split
        · next hlt =>
          refine ⟨h.heap hc (fun i _ hi => ?_) ?_, Moved.refl ..⟩
          · exact Function.update_of_ne (Nat.ne_of_lt hi) ..
          · rw [Function.update_self]
            exact le_of_lt hlt
        · next hle =>
          obtain ⟨hheap, hm⟩ := ih c.1 horder (hchild.kids.congr
            (b := Function.update a (root (k + 2) s) (a (root c.1 c.2)))
            fun i hi hlt => Function.update_of_ne (by have := root_succ c.1 c.2; omega) ..)
          obtain ⟨hheap', -, hm'⟩ := climb_pick h hc (not_lt.mp hle) hheap hm
          exact ⟨hheap', hm'⟩

end Trees

section Rows
variable {α β : Type} [LinearOrder β] (key : α → β)

/-- The trees of these orders, the last one first, are heaps. -/
def Forest (a : Nat → α) : List Nat → Prop
  | [] => True
  | k :: ks => Heap key a k (size ks) ∧ Forest a ks

/-- Their roots are in order. -/
def Rising (a : Nat → α) : List Nat → Prop
  | k :: k' :: ks => key (a (root k' (size ks))) ≤ key (a (root k (size (k' :: ks)))) ∧
    Rising a (k' :: ks)
  | _ => True

structure Row (a : Nat → α) (ks : List Nat) : Prop where
  forest : Forest key a ks
  rising : Rising key a ks

/-- Letting `t` go to the left along the roots, and sink into a tree: the last
tree has a hole for its root. -/
def settle (t : α) : List Nat → (Nat → α) → Nat → α
  | [], a => a
  | [k], a => sink key t k 0 a
  | k :: k' :: ks, a =>
    let s := size (k' :: ks)
    let c := pick key a (k - 2) s
    if key (a (root k' (size ks))) < key t then sink key t k s a
    else if k < 2 ∨ key (a (root c.1 c.2)) < key (a (root k' (size ks))) then
      settle t (k' :: ks) (Function.update a (root k s) (a (root k' (size ks))))
    else sink key t c.1 c.2 (Function.update a (root k s) (a (root c.1 c.2)))

theorem settle_two (t : α) (k k' : Nat) (ks : List Nat) (a : Nat → α) {c : Nat × Nat}
    (hc : pick key a (k - 2) (size (k' :: ks)) = c) : settle key t (k :: k' :: ks) a =
      if key (a (root k' (size ks))) < key t then sink key t k (size (k' :: ks)) a
      else if k < 2 ∨ key (a (root c.1 c.2)) < key (a (root k' (size ks))) then
        settle key t (k' :: ks)
          (Function.update a (root k (size (k' :: ks))) (a (root k' (size ks))))
      else sink key t c.1 c.2
        (Function.update a (root k (size (k' :: ks))) (a (root c.1 c.2))) := by
  rw [settle, hc]

variable {key} {a b F : Nat → α} {k k' s : Nat} {ks : List Nat} {t : α}

theorem Forest.congr (h : Forest key a ks) (hb : ∀ i, i < size ks → b i = a i) :
    Forest key b ks := by
  induction ks with
  | nil => trivial
  | cons k ks ih =>
    rw [size] at hb
    exact ⟨h.1.congr fun i _ hi => hb i hi, ih h.2 fun i hi => hb i (by omega)⟩

theorem root_lt (k : Nat) (ks : List Nat) : root k (size ks) < size (k :: ks) := by
  have := root_succ k (size ks)
  rw [size]
  omega

theorem Rising.congr (h : Rising key a ks) (hb : ∀ i, i < size ks → b i = a i) :
    Rising key b ks := by
  induction ks with
  | nil => trivial
  | cons k ks ih =>
    cases ks with
    | nil => trivial
    | cons k' ks =>
      have hk := root_lt k (k' :: ks)
      have hk' := root_lt k' ks
      have hlt : size (k' :: ks) ≤ size (k :: k' :: ks) := Nat.le_add_right ..
      refine ⟨?_, ih h.2 fun i hi => hb i (by omega)⟩
      rw [hb _ (by omega), hb _ hk]
      exact h.1

theorem Row.congr (h : Row key a ks) (hb : ∀ i, i < size ks → b i = a i) : Row key b ks :=
  ⟨h.forest.congr hb, h.rising.congr hb⟩

theorem Row.tail (h : Row key a (k :: ks)) : Row key a ks := by
  refine ⟨h.forest.2, ?_⟩
  cases ks with
  | nil => trivial
  | cons k' ks => exact h.rising.2

/-- The last root comes last. -/
theorem Row.max (h : Row key a (k :: ks)) (i : Nat) (hi : i < size (k :: ks)) :
    key (a i) ≤ key (a (root k (size ks))) := by
  induction ks generalizing k with
  | nil => exact h.forest.1.max i (Nat.zero_le i) hi
  | cons k' ks ih =>
    by_cases hlt : i < size (k' :: ks)
    · exact le_trans (ih h.tail hlt) h.rising.1
    · exact h.forest.1.max i (Nat.not_lt.mp hlt) hi

/-- A heap behind a row makes a longer row. -/
theorem Row.cons (h : Row key a ks) (hheap : Heap key a k (size ks))
    (hroot : ∀ k' ks', ks = k' :: ks' →
      key (a (root k' (size ks'))) ≤ key (a (root k (size ks)))) : Row key a (k :: ks) := by
  refine ⟨⟨hheap, h.forest⟩, ?_⟩
  cases ks with
  | nil => trivial
  | cons k' ks => exact ⟨hroot k' ks rfl, h.rising⟩

/-- What sinks into a tree is not after its new root. -/
theorem le_root (hm : Moved s (s + leo k) (Function.update a (root k s) t) F)
    (hF : Heap key F k s) : key t ≤ key (F (root k s)) := by
  have hr := root_succ k s
  have hpos := leo_pos k
  have := hm.symm.forall (P := fun x => key x ≤ key (F (root k s)))
    (fun i hi hlt => hF.max i hi hlt) (root k s) (by omega) (by omega)
  rwa [Function.update_self] at this

/-- Only the last tree changes. -/
theorem Row.settle_here (h : Row key a ks) (hF : Heap key F k (size ks))
    (hm : Moved (size ks) (size ks + leo k) (Function.update a (root k (size ks)) t) F)
    (hroot : ∀ k' ks', ks = k' :: ks' →
      key (a (root k' (size ks'))) ≤ key (F (root k (size ks)))) :
    Row key F (k :: ks) ∧
      Moved 0 (size (k :: ks)) (Function.update a (root k (size ks)) t) F := by
  have hpos := leo_pos k
  have hkeep : ∀ i, i < size ks → F i = a i := by
    intro i hi
    have := root_succ k (size ks)
    rw [hm.out (Or.inl hi), Function.update_of_ne (by omega)]
  refine ⟨(h.congr hkeep).cons hF fun k' ks' he => ?_, hm.mono (Nat.zero_le _) (Nat.le_refl _)⟩
  subst he
  rw [hkeep _ (root_lt k' ks')]
  exact hroot k' ks' rfl

/-- The root before the last tree takes its place, and the rest of the row is put
in order without it. -/
theorem Row.settle_left (h : Row key a (k' :: ks)) (hk : Kids key a k (size (k' :: ks)))
    (ht : key t ≤ key (a (root k' (size ks))))
    (hpick : ∀ m, k = m + 2 → key (a (root (pick key a m (size (k' :: ks))).1
      (pick key a m (size (k' :: ks))).2)) ≤ key (a (root k' (size ks))))
    (hF : Row key F (k' :: ks))
    (hm : Moved 0 (size (k' :: ks)) (Function.update (Function.update a (root k (size (k' :: ks)))
      (a (root k' (size ks)))) (root k' (size ks)) t) F) :
    Row key F (k :: k' :: ks) ∧ Moved 0 (size (k :: k' :: ks))
      (Function.update a (root k (size (k' :: ks))) t) F := by
  have hlt := root_lt k' ks
  have hR := root_lt k (k' :: ks)
  have hRs := root_succ k (size (k' :: ks))
  have hpos := leo_pos k
  have hkeep : ∀ i, size (k' :: ks) ≤ i → F i =
      Function.update a (root k (size (k' :: ks))) (a (root k' (size ks))) i := by
    intro i hi
    rw [hm.out (Or.inr hi), Function.update_of_ne (by omega)]
  have hroot : F (root k (size (k' :: ks))) = a (root k' (size ks)) := by
    rw [hkeep _ (by omega), Function.update_self]
  have hkids : ∀ i, size (k' :: ks) ≤ i → i < root k (size (k' :: ks)) → F i = a i := by
    intro i hi hlt
    rw [hkeep i hi, Function.update_of_ne (Nat.ne_of_lt hlt)]
  have hheap : Heap key F k (size (k' :: ks)) := by
    cases k with
    | zero => trivial
    | succ k =>
      cases k with
      | zero => trivial
      | succ k =>
        apply hk.heap rfl hkids
        rw [hroot]
        exact hpick k rfl
  constructor
  · refine hF.cons hheap fun _ _ he => ?_
    obtain ⟨rfl, rfl⟩ := List.cons.inj he
    rw [hroot]
    apply hm.forall (P := fun x => key x ≤ key (a (root _ (size _)))) _ _ (Nat.zero_le _) hlt
    intro i _ hi
    by_cases hir : i = root k' (size ks)
    · rw [hir, Function.update_self]
      exact ht
    · rw [Function.update_of_ne hir, Function.update_of_ne (by omega)]
      exact h.max i hi
  · apply Moved.trans (moved_hole (j := root k' (size ks)) (by omega) (Nat.zero_le _) hR
      (Nat.zero_le _) (by omega) t)
    exact hm.mono (Nat.le_refl 0) (by omega)

theorem settle_spec (t : α) (hk : Kids key a k (size ks)) (h : Row key a ks) :
    Row key (settle key t (k :: ks) a) (k :: ks) ∧
      Moved 0 (size (k :: ks)) (Function.update a (root k (size ks)) t)
        (settle key t (k :: ks) a) := by
  induction ks generalizing k a with
  | nil =>
    obtain ⟨hheap, hm⟩ := sink_spec t hk
    rw [settle]
    exact h.settle_here hheap hm nofun
  | cons k' ks ih =>
    have hR := root_lt k (k' :: ks)
    have hlt := root_lt k' ks
    have hRs := root_succ k (size (k' :: ks))
    have hpos := leo_pos k
    have hsize : size (k' :: ks) = size ks + leo k' := rfl
    have hleft := ih (a := Function.update a (root k (size (k' :: ks))) (a (root k' (size ks))))
      (h.forest.1.kids.congr fun i _ hi => Function.update_of_ne (by omega) ..)
      (h.tail.congr fun i hi => Function.update_of_ne (by omega) ..)
    rw [settle]
    split
    · next hstop =>
      obtain ⟨hheap, hm⟩ := sink_spec t hk
      refine h.settle_here hheap hm fun _ _ he => ?_
      obtain ⟨rfl, rfl⟩ := List.cons.inj he
      exact le_trans (le_of_lt hstop) (le_root hm hheap)
    · next hgo =>
      split
      · next hpick =>
        refine h.settle_left hk (not_lt.mp hgo) (fun m hm => ?_) hleft.1 hleft.2
        subst hm
        rcases hpick with h2 | hlt
        · omega
        · exact le_of_lt hlt
      · next hpick =>
        rw [not_or, Nat.not_lt, not_lt] at hpick
        obtain ⟨m, rfl⟩ := Nat.exists_eq_add_of_le' hpick.1
        rw [Nat.add_sub_cancel] at hpick ⊢
        have hin := pick_spec hk
        generalize hc : pick key a m (size (k' :: ks)) = c at hpick hin ⊢
        have hcr := root_succ c.1 c.2
        have hcp := leo_pos c.1
        obtain ⟨hchild, hcs, hcR, -, -⟩ := hin
        have ht := le_trans (not_lt.mp hgo) hpick.2
        obtain ⟨hheap, hm⟩ := sink_spec t (hchild.kids.congr
          (b := Function.update a (root (m + 2) (size (k' :: ks))) (a (root c.1 c.2)))
          fun i _ hi => Function.update_of_ne (by omega) ..)
        obtain ⟨hheap', hroot, hm'⟩ := climb_pick hk hc ht hheap hm
        refine h.settle_here hheap' hm' fun _ _ he => ?_
        obtain ⟨rfl, rfl⟩ := List.cons.inj he
        rw [hroot]
        exact hpick.2

variable (key) in
/-- Exchanging the root of the tree behind a row with the last root of the row,
when the latter is not before it, and putting the row in order again. -/
def semi (k : Nat) : List Nat → (Nat → α) → Nat → α
  | [], a => a
  | k' :: ks, a =>
    let r := root k (size (k' :: ks))
    let r' := root k' (size ks)
    if key (a r) ≤ key (a r') then
      settle key (a r) (k' :: ks) (Function.update (Function.update a r (a r')) r' (a r))
    else a

theorem semi_spec (hk : Heap key a k (size ks)) (h : Row key a ks) :
    Row key (semi key k ks a) (k :: ks) ∧ Moved 0 (size (k :: ks)) a (semi key k ks a) := by
  cases ks with
  | nil => exact ⟨h.cons hk nofun, Moved.refl ..⟩
  | cons k' ks =>
    have hR := root_lt k (k' :: ks)
    have hlt := root_lt k' ks
    have hRs := root_succ k (size (k' :: ks))
    have hpos := leo_pos k
    have hsize : size (k :: k' :: ks) = size (k' :: ks) + leo k := rfl
    have hsize' : size (k' :: ks) = size ks + leo k' := rfl
    rw [semi]
    split
    · next hle =>
      have hkeep : ∀ i, i ≠ root k (size (k' :: ks)) → i ≠ root k' (size ks) →
          Function.update (Function.update a (root k (size (k' :: ks))) (a (root k' (size ks))))
            (root k' (size ks)) (a (root k (size (k' :: ks)))) i = a i := by
        intro i hi hi'
        rw [Function.update_of_ne hi', Function.update_of_ne hi]
      have hRr' := root_succ k' (size ks)
      obtain ⟨hrow, hm⟩ := settle_spec (a (root k (size (k' :: ks))))
        (h.forest.1.kids.congr fun i _ hi => hkeep i (by omega) (by omega))
        (h.tail.congr fun i hi => hkeep i (by omega) (by have := leo_pos k'; omega))
      rw [Function.update_idem] at hm
      refine h.settle_left hk.kids hle (fun m hm => ?_) hrow hm |>.imp_right fun hm' => ?_
      · subst hm
        exact le_trans hk.pick_le hle
      · rwa [Function.update_eq_self] at hm'
    · next hlt' =>
      refine ⟨h.cons hk fun _ _ he => ?_, Moved.refl ..⟩
      obtain ⟨rfl, rfl⟩ := List.cons.inj he
      exact le_of_lt (not_le.mp hlt')

end Rows

section Building
variable {α β : Type} [LinearOrder β] (key : α → β)

/-- The roots of the trees that will not become part of a greater one, of `n`
elements, are in order. -/
def Settled (n : Nat) (a : Nat → α) : List Nat → Prop
  | k :: k' :: ks => (n ≤ size (k :: k' :: ks) + leo (k - 1) →
      key (a (root k' (size ks))) ≤ key (a (root k (size (k' :: ks))))) ∧ Settled n a (k' :: ks)
  | _ => True

/-- The trees on the way to a row of `n` elements; the root of the last one is
still to sink. -/
structure Begun (n : Nat) (a : Nat → α) (k : Nat) (ks : List Nat) : Prop where
  kids : Kids key a k (size ks)
  forest : Forest key a ks
  settled : Settled key n a ks

variable {key} {n : Nat} {a b F : Nat → α} {k k' s : Nat} {ks : List Nat} {t : α}

theorem Settled.congr (h : Settled key n a ks) (hb : ∀ i, i < size ks → b i = a i) :
    Settled key n b ks := by
  induction ks with
  | nil => trivial
  | cons k ks ih =>
    cases ks with
    | nil => trivial
    | cons k' ks =>
      have hk := root_lt k (k' :: ks)
      have hk' := root_lt k' ks
      have hlt : size (k' :: ks) ≤ size (k :: k' :: ks) := Nat.le_add_right ..
      refine ⟨fun hn => ?_, ih h.2 fun i hi => hb i (by omega)⟩
      rw [hb _ (by omega), hb _ hk]
      exact h.1 hn

theorem Rising.settled (h : Rising key a ks) (n : Nat) : Settled key n a ks := by
  induction ks with
  | nil => trivial
  | cons k ks ih =>
    cases ks with
    | nil => trivial
    | cons k' ks => exact ⟨fun _ => h.1, ih h.2⟩

/-- When a tree stays, those before it do. -/
theorem Settled.rising (h : Settled key n a (k :: ks)) (hk : 0 < k)
    (hgap : (k :: ks).Pairwise fun i j => i + 2 ≤ j) (hn : n ≤ size (k :: ks) + leo (k - 1)) :
    Rising key a (k :: ks) := by
  induction ks generalizing k with
  | nil => trivial
  | cons k' ks ih =>
    have hkk' := (List.pairwise_cons.mp hgap).1 k' List.mem_cons_self
    obtain ⟨m, rfl⟩ : ∃ m, k = m + 1 := ⟨k - 1, by omega⟩
    have hleo : leo (m + 2) ≤ leo (k' - 1) := leo_mono (by omega)
    have hsize : size ((m + 1) :: k' :: ks) = size (k' :: ks) + leo (m + 1) := rfl
    rw [leo] at hleo
    rw [Nat.add_sub_cancel] at hn
    exact ⟨h.1 hn, ih h.2 (by omega) (List.pairwise_cons.mp hgap).2 (by omega)⟩

theorem Begun.start (n : Nat) (a : Nat → α) : Begun key n a 1 [] := ⟨trivial, trivial, trivial⟩

/-- The next element becomes the root of the last two trees. -/
theorem Begun.join (h : Begun key n a k ((k + 1) :: ks)) :
    Begun key n (sink key t k (size ((k + 1) :: ks)) a) (k + 2) ks := by
  obtain ⟨hheap, hm⟩ := sink_spec t h.kids
  have hkeep : ∀ i, i < size ((k + 1) :: ks) → sink key t k (size ((k + 1) :: ks)) a i = a i := by
    intro i hi
    have := root_succ k (size ((k + 1) :: ks))
    have := leo_pos k
    rw [hm.out (Or.inl hi), Function.update_of_ne (by omega)]
  have hsize : size ((k + 1) :: ks) = size ks + leo (k + 1) := rfl
  refine ⟨⟨?_, ?_⟩, ?_, ?_⟩
  · exact h.forest.1.congr fun i _ hi => hkeep i hi
  · rwa [← hsize]
  · exact h.forest.2.congr fun i hi => hkeep i (by omega)
  · apply Settled.congr (a := a) _ fun i hi => hkeep i (by omega)
    have := h.settled
    cases ks with
    | nil => trivial
    | cons k' ks => exact this.2

/-- The next element is a tree by itself, and the last tree will be part of a
greater one. -/
theorem Begun.part (h : Begun key n a k ks) (hj : j < 2) (hn : size (k :: ks) + leo (k - 1) < n) :
    Begun key n (sink key t k (size ks) a) j (k :: ks) := by
  obtain ⟨hheap, hm⟩ := sink_spec t h.kids
  have hkeep : ∀ i, i < size ks → sink key t k (size ks) a i = a i := by
    intro i hi
    have := root_succ k (size ks)
    have := leo_pos k
    rw [hm.out (Or.inl hi), Function.update_of_ne (by omega)]
  refine ⟨?_, ⟨hheap, h.forest.congr hkeep⟩, ?_⟩
  · obtain rfl | rfl : j = 0 ∨ j = 1 := by omega
    · trivial
    · trivial
  · have hold := h.settled.congr hkeep
    cases ks with
    | nil => trivial
    | cons k' ks => exact ⟨fun hle => absurd hn (Nat.not_lt.mpr hle), hold⟩

/-- When the tree before the last one stays, those before it do. -/
theorem Begun.row (h : Begun key n a k ks) (hgap : ks.Pairwise fun i j => i + 2 ≤ j)
    (hpos : ∀ j ∈ ks, 0 < j) (hn : ∀ k' ks', ks = k' :: ks' → n ≤ size ks + leo (k' - 1)) :
    Row key a ks := by
  refine ⟨h.forest, ?_⟩
  cases ks with
  | nil => trivial
  | cons k' ks =>
    exact h.settled.rising (hpos k' List.mem_cons_self) hgap (hn k' ks rfl)

theorem Begun.stay (h : Begun key n a k ks) (hj : j < 2) (hrow : Row key a ks) :
    Begun key n (settle key t (k :: ks) a) j (k :: ks) := by
  obtain ⟨hrow', -⟩ := settle_spec t h.kids hrow
  refine ⟨?_, hrow'.forest, hrow'.rising.settled n⟩
  obtain rfl | rfl : j = 0 ∨ j = 1 := by omega
  · trivial
  · trivial

end Building

section Taking
variable {α β : Type} [LinearOrder β] (key : α → β)

/-- A row is in front of what was taken from it, in order. -/
structure Taken (n : Nat) (a : Nat → α) (ks : List Nat) : Prop where
  row : Row key a ks
  le : size ks ≤ n
  taken : ∀ i j, size ks ≤ j → j < n → i < j → key (a i) ≤ key (a j)

variable {key} {n : Nat} {a : Nat → α} {k : Nat} {ks : List Nat}

theorem Row.taken (h : Row key a ks) : Taken key (size ks) a ks :=
  ⟨h, Nat.le_refl _, fun _ _ hj hlt _ => absurd hlt (Nat.not_lt.mpr hj)⟩

/-- The last element is taken, which is a tree by itself. -/
theorem Taken.drop (h : Taken key n a (k :: ks)) (hk : k < 2) : Taken key n a ks := by
  have hleo := leo_one hk
  have hle := h.le
  have hsize : size (k :: ks) = size ks + leo k := rfl
  refine ⟨h.row.tail, by omega, fun i j hj hlt hij => ?_⟩
  by_cases hjs : j = root k (size ks)
  · subst hjs
    exact h.row.max i (by have := root_lt k ks; omega)
  · have := root_succ k (size ks)
    exact h.taken i j (by omega) hlt hij

/-- The last element is taken, and the two trees under it are put in order with
those before. -/
theorem Taken.split (h : Taken key n a ((k + 2) :: ks)) :
    Taken key n (semi key k ((k + 1) :: ks) (semi key (k + 1) ks a)) (k :: (k + 1) :: ks) ∧
      Moved 0 n a (semi key k ((k + 1) :: ks) (semi key (k + 1) ks a)) := by
  obtain ⟨hleft, hright, -, -⟩ := h.row.forest.1
  obtain ⟨hrow₁, hm₁⟩ := semi_spec hleft h.row.tail
  have hsize : size ((k + 1) :: ks) = size ks + leo (k + 1) := rfl
  obtain ⟨hrow₂, hm₂⟩ := semi_spec (k := k)
    (hright.congr fun i hi _ => hm₁.out (Or.inr hi)) hrow₁
  have hsize₂ : size (k :: (k + 1) :: ks) = size ((k + 1) :: ks) + leo k := rfl
  have hroot := root_add_two k (size ks)
  have hall := (hm₁.mono (Nat.le_refl 0) (Nat.le_add_right _ (leo k))).trans hm₂
  have hle := h.le
  have hlt := root_lt (k + 2) ks
  have hsucc := root_succ (k + 2) (size ks)
  have hbig : size ((k + 2) :: ks) = size ks + leo (k + 2) := rfl
  refine ⟨⟨hrow₂, by omega, fun i j hj hjn hij => ?_⟩, hall.mono (Nat.le_refl 0) (by omega)⟩
  have hold : ∀ m, m < j → key (a m) ≤ key (a j) := by
    intro m hm
    by_cases hjr : j = root (k + 2) (size ks)
    · rw [hjr]
      exact h.row.max m (by omega)
    · exact h.taken m j (by omega) hjn hm
  rw [hall.out (Or.inr hj)]
  by_cases hi : i < size (k :: (k + 1) :: ks)
  · exact hall.forall (P := fun x => key x ≤ key (a j)) (fun m _ hm => hold m (by omega)) i
      (Nat.zero_le i) hi
  · rw [hall.out (Or.inr (by omega))]
    exact hold i hij

end Taking

end Oin17.Leonardo
