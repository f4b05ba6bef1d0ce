import Mathlib.Data.List.Basic
import Mathlib.Data.List.Nodup

namespace Oin17.Links

variable {ι : Type}

/-- The nodes met from `r` on by following `next` to its end. -/
inductive Chain (next : ι → Option ι) : Option ι → List ι → Prop where
  | nil : Chain next none []
  | cons (h : Chain next (next i) l) : Chain next (some i) (i :: l)

theorem Chain.unique {next : ι → Option ι} (h : Chain next r l) (h' : Chain next r l') :
    l = l' := by
  induction h generalizing l' with
  | nil => cases h'; rfl
  | cons _ ih =>
    cases h' with
    | cons h' => rw [ih h']

theorem Chain.suffix {next : ι → Option ι} (h : Chain next r l) (hi : i ∈ l) :
    ∃ t, Chain next (some i) t ∧ t.length ≤ l.length := by
  induction h with
  | nil => cases hi
  | @cons j l h ih =>
    rcases List.mem_cons.mp hi with rfl | hi
    · exact ⟨i :: l, .cons h, Nat.le_refl _⟩
    · obtain ⟨t, ht, hl⟩ := ih hi
      exact ⟨t, ht, Nat.le_succ_of_le hl⟩

/-- A chain that ends visits no node twice. -/
theorem Chain.nodup {next : ι → Option ι} (h : Chain next r l) : l.Nodup := by
  induction h with
  | nil => exact .nil
  | @cons i l h ih =>
    refine List.nodup_cons.mpr ⟨fun hi => ?_, ih⟩
    obtain ⟨t, ht, hl⟩ := h.suffix hi
    have := (Chain.cons h).unique ht
    subst this
    simp only [List.length_cons] at hl
    omega

theorem Chain.congr {next next' : ι → Option ι} (h : Chain next r l)
    (hn : ∀ i ∈ l, next' i = next i) : Chain next' r l := by
  induction h with
  | nil => exact .nil
  | @cons i l h ih =>
    refine .cons ?_
    rw [hn i (by simp)]
    exact ih fun j hj => hn j (by simp [hj])

theorem Chain.head {next : ι → Option ι} (h : Chain next r l) : r = l.head? := by
  cases h <;> rfl

theorem Chain.tail {next : ι → Option ι} (h : Chain next r (i :: l)) : Chain next (next i) l := by
  cases h with
  | cons h => exact h

theorem Chain.nil_iff {next : ι → Option ι} (h : Chain next r l) : r = none ↔ l = [] := by
  cases h <;> simp

/-- The first `n` nodes from `r` on. -/
def follow (next : ι → Option ι) : Nat → Option ι → List ι
  | 0, _ => []
  | _ + 1, none => []
  | n + 1, some i => i :: follow next n (next i)

theorem Chain.follow {next : ι → Option ι} (h : Chain next r l) (hn : l.length ≤ n) :
    follow next n r = l := by
  induction h generalizing n with
  | nil => cases n <;> rfl
  | @cons i l h ih =>
    cases n with
    | zero => cases hn
    | succ n => rw [Links.follow, ih (Nat.le_of_succ_le_succ hn)]

/-- Hanging a last node `x` onto the last node of a chain. -/
theorem Chain.append [DecidableEq ι] {next : ι → Option ι} (h : Chain next r (l ++ [p]))
    (hx : next x = none) (hne : x ∉ l ++ [p]) :
    Chain (Function.update next p (some x)) r (l ++ [p] ++ [x]) := by
  induction l generalizing r with
  | nil =>
    cases h with
    | cons h =>
      have hxp : x ≠ p := fun he => hne (by simp [he])
      refine .cons ?_
      rw [Function.update_self]
      refine .cons ?_
      rw [Function.update_of_ne hxp, hx]
      exact .nil
  | cons i l ih =>
    have hnd := h.nodup
    cases h with
    | cons h =>
      have hip : i ≠ p := by
        rintro rfl
        simp at hnd
      refine .cons ?_
      rw [Function.update_of_ne hip]
      exact ih h fun hm => hne (List.mem_cons_of_mem _ hm)

/-- A stretch of a doubly linked list: `r` comes before it and `s` after it. -/
def Seg (next prev : ι → Option ι) : Option ι → List ι → Option ι → Prop
  | _, [], _ => True
  | r, a :: l, s => prev a = r ∧ next a = l.head?.or s ∧ Seg next prev (some a) l s

section Doubly
variable {next prev next' prev' : ι → Option ι}

theorem seg_append {r s : Option ι} (l m : List ι) :
    Seg next prev r (l ++ m) s ↔
      Seg next prev r l (m.head?.or s) ∧ Seg next prev (l.getLast?.or r) m s := by
  induction l generalizing r with
  | nil => simp [Seg]
  | cons a l ih =>
    have hlast : (a :: l).getLast?.or r = l.getLast?.or (some a) := by
      cases l <;> simp [List.getLast?_cons]
    simp only [List.cons_append, Seg, ih, hlast, List.head?_append, Option.or_assoc, and_assoc]

/-- Only what comes after the stretch changes. -/
theorem Seg.retarget_end [DecidableEq ι] (h : Seg next prev r l s) (hn : l.Nodup)
    (hp : ∀ a ∈ l, prev' a = prev a)
    (hx : ∀ a ∈ l, next' a = if l.getLast? = some a then t else next a) :
    Seg next' prev' r l t := by
  induction l generalizing r with
  | nil => trivial
  | cons a l ih =>
    obtain ⟨hpa, hna, hl⟩ := h
    have hal := (List.nodup_cons.mp hn).1
    refine ⟨(hp a (by simp)).trans hpa, ?_, ih hl (List.nodup_cons.mp hn).2
      (fun b hb => hp b (by simp [hb])) fun b hb => ?_⟩
    · rw [hx a (by simp)]
      cases l with
      | nil => simp
      | cons b l =>
        have hne : (a :: b :: l).getLast? ≠ some a := by
          rw [List.getLast?_cons_cons]
          exact fun he => hal (List.mem_of_getLast? he)
        rw [if_neg hne, hna]
        simp
    · rw [hx b (by simp [hb])]
      obtain ⟨c, m, rfl⟩ := List.exists_cons_of_ne_nil (List.ne_nil_of_mem hb)
      rw [List.getLast?_cons_cons]

/-- Only what comes before the stretch changes. -/
theorem Seg.retarget_start [DecidableEq ι] (h : Seg next prev r l s) (hn : l.Nodup)
    (hx : ∀ a ∈ l, next' a = next a)
    (hp : ∀ a ∈ l, prev' a = if l.head? = some a then t else prev a) :
    Seg next' prev' t l s := by
  cases l with
  | nil => trivial
  | cons a l =>
    obtain ⟨hpa, hna, hl⟩ := h
    obtain ⟨hal, hnl⟩ := List.nodup_cons.mp hn
    refine ⟨by simp [hp a], (hx a (by simp)).trans hna, hl.retarget_end hnl ?_ ?_⟩
    · intro b hb
      have hne : a ≠ b := fun he => hal (he ▸ hb)
      rw [hp b (by simp [hb]), if_neg (by simpa using hne)]
    · intro b hb
      rw [hx b (by simp [hb])]
      by_cases hlast : l.getLast? = some b
      · obtain ⟨m, hm⟩ := List.getLast?_eq_some_iff.mp hlast
        rw [if_pos hlast]
        rw [hm, seg_append] at hl
        exact hl.2.2.1
      · rw [if_neg hlast]

theorem head_ne_of_nodup {l m : List ι} (hn : (l ++ m).Nodup) (ha : a ∈ l) :
    m.head? ≠ some a :=
  fun he => (List.nodup_append.mp hn).2.2 a ha a (List.mem_of_head? he) rfl

theorem getLast_ne_of_nodup {l m : List ι} (hn : (l ++ m).Nodup) (ha : a ∈ m) :
    l.getLast? ≠ some a :=
  fun he => (List.nodup_append.mp hn).2.2 a (List.mem_of_getLast? he) a ha rfl

/-- Putting `x` between `l` and `m`. -/
theorem Seg.insert [DecidableEq ι] (h : Seg next prev none (l ++ m) none) (hn : (l ++ m).Nodup)
    (hx : x ∉ l ++ m) (hxp : prev' x = l.getLast?) (hxn : next' x = m.head?)
    (hnext : ∀ a, a ≠ x → next' a = if l.getLast? = some a then some x else next a)
    (hprev : ∀ a, a ≠ x → prev' a = if m.head? = some a then some x else prev a) :
    Seg next' prev' none (l ++ x :: m) none := by
  obtain ⟨hsl, hsm⟩ := (seg_append l m).mp h
  obtain ⟨hnl, hnm, -⟩ := List.nodup_append.mp hn
  have hl : ∀ a ∈ l, a ≠ x := fun a ha he => hx (he ▸ List.mem_append_left m ha)
  have hm : ∀ a ∈ m, a ≠ x := fun a ha he => hx (he ▸ List.mem_append_right l ha)
  refine (seg_append l (x :: m)).mpr ⟨?_, by simpa using hxp, by simpa using hxn, ?_⟩
  · refine hsl.retarget_end hnl (fun a ha => ?_) fun a ha => hnext a (hl a ha)
    rw [hprev a (hl a ha), if_neg (head_ne_of_nodup hn ha)]
  · refine hsm.retarget_start hnm (fun a ha => ?_) fun a ha => hprev a (hm a ha)
    rw [hnext a (hm a ha), if_neg (getLast_ne_of_nodup hn ha)]

/-- Taking `x` out from between `l` and `m`. -/
theorem Seg.remove [DecidableEq ι] (h : Seg next prev none (l ++ x :: m) none)
    (hn : (l ++ m).Nodup) (hx : x ∉ l ++ m)
    (hnext : ∀ a, a ≠ x → next' a = if l.getLast? = some a then m.head? else next a)
    (hprev : ∀ a, a ≠ x → prev' a = if m.head? = some a then l.getLast? else prev a) :
    Seg next' prev' none (l ++ m) none := by
  obtain ⟨hsl, -, -, hsm⟩ := (seg_append l (x :: m)).mp h
  obtain ⟨hnl, hnm, -⟩ := List.nodup_append.mp hn
  have hl : ∀ a ∈ l, a ≠ x := fun a ha he => hx (he ▸ List.mem_append_left m ha)
  have hm : ∀ a ∈ m, a ≠ x := fun a ha he => hx (he ▸ List.mem_append_right l ha)
  refine (seg_append l m).mpr ⟨?_, ?_⟩
  · rw [Option.or_none]
    refine hsl.retarget_end hnl (fun a ha => ?_) fun a ha => hnext a (hl a ha)
    rw [hprev a (hl a ha), if_neg (head_ne_of_nodup hn ha)]
  · rw [Option.or_none]
    refine hsm.retarget_start hnm (fun a ha => ?_) fun a ha => hprev a (hm a ha)
    rw [hnext a (hm a ha), if_neg (getLast_ne_of_nodup hn ha)]

end Doubly

end Oin17.Links
