import Oin17.Lib.Loop
import Oin17.Lib.Memory

namespace Oin17.Ca
open Loop Memory

/-- One pass of the counting loop of `pem_expand`, over `i` and `j`. -/
def pemCountBody (pem : Buf) : Nat × Nat → Option (Nat × Nat ⊕ Nat × Nat)
  | (i, j) =>
    if pem i = 0 then some (.inr (i, j))
    else some (.inl (i + 1, if pem i = 10 then j + 1 else j))

structure PemExpand where
  i : Nat
  j : Nat
  p : Buf
  /-- The indices of `p` written so far. -/
  writes : List Nat

/-- One pass of the writing loop. -/
def pemExpandBody (pem : Buf) (s : PemExpand) : Option (PemExpand ⊕ PemExpand) :=
  if pem s.i = 0 then some (.inr s)
  else if pem s.i = 10 then
    let p := Function.update s.p s.j 92
    let j := s.j + 1
    let p := Function.update p j 110
    some (.inl { i := s.i + 1, j := j + 1, p := p, writes := s.writes ++ [s.j, j] })
  else some (.inl
    { i := s.i + 1, j := s.j + 1, p := Function.update s.p s.j (pem s.i),
      writes := s.writes ++ [s.j] })

structure Expanded where
  r : Int
  /-- The caller's string. -/
  pem : Buf
  /-- What `malloc` is asked for. -/
  size : Nat
  writes : List Nat

def pemExpand (fuel : Nat) (malloc : Nat → Option Buf) (pem : Buf) : Option Expanded := do
  let (i, j) ← run (pemCountBody pem) fuel (0, 0)
  match malloc (i + j + 1) with
  | none => return { r := -1, pem := pem, size := i + j + 1, writes := [] }
  | some p =>
    let s ← run (pemExpandBody pem) fuel { i := 0, j := 0, p := p, writes := [] }
    return { r := 0, pem := Function.update s.p s.j 0, size := i + j + 1,
             writes := s.writes ++ [s.j] }

/-- A text whose newlines are written as a backslash and an `n`. -/
def escape (s : List UInt8) : List UInt8 := s.flatMap fun c => if c = 10 then [92, 110] else [c]

def unescape : List UInt8 → List UInt8
  | [] => []
  | [c] => [c]
  | c :: d :: t => if c = 92 ∧ d = 110 then 10 :: unescape t else c :: unescape (d :: t)

@[simp] theorem escape_nil : escape [] = [] := rfl

theorem escape_newline (s : List UInt8) : escape (10 :: s) = 92 :: 110 :: escape s := rfl

theorem escape_cons (h : c ≠ 10) (s : List UInt8) : escape (c :: s) = c :: escape s := by
  rw [escape, List.flatMap_cons, if_neg h]
  rfl

theorem escape_no_newline (s : List UInt8) : 10 ∉ escape s := by
  intro h
  obtain ⟨c, -, hc⟩ := List.mem_flatMap.mp h
  split at hc
  · simp at hc
  · next hne => exact hne (List.mem_singleton.mp hc).symm

theorem escape_no_nul (h0 : 0 ∉ s) : 0 ∉ escape s := by
  intro h
  obtain ⟨c, hs, hc⟩ := List.mem_flatMap.mp h
  split at hc
  · simp at hc
  · exact h0 (List.mem_singleton.mp hc ▸ hs)

/-- One more byte for each newline. -/
theorem escape_length (s : List UInt8) : (escape s).length = s.length + s.count 10 := by
  induction s with
  | nil => rfl
  | cons c s ih =>
    by_cases hc : c = 10
    · subst hc
      rw [escape_newline, List.length_cons, List.length_cons, ih, List.count_cons_self,
        List.length_cons]
      omega
    · rw [escape_cons hc, List.length_cons, ih, List.count_cons_of_ne hc, List.length_cons]
      omega

theorem unescape_cons (h : c ≠ 92) (s : List UInt8) : unescape (c :: s) = c :: unescape s := by
  cases s with
  | nil => rfl
  | cons d t => rw [unescape, if_neg fun hc => h hc.1]

theorem unescape_escape (h : 92 ∉ s) : unescape (escape s) = s := by
  induction s with
  | nil => rfl
  | cons c s ih =>
    have hs := ih (List.not_mem_of_not_mem_cons h)
    by_cases hc : c = 10
    · subst hc
      rw [escape_newline, unescape, if_pos ⟨rfl, rfl⟩, hs]
    · rw [escape_cons hc, unescape_cons (List.ne_of_not_mem_cons h).symm, hs]

theorem pemCountBody_nul (h : pem i = 0) : pemCountBody pem (i, j) = some (.inr (i, j)) :=
  if_pos h

theorem pemCountBody_pass (h : pem i ≠ 0) :
    pemCountBody pem (i, j) = some (.inl (i + 1, if pem i = 10 then j + 1 else j)) :=
  if_neg h

theorem pemCount_run (hs : Holds pem o s) (h0 : 0 ∉ s) (hf : s.length < fuel) (j : Nat) :
    run (pemCountBody pem) fuel (o, j) = some (o + s.length, j + s.count 10) := by
  revert j
  refine Holds.scan (P := fun o s fuel => ∀ j, run (pemCountBody pem) fuel (o, j) =
    some (o + s.length, j + s.count 10)) ?_ ?_ hs h0 hf
  · intro o fuel hz j
    rw [run_leave (pemCountBody_nul hz)]
    rfl
  · rintro o c t fuel rfl hne ih j
    rw [run_pass (pemCountBody_pass hne), ih, List.length_cons, List.count_cons]
    simp only [beq_iff_eq]
    congr 2
    · omega
    · split <;> omega

theorem pemExpandBody_nul (h : pem i = 0) :
    pemExpandBody pem ⟨i, j, p, w⟩ = some (.inr ⟨i, j, p, w⟩) :=
  if_pos h

theorem pemExpandBody_newline (hc : pem i = 10) :
    pemExpandBody pem ⟨i, j, p, w⟩ =
      some (.inl ⟨i + 1, j + 2, store p j [92, 110], w ++ [j, j + 1]⟩) := by
  rw [pemExpandBody, if_neg (by rw [hc]; decide), if_pos hc]
  simp only [← store_cons, store_nil]

theorem pemExpandBody_other (h0 : pem i ≠ 0) (hc : pem i ≠ 10) :
    pemExpandBody pem ⟨i, j, p, w⟩ =
      some (.inl ⟨i + 1, j + 1, store p j [pem i], w ++ [j]⟩) := by
  rw [pemExpandBody, if_neg h0, if_neg hc]
  simp only [← store_cons, store_nil]

/-- The writing loop runs through the block, a byte after the other. -/
theorem pemExpand_run (hs : Holds pem o s) (h0 : 0 ∉ s) (hf : s.length < fuel) (p : Buf)
    (j : Nat) (w : List Nat) : run (pemExpandBody pem) fuel ⟨o, j, p, w⟩ =
      some ⟨o + s.length, j + (escape s).length, store p j (escape s),
        w ++ List.range' j (escape s).length⟩ := by
  revert p j w
  refine Holds.scan (P := fun o s fuel => ∀ p j w, run (pemExpandBody pem) fuel ⟨o, j, p, w⟩ =
    some ⟨o + s.length, j + (escape s).length, store p j (escape s),
      w ++ List.range' j (escape s).length⟩) ?_ ?_ hs h0 hf
  · intro o fuel hz p j w
    rw [run_leave (pemExpandBody_nul hz)]
    simp [store_nil]
  · intro o c t fuel hhead hne ih p j w
    by_cases hc : c = 10
    · subst hc
      have happ : store (store p j [92, 110]) (j + 2) (escape t) =
          store p j (92 :: 110 :: escape t) := (store_append p j [92, 110] (escape t)).symm
      rw [run_pass (pemExpandBody_newline hhead), ih, escape_newline, happ]
      simp only [List.length_cons, List.range'_succ, List.append_assoc, List.cons_append,
        List.nil_append, Option.some.injEq, PemExpand.mk.injEq, and_true]
      omega
    · have happ : store (store p j [c]) (j + 1) (escape t) = store p j (c :: escape t) :=
        (store_append p j [c] (escape t)).symm
      rw [run_pass (pemExpandBody_other (hhead ▸ hne) (hhead ▸ hc)), ih, escape_cons hc, hhead,
        happ]
      simp only [List.length_cons, List.range'_succ, List.append_assoc, List.cons_append,
        List.nil_append, Option.some.injEq, PemExpand.mk.injEq, and_true]
      omega

theorem pemExpand_none (hs : Holds pem 0 s) (h0 : 0 ∉ s) (hf : s.length < fuel)
    (hm : malloc ((escape s).length + 1) = none) : pemExpand fuel malloc pem =
      some { r := -1, pem := pem, size := (escape s).length + 1, writes := [] } := by
  have hcount := pemCount_run hs h0 hf 0
  simp only [Nat.zero_add] at hcount
  rw [escape_length] at hm ⊢
  simp [pemExpand, hcount, hm]

/-- The two loops agree on the length, so the block is filled, each byte once. -/
theorem pemExpand_some (hs : Holds pem 0 s) (h0 : 0 ∉ s) (hf : s.length < fuel)
    (hm : malloc ((escape s).length + 1) = some p) : pemExpand fuel malloc pem =
      some { r := 0, pem := store p 0 (escape s ++ [0]), size := (escape s).length + 1,
             writes := List.range ((escape s).length + 1) } := by
  have hcount := pemCount_run hs h0 hf 0
  have hexpand := pemExpand_run hs h0 hf p 0 []
  simp only [Nat.zero_add, List.nil_append, ← List.range_eq_range'] at hcount hexpand
  have hnul : Function.update (store p 0 (escape s)) (escape s).length 0 =
      store p 0 (escape s ++ [0]) := by
    rw [store_append, ← store_cons, store_nil, Nat.zero_add]
  rw [hnul.symm, List.range_succ]
  rw [escape_length] at hm hexpand ⊢
  simp [pemExpand, hcount, hm, hexpand]

theorem pem_expand_escapes (fuel : Nat) (malloc : Nat → Option Buf) (pem : Buf) (s : List UInt8)
    (hs : Holds pem 0 s) (h0 : 0 ∉ s) (hf : s.length < fuel) :
    ∃ e, pemExpand fuel malloc pem = some e ∧ e.size = (escape s).length + 1 ∧
      (malloc e.size = none → e.r = -1 ∧ e.pem = pem ∧ e.writes = []) ∧
      (∀ p, malloc e.size = some p → e.r = 0 ∧ e.writes = List.range e.size ∧
        Holds e.pem 0 (escape s) ∧ ∀ i, e.size ≤ i → e.pem i = p i) ∧
      0 ∉ escape s ∧ 10 ∉ escape s ∧ (92 ∉ s → unescape (escape s) = s) := by
  cases hm : malloc ((escape s).length + 1) with
  | none =>
    refine ⟨_, pemExpand_none hs h0 hf hm, rfl, fun _ => ⟨rfl, rfl, rfl⟩, ?_,
      escape_no_nul h0, escape_no_newline s, unescape_escape⟩
    intro p hp
    rw [hm] at hp
    cases hp
  | some p =>
    refine ⟨_, pemExpand_some hs h0 hf hm, rfl, ?_, ?_,
      escape_no_nul h0, escape_no_newline s, unescape_escape⟩
    · intro hn
      rw [hm] at hn
      cases hn
    · intro q hq
      obtain rfl := Option.some.inj (hm.symm.trans hq)
      refine ⟨rfl, rfl, holds_store p (escape s), fun i hi => store_out p _ (Or.inr ?_)⟩
      rw [List.length_append, Nat.zero_add]
      exact hi

/-- A newline first, one last, and an allocator that has a block of zeros. -/
theorem pem_expand_escapes_ends :
    ∃ e, pemExpand 4 (fun _ => some fun _ => 0) (fun i => [10, 97, 10].getD i 0) = some e ∧
      e.r = 0 ∧ e.writes = List.range 6 ∧ Holds e.pem 0 [92, 110, 97, 92, 110] := by
  obtain ⟨e, he, hsize, -, hsome, -⟩ := pem_expand_escapes 4 (fun _ => some fun _ => 0)
    (fun i => [10, 97, 10].getD i 0) [10, 97, 10] ⟨by decide, by decide⟩ (by decide) (by decide)
  obtain ⟨hr, hw, hold, -⟩ := hsome _ rfl
  rw [hsize] at hw
  exact ⟨e, he, hr, hw, hold⟩

end Oin17.Ca
