import Mathlib.Logic.Function.Basic
import Mathlib.Data.List.TakeWhile
import Mathlib.Tactic.Basic

namespace Oin17.Memory

section Words
variable {α : Type} [Inhabited α] {n : Nat}

/-- Reading a fixed array. An index past its end reads a default. -/
def rd (p : Vector α n) (i : Nat) : α := p[i]?.getD default

/-- Writing a fixed array. An index past its end writes nothing. -/
def wr (p : Vector α n) (i : Nat) (v : α) : Vector α n := p.setIfInBounds i v

theorem rd_wr_self (p : Vector α n) {i : Nat} (v : α) (hi : i < n) : rd (wr p i v) i = v := by
  simp [rd, wr, hi]

theorem rd_wr_ne (p : Vector α n) {i j : Nat} (v : α) (h : i ≠ j) :
    rd (wr p i v) j = rd p j := by
  simp [rd, wr, Vector.getElem?_setIfInBounds_ne h]

end Words

section Cells
variable {α : Type} {a : Nat → α} {n i : Nat}

/-- Reading an array of `n` cells, which has no result outside of it. -/
def peek (n : Nat) (a : Nat → α) (i : Nat) : Option α := if i < n then some (a i) else none

def poke (n : Nat) (a : Nat → α) (i : Nat) (v : α) : Option (Nat → α) :=
  if i < n then some (Function.update a i v) else none

@[simp] theorem peek_some (h : i < n) : peek n a i = some (a i) := if_pos h

@[simp] theorem peek_none (h : n ≤ i) : peek n a i = none := if_neg (not_lt.mpr h)

@[simp] theorem poke_some (h : i < n) (v : α) : poke n a i v = some (Function.update a i v) :=
  if_pos h

theorem peek_eq_some {v : α} : peek n a i = some v ↔ i < n ∧ a i = v := by
  unfold peek
  split <;> simp [*]

theorem poke_eq_some {v : α} {b : Nat → α} :
    poke n a i v = some b ↔ i < n ∧ Function.update a i v = b := by
  unfold poke
  split <;> simp [*]

end Cells

/-- Byte memory. -/
abbrev Buf := Nat → UInt8

/-- The `n` bytes from `o` on. -/
def load (b : Buf) (o n : Nat) : List UInt8 := (List.range n).map fun i => b (o + i)

/-- The same in an array of `m` bytes, which has no result outside of it. -/
def loadIn (m : Nat) (b : Buf) (o n : Nat) : Option (List UInt8) :=
  if o + n ≤ m then some (load b o n) else none

/-- Copying bytes to `o`. -/
def store (b : Buf) (o : Nat) (bs : List UInt8) : Buf := fun i =>
  if o ≤ i ∧ i < o + bs.length then bs.getD (i - o) 0 else b i

/-- The characters of a string literal. -/
def bytes (s : String) : List UInt8 := s.toList.map fun c => UInt8.ofNat c.toNat

/-- The string in a buffer of `n` bytes. -/
def cstr (b : Buf) (n : Nat) : List UInt8 := (load b 0 n).takeWhile (· ≠ 0)

@[simp] theorem load_length (b : Buf) (o n : Nat) : (load b o n).length = n := by
  simp [load]

@[simp] theorem load_zero (b : Buf) (o : Nat) : load b o 0 = [] := rfl

theorem load_succ (b : Buf) (o n : Nat) : load b o (n + 1) = load b o n ++ [b (o + n)] := by
  simp [load, List.range_succ]

theorem load_cons (b : Buf) (o n : Nat) : load b o (n + 1) = b o :: load b (o + 1) n := by
  simp [load, List.range_succ_eq_map, Function.comp_def, Nat.add_assoc, Nat.add_comm 1]

theorem load_add (b : Buf) (o n m : Nat) :
    load b o (n + m) = load b o n ++ load b (o + n) m := by
  simp [load, List.range_add, Nat.add_assoc, Function.comp_def]

theorem load_getElem (b : Buf) (o n i : Nat) (h : i < (load b o n).length) :
    (load b o n)[i] = b (o + i) := by
  simp [load]

/-- A load only depends on the bytes it covers. -/
theorem load_congr {b c : Buf} {o n : Nat} (h : ∀ i, o ≤ i → i < o + n → b i = c i) :
    load b o n = load c o n := by
  apply List.map_congr_left
  intro i hi
  have := List.mem_range.mp hi
  exact h _ (by omega) (by omega)

theorem store_in (b : Buf) (bs : List UInt8) {o i : Nat} (h : i < bs.length) :
    store b o bs (o + i) = bs[i] := by
  simp [store, h]

theorem store_out (b : Buf) (bs : List UInt8) {o i : Nat} (h : i < o ∨ o + bs.length ≤ i) :
    store b o bs i = b i := by
  unfold store
  split
  · omega
  · rfl

theorem store_nil (b : Buf) (o : Nat) : store b o [] = b := by
  funext i
  exact store_out b [] (by simp; omega)

/-- Writing one byte and then the rest right behind it. -/
theorem store_cons (b : Buf) (o : Nat) (a : UInt8) (bs : List UInt8) :
    store (Function.update b o a) (o + 1) bs = store b o (a :: bs) := by
  funext i
  by_cases hin : o < i ∧ i < o + 1 + bs.length
  · obtain ⟨k, rfl⟩ : ∃ k, i = o + 1 + k := ⟨i - (o + 1), by omega⟩
    rw [store_in _ bs (by omega), Nat.add_assoc o 1 k, Nat.add_comm 1 k]
    rw [store_in b (a :: bs) (by simp; omega)]
    rfl
  · rw [store_out _ bs (by omega)]
    by_cases ho : i = o
    · subst ho
      rw [Function.update_self]
      exact (store_in b (a :: bs) (o := i) (i := 0) (by simp)).symm
    · rw [Function.update_of_ne ho, store_out b (a :: bs) (by simp; omega)]

theorem store_append (b : Buf) (o : Nat) (xs ys : List UInt8) :
    store b o (xs ++ ys) = store (store b o xs) (o + xs.length) ys := by
  induction xs generalizing b o with
  | nil => simp [store_nil]
  | cons x xs ih =>
    rw [List.cons_append, ← store_cons, ih, store_cons, List.length_cons]
    congr 1
    omega

theorem load_store (b : Buf) (o : Nat) (bs : List UInt8) :
    load (store b o bs) o bs.length = bs := by
  apply List.ext_getElem (by simp)
  intro i hi hj
  rw [load_getElem, store_in b bs hj]

/-- The string `h` at `o`, with its NUL. What follows the NUL is arbitrary. -/
def Holds (b : Buf) (o : Nat) (h : List UInt8) : Prop :=
  load b o h.length = h ∧ b (o + h.length) = 0

theorem Holds.head (h : Holds b o (c :: t)) : b o = c := by
  have := h.1
  rw [List.length_cons, load_cons] at this
  exact (List.cons.inj this).1

theorem Holds.tail (h : Holds b o (c :: t)) : Holds b (o + 1) t := by
  obtain ⟨hl, hz⟩ := h
  rw [List.length_cons, load_cons] at hl
  rw [List.length_cons, Nat.add_comm t.length 1, ← Nat.add_assoc] at hz
  exact ⟨(List.cons.inj hl).2, hz⟩

/-- A loop along a string, with fuel to reach its NUL: what it does at the NUL, and at a
character when the rest is done. -/
theorem Holds.scan {P : Nat → List UInt8 → Nat → Prop}
    (hnul : ∀ o fuel, b o = 0 → P o [] (fuel + 1))
    (hchar : ∀ o c t fuel, b o = c → c ≠ 0 → P (o + 1) t fuel → P o (c :: t) (fuel + 1))
    (hs : Holds b o s) (h0 : 0 ∉ s) (hf : s.length < fuel) : P o s fuel := by
  induction s generalizing o fuel with
  | nil =>
    obtain ⟨fuel, rfl⟩ := Nat.exists_eq_succ_of_ne_zero (Nat.ne_zero_of_lt hf)
    exact hnul o fuel hs.2
  | cons c t ih =>
    obtain ⟨fuel, rfl⟩ := Nat.exists_eq_succ_of_ne_zero (Nat.ne_zero_of_lt hf)
    have hrest := ih hs.tail (List.not_mem_of_not_mem_cons h0) (Nat.lt_of_succ_lt_succ hf)
    exact hchar o c t fuel hs.head (List.ne_of_not_mem_cons h0).symm hrest

/-- A string from one of its characters on. -/
theorem Holds.drop (h : Holds b o s) (hk : k ≤ s.length) : Holds b (o + k) (s.drop k) := by
  induction k generalizing o s with
  | zero => exact h
  | succ k ih =>
    cases s with
    | nil => cases hk
    | cons c t =>
      rw [Nat.add_comm k 1, ← Nat.add_assoc, Nat.add_comm 1 k, List.drop_succ_cons]
      exact ih h.tail (Nat.le_of_succ_le_succ hk)

theorem Holds.cstr (h : Holds b 0 s) (hs : 0 ∉ s) (hl : s.length < n) : cstr b n = s := by
  obtain ⟨k, rfl⟩ := Nat.exists_eq_add_of_lt hl
  have hz : b s.length = 0 := by
    rw [← h.2, Nat.zero_add]
  have hall : ∀ x ∈ s, decide (x ≠ 0) = true := by
    intro x hx
    exact decide_eq_true fun he => hs (he ▸ hx)
  rw [Memory.cstr, Nat.add_assoc, load_add, h.1, List.takeWhile_append_of_pos hall, load_cons,
    Nat.zero_add, hz]
  simp

theorem holds_store (b : Buf) (s : List UInt8) : Holds (store b 0 (s ++ [0])) 0 s := by
  have hload : load (store b 0 (s ++ [0])) 0 (s ++ [0]).length = s ++ [0] :=
    load_store b 0 (s ++ [0])
  rw [List.length_append, List.length_singleton, load_succ] at hload
  obtain ⟨hs, hz⟩ := List.append_inj hload (by simp)
  exact ⟨hs, List.singleton_inj.mp hz⟩

theorem cstr_no_nul (b : Buf) (n : Nat) : 0 ∉ cstr b n := by
  intro h
  have := List.mem_takeWhile_imp h
  simp at this

/-- Bytes clear of a store keep their value. -/
theorem load_store_out (b : Buf) (bs : List UInt8) {o p n : Nat}
    (h : p + n ≤ o ∨ o + bs.length ≤ p) : load (store b o bs) p n = load b p n :=
  load_congr fun i hl hu => store_out b bs (by omega)

/-- A store appends to the bytes before it. -/
theorem load_store_append (b : Buf) (o : Nat) (bs : List UInt8) :
    load (store b o bs) 0 (o + bs.length) = load b 0 o ++ bs := by
  rw [load_add, load_store_out b bs (by omega), Nat.zero_add, load_store]

end Oin17.Memory
