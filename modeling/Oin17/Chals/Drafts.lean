import Mathlib.Data.Nat.Find
import Oin17.Chals.Fields

namespace Oin17.Chals
open Memory Utils

/-- A string and its NUL, over what was written before. -/
def overlay (u s : List UInt8) : List UInt8 := s ++ 0 :: u.drop (s.length + 1)

/-- What the tokens have written to the key and to the value, from their beginnings on, and the
count of them. -/
structure Drafts where
  d : Nat
  k : List UInt8
  v : List UInt8

/-- `tokcpy`, on what was written to a destination of `n` bytes. -/
def Token.draft (buf : Buf) (u : List UInt8) (n : Nat) (t : Token) : Option (List UInt8) :=
  if t.start ≤ t.stop ∧ t.stop - t.start < n then
    some (overlay u (load buf t.start (t.stop - t.start)))
  else none

def Drafts.take (buf : Buf) (s : Drafts) (t : Token) : Option Drafts :=
  match t.type with
  | .string =>
    if s.d = 0 then (t.draft buf s.k 64).map fun k => { s with k := k, d := 1 }
    else (t.draft buf s.v 256).map fun v => { s with v := v, d := 2 }
  | .primitive => (t.draft buf s.v 256).map fun v => { s with v := v, d := s.d + 1 }
  | _ => some { s with d := 0 }

/-- The string that was written. There is none in a buffer that nothing was copied to. -/
def text (u : List UInt8) : List UInt8 := u.takeWhile (· ≠ 0)

/-- A buffer that held zeros before. -/
def pad (u : List UInt8) : Buf := store (fun _ => 0) 0 u

section Filled
variable {buf : Buf} {n : Nat} {s : Drafts} {t : Token} {u : List UInt8}

/-- A pair, over what the buffers held at first. -/
def fill (k v : Buf) (p : List UInt8 × List UInt8) : Buf × Buf := (store k 0 p.1, store v 0 p.2)

end Filled

section Ended
variable {buf : Buf} {n : Nat} {t : Token} {u u' s : List UInt8}

/-- A NUL is the last that was written, and the string is shorter than the buffer. -/
structure Ended (n : Nat) (u : List UInt8) : Prop where
  last : u.getLast? = some 0
  short : (text u).length < n

theorem text_split (h : 0 ∈ u) : ∃ r, u = text u ++ 0 :: r := by
  induction u with
  | nil => cases h
  | cons x u ih =>
    by_cases hx : x = 0
    · subst hx
      exact ⟨u, rfl⟩
    · obtain ⟨r, hr⟩ := ih ((List.mem_cons.mp h).resolve_left (Ne.symm hx))
      refine ⟨r, ?_⟩
      rw [text, List.takeWhile_cons_of_pos (by simp [hx]), List.cons_append]
      exact congrArg (x :: ·) hr

theorem zero_not_mem_text (u : List UInt8) : 0 ∉ text u := by
  intro h
  have hne := List.mem_takeWhile_imp h
  simp at hne

theorem text_length (s r : List UInt8) : (text (s ++ 0 :: r)).length ≤ s.length := by
  induction s with
  | nil => exact Nat.le_refl 0
  | cons x s ih =>
    rw [List.cons_append, text, List.takeWhile_cons]
    split
    · exact Nat.succ_le_succ ih
    · exact Nat.zero_le _

theorem holds_split (b : Buf) (s r : List UInt8) : Holds (store b 0 (s ++ 0 :: r)) 0 s := by
  constructor
  · rw [store_append, load_store_out _ _ (by omega)]
    exact load_store b 0 s
  · rw [store_in b (s ++ 0 :: r) (by simp)]
    simp

/-- The string in a buffer is the one that was written. -/
theorem Ended.cstr (h : Ended n u) (b : Buf) : cstr (store b 0 u) n = text u := by
  obtain ⟨r, hr⟩ := text_split (List.mem_of_getLast? h.last)
  have hholds : Holds (store b 0 u) 0 (text u) := by
    have hsplit := holds_split b (text u) r
    rwa [← hr] at hsplit
  exact hholds.cstr (zero_not_mem_text u) h.short

theorem overlay_ended (hu : u = [] ∨ Ended n u) (hs : s.length < n) : Ended n (overlay u s) := by
  refine ⟨?_, Nat.lt_of_le_of_lt (text_length s _) hs⟩
  rw [overlay, List.getLast?_append, List.getLast?_cons, List.getLast?_drop]
  split
  · rfl
  · next hlen =>
    rcases hu with rfl | hu
    · exact absurd (Nat.zero_le _) hlen
    · rw [hu.last]
      rfl

theorem Token.draft_ended (hu : u = [] ∨ Ended n u) (h : t.draft buf u n = some u') :
    Ended n u' := by
  unfold draft at h
  split at h
  · next hn =>
    obtain rfl := Option.some.inj h
    exact overlay_ended hu (by rw [load_length]; exact hn.2)
  · cases h

/-- Strings were written to what was written to at all. -/
structure Drafts.Sound (s : Drafts) : Prop where
  key : s.k = [] ∨ Ended 64 s.k
  val : s.v = [] ∨ Ended 256 s.v

structure Spelled (p : List UInt8 × List UInt8) : Prop where
  key : p.1 = [] ∨ Ended 64 p.1
  val : Ended 256 p.2

theorem Ended.ne_nil (h : Ended n u) : u ≠ [] := by
  intro he
  have hlast := h.last
  rw [he] at hlast
  cases hlast

/-- A token that makes a pair is copied to the value. -/
theorem Drafts.Sound.take {s s' : Drafts} (h : s.Sound) (hd : s.d < 2)
    (ht : s.take buf t = some s') : s'.Sound ∧ (s'.d < 2 ∨ s'.d = 2 ∧ Ended 256 s'.v) ∧
      (s.k ≠ [] → s'.k ≠ []) := by
  unfold Drafts.take at ht
  split at ht
  · split at ht
    · obtain ⟨k, hk, rfl⟩ := Option.map_eq_some_iff.mp ht
      have hended := Token.draft_ended h.key hk
      exact ⟨⟨Or.inr hended, h.val⟩, Or.inl Nat.one_lt_two, fun _ => hended.ne_nil⟩
    · obtain ⟨v, hv, rfl⟩ := Option.map_eq_some_iff.mp ht
      have hended := Token.draft_ended h.val hv
      exact ⟨⟨h.key, Or.inr hended⟩, Or.inr ⟨rfl, hended⟩, id⟩
  · obtain ⟨v, hv, rfl⟩ := Option.map_eq_some_iff.mp ht
    have hended := Token.draft_ended h.val hv
    refine ⟨⟨h.key, Or.inr hended⟩, ?_, id⟩
    dsimp only
    rcases Nat.lt_or_eq_of_le (Nat.le_of_lt_succ hd) with hlt | heq
    · exact Or.inl (by omega)
    · exact Or.inr ⟨by omega, hended⟩
  · obtain rfl := Option.some.inj ht
    exact ⟨⟨h.key, h.val⟩, Or.inl Nat.two_pos, id⟩

end Ended

section Prefixes
variable {v v' str : Buf} {u : List UInt8}

end Prefixes

end Oin17.Chals
