import Mathlib.Data.List.Basic
import Mathlib.Data.List.Forall2

namespace Oin17.Fragments

/-- A fragment, and how much of its message is still to come. -/
abbrev Frag (α : Type) := List α × Nat

/-- The fragments of one message, in order. -/
inductive Frags {α : Type} : List (Frag α) → List α → Prop where
  | last (buf : List α) : Frags [(buf, 0)] buf
  | more (h : Frags fs rest) (hne : rest ≠ []) : Frags ((buf, rest.length) :: fs) (buf ++ rest)

section
variable {α : Type} {fs seen : List (Frag α)} {fss : List (List (Frag α))}

/-- Taking in a fragment: the messages completed, and what there is of the next one. -/
def feed (a : List (List α) × List α) (f : Frag α) : List (List α) × List α :=
  if f.2 = 0 then (a.1 ++ [a.2 ++ f.1], []) else (a.1, a.2 ++ f.1)

def assemble (seen : List (Frag α)) : List (List α) × List α := seen.foldl feed ([], [])

/-- How many messages end in a list of fragments. -/
def complete (seen : List (Frag α)) : Nat := seen.countP fun f => f.2 = 0

theorem assemble_snoc (seen : List (Frag α)) (f : Frag α) :
    assemble (seen ++ [f]) = feed (assemble seen) f := by
  rw [assemble, List.foldl_append]
  rfl

theorem Frags.whole (h : Frags fs m) (d : List (List α)) (cur : List α) :
    fs.foldl feed (d, cur) = (d ++ [cur ++ m], []) ∧ complete fs = 1 := by
  induction h generalizing cur with
  | last buf => exact ⟨rfl, rfl⟩
  | @more fs rest buf h hne ih =>
    have hr : rest.length ≠ 0 := fun he => hne (List.eq_nil_of_length_eq_zero he)
    obtain ⟨hfold, hcount⟩ := ih (cur ++ buf)
    rw [List.foldl_cons, feed, if_neg hr, hfold, List.append_assoc]
    refine ⟨rfl, ?_⟩
    rw [complete, List.countP_cons_of_neg (by simpa using hne)]
    exact hcount

/-- Fragments before the last one complete nothing, and the sizes add up to
that of the message. -/
theorem Frags.inside (h : Frags fs m) (hp : seen ++ [f] <+: fs) (d : List (List α)) (cur : List α) :
    ∃ bufs, seen.foldl feed (d, cur) = (d, cur ++ bufs) ∧ complete seen = 0 ∧
      bufs.length + f.1.length + f.2 = m.length := by
  induction h generalizing seen cur with
  | last buf =>
    have hlen := hp.length_le
    simp only [List.length_append, List.length_singleton] at hlen
    obtain rfl : seen = [] := List.eq_nil_of_length_eq_zero (by omega)
    obtain ⟨t, ht⟩ := hp
    obtain rfl : f = (buf, 0) := by
      simp only [List.nil_append, List.singleton_append, List.cons.injEq] at ht
      exact ht.1
    exact ⟨[], by simp, rfl, by simp⟩
  | @more fs rest buf h hne ih =>
    have hr : rest.length ≠ 0 := fun he => hne (List.eq_nil_of_length_eq_zero he)
    cases seen with
    | nil =>
      obtain ⟨t, ht⟩ := hp
      obtain rfl : f = (buf, rest.length) := by
        simp only [List.nil_append, List.singleton_append, List.cons.injEq] at ht
        exact ht.1
      exact ⟨[], by simp, rfl, by simp⟩
    | cons p seen =>
      rw [List.cons_append, List.cons_prefix_cons] at hp
      obtain ⟨rfl, hp⟩ := hp
      obtain ⟨bufs, hfold, hcount, hlen⟩ := ih hp (cur ++ buf)
      refine ⟨buf ++ bufs, ?_, ?_, ?_⟩
      · rw [List.foldl_cons, feed, if_neg hr, hfold, List.append_assoc]
      · rw [complete, List.countP_cons_of_neg (by simpa using hne)]
        exact hcount
      · simp only [List.length_append]
        omega

/-- A prefix of a concatenation stops inside the first list, or goes through it. -/
theorem prefix_cases {xs ys zs : List α} (h : xs <+: ys ++ zs) :
    (∃ a, xs ++ [a] <+: ys) ∨ ∃ t, xs = ys ++ t ∧ t <+: zs := by
  rcases List.prefix_or_prefix_of_prefix h (List.prefix_append ys zs) with ⟨t, rfl⟩ | ⟨t, rfl⟩
  · cases t with
    | nil => exact Or.inr ⟨[], by simp, List.nil_prefix⟩
    | cons a t => exact Or.inl ⟨a, t, by simp⟩
  · exact Or.inr ⟨t, rfl, (List.prefix_append_right_inj ys).mp h⟩

/-- What was taken in of a stream of messages: those that are complete, in
order, and some of the next one. -/
theorem assemble_stream (hf : List.Forall₂ Frags fss msgs) (hp : seen <+: fss.flatten)
    (d : List (List α)) :
    (seen.foldl feed (d, [])).1 = d ++ msgs.take (complete seen) := by
  induction hf generalizing seen d with
  | nil =>
    obtain rfl : seen = [] := by simpa using hp
    simp
  | @cons fs m fss msgs h hf ih =>
    rw [List.flatten_cons] at hp
    rcases prefix_cases hp with ⟨f, hs⟩ | ⟨t, rfl, ht⟩
    · obtain ⟨bufs, hfold, hcount, -⟩ := h.inside hs d []
      rw [hfold, hcount, List.take_zero, List.append_nil]
    · obtain ⟨hwhole, hcount⟩ := h.whole d []
      have hcount' : complete (fs ++ t) = complete t + 1 := by
        rw [complete, List.countP_append, Nat.add_comm]
        exact congrArg _ hcount
      rw [List.foldl_append, hwhole, ih ht, hcount', List.take_succ_cons]
      simp

/-- The next fragment of a stream fits its message. -/
theorem assemble_next (hf : List.Forall₂ Frags fss msgs) (hp : seen ++ [f] <+: fss.flatten)
    (d : List (List α)) :
    ∃ m ∈ msgs, (seen.foldl feed (d, [])).2.length + f.1.length + f.2 = m.length := by
  induction hf generalizing seen d with
  | nil => simp at hp
  | @cons fs m fss msgs h hf ih =>
    rw [List.flatten_cons] at hp
    rcases prefix_cases ((List.prefix_append seen [f]).trans hp) with ⟨g, hs⟩ | ⟨t, rfl, -⟩
    · have hsf : seen ++ [f] <+: fs := by
        refine List.prefix_of_prefix_length_le hp (List.prefix_append fs fss.flatten) ?_
        simpa using hs.length_le
      obtain ⟨bufs, hfold, -, hlen⟩ := h.inside hsf d []
      refine ⟨m, List.mem_cons_self, ?_⟩
      rw [hfold]
      simpa using hlen
    · rw [List.append_assoc, List.prefix_append_right_inj] at hp
      obtain ⟨hwhole, -⟩ := h.whole d []
      obtain ⟨m', hm', hlen⟩ := ih hp (d ++ [[] ++ m])
      refine ⟨m', List.mem_cons_of_mem _ hm', ?_⟩
      rw [List.foldl_append, hwhole]
      exact hlen

end

end Oin17.Fragments
