import Oin17.Lib.Run
import Oin17.Tpool.Calls

namespace Oin17.Tpool
open Dialogue Links Function Run

section Steps
variable {npools : UInt64} {s s' : Vars × Flags} {c : Call} {l : Nat → List Nat}

theorem Call.keeps_sound (h : Sound npools.toNat s.1 s.2 l) (c : Call) :
    (c.code npools).Sat world True s.1 s.2 fun _ s' e' => ∃ l', Sound npools.toNat s' e' l' := by
  cases c with
  | start max func arg =>
    apply ((sat_tpoolStart h max func arg).weaken fun _ => trivial).mono
    rintro r s' e' (⟨-, rfl, rfl, -⟩ | ⟨p, -, -, -, l', hs'⟩)
    · exact ⟨l, h⟩
    · exact ⟨l', hs'.sound⟩
  | stop id =>
    apply ((sat_tpoolStop h id).weaken False.elim).mono
    rintro r s' e' (⟨-, rfl, rfl, -⟩ | ⟨-, -, -, l', hs'⟩)
    · exact ⟨l, h⟩
    · exact ⟨l', hs'.sound⟩

/-- A call that returns keeps the lists sound. -/
theorem step_sound (h : Sound npools.toNat s.1 s.2 l) (hs : step npools s c = some s') :
    ∃ l', Sound npools.toNat s'.1 s'.2 l' := by
  obtain ⟨⟨r, s', e'⟩, hrun, rfl⟩ := Option.map_eq_some_iff.mp hs
  exact Prog.Sat.atomic (c.keeps_sound h) hrun

theorem run_sound (h : exec (step npools) init cs = some s) :
    ∃ l, Sound npools.toNat s.1 s.2 l := by
  apply exec_inv (fun s => ∃ l, Sound npools.toNat s.1 s.2 l) (fun _ => True) ?_
    ⟨_, init_sound npools.toNat⟩ (fun _ _ => trivial) h
  rintro s c s' ⟨l, hl⟩ - hs
  exact step_sound hl hs

end Steps

section Threads
variable {n : Nat} {s : Vars} {e : Flags} {l : Nat → List Nat}

/-- No thread is lost or given to two pools. -/
theorem Sound.partition (h : Sound n s e l) : (List.range n).Perm ((List.range n).flatMap l ++
    (List.range n).filter fun t => !e.running t && !e.canrun t) := by
  have hidle : ∀ t, (!e.running t && !e.canrun t) = true ↔ e.running t = false := by
    intro t
    rw [h.flags t]
    simp
  have hlisted : ∀ t, t ∈ (List.range n).flatMap l ↔ e.running t = true := by
    intro t
    rw [List.mem_flatMap]
    constructor
    · rintro ⟨p, -, ht⟩
      exact ((h.mem p t).mp ht).1
    · intro ht
      obtain ⟨p, hp, hm⟩ := h.listed ht
      exact ⟨p, List.mem_range.mpr hp, hm⟩
  have hnodup : ((List.range n).flatMap l).Nodup := by
    refine List.nodup_flatMap.mpr ⟨fun p _ => (h.chain p).nodup, ?_⟩
    refine List.nodup_range.imp fun {p q} hne => ?_
    exact List.disjoint_left.mpr fun t hp hq => hne (h.disjoint hp hq)
  refine (List.perm_ext_iff_of_nodup List.nodup_range ?_).mpr fun t => ?_
  · refine List.Nodup.append hnodup (List.nodup_range.filter _) ?_
    refine List.disjoint_left.mpr fun t ht hf => ?_
    have := (hidle t).mp (List.mem_filter.mp hf).2
    rw [(hlisted t).mp ht] at this
    cases this
  · rw [List.mem_append, hlisted, List.mem_filter, hidle, List.mem_range]
    constructor
    · intro ht
      cases hrun : e.running t with
      | true => exact Or.inl rfl
      | false => exact Or.inr ⟨ht, rfl⟩
    · rintro (hrun | ⟨ht, -⟩)
      · exact (h.owned t hrun).1
      · exact ht

end Threads

/-- After any calls, each pool lists its threads, and each thread is in the list of the
pool it runs for or idle. -/
theorem lists_partition (npools : UInt64) (cs : List Call) (s : Vars) (e : Flags)
    (h : exec (step npools) init cs = some (s, e)) : ∃ l : Nat → List Nat,
      (∀ p < npools.toNat, Chain s.next (s.pools p).threads (l p) ∧ (l p).Nodup ∧
        (l p).length = (s.pools p).nthreads ∧ (s.pools p).nthreads ≤ (s.pools p).max) ∧
      (∀ p < npools.toNat, ∀ q < npools.toNat, p ≠ q → (l p).Disjoint (l q)) ∧
      (∀ p < npools.toNat, ∀ t, t ∈ l p ↔
        e.running t = true ∧ e.canrun t = true ∧ s.pool t = some p) ∧
      (List.range npools.toNat).Perm ((List.range npools.toNat).flatMap l ++
        (List.range npools.toNat).filter fun t => !e.running t && !e.canrun t) := by
  obtain ⟨l, hl⟩ := run_sound h
  refine ⟨l, fun p _ => ⟨hl.chain p, (hl.chain p).nodup, hl.length p, hl.most p⟩,
    fun p _ q _ hne => ?_, fun p _ t => ?_, hl.partition⟩
  · exact List.disjoint_left.mpr fun t hp hq => hne (hl.disjoint hp hq)
  · rw [hl.mem, hl.flags]
    exact ⟨fun ht => ⟨ht.1, ht.1, ht.2⟩, fun ht => ⟨ht.1, ht.2.2⟩⟩

/-- A thread that another pool is given when its own is stopped. -/
theorem lists_after_stop : ∃ s e l, exec (step 2) init [.start 1 0 0, .start 2 0 0, .stop 0] =
    some (s, e) ∧ (List.range 2).Perm ((List.range 2).flatMap l ++
      (List.range 2).filter fun t => !e.running t && !e.canrun t) := by
  obtain ⟨⟨s, e⟩, h⟩ : ∃ s, exec (step 2) init [.start 1 0 0, .start 2 0 0, .stop 0] = some s :=
    ⟨_, rfl⟩
  obtain ⟨l, -, -, -, hl⟩ := lists_partition 2 _ s e h
  exact ⟨s, e, l, h, hl⟩

end Oin17.Tpool
