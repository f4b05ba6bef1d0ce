import Oin17.Lib.Links
import Oin17.Tpool.Model

namespace Oin17.Tpool
open Dialogue Links Function

/-- A thread that runs finds its pool, and the work of its pool, as they were. -/
def Keeps (e : Flags) (s s' : Vars) : Prop :=
  ∀ t, e.running t = true → s'.pool t = s.pool t ∧
    ∀ p, s.pool t = some p →
      (s'.pools p).func = (s.pools p).func ∧ (s'.pools p).arg = (s.pools p).arg

def world : World Req Bool Vars Flags where
  answer := Flags.answer
  Keeps := Keeps
  refl _ _ _ _ := ⟨rfl, fun _ _ => ⟨rfl, rfl⟩⟩
  trans h h' t ht := by
    obtain ⟨hp, hw⟩ := h t ht
    obtain ⟨hp', hw'⟩ := h' t ht
    refine ⟨hp'.trans hp, fun p hs => ?_⟩
    obtain ⟨hf, ha⟩ := hw p hs
    obtain ⟨hf', ha'⟩ := hw' p (hp.trans hs)
    exact ⟨hf'.trans hf, ha'.trans ha⟩

/-- The threads of the pools, for `n` threads: `l p` lists those of pool `p`. -/
structure Sound (n : Nat) (s : Vars) (e : Flags) (l : Nat → List Nat) : Prop where
  chain : ∀ p, Chain s.next (s.pools p).threads (l p)
  length : ∀ p, (l p).length = (s.pools p).nthreads
  most : ∀ p, (s.pools p).nthreads ≤ (s.pools p).max
  mem : ∀ p t, t ∈ l p ↔ e.running t = true ∧ s.pool t = some p
  owned : ∀ t, e.running t = true → t < n ∧ ∃ p < n, s.pool t = some p
  flags : ∀ t, e.canrun t = e.running t

theorem init_sound (n : Nat) : Sound n init.1 init.2 fun _ => [] where
  chain _ := .nil
  length _ := rfl
  most _ := Nat.le_refl 0
  mem p t := by simp [init]
  owned t h := by simp [init] at h
  flags _ := rfl

section Threads
variable {n t p : Nat} {s : Vars} {e : Flags} {l : Nat → List Nat}

@[simp] theorem setPool_self (s : Vars) (p : Nat) (f : Pool → Pool) :
    (s.setPool p f).pools p = f (s.pools p) :=
  update_self p _ s.pools
theorem setPool_ne (s : Vars) (f : Pool → Pool) (h : q ≠ p) : (s.setPool p f).pools q = s.pools q :=
  update_of_ne h _ s.pools
@[simp] theorem link_pool (s : Vars) (t p : Nat) : (s.link t p).pool = update s.pool t (some p) := rfl
@[simp] theorem link_next (s : Vars) (t p : Nat) :
    (s.link t p).next = update s.next t (s.pools p).threads := rfl
@[simp] theorem link_pools (s : Vars) (t p : Nat) : (s.link t p).pools = update s.pools p
    { s.pools p with threads := some t, nthreads := (s.pools p).nthreads + 1 } := rfl
@[simp] theorem link_njobs (s : Vars) (t p : Nat) : (s.link t p).njobs = s.njobs := rfl
@[simp] theorem unlink_pool (s : Vars) (t p : Nat) : (s.unlink t p).pool = s.pool := rfl
@[simp] theorem unlink_next (s : Vars) (t p : Nat) : (s.unlink t p).next = s.next := rfl
@[simp] theorem unlink_pools (s : Vars) (t p : Nat) : (s.unlink t p).pools = update s.pools p
    { s.pools p with threads := s.next t, nthreads := (s.pools p).nthreads - 1 } := rfl
@[simp] theorem unlink_njobs (s : Vars) (t p : Nat) : (s.unlink t p).njobs = s.njobs := rfl

theorem Sound.idle (h : Sound n s e l) (ht : e.running t = false) (p : Nat) : t ∉ l p := by
  intro hm
  rw [(h.mem p t).mp hm |>.1] at ht
  cases ht

theorem Sound.listed (h : Sound n s e l) (ht : e.running t = true) : ∃ p < n, t ∈ l p := by
  obtain ⟨-, p, hp, hs⟩ := h.owned t ht
  exact ⟨p, hp, (h.mem p t).mpr ⟨ht, hs⟩⟩

theorem Sound.disjoint (h : Sound n s e l) (hp : t ∈ l p) (hq : t ∈ l q) : p = q := by
  have hs := ((h.mem p t).mp hp).2
  rw [((h.mem q t).mp hq).2] at hs
  exact (Option.some.inj hs).symm

theorem Sound.empty_iff (h : Sound n s e l) (p : Nat) : (s.pools p).threads = none ↔ l p = [] :=
  (h.chain p).nil_iff

theorem Sound.link (h : Sound n s e l) (ht : e.running t = false) (htn : t < n) (hp : p < n)
    (hmax : (s.pools p).nthreads < (s.pools p).max) :
    Sound n (s.link t p) (e.set t true) (update l p (t :: l p)) where
  chain q := by
    have hkeep : ∀ q, Chain (s.link t p).next (s.pools q).threads (l q) := by
      refine fun q => (h.chain q).congr fun i hi => update_of_ne ?_ _ _
      rintro rfl
      exact h.idle ht q hi
    by_cases hq : q = p
    · subst hq
      simp only [link_pools, update_self]
      refine .cons ?_
      rw [link_next, update_self]
      exact hkeep q
    · simp only [link_pools, update_of_ne hq]
      exact hkeep q
  length q := by
    by_cases hq : q = p
    · subst hq
      simp only [link_pools, update_self, List.length_cons, h.length q]
    · simp only [link_pools, update_of_ne hq, h.length q]
  most q := by
    by_cases hq : q = p
    · subst hq
      simp only [link_pools, update_self]
      exact hmax
    · simp only [link_pools, update_of_ne hq, h.most q]
  mem q u := by
    by_cases hu : u = t
    · subst hu
      by_cases hq : q = p
      · subst hq
        simp [Flags.set]
      · have hpq : p ≠ q := fun he => hq he.symm
        simp [Flags.set, update_of_ne hq, h.idle ht q, hpq]
    · have hcons : u ∈ update l p (t :: l p) q ↔ u ∈ l q := by
        by_cases hq : q = p
        · subst hq
          simp [hu]
        · rw [update_of_ne hq]
      rw [hcons, h.mem]
      simp [Flags.set, update_of_ne hu]
  owned u hu := by
    by_cases he : u = t
    · subst he
      exact ⟨htn, p, hp, by simp⟩
    · simp only [Flags.set, update_of_ne he] at hu
      simp only [link_pool, update_of_ne he]
      exact h.owned u hu
  flags u := by
    by_cases hu : u = t
    · subst hu
      simp [Flags.set]
    · simp [Flags.set, update_of_ne hu, h.flags u]

theorem Sound.unlink (h : Sound n s e l) (hl : l p = t :: r) :
    Sound n (s.unlink t p) (e.set t false) (update l p r) where
  chain q := by
    by_cases hq : q = p
    · subst hq
      simp only [unlink_pools, update_self]
      have hc := h.chain q
      rw [hl] at hc
      exact hc.tail
    · simp only [unlink_pools, update_of_ne hq]
      exact h.chain q
  length q := by
    by_cases hq : q = p
    · subst hq
      have hlen := h.length q
      rw [hl, List.length_cons] at hlen
      simp only [unlink_pools, update_self, ← hlen, Nat.add_sub_cancel]
    · simp only [unlink_pools, update_of_ne hq, h.length q]
  most q := by
    by_cases hq : q = p
    · subst hq
      simp only [unlink_pools, update_self]
      exact Nat.le_trans (Nat.sub_le _ 1) (h.most q)
    · simp only [unlink_pools, update_of_ne hq, h.most q]
  mem q u := by
    have hnd := (h.chain p).nodup
    rw [hl, List.nodup_cons] at hnd
    have htp : t ∈ l p := hl ▸ List.mem_cons_self
    by_cases hu : u = t
    · subst hu
      have hnot : u ∉ update l p r q := by
        by_cases hq : q = p
        · subst hq
          rw [update_self]
          exact hnd.1
        · rw [update_of_ne hq]
          exact fun hm => hq (h.disjoint hm htp)
      simp [Flags.set, hnot]
    · have hcons : u ∈ update l p r q ↔ u ∈ l q := by
        by_cases hq : q = p
        · subst hq
          rw [update_self, hl, List.mem_cons, or_iff_right hu]
        · rw [update_of_ne hq]
      rw [hcons, h.mem]
      simp [Flags.set, update_of_ne hu]
  owned u hu := by
    have hne : u ≠ t := by
      rintro rfl
      simp [Flags.set] at hu
    simp only [Flags.set, update_of_ne hne] at hu
    exact h.owned u hu
  flags u := by
    by_cases hu : u = t
    · subst hu
      simp [Flags.set]
    · simp [Flags.set, update_of_ne hu, h.flags u]

theorem keeps_link (ht : e.running t = false) (s : Vars) (p : Nat) : Keeps e s (s.link t p) := by
  intro u hu
  have hne : u ≠ t := by
    rintro rfl
    rw [ht] at hu
    cases hu
  refine ⟨by rw [link_pool, update_of_ne hne], fun q _ => ?_⟩
  by_cases hq : q = p
  · subst hq
    simp
  · simp [update_of_ne hq]

theorem keeps_unlink (e : Flags) (s : Vars) (t p : Nat) : Keeps e s (s.unlink t p) := by
  refine fun u _ => ⟨rfl, fun q _ => ?_⟩
  by_cases hq : q = p
  · subst hq
    simp
  · simp [update_of_ne hq]

theorem sat_threadStart {B : Prop} {Q : Unit → Vars → Flags → Prop} (ht : e.running t = false)
    (hq : Q () (s.link t p) (e.set t true)) : (threadStart t p).Sat world B s e Q := by
  refine sat_bind (sat_modify (keeps_link ht s p) ?_)
  exact sat_bind (sat_ask (sat_pure hq))

theorem sat_threadStop {B : Prop} {Q : Unit → Vars → Flags → Prop} (ht : s.pool t = some p)
    (hq : Q () (s.unlink t p) (e.set t false)) : (threadStop t).Sat world B s e Q := by
  refine sat_bind (sat_ask (sat_bind (sat_get ?_)))
  rw [ht]
  exact sat_modify (keeps_unlink _ s t p) hq

end Threads

end Oin17.Tpool
