import Oin17.Tpool.Sharing

namespace Oin17.Tpool
open Dialogue Links Function

section Starting
variable {n pi : Nat} {s : Vars} {e : Flags} {l : Nat → List Nat}

theorem sat_assign {is : List Nat} (h : Sound n s e l) (hp : pi < n) (his : ∀ i ∈ is, i < n) :
    (assign pi is).Sat world False s e fun _ s' e' => ∃ l', Sound n s' e' l' ∧
      Grew s e l s' e' l' ∧ (∀ q, q ≠ pi → l' q = l q) ∧
      ((s.pools pi).max ≠ 0 → (∃ i ∈ is, e.running i = false) → l' pi ≠ []) := by
  induction is generalizing s e l with
  | nil =>
    refine sat_pure ⟨l, h, .refl s e l, fun _ _ => rfl, fun _ ⟨i, hi, _⟩ => ?_⟩
    cases hi
  | cons i is ih =>
    rw [List.forall_mem_cons] at his
    refine sat_bind (sat_get ?_)
    by_cases hfull : (s.pools pi).nthreads = (s.pools pi).max
    · rw [if_pos hfull]
      refine sat_pure ⟨l, h, .refl s e l, fun _ _ => rfl, fun hmax _ hl => ?_⟩
      rw [← hfull, ← h.length, hl] at hmax
      exact hmax rfl
    · rw [if_neg hfull]
      refine sat_bind (sat_ask ?_)
      change Code.Sat world False (if e.running i = true then _ else _) s e _
      by_cases hrun : e.running i = true
      · rw [if_pos hrun]
        apply (ih h his.2).mono
        rintro _ s' e' ⟨l', hs', hg, ho, hne⟩
        refine ⟨l', hs', hg, ho, fun hmax ⟨j, hj, hidle⟩ => hne hmax ?_⟩
        rcases List.mem_cons.mp hj with rfl | hj
        · rw [hrun] at hidle
          cases hidle
        · exact ⟨j, hj, hidle⟩
      · rw [if_neg hrun]
        have hidle : e.running i = false := Bool.of_not_eq_true hrun
        have hlink := h.link hidle his.1 hp (Nat.lt_of_le_of_ne (h.most pi) hfull)
        refine sat_bind (sat_threadStart hidle ?_)
        apply (ih hlink his.2).mono
        rintro _ s' e' ⟨l', hs', hg, ho, -⟩
        refine ⟨l', hs', (grew_link hidle s l pi).trans hg, fun q hq => ?_, fun _ _ => ?_⟩
        · rw [ho q hq, update_of_ne hq]
        · apply hg.nonempty
          rw [update_self]
          exact List.cons_ne_nil i (l pi)

/-- The thread that is stolen is given back to the pool it comes from. -/
theorem sat_steal {is : List Nat} (h : Sound n s e l) (his : ∀ i ∈ is, i < n) :
    (steal is).Sat world True s e fun _ s' e' => Sound n s' e' l ∧ Grew s e l s' e' l := by
  induction is with
  | nil => exact sat_pure ⟨h, .refl s e l⟩
  | cons i is ih =>
    rw [List.forall_mem_cons] at his
    refine sat_bind (sat_get ?_)
    by_cases hone : (s.pools i).nthreads = 1
    · rw [if_pos hone]
      exact ih his.2
    · rw [if_neg hone]
      have hc := h.chain i
      cases hl : l i with
      | nil =>
        rw [hl] at hc
        rw [hc.nil_iff.mpr rfl]
        exact sat_crash trivial
      | cons th r =>
        rw [hl] at hc
        rw [hc.head, List.head?_cons]
        obtain ⟨hrun, hpool⟩ := (h.mem i th).mp (hl ▸ List.mem_cons_self)
        obtain ⟨htn, -⟩ := h.owned th hrun
        have hoff : (e.set th false).running th = false := by simp [Flags.set]
        refine sat_bind (sat_threadStop hpool (sat_threadStart hoff ?_))
        have hlink := (h.unlink hl).link hoff htn his.1 ?_
        · rw [update_self, update_idem, ← hl, update_eq_self] at hlink
          refine ⟨hlink, fun p => ⟨[], rfl, fun _ ht => by cases ht⟩, fun p => ?_, rfl, fun t ht => ?_⟩
          · by_cases hp : p = i
            · subst hp
              simp
            · simp [update_of_ne hp]
          · by_cases he : t = th
            · subst he
              simp [Flags.set]
            · simp only [Flags.set, update_of_ne he, ht]
        · have hlen := h.length i
          rw [hl, List.length_cons] at hlen
          have hmost := h.most i
          simp only [unlink_pools, update_self]
          omega

end Starting

section Stopping
variable {n t : Nat} {s : Vars} {e : Flags} {l : Nat → List Nat}

theorem sat_redistributeThreads {npools : UInt64} {fuel : Nat} (h : Sound npools.toNat s e l)
    (hf : npools.toNat < fuel) :
    (redistributeThreads npools fuel 0).Sat world False s e fun _ s' e' => ∃ l',
      Sound npools.toNat s' e' l' ∧ Grew s e l s' e' l' ∧ ∀ p, l p = [] → l' p = [] := by
  have halong := along_redistributeThreads h (Nat.zero_le _) (Or.inl hf) fun v hv => by omega
  apply (Prog.Along.sat rfl ?_ halong).mono
  · rintro _ s' e' ⟨-, hs'⟩
    exact hs'
  · intro e s s' hg t ht
    exact ⟨(hg.running t ht).2, fun p _ => hg.work p⟩

theorem sat_stopThreads {id fuel : Nat} (h : Sound n s e l) (hf : (l id).length < fuel) :
    (stopThreads id fuel).Sat world False s e fun _ s' e' => Sound n s' e' (update l id []) ∧
      (∀ p, (s'.pools p).max = (s.pools p).max) ∧ s'.njobs = s.njobs := by
  induction fuel generalizing s e l with
  | zero => omega
  | succ fuel ih =>
    refine sat_bind (sat_get ?_)
    have hc := h.chain id
    cases hl : l id with
    | nil =>
      rw [hl] at hc
      rw [hc.nil_iff.mpr rfl]
      refine sat_pure ⟨?_, fun _ => rfl, rfl⟩
      rwa [← hl, update_eq_self]
    | cons th r =>
      rw [hl] at hc hf
      rw [hc.head, List.head?_cons]
      have hpool := ((h.mem id th).mp (hl ▸ List.mem_cons_self)).2
      refine sat_bind (sat_threadStop hpool ?_)
      have hshort : (update l id r id).length < fuel := by
        rw [update_self]
        exact Nat.lt_of_succ_lt_succ hf
      apply (ih (h.unlink hl) hshort).mono
      rintro _ s' e' ⟨hs', hmax, hnjobs⟩
      rw [update_idem] at hs'
      refine ⟨hs', fun p => (hmax p).trans ?_, hnjobs⟩
      by_cases hp : p = id
      · subst hp
        simp
      · simp [update_of_ne hp]

end Stopping

/-- What a start in pool `pi` leads to: the pool gets threads that were idle, and it
gets one only if the count of jobs leaves room and some thread is idle. -/
structure Started (npools : UInt64) (s : Vars) (e : Flags) (l : Nat → List Nat) (pi max : Nat)
    (s' : Vars) (e' : Flags) (l' : Nat → List Nat) : Prop where
  sound : Sound npools.toNat s' e' l'
  others : ∀ q, q ≠ pi → l' q = l q
  idle : ∀ t ∈ l' pi, e.running t = false
  limits : ∀ q, (s'.pools q).max = if q = pi then max else (s.pools q).max
  njobs : s'.njobs = s.njobs + 1
  gets : max ≠ 0 →
    (l' pi ≠ [] ↔ s.njobs ≠ npools ∧ ∃ t < npools.toNat, e.running t = false)

/-- What a stop of pool `id` leads to: the other pools that have threads may get more. -/
structure Stopped (npools : UInt64) (s : Vars) (l : Nat → List Nat) (id : Nat) (s' : Vars)
    (e' : Flags) (l' : Nat → List Nat) : Prop where
  sound : Sound npools.toNat s' e' l'
  stopped : l' id = []
  others : ∀ q, q ≠ id → l q <:+ l' q ∧ (l q = [] → l' q = [])
  limits : ∀ q, (s'.pools q).max = (s.pools q).max
  njobs : s'.njobs = s.njobs - 1

section Calls
variable {npools : UInt64} {s : Vars} {e : Flags} {l : Nat → List Nat}

theorem Sound.njobs (h : Sound n s e l) (j : UInt64) : Sound n { s with njobs := j } e l :=
  ⟨h.chain, h.length, h.most, h.mem, h.owned, h.flags⟩

theorem keeps_njobs (e : Flags) (s : Vars) (j : UInt64) : Keeps e s { s with njobs := j } :=
  fun _ _ => ⟨rfl, fun _ _ => ⟨rfl, rfl⟩⟩

/-- A pool without threads may be set up anew. -/
theorem Sound.setUp (h : Sound n s e l) (hl : l p = []) (max : Nat) (func arg : Addr) :
    Sound n (s.setPool p fun _ => ⟨max, func, arg, 0, none⟩) e l where
  chain q := by
    by_cases hq : q = p
    · subst hq
      rw [hl, setPool_self]
      exact .nil
    · rw [setPool_ne s _ hq]
      exact h.chain q
  length q := by
    by_cases hq : q = p
    · subst hq
      rw [hl, setPool_self]
      rfl
    · rw [setPool_ne s _ hq, h.length q]
  most q := by
    by_cases hq : q = p
    · subst hq
      rw [setPool_self]
      exact Nat.zero_le max
    · rw [setPool_ne s _ hq]
      exact h.most q
  mem := h.mem
  owned := h.owned
  flags := h.flags

theorem Sound.keeps_setUp (h : Sound n s e l) (hl : l p = []) (pl : Pool) :
    Keeps e s (s.setPool p fun _ => pl) := by
  refine fun t ht => ⟨rfl, fun q hq => ?_⟩
  have hne : q ≠ p := by
    rintro rfl
    have := (h.mem q t).mpr ⟨ht, hq⟩
    rw [hl] at this
    cases this
  rw [setPool_ne s _ hne]
  exact ⟨rfl, rfl⟩

theorem sat_start (h : Sound npools.toNat s e l) (hp : pi < npools.toNat) (hl : l pi = []) :
    (start npools pi).Sat world (s.njobs = npools) s e fun r s' e' =>
      r = pi ∧ ∃ l', Started npools s e l pi (s.pools pi).max s' e' l' := by
  refine sat_bind (sat_get ?_)
  have hrange : ∀ i ∈ List.range npools.toNat, i < npools.toNat := fun i hi => List.mem_range.mp hi
  by_cases hfree : npools - s.njobs ≠ 0
  · rw [if_pos hfree]
    have hne : s.njobs ≠ npools := by
      rintro rfl
      exact hfree (by simp)
    refine sat_bind (((sat_assign h hp hrange).weaken False.elim).mono ?_)
    rintro _ s' e' ⟨l', hs', hg, ho, hsome⟩
    refine sat_bind (sat_modify (keeps_njobs e' s' _) (sat_pure ⟨rfl, l', ?_⟩))
    obtain ⟨ts, hts, hidle⟩ := hg.lists pi
    rw [hl, List.append_nil] at hts
    refine ⟨hs'.njobs _, ho, hts ▸ hidle, fun q => ?_, congrArg (· + 1) hg.njobs, fun hmax => ?_⟩
    · split
      · next hq => rw [hq, ← hg.max pi]
      · exact hg.max q
    · constructor
      · intro hne'
        obtain ⟨t, ht⟩ := List.exists_mem_of_ne_nil _ hne'
        have hrun := ((hs'.mem pi t).mp ht).1
        exact ⟨hne, t, (hs'.owned t hrun).1, hidle t (hts ▸ ht)⟩
      · rintro ⟨-, t, htn, ht⟩
        exact hsome hmax ⟨t, List.mem_range.mpr htn, ht⟩
  · rw [if_neg hfree]
    have heq : s.njobs = npools := by grind
    refine sat_bind (((sat_steal h hrange).weaken fun _ => heq).mono ?_)
    rintro _ s' e' ⟨hs', hg⟩
    refine sat_bind (sat_modify (keeps_njobs e' s' _) (sat_pure ⟨rfl, l, ?_⟩))
    refine ⟨hs'.njobs _, fun _ _ => rfl, fun t ht => ?_, fun q => ?_, congrArg (· + 1) hg.njobs,
      fun _ => ?_⟩
    · rw [hl] at ht
      cases ht
    · split
      · next hq => rw [hq, ← hg.max pi]
      · exact hg.max q
    · exact ⟨fun hne => absurd hl hne, fun hroom => absurd heq hroom.1⟩

theorem sat_tpoolStart (h : Sound npools.toNat s e l) (max : Nat) (func arg : Addr) :
    (tpoolStart npools max func arg).Sat world
      (s.njobs = npools ∧ ∃ p < npools.toNat, l p = []) s e fun r s' e' =>
      r = -1 ∧ s' = s ∧ e' = e ∧ (∀ p < npools.toNat, l p ≠ []) ∨
      ∃ p < npools.toNat, r = p ∧ l p = [] ∧ ∃ l', Started npools s e l p max s' e' l' := by
  refine sat_bind (sat_get ?_)
  cases hfind : (List.range npools.toNat).find? fun p => (s.pools p).threads.isNone with
  | none =>
    refine sat_pure (Or.inl ⟨rfl, rfl, rfl, fun p hp hl => ?_⟩)
    have := List.find?_eq_none.mp hfind p (List.mem_range.mpr hp)
    rw [(h.empty_iff p).mpr hl] at this
    exact this rfl
  | some p =>
    have hp : p < npools.toNat := List.mem_range.mp (List.mem_of_find?_eq_some hfind)
    have hnone := List.find?_some hfind
    have hl : l p = [] := (h.empty_iff p).mp (Option.isNone_iff_eq_none.mp hnone)
    refine sat_bind (sat_modify (h.keeps_setUp hl _) ?_)
    apply ((sat_start (h.setUp hl max func arg) hp hl).weaken fun hn => ⟨hn, p, hp, hl⟩).mono
    rintro r s' e' ⟨hr, l', hs'⟩
    refine Or.inr ⟨p, hp, hr, hl, l', hs'.sound, hs'.others, hs'.idle, fun q => ?_, hs'.njobs, ?_⟩
    · rw [hs'.limits q]
      split
      · rw [setPool_self]
      · next hq => rw [setPool_ne s _ hq]
    · have := hs'.gets
      rwa [setPool_self] at this

theorem sat_tpoolStop (h : Sound npools.toNat s e l) (id : Int) :
    (tpoolStop npools id).Sat world False s e fun r s' e' =>
      r = -1 ∧ s' = s ∧ e' = e ∧ (id < 0 ∨ npools.toNat ≤ id) ∨
      r = 0 ∧ 0 ≤ id ∧ id < npools.toNat ∧ ∃ l', Stopped npools s l id.toNat s' e' l' := by
  unfold tpoolStop
  by_cases hid : 0 ≤ id ∧ id < npools.toNat
  · rw [if_pos hid]
    have hlen : (l id.toNat).length < npools.toNat + 1 := Nat.lt_succ_of_le (h.length_le id.toNat)
    refine sat_bind ((sat_stopThreads h hlen).mono ?_)
    rintro _ s' e' ⟨hs', hmax, hnjobs⟩
    refine sat_bind ((sat_redistributeThreads hs' (Nat.lt_succ_self _)).mono ?_)
    rintro _ s'' e'' ⟨l'', hs'', hg, hempty⟩
    refine sat_bind (sat_modify (keeps_njobs e'' s'' _) (sat_pure ?_))
    refine Or.inr ⟨rfl, hid.1, hid.2, l'', hs''.njobs _, hempty _ (update_self _ _ _),
      fun q hq => ?_, fun q => (hg.max q).trans (hmax q), ?_⟩
    · obtain ⟨ts, hts, -⟩ := hg.lists q
      rw [update_of_ne hq] at hts
      refine ⟨⟨ts, hts.symm⟩, fun hl => hempty q ?_⟩
      rw [update_of_ne hq, hl]
    · show s''.njobs - 1 = s.njobs - 1
      rw [hg.njobs, hnjobs]
  · rw [if_neg hid]
    exact sat_pure (Or.inl ⟨rfl, rfl, rfl, by omega⟩)

end Calls

end Oin17.Tpool
