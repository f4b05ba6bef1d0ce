import Oin17.Lib.Course
import Oin17.Tpool.Lists

namespace Oin17.Tpool
open Dialogue Links Function

/-- The threads that are found in the list of a pool. -/
def threadsOf (n : Nat) (s : Vars) (p : Nat) : List Nat := follow s.next n (s.pools p).threads

/-- What is found later when threads are shared out: pools have gained threads, within
their limits, and those that were running go on in their pools. -/
structure Gains (n : Nat) (x y : Vars × Flags) : Prop where
  max : ∀ p, (y.1.pools p).max = (x.1.pools p).max
  work : ∀ p, (y.1.pools p).func = (x.1.pools p).func ∧ (y.1.pools p).arg = (x.1.pools p).arg
  most : (∀ p, (x.1.pools p).nthreads ≤ (x.1.pools p).max) →
    ∀ p, (y.1.pools p).nthreads ≤ (y.1.pools p).max
  threads : ∀ p, threadsOf n x.1 p <:+ threadsOf n y.1 p
  running : ∀ t, x.2.running t = true → y.2.running t = true ∧ y.1.pool t = x.1.pool t

def sharing (n : Nat) : Course Req Bool Vars Flags where
  answer := Flags.answer
  Goes := Gains n
  refl _ := ⟨fun _ => rfl, fun _ => ⟨rfl, rfl⟩, fun h => h, fun _ => List.suffix_rfl,
    fun _ h => ⟨h, rfl⟩⟩
  trans h h' := by
    refine ⟨fun p => (h'.max p).trans (h.max p), fun p => ?_, fun hx => h'.most (h.most hx),
      fun p => (h.threads p).trans (h'.threads p), fun t ht => ?_⟩
    · exact ⟨(h'.work p).1.trans (h.work p).1, (h'.work p).2.trans (h.work p).2⟩
    · obtain ⟨hrun, hpool⟩ := h.running t ht
      obtain ⟨hrun', hpool'⟩ := h'.running t hrun
      exact ⟨hrun', hpool'.trans hpool⟩

/-- What assigning threads changes: each pool keeps the threads it has, and those it is
given were idle. -/
structure Grew (s : Vars) (e : Flags) (l : Nat → List Nat) (s' : Vars) (e' : Flags)
    (l' : Nat → List Nat) : Prop where
  lists : ∀ p, ∃ ts, l' p = ts ++ l p ∧ ∀ t ∈ ts, e.running t = false
  max : ∀ p, (s'.pools p).max = (s.pools p).max
  njobs : s'.njobs = s.njobs
  running : ∀ t, e.running t = true → e'.running t = true

theorem Flags.running_set {e : Flags} (h : e.running u = true) (t : Nat) :
    (e.set t true).running u = true := by
  by_cases hu : u = t
  · simp [Flags.set, hu]
  · simp [Flags.set, hu, h]

section Growth
variable {n t p : Nat} {s s' s'' : Vars} {e e' e'' : Flags} {l l' l'' : Nat → List Nat}

theorem Grew.refl (s : Vars) (e : Flags) (l : Nat → List Nat) : Grew s e l s e l :=
  ⟨fun _ => ⟨[], rfl, fun _ ht => by cases ht⟩, fun _ => rfl, rfl, fun _ h => h⟩

theorem Grew.trans (h : Grew s e l s' e' l') (h' : Grew s' e' l' s'' e'' l'') :
    Grew s e l s'' e'' l'' := by
  refine ⟨fun p => ?_, fun p => (h'.max p).trans (h.max p), h'.njobs.trans h.njobs,
    fun t ht => h'.running t (h.running t ht)⟩
  obtain ⟨ts, hts, hidle⟩ := h.lists p
  obtain ⟨us, hus, hidle'⟩ := h'.lists p
  refine ⟨us ++ ts, by rw [hus, hts, List.append_assoc], fun t ht => ?_⟩
  rcases List.mem_append.mp ht with ht | ht
  · have hoff := hidle' t ht
    by_contra hon
    rw [h.running t (Bool.of_not_eq_false hon)] at hoff
    cases hoff
  · exact hidle t ht

theorem Grew.nonempty (h : Grew s e l s' e' l') (hp : l p ≠ []) : l' p ≠ [] := by
  obtain ⟨ts, hts, -⟩ := h.lists p
  rw [hts]
  exact List.append_ne_nil_of_right_ne_nil ts hp

theorem grew_link (ht : e.running t = false) (s : Vars) (l : Nat → List Nat) (p : Nat) :
    Grew s e l (s.link t p) (e.set t true) (update l p (t :: l p)) := by
  refine ⟨fun q => ?_, fun q => ?_, rfl, fun u hu => ?_⟩
  · by_cases hq : q = p
    · subst hq
      refine ⟨[t], by rw [update_self, List.singleton_append], fun u hu => ?_⟩
      rwa [List.mem_singleton.mp hu]
    · exact ⟨[], by rw [update_of_ne hq, List.nil_append], fun u hu => by cases hu⟩
  · by_cases hq : q = p
    · subst hq
      simp
    · simp [update_of_ne hq]
  · exact Flags.running_set hu t

end Growth

section Sharing
variable {n t p : Nat} {s : Vars} {e : Flags} {l : Nat → List Nat}

theorem Sound.length_le (h : Sound n s e l) (p : Nat) : (l p).length ≤ n := by
  have hsub : l p ⊆ List.range n :=
    fun t ht => List.mem_range.mpr (h.owned t ((h.mem p t).mp ht).1).1
  have hle := (h.chain p).nodup.length_le_of_subset hsub
  rwa [List.length_range] at hle

theorem Sound.threadsOf (h : Sound n s e l) (p : Nat) : threadsOf n s p = l p :=
  (h.chain p).follow (h.length_le p)

theorem gains_link (h : Sound n s e l) (ht : e.running t = false) (htn : t < n) (hp : p < n)
    (hmax : (s.pools p).nthreads < (s.pools p).max) : Gains n (s, e) (s.link t p, e) := by
  have hlink := h.link ht htn hp hmax
  have hgrew := grew_link ht s l p
  refine ⟨hgrew.max, fun q => ?_, fun _ => hlink.most, fun q => ?_, fun u hu => ⟨hu, ?_⟩⟩
  · by_cases hq : q = p
    · subst hq
      simp
    · simp [update_of_ne hq]
  · obtain ⟨ts, hts, -⟩ := hgrew.lists q
    rw [h.threadsOf, hlink.threadsOf (s := s.link t p)]
    exact ⟨ts, hts.symm⟩
  · exact (keeps_link ht s p u hu).1

theorem gains_set (s : Vars) (e : Flags) (t : Nat) : Gains n (s, e) (s, e.set t true) := by
  refine ⟨fun _ => rfl, fun _ => ⟨rfl, rfl⟩, fun h => h, fun _ => List.suffix_rfl, fun u hu => ?_⟩
  exact ⟨Flags.running_set hu t, rfl⟩

theorem along_threadStart {Q : Unit → Vars → Flags → Prop} (h : Sound n s e l)
    (ht : e.running t = false) (htn : t < n) (hp : p < n)
    (hmax : (s.pools p).nthreads < (s.pools p).max)
    (hq : Q () (s.link t p) (e.set t true)) : (threadStart t p).Along (sharing n) s e Q := by
  refine along_bind (along_modify (gains_link h ht htn hp hmax) ?_)
  exact along_bind (along_ask (gains_set _ e t) (along_pure hq))

theorem along_nextIdle (s : Vars) (e : Flags) (t m : Nat) :
    (nextIdle t m).Along (sharing n) s e fun u s' e' => s' = s ∧ e' = e ∧ t ≤ u ∧ u ≤ t + m ∧
      (∀ v, t ≤ v → v < u → e.running v = true) ∧ (u < t + m → e.running u = false) := by
  induction m generalizing t with
  | zero =>
    refine along_pure ⟨rfl, rfl, Nat.le_refl t, Nat.le_refl t, fun v hle hlt => ?_, fun hlt => ?_⟩
    · omega
    · omega
  | succ m ih =>
    refine along_bind (along_ask ((sharing n).refl (s, e)) ?_)
    change Code.Along (sharing n) (if e.running t = true then _ else _) s e _
    by_cases hrun : e.running t = true
    · rw [if_pos hrun]
      apply (ih (t + 1)).mono
      rintro u s' e' ⟨hs, he, hle, hlt, hpast, hidle⟩
      refine ⟨hs, he, by omega, by omega, fun v htv hvu => ?_, fun hu => hidle (by omega)⟩
      by_cases hv : v = t
      · rw [hv, hrun]
      · exact hpast v (by omega) hvu
    · rw [if_neg hrun]
      refine along_pure ⟨rfl, rfl, Nat.le_refl t, Nat.le_add_right t _, fun v hle hlt => ?_,
        fun _ => Bool.of_not_eq_true hrun⟩
      omega

/-- Where a pass over the pools leaves the search for idle threads: the last thread that
it started is running. -/
def Advanced (e e' : Flags) (n t k : Nat) (r : Option (Nat × Nat)) : Prop :=
  ∀ u m, r = some (u, m) → k ≤ m ∧ u ≤ n ∧ (m = k → u = t) ∧
    (m ≠ k → e'.running u = true ∧ t ≤ u ∧ (e.running t = true → t < u))

/-- One thread is started, and then the rest of the pass is made. -/
theorem Advanced.started {r : Option (Nat × Nat)} (h : Advanced (e.set u true) e' n u (k + 1) r)
    (hoff : e.running u = false) (hle : t ≤ u)
    (hg : ∀ v, (e.set u true).running v = true → e'.running v = true) :
    Advanced e e' n t k r := by
  intro v m hr
  obtain ⟨hkm, hvn, hsame, hmore⟩ := h v m hr
  have hon : (e.set u true).running u = true := by simp [Flags.set]
  have htu : e.running t = true → t < u := by
    intro hrun
    have hne : t ≠ u := by
      rintro rfl
      rw [hoff] at hrun
      cases hrun
    omega
  refine ⟨by omega, hvn, fun hm => by omega, fun _ => ?_⟩
  by_cases hm : m = k + 1
  · rw [hsame hm]
    exact ⟨hg u hon, hle, htu⟩
  · obtain ⟨hv, -, hlt⟩ := hmore hm
    have := hlt hon
    exact ⟨hv, by omega, fun _ => by omega⟩

/-- What a pass leaves for the next one: it is out of threads only when all of them run, and
otherwise it has passed no idle thread. If it started none, there was no pool to start one for. -/
structure Passed (n : Nat) (ps : List Nat) (s : Vars) (k : Nat) (r : Option (Nat × Nat))
    (s' : Vars) (e' : Flags) : Prop where
  out : r = none → ∀ u < n, e'.running u = true
  past : ∀ u m, r = some (u, m) → ∀ v < u, e'.running v = true
  full : ∀ u, r = some (u, k) → s' = s ∧
    ∀ p ∈ ps, (s.pools p).nthreads ≠ 0 → (s.pools p).nthreads = (s.pools p).max

theorem along_sharePass {npools : UInt64} {ps : List Nat} {k : Nat}
    (h : Sound npools.toNat s e l) (hps : ∀ p ∈ ps, p < npools.toNat) (ht : t ≤ npools.toNat)
    (hpast : ∀ v < t, e.running v = true) :
    (sharePass npools ps t k).Along (sharing npools.toNat) s e fun r s' e' =>
      ∃ l', Sound npools.toNat s' e' l' ∧ Grew s e l s' e' l' ∧ (∀ p, l p = [] → l' p = []) ∧
        Advanced e e' npools.toNat t k r ∧ Passed npools.toNat ps s k r s' e' := by
  induction ps generalizing s e l t k with
  | nil =>
    refine along_pure ⟨l, h, .refl s e l, fun _ hl => hl, fun u m hr => ?_, ?_⟩
    · obtain ⟨rfl, rfl⟩ := Prod.mk.inj (Option.some.inj hr)
      exact ⟨Nat.le_refl k, ht, fun _ => rfl, fun hm => absurd rfl hm⟩
    · refine ⟨fun hr => ?_, fun u m hr => ?_, fun _ _ => ⟨rfl, fun p hp => ?_⟩⟩
      · cases hr
      · obtain ⟨rfl, rfl⟩ := Prod.mk.inj (Option.some.inj hr)
        exact hpast
      · cases hp
  | cons p ps ih =>
    rw [List.forall_mem_cons] at hps
    refine along_bind (along_get ?_)
    by_cases hskip : (s.pools p).nthreads = 0 ∨ (s.pools p).nthreads = (s.pools p).max
    · rw [if_pos hskip]
      apply (ih h hps.2 ht hpast).mono
      rintro r s' e' ⟨l', hs', hg, hempty, hadv, hpass⟩
      refine ⟨l', hs', hg, hempty, hadv, hpass.out, hpass.past, fun u hr => ?_⟩
      obtain ⟨hsame, hfull⟩ := hpass.full u hr
      exact ⟨hsame, List.forall_mem_cons.mpr ⟨hskip.resolve_left, hfull⟩⟩
    · rw [if_neg hskip]
      obtain ⟨hpos, hmax⟩ := not_or.mp hskip
      refine along_bind ((along_nextIdle s e t _).mono ?_)
      rintro u s' e' ⟨rfl, rfl, hle, hu, hbetween, hidle⟩
      have hpast' : ∀ v < u, e'.running v = true := by
        intro v hv
        by_cases htv : t ≤ v
        · exact hbetween v htv hv
        · exact hpast v (by omega)
      by_cases hend : u < npools.toNat
      · rw [if_pos hend]
        have hoff : e'.running u = false := hidle (by omega)
        have hroom := Nat.lt_of_le_of_ne (h.most p) hmax
        have hlink := h.link hoff hend hps.1 hroom
        have hgrew := grew_link hoff s' l p
        have hpast'' : ∀ v < u, (e'.set u true).running v = true :=
          fun v hv => Flags.running_set (hpast' v hv) u
        refine along_bind (along_threadStart h hoff hend hps.1 hroom ?_)
        apply (ih hlink hps.2 (by omega) hpast'').mono
        rintro r s'' e'' ⟨l'', hs'', hg, hempty, hadv, hpass⟩
        refine ⟨l'', hs'', hgrew.trans hg, fun q hq => hempty q ?_, fun v m hr => ?_,
          hpass.out, hpass.past, fun v hr => ?_⟩
        · have hqp : q ≠ p := by
            rintro rfl
            rw [← h.length, hq] at hpos
            exact hpos rfl
          rw [update_of_ne hqp, hq]
        · exact hadv.started hoff hle hg.running v m hr
        · obtain ⟨hkm, -⟩ := hadv v k hr
          omega
      · rw [if_neg hend]
        refine along_pure ⟨l, h, .refl s' e' l, fun _ hl => hl, fun u m hr => ?_,
          fun _ v hv => hpast' v (by omega), fun u m hr => ?_, fun u hr => ?_⟩
        · cases hr
        · cases hr
        · cases hr

/-- No thread is idle, or no pool that has a thread can be given another one. -/
def Conserved (npools : UInt64) (s : Vars) (e : Flags) : Prop :=
  (∀ t < npools.toNat, e.running t = true) ∨
    ∀ p < npools.toNat, (s.pools p).nthreads ≠ 0 → (s.pools p).nthreads = (s.pools p).max

/-- Every pass but the last one starts a thread further on, so that there are at most
as many as threads. What the passes skip stays as it is: a thread that runs goes on, and
a pool that is full stays full. -/
theorem along_redistributeThreads {npools : UInt64} {fuel : Nat}
    (h : Sound npools.toNat s e l) (ht : t ≤ npools.toNat)
    (hf : npools.toNat < fuel + t ∨ npools.toNat ≤ fuel + t ∧ e.running t = true)
    (hpast : ∀ v < t, e.running v = true) :
    (redistributeThreads npools fuel t).Along (sharing npools.toNat) s e fun _ s' e' =>
      Conserved npools s' e' ∧ ∃ l', Sound npools.toNat s' e' l' ∧ Grew s e l s' e' l' ∧
        ∀ p, l p = [] → l' p = [] := by
  induction fuel generalizing s e l t with
  | zero =>
    rcases hf with hf | ⟨hf, hrun⟩
    · omega
    · have := (h.owned t hrun).1
      omega
  | succ fuel ih =>
    refine along_bind ((along_sharePass h (fun p hp => List.mem_range.mp hp) ht hpast).mono ?_)
    rintro r s' e' ⟨l', hs', hg, hempty, hadv, hpass⟩
    cases r with
    | none => exact along_pure ⟨Or.inl (hpass.out rfl), l', hs', hg, hempty⟩
    | some q =>
      obtain ⟨u, m⟩ := q
      obtain ⟨-, hun, -, hmore⟩ := hadv u m rfl
      dsimp only
      by_cases hm : m = 0
      · rw [if_pos hm]
        subst hm
        obtain ⟨rfl, hfull⟩ := hpass.full u rfl
        have hcons : Conserved npools s' e' :=
          Or.inr fun p hp => hfull p (List.mem_range.mpr hp)
        exact along_pure ⟨hcons, l', hs', hg, hempty⟩
      · rw [if_neg hm]
        obtain ⟨hon, hle, hlt⟩ := hmore hm
        have hf' : npools.toNat ≤ fuel + u := by
          rcases hf with hf | ⟨hf, hrun⟩
          · omega
          · have := hlt hrun
            omega
        apply (ih hs' hun (Or.inr ⟨hf', hon⟩) (hpass.past u m rfl)).mono
        rintro _ s'' e'' ⟨hcons, l'', hs'', hg', hempty'⟩
        exact ⟨hcons, l'', hs'', hg.trans hg', fun p hp => hempty' p (hempty p hp)⟩

end Sharing

end Oin17.Tpool
