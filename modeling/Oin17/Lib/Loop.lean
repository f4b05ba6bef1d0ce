import Mathlib.Logic.Function.Basic

namespace Oin17.Loop

/-- A `while` loop run with a bound on its passes. A pass hands on a new state
or leaves with a result; `none` means that a pass failed or the bound ran out. -/
def run (body : σ → Option (σ ⊕ ρ)) : Nat → σ → Option ρ
  | 0, _ => none
  | n + 1, s => match body s with
    | none => none
    | some (.inl t) => run body n t
    | some (.inr r) => some r

theorem run_pass {body : σ → Option (σ ⊕ ρ)} (h : body s = some (.inl t)) (n : Nat) :
    run body (n + 1) s = run body n t := by
  simp [run, h]

theorem run_leave {body : σ → Option (σ ⊕ ρ)} (h : body s = some (.inr r)) (n : Nat) :
    run body (n + 1) s = some r := by
  simp [run, h]

/-- A run that gives a result begins with a pass. -/
theorem run_some {body : σ → Option (σ ⊕ ρ)} (h : run body fuel s = some r) :
    body s = some (.inr r) ∨
      ∃ t n, fuel = n + 1 ∧ body s = some (.inl t) ∧ run body n t = some r := by
  cases fuel with
  | zero => simp [run] at h
  | succ n =>
    cases hb : body s with
    | none => simp [run, hb] at h
    | some o =>
      cases o with
      | inl t =>
        rw [run_pass hb] at h
        exact Or.inr ⟨t, n, rfl, rfl, h⟩
      | inr q =>
        rw [run_leave hb] at h
        exact Or.inl (by rw [Option.some.inj h])

/-- Total correctness of a `while` loop. The variant is carried by the
invariant, so that it may count something the state does not hold. -/
theorem run_total {body : σ → Option (σ ⊕ ρ)} (I : Nat → σ → Prop) (Q : ρ → Prop)
    (hbody : ∀ n s, I n s → (∃ t m, body s = some (.inl t) ∧ m < n ∧ I m t) ∨
      ∃ r, body s = some (.inr r) ∧ Q r)
    {n fuel : Nat} {s : σ} (hs : I n s) (hf : n < fuel) :
    ∃ r, run body fuel s = some r ∧ Q r := by
  induction fuel generalizing n s with
  | zero => omega
  | succ fuel ih =>
    rcases hbody n s hs with ⟨t, m, hb, hm, ht⟩ | ⟨r, hb, hr⟩
    · obtain ⟨r, hr, hq⟩ := ih ht (by omega)
      exact ⟨r, by simpa [run, hb] using hr, hq⟩
    · exact ⟨r, by simp [run, hb], hr⟩

/-- Partial correctness of a `while` loop. -/
theorem run_partial {body : σ → Option (σ ⊕ ρ)} (I : σ → Prop) (Q : ρ → Prop)
    (hpass : ∀ s t, I s → body s = some (.inl t) → I t)
    (hleave : ∀ s r, I s → body s = some (.inr r) → Q r)
    {fuel : Nat} {s : σ} (hs : I s) (h : run body fuel s = some r) : Q r := by
  induction fuel generalizing s with
  | zero => cases h
  | succ fuel ih =>
    rcases run_some h with hb | ⟨t, n, hn, hb, h⟩
    · exact hleave s r hs hb
    · obtain rfl := Nat.succ.inj hn
      exact ih (hpass s t hs hb) h

/-- A loop whose invariant keeps it from leaving gives no result. -/
theorem run_never {body : σ → Option (σ ⊕ ρ)} (I : σ → Prop)
    (hpass : ∀ s t, I s → body s = some (.inl t) → I t)
    (hleave : ∀ s r, I s → body s ≠ some (.inr r)) (fuel : Nat) (hs : I s) :
    run body fuel s = none := by
  apply Option.eq_none_iff_forall_ne_some.mpr
  intro r h
  exact run_partial I (fun _ => False) hpass (fun s r hs hr => hleave s r hs hr) hs h

/-- A loop that leaves with what it has come to, by passes that keep what `R`
says. -/
theorem run_related {body : σ → Option (σ ⊕ ρ)} {f : σ → ρ} {R : σ → σ → Prop}
    (hrefl : ∀ s, R s s) (htrans : ∀ s t u, R s t → R t u → R s u)
    (hbody : ∀ s o, body s = some o → o = .inr (f s) ∨ ∃ t, o = .inl t ∧ R s t)
    (h : run body fuel s = some r) : ∃ t, R s t ∧ r = f t := by
  apply run_partial (R s) (fun r => ∃ t, R s t ∧ r = f t) _ _ (hrefl s) h
  · intro t u ht hpass
    rcases hbody t _ hpass with ho | ⟨v, ho, hv⟩
    · cases ho
    · obtain rfl := Sum.inl.inj ho
      exact htrans s t u ht hv
  · intro t q ht hleave
    rcases hbody t _ hleave with ho | ⟨v, ho, -⟩
    · exact ⟨t, ht, Sum.inr.inj ho⟩
    · cases ho

/-- Loops that pass in the same way from the states of an invariant run in the
same way. -/
theorem run_congr {body body' : σ → Option (σ ⊕ ρ)} (I : σ → Prop)
    (hsame : ∀ s, I s → body s = body' s) (hpass : ∀ s t, I s → body s = some (.inl t) → I t)
    (fuel : Nat) (hs : I s) : run body fuel s = run body' fuel s := by
  induction fuel generalizing s with
  | zero => rfl
  | succ fuel ih =>
    rw [run, run, ← hsame s hs]
    cases hb : body s with
    | none => rfl
    | some o =>
      cases o with
      | inl t => exact ih (hpass s t hs hb)
      | inr r => rfl

/-- A loop whose passes agree with those of another one wherever they do not fail. -/
theorem run_sub {body body' : σ → Option (σ ⊕ ρ)} (h : ∀ s o, body s = some o → body' s = some o)
    (hr : run body fuel s = some r) : run body' fuel s = some r := by
  induction fuel generalizing s with
  | zero => cases hr
  | succ fuel ih =>
    rcases run_some hr with hb | ⟨t, n, hn, hb, hr⟩
    · exact run_leave (h s _ hb) fuel
    · obtain rfl := Nat.succ.inj hn
      rw [run_pass (h s _ hb)]
      exact ih hr

/-- A counted loop: `n` passes, numbered from `lo`. -/
def forRange (lo : Nat) : Nat → (Nat → σ → σ) → σ → σ
  | 0, _, s => s
  | n + 1, f, s => f (lo + n) (forRange lo n f s)

/-- What each pass of a counted loop hands on, the whole loop establishes. -/
theorem forRange_inv (I : Nat → σ → Prop) {a n : Nat} {f : Nat → σ → σ} {s : σ}
    (hs : I a s) (hf : ∀ i t, a ≤ i → i < a + n → I i t → I (i + 1) (f i t)) :
    I (a + n) (forRange a n f s) := by
  induction n with
  | zero => exact hs
  | succ n ih =>
    have hn := ih (fun i t hl hi => hf i t hl (by omega))
    exact hf (a + n) _ (by omega) (by omega) hn

/-- A counted loop whose passes may fail. -/
def forRangeM (lo : Nat) : Nat → (Nat → σ → Option σ) → σ → Option σ
  | 0, _, s => some s
  | n + 1, f, s => (forRangeM lo n f s).bind (f (lo + n))

theorem forRangeM_total (I : Nat → σ → Prop) {a n : Nat} {f : Nat → σ → Option σ} {s : σ}
    (hs : I a s) (hf : ∀ i t, a ≤ i → i < a + n → I i t → ∃ u, f i t = some u ∧ I (i + 1) u) :
    ∃ t, forRangeM a n f s = some t ∧ I (a + n) t := by
  induction n with
  | zero => exact ⟨s, rfl, hs⟩
  | succ n ih =>
    obtain ⟨t, ht, hn⟩ := ih (fun i t hl hi => hf i t hl (by omega))
    obtain ⟨u, hu, hi⟩ := hf (a + n) t (by omega) (by omega) hn
    exact ⟨u, by rw [forRangeM, ht, Option.bind_some, hu], hi⟩

/-- Where no pass fails, the counted loop is the one whose passes cannot. -/
theorem forRangeM_eq {a n : Nat} {f : Nat → σ → Option σ} {g : Nat → σ → σ}
    (h : ∀ i t, a ≤ i → i < a + n → f i t = some (g i t)) (s : σ) :
    forRangeM a n f s = some (forRange a n g s) := by
  induction n with
  | zero => rfl
  | succ n ih =>
    rw [forRangeM, ih fun i t hl hi => h i t hl (by omega), Option.bind_some, forRange]
    exact h (a + n) _ (by omega) (by omega)

/-- What a counted loop gives whose passes, where they do not fail, are those of another. -/
theorem forRangeM_sub {a n : Nat} {f : Nat → σ → Option σ} {g : Nat → σ → σ}
    (h : ∀ i t u, f i t = some u → u = g i t) (hr : forRangeM a n f s = some t) :
    t = forRange a n g s := by
  induction n generalizing t with
  | zero => exact (Option.some.inj hr).symm
  | succ n ih =>
    obtain ⟨u, hu, hr⟩ := Option.bind_eq_some_iff.mp hr
    rw [h _ _ _ hr, ih hu, forRange]

theorem forRangeM_partial (I : Nat → σ → Prop) {a n : Nat} {f : Nat → σ → Option σ} {s t : σ}
    (hs : I a s) (hf : ∀ i t u, a ≤ i → i < a + n → I i t → f i t = some u → I (i + 1) u)
    (h : forRangeM a n f s = some t) : I (a + n) t := by
  induction n generalizing t with
  | zero => exact Option.some.inj h ▸ hs
  | succ n ih =>
    obtain ⟨u, hu, h⟩ := Option.bind_eq_some_iff.mp h
    have hn := ih (fun i t u hl hi => hf i t u hl (by omega)) hu
    exact hf (a + n) u t (by omega) (by omega) hn h

end Oin17.Loop
