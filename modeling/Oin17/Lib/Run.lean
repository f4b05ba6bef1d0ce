import Mathlib.Logic.Basic
import Mathlib.Tactic.ByContra

namespace Oin17.Run

variable {σ ε : Type} {step : σ → ε → Option σ}

/-- The state after a sequence of events. A step gives `none` when the event
cannot happen, or when it ends the program. -/
def exec (step : σ → ε → Option σ) : σ → List ε → Option σ
  | s, [] => some s
  | s, e :: es => (step s e).bind fun t => exec step t es

theorem exec_one : exec step s [e] = step s e := Option.bind_fun_some _

/-- `P` holds in every state a run goes through. -/
def Always (step : σ → ε → Option σ) (P : σ → Prop) : σ → List ε → Prop
  | s, [] => P s
  | s, e :: es => P s ∧ ∀ t, step s e = some t → Always step P t es

/-- Every step that a run takes meets `G`. -/
def Steps (step : σ → ε → Option σ) (G : σ → ε → Prop) : σ → List ε → Prop
  | _, [] => True
  | s, e :: es => ∀ t, step s e = some t → G s e ∧ Steps step G t es

theorem steps_cons_iff {G : σ → ε → Prop} (h : step s e = some t) :
    Steps step G s (e :: es) ↔ G s e ∧ Steps step G t es := by
  constructor
  · intro hsteps
    exact hsteps t h
  · rintro hsteps u hu
    obtain rfl := Option.some.inj (h.symm.trans hu)
    exact hsteps

theorem steps_stuck {G : σ → ε → Prop} (h : step s e = none) : Steps step G s (e :: es) := by
  intro t ht
  rw [h] at ht
  cases ht

def decideSteps (G : σ → ε → Prop) [∀ s e, Decidable (G s e)] :
    (s : σ) → (es : List ε) → Decidable (Steps step G s es)
  | _, [] => isTrue trivial
  | s, e :: es => match h : step s e with
    | none => isTrue (steps_stuck h)
    | some t =>
      have := decideSteps G t es
      decidable_of_iff _ (steps_cons_iff h).symm

instance (G : σ → ε → Prop) [∀ s e, Decidable (G s e)] (s : σ) (es : List ε) :
    Decidable (Steps step G s es) := decideSteps G s es

/-- Every event that a run comes to meets `G`, whether or not it can happen. -/
def Each (step : σ → ε → Option σ) (G : σ → ε → Prop) : σ → List ε → Prop
  | _, [] => True
  | s, e :: es => G s e ∧ ∀ t, step s e = some t → Each step G t es

theorem each_cons_iff {G : σ → ε → Prop} (h : step s e = some t) :
    Each step G s (e :: es) ↔ G s e ∧ Each step G t es := by
  refine and_congr_right fun _ => ⟨fun heach => heach t h, ?_⟩
  intro heach u hu
  obtain rfl := Option.some.inj (h.symm.trans hu)
  exact heach

theorem each_stuck {G : σ → ε → Prop} (h : step s e = none) :
    Each step G s (e :: es) ↔ G s e := by
  refine ⟨fun heach => heach.1, fun hg => ⟨hg, fun t ht => ?_⟩⟩
  rw [h] at ht
  cases ht

def decideEach (G : σ → ε → Prop) [∀ s e, Decidable (G s e)] :
    (s : σ) → (es : List ε) → Decidable (Each step G s es)
  | _, [] => isTrue trivial
  | s, e :: es => match h : step s e with
    | none => decidable_of_iff _ (each_stuck h).symm
    | some t =>
      have := decideEach G t es
      decidable_of_iff _ (each_cons_iff h).symm

instance (G : σ → ε → Prop) [∀ s e, Decidable (G s e)] (s : σ) (es : List ε) :
    Decidable (Each step G s es) := decideEach G s es

/-- What the steps that a run takes give. -/
def trace (step : σ → ε → Option σ) (f : σ → ε → List α) : σ → List ε → List α
  | _, [] => []
  | s, e :: es => match step s e with
    | none => []
    | some t => f s e ++ trace step f t es

/-- What each of the events of a run preserves holds at its end. -/
theorem exec_inv (I : σ → Prop) (G : ε → Prop)
    (hstep : ∀ s e t, I s → G e → step s e = some t → I t)
    (hs : I s) (hg : ∀ e ∈ es, G e) (h : exec step s es = some t) : I t := by
  induction es generalizing s with
  | nil => exact Option.some.inj h ▸ hs
  | cons e es ih =>
    obtain ⟨u, hu, h⟩ := Option.bind_eq_some_iff.mp h
    rw [List.forall_mem_cons] at hg
    exact ih (hstep s e u hs hg.1 hu) hg.2 h

/-- What the good steps of a run preserve holds at its end. -/
theorem Steps.last {G : σ → ε → Prop} (I : σ → Prop)
    (hkeep : ∀ s e t, I s → step s e = some t → G s e → I t) (hs : I s)
    (h : Steps step G s es) (he : exec step s es = some t) : I t := by
  induction es generalizing s with
  | nil => exact Option.some.inj he ▸ hs
  | cons e es ih =>
    obtain ⟨u, hu, he⟩ := Option.bind_eq_some_iff.mp he
    obtain ⟨hg, h⟩ := h u hu
    exact ih (hkeep s e u hs hu hg) h he

theorem steps_all {G : σ → ε → Prop} (h : ∀ e ∈ es, ∀ s, G s e) (s : σ) : Steps step G s es := by
  induction es generalizing s with
  | nil => trivial
  | cons e es ih =>
    rw [List.forall_mem_cons] at h
    exact fun t _ => ⟨h.1 s, ih h.2 t⟩

theorem Always.last (h : Always step P s es) (he : exec step s es = some t) : P t := by
  induction es generalizing s with
  | nil => exact Option.some.inj he ▸ h
  | cons e es ih =>
    obtain ⟨u, hu, he⟩ := Option.bind_eq_some_iff.mp he
    exact ih (h.2 u hu) he

theorem Each.after (h : Each step G s (es ++ [e])) (he : exec step s es = some t) : G t e := by
  induction es generalizing s with
  | nil => exact Option.some.inj he ▸ h.1
  | cons d es ih =>
    obtain ⟨u, hu, he⟩ := Option.bind_eq_some_iff.mp he
    exact ih (h.2 u hu) he

/-- What every step preserves holds throughout a run. -/
theorem always_inv (I P : σ → Prop) (hstep : ∀ s e t, I s → step s e = some t → I t)
    (hholds : ∀ s, I s → P s) (hs : I s) (es : List ε) : Always step P s es := by
  induction es generalizing s with
  | nil => exact hholds s hs
  | cons e es ih => exact ⟨hholds s hs, fun t ht => ih (hstep s e t hs ht)⟩

/-- Events that can happen, and then keep an invariant, make a run that goes on to its end. -/
theorem each_always (I P : σ → Prop) (G : σ → ε → Prop)
    (hstep : ∀ s e, I s → G s e → ∃ t, step s e = some t ∧ I t) (hholds : ∀ s, I s → P s)
    (hs : I s) (h : Each step G s es) :
    (∃ t, exec step s es = some t) ∧ Always step P s es := by
  induction es generalizing s with
  | nil => exact ⟨⟨s, rfl⟩, hholds s hs⟩
  | cons e es ih =>
    obtain ⟨t, ht, hI⟩ := hstep s e hs h.1
    obtain ⟨⟨u, hu⟩, halways⟩ := ih hI (h.2 t ht)
    refine ⟨⟨u, Option.bind_eq_some_iff.mpr ⟨t, ht, hu⟩⟩, hholds s hs, fun v hv => ?_⟩
    obtain rfl := Option.some.inj (ht.symm.trans hv)
    exact halways

/-- An invariant that every good step keeps and that implies `P`, while a bad
step breaks `P`: then `P` holds throughout a run exactly when its steps are good. -/
theorem always_iff_steps (I P : σ → Prop) (G : σ → ε → Prop)
    (hkeep : ∀ s e t, I s → step s e = some t → G s e → I t)
    (hholds : ∀ s, I s → P s)
    (hbreak : ∀ s e t, I s → step s e = some t → ¬ G s e → ¬ P t)
    (hs : I s) (es : List ε) : Always step P s es ↔ Steps step G s es := by
  induction es generalizing s with
  | nil => exact ⟨fun _ => trivial, fun _ => hholds s hs⟩
  | cons e es ih =>
    constructor
    · rintro ⟨-, h⟩ t ht
      have hgood : G s e := by
        by_contra hbad
        have hP := h t ht
        cases es with
        | nil => exact hbreak s e t hs ht hbad hP
        | cons _ _ => exact hbreak s e t hs ht hbad hP.1
      exact ⟨hgood, (ih (hkeep s e t hs ht hgood)).mp (h t ht)⟩
    · intro h
      refine ⟨hholds s hs, fun t ht => ?_⟩
      obtain ⟨hgood, hsteps⟩ := h t ht
      exact (ih (hkeep s e t hs ht hgood)).mpr hsteps

/-- A run whose steps are good goes on to its end, if a step is never stuck under the
invariant that good steps keep. -/
theorem steps_exec (I : σ → Prop) (G : σ → ε → Prop)
    (hkeep : ∀ s e t, I s → step s e = some t → G s e → I t)
    (hgo : ∀ s e, I s → ∃ t, step s e = some t)
    (hs : I s) (h : Steps step G s es) : ∃ t, exec step s es = some t := by
  induction es generalizing s with
  | nil => exact ⟨s, rfl⟩
  | cons e es ih =>
    obtain ⟨t, ht⟩ := hgo s e hs
    obtain ⟨hgood, hsteps⟩ := h t ht
    obtain ⟨u, hu⟩ := ih (hkeep s e t hs ht hgood) hsteps
    exact ⟨u, Option.bind_eq_some_iff.mpr ⟨t, ht, hu⟩⟩

/-- Conditions that agree wherever an invariant holds agree on runs. -/
theorem steps_congr (I : σ → Prop) (E : ε → Prop) (G H : σ → ε → Prop)
    (hkeep : ∀ s e t, I s → E e → step s e = some t → I t)
    (hiff : ∀ s e t, I s → E e → step s e = some t → (G s e ↔ H s e))
    (hs : I s) (he : ∀ e ∈ es, E e) : Steps step G s es ↔ Steps step H s es := by
  induction es generalizing s with
  | nil => exact Iff.rfl
  | cons e es ih =>
    rw [List.forall_mem_cons] at he
    refine forall₂_congr fun t ht => ?_
    exact and_congr (hiff s e t hs he.1 ht) (ih (hkeep s e t hs he.1 ht) he.2)

theorem each_congr (I : σ → Prop) (E : ε → Prop) (G H : σ → ε → Prop)
    (hkeep : ∀ s e t, I s → step s e = some t → I t)
    (hiff : ∀ s e, I s → E e → (G s e ↔ H s e))
    (hs : I s) (he : ∀ e ∈ es, E e) : Each step G s es ↔ Each step H s es := by
  induction es generalizing s with
  | nil => exact Iff.rfl
  | cons e es ih =>
    rw [List.forall_mem_cons] at he
    refine and_congr (hiff s e hs he.1) (forall₂_congr fun t ht => ?_)
    exact ih (hkeep s e t hs ht) he.2

theorem trace_cons {f : σ → ε → List α} (h : step s e = some t) :
    trace step f s (e :: es) = f s e ++ trace step f t es := by
  rw [trace, h]

theorem trace_stuck {f : σ → ε → List α} (h : step s e = none) :
    trace step f s (e :: es) = [] := by
  rw [trace, h]

/-- What holds of all that a run gives is what holds of each of its steps. -/
theorem trace_all_iff {f : σ → ε → List α} {P : α → Prop} :
    (∀ x ∈ trace step f s es, P x) ↔ Steps step (fun s e => ∀ x ∈ f s e, P x) s es := by
  induction es generalizing s with
  | nil => exact iff_of_true (fun x hx => absurd hx List.not_mem_nil) trivial
  | cons e es ih =>
    cases ht : step s e with
    | none =>
      rw [trace_stuck ht]
      exact iff_of_true (fun x hx => absurd hx List.not_mem_nil) (steps_stuck ht)
    | some t => rw [trace_cons ht, List.forall_mem_append, ih, steps_cons_iff ht]

end Oin17.Run
