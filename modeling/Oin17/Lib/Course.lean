import Oin17.Lib.Dialogue

namespace Oin17.Dialogue

variable {ρ β σ φ α γ : Type}

/-- How the surroundings answer, and how what is found goes on: `Goes x y` when the state
of the program and that of its surroundings may be `x` first and `y` later. -/
structure Course (ρ β σ φ : Type) where
  answer : ρ → φ → β × φ
  Goes : σ × φ → σ × φ → Prop
  refl : ∀ x, Goes x x
  trans : ∀ {x y z}, Goes x y → Goes y z → Goes x z

/-- What is found at each request, before it is answered and after, and at the end. -/
def Prog.visits (answer : ρ → φ → β × φ) : Prog ρ β σ α → φ → List (σ × φ)
  | .done _ s, e => [(s, e)]
  | .crash, _ => []
  | .ask r s k, e =>
    (s, e) :: (s, (answer r e).2) :: (k (answer r e).1).visits answer (answer r e).2

/-- The program ends in `Q`, and all the way it goes on as it may. -/
def Prog.Along (C : Course ρ β σ φ) (Q : α → σ → φ → Prop) : Prog ρ β σ α → σ → φ → Prop
  | .done a t, s, e => C.Goes (s, e) (t, e) ∧ Q a t e
  | .crash, _, _ => False
  | .ask r t k, s, e => C.Goes (s, e) (t, e) ∧ C.Goes (t, e) (t, (C.answer r e).2) ∧
      (k (C.answer r e).1).Along C Q t (C.answer r e).2

section Progs
variable {C : Course ρ β σ φ} {Q R : α → σ → φ → Prop} {p : Prog ρ β σ α}

theorem Prog.Along.keep (hk : C.Goes (s, e) (t, e)) (h : p.Along C Q t e) : p.Along C Q s e := by
  cases p with
  | done a u => exact ⟨C.trans hk h.1, h.2⟩
  | crash => exact h
  | ask r u k => exact ⟨C.trans hk h.1, h.2⟩

theorem Prog.Along.mono (h : p.Along C Q s e) (hq : ∀ a t e, Q a t e → R a t e) :
    p.Along C R s e := by
  induction p generalizing s e with
  | done a t => exact ⟨h.1, hq a t e h.2⟩
  | crash => exact h
  | ask r t k ih => exact ⟨h.1, h.2.1, ih _ h.2.2⟩

theorem Prog.Along.bind {Q : γ → σ → φ → Prop} {f : α → σ → Prog ρ β σ γ}
    (h : p.Along C (fun a t e => (f a t).Along C Q t e) s e) : (p.bind f).Along C Q s e := by
  induction p generalizing s e with
  | done a t => exact h.2.keep h.1
  | crash => exact h
  | ask r t k ih => exact ⟨h.1, h.2.1, ih _ h.2.2⟩

/-- The surroundings may rely on what is kept all the way. -/
theorem Prog.Along.sat {W : World ρ β σ φ} (hw : W.answer = C.answer)
    (hk : ∀ e s t, C.Goes (s, e) (t, e) → W.Keeps e s t) (h : p.Along C Q s e) :
    p.Sat W False Q s e := by
  induction p generalizing s e with
  | done a t => exact ⟨hk e s t h.1, h.2⟩
  | crash => exact h
  | ask r t k ih =>
    refine ⟨hk e s t h.1, ?_⟩
    rw [hw]
    exact ih _ h.2.2

theorem Prog.Along.returns (h : p.Along C Q s e) :
    ∃ a t e', p.atomic C.answer e = some (a, t, e') ∧ Q a t e' := by
  induction p generalizing s e with
  | done a t => exact ⟨a, t, e, rfl, h.2⟩
  | crash => exact h.elim
  | ask r t k ih => exact ih _ h.2.2

theorem Prog.Along.goes (h : p.Along C Q s e) : ∀ x ∈ p.visits C.answer e, C.Goes (s, e) x := by
  induction p generalizing s e with
  | done a t =>
    intro x hx
    rw [List.mem_singleton.mp hx]
    exact h.1
  | crash => exact h.elim
  | ask r t k ih =>
    obtain ⟨hst, hans, hk⟩ := h
    refine List.forall_mem_cons.mpr ⟨hst, List.forall_mem_cons.mpr ⟨C.trans hst hans, ?_⟩⟩
    intro x hx
    exact C.trans hst (C.trans hans (ih _ hk x hx))

/-- Any two states that are found go on from the first to the second. -/
theorem Prog.Along.pairwise (h : p.Along C Q s e) :
    ((s, e) :: p.visits C.answer e).Pairwise C.Goes := by
  refine List.pairwise_cons.mpr ⟨h.goes, ?_⟩
  induction p generalizing s e with
  | done a t => exact List.pairwise_singleton C.Goes _
  | crash => exact h.elim
  | ask r t k ih =>
    obtain ⟨-, hans, hk⟩ := h
    refine List.pairwise_cons.mpr ⟨List.forall_mem_cons.mpr ⟨hans, fun x hx => ?_⟩, ?_⟩
    · exact C.trans hans (hk.goes x hx)
    · exact List.pairwise_cons.mpr ⟨hk.goes, ih _ hk⟩

end Progs

def Code.Along (C : Course ρ β σ φ) (m : Code ρ β σ α) (s : σ) (e : φ) (Q : α → σ → φ → Prop) :
    Prop :=
  (m s).Along C Q s e

section Rules
variable {C : Course ρ β σ φ} {Q R : α → σ → φ → Prop} {m : Code ρ β σ α} {s : σ} {e : φ}

theorem along_pure (h : Q a s e) : (pure a : Code ρ β σ α).Along C s e Q :=
  ⟨C.refl (s, e), h⟩

theorem along_get {Q : σ → σ → φ → Prop} (h : Q s s e) :
    (get : Code ρ β σ σ).Along C s e Q :=
  ⟨C.refl (s, e), h⟩

theorem along_modify {Q : Unit → σ → φ → Prop} {f : σ → σ} (hk : C.Goes (s, e) (f s, e))
    (h : Q () (f s) e) : (modify f : Code ρ β σ Unit).Along C s e Q :=
  ⟨hk, h⟩

theorem along_ask {Q : β → σ → φ → Prop} {r : ρ} (hk : C.Goes (s, e) (s, (C.answer r e).2))
    (h : Q (C.answer r e).1 s (C.answer r e).2) : (ask r : Code ρ β σ β).Along C s e Q :=
  ⟨C.refl (s, e), hk, C.refl _, h⟩

theorem Code.Along.mono (h : m.Along C s e Q) (hq : ∀ a t e, Q a t e → R a t e) :
    m.Along C s e R :=
  Prog.Along.mono h hq

theorem along_bind {Q : γ → σ → φ → Prop} {f : α → Code ρ β σ γ}
    (h : m.Along C s e fun a t e => (f a).Along C t e Q) : (m >>= f).Along C s e Q :=
  Prog.Along.bind h

end Rules

end Oin17.Dialogue
