import Mathlib.Tactic.Basic

namespace Oin17.Dialogue

variable {ρ β σ φ α γ : Type}

/-- A program on a state of its own that makes requests of its surroundings. They see
the state as it was at the last request. -/
inductive Prog (ρ β σ α : Type) where
  | done (a : α) (s : σ)
  | crash
  | ask (r : ρ) (s : σ) (k : β → Prog ρ β σ α)

def Prog.bind : Prog ρ β σ α → (α → σ → Prog ρ β σ γ) → Prog ρ β σ γ
  | .done a s, f => f a s
  | .crash, _ => .crash
  | .ask r s k, f => .ask r s fun b => (k b).bind f

/-- The run in which the surroundings answer every request at once. -/
def Prog.atomic (answer : ρ → φ → β × φ) : Prog ρ β σ α → φ → Option (α × σ × φ)
  | .done a s, e => some (a, s, e)
  | .crash, _ => none
  | .ask r _ k, e => (k (answer r e).1).atomic answer (answer r e).2

theorem Prog.atomic_bind (p : Prog ρ β σ α) (f : α → σ → Prog ρ β σ γ) (answer : ρ → φ → β × φ)
    (e : φ) : (p.bind f).atomic answer e =
      (p.atomic answer e).bind fun r => (f r.1 r.2.1).atomic answer r.2.2 := by
  induction p generalizing e with
  | done a s => rfl
  | crash => rfl
  | ask r s k ih => exact ih _ _

/-- Code is run from a state. -/
def Code (ρ β σ α : Type) : Type := σ → Prog ρ β σ α

instance : Monad (Code ρ β σ) where
  pure a := fun s => .done a s
  bind m f := fun s => (m s).bind f

def get : Code ρ β σ σ := fun s => .done s s

def modify (f : σ → σ) : Code ρ β σ Unit := fun s => .done () (f s)

def ask (r : ρ) : Code ρ β σ β := fun s => .ask r s fun b => .done b s

def crash : Code ρ β σ α := fun _ => .crash

theorem run_bind (m : Code ρ β σ α) (f : α → Code ρ β σ γ) (s : σ) : (m >>= f) s = (m s).bind f :=
  rfl

theorem run_pure (a : α) (s : σ) : (pure a : Code ρ β σ α) s = .done a s := rfl

theorem run_get (s : σ) : (get : Code ρ β σ σ) s = .done s s := rfl

theorem run_modify (f : σ → σ) (s : σ) : (modify f : Code ρ β σ Unit) s = .done () (f s) := rfl

theorem run_ask (r : ρ) (s : σ) : (ask r : Code ρ β σ β) s = .ask r s fun b => .done b s := rfl

theorem run_ite {c : Prop} [Decidable c] (m n : Code ρ β σ α) (s : σ) :
    (if c then m else n) s = if c then m s else n s := by
  split <;> rfl

/-- How the surroundings answer, and what they rely on between two requests. -/
structure World (ρ β σ φ : Type) where
  answer : ρ → φ → β × φ
  Keeps : φ → σ → σ → Prop
  refl : ∀ e s, Keeps e s s
  trans : ∀ {e s t u}, Keeps e s t → Keeps e t u → Keeps e s u

/-- From a state that the surroundings know, the program only does what they rely on.
It ends in `Q`, and crashes only if `B`. -/
def Prog.Sat (W : World ρ β σ φ) (B : Prop) (Q : α → σ → φ → Prop) :
    Prog ρ β σ α → σ → φ → Prop
  | .done a t, s, e => W.Keeps e s t ∧ Q a t e
  | .crash, _, _ => B
  | .ask r t k, s, e => W.Keeps e s t ∧ (k (W.answer r e).1).Sat W B Q t (W.answer r e).2

section Progs
variable {W : World ρ β σ φ} {B : Prop} {Q R : α → σ → φ → Prop} {p : Prog ρ β σ α}

theorem Prog.Sat.keep (hk : W.Keeps e s t) (h : p.Sat W B Q t e) : p.Sat W B Q s e := by
  cases p with
  | done a u => exact ⟨W.trans hk h.1, h.2⟩
  | crash => exact h
  | ask r u k => exact ⟨W.trans hk h.1, h.2⟩

theorem Prog.Sat.mono (h : p.Sat W B Q s e) (hq : ∀ a t e, Q a t e → R a t e) :
    p.Sat W B R s e := by
  induction p generalizing s e with
  | done a t => exact ⟨h.1, hq a t e h.2⟩
  | crash => exact h
  | ask r t k ih => exact ⟨h.1, ih _ h.2⟩

theorem Prog.Sat.weaken {B' : Prop} (h : p.Sat W B Q s e) (hb : B → B') : p.Sat W B' Q s e := by
  induction p generalizing s e with
  | done a t => exact h
  | crash => exact hb h
  | ask r t k ih => exact ⟨h.1, ih _ h.2⟩

theorem Prog.Sat.bind {Q : γ → σ → φ → Prop} {f : α → σ → Prog ρ β σ γ}
    (h : p.Sat W B (fun a t e => (f a t).Sat W B Q t e) s e) : (p.bind f).Sat W B Q s e := by
  induction p generalizing s e with
  | done a t => exact h.2.keep h.1
  | crash => exact h
  | ask r t k ih => exact ⟨h.1, ih _ h.2⟩

theorem Prog.Sat.atomic (h : p.Sat W B Q s e) (hp : p.atomic W.answer e = some (a, t, e')) :
    Q a t e' := by
  induction p generalizing s e with
  | done b u =>
    cases hp
    exact h.2
  | crash => cases hp
  | ask r u k ih => exact ih _ h.2 hp

theorem Prog.Sat.returns (h : p.Sat W False Q s e) :
    ∃ a t e', p.atomic W.answer e = some (a, t, e') ∧ Q a t e' := by
  induction p generalizing s e with
  | done a t => exact ⟨a, t, e, rfl, h.2⟩
  | crash => exact h.elim
  | ask r t k ih => exact ih _ h.2

end Progs

/-- Code as a program that starts from a state which its surroundings know. -/
def Code.Sat (W : World ρ β σ φ) (B : Prop) (m : Code ρ β σ α) (s : σ) (e : φ)
    (Q : α → σ → φ → Prop) : Prop :=
  (m s).Sat W B Q s e

section Rules
variable {W : World ρ β σ φ} {B : Prop} {Q R : α → σ → φ → Prop} {m : Code ρ β σ α} {s : σ} {e : φ}

theorem sat_pure (h : Q a s e) : (pure a : Code ρ β σ α).Sat W B s e Q :=
  ⟨W.refl e s, h⟩

theorem sat_get {Q : σ → σ → φ → Prop} (h : Q s s e) : (get : Code ρ β σ σ).Sat W B s e Q :=
  ⟨W.refl e s, h⟩

theorem sat_modify {Q : Unit → σ → φ → Prop} {f : σ → σ} (hk : W.Keeps e s (f s))
    (h : Q () (f s) e) : (modify f : Code ρ β σ Unit).Sat W B s e Q :=
  ⟨hk, h⟩

theorem sat_ask {Q : β → σ → φ → Prop} {r : ρ} (h : Q (W.answer r e).1 s (W.answer r e).2) :
    (ask r : Code ρ β σ β).Sat W B s e Q :=
  ⟨W.refl e s, W.refl _ s, h⟩

theorem sat_crash (h : B) : (crash : Code ρ β σ α).Sat W B s e Q := h

theorem Code.Sat.mono (h : m.Sat W B s e Q) (hq : ∀ a t e, Q a t e → R a t e) :
    m.Sat W B s e R :=
  Prog.Sat.mono h hq

theorem Code.Sat.weaken {B' : Prop} (h : m.Sat W B s e Q) (hb : B → B') : m.Sat W B' s e Q :=
  Prog.Sat.weaken h hb

theorem sat_bind {Q : γ → σ → φ → Prop} {f : α → Code ρ β σ γ}
    (h : m.Sat W B s e fun a t e => (f a).Sat W B t e Q) : (m >>= f).Sat W B s e Q :=
  Prog.Sat.bind h

end Rules

end Oin17.Dialogue
