import Mathlib.Data.Option.Basic
import Oin17.Lib.Run

namespace Oin17.Refine
open Run

variable {σ τ ε ω : Type} {step : σ → ε → Option (ω × σ)} {spec : τ → ε → Option (ω × τ)}
variable {R : σ → τ → Prop} {E : ε → Prop}

/-- What a sequence of calls gives. A call that ends the program gives `none`,
and there is nothing after it. -/
def answers (step : σ → ε → Option (ω × σ)) : σ → List ε → List (Option ω)
  | _, [] => []
  | s, e :: es => match step s e with
    | none => [none]
    | some (o, t) => some o :: answers step t es

/-- The states, without what the calls give. -/
def next (step : σ → ε → Option (ω × σ)) (s : σ) (e : ε) : Option σ := (step s e).map Prod.snd

/-- Two machines in related states end the program together, or give the same and
stay related. -/
def Refines (step : σ → ε → Option (ω × σ)) (spec : τ → ε → Option (ω × τ)) (R : σ → τ → Prop)
    (E : ε → Prop) : Prop :=
  ∀ s a e, R s a → E e → Option.Rel (fun p q => p.1 = q.1 ∧ R p.2 q.2) (step s e) (spec a e)

/-- Whoever makes the calls cannot tell the two machines apart. -/
theorem Refines.answers_eq (h : Refines step spec R E) (hR : R s a) (hE : ∀ e ∈ es, E e) :
    answers step s es = answers spec a es := by
  induction es generalizing s a with
  | nil => rfl
  | cons e es ih =>
    rw [List.forall_mem_cons] at hE
    have hrel := h s a e hR hE.1
    rw [answers, answers]
    generalize step s e = x at hrel
    generalize spec a e = y at hrel
    cases hrel with
    | none => rfl
    | @some p q hpq =>
      obtain ⟨o, t⟩ := p
      obtain ⟨o', b⟩ := q
      obtain ⟨rfl, ht⟩ := hpq
      exact congrArg _ (ih ht hE.2)

/-- What related states have in common holds throughout. -/
theorem Refines.always (h : Refines step spec R E) {P : σ → Prop} (hP : ∀ s a, R s a → P s)
    (hR : R s a) (hE : ∀ e ∈ es, E e) : Always (next step) P s es := by
  induction es generalizing s a with
  | nil => exact hP s a hR
  | cons e es ih =>
    rw [List.forall_mem_cons] at hE
    refine ⟨hP s a hR, fun t ht => ?_⟩
    obtain ⟨p, hp, rfl⟩ := Option.map_eq_some_iff.mp ht
    have hrel := h s a e hR hE.1
    rw [hp] at hrel
    generalize spec a e = y at hrel
    cases hrel with
    | some hpq => exact ih hpq.2 hE.2

section Simulation
variable {σ τ ε ε' : Type} {step : σ → ε → Option σ} {spec : τ → ε' → Option τ}
variable {f : σ → ε → List ε'} {R : σ → τ → Prop}

theorem exec_append (h : exec spec a es = some b) : exec spec a (es ++ es') = exec spec b es' := by
  induction es generalizing a with
  | nil =>
    obtain rfl := Option.some.inj h
    rfl
  | cons e es ih =>
    obtain ⟨c, hc, h⟩ := Option.bind_eq_some_iff.mp h
    rw [List.cons_append, exec, hc]
    exact ih h

/-- Each step of a machine is as many steps of another, which `f` names. -/
def Simulates (step : σ → ε → Option σ) (spec : τ → ε' → Option τ) (f : σ → ε → List ε')
    (R : σ → τ → Prop) : Prop :=
  ∀ s a e t, R s a → step s e = some t → ∃ b, exec spec a (f s e) = some b ∧ R t b

/-- A run of the one machine is a run of the other. -/
theorem Simulates.trace (h : Simulates step spec f R) (hR : R s a)
    (he : exec step s es = some t) :
    ∃ b, exec spec a (Run.trace step f s es) = some b ∧ R t b := by
  induction es generalizing s a with
  | nil => exact ⟨a, rfl, Option.some.inj he ▸ hR⟩
  | cons e es ih =>
    obtain ⟨u, hu, he⟩ := Option.bind_eq_some_iff.mp he
    obtain ⟨c, hc, hRc⟩ := h s a e u hR hu
    obtain ⟨b, hb, hRb⟩ := ih hRc he
    exact ⟨b, by rw [trace_cons hu, exec_append hc, hb], hRb⟩

end Simulation

end Oin17.Refine
