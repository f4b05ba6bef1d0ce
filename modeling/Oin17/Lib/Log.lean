import Oin17.Lib.Loop

namespace Oin17.Log
open Loop

/-- A computation that may fail, with a log of what it does. -/
def Logged (α σ : Type) : Type := Option (σ × List α)

section Monad
variable {α σ τ ρ : Type}

def Logged.pure (x : σ) : Logged α σ := some (x, [])

def Logged.bind (m : Logged α σ) (f : σ → Logged α τ) : Logged α τ :=
  Option.bind m fun (x, l) => Option.map (fun (y, l') => (y, l ++ l')) (f x)

instance : Monad (Logged α) where
  pure := Logged.pure
  bind := Logged.bind

def fail : Logged α σ := none

/-- Only the log changes. -/
def tell (l : List α) : Logged α Unit := some ((), l)

/-- A computation of which nothing is logged. -/
def lift (m : Option σ) : Logged α σ := Option.map (fun x => (x, [])) m

/-- What is left when nobody reads the log. -/
def erase (m : Logged α σ) : Option σ := Option.map Prod.fst m

/-- `Loop.run`, with the logs of the passes one behind the other. -/
def loop (body : σ → Logged α (σ ⊕ ρ)) : Nat → σ → Logged α ρ
  | 0, _ => fail
  | n + 1, s => do
    match ← body s with
    | .inl t => loop body n t
    | .inr r => pure r

@[simp] theorem erase_pure (x : σ) : erase (pure x : Logged α σ) = some x := rfl

@[simp] theorem erase_fail : erase (fail : Logged α σ) = none := rfl

@[simp] theorem erase_tell (l : List α) : erase (tell l) = some () := rfl

@[simp] theorem erase_lift (m : Option σ) : erase (lift m : Logged α σ) = m := by
  cases m <;> rfl

@[simp] theorem erase_bind (m : Logged α σ) (f : σ → Logged α τ) :
    erase (m >>= f) = (erase m).bind fun x => erase (f x) := by
  cases m with
  | none => rfl
  | some p =>
    obtain ⟨x, l⟩ := p
    change Option.map Prod.fst (Option.map _ (f x)) = Option.map Prod.fst (f x)
    cases f x <;> rfl

theorem erase_loop {body : σ → Logged α (σ ⊕ ρ)} {plain : σ → Option (σ ⊕ ρ)}
    (h : ∀ s, erase (body s) = plain s) (n : Nat) (s : σ) :
    erase (loop body n s) = run plain n s := by
  induction n generalizing s with
  | zero => rfl
  | succ n ih =>
    rw [loop, erase_bind, h, run]
    cases plain s with
    | none => rfl
    | some o =>
      cases o with
      | inl t => exact ih t
      | inr r => rfl

theorem erase_foldlM (f : σ → τ → Logged α σ) (l : List τ) (s : σ) :
    erase (l.foldlM f s) = l.foldlM (fun s x => erase (f s x)) s := by
  induction l generalizing s with
  | nil => rfl
  | cons x l ih =>
    rw [List.foldlM_cons, List.foldlM_cons, erase_bind]
    exact congrArg _ (funext ih)

/-- Without its log a computation still gives a result. -/
theorem erase_eq_some {m : Logged α σ} : erase m = some x ↔ ∃ l, m = some (x, l) := by
  constructor
  · intro h
    obtain ⟨⟨y, l⟩, hm, rfl⟩ := Option.map_eq_some_iff.mp h
    exact ⟨l, hm⟩
  · rintro ⟨l, rfl⟩
    rfl

theorem bind_eq_some {m : Logged α σ} {f : σ → Logged α τ} : m >>= f = some (y, l) ↔
    ∃ x l₁ l₂, m = some (x, l₁) ∧ f x = some (y, l₂) ∧ l = l₁ ++ l₂ := by
  constructor
  · intro h
    obtain ⟨⟨x, l₁⟩, hx, h⟩ := Option.bind_eq_some_iff.mp h
    obtain ⟨⟨z, l₂⟩, hz, h⟩ := Option.map_eq_some_iff.mp h
    obtain ⟨rfl, rfl⟩ := Prod.mk.inj h
    exact ⟨x, l₁, l₂, hx, hz, rfl⟩
  · rintro ⟨x, l₁, l₂, hx, hy, rfl⟩
    refine Option.bind_eq_some_iff.mpr ⟨(x, l₁), hx, ?_⟩
    exact Option.map_eq_some_iff.mpr ⟨(y, l₂), hy, rfl⟩

theorem pure_eq_some {x : σ} : (pure x : Logged α σ) = some (y, l) ↔ y = x ∧ l = [] := by
  constructor
  · intro h
    obtain ⟨rfl, rfl⟩ := Prod.mk.inj (Option.some.inj h)
    exact ⟨rfl, rfl⟩
  · rintro ⟨rfl, rfl⟩
    rfl

theorem lift_eq_some {m : Option σ} :
    (lift m : Logged α σ) = some (y, l) ↔ m = some y ∧ l = [] := by
  constructor
  · intro h
    obtain ⟨x, hx, h⟩ := Option.map_eq_some_iff.mp h
    obtain ⟨rfl, rfl⟩ := Prod.mk.inj h
    exact ⟨hx, rfl⟩
  · rintro ⟨rfl, rfl⟩
    rfl

/-- What the passes of a loop keep, with all that has been logged so far. -/
theorem loop_inv {body : σ → Logged α (σ ⊕ ρ)} (I : List α → σ → Prop) (Q : List α → ρ → Prop)
    (hpass : ∀ l s t l', I l s → body s = some (.inl t, l') → I (l ++ l') t)
    (hleave : ∀ l s r l', I l s → body s = some (.inr r, l') → Q (l ++ l') r)
    (hs : I l s) (h : loop body n s = some (r, l')) : Q (l ++ l') r := by
  induction n generalizing l l' s with
  | zero => cases h
  | succ n ih =>
    obtain ⟨o, l₁, l₂, ho, hrest, rfl⟩ := bind_eq_some.mp h
    cases o with
    | inl t =>
      rw [← List.append_assoc]
      exact ih (hpass l s t l₁ hs ho) hrest
    | inr q =>
      obtain ⟨rfl, rfl⟩ := pure_eq_some.mp hrest
      rw [List.append_nil]
      exact hleave l s r l₁ hs ho

theorem foldlM_inv {f : σ → τ → Logged α σ} (I : List τ → List α → σ → Prop)
    (hpass : ∀ x xs l s t l', I (x :: xs) l s → f s x = some (t, l') → I xs (l ++ l') t)
    (xs : List τ) (hs : I xs l s) (h : xs.foldlM f s = some (t, l')) : I [] (l ++ l') t := by
  induction xs generalizing l l' s with
  | nil =>
    obtain ⟨rfl, rfl⟩ := pure_eq_some.mp h
    rwa [List.append_nil]
  | cons x xs ih =>
    rw [List.foldlM_cons] at h
    obtain ⟨u, l₁, l₂, hu, hrest, rfl⟩ := bind_eq_some.mp h
    rw [← List.append_assoc]
    exact ih (hpass x xs l s u l₁ hs hu) hrest

/-- All that is logged satisfies `P`. -/
def Only (P : α → Prop) (m : Logged α σ) : Prop := ∀ x l, m = some (x, l) → ∀ a ∈ l, P a

variable {P : α → Prop}

theorem Only.pure (x : σ) : Only P (pure x : Logged α σ) := by
  intro y l h a ha
  obtain ⟨-, rfl⟩ := pure_eq_some.mp h
  cases ha

theorem Only.fail : Only P (fail : Logged α σ) := by
  intro y l h
  cases h

theorem Only.tell {l : List α} (h : ∀ a ∈ l, P a) : Only P (tell l) := by
  intro x l' hl a ha
  obtain ⟨-, rfl⟩ := Prod.mk.inj (Option.some.inj hl)
  exact h a ha

theorem Only.lift (m : Option σ) : Only P (lift m : Logged α σ) := by
  intro y l h a ha
  obtain ⟨-, rfl⟩ := lift_eq_some.mp h
  cases ha

/-- The second computation starts with what the first one gives. -/
theorem Only.bind {m : Logged α σ} {f : σ → Logged α τ} (hm : Only P m)
    (hf : ∀ x, erase m = some x → Only P (f x)) : Only P (m >>= f) := by
  intro y l h a ha
  obtain ⟨x, l₁, l₂, hx, hy, rfl⟩ := bind_eq_some.mp h
  rcases List.mem_append.mp ha with ha | ha
  · exact hm x l₁ hx a ha
  · exact hf x (erase_eq_some.mpr ⟨l₁, hx⟩) y l₂ hy a ha

theorem Only.loop {body : σ → Logged α (σ ⊕ ρ)} (I : σ → Prop)
    (hbody : ∀ s, I s → Only P (body s))
    (hpass : ∀ s t, I s → erase (body s) = some (.inl t) → I t) (n : Nat) (hs : I s) :
    Only P (loop body n s) := by
  induction n generalizing s with
  | zero => exact Only.fail
  | succ n ih =>
    refine (hbody s hs).bind fun o ho => ?_
    cases o with
    | inl t => exact ih (hpass s t hs ho)
    | inr r => exact Only.pure r

theorem Only.foldlM {f : σ → τ → Logged α σ} (I : List τ → σ → Prop)
    (hf : ∀ x l s, I (x :: l) s → Only P (f s x))
    (hpass : ∀ x l s t, I (x :: l) s → erase (f s x) = some t → I l t) (l : List τ)
    (hs : I l s) : Only P (l.foldlM f s) := by
  induction l generalizing s with
  | nil => exact Only.pure s
  | cons x l ih =>
    rw [List.foldlM_cons]
    exact (hf x l s hs).bind fun t ht => ih (hpass x l s t hs ht)

end Monad

end Oin17.Log
