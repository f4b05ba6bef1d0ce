import Oin17.Tpool.Runs

namespace Oin17.Tpool
open Dialogue Links Function Run

/-- What a run of `redistribute_threads` does: it ends with `s'` and `e'`, and whatever is
found on its way, no pool has more threads than it may, and none has lost one. -/
structure Shares (npools : UInt64) (fuel : Nat) (s : Vars) (e : Flags) (s' : Vars) (e' : Flags) :
    Prop where
  returns : (redistributeThreads npools fuel 0 s).atomic Flags.answer e = some ((), s', e')
  conserved : Conserved npools s' e'
  within : ∀ x ∈ (redistributeThreads npools fuel 0 s).visits Flags.answer e,
    ∀ p, (x.1.pools p).nthreads ≤ (x.1.pools p).max
  gains : ((s, e) :: (redistributeThreads npools fuel 0 s).visits Flags.answer e).Pairwise
    (Gains npools.toNat)

section Stop
variable {npools : UInt64} {s : Vars} {e : Flags} {l : Nat → List Nat}

theorem Sound.shares (h : Sound npools.toNat s e l) (hf : npools.toNat < fuel) :
    ∃ s' e', Shares npools fuel s e s' e' := by
  have halong := along_redistributeThreads h (Nat.zero_le _) (Or.inl hf) fun v hv => by omega
  obtain ⟨⟨⟩, s', e', hrun, hcons, -⟩ := Prog.Along.returns halong
  exact ⟨s', e', hrun, hcons, fun x hx => (halong.goes x hx).most h.most, halong.pairwise⟩

/-- A stop in its three parts. -/
theorem stop_run {id : Int} (hid : 0 ≤ id ∧ id < npools.toNat)
    (hstop : (stopThreads id.toNat (npools.toNat + 1) s).atomic Flags.answer e = some ((), s₁, e₁))
    (hshare : (redistributeThreads npools (npools.toNat + 1) 0 s₁).atomic Flags.answer e₁ =
      some ((), s₂, e₂)) :
    (Call.stop id).run npools (s, e) = some (0, { s₂ with njobs := s₂.njobs - 1 }, e₂) := by
  change (tpoolStop npools id s).atomic Flags.answer e = _
  rw [tpoolStop, if_pos hid]
  refine (Prog.atomic_bind _ _ _ _).trans ?_
  rw [hstop]
  refine (Prog.atomic_bind _ _ _ _).trans ?_
  rw [hshare]
  rfl

end Stop

/-- From any consistent state the idle threads are shared out as far as the pools take
them, and so a stop leaves none that a pool could use. -/
theorem stop_conserves (npools : UInt64) (s : Vars) (e : Flags) (l : Nat → List Nat)
    (h : Sound npools.toNat s e l) :
    (∀ fuel > npools.toNat, ∃ s' e', Shares npools fuel s e s' e') ∧
      ∀ id : Int, 0 ≤ id → id < npools.toNat → ∃ s₁ e₁ s₂ e₂ s' e',
        (stopThreads id.toNat (npools.toNat + 1) s).atomic Flags.answer e = some ((), s₁, e₁) ∧
        (s₁.pools id.toNat).threads = none ∧
        Shares npools (npools.toNat + 1) s₁ e₁ s₂ e₂ ∧
        (Call.stop id).run npools (s, e) = some (0, s', e') ∧ Conserved npools s' e' := by
  refine ⟨fun fuel hf => h.shares hf, fun id hpos hlt => ?_⟩
  have hlen : (l id.toNat).length < npools.toNat + 1 := Nat.lt_succ_of_le (h.length_le id.toNat)
  obtain ⟨⟨⟩, s₁, e₁, hstop, hs₁, -⟩ := Prog.Sat.returns (sat_stopThreads h hlen)
  obtain ⟨s₂, e₂, hshare⟩ := hs₁.shares (Nat.lt_succ_self _)
  have hnone : (s₁.pools id.toNat).threads = none :=
    (hs₁.empty_iff id.toNat).mpr (update_self _ _ _)
  exact ⟨s₁, e₁, s₂, e₂, _, e₂, hstop, hnone, hshare, stop_run ⟨hpos, hlt⟩ hstop hshare.returns,
    hshare.conserved⟩

/-- The second pool gets the thread of the first one. -/
theorem stop_conserves_two : ∃ s e s' e',
    exec (step 2) init [.start 1 0 0, .start 2 0 0] = some (s, e) ∧
      (Call.stop 0).run 2 (s, e) = some (0, s', e') ∧ Conserved 2 s' e' := by
  obtain ⟨⟨s, e⟩, h⟩ : ∃ s, exec (step 2) init [.start 1 0 0, .start 2 0 0] = some s := ⟨_, rfl⟩
  obtain ⟨l, hl⟩ := run_sound h
  obtain ⟨s₁, e₁, s₂, e₂, s', e', -, -, -, hrun, hcons⟩ :=
    (stop_conserves 2 s e l hl).2 0 (Int.le_refl 0) (by decide)
  exact ⟨s, e, s', e', h, hrun, hcons⟩

end Oin17.Tpool
