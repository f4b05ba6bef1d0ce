import Oin17.Tpool.Runs

namespace Oin17.Tpool
open Dialogue Links Function Run

/-- The running threads of a pool. -/
def members (npools : UInt64) (s : Vars × Flags) (p : Nat) : List Nat :=
  (List.range npools.toNat).filter fun t => s.2.running t && decide (s.1.pool t = some p)

/-- Where the threads of a new pool come from: they were idle, or none was and one is
taken from a pool that has more. -/
def FairSource (npools : UInt64) (s s' : Vars × Flags) (id : Nat) : Prop :=
  (∀ t ∈ members npools s' id, s.2.running t = false) ∨
    (∀ t < npools.toNat, s.2.running t = true) ∧
      ∃ q t, 1 < (members npools s q).length ∧ t ∈ members npools s q ∧ members npools s' id = [t]

/-- What a start is for: it returns, with an identifier whose pool has threads, or
because every pool has one already. -/
def Serves (npools : UInt64) (s : Vars × Flags) : Call → Prop
  | .start max func arg => ∃ r s', (Call.start max func arg).run npools s = some (r, s') ∧
      (r = -1 ∧ (∀ p < npools.toNat, members npools s p ≠ []) ∨
        ∃ id < npools.toNat, r = (id : Int) ∧ 1 ≤ (members npools s' id).length ∧
          (members npools s' id).length ≤ max ∧ FairSource npools s s' id)
  | .stop _ => True

/-- No pool is free, or some thread is idle and the count of jobs is not that of the pools. -/
def Room (npools : UInt64) (s : Vars × Flags) : Call → Prop
  | .start _ _ _ => (∀ p < npools.toNat, (s.1.pools p).threads ≠ none) ∨
      s.1.njobs ≠ npools ∧ ∃ t < npools.toNat, s.2.running t = false
  | .stop _ => True

/-- The starts that ask for a thread. -/
def Call.Asks : Call → Prop
  | .start max _ _ => 1 ≤ max
  | .stop _ => True

section Members
variable {npools : UInt64} {s s' : Vars × Flags} {l : Nat → List Nat}

theorem Sound.members_perm (h : Sound npools.toNat s.1 s.2 l) (p : Nat) :
    (members npools s p).Perm (l p) := by
  refine (List.perm_ext_iff_of_nodup (List.nodup_range.filter _) (h.chain p).nodup).mpr fun t => ?_
  rw [h.mem p t, List.mem_filter, List.mem_range, Bool.and_eq_true, decide_eq_true_eq]
  exact ⟨fun ht => ht.2, fun ht => ⟨(h.owned t ht.1).1, ht⟩⟩

theorem Sound.members_nil (h : Sound npools.toNat s.1 s.2 l) (p : Nat) :
    members npools s p = [] ↔ l p = [] := by
  rw [← List.length_eq_zero_iff, (h.members_perm p).length_eq, List.length_eq_zero_iff]

/-- A start serves exactly when it neither steals nor runs out of idle threads. -/
theorem serves_iff (h : Sound npools.toNat s.1 s.2 l) {c : Call} (hc : c.Asks) :
    Serves npools s c ↔ Room npools s c := by
  cases c with
  | stop id => exact Iff.rfl
  | start max func arg =>
    have hmax : max ≠ 0 := Nat.one_le_iff_ne_zero.mp hc
    have hsat := sat_tpoolStart h max func arg
    constructor
    · rintro ⟨r, s', hrun, hr⟩
      rcases Prog.Sat.atomic hsat hrun with ⟨-, -, -, hfull⟩ | ⟨p, hp, hrp, -, l', hs'⟩
      · exact Or.inl fun p hp hnone => hfull p hp ((h.empty_iff p).mp hnone)
      · right
        apply (hs'.gets hmax).mp
        rcases hr with ⟨hr, -⟩ | ⟨id, -, hr, hsome, -⟩
        · omega
        · obtain rfl : id = p := by omega
          rw [(hs'.sound.members_perm (s := s') id).length_eq] at hsome
          exact List.ne_nil_of_length_pos hsome
    · intro hroom
      have hno : ¬ (s.1.njobs = npools ∧ ∃ p < npools.toNat, l p = []) := by
        rintro ⟨hn, p, hp, hl⟩
        rcases hroom with hfull | hroom
        · exact hfull p hp ((h.empty_iff p).mpr hl)
        · exact hroom.1 hn
      obtain ⟨r, s', e', hrun, hr⟩ := Prog.Sat.returns (hsat.weaken hno)
      refine ⟨r, (s', e'), hrun, ?_⟩
      rcases hr with ⟨hr, -, -, hfull⟩ | ⟨p, hp, hr, hl, l', hs'⟩
      · exact Or.inl ⟨hr, fun p hp hm => hfull p hp ((h.members_nil p).mp hm)⟩
      · have hidle : s.1.njobs ≠ npools ∧ ∃ t < npools.toNat, s.2.running t = false :=
          hroom.resolve_left fun hfull => hfull p hp ((h.empty_iff p).mpr hl)
        have hperm := hs'.sound.members_perm (s := (s', e')) p
        refine Or.inr ⟨p, hp, hr, ?_, ?_, Or.inl fun t ht => hs'.idle t (hperm.mem_iff.mp ht)⟩
        · rw [hperm.length_eq]
          exact List.length_pos_of_ne_nil ((hs'.gets hmax).mpr hidle)
        · have hmost := hs'.sound.most p
          rw [hs'.limits p, if_pos rfl] at hmost
          rw [hperm.length_eq, hs'.sound.length]
          exact hmost

end Members

/-- The starts of a run all serve exactly when there is room for each of them. -/
theorem starts_serve_iff (npools : UInt64) (cs : List Call) (hcs : ∀ c ∈ cs, c.Asks) :
    Each (step npools) (Serves npools) init cs ↔ Each (step npools) (Room npools) init cs := by
  apply each_congr (fun s => ∃ l, Sound npools.toNat s.1 s.2 l) Call.Asks
  · rintro s c s' ⟨l, hl⟩ hs
    exact step_sound hl hs
  · rintro s c ⟨l, hl⟩ hc
    exact serves_iff hl hc
  · exact ⟨_, init_sound npools.toNat⟩
  · exact hcs

theorem first_start_serves : Each (step 2) (Serves 2) init [.start 2 0 0] := by
  refine (starts_serve_iff 2 [.start 2 0 0] ?_).mpr ⟨Or.inr ⟨by decide, 0, by decide, rfl⟩, ?_⟩
  · intro c hc
    obtain rfl := List.mem_singleton.mp hc
    exact Nat.le_succ 1
  · exact fun _ _ => trivial

/-- With both threads given to the first pool, the second one gets none. -/
theorem second_start_unserved :
    ¬ Each (step 2) (Serves 2) init [.start 2 0 0, .start 1 0 0] := by
  rintro ⟨-, h⟩
  obtain ⟨⟨r, s', hrun, hr⟩, -⟩ := h _ rfl
  obtain ⟨rfl, hnone⟩ : r = 1 ∧ members 2 s' 1 = [] := by
    cases hrun
    decide
  rcases hr with ⟨hr, -⟩ | ⟨id, -, hid, hsome, -⟩
  · cases hr
  · obtain rfl : id = 1 := by omega
    rw [hnone] at hsome
    cases hsome

end Oin17.Tpool
