import Mathlib.Data.Finset.Card
import Oin17.Tpool.Runs

namespace Oin17.Tpool
open Dialogue Links Function Run

/-- The pools that have a thread, of which `njobs` is to be the count. -/
def activePools (npools : UInt64) (s : Vars) : Finset Nat :=
  (Finset.range npools.toNat).filter fun p => (s.pools p).nthreads ≠ 0

def freePools (npools : UInt64) (s : Vars) : Finset Nat :=
  (Finset.range npools.toNat).filter fun p => (s.pools p).nthreads = 0

/-- `njobs` counts the pools that have a thread, and the rest is what `__start` takes it
for, so that it assigns threads exactly if some pool is free. -/
structure Counted (npools : UInt64) (s : Vars × Flags) : Prop where
  njobs : s.1.njobs.toNat = (activePools npools s.1).card
  le : s.1.njobs ≤ npools
  free : (npools - s.1.njobs).toNat = (freePools npools s.1).card

/-- A start that finds a free pool gives it a thread, and a stop finds one to take. -/
def Balanced (npools : UInt64) (s : Vars × Flags) : Call → Prop
  | .start max _ _ => (∀ p < npools.toNat, (s.1.pools p).nthreads ≠ 0) ∨
      1 ≤ max ∧ ∃ t < npools.toNat, s.2.running t = false
  | .stop id => 0 ≤ id → id < npools.toNat → (s.1.pools id.toNat).nthreads ≠ 0

section Count
variable {npools : UInt64} {p max id : Nat} {s s' : Vars × Flags} {l l' : Nat → List Nat}

theorem Sound.nthreads_iff (h : Sound npools.toNat s.1 s.2 l) (p : Nat) :
    (s.1.pools p).nthreads = 0 ↔ l p = [] := by
  rw [← h.length p, List.length_eq_zero_iff]

theorem mem_activePools (h : Sound npools.toNat s.1 s.2 l) (p : Nat) :
    p ∈ activePools npools s.1 ↔ p < npools.toNat ∧ l p ≠ [] := by
  rw [activePools, Finset.mem_filter, Finset.mem_range, ne_eq, h.nthreads_iff p]

theorem activePools_card_le (npools : UInt64) (s : Vars) :
    (activePools npools s).card ≤ npools.toNat := by
  have hle := Finset.card_filter_le (Finset.range npools.toNat) fun p => (s.pools p).nthreads ≠ 0
  rwa [Finset.card_range] at hle

theorem activePools_lt (h : p < npools.toNat) (s : Vars) (hp : (s.pools p).nthreads = 0) :
    (activePools npools s).card < npools.toNat := by
  have hss : activePools npools s ⊂ Finset.range npools.toNat := by
    refine Finset.filter_ssubset.mpr ⟨p, Finset.mem_range.mpr h, ?_⟩
    exact fun hne => hne hp
  have hlt := Finset.card_lt_card hss
  rwa [Finset.card_range] at hlt

theorem freePools_card (npools : UInt64) (s : Vars) :
    (freePools npools s).card + (activePools npools s).card = npools.toNat := by
  have h := Finset.card_filter_add_card_filter_not (s := Finset.range npools.toNat)
    fun p => (s.pools p).nthreads = 0
  rwa [Finset.card_range] at h

/-- The rest follows from the count. -/
theorem Counted.of_njobs (h : s.1.njobs.toNat = (activePools npools s.1).card) :
    Counted npools s := by
  have hle : s.1.njobs ≤ npools := by
    rw [UInt64.le_iff_toNat_le, h]
    exact activePools_card_le npools s.1
  refine ⟨h, hle, ?_⟩
  have hfree := freePools_card npools s.1
  rw [UInt64.toNat_sub_of_le _ _ hle, h]
  omega

/-- A start makes its pool active if it gets a thread. -/
theorem Started.activePools (h : Sound npools.toNat s.1 s.2 l) (hp : p < npools.toNat)
    (hl : l p = []) (hs : Started npools s.1 s.2 l p max s'.1 s'.2 l') :
    Tpool.activePools npools s'.1 = if l' p = [] then Tpool.activePools npools s.1
      else insert p (Tpool.activePools npools s.1) := by
  ext q
  by_cases hq : q = p
  · subst hq
    rw [mem_activePools hs.sound, and_iff_right hp]
    split
    · next hnone => simp [mem_activePools h, hnone, hl]
    · next hsome => simp [hsome]
  · have hold : q ∈ Tpool.activePools npools s'.1 ↔ q ∈ Tpool.activePools npools s.1 := by
      rw [mem_activePools hs.sound, mem_activePools h, hs.others q hq]
    split
    · exact hold
    · rw [Finset.mem_insert, or_iff_right hq, hold]

/-- A stop leaves the other pools as active as they were. -/
theorem Stopped.activePools (h : Sound npools.toNat s.1 s.2 l)
    (hs : Stopped npools s.1 l id s'.1 s'.2 l') :
    Tpool.activePools npools s'.1 = (Tpool.activePools npools s.1).erase id := by
  ext q
  rw [Finset.mem_erase, mem_activePools hs.sound, mem_activePools h]
  by_cases hq : q = id
  · rw [hq, hs.stopped]
    simp
  · obtain ⟨hsuf, hempty⟩ := hs.others q hq
    have hiff : l' q = [] ↔ l q = [] :=
      ⟨fun hl => List.suffix_nil.mp (hl ▸ hsuf), hempty⟩
    rw [and_iff_right hq, ne_eq, ne_eq, hiff]

theorem not_counted (h : Counted npools s) (hne : s'.1.njobs ≠ s.1.njobs)
    (hcard : (activePools npools s'.1).card = (activePools npools s.1).card) :
    ¬ Counted npools s' := by
  intro h'
  have heq := h'.njobs
  rw [hcard, ← h.njobs] at heq
  exact hne (UInt64.toNat_inj.mp heq)

/-- With a right count, a free pool leaves room for a job. -/
theorem Counted.room (hc : Counted npools s) (hp : p < npools.toNat)
    (hnone : (s.1.pools p).nthreads = 0) : s.1.njobs ≠ npools := by
  intro hn
  have hlt := activePools_lt hp s.1 hnone
  rw [← hc.njobs, hn] at hlt
  exact Nat.lt_irrefl _ hlt

theorem Counted.returns (h : Sound npools.toNat s.1 s.2 l) (hc : Counted npools s) (c : Call) :
    ∃ s', step npools s c = some s' := by
  cases c with
  | start max func arg =>
    have hno : ¬ (s.1.njobs = npools ∧ ∃ p < npools.toNat, l p = []) :=
      fun ⟨hn, p, hp, hl⟩ => hc.room hp ((h.nthreads_iff p).mpr hl) hn
    obtain ⟨r, s', e', hrun, -⟩ := Prog.Sat.returns ((sat_tpoolStart h max func arg).weaken hno)
    exact ⟨(s', e'), congrArg (Option.map Prod.snd) hrun⟩
  | stop id =>
    obtain ⟨r, s', e', hrun, -⟩ := Prog.Sat.returns (sat_tpoolStop h id)
    exact ⟨(s', e'), congrArg (Option.map Prod.snd) hrun⟩

theorem Started.gets_iff {v : Vars} {e : Flags} (hroom : s.1.njobs ≠ npools)
    (hs : Started npools s.1 s.2 l p max v e l') :
    l' p ≠ [] ↔ 1 ≤ max ∧ ∃ t < npools.toNat, s.2.running t = false := by
  by_cases hmax : max = 0
  · have hmost := hs.sound.most p
    rw [hs.limits p, if_pos rfl, hmax, ← hs.sound.length p] at hmost
    have hnone : l' p = [] := List.length_eq_zero_iff.mp (Nat.le_zero.mp hmost)
    exact iff_of_false (fun hne => hne hnone) fun hpos => by omega
  · rw [hs.gets hmax, and_iff_right hroom, and_iff_right (Nat.one_le_iff_ne_zero.mpr hmax)]

/-- A start leaves the count right exactly if the new pool gets a thread. -/
theorem counted_start_iff (h : Sound npools.toNat s.1 s.2 l) (hc : Counted npools s)
    (hp : p < npools.toNat) (hl : l p = [])
    (hs : Started npools s.1 s.2 l p max s'.1 s'.2 l') : Counted npools s' ↔ l' p ≠ [] := by
  have hact := hs.activePools h hp hl
  by_cases hnone : l' p = []
  · rw [if_pos hnone] at hact
    refine iff_of_false (not_counted hc ?_ (congrArg Finset.card hact)) fun hne => hne hnone
    rw [hs.njobs]
    simp
  · rw [if_neg hnone] at hact
    have hout : p ∉ activePools npools s.1 := fun hm => ((mem_activePools h p).mp hm).2 hl
    have hlt := activePools_lt hp s.1 ((h.nthreads_iff p).mpr hl)
    have hbig := npools.toNat_lt
    refine iff_of_true (.of_njobs ?_) hnone
    rw [hs.njobs, hact, Finset.card_insert_of_notMem hout, UInt64.toNat_add, hc.njobs,
      UInt64.toNat_one]
    exact Nat.mod_eq_of_lt (by omega)

theorem counted_stop_iff (h : Sound npools.toNat s.1 s.2 l) (hc : Counted npools s)
    (hid : id < npools.toNat) (hs : Stopped npools s.1 l id s'.1 s'.2 l') :
    Counted npools s' ↔ (s.1.pools id).nthreads ≠ 0 := by
  have hact := hs.activePools h
  by_cases hm : id ∈ activePools npools s.1
  · have hpos := Finset.card_pos.mpr ⟨id, hm⟩
    refine iff_of_true (.of_njobs ?_) (Finset.mem_filter.mp hm).2
    have hone : (1 : UInt64) ≤ s.1.njobs := by
      rw [UInt64.le_iff_toNat_le, hc.njobs]
      exact hpos
    rw [hs.njobs, hact, Finset.card_erase_of_mem hm, UInt64.toNat_sub_of_le _ _ hone, hc.njobs]
    rfl
  · have hnone : ¬ (s.1.pools id).nthreads ≠ 0 :=
      fun hne => hm (Finset.mem_filter.mpr ⟨Finset.mem_range.mpr hid, hne⟩)
    refine iff_of_false (not_counted hc ?_ ?_) hnone
    · rw [hs.njobs]
      grind
    · rw [hact, Finset.erase_eq_of_notMem hm]

/-- A call keeps the count right exactly if it is balanced. -/
theorem counted_step_iff (h : Sound npools.toNat s.1 s.2 l) (hc : Counted npools s) {c : Call}
    (hs : step npools s c = some s') : Counted npools s' ↔ Balanced npools s c := by
  obtain ⟨⟨r, s', e'⟩, hrun, rfl⟩ := Option.map_eq_some_iff.mp hs
  cases c with
  | start max func arg =>
    rcases Prog.Sat.atomic (sat_tpoolStart h max func arg) hrun with
      ⟨-, rfl, rfl, hfull⟩ | ⟨p, hp, -, hl, l', hs'⟩
    · refine iff_of_true hc (Or.inl fun p hp hn => hfull p hp ?_)
      exact (h.nthreads_iff p).mp hn
    · have hnone := (h.nthreads_iff p).mpr hl
      have hiff : Counted npools (s', e') ↔ l' p ≠ [] := counted_start_iff h hc hp hl hs'
      rw [hiff, hs'.gets_iff (hc.room hp hnone)]
      exact (or_iff_right fun hfull => hfull p hp hnone).symm
  | stop id =>
    rcases Prog.Sat.atomic (sat_tpoolStop h id) hrun with
      ⟨-, rfl, rfl, hbad⟩ | ⟨-, hpos, hlt, l', hs'⟩
    · exact iff_of_true hc fun hpos hlt => by omega
    · have hiff : Counted npools (s', e') ↔ (s.1.pools id.toNat).nthreads ≠ 0 :=
        counted_stop_iff h hc (by omega) hs'
      rw [hiff]
      exact ⟨fun hne _ _ => hne, fun hb => hb hpos hlt⟩

end Count

/-- The count stays right as long as no start leaves its pool without a thread and no stop
is of such a pool, and then every call returns. -/
theorem njobs_counts (npools : UInt64) (cs : List Call) :
    (Always (step npools) (Counted npools) init cs ↔
        Steps (step npools) (Balanced npools) init cs) ∧
      (Steps (step npools) (Balanced npools) init cs →
        ∃ s, exec (step npools) init cs = some s) := by
  let I : Vars × Flags → Prop := fun s => (∃ l, Sound npools.toNat s.1 s.2 l) ∧ Counted npools s
  have hinit : I init := by
    refine ⟨⟨_, init_sound npools.toNat⟩, .of_njobs ?_⟩
    simp [activePools, init]
  have hkeep : ∀ s c s', I s → step npools s c = some s' → Balanced npools s c → I s' := by
    rintro s c s' ⟨⟨l, hl⟩, hc⟩ hs hb
    exact ⟨step_sound hl hs, (counted_step_iff hl hc hs).mpr hb⟩
  constructor
  · apply always_iff_steps I (Counted npools) (Balanced npools) hkeep
    · exact fun _ h => h.2
    · rintro s c s' ⟨⟨l, hl⟩, hc⟩ hs hb hc'
      exact hb ((counted_step_iff hl hc hs).mp hc')
    · exact hinit
  · intro h
    apply steps_exec I (Balanced npools) hkeep _ hinit h
    rintro s c ⟨⟨l, hl⟩, hc⟩
    exact hc.returns hl c

theorem njobs_counts_two :
    Always (step 2) (Counted 2) init [.start 1 0 0, .start 1 0 0, .stop 1] := by
  refine (njobs_counts 2 _).1.mpr ?_
  refine (steps_cons_iff rfl).mpr ⟨Or.inr ⟨Nat.le_refl 1, 0, by decide, rfl⟩, ?_⟩
  refine (steps_cons_iff rfl).mpr ⟨Or.inr ⟨Nat.le_refl 1, 1, by decide, rfl⟩, ?_⟩
  exact (steps_cons_iff rfl).mpr ⟨fun _ _ => Nat.one_ne_zero, trivial⟩

/-- The stop of a pool that was not started, and a start that is given no thread. -/
theorem njobs_drifts : ¬ Always (step 2) (Counted 2) init [.stop 0] ∧
    ¬ Always (step 2) (Counted 2) init [.start 2 0 0, .start 1 0 0] := by
  constructor
  · intro h
    have hc := (h.last rfl).njobs
    revert hc
    decide
  · intro h
    have hc := (h.last rfl).njobs
    revert hc
    decide

end Oin17.Tpool
