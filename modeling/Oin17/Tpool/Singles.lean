import Oin17.Tpool.Jobs
import Oin17.Tpool.Starts

namespace Oin17.Tpool
open Dialogue Links Function Run

/-- The calls, with the pools that were started and not stopped since. -/
def track (npools : UInt64) (s : (Vars × Flags) × Finset Nat) (c : Call) :
    Option ((Vars × Flags) × Finset Nat) :=
  (c.run npools s.1).map fun (r, s') => (s', match c with
    | .start _ _ _ => if 0 ≤ r then insert r.toNat s.2 else s.2
    | .stop id => s.2.erase id.toNat)

/-- How the program uses the module: it asks for one thread and stops what is active. -/
def Usage (s : (Vars × Flags) × Finset Nat) : Call → Prop
  | .start max _ _ => max = 1
  | .stop id => 0 ≤ id ∧ id.toNat ∈ s.2

/-- What a call does for pools of one thread, with `active` the active ones before it. -/
def Outcome (npools : UInt64) (s s' : Vars × Flags) (active : Finset Nat) (r : Int) : Call → Prop
  | .start _ _ _ => (0 ≤ r ↔ active.card < npools.toNat) ∧
      (0 ≤ r → r.toNat ∉ active ∧ ∃ t, members npools s' r.toNat = [t]) ∧
      ∀ p ∈ active, members npools s' p = members npools s p
  | .stop id => r = 0 ∧ ∀ p ∈ active, p ≠ id.toNat → members npools s' p = members npools s p

/-- The active pools have one thread each, and `njobs` counts them. -/
structure Single (npools : UInt64) (s : Vars × Flags) (active : Finset Nat) (l : Nat → List Nat) :
    Prop where
  sound : Sound npools.toNat s.1 s.2 l
  mem : ∀ p, p ∈ active ↔ l p ≠ []
  one : ∀ p ∈ active, (s.1.pools p).max = 1
  njobs : s.1.njobs = UInt64.ofNat active.card

section Singles
variable {npools : UInt64} {s s' : Vars × Flags} {active : Finset Nat} {l l' : Nat → List Nat}

theorem Single.lt (h : Single npools s active l) (hp : p ∈ active) : p < npools.toNat := by
  obtain ⟨t, ht⟩ := List.exists_mem_of_ne_nil _ ((h.mem p).mp hp)
  obtain ⟨hrun, hpool⟩ := (h.sound.mem p t).mp ht
  obtain ⟨-, q, hq, hs⟩ := h.sound.owned t hrun
  rw [hpool] at hs
  exact Option.some.inj hs ▸ hq

theorem Single.active_eq (h : Single npools s active l) : active = activePools npools s.1 := by
  ext p
  rw [mem_activePools h.sound, h.mem p]
  exact ⟨fun hp => ⟨h.lt ((h.mem p).mpr hp), hp⟩, fun hp => hp.2⟩

theorem Single.njobs_toNat (h : Single npools s active l) : s.1.njobs.toNat = active.card := by
  have hle := activePools_card_le npools s.1
  rw [← h.active_eq] at hle
  rw [h.njobs]
  exact UInt64.toNat_ofNat_of_lt' (Nat.lt_of_le_of_lt hle npools.toNat_lt)

theorem Single.card_lt (h : Single npools s active l) (hp : p < npools.toNat) (hl : l p = []) :
    active.card < npools.toNat := by
  rw [h.active_eq]
  exact activePools_lt hp s.1 ((h.sound.nthreads_iff p).mpr hl)

theorem Single.room (h : Single npools s active l) (hc : active.card < npools.toNat) :
    s.1.njobs ≠ npools := by
  intro he
  have := h.njobs_toNat
  rw [he] at this
  omega

theorem Single.length (h : Single npools s active l) (hp : p ∈ active) : (l p).length = 1 := by
  have hpos := List.length_pos_of_ne_nil ((h.mem p).mp hp)
  have hmost := h.sound.most p
  rw [h.one p hp, ← h.sound.length p] at hmost
  omega

/-- A pool that is not active leaves a thread idle. -/
theorem Single.exists_idle (h : Single npools s active l) (hc : active.card < npools.toNat) :
    ∃ t < npools.toNat, s.2.running t = false := by
  by_contra hno
  have hrun : ∀ t < npools.toNat, s.2.running t = true :=
    fun t ht => Bool.of_not_eq_false fun hf => hno ⟨t, ht, hf⟩
  have hmem : ∀ t ∈ Finset.range npools.toNat, t ∈ l ((s.1.pool t).getD 0) := by
    intro t ht
    obtain ⟨p, -, hm⟩ := h.sound.listed (hrun t (Finset.mem_range.mp ht))
    rw [((h.sound.mem p t).mp hm).2]
    exact hm
  have hin : ∀ t ∈ Finset.range npools.toNat, (s.1.pool t).getD 0 ∈ active :=
    fun t ht => (h.mem _).mpr (List.ne_nil_of_mem (hmem t ht))
  have hinj : ∀ t ∈ Finset.range npools.toNat, ∀ u ∈ Finset.range npools.toNat,
      (s.1.pool t).getD 0 = (s.1.pool u).getD 0 → t = u := by
    intro t ht u hu he
    obtain ⟨v, hv⟩ := List.length_eq_one_iff.mp (h.length (hin t ht))
    have htv := hmem t ht
    have huv := hmem u hu
    rw [← he] at huv
    rw [hv] at htv huv
    rw [List.mem_singleton.mp htv, List.mem_singleton.mp huv]
  have := Finset.card_le_card_of_injOn (fun t => (s.1.pool t).getD 0) hin
    (fun t ht u hu he => hinj t ht u hu he)
  rw [Finset.card_range] at this
  omega

theorem members_congr (h : Sound npools.toNat s.1 s.2 l) (h' : Sound npools.toNat s'.1 s'.2 l')
    (hl : l' p = l p) : members npools s' p = members npools s p := by
  refine List.filter_congr fun t _ => ?_
  rw [Bool.eq_iff_iff]
  simp only [Bool.and_eq_true, decide_eq_true_eq]
  rw [← h.mem, ← h'.mem, hl]

theorem Single.members (h : Single npools s active l) (hp : p ∈ active) :
    ∃ t, members npools s p = [t] := by
  have hlen := (h.sound.members_perm p).length_eq
  rw [h.length hp] at hlen
  exact List.length_eq_one_iff.mp hlen

theorem Single.start (h : Single npools s active l) (func arg : Addr) :
    ∃ r s', (Call.start 1 func arg).run npools s = some (r, s') ∧
      Outcome npools s s' active r (.start 1 func arg) ∧
      ∃ l', Single npools s' (if 0 ≤ r then insert r.toNat active else active) l' ∧
        ∀ q : Nat, (q : Int) ≠ r → l' q = l q := by
  have hno : ¬ (s.1.njobs = npools ∧ ∃ p < npools.toNat, l p = []) :=
    fun ⟨hn, p, hp, hl⟩ => h.room (h.card_lt hp hl) hn
  obtain ⟨r, s', e', hrun, hr⟩ :=
    Prog.Sat.returns ((sat_tpoolStart h.sound 1 func arg).weaken hno)
  refine ⟨r, (s', e'), hrun, ?_⟩
  rcases hr with ⟨rfl, rfl, rfl, hfull⟩ | ⟨p, hp, rfl, hl, l', hs'⟩
  · have hcard : npools.toNat ≤ active.card := by
      have : Finset.range npools.toNat ⊆ active :=
        fun p hp => (h.mem p).mpr (hfull p (Finset.mem_range.mp hp))
      have := Finset.card_le_card this
      rwa [Finset.card_range] at this
    refine ⟨⟨⟨fun h0 => by omega, fun hlt => by omega⟩, fun h0 => by omega, fun _ _ => rfl⟩, l, ?_⟩
    exact ⟨h, fun _ _ => rfl⟩
  · have hlt := h.card_lt hp hl
    have hout : p ∉ active := fun hm => (h.mem p).mp hm hl
    have hin : ∀ q ∈ active, q ≠ p := fun q hq he => hout (he ▸ hq)
    have hsome : l' p ≠ [] := (hs'.gets Nat.one_ne_zero).mpr ⟨h.room hlt, h.exists_idle hlt⟩
    have hsingle : Single npools (s', e') (insert p active) l' := by
      refine ⟨hs'.sound, fun q => ?_, fun q hq => ?_, ?_⟩
      · by_cases hq : q = p
        · subst hq
          exact ⟨fun _ => hsome, fun _ => Finset.mem_insert_self q active⟩
        · rw [Finset.mem_insert, or_iff_right hq, h.mem, hs'.others q hq]
      · rw [hs'.limits q]
        split
        · rfl
        · next hne => exact h.one q (Finset.mem_of_mem_insert_of_ne hq hne)
      · rw [hs'.njobs, h.njobs, Finset.card_insert_of_notMem hout, UInt64.ofNat_add]
        rfl
    have hpos : (0 : Int) ≤ p := Int.natCast_nonneg p
    refine ⟨⟨⟨fun _ => hlt, fun _ => hpos⟩, fun _ => ⟨hout, ?_⟩, fun q hq => ?_⟩, l', ?_⟩
    · exact hsingle.members (Finset.mem_insert_self p active)
    · exact members_congr h.sound hs'.sound (hs'.others q (hin q hq))
    · rw [if_pos hpos]
      exact ⟨hsingle, fun q hq => hs'.others q fun he => hq (congrArg Nat.cast he)⟩

theorem Single.stop (h : Single npools s active l) {id : Int} (hpos : 0 ≤ id)
    (hid : id.toNat ∈ active) : ∃ r s', (Call.stop id).run npools s = some (r, s') ∧
      Outcome npools s s' active r (.stop id) ∧
      ∃ l', Single npools s' (active.erase id.toNat) l' ∧ ∀ q, q ≠ id.toNat → l' q = l q := by
  obtain ⟨r, s', e', hrun, hr⟩ := Prog.Sat.returns (sat_tpoolStop h.sound id)
  refine ⟨r, (s', e'), hrun, ?_⟩
  have hlt := h.lt hid
  rcases hr with ⟨-, -, -, hbad⟩ | ⟨rfl, -, -, l', hs'⟩
  · omega
  · have hsame : ∀ q, q ≠ id.toNat → l' q = l q := by
      intro q hq
      obtain ⟨hsuf, hempty⟩ := hs'.others q hq
      by_cases hm : q ∈ active
      · have hmost := hs'.sound.most q
        rw [hs'.limits q, h.one q hm, ← hs'.sound.length q] at hmost
        have hone := h.length hm
        exact (hsuf.eq_of_length_le (by omega)).symm
      · have hl : l q = [] := not_not.mp fun hne => hm ((h.mem q).mpr hne)
        rw [hempty hl, hl]
    have hcard : 1 ≤ active.card := Finset.card_pos.mpr ⟨id.toNat, hid⟩
    refine ⟨⟨rfl, fun q _ hq => members_congr h.sound hs'.sound (hsame q hq)⟩, l', ⟨hs'.sound,
      fun q => ?_, fun q hq => ?_, ?_⟩, hsame⟩
    · by_cases hq : q = id.toNat
      · rw [hq, hs'.stopped]
        simp
      · rw [Finset.mem_erase, and_iff_right hq, h.mem, hsame q hq]
    · rw [hs'.limits q]
      exact h.one q (Finset.mem_of_mem_erase hq)
    · rw [hs'.njobs, h.njobs, Finset.card_erase_of_mem hid, UInt64.ofNat_sub hcard]
      rfl

theorem Single.step (h : Single npools s active l) {c : Call} (hc : Usage (s, active) c)
    (ht : track npools (s, active) c = some (s', active')) : ∃ l', Single npools s' active' l' := by
  obtain ⟨⟨r, s''⟩, hrun, he⟩ := Option.map_eq_some_iff.mp ht
  obtain ⟨rfl, rfl⟩ := Prod.mk.inj he
  cases c with
  | start max func arg =>
    obtain rfl : max = 1 := hc
    obtain ⟨r', s', hrun', -, l', hl', -⟩ := h.start func arg
    obtain ⟨rfl, rfl⟩ := Prod.mk.inj (Option.some.inj (hrun.symm.trans hrun'))
    exact ⟨l', hl'⟩
  | stop id =>
    obtain ⟨r', s', hrun', -, l', hl', -⟩ := h.stop hc.1 hc.2
    obtain ⟨rfl, rfl⟩ := Prod.mk.inj (Option.some.inj (hrun.symm.trans hrun'))
    exact ⟨l', hl'⟩

theorem run_single (h : Single npools s active l)
    (hu : Each (track npools) Usage (s, active) cs)
    (he : exec (track npools) (s, active) cs = some (s', active')) :
    ∃ l', Single npools s' active' l' := by
  induction cs generalizing s active l with
  | nil =>
    obtain ⟨rfl, rfl⟩ := Prod.mk.inj (Option.some.inj he)
    exact ⟨l, h⟩
  | cons c cs ih =>
    obtain ⟨⟨u, a⟩, ht, he⟩ := Option.bind_eq_some_iff.mp he
    obtain ⟨l', hl'⟩ := h.step hu.1 ht
    exact ih hl' (hu.2 _ ht) he

end Singles

/-- With one thread for each start and stops of active pools only, a start succeeds while
some pool is free, and no call changes the thread of another pool. -/
theorem single_threads (npools : UInt64) (cs : List Call) (s : Vars × Flags)
    (active : Finset Nat) (hu : Each (track npools) Usage (init, ∅) cs)
    (he : exec (track npools) (init, ∅) cs = some (s, active)) :
    s.1.njobs.toNat = active.card ∧ (∀ p ∈ active, ∃ t, members npools s p = [t]) ∧
      ((∃ p < npools.toNat, (s.1.pools p).threads = none) → s.1.njobs ≠ npools) ∧
      ∀ c, Usage (s, active) c → ∃ r s', c.run npools s = some (r, s') ∧
        Outcome npools s s' active r c := by
  have hinit : Single npools init ∅ fun _ => [] :=
    ⟨init_sound npools.toNat, fun p => by simp, fun p hp => by simp at hp, rfl⟩
  obtain ⟨l, h⟩ := run_single hinit hu he
  refine ⟨h.njobs_toNat, fun p hp => h.members hp, fun ⟨p, hp, hnone⟩ => ?_, fun c hc => ?_⟩
  · exact h.room (h.card_lt hp ((h.sound.empty_iff p).mp hnone))
  · cases c with
    | start max func arg =>
      obtain rfl : max = 1 := hc
      obtain ⟨r, s', hrun, hout, -⟩ := h.start func arg
      exact ⟨r, s', hrun, hout⟩
    | stop id =>
      obtain ⟨r, s', hrun, hout, -⟩ := h.stop hc.1 hc.2
      exact ⟨r, s', hrun, hout⟩

/-- The first pool stays as it is when the second one is stopped. -/
theorem single_threads_two : ∃ s active r s',
    exec (track 2) (init, ∅) [.start 1 0 0, .start 1 1 1] = some (s, active) ∧
      (Call.stop 1).run 2 s = some (r, s') ∧ Outcome 2 s s' active r (.stop 1) := by
  obtain ⟨⟨s, active⟩, he, hin⟩ : ∃ q,
      exec (track 2) (init, ∅) [.start 1 0 0, .start 1 1 1] = some q ∧ 1 ∈ q.2 :=
    ⟨_, rfl, by decide⟩
  have hu : Each (track 2) Usage (init, ∅) [.start 1 0 0, .start 1 1 1] :=
    ⟨rfl, fun _ _ => ⟨rfl, fun _ _ => trivial⟩⟩
  obtain ⟨-, -, -, h⟩ := single_threads 2 _ s active hu he
  obtain ⟨r, s', hrun, hout⟩ := h (.stop 1) ⟨Int.zero_le_ofNat 1, hin⟩
  exact ⟨s, active, r, s', he, hrun, hout⟩

end Oin17.Tpool
