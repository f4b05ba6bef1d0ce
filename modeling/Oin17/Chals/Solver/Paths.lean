import Oin17.Chals.Solver.Lists
import Oin17.Chals.Solver.Mazes

namespace Oin17.Chals.Solvers
open Cint Crypto Function Loop Memory Utils

theorem digits_nul (h : c ∈ Utils.digits n) : c ≠ 0 := by
  induction n using Nat.strongRecOn with
  | ind n ih =>
    by_cases hn : n = 0
    · rw [digits_eq_nil.mpr hn] at h
      cases h
    · rw [digits_step hn] at h
      rcases List.mem_append.mp h with h | h
      · exact ih (n / 10) (by omega) h
      · rw [List.mem_singleton.mp h]
        intro h0
        have h0 := congrArg UInt8.toNat h0
        simp only [UInt8.toNat_ofNat'] at h0
        change (48 + n % 10) % 256 = 0 at h0
        omega

section Write
variable {n i k : Nat} {sp sp' : Shortpath}

theorem writeBodyIn_sub {s : Nat × Shortpath} (h : writeBodyIn n s = some o) :
    writeBody s = some o := by
  obtain ⟨i, sp⟩ := s
  rw [writeBodyIn] at h
  rw [writeBody]
  cases hpop : qpop sp with
  | mk cur sp₁ =>
    rw [hpop] at h
    cases cur with
    | none => exact h
    | some cur =>
      obtain ⟨r, hy, h⟩ := Option.bind_eq_some_iff.mp h
      obtain ⟨r', hx, h⟩ := Option.bind_eq_some_iff.mp h
      obtain ⟨sol, hpoke, h⟩ := Option.bind_eq_some_iff.mp h
      obtain ⟨-, rfl⟩ := poke_eq_some.mp hpoke
      obtain rfl := u64strIn_sub hy
      obtain rfl := u64strIn_sub hx
      exact h

/-- What one cell adds to the solution. In a block that goes on behind it the pass is the same. -/
theorem writeBody_pass (h : writeBody (i, sp) = some (.inl (k, sp'))) : ∃ text,
    (∀ c ∈ text, c ≠ 0) ∧ k = i + text.length ∧ sp'.sol = update (store sp.sol i text) k 0 ∧
      (k < n → writeBodyIn n (i, sp) = some (.inl (k, sp'))) := by
  rw [writeBody] at h
  rw [writeBodyIn]
  cases hpop : qpop sp with
  | mk cur sp₁ =>
    have hsol : sp₁.sol = sp.sol := by
      rw [← qpop_sol sp, hpop]
    rw [hpop] at h
    cases cur with
    | none => cases h
    | some cur =>
      simp only [u64str_spec] at h
      obtain ⟨rfl, rfl⟩ := Prod.mk.inj (Sum.inl.inj (Option.some.inj h))
      refine ⟨Utils.digits (toSize (sp₁.cells cur).y) ++ Utils.digits (toSize (sp₁.cells cur).x),
        fun c hc => ?_, ?_, ?_, fun hn => ?_⟩
      · rcases List.mem_append.mp hc with hc | hc
        · exact digits_nul hc
        · exact digits_nul hc
      · rw [List.length_append, Nat.add_assoc]
      · rw [store_append, ← hsol]
      · simp only [u64strIn_eq sp₁.sol (Nat.le_trans (Nat.le_add_right _ _) (Nat.le_of_lt hn)),
          u64str_spec, Option.bind_eq_bind, Option.bind_some, u64strIn_eq _ (Nat.le_of_lt hn),
          poke_some hn]
        rfl

/-- The loop that writes leaves no NUL behind it, and needs room for what it has written. -/
theorem write_run (h : run writeBody fuel (i, sp) = some (k, sp'))
    (hi : ∀ j, j < i → sp.sol j ≠ 0) : i ≤ k ∧ (∀ j, j < k → sp'.sol j ≠ 0) ∧
      (k < n → run (writeBodyIn n) fuel (i, sp) = some (k, sp')) := by
  induction fuel generalizing i sp with
  | zero => cases h
  | succ fuel ih =>
    rcases run_some h with hb | ⟨⟨i₁, sp₁⟩, m, hm, hb, h⟩
    · have hleave : writeBodyIn n (i, sp) = some (.inr (k, sp')) ∧ k = i ∧ sp'.sol = sp.sol := by
        rw [writeBody] at hb
        rw [writeBodyIn]
        cases hpop : qpop sp with
        | mk cur sp₁ =>
          rw [hpop] at hb
          cases cur with
          | some cur => cases hb
          | none =>
            obtain ⟨rfl, rfl⟩ := Prod.mk.inj (Sum.inr.inj (Option.some.inj hb))
            refine ⟨rfl, rfl, ?_⟩
            rw [← qpop_sol sp, hpop]
      obtain ⟨hrun, rfl, hsol⟩ := hleave
      exact ⟨Nat.le_refl k, hsol ▸ hi, fun _ => run_leave hrun fuel⟩
    · obtain rfl := Nat.succ.inj hm
      obtain ⟨text, htext, rfl, hsol, hpass⟩ := writeBody_pass (n := n) hb
      have hi₁ : ∀ j, j < i + text.length → sp₁.sol j ≠ 0 := by
        intro j hj
        rw [hsol, update_of_ne (Nat.ne_of_lt hj)]
        by_cases hji : j < i
        · rw [store_out _ _ (Or.inl hji)]
          exact hi j hji
        · obtain ⟨d, rfl⟩ : ∃ d, j = i + d := ⟨j - i, by omega⟩
          rw [store_in _ _ (by omega)]
          exact htext _ (List.getElem_mem _)
      obtain ⟨hle, hnul, hrun⟩ := ih h hi₁
      refine ⟨by omega, hnul, fun hk => ?_⟩
      rw [run_pass (hpass (by omega))]
      exact hrun hk

end Write

section Search
variable {n : Nat} {sp sp' : Shortpath}

theorem search_lost (hg : Walled sp) (hf : sp.size * sp.size < fuel)
    (hno : ¬ (graph sp).Reachable sp.src sp.dst) :
    ∃ sp', searchIn n fuel sp = some (0, sp') := by
  obtain ⟨sp₁, hstart, href₁⟩ := search_start hg fuel (by omega)
  obtain ⟨⟨cur, sp₂⟩, hmain, s, pend, href₂, hinv, hend⟩ := searchBody_run hg href₁ hf
  rcases hend with ⟨hcur, -⟩ | ⟨-, hcost⟩
  · obtain rfl : cur = none := hcur
    refine ⟨sp₂, ?_⟩
    unfold searchIn
    simp only [Option.bind_eq_bind]
    rw [hstart, Option.bind_some, hmain, Option.bind_some]
    rfl
  · exact absurd (hinv.reachable hcost) hno

/-- A path that was found ends with the first NUL, and is written where the block goes on
behind it. -/
theorem search_end (hg : Walled sp) (hf : sp.size * sp.size < fuel)
    (hreach : (graph sp).Reachable sp.src sp.dst) (h : search fuel sp = some (r, sp')) :
    ∃ k, r = toInt k ∧ sp'.sol k = 0 ∧ (∀ j, j < k → sp'.sol j ≠ 0) ∧
      ∀ n, searchIn n fuel sp = if k < n then some (r, sp') else none := by
  obtain ⟨sp₁, hstart, href₁⟩ := search_start hg fuel (by omega)
  obtain ⟨⟨cur, sp₂⟩, hmain, s, pend, href₂, hinv, hend⟩ := searchBody_run hg href₁ hf
  rcases hend with ⟨-, hno⟩ | ⟨hcur, -⟩
  · exact absurd hreach hno
  obtain rfl : cur = some sp.dst := hcur
  have hfound : ¬ some sp.dst ≠ some sp₂.dst := by
    rw [show sp₂.dst = sp.dst from href₂.dst]
    exact not_not.mpr rfl
  have hrest : ∀ n, searchIn n fuel sp = (run drainBody fuel sp₂).bind fun sp =>
      (run (reverseBody fuel) fuel (sp.dst, 2 ^ 64 - 1, sp)).bind fun r =>
      (qadd fuel (r.2.2.upd r.1 fun c => { c with c := toInt r.2.1 }) r.1).bind fun sp =>
      (run (writeBodyIn n) fuel (0, sp)).bind fun r =>
      (poke n r.2.sol r.1 0).bind fun sol => some (toInt r.1, { r.2 with sol := sol }) := by
    intro n
    unfold searchIn
    simp only [Option.bind_eq_bind]
    rw [hstart, Option.bind_some, hmain, Option.bind_some]
    dsimp only
    rw [if_neg hfound]
    rfl
  unfold search at h
  simp only [Option.bind_eq_bind] at h
  rw [hstart, Option.bind_some, hmain, Option.bind_some] at h
  dsimp only at h
  rw [if_neg hfound] at h
  obtain ⟨sp₃, hdrain, h⟩ := Option.bind_eq_some_iff.mp h
  obtain ⟨⟨cur, i, sp₄⟩, hback, h⟩ := Option.bind_eq_some_iff.mp h
  obtain ⟨sp₅, hadd, h⟩ := Option.bind_eq_some_iff.mp h
  obtain ⟨⟨k, sp₆⟩, hwrite, h⟩ := Option.bind_eq_some_iff.mp h
  obtain ⟨rfl, rfl⟩ := Prod.mk.inj (Option.some.inj h)
  have hnul := (write_run (n := 0) hwrite fun j hj => absurd hj (Nat.not_lt_zero j)).2.1
  refine ⟨k, rfl, update_self .., fun j hj => ?_, fun n => ?_⟩
  · dsimp only
    rw [update_of_ne (Nat.ne_of_lt hj)]
    exact hnul j hj
  rw [hrest n, hdrain]
  simp only [Option.bind_some, hback, hadd]
  by_cases hk : k < n
  · have hin := (write_run (n := n) hwrite fun j hj => absurd hj (Nat.not_lt_zero j)).2.2 hk
    rw [hin, if_pos hk, Option.bind_some, poke_some hk]
    rfl
  · rw [if_neg hk]
    cases hin : run (writeBodyIn n) fuel (0, sp₅) with
    | none => rfl
    | some q =>
      have hq := run_sub (fun _ _ => writeBodyIn_sub) hin
      obtain rfl := Option.some.inj (hq.symm.trans hwrite)
      rw [Option.bind_some]
      dsimp only
      rw [poke, if_neg hk]
      rfl

theorem solution_nul (hpath : Canonical sp path) (hg : Walled sp) (hc : c ∈ solution sp.size path) :
    c ≠ 0 := by
  obtain ⟨i, hi, hc⟩ := List.mem_flatMap.mp hc
  obtain ⟨hr, -, hcol, -⟩ := hg.inside (hpath.open hg hi)
  rcases List.mem_append.mp hc with hc | hc
  · rw [← digits_pos hr] at hc
    exact digits_nul hc
  · rw [← digits_pos hcol] at hc
    exact digits_nul hc

theorem solution_pos (hpath : Canonical sp path) : 0 < (solution sp.size path).length := by
  obtain ⟨t, rfl⟩ : ∃ t, path = sp.src :: t := List.head?_eq_some_iff.mp hpath.head
  have hpos := decimal_length_pos (row sp.size sp.src)
  rw [solution, List.flatMap_cons, List.length_append, List.length_append]
  omega

/-- The search writes the canonical path where its block has room for the text and the NUL. -/
theorem searchIn_spec (hg : Walled sp) (hf : sp.size * sp.size < fuel)
    (hs : sp.size * sp.size < 2 ^ 31) (hpath : Canonical sp path) (n : Nat) :
    if (solution sp.size path).length < n then
      ∃ sp', searchIn n fuel sp = some (toInt (solution sp.size path).length, sp') ∧
        load sp'.sol 0 (solution sp.size path).length = solution sp.size path
    else searchIn n fuel sp = none := by
  have hreach : (graph sp).Reachable sp.src sp.dst := Bfs.CanonicalPath.reachable hpath
  obtain ⟨r, sp', hrun, -, hyes⟩ := search_run hg hf
  obtain ⟨path', q, hpath', -, hq, rfl, ⟨hload, hend⟩, -⟩ := hyes hreach
  obtain rfl := hq hs
  obtain rfl := Canonical.unique hg hpath hpath'
  rw [Nat.zero_add] at hend
  obtain ⟨k, -, hzero, hnul, hin⟩ := search_end hg hf hreach hrun
  -- both are where the first NUL is
  have hk : k = (solution sp.size path).length := by
    rcases Nat.lt_trichotomy k (solution sp.size path).length with hlt | he | hlt
    · have hget := load_getElem sp'.sol 0 _ k (by rw [load_length]; exact hlt)
      simp only [hload, Nat.zero_add] at hget
      exact absurd (hget.trans hzero) (solution_nul hpath hg (List.getElem_mem _))
    · exact he
    · exact absurd hend (hnul _ hlt)
  rw [hin n, hk]
  split
  · exact ⟨sp', rfl, hload⟩
  · rfl

end Search

section Solve
variable {ι : Type} [DecidableEq ι]

theorem prng_yields (seed : UInt64) (i : ι) (w : Prngs ι) :
    Yields (mt64Rand (some i)) (mt64Seed (some i) seed w) (number seed) := by
  intro k
  have hafter : after (mt64Rand (some i)) (mt64Seed (some i) seed w) k =
      drawn (some i) (mt64Seed (some i) seed w) k := by
    induction k with
    | zero => rfl
    | succ k ih => rw [after, drawn, ih]
  rw [hafter]
  exact (draw_ready (drawn_ready (seeded_ready (some i) seed w) k)).1

/-- The grid that a nonce draws has room for the texts of its paths. -/
def Fits (sha256 : List UInt8 → Buf) (chl : Chal) (non : UInt64) (n : Nat) (mz : Shortpath) :
    Prop :=
  Drawn (number (seedOf sha256 chl non)) chl.size.toNat chl.nblks.toNat mz ∧
    ∀ path, Canonical mz path → (solution mz.size path).length < n

variable {sha256 : List UInt8 → Buf} {chl : Chal} {slv slv' : Solver} {m : ShortpathMem}

/-- The workspace has the room that was granted, and its text is shorter than an `int` can tell. -/
structure Room (chl : Chal) (m : ShortpathMem) : Prop where
  holds : m.Holds (chl.size.toNat * chl.size.toNat)
  small : m.sol < 2 ^ 31

theorem Room.square (h : Room chl m) : chl.size.toNat * chl.size.toNat < 2 ^ 31 :=
  Nat.lt_of_le_of_lt h.holds.sol h.small

theorem Room.size (h : Room chl m) : chl.size.toNat < 2 ^ 31 :=
  Nat.lt_of_le_of_lt (Nat.le_mul_self _) h.square

/-- A grid that was built has the same paths as the one that was drawn. -/
theorem popgrid_paths {w w' : Prngs ι} {sp sp' : Shortpath} (hr : Room chl m)
    (h : popgrid fuel m.entries (mt64Rand (some i)) chl.nblks.toNat
      { sp with size := chl.size.toNat } (mt64Seed (some i) (seedOf sha256 chl non) w) =
        some (sp', w')) :
    ∃ mz, Drawn (number (seedOf sha256 chl non)) chl.size.toNat chl.nblks.toNat mz ∧
      Walled sp' ∧ sp'.size = chl.size.toNat ∧ mz.size = chl.size.toNat ∧
      ∀ path, Canonical sp' path ↔ Canonical mz path := by
  obtain ⟨mz, hdrawn, hlike⟩ := popgrid_drawn (prng_yields _ i w) hr.size h
  obtain ⟨bl, -, hpop⟩ := popgrid_spec h hr.size
  exact ⟨mz, hdrawn, hpop.walled hr.size, hpop.size, hlike.size ▸ hpop.size, hlike.canonical⟩

/-- Whatever the buffers hold, a result of `shortpath` is about the grid that the nonce draws. -/
theorem shortpath_result {w w' : Prngs ι} (hmem : slv.mem.sp = some m) (hr : Room chl m)
    (hf : chl.size.toNat * chl.size.toNat < fuel)
    (h : shortpath sha256 fuel chl lh slv i w = some (r, slv', w')) :
    slv.Same slv' ∧ ∃ mz, Fits sha256 chl slv.nonce m.sol mz ∧
      (r = 0 ↔ ∃ path, Canonical mz path ∧
        accepts (sha256 (solution mz.size path)) chl.pfix chl.plen = true) := by
  rw [shortpath, hmem] at h
  simp only [Option.bind_eq_bind, Option.bind_some, seedPrng_spec] at h
  obtain ⟨⟨sp, w₁⟩, hgrid, h⟩ := Option.bind_eq_some_iff.mp h
  obtain ⟨⟨l, sp'⟩, hsearch, h⟩ := Option.bind_eq_some_iff.mp h
  obtain ⟨mz, hdrawn, hwall, hsize, hmz, hcan⟩ := popgrid_paths hr hgrid
  have hf' : sp.size * sp.size < fuel := by rw [hsize]; exact hf
  have hsq : sp.size * sp.size < 2 ^ 31 := by rw [hsize]; exact hr.square
  dsimp only at h
  by_cases hreach : (graph sp).Reachable sp.src sp.dst
  · obtain ⟨r₀, sp₀, -, -, hyes⟩ := search_run hwall hf'
    obtain ⟨path, -, hpath, -⟩ := hyes hreach
    have hspec := searchIn_spec hwall hf' hsq hpath m.sol
    split at hspec
    · next hlen =>
      obtain ⟨sp₁, hrun, hload⟩ := hspec
      obtain ⟨rfl, rfl⟩ := Prod.mk.inj (Option.some.inj (hsearch.symm.trans hrun))
      have hlt : (solution sp.size path).length < 2 ^ 31 := Nat.lt_trans hlen hr.small
      have hpos := solution_pos hpath
      rw [toInt_small hlt, if_neg (by omega), toSize_natCast (by omega), loadIn,
        if_pos (by omega), Option.bind_some, hload] at h
      obtain ⟨r', hcmp, h⟩ := Option.bind_eq_some_iff.mp h
      obtain ⟨rfl, hrest⟩ := Prod.mk.inj (Option.some.inj h)
      obtain ⟨rfl, -⟩ := Prod.mk.inj hrest
      refine ⟨⟨rfl, rfl, rfl, rfl⟩, mz, ⟨hdrawn, fun p hp => ?_⟩, ?_⟩
      · rw [Canonical.unique hwall ((hcan p).mpr hp) hpath, hmz, ← hsize]
        exact hlen
      · rw [compare] at hcmp
        split at hcmp
        · obtain rfl := Option.some.inj hcmp
          rw [hmz, ← hsize]
          constructor
          · intro hacc
            refine ⟨path, (hcan path).mp hpath, ?_⟩
            by_contra hno
            rw [if_neg hno] at hacc
            cases hacc
          · rintro ⟨p, hp, hacc⟩
            obtain rfl := Canonical.unique hwall ((hcan p).mpr hp) hpath
            rw [if_pos hacc]
        · cases hcmp
    · rw [hspec] at hsearch
      cases hsearch
  · have hno : ∀ path, ¬ Canonical mz path := fun path hpath =>
      hreach (Bfs.CanonicalPath.reachable ((hcan path).mpr hpath))
    obtain ⟨sp₁, hrun⟩ := search_lost (n := m.sol) hwall hf' hreach
    obtain ⟨rfl, rfl⟩ := Prod.mk.inj (Option.some.inj (hsearch.symm.trans hrun))
    rw [if_pos rfl] at h
    obtain ⟨rfl, hrest⟩ := Prod.mk.inj (Option.some.inj h)
    obtain ⟨rfl, -⟩ := Prod.mk.inj hrest
    refine ⟨⟨rfl, rfl, rfl, rfl⟩, mz, ⟨hdrawn, fun p hp => absurd hp (hno p)⟩, ?_⟩
    refine iff_of_false (by decide) fun hsome => ?_
    obtain ⟨p, hp, -⟩ := hsome
    exact hno p hp

/-- A grid that fits is solved, once the loops that look for a cell have enough passes. -/
theorem shortpath_total {mz : Shortpath} (hmem : slv.mem.sp = some m) (hr : Room chl m)
    (hfits : Fits sha256 chl slv.nonce m.sol mz) (hp : chl.plen ≤ sha256Len) (i : ι)
    (w : Prngs ι) : ∃ fuel₀, ∀ fuel, fuel₀ ≤ fuel → chl.size.toNat * chl.size.toNat < fuel →
      ∀ lh, ∃ r, shortpath sha256 fuel chl lh slv i w = some r := by
  obtain ⟨hdrawn, hlen⟩ := hfits
  obtain ⟨fuel₀, htotal⟩ : ∃ fuel₀, ∀ fuel, fuel₀ ≤ fuel → ∃ r,
      popgrid fuel m.entries (mt64Rand (some i)) chl.nblks.toNat
        { slv.sp with size := chl.size.toNat }
        (mt64Seed (some i) (seedOf sha256 chl slv.nonce) w) = some r :=
    popgrid_total (prng_yields _ i w) hr.size hr.holds.entries hdrawn
  refine ⟨fuel₀, fun fuel hf₀ hf lh => ?_⟩
  obtain ⟨⟨sp, w₁⟩, hgrid⟩ := htotal fuel hf₀
  obtain ⟨mz', hdrawn', hwall, hsize, hmz, hcan⟩ := popgrid_paths hr hgrid
  obtain rfl := hdrawn.unique hdrawn'
  have hf' : sp.size * sp.size < fuel := by rw [hsize]; exact hf
  have hsq : sp.size * sp.size < 2 ^ 31 := by rw [hsize]; exact hr.square
  rw [shortpath, hmem]
  simp only [Option.bind_eq_bind, Option.bind_some, seedPrng_spec, hgrid]
  by_cases hreach : (graph sp).Reachable sp.src sp.dst
  · obtain ⟨r₀, sp₀, -, -, hyes⟩ := search_run hwall hf'
    obtain ⟨path, -, hpath, -⟩ := hyes hreach
    have hroom := hlen path ((hcan path).mp hpath)
    rw [hmz, ← hsize] at hroom
    have hspec := searchIn_spec hwall hf' hsq hpath m.sol
    rw [if_pos hroom] at hspec
    obtain ⟨sp₁, hrun, hload⟩ := hspec
    have hlt : (solution sp.size path).length < 2 ^ 31 := Nat.lt_trans hroom hr.small
    have hpos := solution_pos hpath
    rw [hrun, Option.bind_some, toInt_small hlt, if_neg (by omega), toSize_natCast (by omega),
      loadIn, if_pos (by omega), Option.bind_some, compare, if_pos hp]
    exact ⟨_, rfl⟩
  · obtain ⟨sp₁, hrun⟩ := search_lost (n := m.sol) hwall hf' hreach
    rw [hrun]
    exact ⟨_, rfl⟩

end Solve

end Oin17.Chals.Solvers
