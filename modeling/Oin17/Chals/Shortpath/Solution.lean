import Oin17.Chals.Shortpath.Search

namespace Oin17.Chals
open Cint Loop Memory Links Utils

/-- The string the server expects for a path. -/
def solution (size : Nat) (path : List Nat) : List UInt8 :=
  path.flatMap fun i => decimal (row size i) ++ decimal (col size i)

section Emit
variable {sp₀ sp : Shortpath} {par : Nat → Option Nat} {k : Nat}

theorem drainBody_run (h : Queue sp l) (hf : l.length < fuel) :
    ∃ sp', run drainBody fuel sp = some sp' ∧ Requeued sp sp' ∧ Queue sp' [] := by
  induction l generalizing sp fuel with
  | nil =>
    obtain ⟨fuel, rfl⟩ := Nat.exists_eq_succ_of_ne_zero (Nat.ne_zero_of_lt hf)
    exact ⟨sp, run_leave (by rw [drainBody, qpop_nil h]) fuel, .refl sp, h⟩
  | cons n l ih =>
    obtain ⟨fuel, rfl⟩ := Nat.exists_eq_succ_of_ne_zero (Nat.ne_zero_of_lt hf)
    obtain ⟨sp₁, hpop, hr, hq⟩ := qpop_cons h
    obtain ⟨sp₂, hrun, hr₂, hq₂⟩ := ih hq (by simpa using hf)
    exact ⟨sp₂, by rw [run_pass (by rw [drainBody, hpop]), hrun], hr.trans hr₂, hq₂⟩

/-- The costs in the queue are above those still to be given. -/
def Above (k : Nat) (sp : Shortpath) (q : List Nat) : Prop := ∀ i ∈ q, -(k : Int) < (sp.cells i).c

/-- A cell on the way back is queued, in front of the whole queue while the costs fit. -/
theorem push (hp : Placed sp₀ par sp) (hq : Queue sp q) (hv : v ∉ q)
    (hin : v < sp₀.size * sp₀.size) (hk : 0 < k) (hf : sp₀.size * sp₀.size < fuel) :
    ∃ sp' q', qadd fuel (sp.upd v fun c => { c with c := toInt (2 ^ 64 - k) }) v = some sp' ∧
      Placed sp₀ par sp' ∧ sp'.sol = sp.sol ∧ Queue sp' q' ∧ q'.Perm (v :: q) ∧
      (k < 2 ^ 31 → Above k sp q → q' = v :: q ∧ Above (k + 1) sp' q') := by
  have hp₁ := hp.upd (i := v) (f := fun c => { c with c := toInt (2 ^ 64 - k) })
    fun _ => ⟨rfl, rfl, rfl⟩
  have hq₁ := hq.upd (i := v) (f := fun c => { c with c := toInt (2 ^ 64 - k) })
    fun _ => ⟨rfl, rfl⟩
  have hlen : q.length ≤ sp₀.size * sp₀.size := hp.size ▸ hq.length_le
  obtain ⟨sp', hadd, hr, hq'⟩ := qadd_spec hq₁ hv (by rw [hp₁.size]; exact hin)
    (Nat.lt_of_le_of_lt hlen hf)
  refine ⟨sp', _, hadd, hp₁.requeued hr, hr.sol, hq', List.perm_orderedInsert .., ?_⟩
  intro hk' hc
  have hcost : ∀ i ∈ q, ((sp.upd v fun c => { c with c := toInt (2 ^ 64 - k) }).cells i).c =
      (sp.cells i).c := by
    intro i hi
    have hiv : i ≠ v := fun he => hv (he ▸ hi)
    simp [Shortpath.upd, hiv]
  have hcv : ((sp.upd v fun c => { c with c := toInt (2 ^ 64 - k) }).cells v).c = -(k : Int) := by
    simp only [Shortpath.upd, Function.update_self, toInt_neg hk hk']
  constructor
  · cases q with
    | nil => rfl
    | cons n q =>
      have hb : Before (sp.upd v fun c => { c with c := toInt (2 ^ 64 - k) }) v n := by
        have hn := hc n (by simp)
        rw [← hcost n (by simp)] at hn
        rw [Before, costcmp, hcv, if_pos (by omega)]
        omega
      exact List.orderedInsert_cons_of_le _ _ hb
  · intro i hi
    rw [(hr.cell i).2.2.1]
    rcases (List.mem_orderedInsert _).mp hi with rfl | hi
    · rw [hcv]
      omega
    · rw [hcost i hi]
      have := hc i hi
      omega

/-- Each cell of the trail goes in front of the one after it, while the costs fit. -/
theorem reverseBody_run (hp : Placed sp₀ par sp) (ht : Bfs.Trail par sp₀.src v l)
    (hin : ∀ i ∈ l, i < sp₀.size * sp₀.size) (hnd : l.Nodup) (hq : Queue sp q)
    (hdis : ∀ i ∈ l, i ∉ q) (hk : 0 < k) (hk' : k + l.length ≤ 2 ^ 64)
    (hf : sp₀.size * sp₀.size < fuel) (hn : l.length ≤ n) :
    ∃ (m q' : List Nat) (k' : Nat) (sp' : Shortpath),
      run (reverseBody fuel) n (v, 2 ^ 64 - k, sp) = some (sp₀.src, 2 ^ 64 - k', sp') ∧
      l = m ++ [sp₀.src] ∧ k' = k + m.length ∧ Placed sp₀ par sp' ∧ sp'.sol = sp.sol ∧
      Queue sp' q' ∧ q'.Perm (m.reverse ++ q) ∧
      (k' < 2 ^ 31 → Above k sp q → q' = m.reverse ++ q ∧ Above k' sp' q') := by
  induction ht generalizing sp q k n with
  | source =>
    obtain ⟨n, rfl⟩ := Nat.exists_eq_succ_of_ne_zero (Nat.ne_zero_of_lt hn)
    have hleave : reverseBody fuel (sp₀.src, 2 ^ 64 - k, sp) =
        some (.inr (sp₀.src, 2 ^ 64 - k, sp)) := by
      simp only [reverseBody, hp.src, if_true]
    exact ⟨[], q, k, sp, run_leave hleave n, rfl, rfl, hp, rfl, hq, .refl q, fun _ hc => ⟨rfl, hc⟩⟩
  | @step v u l hne hpar ht ih =>
    obtain ⟨n, rfl⟩ := Nat.exists_eq_succ_of_ne_zero (Nat.ne_zero_of_lt hn)
    rw [List.length_cons] at hk' hn
    obtain ⟨hvl, hnd⟩ := List.nodup_cons.mp hnd
    obtain ⟨sp₁, q₁, hadd, hp₁, hsol₁, hq₁, hperm₁, hfront₁⟩ :=
      push hp hq (hdis v (by simp)) (hin v (by simp)) hk hf
    have hnext : (sp₁.cells v).p = some u := by
      rw [(hp₁.cells v (hin v (by simp))).2.2, hpar]
    have hpass : reverseBody fuel (v, 2 ^ 64 - k, sp) = some (.inl (u, 2 ^ 64 - (k + 1), sp₁)) := by
      have hd : decr (2 ^ 64 - k) = 2 ^ 64 - (k + 1) := by
        rw [decr_pos (by omega) (by omega)]
        omega
      simp only [reverseBody, hp.src, if_neg (Ne.symm hne), hadd, hd, Option.bind_eq_bind,
        Option.bind_some, hnext]
      rfl
    have hdis₁ : ∀ i ∈ l, i ∉ q₁ := by
      intro i hi hm
      rcases List.mem_cons.mp (hperm₁.mem_iff.mp hm) with rfl | hm
      · exact hvl hi
      · exact hdis i (by simp [hi]) hm
    obtain ⟨m, q', k', sp', hrun, rfl, rfl, hp', hsol', hq', hperm', hfront'⟩ :=
      ih (n := n) (k := k + 1) hp₁ (fun i hi => hin i (by simp [hi])) hnd hq₁ hdis₁ (by omega)
        (by omega) (by omega)
    refine ⟨v :: m, q', _, sp', by rw [run_pass hpass, hrun], rfl, by simp; omega, hp',
      hsol'.trans hsol₁, hq', ?_, fun hlt hc => ?_⟩
    · rw [List.reverse_cons, List.append_assoc]
      exact hperm'.trans (hperm₁.append_left _)
    · obtain ⟨rfl, hc₁⟩ := hfront₁ (by omega) hc
      simpa using hfront' hlt hc₁

/-- The strings of the coordinates are written one behind the other. -/
theorem writeBody_run (hg : Walled sp₀) (hp : Placed sp₀ par sp) (hq : Queue sp path)
    (hopen : ∀ i ∈ path, Open sp₀ i) (hf : path.length < fuel) :
    ∃ sp', run writeBody fuel (o, sp) = some (o + (solution sp₀.size path).length, sp') ∧
      load sp'.sol 0 (o + (solution sp₀.size path).length) =
        load sp.sol 0 o ++ solution sp₀.size path ∧
      ∀ j, o + (solution sp₀.size path).length < j → sp'.sol j = sp.sol j := by
  induction path generalizing sp o fuel with
  | nil =>
    obtain ⟨fuel, rfl⟩ := Nat.exists_eq_succ_of_ne_zero (Nat.ne_zero_of_lt hf)
    refine ⟨sp, run_leave (by simp only [writeBody, qpop_nil hq]; rfl) fuel, ?_⟩
    simp [solution]
  | cons i path ih =>
    obtain ⟨fuel, rfl⟩ := Nat.exists_eq_succ_of_ne_zero (Nat.ne_zero_of_lt hf)
    obtain ⟨sp₁, hpop, hr, hq₁⟩ := qpop_cons hq
    have hp₁ := hp.requeued hr
    obtain ⟨hr0, hr1, hc0, hc1⟩ := hg.inside (hopen i (by simp))
    obtain ⟨hx, hy, -⟩ := hp₁.cells i (hopen i (by simp)).1
    have hlt := hg.bound
    -- the string, and the NUL behind it
    have hsol : ∃ sol, sol = Function.update (store sp.sol o (solution sp₀.size [i]))
        (o + (solution sp₀.size [i]).length) 0 := ⟨_, rfl⟩
    obtain ⟨sol, hsol⟩ := hsol
    have hbody : writeBody (o, sp) =
        some (.inl (o + (solution sp₀.size [i]).length, { sp₁ with sol := sol })) := by
      rw [writeBody, hpop, hsol]
      simp only [u64str_spec, hx, hy, hr.sol]
      rw [toSize_natCast (by omega), toSize_natCast (by omega), digits_pos hr0, digits_pos hc0]
      simp [solution, store_append, Nat.add_assoc]
    obtain ⟨sp₂, hrun, hload, hout⟩ := ih (o := o + (solution sp₀.size [i]).length)
      (show Placed sp₀ par { sp₁ with sol := sol } from
        ⟨hp₁.size, hp₁.grid, hp₁.src, hp₁.dst, hp₁.cells⟩)
      (hq₁.congr rfl rfl (fun _ => rfl) fun _ => rfl) (fun j hj => hopen j (by simp [hj]))
      (by simpa using hf)
    have hsplit : solution sp₀.size (i :: path) =
        solution sp₀.size [i] ++ solution sp₀.size path := by
      simp [solution]
    have hkeep : load sol 0 (o + (solution sp₀.size [i]).length) =
        load sp.sol 0 o ++ solution sp₀.size [i] := by
      rw [hsol, ← load_store_append]
      refine load_congr fun j _ hj => Function.update_of_ne (by omega) ..
    rw [hsplit, List.length_append, ← Nat.add_assoc]
    refine ⟨sp₂, by rw [run_pass hbody, hrun], ?_, fun j hj => ?_⟩
    · rw [hload, hkeep, List.append_assoc]
    · rw [hout j hj]
      simp only [hsol]
      rw [Function.update_of_ne (by omega), store_out _ _ (Or.inr (by omega))]

end Emit

/-- The path `search` is to find. -/
def Canonical (sp : Shortpath) (path : List Nat) : Prop :=
  Bfs.CanonicalPath (graph sp) (LexLe sp.size) sp.src sp.dst path

theorem Canonical.unique (hg : Walled sp) (h : Canonical sp p) (h' : Canonical sp q) : p = q := by
  have hs := hg.size_pos
  refine Bfs.CanonicalPath.unique (fun a b hab hba => ?_) h h'
  rw [lexLe_iff hs] at hab hba
  omega

theorem Canonical.open (hg : Walled sp) (h : Canonical sp path) (hi : i ∈ path) : Open sp i :=
  reachable_open hg.src (Bfs.CanonicalPath.mem h hi).1

section Sol
variable {sp sp' : Shortpath}

/-- Until the path is written nothing touches the buffer for the solution. -/
theorem qpop_sol (sp : Shortpath) : (qpop sp).2.sol = sp.sol := by
  unfold qpop
  split
  · rfl
  · dsimp only
    split <;> rfl

theorem qdel_sol (h : qdel fuel sp cl = some sp') : sp'.sol = sp.sol := by
  unfold qdel at h
  split at h
  · rw [Option.some.inj h]
  · split at h
    · rw [Option.some.inj h]
    · split at h
      · dsimp only at h
        split at h <;> rw [← Option.some.inj h]
        rfl
      · refine run_partial (fun _ => True) (fun r => r.sol = sp.sol) (fun _ _ _ _ => trivial)
          (fun p r _ hb => ?_) trivial h
        unfold qdelBody at hb
        split at hb
        · rw [Sum.inr.inj (Option.some.inj hb)]
        · split at hb
          · dsimp only at hb
            rw [← Sum.inr.inj (Option.some.inj hb)]
            split <;> rfl
          · cases hb

theorem relax_sol (h : relax fuel cur sp dir = some sp') : sp'.sol = sp.sol := by
  obtain ⟨nei, -, h⟩ := Option.bind_eq_some_iff.mp h
  cases nei with
  | none => rw [Option.some.inj h]
  | some nei =>
    dsimp only at h
    split at h
    · obtain ⟨sp₁, hdel, h⟩ := Option.bind_eq_some_iff.mp h
      obtain ⟨sp₂, hadd, h⟩ := Option.bind_eq_some_iff.mp h
      have hsol := qdel_sol hdel
      rw [← Option.some.inj h]
      exact (qadd_requeued hadd).sol.trans hsol
    · rw [Option.some.inj h]

theorem relaxes_sol {dirs : List Nat} (h : dirs.foldlM (relax fuel cur) sp = some sp') :
    sp'.sol = sp.sol := by
  induction dirs generalizing sp with
  | nil => rw [Option.some.inj h]
  | cons dir dirs ih =>
    rw [List.foldlM_cons] at h
    obtain ⟨sp₁, hrelax, h⟩ := Option.bind_eq_some_iff.mp h
    exact (ih h).trans (relax_sol hrelax)

theorem searchBody_sol {t : Shortpath} {o : Shortpath ⊕ (Option Nat × Shortpath)}
    (h : searchBody fuel t = some o) :
    (∀ u, o = .inl u → u.sol = t.sol) ∧ ∀ r, o = .inr r → r.2.sol = t.sol := by
  have hpop := qpop_sol t
  unfold searchBody at h
  split at h
  · next hq =>
    rw [hq] at hpop
    obtain rfl := Option.some.inj h
    refine ⟨fun u hu => ?_, fun r hr => ?_⟩
    · cases hu
    · rw [← Sum.inr.inj hr]
      exact hpop
  · next hq =>
    rw [hq] at hpop
    split at h
    · obtain rfl := Option.some.inj h
      refine ⟨fun u hu => ?_, fun r hr => ?_⟩
      · cases hu
      · rw [← Sum.inr.inj hr]
        exact hpop
    · obtain ⟨v, hv, rfl⟩ := Option.map_eq_some_iff.mp h
      have hv := (relaxes_sol hv).trans hpop
      refine ⟨fun u hu => ?_, fun r hr => ?_⟩
      · rw [← Sum.inl.inj hu]
        exact hv
      · cases hr

theorem searchBody_run_sol (h : run (searchBody fuel) n sp = some r) : r.2.sol = sp.sol := by
  refine run_partial (fun t => t.sol = sp.sol) (fun r => r.2.sol = sp.sol) (fun t u ht hb => ?_)
    (fun t r ht hb => ?_) rfl h
  · exact ((searchBody_sol hb).1 u rfl).trans ht
  · exact ((searchBody_sol hb).2 r rfl).trans ht

end Sol

/-- What follows the main loop: the queue is emptied, it is filled backwards with
the path, and what it then holds is written. -/
theorem emit_run {sp₀ sp : Shortpath} (hg : Walled sp₀) (hp : Placed sp₀ par sp)
    (hq : Queue sp q) (ht : Bfs.Trail par sp₀.src sp₀.dst l) (hopen : ∀ i ∈ l, Open sp₀ i)
    (hnd : l.Nodup) (hf : sp₀.size * sp₀.size < fuel) :
    ∃ p sp', (∀ k : Nat × Shortpath → Option (Int × Shortpath), (do
        let sp ← run drainBody fuel sp
        let (cur, i, sp) ← run (reverseBody fuel) fuel (sp.dst, 2 ^ 64 - 1, sp)
        let sp ← qadd fuel (sp.upd cur fun c => { c with c := toInt i }) cur
        let r ← run writeBody fuel (0, sp)
        k r) = k ((solution sp₀.size p).length, sp')) ∧
      p.Perm l.reverse ∧ (sp₀.size * sp₀.size < 2 ^ 31 → p = l.reverse) ∧
      load sp'.sol 0 (solution sp₀.size p).length = solution sp₀.size p ∧
      ∀ j, (solution sp₀.size p).length < j → sp'.sol j = sp.sol j := by
  have hin : ∀ i ∈ l, i < sp₀.size * sp₀.size := fun i hi => (hopen i hi).1
  have hlen : l.length ≤ sp₀.size * sp₀.size := length_le_of_nodup hnd hin
  have hsq := square_lt hg.bound
  have hql : q.length ≤ sp₀.size * sp₀.size := hp.size ▸ hq.length_le
  obtain ⟨sp₁, hdrain, hr₁, hq₁⟩ := drainBody_run hq (Nat.lt_of_le_of_lt hql hf)
  have hp₁ := hp.requeued hr₁
  obtain ⟨m, q₂, k, sp₂, hrev, rfl, rfl, hp₂, hsol₂, hq₂, hperm₂, hfront₂⟩ :=
    reverseBody_run (k := 1) (n := fuel) hp₁ ht hin hnd hq₁ (by simp) (by omega) (by omega) hf
      (by omega)
  rw [List.append_nil] at hperm₂ hfront₂
  have hsrc : sp₀.src ∉ q₂ := by
    intro hm
    rw [List.nodup_append] at hnd
    exact hnd.2.2 sp₀.src (List.mem_reverse.mp (hperm₂.mem_iff.mp hm)) sp₀.src (by simp) rfl
  obtain ⟨sp₃, q₃, hpush, hp₃, hsol₃, hq₃, hperm₃, hfront₃⟩ :=
    push (k := 1 + m.length) hp₂ hq₂ hsrc hg.src.1 (by omega) hf
  have hlist : (m ++ [sp₀.src]).reverse = sp₀.src :: m.reverse := by simp
  have hperm : q₃.Perm (m ++ [sp₀.src]).reverse := by
    rw [hlist]
    exact hperm₃.trans (hperm₂.cons _)
  have hopen₃ : ∀ i ∈ q₃, Open sp₀ i :=
    fun i hi => hopen i (List.mem_reverse.mp (hperm.mem_iff.mp hi))
  have hlen₃ : q₃.length < fuel := by
    rw [hperm.length_eq, List.length_reverse]
    omega
  obtain ⟨sp₄, hwrite, hload, hout⟩ := writeBody_run (o := 0) hg hp₃ hq₃ hopen₃ hlen₃
  rw [Nat.zero_add] at hwrite hload hout
  refine ⟨q₃, sp₄, fun k => ?_, hperm, fun hb => ?_, hload, fun j hj => ?_⟩
  · have hrev' : run (reverseBody fuel) fuel (sp₀.dst, 2 ^ 64 - 1, sp₁) =
        some (sp₀.src, 2 ^ 64 - (1 + m.length), sp₂) := hrev
    simp only [hdrain, hp₁.dst, hrev', hpush, hwrite, Option.bind_eq_bind, Option.bind_some]
  · -- none of the costs has wrapped
    rw [List.length_append, List.length_singleton] at hlen
    obtain ⟨rfl, hc⟩ := hfront₂ (by omega) (by simp [Above])
    rw [hlist]
    exact (hfront₃ (by omega) hc).1
  · rw [hout j hj, hsol₃, hsol₂, hr₁.sol]

/-- What the search writes is the text of the canonical path, as long as the costs
fit into an `int`, and otherwise of the same cells in another order. -/
theorem search_run (hg : Walled sp) (hf : sp.size * sp.size < fuel) :
    ∃ r sp', search fuel sp = some (r, sp') ∧
      (¬ (graph sp).Reachable sp.src sp.dst → r = 0 ∧ sp'.sol = sp.sol) ∧
      ((graph sp).Reachable sp.src sp.dst → ∃ path q, Canonical sp path ∧ q.Perm path ∧
        (sp.size * sp.size < 2 ^ 31 → q = path) ∧ r = toInt (solution sp.size q).length ∧
        Holds sp'.sol 0 (solution sp.size q) ∧
        ∀ j, (solution sp.size q).length < j → sp'.sol j = sp.sol j) := by
  obtain ⟨sp₁, hstart, href₁⟩ := search_start hg fuel (by omega)
  obtain ⟨⟨cur, sp₂⟩, hmain, s, pend, href₂, hinv, hend⟩ := searchBody_run hg href₁ hf
  have hsol₂ : sp₂.sol = sp.sol := by
    have hsol₁ := (qadd_requeued hstart).sol
    rw [(searchInit_spec hg.bound).2] at hsol₁
    exact (searchBody_run_sol hmain).trans hsol₁
  unfold search
  simp only [Option.bind_eq_bind]
  rw [hstart, Option.bind_some, hmain, Option.bind_some]
  have hdst : sp₂.dst = sp.dst := href₂.dst
  rcases hend with ⟨hcur, hno⟩ | ⟨hcur, hcost⟩
  · obtain rfl : cur = none := hcur
    exact ⟨0, sp₂, rfl, fun _ => ⟨rfl, hsol₂⟩, fun hr => absurd hr hno⟩
  obtain rfl : cur = some sp.dst := hcur
  obtain ⟨l, htrail, hpath⟩ := hinv.trail hcost
  have hcan : Canonical sp l.reverse := by
    have hs := hg.size_pos
    refine ⟨hpath.head, hpath.last, hpath.chain, hpath.short, ?_⟩
    simpa only [lexLe_iff hs] using hpath.least
  have hopen : ∀ i ∈ l, Open sp i := fun i hi => hcan.open hg (List.mem_reverse.mpr hi)
  obtain ⟨p, sp₃, hemit, hperm, hsmall, hload, hout⟩ := emit_run hg href₂.toPlaced href₂.queue
    htrail hopen (List.nodup_reverse.mp hpath.nodup) hf
  refine ⟨toInt (solution sp.size p).length,
    { sp₃ with sol := Function.update sp₃.sol (solution sp.size p).length 0 }, ?_, ?_, ?_⟩
  · have hfound : ¬ some sp.dst ≠ some sp₂.dst := by rw [hdst]; exact not_not.mpr rfl
    dsimp only
    rw [if_neg hfound]
    exact hemit fun r => some (toInt r.1, { r.2 with sol := Function.update r.2.sol r.1 0 })
  · exact fun hno => absurd (hinv.reachable hcost) hno
  · refine fun _ => ⟨_, p, hcan, hperm, hsmall, rfl, ⟨?_, by simp⟩, fun j hj => ?_⟩
    · rw [load_congr fun j _ hj => Function.update_of_ne (by omega) ..]
      exact hload
    · dsimp only
      rw [Function.update_of_ne (by omega), hout j hj, hsol₂]

/-- The search finds the canonical path, but returns its length as an `int`. -/
theorem search_spec (hg : Popgrid sp) (hf : sp.size * sp.size < fuel) :
    ∃ r sp', search fuel sp = some (r, sp') ∧
      (¬ (graph sp).Reachable sp.src sp.dst → r = 0) ∧
      ((graph sp).Reachable sp.src sp.dst → ∃ path, Canonical sp path ∧
        r = toInt (solution sp.size path).length ∧ Holds sp'.sol 0 (solution sp.size path)) := by
  obtain ⟨r, sp', hrun, hno, hyes⟩ := search_run hg.walled hf
  refine ⟨r, sp', hrun, fun h => (hno h).1, fun h => ?_⟩
  obtain ⟨path, q, hpath, -, hq, hr, hholds, -⟩ := hyes h
  obtain rfl := hq hg.bound
  exact ⟨q, hpath, hr, hholds⟩

end Oin17.Chals
