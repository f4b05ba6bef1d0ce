import Oin17.Tpool.Singles
import Oin17.Tpool.Workers

namespace Oin17.Tpool
open Dialogue Function Links

/-- What is left of `tpool_start` for a pool of one thread: it looks at the threads until one does
not run, and starts that one in the pool it returns, unless it has given up. -/
inductive Seeks (e : Flags) (func arg : Addr) : Prog Req Bool Vars Int → Prop
  | full (hr : r < 0) : Seeks e func arg (.done r v)
  | look (h : Seeks e func arg (k (e.running t))) : Seeks e func arg (.ask (.running t) v k)
  | found (hrun : e.running t = false) (hpool : v.pool t = some p)
      (hwork : (v.pools p).func = func ∧ (v.pools p).arg = arg) (hk : k true = .done (p : Nat) u)
      (hu : u.pool = v.pool) : Seeks e func arg (.ask (.set t true) v k)

section Codes
variable {npools : UInt64} {v : Vars} {e : Flags} {active : Finset Nat} {l : Nat → List Nat}

theorem Seeks.shows {p : Prog Req Bool Vars Int} (h : Seeks e func arg p) : ∃ v, Shows p v := by
  cases h with
  | full _ => exact ⟨_, rfl⟩
  | look _ => exact ⟨_, rfl⟩
  | found _ _ _ _ _ => exact ⟨_, rfl⟩

theorem assign_full (h : (v.pools p).nthreads = (v.pools p).max) (is : List Nat) :
    assign p is v = .done () v := by
  cases is with
  | nil => rfl
  | cons i is => simp only [assign, run_bind, run_get, Prog.bind, run_ite, if_pos h, run_pure]

theorem assign_seeks {is : List Nat} {f : Unit → Tp Int} {func arg : Addr}
    (hp : v.pools p = ⟨1, func, arg, 0, none⟩)
    (hf : ∀ v, ∃ u, f () v = .done p u ∧ u.pool = v.pool)
    (hidle : ∃ t ∈ is, e.running t = false) : Seeks e func arg ((assign p is >>= f) v) := by
  induction is with
  | nil =>
    obtain ⟨t, ht, -⟩ := hidle
    cases ht
  | cons i is ih =>
    have hroom : (v.pools p).nthreads ≠ (v.pools p).max := by
      rw [hp]
      exact Nat.zero_ne_one
    simp only [assign, run_bind, run_get, Prog.bind, run_ite, if_neg hroom, run_ask]
    apply Seeks.look
    cases hrun : e.running i with
    | true =>
      rw [if_pos rfl]
      apply ih
      obtain ⟨t, ht, hidle⟩ := hidle
      rcases List.mem_cons.mp ht with rfl | ht
      · cases hrun.symm.trans hidle
      · exact ⟨t, ht, hidle⟩
    | false =>
      simp only [Bool.false_eq_true, if_false, threadStart, run_bind, run_modify, run_ask,
        Prog.bind, run_pure]
      have hfull : ((v.link i p).pools p).nthreads = ((v.link i p).pools p).max := by
        simp [hp]
      obtain ⟨u, hu, hpool⟩ := hf (v.link i p)
      refine .found (p := p) hrun (by simp) (by simp [hp]) ?_ hpool
      rw [assign_full hfull]
      exact hu

theorem Single.seeks (h : Single npools (v, e) active l) (func arg : Addr) :
    Seeks e func arg (Call.code npools (.start 1 func arg) v) := by
  simp only [Call.code, tpoolStart, run_bind, run_get, Prog.bind]
  cases hfind : (List.range npools.toNat).find? fun p => (v.pools p).threads.isNone with
  | none => exact .full (by decide)
  | some p =>
    have hp : p < npools.toNat := List.mem_range.mp (List.mem_of_find?_eq_some hfind)
    have hnone := List.find?_some hfind
    have hl : l p = [] := (h.sound.empty_iff p).mp (Option.isNone_iff_eq_none.mp hnone)
    have hlt := h.card_lt hp hl
    obtain ⟨t, htn, ht⟩ := h.exists_idle hlt
    have hroom : npools - (v.setPool p fun _ => ⟨1, func, arg, 0, none⟩).njobs ≠ 0 := by
      have hne : (v.setPool p fun _ => ⟨1, func, arg, 0, none⟩).njobs ≠ npools := h.room hlt
      grind
    simp only [run_bind, run_modify, Prog.bind, Tpool.start, run_get, run_ite, if_pos hroom]
    exact assign_seeks (setPool_self v p _) (fun v => ⟨_, rfl, rfl⟩) ⟨t, List.mem_range.mpr htn, ht⟩

theorem sharePass_full {ps : List Nat} (h : ∀ p, (v.pools p).nthreads = 0 ∨
    (v.pools p).nthreads = (v.pools p).max) (t n : Nat) :
    sharePass npools ps t n v = .done (some (t, n)) v := by
  induction ps with
  | nil => rfl
  | cons p ps ih =>
    simp only [sharePass, run_bind, run_get, Prog.bind, run_ite, if_pos (h p)]
    exact ih

theorem redistributeThreads_full (h : ∀ p, (v.pools p).nthreads = 0 ∨
    (v.pools p).nthreads = (v.pools p).max) (fuel t : Nat) :
    redistributeThreads npools (fuel + 1) t v = .done () v := by
  simp only [redistributeThreads, run_bind, sharePass_full h, Prog.bind]
  rfl

theorem threadStop_run (h : v.pool t = some p) :
    threadStop t v = .ask (.set t false) v fun _ => .done () (v.unlink t p) := by
  simp only [threadStop, run_bind, run_ask, Prog.bind, run_get, h, run_modify]

theorem stopThreads_run (hhead : (v.pools p).threads = some t) (hpool : v.pool t = some p)
    (hnext : v.next t = none) (fuel : Nat) :
    stopThreads p (fuel + 2) v = .ask (.set t false) v fun _ => .done () (v.unlink t p) := by
  have hnone : ((v.unlink t p).pools p).threads = none := by simp [hnext]
  simp only [stopThreads, run_bind, run_get, Prog.bind, hhead, threadStop_run hpool, hnone,
    run_pure]

/-- No pool takes more threads. -/
theorem Single.full (h : Single npools (v, e) active l) (p : Nat) :
    (v.pools p).nthreads = 0 ∨ (v.pools p).nthreads = (v.pools p).max := by
  have hlen : (l p).length = (v.pools p).nthreads := h.sound.length p
  by_cases hp : p ∈ active
  · have hone : (v.pools p).max = 1 := h.one p hp
    right
    rw [hone, ← hlen, h.length hp]
  · have hl : l p = [] := not_not.mp fun hne => hp ((h.mem p).mpr hne)
    left
    rw [← hlen, hl, List.length_nil]

/-- `tpool_stop` of a pool with one thread only asks that it stops. -/
theorem Single.stop_code (h : Single npools (v, e) active l) {id : Int} (hpos : 0 ≤ id)
    (hl : l id.toNat = [t]) : Call.code npools (.stop id) v =
      .ask (.set t false) v fun _ => .done 0 { v.unlink t id.toNat with njobs := v.njobs - 1 } := by
  have hlt := h.lt ((h.mem id.toNat).mpr (by simp [hl]))
  have hin : 0 ≤ id ∧ id < npools.toNat := ⟨hpos, by omega⟩
  have hc : Chain v.next (v.pools id.toNat).threads [t] := hl ▸ h.sound.chain id.toNat
  have hpool : v.pool t = some id.toNat := ((h.sound.mem id.toNat t).mp (hl ▸ List.mem_cons_self)).2
  have hfull : ∀ p, ((v.unlink t id.toNat).pools p).nthreads = 0 ∨
      ((v.unlink t id.toNat).pools p).nthreads = ((v.unlink t id.toNat).pools p).max := by
    intro p
    by_cases hp : p = id.toNat
    · have hlen := h.sound.length id.toNat
      rw [hl, List.length_singleton] at hlen
      left
      rw [hp, unlink_pools, update_self, ← hlen]
    · rw [unlink_pools, update_of_ne hp]
      exact h.full p
  obtain ⟨n, hn⟩ := Nat.exists_eq_succ_of_ne_zero (Nat.ne_zero_of_lt hlt)
  simp only [Call.code, tpoolStop, run_ite, if_pos hin, run_bind]
  rw [hn, stopThreads_run hc.head hpool hc.tail.head, ← hn]
  simp only [Prog.bind, run_bind, redistributeThreads_full hfull, run_modify, run_pure]
  rfl

end Codes

end Oin17.Tpool
