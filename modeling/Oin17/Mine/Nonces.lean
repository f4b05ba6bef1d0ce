import Mathlib.Data.Finset.Card
import Mathlib.Data.Nat.ModEq
import Oin17.Chals.Solver.Model
import Oin17.Mine.Model

namespace Oin17.Stride

variable {m r : Nat}

/-- Steps of a length coprime to `r` come back to a residue after `r` of them at
the earliest. -/
theorem apart (hc : Nat.Coprime m r) (a : Nat) (hle : j ≤ k) (hlt : k < j + r)
    (h : (a + m * j) % r = (a + m * k) % r) : j = k := by
  have hmod : m * j ≡ m * k [MOD r] := Nat.ModEq.add_left_cancel' a h
  have hjk : j ≡ k [MOD r] := Nat.ModEq.cancel_left_of_coprime (Nat.coprime_comm.mp hc) hmod
  have hdvd : r ∣ k - j := (Nat.modEq_iff_dvd' hle).mp hjk
  have hzero : k - j = 0 := Nat.eq_zero_of_dvd_of_lt hdvd (by omega)
  omega

/-- So `r` steps in a row come to all of them. -/
theorem covers (hc : Nat.Coprime m r) (a : Nat) (hx : x < r) : ∃ k < r, (a + m * k) % r = x := by
  have hmaps : Set.MapsTo (fun k => (a + m * k) % r) (Finset.range r) (Finset.range r) := by
    intro k _
    exact Finset.mem_coe.mpr (Finset.mem_range.mpr (Nat.mod_lt _ (by omega)))
  have hinj : Set.InjOn (fun k => (a + m * k) % r) (Finset.range r) := by
    intro j hj k hk h
    have hj := Finset.mem_range.mp (Finset.mem_coe.mp hj)
    have hk := Finset.mem_range.mp (Finset.mem_coe.mp hk)
    rcases Nat.le_total j k with hle | hle
    · exact apart hc a hle (by omega) h
    · exact (apart hc a hle (by omega) h.symm).symm
  obtain ⟨k, hk, he⟩ := Finset.surjOn_of_injOn_of_card_le _ hmaps hinj (Nat.le_refl _)
    (Finset.mem_coe.mpr (Finset.mem_range.mpr hx))
  exact ⟨k, Finset.mem_range.mp (Finset.mem_coe.mp hk), he⟩

end Oin17.Stride

namespace Oin17.Mine
open Chals

/-- The nonces of a sequence of calls by the solvers, in the order in which they
step the counter. -/
def draws (slv : Nat → Solver) : UInt64 → List Nat → List UInt64
  | _, [] => []
  | sn, i :: is =>
    let (n, sn) := getnonce sn (slv i).nmin (slv i).nmax
    n :: draws slv sn is

/-- Slices of one width, one above the other. -/
structure Slices (slv : Nat → Solver) (nslv r : Nat) : Prop where
  pos : 0 < r
  width : ∀ i < nslv, (slv i).nmax.toNat = (slv i).nmin.toNat + r
  above : ∀ i j, i < j → j < nslv → (slv i).nmax.toNat ≤ (slv j).nmin.toNat

section Slices
variable {slv : Nat → Solver} {nslv r i j k a : Nat} {sn n : UInt64} {calls : List Nat}

theorem draws_length (slv : Nat → Solver) (sn : UInt64) (calls : List Nat) :
    (draws slv sn calls).length = calls.length := by
  induction calls generalizing sn with
  | nil => rfl
  | cons i is ih => rw [draws, List.length_cons, List.length_cons, ih]

/-- A counter that lasts for one more call. -/
theorem lasts_succ {a b c m : Nat} (h : a + c * (b + 1) < m) : a + c < m ∧ a + c + c * b < m := by
  rw [Nat.mul_succ] at h
  omega

/-- The counter of the `k`-th call, taken into the slice of its solver. -/
theorem Slices.draw (h : Slices slv nslv r) (hc : ∀ i ∈ calls, i < nslv)
    (hw : sn.toNat + 3917 * calls.length < 2 ^ 64) (hk : calls[k]? = some i) :
    ∃ n, (draws slv sn calls)[k]? = some n ∧
      n.toNat = (sn.toNat + 3917 + 3917 * k) % r + (slv i).nmin.toNat := by
  induction calls generalizing sn k with
  | nil => simp at hk
  | cons j is ih =>
    rw [List.length_cons] at hw
    obtain ⟨hsn, hlast⟩ := lasts_succ hw
    cases k with
    | zero =>
      obtain rfl : j = i := Option.some.inj hk
      rw [Nat.mul_zero, Nat.add_zero]
      exact ⟨_, rfl, getnonce_nonce hsn (h.width j (hc j (by simp))) h.pos⟩
    | succ k =>
      have hnext := getnonce_counter hsn (slv j).nmin (slv j).nmax
      rw [← hnext] at hlast
      obtain ⟨n, hn, he⟩ := ih (fun i hi => hc i (List.mem_cons_of_mem j hi)) hlast hk
      rw [draws, List.getElem?_cons_succ]
      refine ⟨n, hn, ?_⟩
      rw [he, hnext, Nat.mul_succ 3917 k, Nat.add_comm (3917 * k), ← Nat.add_assoc]

theorem Slices.inside (h : Slices slv nslv r) (hc : ∀ i ∈ calls, i < nslv)
    (hw : sn.toNat + 3917 * calls.length < 2 ^ 64) (hk : calls[k]? = some i)
    (hn : (draws slv sn calls)[k]? = some n) : (slv i).nmin ≤ n ∧ n < (slv i).nmax := by
  obtain ⟨m, hm, he⟩ := h.draw hc hw hk
  obtain rfl := Option.some.inj (hn.symm.trans hm)
  have hi := h.width i (hc i (List.mem_of_getElem? hk))
  have hlt : (sn.toNat + 3917 + 3917 * k) % r < r := Nat.mod_lt _ h.pos
  rw [UInt64.le_iff_toNat_le, UInt64.lt_iff_toNat_lt]
  omega

/-- A nonce tells whose it is. -/
theorem Slices.owner (h : Slices slv nslv r) (hi : i < nslv) (hj : j < nslv)
    (hni : (slv i).nmin ≤ n ∧ n < (slv i).nmax) (hnj : (slv j).nmin ≤ n ∧ n < (slv j).nmax) :
    i = j := by
  simp only [UInt64.le_iff_toNat_le, UInt64.lt_iff_toNat_lt] at hni hnj
  rcases Nat.lt_trichotomy i j with hlt | heq | hlt
  · have := h.above i j hlt hj
    omega
  · exact heq
  · have := h.above j i hlt hi
    omega

theorem Slices.distinct (h : Slices slv nslv r) (hr : Nat.Coprime 3917 r)
    (hc : ∀ i ∈ calls, i < nslv) (hw : sn.toNat + 3917 * calls.length < 2 ^ 64) (hjk : j ≤ k)
    (hlt : k < j + r) (hnj : (draws slv sn calls)[j]? = some n)
    (hnk : (draws slv sn calls)[k]? = some n) : j = k := by
  have hget : ∀ l : Nat, (draws slv sn calls)[l]? = some n → ∃ i, calls[l]? = some i := by
    intro l hl
    have hlen := (List.getElem?_eq_some_iff.mp hl).1
    rw [draws_length] at hlen
    exact ⟨_, List.getElem?_eq_getElem hlen⟩
  obtain ⟨i, hi⟩ := hget j hnj
  obtain ⟨i', hi'⟩ := hget k hnk
  obtain rfl : i = i' := h.owner (hc i (List.mem_of_getElem? hi)) (hc i' (List.mem_of_getElem? hi'))
    (h.inside hc hw hi hnj) (h.inside hc hw hi' hnk)
  obtain ⟨m, hm, hej⟩ := h.draw hc hw hi
  obtain ⟨m', hm', hek⟩ := h.draw hc hw hi'
  obtain rfl := Option.some.inj (hnj.symm.trans hm)
  obtain rfl := Option.some.inj (hnk.symm.trans hm')
  exact Stride.apart hr _ hjk hlt (Nat.add_right_cancel (hej.symm.trans hek))

theorem Slices.window_nodup (h : Slices slv nslv r) (hr : Nat.Coprime 3917 r)
    (hc : ∀ i ∈ calls, i < nslv) (hw : sn.toNat + 3917 * calls.length < 2 ^ 64) (a : Nat) :
    (((draws slv sn calls).drop a).take r).Nodup := by
  rw [List.nodup_iff_getElem?_ne_getElem?]
  intro j k hjk hk he
  have hkr : k < r := Nat.lt_of_lt_of_le hk (List.length_take_le _ _)
  rw [List.getElem?_take_of_lt (by omega), List.getElem?_take_of_lt hkr, List.getElem?_drop,
    List.getElem?_drop] at he
  rw [List.length_take, List.length_drop] at hk
  obtain ⟨n, hn⟩ : ∃ n, (draws slv sn calls)[a + k]? = some n :=
    ⟨_, List.getElem?_eq_getElem (by omega)⟩
  have := h.distinct hr hc hw (by omega) (by omega) (he.trans hn) hn
  omega

/-- A solver that has a window for itself comes to all of its nonces. -/
theorem Slices.window_covers (h : Slices slv nslv r) (hr : Nat.Coprime 3917 r)
    (hc : ∀ i ∈ calls, i < nslv) (hw : sn.toNat + 3917 * calls.length < 2 ^ 64)
    (hone : ∀ k, a ≤ k → k < a + r → calls[k]? = some i)
    (hn : (slv i).nmin ≤ n ∧ n < (slv i).nmax) :
    (((draws slv sn calls).drop a).take r).count n = 1 := by
  apply List.count_eq_one_of_mem (h.window_nodup hr hc hw a)
  have hi : i < nslv := hc i (List.mem_of_getElem? (hone a (by omega) (by have := h.pos; omega)))
  have hwidth := h.width i hi
  rw [UInt64.le_iff_toNat_le, UInt64.lt_iff_toNat_lt] at hn
  obtain ⟨k, hk, he⟩ := Stride.covers hr (sn.toNat + 3917 + 3917 * a)
    (x := n.toNat - (slv i).nmin.toNat) (by omega)
  obtain ⟨m, hm, hv⟩ := h.draw hc hw (hone (a + k) (by omega) (by omega))
  rw [Nat.mul_add, ← Nat.add_assoc, he, Nat.sub_add_cancel hn.1] at hv
  obtain rfl : m = n := UInt64.toNat_inj.mp hv
  apply List.mem_of_getElem? (i := k)
  rw [List.getElem?_take_of_lt hk, List.getElem?_drop, hm]

end Slices

/-- The solvers as `init_mining` leaves them. -/
def solvers (uq : Int) (i : Nat) : Solver := ((initMining uq).mchl.slvs i).solvr

theorem solvers_slice (uq : Int) {i : Nat} (hi : i < maxslv) :
    (solvers uq i).nmin.toNat = 30000000 + 17500000 * i ∧
      (solvers uq i).nmax.toNat = 30000000 + 17500000 * i + 17500000 := by
  obtain rfl | rfl | rfl | rfl : i = 0 ∨ i = 1 ∨ i = 2 ∨ i = 3 := by
    rw [maxslv] at hi
    omega
  · exact ⟨rfl, rfl⟩
  · exact ⟨rfl, rfl⟩
  · exact ⟨rfl, rfl⟩
  · exact ⟨rfl, rfl⟩

theorem solvers_slices (uq : Int) : Slices (solvers uq) maxslv 17500000 where
  pos := by omega
  width i hi := by
    have := solvers_slice uq hi
    omega
  above i j hij hj := by
    have hsi := solvers_slice uq (Nat.lt_trans hij hj)
    have hsj := solvers_slice uq hj
    omega

/-- Any order of the calls, from any value of the counter that lasts for them. -/
theorem nonces_cover (uq : Int) (sn : UInt64) (calls : List Nat)
    (hc : ∀ i ∈ calls, i < maxslv) (hw : sn.toNat + 3917 * calls.length < 2 ^ 64) :
    (draws (solvers uq) sn calls).length = calls.length ∧
    (∀ (k : Nat) (i : Nat) n, calls[k]? = some i → (draws (solvers uq) sn calls)[k]? = some n →
      (solvers uq i).nmin ≤ n ∧ n < (solvers uq i).nmax) ∧
    (∀ a, (((draws (solvers uq) sn calls).drop a).take 17500000).Nodup) ∧
    ∀ a i, (∀ k : Nat, a ≤ k → k < a + 17500000 → calls[k]? = some i) →
      ∀ n, (solvers uq i).nmin ≤ n → n < (solvers uq i).nmax →
        (((draws (solvers uq) sn calls).drop a).take 17500000).count n = 1 := by
  have h := solvers_slices uq
  have hr : Nat.Coprime 3917 17500000 := by decide
  refine ⟨draws_length _ sn calls, ?_, h.window_nodup hr hc hw, ?_⟩
  · exact fun k i n hk hn => h.inside hc hw hk hn
  · exact fun a i hone n hlo hhi => h.window_covers hr hc hw hone ⟨hlo, hhi⟩

/-- The third solver on its own, for as long as it takes it through its slice. -/
theorem nonces_cover_third :
    (((draws (solvers 0) 0 (List.replicate 17500000 2)).drop 0).take 17500000).count 70000000 =
      1 := by
  have hw : (0 : UInt64).toNat + 3917 * (List.replicate 17500000 2).length < 2 ^ 64 := by
    rw [List.length_replicate]
    decide
  obtain ⟨-, -, -, hone⟩ := nonces_cover 0 0 (List.replicate 17500000 2)
    (fun i hi => (List.mem_replicate.mp hi).2 ▸ by decide) hw
  apply hone 0 2
  · intro k _ hk
    rw [List.getElem?_replicate, if_pos (by omega)]
  · decide
  · decide

end Oin17.Mine
