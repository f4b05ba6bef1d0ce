import Oin17.Lib.Loop
import Oin17.Lib.Memory

namespace Oin17.Utils
open Loop Memory

/-- `char` is signed: a byte from 128 on is not above `'9'`. -/
def x2b (c : UInt8) : UInt8 :=
  (if 57 < c ∧ c < 128 then c + 9 else c) &&& 15

/-- The two halves of a byte, as `hex2bin` joins them. -/
def packHex (hi lo : UInt8) : UInt8 := (x2b hi <<< 4) ||| x2b lo

structure Hex2bin where
  i : Nat
  j : Nat
  dst : Option Buf
  /-- The indices of `str` read so far. -/
  reads : List Nat

/-- One pass of the loop of `hex2bin`. Only the first character of a pair is
compared with NUL; the second is read when there is a destination. -/
def hex2binBody (str : Buf) (s : Hex2bin) : Option (Hex2bin ⊕ Hex2bin) :=
  let seen := s.reads ++ [s.i]
  if str s.i = 0 then some (.inr { s with reads := seen })
  else match s.dst with
    | none => some (.inl { s with i := s.i + 2, j := s.j + 1, reads := seen })
    | some d => some (.inl
        { i := s.i + 2, j := s.j + 1,
          dst := some (Function.update d s.j (packHex (str s.i) (str (s.i + 1)))),
          reads := seen ++ [s.i + 1] })

/-- The count of bytes is the final `j`. -/
def hex2bin (fuel : Nat) (str : Buf) (dst : Option Buf) : Option Hex2bin :=
  run (hex2binBody str) fuel { i := 0, j := 0, dst := dst, reads := [] }

def hexAlphabet : List UInt8 :=
  [48, 49, 50, 51, 52, 53, 54, 55, 56, 57, 97, 98, 99, 100, 101, 102]

def b2x (c : UInt8) : UInt8 := hexAlphabet.getD (c % 16).toNat 0

/-- The two characters of a byte. -/
def hexByte (v : UInt8) : List UInt8 := [b2x ((v &&& 0xf0) >>> 4), b2x (v &&& 0x0f)]

def bin2hex (buf : Buf) (len : Nat) (dst : Option Buf) : Nat × Option Buf :=
  let (j, dst) := forRange 0 len (fun i (s : Nat × Option Buf) =>
    (s.1 + 2, s.2.map fun d => store d s.1 (hexByte (buf i)))) (0, dst)
  (j, dst.map fun d => Function.update d j 0)

/-- `memcmp`, on the bytes it compares. -/
def memcmpBytes : List UInt8 → List UInt8 → Int
  | x :: xs, y :: ys => if x = y then memcmpBytes xs ys else (x.toNat : Int) - y.toNat
  | _, _ => 0

def memcmp (a b : Buf) (n : Nat) : Int := memcmpBytes (load a 0 n) (load b 0 n)

def LowerHex (c : UInt8) : Prop := c ∈ hexAlphabet

/-- The text of a buffer of bytes. -/
def hexText (bs : List UInt8) : List UInt8 := bs.flatMap hexByte

/-- The bytes of a text of whole pairs. -/
def hexBytes : List UInt8 → List UInt8
  | a :: b :: t => packHex a b :: hexBytes t
  | _ => []

theorem memcmpBytes_zero (xs ys : List UInt8) (hl : xs.length = ys.length) :
    memcmpBytes xs ys = 0 ↔ xs = ys := by
  induction xs generalizing ys with
  | nil => cases ys <;> simp_all [memcmpBytes]
  | cons x xs ih =>
    cases ys with
    | nil => simp at hl
    | cons y ys =>
      have hlen : xs.length = ys.length := by simpa using hl
      by_cases hxy : x = y
      · simp [memcmpBytes, hxy, ih ys hlen]
      · have hne : (x.toNat : Int) - y.toNat ≠ 0 := by
          intro he
          exact hxy (UInt8.toNat_inj.mp (by omega))
        simp [memcmpBytes, hxy, hne]

theorem memcmp_zero (a b : Buf) (n : Nat) : memcmp a b n = 0 ↔ load a 0 n = load b 0 n :=
  memcmpBytes_zero _ _ (by simp)

/-- A fact about bytes, from its 256 cases. -/
theorem forall_byte {P : UInt8 → Prop} (h : ∀ n < 256, P (UInt8.ofNat n)) (v : UInt8) : P v := by
  have hv := h v.toNat v.toNat_lt
  rwa [UInt8.ofNat_toNat] at hv

/-- A digit pair and the byte it stands for determine each other. -/
theorem hexByte_packHex {a b : UInt8} (ha : LowerHex a) (hb : LowerHex b) :
    hexByte (packHex a b) = [a, b] := by
  have hall : ∀ a ∈ hexAlphabet, ∀ b ∈ hexAlphabet, hexByte (packHex a b) = [a, b] := by
    decide +kernel
  exact hall a ha b hb

theorem packHex_hexByte (v : UInt8) :
    packHex (b2x ((v &&& 0xf0) >>> 4)) (b2x (v &&& 0x0f)) = v := by
  apply forall_byte (P := fun v => packHex (b2x ((v &&& 0xf0) >>> 4)) (b2x (v &&& 0x0f)) = v)
  decide +kernel

theorem hexBytes_hexText (bs : List UInt8) : hexBytes (hexText bs) = bs := by
  induction bs with
  | nil => rfl
  | cons v bs ih =>
    change hexBytes (hexByte v ++ hexText bs) = v :: bs
    simp only [hexByte, List.cons_append, List.nil_append, hexBytes, packHex_hexByte, ih]

theorem hexText_hexBytes {h : List UInt8} (hx : ∀ c ∈ h, LowerHex c) (he : h.length % 2 = 0) :
    hexText (hexBytes h) = h := by
  induction h using hexBytes.induct with
  | case1 a b t ih =>
    simp only [hexBytes, hexText, List.flatMap_cons]
    rw [hexByte_packHex (hx a (by simp)) (hx b (by simp))]
    have ht := ih (fun c hc => hx c (by simp [hc])) (by simp only [List.length_cons] at he; omega)
    rw [hexText] at ht
    rw [ht]
    rfl
  | case2 t hne =>
    match t, hne with
    | [], _ => rfl
    | [_], _ => simp at he
    | a :: b :: t, hne => exact absurd rfl (hne a b t)

theorem hexText_append (xs ys : List UInt8) : hexText (xs ++ ys) = hexText xs ++ hexText ys :=
  List.flatMap_append

theorem hexText_length (bs : List UInt8) : (hexText bs).length = 2 * bs.length := by
  induction bs with
  | nil => rfl
  | cons v bs ih =>
    change (hexByte v ++ hexText bs).length = _
    simp only [List.length_append, ih, hexByte, List.length_cons, List.length_nil]
    omega

theorem hexBytes_length (h : List UInt8) : (hexBytes h).length = h.length / 2 := by
  induction h using hexBytes.induct with
  | case1 a b t ih => simp only [hexBytes, List.length_cons, ih]; omega
  | case2 t hne =>
    match t, hne with
    | [], _ => rfl
    | [_], _ => simp [hexBytes]
    | a :: b :: t, hne => exact absurd rfl (hne a b t)

theorem lowerHex_no_nul {h : List UInt8} (hx : ∀ c ∈ h, LowerHex c) : 0 ∉ h := by
  intro hz
  simpa [LowerHex, hexAlphabet] using hx 0 hz

theorem hex2binBody_nul {str : Buf} (h : str i = 0) :
    hex2binBody str ⟨i, j, d, reads⟩ = some (.inr ⟨i, j, d, reads ++ [i]⟩) := by
  simp [hex2binBody, h]

theorem hex2binBody_pair {str : Buf} (h : str i ≠ 0) :
    hex2binBody str ⟨i, j, some d, reads⟩ = some (.inl ⟨i + 2, j + 1,
      some (Function.update d j (packHex (str i) (str (i + 1)))), reads ++ [i] ++ [i + 1]⟩) := by
  simp [hex2binBody, h]

/-- Where `hex2bin` stops: it only compares every second character with NUL. -/
def HexLen (str : Buf) (n : Nat) : Prop := str (2 * n) = 0 ∧ ∀ k < n, str (2 * k) ≠ 0

/-- The bytes of the pairs from `i` on. -/
def packs (str : Buf) (i n : Nat) : List UInt8 :=
  (List.range n).map fun k => packHex (str (i + 2 * k)) (str (i + 2 * k + 1))

theorem packs_succ (str : Buf) (i n : Nat) :
    packs str i (n + 1) = packHex (str i) (str (i + 1)) :: packs str (i + 2) n := by
  rw [packs, List.range_succ_eq_map, List.map_cons, List.map_map]
  refine congrArg _ (List.map_congr_left fun k _ => ?_)
  rw [Function.comp_apply, show i + 2 * (k + 1) = i + 2 + 2 * k by omega]

theorem hex2bin_run {str d : Buf} (i j : Nat) (reads : List Nat) (hz : str (i + 2 * n) = 0)
    (hne : ∀ k < n, str (i + 2 * k) ≠ 0) (hf : n < fuel) :
    ∃ r, run (hex2binBody str) fuel ⟨i, j, some d, reads⟩ = some r ∧ r.j = j + n ∧
      r.dst = some (store d j (packs str i n)) := by
  induction n generalizing i j d reads fuel with
  | zero =>
    obtain ⟨fuel, rfl⟩ := Nat.exists_eq_succ_of_ne_zero (Nat.ne_zero_of_lt hf)
    rw [run_leave (hex2binBody_nul (by simpa using hz))]
    exact ⟨_, rfl, rfl, by rw [packs, List.range_zero, List.map_nil, store_nil]⟩
  | succ n ih =>
    obtain ⟨fuel, rfl⟩ := Nat.exists_eq_succ_of_ne_zero (Nat.ne_zero_of_lt hf)
    rw [run_pass (hex2binBody_pair (by simpa using hne 0 (Nat.succ_pos n)))]
    have hz' : str (i + 2 + 2 * n) = 0 := by
      rwa [show i + 2 + 2 * n = i + 2 * (n + 1) by omega]
    have hne' : ∀ k < n, str (i + 2 + 2 * k) ≠ 0 := by
      intro k hk
      rw [show i + 2 + 2 * k = i + 2 * (k + 1) by omega]
      exact hne (k + 1) (by omega)
    obtain ⟨r, hr, hj, hd⟩ := ih (d := Function.update d j (packHex (str i) (str (i + 1))))
      (i + 2) (j + 1) (reads ++ [i] ++ [i + 1]) hz' hne' (Nat.lt_of_succ_lt_succ hf)
    refine ⟨r, hr, by omega, ?_⟩
    rw [hd, packs_succ, store_cons]

theorem hex2bin_stops {str : Buf} {s r : Hex2bin} (h : run (hex2binBody str) fuel s = some r) :
    ∃ n < fuel, str (s.i + 2 * n) = 0 ∧ ∀ k < n, str (s.i + 2 * k) ≠ 0 := by
  induction fuel generalizing s with
  | zero => cases h
  | succ fuel ih =>
    by_cases hz : str s.i = 0
    · exact ⟨0, Nat.succ_pos fuel, hz, by simp⟩
    · have hpass : ∃ t, hex2binBody str s = some (.inl t) ∧ t.i = s.i + 2 := by
        unfold hex2binBody
        dsimp only
        rw [if_neg hz]
        cases s.dst with
        | none => exact ⟨_, rfl, rfl⟩
        | some d => exact ⟨_, rfl, rfl⟩
      obtain ⟨t, ht, hi⟩ := hpass
      rw [run_pass ht] at h
      obtain ⟨n, hn, hstop, hgo⟩ := ih h
      rw [hi] at hstop hgo
      refine ⟨n + 1, by omega, ?_, fun k hk => ?_⟩
      · rwa [show s.i + 2 * (n + 1) = s.i + 2 + 2 * n by omega]
      · cases k with
        | zero => exact hz
        | succ k =>
          rw [show s.i + 2 * (k + 1) = s.i + 2 + 2 * k by omega]
          exact hgo k (by omega)

/-- What `hex2bin` does with a destination, whatever the text. -/
theorem hex2bin_iff {str d : Buf} (hf : n < fuel) : HexLen str n ↔
    ∃ r, hex2bin fuel str (some d) = some r ∧ r.j = n ∧ r.dst = some (store d 0 (packs str 0 n)) := by
  constructor
  · intro h
    obtain ⟨r, hr, hj, hd⟩ := hex2bin_run (d := d) 0 0 []
      (by rw [Nat.zero_add]; exact h.1) (fun k hk => by rw [Nat.zero_add]; exact h.2 k hk) hf
    exact ⟨r, hr, by omega, hd⟩
  · rintro ⟨r, hr, hj, -⟩
    obtain ⟨m, hm, hz, hne⟩ := hex2bin_stops hr
    simp only [Nat.zero_add] at hz hne
    obtain ⟨r', hr', hj', -⟩ := hex2bin_run (d := d) 0 0 []
      (by rw [Nat.zero_add]; exact hz) (fun k hk => by rw [Nat.zero_add]; exact hne k hk) hm
    have hrun : hex2bin fuel str (some d) = some r' := hr'
    obtain rfl : r = r' := Option.some.inj (hr.symm.trans hrun)
    obtain rfl : n = m := by omega
    exact ⟨hz, hne⟩

/-- On whole pairs the loop stops on the NUL itself. -/
theorem hex2bin_even {str d : Buf} {h : List UInt8} (hx : 0 ∉ h)
    (he : h.length % 2 = 0) (hs : Holds str i h) (hf : h.length / 2 < fuel) :
    run (hex2binBody str) fuel ⟨i, j, some d, reads⟩ =
      some ⟨i + h.length, j + h.length / 2, some (store d j (hexBytes h)),
        reads ++ List.range' i (h.length + 1)⟩ := by
  obtain ⟨fuel, rfl⟩ : ∃ n, fuel = n + 1 := ⟨fuel - 1, by omega⟩
  induction h using hexBytes.induct generalizing i j d reads fuel with
  | case1 a b t ih =>
    have ha : str i = a := hs.head
    have hb : str (i + 1) = b := hs.tail.head
    simp only [List.length_cons] at he hf
    obtain ⟨fuel, rfl⟩ : ∃ n, fuel = n + 1 := ⟨fuel - 1, by omega⟩
    simp only [List.mem_cons, not_or] at hx
    rw [run_pass (hex2binBody_pair (ha ▸ Ne.symm hx.1))]
    rw [ih hx.2.2 (by omega) hs.tail.tail fuel (by omega)]
    rw [ha, hb, store_cons]
    simp only [hexBytes, List.length_cons, Option.some.injEq, Hex2bin.mk.injEq, true_and]
    refine ⟨by omega, by omega, ?_⟩
    simp [List.range'_succ, List.append_assoc]
  | case2 t hne =>
    match t, hne with
    | [], _ =>
      rw [run_leave (hex2binBody_nul (by simpa using hs.2))]
      simp [hexBytes, store_nil]
    | [_], _ => simp at he
    | a :: b :: t, hne => exact absurd rfl (hne a b t)

/-- What was read before a pass, and what the pass compares with NUL, is in the
reads of the result. -/
theorem hex2bin_reads {str : Buf} {s r : Hex2bin} (h : run (hex2binBody str) fuel s = some r) :
    ∀ k ∈ s.reads ++ [s.i], k ∈ r.reads := by
  induction fuel generalizing s with
  | zero => simp [run] at h
  | succ fuel ih =>
    obtain ⟨i, j, d, reads⟩ := s
    intro k hk
    by_cases hz : str i = 0
    · rw [run_leave (hex2binBody_nul hz)] at h
      cases h
      exact hk
    · cases d with
      | none =>
        have hb : hex2binBody str ⟨i, j, none, reads⟩ =
            some (.inl ⟨i + 2, j + 1, none, reads ++ [i]⟩) := by simp [hex2binBody, hz]
        rw [run_pass hb] at h
        exact ih h k (List.mem_append_left _ hk)
      | some d =>
        rw [run_pass (hex2binBody_pair hz)] at h
        exact ih h k (List.mem_append_left _ (List.mem_append_left _ hk))

/-- With a character left over, the NUL is taken for the second one of a pair
and the next comparison is past it. -/
theorem hex2bin_odd {str d : Buf} {h : List UInt8} (hx : 0 ∉ h)
    (ho : h.length % 2 = 1) (hs : Holds str i h)
    (hr : run (hex2binBody str) fuel ⟨i, j, some d, reads⟩ = some r) :
    i + h.length + 1 ∈ r.reads := by
  induction h using hexBytes.induct generalizing i j d reads fuel with
  | case1 a b t ih =>
    simp only [List.mem_cons, not_or] at hx
    have hne : str i ≠ 0 := hs.head ▸ Ne.symm hx.1
    rcases run_some hr with hb | ⟨s, n, _, hb, hn⟩
    · simp [hex2binBody_pair hne] at hb
    · rw [hex2binBody_pair hne] at hb
      cases hb
      simp only [List.length_cons] at ho ⊢
      have := ih hx.2.2 (by omega) hs.tail.tail hn
      rwa [show i + (t.length + 1 + 1) + 1 = i + 2 + t.length + 1 by omega]
  | case2 t hne =>
    match t, hne with
    | [], _ => simp at ho
    | [a], _ =>
      have hnz : str i ≠ 0 := hs.head ▸ (List.ne_of_not_mem_cons hx).symm
      rcases run_some hr with hb | ⟨s, n, _, hb, hn⟩
      · simp [hex2binBody_pair hnz] at hb
      · rw [hex2binBody_pair hnz] at hb
        cases hb
        exact hex2bin_reads hn (i + 2) (by simp)
    | a :: b :: t, hne => exact absurd rfl (hne a b t)

theorem bin2hex_spec (buf d : Buf) (len : Nat) :
    bin2hex buf len (some d) =
      (2 * len, some (Function.update (store d 0 (hexText (load buf 0 len))) (2 * len) 0)) := by
  have hI := forRange_inv (a := 0) (n := len)
    (f := fun i (s : Nat × Option Buf) =>
      (s.1 + 2, s.2.map fun d => store d s.1 (hexByte (buf i)))) (s := (0, some d))
    (fun i s => s = (2 * i, some (store d 0 (hexText (load buf 0 i)))))
    (by simp [hexText, store_nil])
    (by
      rintro i s _ _ rfl
      have hlen : (hexText (load buf 0 i)).length = 2 * i := by simp [hexText_length]
      simp only [Option.map_some, Prod.mk.injEq, Option.some.injEq]
      refine ⟨by omega, ?_⟩
      rw [load_succ, hexText_append, store_append, hlen]
      simp [hexText])
  rw [Nat.zero_add] at hI
  simp only [bin2hex, hI, Option.map_some]

end Oin17.Utils
