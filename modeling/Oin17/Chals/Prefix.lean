import Oin17.Utils.Hex

namespace Oin17.Chals
open Memory Utils

def sha256Len : Nat := 32

/-- The solvers' acceptance test, shared by `sortlist` and `shortpath`. -/
def accepts (d pfix : Buf) (plen : Nat) : Bool := memcmp d pfix plen == 0

/-- The digest in hexadecimal, as `bin2hex` writes it. -/
def digestText (d : Buf) : List UInt8 :=
  let (n, text) := bin2hex d sha256Len (some fun _ => 0)
  load (text.getD fun _ => 0) 0 n

/-- Setting `pfix` and `plen` from a received `hash_prefix` ends, makes the
acceptance test the server's prefix test, and reads nothing past the NUL. -/
def PrefixTest (str pfix d : Buf) (h : List UInt8) : Prop :=
  ∃ fuel r out, hex2bin fuel str (some pfix) = some r ∧ r.dst = some out ∧
    (accepts d out r.j = true ↔ h <+: digestText d) ∧ ∀ k ∈ r.reads, k ≤ h.length

theorem digestText_eq (d : Buf) : digestText d = hexText (load d 0 sha256Len) := by
  have hlen : (hexText (load d 0 sha256Len)).length = 2 * sha256Len := by simp [hexText_length]
  simp only [digestText, bin2hex_spec, Option.getD_some]
  rw [← load_congr (b := store (fun _ => 0) 0 (hexText (load d 0 sha256Len)))]
  · rw [← hlen, load_store]
  · intro i _ hi
    rw [Function.update_of_ne (by omega)]

/-- The byte prefix and the text prefix agree on whole pairs. -/
theorem accepts_prefix {h : List UInt8} (hx : ∀ c ∈ h, LowerHex c) (he : h.length % 2 = 0)
    (hl : h.length ≤ 64) (d pfix : Buf) :
    accepts d (store pfix 0 (hexBytes h)) (h.length / 2) = true ↔ h <+: digestText d := by
  have hbytes : load (store pfix 0 (hexBytes h)) 0 (h.length / 2) = hexBytes h := by
    rw [← hexBytes_length, load_store]
  have htext := hexText_hexBytes hx he
  have hsplit : digestText d =
      hexText (load d 0 (h.length / 2)) ++ hexText (load d (h.length / 2) (32 - h.length / 2)) := by
    rw [digestText_eq, ← hexText_append]
    congr 1
    rw [show sha256Len = h.length / 2 + (32 - h.length / 2) by simp only [sha256Len]; omega]
    rw [load_add, Nat.zero_add]
  have hlen : (hexText (load d 0 (h.length / 2))).length = h.length := by
    rw [hexText_length, load_length]
    omega
  rw [accepts, beq_iff_eq, memcmp_zero, hbytes, hsplit]
  constructor
  · intro heq
    rw [heq, htext]
    exact List.prefix_append _ _
  · intro hpre
    have heq : h = hexText (load d 0 (h.length / 2)) :=
      (List.prefix_of_prefix_length_le hpre (List.prefix_append _ _) (by omega)).eq_of_length
        (by omega)
    rw [← hexBytes_hexText (load d 0 (h.length / 2)), ← heq]

/-- The prefix test is right exactly on the prefixes of even length. -/
theorem prefix_test_iff (str pfix d : Buf) (h : List UInt8) (hx : ∀ c ∈ h, LowerHex c)
    (hl : h.length ≤ 64) (hs : Holds str 0 h) : PrefixTest str pfix d h ↔ h.length % 2 = 0 := by
  constructor
  · rintro ⟨fuel, r, out, hr, _, _, hreads⟩
    by_contra ho
    have hover := hex2bin_odd (lowerHex_no_nul hx) (by omega) hs hr
    have := hreads _ hover
    omega
  · intro he
    refine ⟨h.length / 2 + 1, _, _, hex2bin_even (lowerHex_no_nul hx) he hs (by omega), rfl, ?_, ?_⟩
    · simpa using accepts_prefix hx he hl d pfix
    · intro k hk
      simp only [List.nil_append, List.mem_range'_1] at hk
      omega

/-- The prefix `abc`, in memory that is zero from its NUL on. -/
def abc : Buf := fun i => [97, 98, 99].getD i 0

/-- A digest whose text starts with `abc`. -/
def abcDigest : Buf := fun i => [0xab, 0xc5].getD i 0

theorem prefix_test_ab :
    PrefixTest (fun i => [97, 98].getD i 0) (fun _ => 0) abcDigest [97, 98] ↔ 2 % 2 = 0 :=
  prefix_test_iff _ _ _ [97, 98] (by simp [LowerHex, hexAlphabet]) (by decide)
    ⟨by decide, by decide⟩

/-- On `abc` the loop compares the byte at index 4, past the NUL at index 3,
stores the bytes `ab c0` and rejects a digest that starts with `abc`. -/
theorem prefix_test_abc :
    ((hex2bin 3 abc (some fun _ => 0)).map fun r => (r.j, r.reads)) = some (2, [0, 1, 2, 3, 4]) ∧
    ((hex2bin 3 abc (some fun _ => 0)).map fun r => (r.dst.map fun b => load b 0 2)) =
      some (some [0xab, 0xc0]) ∧
    [97, 98, 99] <+: digestText abcDigest ∧
    ((hex2bin 3 abc (some fun _ => 0)).map fun r =>
      r.dst.map fun b => accepts abcDigest b r.j) = some (some false) ∧
    ¬ PrefixTest abc (fun _ => 0) abcDigest [97, 98, 99] := by
  refine ⟨by decide, by decide, by decide, by decide, ?_⟩
  rintro ⟨fuel, r, out, hr, _, _, hreads⟩
  have hx : ∀ c ∈ ([97, 98, 99] : List UInt8), LowerHex c := by simp [LowerHex, hexAlphabet]
  have hover := hex2bin_odd (lowerHex_no_nul hx) (by decide) ⟨by decide, by decide⟩ hr
  exact absurd (hreads _ hover) (by decide)

end Oin17.Chals
