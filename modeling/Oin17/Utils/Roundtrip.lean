import Oin17.Utils.Hex

namespace Oin17.Utils
open Loop Memory

/-- The characters that stand for a digit, in either case. -/
def HexChar (c : UInt8) : Prop := 48 ≤ c ∧ c ≤ 57 ∨ 97 ≤ c ∧ c ≤ 102 ∨ 65 ≤ c ∧ c ≤ 70

instance (c : UInt8) : Decidable (HexChar c) := inferInstanceAs (Decidable (_ ∨ _))

def toLower (c : UInt8) : UInt8 := if 65 ≤ c ∧ c ≤ 90 then c + 32 else c

/-- Adding nine to a letter and masking gives its digit in both cases. -/
theorem x2b_toLower {c : UInt8} (hc : HexChar c) :
    LowerHex (toLower c) ∧ x2b (toLower c) = x2b c := by
  revert hc
  apply forall_byte (P := fun c => HexChar c → toLower c ∈ hexAlphabet ∧ x2b (toLower c) = x2b c)
  decide +kernel

theorem packHex_toLower {a b : UInt8} (ha : HexChar a) (hb : HexChar b) :
    packHex (toLower a) (toLower b) = packHex a b := by
  rw [packHex, (x2b_toLower ha).2, (x2b_toLower hb).2, packHex]

theorem hexBytes_toLower {s : List UInt8} (hx : ∀ c ∈ s, HexChar c) :
    hexBytes (s.map toLower) = hexBytes s := by
  induction s using hexBytes.induct with
  | case1 a b t ih =>
    simp only [List.map_cons, hexBytes]
    rw [packHex_toLower (hx a (by simp)) (hx b (by simp)), ih fun c hc => hx c (by simp [hc])]
  | case2 t hne =>
    rcases t with _ | ⟨a, _ | ⟨b, t⟩⟩
    · rfl
    · rfl
    · exact absurd rfl (hne a b t)

theorem hexText_hexBytes_lower {s : List UInt8} (hx : ∀ c ∈ s, HexChar c)
    (he : s.length % 2 = 0) : hexText (hexBytes s) = s.map toLower := by
  rw [← hexBytes_toLower hx]
  apply hexText_hexBytes
  · intro c hc
    obtain ⟨d, hd, rfl⟩ := List.mem_map.mp hc
    exact (x2b_toLower (hx d hd)).1
  · rwa [List.length_map]

theorem hexChar_no_nul {s : List UInt8} (hx : ∀ c ∈ s, HexChar c) : 0 ∉ s := by
  intro hz
  exact absurd (hx 0 hz) (by decide)

theorem hexText_lower (bs : List UInt8) : ∀ c ∈ hexText bs, LowerHex c := by
  have hb : ∀ n : UInt8, b2x n ∈ hexAlphabet := by
    intro n
    have hn : (n % 16).toNat < 16 := by
      rw [UInt8.toNat_mod]
      exact Nat.mod_lt _ (by decide)
    rw [b2x, List.getD_eq_getElem?_getD, List.getElem?_eq_getElem hn, Option.getD_some]
    exact List.getElem_mem hn
  intro c hc
  obtain ⟨v, -, hv⟩ := List.mem_flatMap.mp hc
  simp only [hexByte, List.mem_cons, List.not_mem_nil, or_false] at hv
  rcases hv with rfl | rfl
  · exact hb _
  · exact hb _

/-- The text of a buffer, with its NUL, is all that `bin2hex` writes. -/
theorem bin2hex_text (buf d : Buf) (len : Nat) :
    ∃ t, bin2hex buf len (some d) = (2 * len, some t) ∧
      t = store d 0 (hexText (load buf 0 len) ++ [0]) ∧ Holds t 0 (hexText (load buf 0 len)) := by
  have hlen : (hexText (load buf 0 len)).length = 2 * len := by simp [hexText_length]
  refine ⟨_, bin2hex_spec buf d len, ?_, ?_⟩
  · rw [store_append, hlen, ← store_cons, store_nil, Nat.zero_add]
  · rw [← hlen, ← Nat.zero_add (hexText _).length, ← store_nil (Function.update _ _ _) (0 + _ + 1),
      store_cons, ← store_append]
    exact holds_store d _

/-- Both ways of a conversion, for buffers and texts of any length. The first
destination is left alone past the NUL. -/
theorem hex_round_trips (buf d e str : Buf) (len fuel : Nat) (s : List UInt8)
    (hs : Holds str 0 s) (hx : ∀ c ∈ s, HexChar c) (he : s.length % 2 = 0)
    (hlen : len < fuel) (hf : s.length / 2 < fuel) :
    (∃ t r, bin2hex buf len (some d) = (2 * len, some t) ∧
      (∀ i < 2 * len, LowerHex (t i)) ∧ t (2 * len) = 0 ∧ (∀ i, 2 * len < i → t i = d i) ∧
      hex2bin fuel t (some e) = some r ∧ r.j = len ∧
      r.dst = some (store e 0 (load buf 0 len))) ∧
    ∃ r b t, hex2bin fuel str (some e) = some r ∧ r.j = s.length / 2 ∧ r.dst = some b ∧
      bin2hex b r.j (some d) = (s.length, some t) ∧ Holds t 0 (s.map toLower) := by
  constructor
  · obtain ⟨t, hb, ht, hold⟩ := bin2hex_text buf d len
    have hl : (hexText (load buf 0 len)).length = 2 * len := by simp [hexText_length]
    have hr : hex2bin fuel t (some e) = some _ := hex2bin_even
      (lowerHex_no_nul (hexText_lower (load buf 0 len))) (by omega) hold (by omega)
    rw [hexBytes_hexText, hl] at hr
    refine ⟨t, _, hb, ?_, ?_, ?_, hr, by simp, rfl⟩
    · intro i hi
      have hmem : t i ∈ load t 0 (2 * len) := by
        rw [load]
        exact List.mem_map.mpr ⟨i, List.mem_range.mpr hi, by rw [Nat.zero_add]⟩
      rw [← hl, hold.1] at hmem
      exact hexText_lower _ _ hmem
    · rw [← hl, ← hold.2, Nat.zero_add]
    · intro i hi
      rw [ht]
      exact store_out d _ (by simp; omega)
  · have hr : hex2bin fuel str (some e) = some _ := hex2bin_even (hexChar_no_nul hx) he hs hf
    have hload : load (store e 0 (hexBytes s)) 0 (s.length / 2) = hexBytes s := by
      rw [← hexBytes_length]
      exact load_store e 0 _
    obtain ⟨t, hb, -, hold⟩ := bin2hex_text (store e 0 (hexBytes s)) d (s.length / 2)
    rw [hload, hexText_hexBytes_lower hx he] at hold
    refine ⟨_, _, t, hr, by simp, rfl, ?_, hold⟩
    simp only [Nat.zero_add, hb, Prod.mk.injEq, and_true]
    omega

/-- The bytes `ab 01` one way, the text `aB0f` the other. -/
theorem hex_round_trips_mixed :
    (∃ t r, bin2hex (fun i => [0xab, 0x01].getD i 0) 2 (some fun _ => 7) = (2 * 2, some t) ∧
      (∀ i < 2 * 2, LowerHex (t i)) ∧ t (2 * 2) = 0 ∧ (∀ i, 2 * 2 < i → t i = 7) ∧
      hex2bin 3 t (some fun _ => 9) = some r ∧ r.j = 2 ∧
      r.dst = some (store (fun _ => 9) 0 [0xab, 0x01])) ∧
    ∃ r b t, hex2bin 3 (fun i => [97, 66, 48, 102].getD i 0) (some fun _ => 9) = some r ∧
      r.j = 2 ∧ r.dst = some b ∧ bin2hex b r.j (some fun _ => 7) = (4, some t) ∧
      Holds t 0 [97, 98, 48, 102] :=
  hex_round_trips (fun i => [0xab, 0x01].getD i 0) (fun _ => 7) (fun _ => 9) _ 2 3
    [97, 66, 48, 102] ⟨by decide, by decide⟩ (by simp [HexChar]) (by decide) (by decide) (by decide)

end Oin17.Utils
